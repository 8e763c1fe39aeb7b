import Wippy.Lib.TxnStore
import Wippy.Theorems.Kv.Raft.Command
import Wippy.Theorems.Kv.Raft.Versions

/-! The transactions of the kv are those of a `TxnStore`, from the bytes of the log to the reads of a published
    table. -/

namespace Wippy.Kv.Raft
open Lib List

variable {α : Type}

/-- The code of a condition, and the version that it expects. -/
def condCode : Cond → TxnCond × Version
  | .any => (.condAny, 0)
  | .absent => (.condAbsent, 0)
  | .present => (.condExists, 0)
  | .version n => (.condVersion, UInt64.ofNat n)

section
variable (enc : α → Bytes)

/-- An operation as a client submits it, its value encoded by `enc`. -/
def submitted (op : Lib.TxnOp Bytes α) : TxnOp where
  key := op.key
  cond := (condCode op.cond).1
  expect := (condCode op.cond).2
  kind := match op with | .check .. => .txnCheck | .put .. => .txnPut | .delete .. => .txnDelete
  value := match op with | .put _ _ v => enc v | _ => []

/-- The operation fits its encoding. -/
structure Submits (op : Lib.TxnOp Bytes α) : Prop where
  fits : (submitted enc op).Fits
  expect : ∀ n, op.cond = .version n → n < 2 ^ 64

/-- The tables show the store. -/
structure Shows (t : Table) (s : TxnStore Bytes α) : Prop where
  entries : ∀ k, (t.entries k).map (fun e => (e.value, e.version.toNat)) = (s.get k).map fun e =>
    (enc e.value, e.version)
  version : t.version.toNat = s.version

variable {enc} {t : Table} {s : TxnStore Bytes α} {op : Lib.TxnOp Bytes α} {ops : List (Lib.TxnOp Bytes α)}

theorem Shows.holds (h : Shows enc t s) (hop : Submits enc op) :
    condHolds (submitted enc op).cond (submitted enc op).expect (t.entries op.key) = s.holds op := by
  have hk := h.entries op.key
  have hn := hop.expect
  simp only [submitted, TxnStore.holds]
  cases ht : t.entries op.key <;> cases hs : s.get op.key <;> rw [ht, hs] at hk <;> try cases hk
  · cases op.cond <;> rfl
  · cases hc : op.cond with
    | version n =>
      obtain ⟨-, hv⟩ := Prod.mk.inj (Option.some.inj hk)
      have hn : (UInt64.ofNat n).toNat = n := UInt64.toNat_ofNat_of_lt' (hn n hc)
      simp [condCode, condHolds, Cond.holds, ← hv, ← UInt64.toNat_inj, hn]
    | _ => rfl

theorem Shows.applyOp (h : Shows enc t s) (hroom : s.version + 1 < 2 ^ 64) (index : UInt64) (op : Lib.TxnOp Bytes α) :
    Shows enc (t.applyTxnOp index (submitted enc op)) (s.applyOp op) ∧ (s.applyOp op).version ≤ s.version + 1 := by
  cases op with
  | check c k => exact ⟨h, Nat.le_add_right ..⟩
  | put c k v =>
    have hnat : (t.version + 1).toNat = s.version + 1 := by
      rw [UInt64.toNat_add, h.version]
      exact Nat.mod_eq_of_lt hroom
    refine ⟨⟨fun k' => ?_, hnat⟩, Nat.le_refl _⟩
    show Option.map _ (Function.update t.entries k _ k') = Option.map _ ((s.entries.insert k _).lookup k')
    rw [Function.update_apply, Map.lookup_insert_eq]
    split
    · exact congrArg some (Prod.ext rfl hnat)
    · exact h.entries k'
  | delete c k =>
    refine ⟨⟨fun k' => ?_, h.version⟩, Nat.le_add_right ..⟩
    show Option.map _ ((t.remove {k}).entries k') = Option.map _ ((s.entries.erase k).lookup k')
    rw [Map.lookup_erase_eq, Table.remove]
    by_cases hk : k' = k
    · simp [hk]
    · simpa [hk, TxnStore.get] using h.entries k'

theorem Shows.foldl (h : Shows enc t s) (hroom : s.version + ops.length < 2 ^ 64) (index : UInt64) :
    Shows enc ((ops.map (submitted enc)).foldl (Table.applyTxnOp index) t) (ops.foldl TxnStore.applyOp s) ∧
      (ops.foldl TxnStore.applyOp s).version ≤ s.version + ops.length := by
  induction ops generalizing t s with
  | nil => exact ⟨h, Nat.le_refl _⟩
  | cons op ops ih =>
    rw [length_cons] at hroom ⊢
    obtain ⟨hop, hle⟩ := h.applyOp (by omega) index op
    obtain ⟨hops, hle'⟩ := ih hop (by omega)
    exact ⟨hops, by rw [foldl_cons]; omega⟩

theorem Shows.txn (h : Shows enc t s) (hops : ∀ op ∈ ops, Submits enc op) (hroom : s.version + ops.length < 2 ^ 64)
    (index : UInt64) :
    Shows enc (t.applyTxn index (ops.map (submitted enc))).1 (s.txn ops).1 ∧
      (t.applyTxn index (ops.map (submitted enc))).2 = { ok := (s.txn ops).2 } ∧
      (s.txn ops).1.version ≤ s.version + ops.length := by
  have hall : ((ops.map (submitted enc)).all fun op => condHolds op.cond op.expect (t.entries op.key)) =
    ops.all s.holds := by
    rw [all_map, Bool.eq_iff_iff, all_eq_true, all_eq_true]
    exact forall₂_congr fun op hop => by rw [← h.holds (hops op hop)]; rfl
  have hadvance : Shows enc t s.advance := { h with }
  unfold Table.applyTxn TxnStore.txn
  rw [hall]
  split
  · obtain ⟨hshows, hle⟩ := hadvance.foldl hroom index
    exact ⟨hshows, rfl, hle⟩
  · exact ⟨hadvance, rfl, Nat.le_add_right ..⟩

variable (enc) in
/-- The entry of the log is the encoded transaction. -/
structure Carries (a : Applied) (ops : List (Lib.TxnOp Bytes α)) : Prop where
  data : a.log.data = encodeTxn (ops.map (submitted enc))
  count : ops.length < 256 ^ 4
  submits : ∀ op ∈ ops, Submits enc op

variable (shard : Bytes → Fin snapshotShards) {f : RaftFSM} {a : Applied}

theorem Shows.apply (h : Shows enc f.table s) (ha : Carries enc a ops) (hroom : s.version + ops.length < 2 ^ 64) :
    Shows enc (f.apply shard a.log a.order).1.table (s.txn ops).1 ∧
      (f.apply shard a.log a.order).2.1 = { ok := (s.txn ops).2 } ∧ (s.txn ops).1.version ≤ s.version + ops.length := by
  have hfits : ∀ op ∈ ops.map (submitted enc), op.Fits := by
    intro op hop
    obtain ⟨op, hmem, rfl⟩ := mem_map.mp hop
    exact (ha.submits op hmem).fits
  have hdec := decodeTxn_encodeTxn ((length_map _).trans_lt ha.count) hfits []
  have hhead : a.log.data.head?.map Opcode.ofByte = some .opTxn := by
    rw [ha.data, encodeTxn, foldl_encodeTxnOp]
    rfl
  rw [append_nil, ← ha.data] at hdec
  obtain ⟨htable, hresult⟩ := f.apply_table shard a.log a.order
  rw [htable, hresult, Table.apply, if_pos hhead, hdec]
  exact h.txn ha.submits hroom a.log.index

theorem Shows.run {as : List Applied} {txns : List (List (Lib.TxnOp Bytes α))} (has : Forall₂ (Carries enc) as txns)
    (h : Shows enc f.table s) (hroom : s.version + (txns.map length).sum < 2 ^ 64) :
    (f.run shard as).2 = (s.run txns).2.map (fun ok => { ok }) ∧
      Shows enc (f.run shard as).1.table (s.run txns).1 := by
  induction has generalizing f s with
  | nil => exact ⟨rfl, h⟩
  | cons ha has ih =>
    rw [map_cons, sum_cons] at hroom
    obtain ⟨hshows, hresult, hle⟩ := h.apply shard ha (by omega)
    obtain ⟨hresults, hend⟩ := ih hshows (by omega)
    exact ⟨congrArg₂ cons hresult hresults, hend⟩

/-- The responses to transactions, and what a read of the published table gives after them, are those of the store,
    as long as versions do not wrap. -/
theorem transactions_refine_store {as : List Applied} {txns : List (List (Lib.TxnOp Bytes α))}
    (has : Forall₂ (Carries enc) as txns) (hroom : (txns.map length).sum < 2 ^ 64) :
    let f := (RaftFSM.newRaftFSM shard).run shard as
    let s := ({} : TxnStore Bytes α).run txns
    f.2 = s.2.map (fun ok => { ok }) ∧
      ∀ k, (f.1.get shard k).map (fun e => (e.value, e.version.toNat)) = (s.1.get k).map fun e =>
        (enc e.value, e.version) := by
  have hnew : Shows enc (RaftFSM.newRaftFSM shard).table {} := ⟨fun _ => rfl, rfl⟩
  obtain ⟨hresults, hshows⟩ := hnew.run shard has (by show 0 + _ < _; omega)
  have hpub := RaftFSM.published_newRaftFSM.run shard as
  rw [← RaftFSM.run_fst] at hpub
  exact ⟨hresults, fun k => (congrArg _ (hpub.get k)).trans (hshows.entries k)⟩

/-- Three transactions; a condition of the second fails, and none of its puts is seen. -/
theorem put_refines_store :
    let txns : List (List (Lib.TxnOp Bytes Bytes)) := [[.put .absent [107] [1]],
      [.put .any [106] [2], .put .absent [107] [3]], [.check (.version 1) [107], .put .absent [106] [4]]]
    let f := (RaftFSM.newRaftFSM Locks.lengthShard).run Locks.lengthShard
      (txns.map fun ops => { log := { index := 1, data := encodeTxn (ops.map (submitted id)) } })
    let read k := (f.1.get Locks.lengthShard k).map fun e => (e.value, e.version.toNat)
    f.2.map ApplyResult.ok = [true, false, true] ∧ read [107] = some ([1], 1) ∧ read [106] = some ([4], 2) := by
  intro txns f read
  have hops : ∀ ops ∈ txns, ops.length < 256 ^ 4 ∧ ∀ op ∈ ops, op.key.length < 256 ^ 4 ∧
      (submitted id op).value.length < 256 ^ 4 ∧ op.cond ∈ [.any, .absent, .version 1] := by decide
  have hcarries : ∀ ops ∈ txns,
    Carries id { log := { index := 1, data := encodeTxn (ops.map (submitted id)) } } ops := by
    refine fun ops hmem => ⟨rfl, (hops ops hmem).1, fun op hop => ?_⟩
    obtain ⟨hkey, hvalue, hcond⟩ := (hops ops hmem).2 op hop
    refine ⟨⟨by cases op <;> rfl, ?_, hkey, hvalue⟩, fun n hn => ?_⟩
    · cases hc : op.cond <;> simp [submitted, hc] <;> rfl
    · rw [hn] at hcond
      have hone : n = 1 := by simpa using hcond
      omega
  obtain ⟨hresults, hreads⟩ := transactions_refine_store Locks.lengthShard
    (forall₂_map_left_iff.mpr (forall₂_same.mpr hcarries)) (by decide)
  exact ⟨(congrArg (map ApplyResult.ok) hresults).trans (by decide), hreads [107], hreads [106]⟩

end
end Wippy.Kv.Raft
