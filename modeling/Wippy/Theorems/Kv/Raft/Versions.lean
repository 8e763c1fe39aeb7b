import Mathlib.Algebra.GroupWithZero.Nat
import Wippy.Theorems.Kv.Locks

/-! Versions of the kv state machine: what is found at a key later is the same entry or has a higher version. -/

namespace Wippy.Kv.Raft
open Lib List

/-- At least as many as the writes of the entry. -/
def Log.operations (log : Log) : Nat := ((decodeTxn log.data).toOption.getD []).length + 1

namespace Table
variable {t t' t'' : Table} {m n : Nat}

/-- At most `n` writes lead from `t` to `t'`, unless the version wraps: what is new at its key has one of their
    versions. -/
def Writes (n : Nat) (t t' : Table) : Prop := t.version.toNat + n < 2 ^ 64 →
  t.version ≤ t'.version ∧ t'.version.toNat ≤ t.version.toNat + n ∧
    ∀ k e, t'.entries k = some e → t.entries k = some e ∨ t.version < e.version ∧ e.version ≤ t'.version

theorem Writes.trans (h : Writes m t t') (h' : Writes n t' t'') : Writes (m + n) t t'' := fun hroom => by
  obtain ⟨hle, hbound, hfresh⟩ := h (by omega)
  obtain ⟨hle', hbound', hfresh'⟩ := h' (by omega)
  refine ⟨UInt64.le_trans hle hle', by omega, fun k e he => ?_⟩
  rcases hfresh' k e he with he | ⟨hlt, hlast⟩
  · exact (hfresh k e he).imp_right fun ⟨hlt, hlast⟩ => ⟨hlt, UInt64.le_trans hlast hle'⟩
  · exact .inr ⟨UInt64.lt_of_le_of_lt hle hlt, hlast⟩

theorem writes_of_kept (hv : t'.version = t.version) (hsub : ∀ k e, t'.entries k = some e → t.entries k = some e) :
    Writes n t t' := fun _ =>
  ⟨hv ▸ UInt64.le_refl _, hv ▸ Nat.le_add_right .., fun k e he => .inl (hsub k e he)⟩

theorem writes_refl : Writes n t t := writes_of_kept rfl fun _ _ h => h

theorem writes_of_update {key : Bytes} {e : Entry} (hv : t'.version = t.version + 1) (he : e.version = t.version + 1)
    (hupd : t'.entries = Function.update t.entries key (some e)) : Writes 1 t t' := fun hroom => by
  have hnat : (t.version + 1).toNat = t.version.toNat + 1 := by
    rw [UInt64.toNat_add]
    exact Nat.mod_eq_of_lt hroom
  have hlt : t.version < t.version + 1 := UInt64.lt_iff_toNat_lt.mpr (by omega)
  refine ⟨hv ▸ UInt64.le_of_lt hlt, by rw [hv, hnat], fun k x hx => ?_⟩
  rw [hupd, Function.update_apply] at hx
  split at hx
  · cases hx
    exact .inr ⟨he ▸ hlt, by rw [he, hv]; exact UInt64.le_refl _⟩
  · exact .inl hx

theorem writes_foldl (index : UInt64) (ops : List TxnOp) : Writes ops.length t (ops.foldl (applyTxnOp index) t) := by
  induction ops generalizing t with
  | nil => exact writes_refl
  | cons op ops ih =>
    have hop : Writes 1 t (t.applyTxnOp index op) := by
      unfold applyTxnOp
      split
      · exact writes_of_update rfl rfl rfl
      · refine writes_of_kept rfl fun k e he => ?_
        simp only [remove] at he
        split at he
        · cases he
        · exact he
      all_goals exact writes_refl
    rw [length_cons, Nat.add_comm]
    exact hop.trans ih

theorem writes_apply (log : Log) : Writes log.operations t (t.apply log).1 := by
  unfold Table.apply Log.operations
  split
  · cases decodeTxn log.data with
    | error err => exact writes_refl
    | ok ops =>
      dsimp only [applyTxn]
      split
      · exact (writes_foldl log.index ops).trans writes_refl
      · exact writes_refl
  · cases decodeCommand log.data with
    | error err => exact writes_refl
    | ok c =>
      rcases t.applyCommand_writes log.index c with ⟨hv, hsub⟩ | ⟨-, hv, e, -, -, he, hupd⟩
      · exact writes_of_kept hv hsub
      · exact writes_refl.trans (writes_of_update hv he hupd)

end Table

namespace RaftFSM
variable (shard : Bytes → Fin snapshotShards)

/-- How many operations a log has. -/
def operations (as : List Applied) : Nat := (as.map fun a => a.log.operations).sum

theorem writes_run (as : List Applied) (f : RaftFSM) :
    Table.Writes (operations as) f.table (as.foldl (step shard) f).table := by
  induction as generalizing f with
  | nil => exact Table.writes_refl
  | cons a as ih =>
    have hstep : Table.Writes a.log.operations f.table (f.step shard a).table :=
      (f.apply_table shard a.log a.order).1 ▸ Table.writes_apply a.log
    exact hstep.trans (ih (f.step shard a))

theorem Published.run {f : RaftFSM} (h : Published shard f) (as : List Applied) :
    Published shard (as.foldl (step shard) f) :=
  List.foldlRecOn (motive := Published shard) as _ h fun _ h a _ => (h.apply a.log a.order).1

/-- If the version does not wrap, a key that has the same version again had its entry all the time between. -/
theorem same_entry_or_higher_version (as bs cs : List Applied) (hroom : operations (as ++ bs ++ cs) < 2 ^ 64)
    (key : Bytes) (e e' : Entry) :
    let f := as.foldl (step shard) (newRaftFSM shard)
    let g := bs.foldl (step shard) f
    let h := cs.foldl (step shard) g
    f.get shard key = some e → h.get shard key = some e' →
      (e' = e ∧ g.get shard key = some e) ∨ e.version < e'.version := by
  intro f g h he he'
  have hsum : 0 + operations as + operations bs + operations cs < 2 ^ 64 := by
    simpa [operations, Nat.add_assoc] using hroom
  obtain ⟨-, hf, hfresh⟩ := writes_run shard as (newRaftFSM shard) (by show 0 + _ < _; omega)
  have hf : f.table.version.toNat ≤ 0 + operations as := hf
  obtain ⟨hle, hg, hgfresh⟩ := writes_run shard bs f (by omega)
  have hg : g.table.version.toNat ≤ f.table.version.toNat + operations bs := hg
  obtain ⟨-, -, hhfresh⟩ := writes_run shard cs g (by omega)
  have pf := (published_newRaftFSM : Published shard _).run shard as
  have pg := pf.run shard bs
  have he : f.table.entries key = some e := (pf.get key).symm.trans he
  have hlast : e.version ≤ f.table.version := (hfresh key e he).elim nofun And.right
  rcases hhfresh key e' (((pg.run shard cs).get key).symm.trans he') with he' | ⟨hlt, -⟩
  · rcases hgfresh key e' he' with hsame | ⟨hlt, -⟩
    · obtain rfl := Option.some.inj (hsame.symm.trans he)
      exact .inl ⟨rfl, (pg.get key).trans he'⟩
    · exact .inr (UInt64.lt_of_le_of_lt hlast hlt)
  · exact .inr (UInt64.lt_of_le_of_lt (UInt64.le_trans hlast hle) hlt)

/-- A write. -/
def setKey : Applied := { log := { index := 1, data := encodeCommand { op := .opSet, key := [107] } } }

theorem set_twice :
    let e : Entry := { key := [107], version := 1, epoch := 1 }
    let f := step Locks.lengthShard (newRaftFSM Locks.lengthShard) setKey
    ({ e with version := 2 } = e ∧ f.get Locks.lengthShard [107] = some e) ∨ e.version < 2 :=
  same_entry_or_higher_version Locks.lengthShard [setKey] [] [setKey] (by decide +kernel) [107] _ _ (by decide +kernel)
    (by decide +kernel)

end RaftFSM
end Wippy.Kv.Raft
