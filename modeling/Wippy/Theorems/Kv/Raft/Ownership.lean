import Wippy.Theorems.Kv.Raft.Table
import Wippy.Lib.Reach

/-! Which keys a lease owns: the entries bound to it, as long as no lease is granted while entries are still bound to
    its id. -/

namespace Wippy.Kv.Raft
open Lib Option

variable {t' : Table}

/-- The lease that a command grants. -/
def Log.grant? (log : Log) : Option LeaseID :=
  if log.data.head?.map Opcode.ofByte = some .opTxn then none
  else
    match decodeCommand log.data with
    | .error _ => none
    | .ok c => if c.op = .opLeaseGrant then some c.leaseID else none

/-- The lease that a command revokes. -/
def Log.revoke? (log : Log) : Option LeaseID :=
  if log.data.head?.map Opcode.ofByte = some .opTxn then none
  else
    match decodeCommand log.data with
    | .error _ => none
    | .ok c => if c.op = .opLeaseRevoke then some c.leaseID else none

/-- The command writes an entry. -/
def Command.Writes (c : Command) : Bool :=
  match c.op with
  | .opSet | .opCAS | .opSetIfAbsent | .opSetWithLease | .opSetIfAbsentWithLease => true
  | _ => false

namespace Table

/-- What holds of leases in every state: a lease's keys are bound to it, and the lease manager has the same ids. -/
structure Sound (t : Table) : Prop where
  keyed : ∀ k e, t.entries k = some e → e.key = k
  bound : ∀ id k, k ∈ t.leaseKeys id → t.Bound k id
  handles : ∀ id, id ∈ t.handles ↔ (t.leases id).isSome
  scheduled : ∀ id, id ∈ t.scheduled ↔ (t.leases id).isSome

/-- A bound key is among the keys of its lease. -/
def Exact (t : Table) : Prop := ∀ k id, t.Bound k id → k ∈ t.leaseKeys id

/-- A granted lease has no keys bound to it. -/
def GrantsUnbound (t : Table) (log : Log) : Prop := ∀ id, log.grant? = some id → ∀ k, ¬ t.Bound k id

variable {t : Table} {k key value : Bytes} {id leaseID : LeaseID} {index : UInt64}

/-! ### Reading a table after a command -/

theorem mem_leaseKeys : k ∈ t.leaseKeys id ↔ ∃ ls, t.leases id = some ls ∧ k ∈ ls.keys := Iff.rfl

theorem isSome_rebind (f : LeaseID → Set Bytes → Set Bytes) :
    ((t.rebind f).leases id).isSome = (t.leases id).isSome := by
  simp [rebind]

theorem bound_set :
    (t.set index key value leaseID).Bound k id ↔ if k = key then id ≠ [] ∧ id = leaseID else t.Bound k id := by
  unfold Bound
  by_cases h : k = key
  · subst h
    simp [set, eq_comm]
  · simp [set, h]

theorem mem_leaseKeys_set (hs : t.Sound) :
    k ∈ (t.set index key value leaseID).leaseKeys id ↔
      if k = key then (t.leases id).isSome ∧ id ≠ [] ∧ id = leaseID else k ∈ t.leaseKeys id := by
  simp only [mem_leaseKeys, set, rebind]
  cases h : t.leases id with
  | none => simp
  | some ls =>
    have hb : k ∈ ls.keys → t.Bound k id := fun hk => hs.bound id k (mem_leaseKeys.mpr ⟨ls, h, hk⟩)
    simp only [map_some, Option.some.injEq, exists_eq_left', isSome_some, true_and]
    by_cases hk : k = key
    · subst hk
      rw [if_pos rfl]
      by_cases hl : id ≠ [] ∧ id = leaseID
      · rw [if_pos hl]
        exact ⟨fun _ => hl, fun _ => Set.mem_insert _ _⟩
      rw [if_neg hl]
      refine ⟨fun hmem => absurd hmem ?_, fun h => absurd h hl⟩
      split
      · simp
      next hnb =>
        exact fun h => hnb (hb h)
    · split
      · simp [hk]
      · split <;> simp [hk]

theorem mem_leaseKeys_remove (hs : ∀ id k, k ∈ t.leaseKeys id → t.Bound k id) (ks : Set Bytes) :
    k ∈ (t.remove ks).leaseKeys id ↔ k ∉ ks ∧ k ∈ t.leaseKeys id := by
  simp only [mem_leaseKeys, remove, rebind]
  cases h : t.leases id with
  | none => simp
  | some ls =>
    have hb : k ∈ ls.keys → t.Bound k id := fun hk => hs id k (mem_leaseKeys.mpr ⟨ls, h, hk⟩)
    grind

/-! ### What every command keeps -/

theorem Sound.set (hs : t.Sound) : (t.set index key value leaseID).Sound where
  keyed k e h := by
    simp only [Table.set, Function.update_apply] at h
    split at h
    · cases h
      simp_all
    · exact hs.keyed k e h
  bound id k h := by
    rw [mem_leaseKeys_set hs] at h
    rw [bound_set]
    split at h
    next hk =>
      rw [if_pos hk]
      exact h.2
    next hk =>
      rw [if_neg hk]
      exact hs.bound id k h
  handles id := by
    rw [Table.set, isSome_rebind]
    exact hs.handles id
  scheduled id := by
    rw [Table.set, isSome_rebind]
    exact hs.scheduled id

theorem Sound.remove (hs : t.Sound) (ks : Set Bytes) : (t.remove ks).Sound where
  keyed k e h := by
    simp only [Table.remove] at h
    split at h
    · cases h
    · exact hs.keyed k e h
  bound id k h := by
    obtain ⟨hk, hmem⟩ := (mem_leaseKeys_remove hs.bound ks).mp h
    exact (t.bound_remove ks k id).mpr ⟨hk, hs.bound id k hmem⟩
  handles id := by
    rw [Table.remove, isSome_rebind]
    exact hs.handles id
  scheduled id := by
    rw [Table.remove, isSome_rebind]
    exact hs.scheduled id

theorem mem_leaseKeys_forgetLease : k ∈ (t.forgetLease leaseID).leaseKeys id ↔ id ≠ leaseID ∧ k ∈ t.leaseKeys id := by
  by_cases h : id = leaseID <;> simp [mem_leaseKeys, forgetLease, h]

theorem removeLease_dropped (h : k ∈ t.leaseKeys leaseID) : (t.removeLease leaseID).entries k = none := by
  unfold removeLease
  split <;> simp [Table.remove, h]

theorem removeLease_kept (h : k ∉ t.leaseKeys leaseID) : (t.removeLease leaseID).entries k = t.entries k := by
  unfold removeLease
  split <;> simp [Table.remove, rebind, forgetLease, h]

theorem isSome_removeLease : ((t.removeLease leaseID).leases id).isSome ↔ id ≠ leaseID ∧ (t.leases id).isSome := by
  have hremove : (((t.forgetLease leaseID).remove (t.leaseKeys leaseID)).leases id).isSome ↔
      id ≠ leaseID ∧ (t.leases id).isSome := by
    rw [Table.remove, isSome_rebind]
    by_cases h : id = leaseID <;> simp [forgetLease, h]
  unfold removeLease
  split <;> exact hremove

theorem mem_leaseKeys_removeLease (hs : t.Sound) :
    k ∈ (t.removeLease leaseID).leaseKeys id ↔ id ≠ leaseID ∧ k ∉ t.leaseKeys leaseID ∧ k ∈ t.leaseKeys id := by
  have hbound : ∀ id k, k ∈ (t.forgetLease leaseID).leaseKeys id → (t.forgetLease leaseID).Bound k id := fun id k hk =>
    hs.bound id k (mem_leaseKeys_forgetLease.mp hk).2
  have hremove : k ∈ ((t.forgetLease leaseID).remove (t.leaseKeys leaseID)).leaseKeys id ↔
      id ≠ leaseID ∧ k ∉ t.leaseKeys leaseID ∧ k ∈ t.leaseKeys id := by
    rw [mem_leaseKeys_remove hbound, mem_leaseKeys_forgetLease]
    exact and_left_comm
  unfold removeLease
  split <;> exact hremove

theorem mem_managed_removeLease (hs : t.Sound) :
    (id ∈ (t.removeLease leaseID).handles ↔ id ≠ leaseID ∧ id ∈ t.handles) ∧
      (id ∈ (t.removeLease leaseID).scheduled ↔ id ≠ leaseID ∧ id ∈ t.scheduled) := by
  unfold removeLease
  by_cases hsch : leaseID ∈ t.scheduled
  · rw [if_pos hsch]
    constructor <;> simp [Table.remove, rebind, forgetLease, and_comm]
  have hne : id ∈ t.scheduled → id ≠ leaseID := by
    rintro hid rfl
    exact hsch hid
  rw [if_neg hsch]
  constructor
  · exact ⟨fun h => ⟨hne ((hs.scheduled id).mpr ((hs.handles id).mp h)), h⟩, And.right⟩
  · exact ⟨fun h => ⟨hne h, h⟩, And.right⟩

theorem Sound.removeLease (hs : t.Sound) : (t.removeLease leaseID).Sound where
  keyed k e h := by
    by_cases hk : k ∈ t.leaseKeys leaseID
    · rw [removeLease_dropped hk] at h
      cases h
    · rw [removeLease_kept hk] at h
      exact hs.keyed k e h
  bound id k h := by
    obtain ⟨-, hnot, hmem⟩ := (mem_leaseKeys_removeLease hs).mp h
    obtain ⟨hne, e, he, hid⟩ := hs.bound id k hmem
    exact ⟨hne, e, (removeLease_kept hnot).trans he, hid⟩
  handles id := by
    rw [(mem_managed_removeLease hs).1, isSome_removeLease, hs.handles]
  scheduled id := by
    rw [(mem_managed_removeLease hs).2, isSome_removeLease, hs.scheduled]

theorem Sound.addLease (hs : t.Sound) (ttl expiresAtMs : Int64) : (t.addLease leaseID ttl expiresAtMs).Sound := by
  have hkeys : ∀ id k, k ∈ (t.addLease leaseID ttl expiresAtMs).leaseKeys id → k ∈ t.leaseKeys id := by
    intro id k
    by_cases h : id = leaseID <;> simp [mem_leaseKeys, Table.addLease, h]
  refine ⟨hs.keyed, fun id k h => hs.bound id k (hkeys id k h), fun id => ?_, fun id => ?_⟩
  · by_cases h : id = leaseID <;> simp [Table.addLease, h, hs.handles]
  · by_cases h : id = leaseID <;> simp [Table.addLease, h, hs.scheduled]

theorem renewLease_isSome (expiresAtMs : Int64) :
    ((t.renewLease leaseID expiresAtMs).leases id).isSome = (t.leases id).isSome := by
  by_cases h : id = leaseID <;> simp [renewLease, h]

theorem mem_leaseKeys_renewLease (expiresAtMs : Int64) :
    k ∈ (t.renewLease leaseID expiresAtMs).leaseKeys id ↔ k ∈ t.leaseKeys id := by
  by_cases h : id = leaseID
  · subst h
    simp only [mem_leaseKeys, renewLease, Function.update_self]
    cases t.leases id <;> simp
  · simp [mem_leaseKeys, renewLease, h]

theorem Sound.renewLease (hs : t.Sound) (expiresAtMs : Int64) : (t.renewLease leaseID expiresAtMs).Sound where
  keyed := hs.keyed
  bound id k h := hs.bound id k ((mem_leaseKeys_renewLease expiresAtMs).mp h)
  handles id := by
    rw [renewLease_isSome]
    exact hs.handles id
  scheduled id := by
    rw [renewLease_isSome]
    exact hs.scheduled id

/-! ### What a log entry can do -/

/-- A change that neither grants nor revokes. A write binds its key to no lease, to one that has a handle, or to the
    one it is bound to already. -/
inductive Change (t : Table) : Table → Prop
  | set (index : UInt64) (key value : Bytes) (leaseID : LeaseID)
      (h : leaseID = [] ∨ leaseID ∈ t.handles ∨ t.Bound key leaseID) : Change t (t.set index key value leaseID)
  | remove (ks : Set Bytes) : Change t (t.remove ks)
  | renew (id : LeaseID) (expiresAtMs : Int64) : Change t (t.renewLease id expiresAtMs)

/-- Some changes. -/
abbrev Changes : Table → Table → Prop := Relation.ReflTransGen Change

/-- What a command that neither grants nor revokes does. -/
inductive Effect (t : Table) (index : UInt64) (c : Command) : Table → Prop
  | same : Effect t index c t
  | set (leaseID : LeaseID) (hop : c.Writes = true) (h : leaseID = [] ∨ leaseID ∈ t.handles ∨ t.Bound c.key leaseID) :
      Effect t index c (t.set index c.key c.value leaseID)
  | remove (ks : Set Bytes) : Effect t index c (t.remove ks)
  | renew (hop : c.op = .opLeaseRenew) : Effect t index c (t.renewLease c.leaseID c.expiresAtMs)

theorem Effect.changes {c : Command} (h : t.Effect index c t') : Changes t t' := by
  cases h with
  | same => exact .refl
  | set leaseID _ hid => exact .single (.set index c.key c.value leaseID hid)
  | remove ks => exact .single (.remove ks)
  | renew => exact .single (.renew c.leaseID c.expiresAtMs)

theorem effect_setIfAbsent {c : Command} (hop : c.Writes = true) (h : leaseID = [] ∨ leaseID ∈ t.handles) :
    t.Effect index c (t.setIfAbsent index c.key c.value leaseID).1 := by
  unfold setIfAbsent
  split
  · exact .same
  · exact .set leaseID hop (h.imp id Or.inl)

theorem changes_applyTxnOp (op : TxnOp) : Changes t (t.applyTxnOp index op) := by
  unfold applyTxnOp
  split
  · exact .single (.set index op.key op.value [] (Or.inl rfl))
  · exact .single (.remove _)
  · exact .refl
  · exact .refl

theorem changes_applyTxn (ops : List TxnOp) : Changes t (t.applyTxn index ops).1 := by
  have hfold : ∀ (ops : List TxnOp) (t : Table), Changes t (ops.foldl (applyTxnOp index) t) := by
    intro ops
    induction ops with
    | nil => exact fun _ => .refl
    | cons op ops ih => exact fun t => (changes_applyTxnOp op).trans (ih _)
  unfold applyTxn
  split
  · exact hfold ops t
  · exact .refl

theorem applyCommand_cases (t : Table) (index : UInt64) (c : Command) :
    (c.op = .opLeaseGrant ∧ (t.applyCommand index c).1 = t.addLease c.leaseID c.ttlMs c.expiresAtMs) ∨
      (c.op = .opLeaseRevoke ∧ (t.applyCommand index c).1 = t.removeLease c.leaseID) ∨
      (c.op ≠ .opLeaseGrant ∧ c.op ≠ .opLeaseRevoke ∧ t.Effect index c (t.applyCommand index c).1) := by
  cases hop : c.op
  case opLeaseGrant => exact Or.inl ⟨rfl, by simp [applyCommand, hop]⟩
  case opLeaseRevoke => exact Or.inr (Or.inl ⟨rfl, by simp [applyCommand, hop]⟩)
  all_goals refine Or.inr (Or.inr ⟨by simp, by simp, ?_⟩)
  all_goals simp only [applyCommand, hop]
  case opSet => exact .set [] (by simp [Command.Writes, hop]) (Or.inl rfl)
  case opDelete =>
    split
    · exact .same
    · exact .remove _
  case opCAS =>
    split
    · exact .same
    refine .set _ (by simp [Command.Writes, hop]) ?_
    cases he : t.entries c.key with
    | none => exact Or.inl rfl
    | some e =>
      by_cases hid : e.leaseID = []
      · exact Or.inl hid
      · exact Or.inr (Or.inr ⟨hid, e, he, rfl⟩)
  case opSetIfAbsent => exact effect_setIfAbsent (by simp [Command.Writes, hop]) (Or.inl rfl)
  case opSetWithLease =>
    split
    next h =>
      exact .set c.leaseID (by simp [Command.Writes, hop]) (Or.inr (Or.inl h))
    · exact .same
  case opSetIfAbsentWithLease =>
    split
    next h =>
      exact effect_setIfAbsent (by simp [Command.Writes, hop]) (Or.inr h)
    · exact .same
  case opLeaseRenew =>
    split
    · exact .renew hop
    · exact .same
  case opCompareAndDelete =>
    split
    · exact .remove _
    · exact .same
  all_goals exact .same

theorem apply_cases (t : Table) (log : Log) :
    (∃ id ttl expiresAtMs, log.grant? = some id ∧ log.revoke? = none ∧
        (t.apply log).1 = t.addLease id ttl expiresAtMs) ∨
      (∃ id, log.grant? = none ∧ log.revoke? = some id ∧ (t.apply log).1 = t.removeLease id) ∨
      (log.grant? = none ∧ log.revoke? = none ∧ Changes t (t.apply log).1) := by
  unfold Log.grant? Log.revoke? apply
  by_cases htxn : log.data.head?.map Opcode.ofByte = some .opTxn
  · simp only [if_pos htxn]
    cases decodeTxn log.data with
    | error e => exact Or.inr (Or.inr ⟨trivial, trivial, .refl⟩)
    | ok ops => exact Or.inr (Or.inr ⟨trivial, trivial, changes_applyTxn ops⟩)
  · simp only [if_neg htxn]
    cases decodeCommand log.data with
    | error e => exact Or.inr (Or.inr ⟨rfl, rfl, .refl⟩)
    | ok c =>
      rcases t.applyCommand_cases log.index c with ⟨hop, h⟩ | ⟨hop, h⟩ | ⟨hop, hop', h⟩
      · exact Or.inl ⟨c.leaseID, c.ttlMs, c.expiresAtMs, by simp [hop], by simp [hop], h⟩
      · exact Or.inr (Or.inl ⟨c.leaseID, by simp [hop], by simp [hop], h⟩)
      · exact Or.inr (Or.inr ⟨by simp [hop], by simp [hop'], h.changes⟩)

theorem Sound.changes (hs : t.Sound) (h : Changes t t') : t'.Sound := by
  induction h with
  | refl => exact hs
  | tail _ hc ih =>
    cases hc with
    | set index key value leaseID _ => exact ih.set
    | remove ks => exact ih.remove ks
    | renew id expiresAtMs => exact ih.renewLease expiresAtMs

theorem Sound.apply (hs : t.Sound) (log : Log) : (t.apply log).1.Sound := by
  rcases t.apply_cases log with ⟨id, ttl, expiresAtMs, -, -, h⟩ | ⟨id, -, -, h⟩ | ⟨-, -, h⟩
  · rw [h]
    exact hs.addLease ttl expiresAtMs
  · rw [h]
    exact hs.removeLease
  · exact hs.changes h

section
variable (hs : t.Sound) (hx : t.Exact)
include hs hx

theorem Exact.change (h : Change t t') : t'.Exact := by
  intro k id hb
  cases h with
  | set index key value leaseID hlease =>
    rw [bound_set] at hb
    rw [mem_leaseKeys_set hs]
    by_cases hk : k = key
    · subst hk
      rw [if_pos rfl] at hb ⊢
      obtain ⟨hne, rfl⟩ := hb
      refine ⟨?_, hne, rfl⟩
      rcases hlease with h | h | h
      · exact absurd h hne
      · exact (hs.handles id).mp h
      · obtain ⟨ls, hls, -⟩ := hx k id h
        rw [hls]
        rfl
    · rw [if_neg hk] at hb ⊢
      exact hx k id hb
  | remove ks =>
    obtain ⟨hk, hb⟩ := (t.bound_remove ks k id).mp hb
    exact (mem_leaseKeys_remove hs.bound ks).mpr ⟨hk, hx k id hb⟩
  | renew leaseID expiresAtMs => exact (mem_leaseKeys_renewLease expiresAtMs).mpr (hx k id hb)

theorem Exact.changes (h : Changes t t') : t'.Exact := by
  induction h with
  | refl => exact hx
  | tail hc h ih => exact ih.change (hs.changes hc) h

theorem Exact.removeLease : (t.removeLease leaseID).Exact := by
  rintro k id ⟨hne, e, he, hid⟩
  have hk : k ∉ t.leaseKeys leaseID := by
    intro h
    rw [removeLease_dropped h] at he
    cases he
  rw [removeLease_kept hk] at he
  have hmem : k ∈ t.leaseKeys id := hx k id ⟨hne, e, he, hid⟩
  refine (mem_leaseKeys_removeLease hs).mpr ⟨?_, hk, hmem⟩
  rintro rfl
  exact hk hmem

end

theorem notMem_leaseKeys_addLease (ttl expiresAtMs : Int64) : k ∉ (t.addLease id ttl expiresAtMs).leaseKeys id := by
  simp [mem_leaseKeys, addLease]

theorem exact_apply_iff (hs : t.Sound) (hx : t.Exact) (log : Log) : t.GrantsUnbound log ↔ (t.apply log).1.Exact := by
  unfold GrantsUnbound
  rcases t.apply_cases log with ⟨id, ttl, expiresAtMs, hg, -, h⟩ | ⟨id, hg, -, h⟩ | ⟨hg, -, h⟩
  · rw [h, hg]
    constructor
    · intro hfree k id' hb
      have hne : id' ≠ id := by
        rintro rfl
        exact hfree id' rfl k hb
      have hmem := hx k id' hb
      simpa [mem_leaseKeys, addLease, hne] using hmem
    · rintro hx' id' hid k hb
      obtain rfl := Option.some.inj hid
      exact notMem_leaseKeys_addLease ttl expiresAtMs (hx' k id hb)
  · rw [h, hg]
    exact ⟨fun _ => hx.removeLease hs, fun _ id hid => by cases hid⟩
  · rw [hg]
    exact ⟨fun _ => hx.changes hs h, fun _ id hid => by cases hid⟩

end Table

namespace RaftFSM
variable (shard : Bytes → Fin snapshotShards) {f : RaftFSM}

theorem run_fst (f : RaftFSM) (as : List Applied) : (f.run shard as).1 = as.foldl (step shard) f := by
  induction as generalizing f with
  | nil => rfl
  | cons a as ih => exact ih _

theorem step_table (f : RaftFSM) (a : Applied) : (f.step shard a).table = (f.table.apply a.log).1 :=
  (f.apply_table shard a.log a.order).1

theorem sound_newRaftFSM : (newRaftFSM shard).table.Sound where
  keyed k e h := by cases h
  bound id k h := by
    obtain ⟨ls, h, -⟩ := h
    cases h
  handles id := by simp [newRaftFSM, table, State.newState, State.snapshot]
  scheduled id := by simp [newRaftFSM, table, State.newState, State.snapshot]

theorem sound_step (h : f.table.Sound) (a : Applied) : (f.step shard a).table.Sound := by
  rw [step_table]
  exact h.apply a.log

theorem sound_run (as : List Applied) : (as.foldl (step shard) (newRaftFSM shard)).table.Sound :=
  List.foldlRecOn (motive := fun f : RaftFSM => f.table.Sound) as _ (sound_newRaftFSM shard)
    fun _ hf a _ => sound_step shard hf a

/-- The lease of a grant is not bound to an entry. -/
def GrantsUnbound (f : RaftFSM) (a : Applied) : Prop :=
  ∀ id, a.log.grant? = some id → id ≠ [] → ∀ k e, f.state.get k = some e → e.leaseID ≠ id

theorem grantsUnbound_iff (f : RaftFSM) (a : Applied) : f.GrantsUnbound a ↔ f.table.GrantsUnbound a.log := by
  constructor
  · rintro h id hid k ⟨hne, e, he, heq⟩
    exact h id hid hne k e he heq
  · intro h id hid hne k e he heq
    exact h id hid k ⟨hne, e, he, heq⟩

/-- The tables are sound and exact. -/
def Owned (f : RaftFSM) : Prop := f.table.Sound ∧ f.table.Exact

theorem owned_newRaftFSM : (newRaftFSM shard).Owned := by
  refine ⟨sound_newRaftFSM shard, ?_⟩
  rintro k id ⟨-, e, h, -⟩
  cases h

theorem Owned.step (h : f.Owned) {a : Applied} (ha : f.GrantsUnbound a) : (f.step shard a).Owned := by
  refine ⟨sound_step shard h.1 a, ?_⟩
  rw [step_table]
  exact (Table.exact_apply_iff h.1 h.2 a.log).mp ((grantsUnbound_iff f a).mp ha)

/-- Leases own what their entries say. The empty id is the entries' mark for no lease. -/
structure OwnershipExact (f : RaftFSM) : Prop where
  keys : ∀ id k, id ≠ [] →
    ((∃ ls, f.state.leases.lookup id = some ls ∧ k ∈ ls.keys) ↔ ∃ e, f.state.get k = some e ∧ e.leaseID = id)
  named : ∀ k e, f.state.get k = some e → e.leaseID ≠ [] → e.leaseID ∈ f.state.leases
  handles : ∀ id, id ∈ f.leases.handles ↔ id ∈ f.state.leases
  revoke : ∀ a id, a.log.revoke? = some id → id ≠ [] → ∀ k,
    (f.step shard a).state.get k =
      if (f.state.get k).map Entry.leaseID = some id then none else f.state.get k

theorem ownershipExact_iff (hs : f.table.Sound) : f.OwnershipExact shard ↔ f.table.Exact := by
  have hkeys : ∀ id k, k ∈ f.table.leaseKeys id ↔ ∃ ls, f.state.leases.lookup id = some ls ∧ k ∈ ls.keys := by
    simp [Table.mem_leaseKeys, table_leases, LeaseState.lease]
  have hsome : ∀ id, (f.table.leases id).isSome ↔ id ∈ f.state.leases := by
    intro id
    rw [table_leases, isSome_map]
    exact AList.lookup_isSome
  constructor
  · rintro h k id ⟨hne, hb⟩
    exact (hkeys id k).mpr ((h.keys id k hne).mpr hb)
  · intro hx
    refine ⟨fun id k hne => ?_, fun k e he hne => ?_, fun id => ?_, fun a id hr hne k => ?_⟩
    · rw [← hkeys]
      exact ⟨fun h => (hs.bound id k h).2, fun h => hx k id ⟨hne, h⟩⟩
    · obtain ⟨ls, hls, -⟩ := hx k e.leaseID ⟨hne, e, he, rfl⟩
      exact (hsome _).mp (by rw [hls]; rfl)
    · rw [← hsome]
      exact hs.handles id
    · have hstep := f.step_table shard a
      rcases f.table.apply_cases a.log with ⟨_, _, _, -, hr', -⟩ | ⟨id', -, hr', h⟩ | ⟨-, hr', -⟩
      · rw [hr] at hr'
        cases hr'
      · obtain rfl := Option.some.inj (hr.symm.trans hr')
        rw [← table_entries, hstep, h]
        by_cases hk : k ∈ f.table.leaseKeys id
        · rw [Table.removeLease_dropped hk, if_pos ((f.bound_iff id k).mp (hs.bound id k hk)).2]
        · rw [Table.removeLease_kept hk, table_entries, if_neg]
          exact fun hb => hk (hx k id ((f.bound_iff id k).mpr ⟨hne, hb⟩))
      · rw [hr] at hr'
        cases hr'

/-- In every run ownership stays exact, state by state, exactly as long as no lease is granted while entries are
    still bound to its id. -/
theorem ownership_exact_iff (as : List Applied) :
    (∀ pre, pre <+: as → ((newRaftFSM shard).run shard pre).1.OwnershipExact shard) ↔
      Along (step shard) GrantsUnbound (newRaftFSM shard) as := by
  simp only [run_fst]
  refine (along_iff_prefixes (P := Owned) (fun f hf => (ownershipExact_iff shard hf.1).mpr hf.2)
    (fun f a hf ha => hf.step shard ha) (fun f a hf h => ?_) (owned_newRaftFSM shard) as).symm
  have hx := (ownershipExact_iff shard (sound_step shard hf.1 a)).mp h
  rw [step_table] at hx
  exact (grantsUnbound_iff f a).mpr ((Table.exact_apply_iff hf.1 hf.2 a.log).mpr hx)

/-- A lease granted, a key bound to it, and the lease granted again: the lease ids of a node start over when it does. -/
def regranted : List Applied :=
  [{ log := ⟨1, encodeCommand { op := .opLeaseGrant, leaseID := [108], ttlMs := 9, expiresAtMs := 9 }⟩ },
    { log := ⟨2, encodeCommand { op := .opSetWithLease, key := [107], value := [1], leaseID := [108] }⟩ },
    { log := ⟨3, encodeCommand { op := .opLeaseGrant, leaseID := [108], ttlMs := 9, expiresAtMs := 9 }⟩ }]

/-- After it the entry is bound to a lease that does not list it. -/
theorem regranted_not_owned : ¬ ∃ shard : Bytes → Fin snapshotShards,
    ∀ as : List Applied, ((newRaftFSM shard).run shard as).1.OwnershipExact shard := by
  rintro ⟨shard, h⟩
  set f := ((newRaftFSM shard).run shard regranted).1 with hf
  have hentry : (f.state.get [107]).map Entry.leaseID = some [108] := by
    rfl
  have hkeys : ((f.state.leases.lookup [108]).any fun ls => decide ([107] ∈ ls.keys)) = false := by
    rfl
  obtain ⟨e, he, hid⟩ := map_eq_some_iff.mp hentry
  obtain ⟨ls, hls, hk⟩ := ((h regranted).keys [108] [107] (by decide)).mpr ⟨e, he, hid⟩
  rw [hls] at hkeys
  simp [hk] at hkeys

end RaftFSM
end Wippy.Kv.Raft
