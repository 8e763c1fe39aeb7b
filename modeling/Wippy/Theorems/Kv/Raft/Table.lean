import Wippy.Kv.Raft.Fsm
import Mathlib.Data.Set.Insert

/-! What the kv state machine is for: a table of entries and leases on which every command acts as a function
    (`RaftFSM.apply_table`). -/

namespace Wippy.Kv.Raft
open Lib List Option Function Map

/-- A lease: its keys as a set. -/
@[ext] structure Lease where
  ttl : Int64
  expiresAtMs : Int64
  keys : Set Bytes

/-- What the state machine holds, as functions and sets. -/
@[ext] structure Table where
  entries : Bytes → Option Entry
  leases : LeaseID → Option Lease
  version : Version
  handles : Set LeaseID
  scheduled : Set LeaseID

namespace Table

/-- The entry at the key has the lease. -/
def Bound (t : Table) (key : Bytes) (id : LeaseID) : Prop := id ≠ [] ∧ ∃ e, t.entries key = some e ∧ e.leaseID = id

/-- Change the keys of every lease. -/
noncomputable def rebind (t : Table) (f : LeaseID → Set Bytes → Set Bytes) : Table :=
  { t with leases := fun id => (t.leases id).map fun ls => { ls with keys := f id ls.keys } }

open Classical in
/-- Write an entry and move its key to its lease. -/
noncomputable def set (t : Table) (index : UInt64) (key value : Bytes) (leaseID : LeaseID) : Table :=
  { t.rebind fun id keys =>
      if id ≠ [] ∧ id = leaseID then insert key keys else if t.Bound key id then keys \ {key} else keys with
    version := t.version + 1
    entries := Function.update t.entries key
      (some { key, value, version := t.version + 1, leaseID, epoch := index }) }

open Classical in
/-- Delete the entries of some keys. -/
noncomputable def remove (t : Table) (ks : Set Bytes) : Table :=
  { t.rebind fun id keys => keys \ {k | k ∈ ks ∧ t.Bound k id} with
    entries := fun k => if k ∈ ks then none else t.entries k }

/-- Grant a lease. -/
noncomputable def addLease (t : Table) (id : LeaseID) (ttl expiresAtMs : Int64) : Table :=
  { t with
    leases := Function.update t.leases id (some { ttl, expiresAtMs, keys := ∅ })
    handles := insert id t.handles
    scheduled := insert id t.scheduled }

/-- Set the expiry of a lease. -/
noncomputable def renewLease (t : Table) (id : LeaseID) (expiresAtMs : Int64) : Table :=
  { t with leases := Function.update t.leases id ((t.leases id).map fun ls => { ls with expiresAtMs }) }

/-- The keys of a lease. -/
def leaseKeys (t : Table) (id : LeaseID) : Set Bytes := {k | ∃ ls, t.leases id = some ls ∧ k ∈ ls.keys}

/-- Drop the record of a lease. -/
noncomputable def forgetLease (t : Table) (id : LeaseID) : Table :=
  { t with leases := Function.update t.leases id none }

open Classical in
/-- Revoke a lease, with its entries. -/
noncomputable def removeLease (t : Table) (id : LeaseID) : Table :=
  let t' := (t.forgetLease id).remove (t.leaseKeys id)
  if id ∈ t.scheduled then { t' with handles := t'.handles \ {id}, scheduled := t'.scheduled \ {id} } else t'

/-- Write an entry unless there is one. -/
noncomputable def setIfAbsent (t : Table) (index : UInt64) (key value : Bytes) (leaseID : LeaseID) :
    Table × ApplyResult :=
  match t.entries key with
  | some e => (t, { version := e.version, ok := false })
  | none => (t.set index key value leaseID, { version := t.version + 1, ok := true })

/-- One operation of a transaction. -/
noncomputable def applyTxnOp (index : UInt64) (t : Table) (op : TxnOp) : Table :=
  match op.kind with
  | .txnPut => t.set index op.key op.value []
  | .txnDelete => t.remove {op.key}
  | .txnCheck | .other _ => t

/-- All operations of a transaction, or none. -/
noncomputable def applyTxn (t : Table) (index : UInt64) (ops : List TxnOp) : Table × ApplyResult :=
  if ops.all fun op => condHolds op.cond op.expect (t.entries op.key) then
    (ops.foldl (applyTxnOp index) t, { ok := true })
  else (t, { ok := false })

open Classical in
/-- A command that is not a transaction. -/
noncomputable def applyCommand (t : Table) (index : UInt64) (c : Command) : Table × ApplyResult :=
  match c.op with
  | .opSet => (t.set index c.key c.value [], { version := t.version + 1, ok := true })
  | .opDelete =>
    if t.entries c.key = none then (t, { err := some .keyNotFound }) else (t.remove {c.key}, { ok := true })
  | .opCAS =>
    let actual : Version := ((t.entries c.key).map Entry.version).getD 0
    if actual ≠ c.expect then (t, { version := actual, ok := false })
    else
      (t.set index c.key c.value (((t.entries c.key).map Entry.leaseID).getD []),
        { version := t.version + 1, ok := true })
  | .opSetIfAbsent => t.setIfAbsent index c.key c.value []
  | .opCompareAndDelete =>
    if (t.entries c.key).map Entry.version = some c.expect then (t.remove {c.key}, { ok := true })
    else (t, { ok := false })
  | .opSetWithLease =>
    if c.leaseID ∈ t.handles then (t.set index c.key c.value c.leaseID, { version := t.version + 1, ok := true })
    else (t, { err := some .leaseNotFound })
  | .opSetIfAbsentWithLease =>
    if c.leaseID ∈ t.handles then t.setIfAbsent index c.key c.value c.leaseID
    else (t, { err := some .leaseNotFound })
  | .opLeaseGrant => (t.addLease c.leaseID c.ttlMs c.expiresAtMs, { ok := true })
  | .opLeaseRenew =>
    if c.leaseID ∈ t.scheduled ∧ c.leaseID ∈ t.handles then (t.renewLease c.leaseID c.expiresAtMs, { ok := true })
    else (t, { err := some .leaseNotFound })
  | .opLeaseRevoke => (t.removeLease c.leaseID, { ok := true })
  | .opTxn | .other _ => (t, { err := some (.unknownOp c.op) })

/-- An entry of the log. -/
noncomputable def apply (t : Table) (log : Log) : Table × ApplyResult :=
  if log.data.head?.map Opcode.ofByte = some .opTxn then
    match decodeTxn log.data with
    | .error e => (t, { err := some (.decode e) })
    | .ok ops => t.applyTxn log.index ops
  else
    match decodeCommand log.data with
    | .error e => (t, { err := some (.decode e) })
    | .ok c => t.applyCommand log.index c

end Table

/-- The abstract lease. -/
def LeaseState.lease (ls : LeaseState) : Lease :=
  { ttl := ls.ttl, expiresAtMs := ls.expiresAtMs, keys := {k | k ∈ ls.keys} }

theorem LeaseState.lease_add (ls : LeaseState) (key : Bytes) :
    lease { ls with keys := ls.keys.add key } = { ls.lease with keys := insert key ls.lease.keys } := by
  ext1 <;> try rfl
  ext k
  simp [lease]

theorem LeaseState.lease_erase (ls : LeaseState) (key : Bytes) :
    lease { ls with keys := ls.keys.erase key } = { ls.lease with keys := ls.lease.keys \ {key} } := by
  ext1 <;> try rfl
  ext k
  simp [lease, AList.mem_erase, and_comm]

namespace RaftFSM

/-- The abstract state. -/
def table (f : RaftFSM) : Table where
  entries k := f.state.entries.lookup k
  leases id := (f.state.leases.lookup id).map LeaseState.lease
  version := f.state.version
  handles := {id | id ∈ f.leases.handles}
  scheduled := {id | id ∈ f.leases.entries}

end RaftFSM

/-! ### What the helpers of a write leave alone -/

namespace State
variable (s : State) (id : LeaseID) (key : Bytes) {t : State} {e : Entry} {g g' : LeaseID → LeaseState → LeaseState}

/-- `t` is `s` with each of its leases changed by `g`. -/
def Altered (s t : State) (g : LeaseID → LeaseState → LeaseState) : Prop :=
  ∃ leases, t = { s with leases } ∧ ∀ id, leases.lookup id = (s.leases.lookup id).map (g id)

theorem Altered.congr {s : State} (h : Altered s t g) (hg : ∀ id ls, g id ls = g' id ls) : Altered s t g' := by
  obtain rfl : g = g' := funext fun id => funext (hg id)
  exact h

theorem altered_refl : Altered s s fun _ ls => ls := ⟨s.leases, rfl, fun _ => Option.map_id'.symm⟩

theorem altered_at (g : LeaseState → LeaseState) :
    Altered s (match s.leases.lookup id with
      | some ls => { s with leases := s.leases.insert id (g ls) }
      | none => s) fun id' ls => if id' = id then g ls else ls := by
  cases h : s.leases.lookup id with
  | none =>
    refine ⟨s.leases, rfl, fun id' => ?_⟩
    by_cases hid : id' = id
    · subst hid
      simp [h]
    · simp [hid]
  | some ls =>
    refine ⟨_, rfl, fun id' => ?_⟩
    by_cases hid : id' = id
    · subst hid
      simp [h]
    · simp [hid]

theorem altered_bind : Altered s (s.bind id key) fun id' ls =>
    if id' ≠ [] ∧ id' = id then { ls with keys := ls.keys.add key } else ls := by
  unfold bind
  split
  next hid =>
    refine (s.altered_at id _).congr fun id' ls => ?_
    by_cases h : id' = id
    · subst h
      simp [hid]
    · simp [h]
  next hid =>
    refine s.altered_refl.congr fun id' ls => (if_neg ?_).symm
    exact fun h => hid (h.2 ▸ h.1)

theorem altered_unbind (prev : Option Entry) : Altered s (s.unbind prev id key) fun id' ls =>
    if id' ≠ [] ∧ id' ≠ id ∧ prev.map Entry.leaseID = some id' then { ls with keys := ls.keys.erase key } else ls := by
  unfold unbind
  cases prev with
  | none => exact s.altered_refl.congr fun id' ls => by simp
  | some p =>
    dsimp only
    split
    next hcase =>
      refine (s.altered_at p.leaseID _).congr fun id' ls => ?_
      by_cases h : id' = p.leaseID
      · subst h
        simp [hcase.1, hcase.2]
      · simp [h, Ne.symm h]
    next hcase =>
      refine s.altered_refl.congr fun id' ls => (if_neg ?_).symm
      rintro ⟨hne, hne', heq⟩
      rw [map_some, Option.some.injEq] at heq
      exact hcase ⟨heq ▸ hne, heq ▸ hne'⟩

/-! ### Writes and removals -/

variable (value : Bytes)

theorem set_eq : ∃ leases, (s.set key value id).1 = { s with
      leases
      version := s.version + 1
      revision := s.revision + 1
      entries := s.entries.insert key { key, value, version := s.version + 1, leaseID := id, epoch := s.applyIndex }
      dirty := s.dirty.add key } ∧
    ∀ id', leases.lookup id' = (s.leases.lookup id').map fun ls =>
      if id' ≠ [] ∧ id' = id then { ls with keys := ls.keys.add key }
      else if id' ≠ [] ∧ (s.get key).map Entry.leaseID = some id' then { ls with keys := ls.keys.erase key }
      else ls := by
  obtain ⟨leases, hunbind, hlookup⟩ :=
    altered_unbind { s with version := s.version + 1, revision := s.revision + 1 } id key (s.get key)
  have hget : State.get { s with version := s.version + 1, revision := s.revision + 1 } key = s.get key := rfl
  simp only [set, nextVersion, markDirty]
  rw [hget, hunbind]
  obtain ⟨leases', hbind, hlookup'⟩ := altered_bind _ id key
  refine ⟨leases', hbind, fun id' => ?_⟩
  rw [hlookup', hlookup, Option.map_map]
  congr 1
  funext ls
  by_cases h : id' = id
  · subst h
    by_cases hid : id' = [] <;> simp [hid]
  · simp [h]

theorem del_none (h : s.get key = none) : s.del key = (s, none) := by
  unfold del
  rw [h]

theorem del_eq (h : s.get key = some e) : ∃ leases, s.del key =
      ({ s with leases, entries := s.entries.erase key, revision := s.revision + 1, dirty := s.dirty.add key },
        some e) ∧
    ∀ id', leases.lookup id' = (s.leases.lookup id').map fun ls =>
      if id' ≠ [] ∧ e.leaseID = id' then { ls with keys := ls.keys.erase key } else ls := by
  unfold del
  rw [h]
  dsimp only [markDirty]
  split
  next hid =>
    obtain ⟨leases, heq, hlookup⟩ := altered_at { s with
      entries := s.entries.erase key, revision := s.revision + 1, dirty := s.dirty.add key } e.leaseID
      fun ls => { ls with keys := ls.keys.erase key }
    refine ⟨leases, congrArg (·, some e) heq, fun id' => (hlookup id').trans ?_⟩
    by_cases h : id' = e.leaseID
    · subst h
      simp [hid]
    · simp [h, Ne.symm h]
  next hid =>
    refine ⟨s.leases, rfl, fun id' => ?_⟩
    have hneg : ¬ (id' ≠ [] ∧ e.leaseID = id') := fun hne => hid (hne.2 ▸ hne.1)
    simp only [if_neg hneg, Option.map_id']

end State

/-! ### The state machine computes the table -/

namespace RaftFSM
variable (f : RaftFSM) (key value : Bytes) (id : LeaseID) (typ : WatchEventType)

theorem table_entries (k : Bytes) : f.table.entries k = f.state.get k := rfl
theorem table_leases : f.table.leases id = (f.state.leases.lookup id).map LeaseState.lease := rfl

theorem bound_iff (k : Bytes) : f.table.Bound k id ↔ id ≠ [] ∧ (f.state.get k).map Entry.leaseID = some id := by
  simp [Table.Bound, table_entries]

@[simp] theorem emitEvent_state (current previous : Option Entry) :
    (f.emitEvent typ current previous).state = f.state := rfl

theorem table_emitPut (prev : Option Entry) : (f.emitPut key prev).table = f.table := by
  unfold emitPut
  split <;> rfl

@[simp] theorem emitPut_state (prev : Option Entry) : (f.emitPut key prev).state = f.state := by
  unfold emitPut
  split <;> rfl

theorem table_set :
    table { f with state := (f.state.set key value id).1 } = f.table.set f.state.applyIndex key value id := by
  obtain ⟨leases, heq, hlookup⟩ := f.state.set_eq id key value
  rw [heq]
  ext1
  · funext k
    simp only [table, Table.set, update_apply, lookup_insert_eq]
  · funext id'
    simp only [Table.set, Table.rebind, table_leases, hlookup, Option.map_map]
    congr 1
    funext ls
    simp only [comp_apply, f.bound_iff]
    by_cases h1 : id' ≠ [] ∧ id' = id
    · rw [if_pos h1, if_pos h1, LeaseState.lease_add]
    rw [if_neg h1]
    split
    · exact ls.lease_erase key
    · rfl
  all_goals rfl

@[simp] theorem put_applyIndex : (f.put key value id).1.state.applyIndex = f.state.applyIndex := by
  obtain ⟨leases, heq, -⟩ := f.state.set_eq id key value
  simp only [put, emitPut_state, heq]

theorem put_table : (f.put key value id).1.table = f.table.set f.state.applyIndex key value id := by
  unfold put
  rw [table_emitPut]
  exact f.table_set key value id

theorem drop_none (h : f.state.get key = none) : f.drop typ key = (f, false) := by
  rw [drop, f.state.del_none key h]

theorem drop_some {e : Entry} (h : f.state.get key = some e) :
    f.drop typ key = (emitEvent { f with state := (f.state.del key).1 } typ none (some e), true) := by
  obtain ⟨leases, heq, -⟩ := f.state.del_eq key h
  rw [drop, heq]

theorem drop_kept : (f.drop typ key).1.state.applyIndex = f.state.applyIndex ∧
    (f.drop typ key).1.state.published = f.state.published ∧ (f.drop typ key).1.leases = f.leases := by
  cases h : f.state.get key with
  | none =>
    rw [f.drop_none key typ h]
    exact ⟨rfl, rfl, rfl⟩
  | some e =>
    obtain ⟨leases, heq, -⟩ := f.state.del_eq key h
    rw [f.drop_some key typ h, heq]
    exact ⟨rfl, rfl, rfl⟩

end RaftFSM

namespace Table
variable (t : Table)

theorem bound_remove (ks : Set Bytes) (k : Bytes) (id : LeaseID) :
    (t.remove ks).Bound k id ↔ k ∉ ks ∧ t.Bound k id := by
  unfold Bound
  by_cases hk : k ∈ ks <;> simp [remove, hk]

theorem remove_remove (a b : Set Bytes) : (t.remove a).remove b = t.remove (a ∪ b) := by
  ext1
  · funext k
    by_cases ha : k ∈ a <;> by_cases hb : k ∈ b <;> simp [remove, ha, hb]
  · funext id
    simp only [remove, rebind, Option.map_map]
    congr 1
    funext ls
    ext1 <;> try rfl
    ext k
    have hbound := t.bound_remove a k id
    simp only [remove, rebind] at hbound
    grind
  · rfl
  · rfl
  · rfl

theorem remove_of_none {ks : Set Bytes} (h : ∀ k ∈ ks, t.entries k = none) : t.remove ks = t := by
  have hkeys : ∀ (ls : Lease) id, ls.keys \ {k | k ∈ ks ∧ t.Bound k id} = ls.keys := by
    intro ls id
    ext k
    simp +contextual [Bound, h]
  ext1
  · funext k
    by_cases hk : k ∈ ks <;> simp [remove, hk, h]
  · funext id
    simp only [remove, rebind, hkeys]
    exact Option.map_id'
  all_goals rfl

end Table

namespace RaftFSM
variable (f : RaftFSM) (key value : Bytes) (id : LeaseID) (typ : WatchEventType) (order : List Bytes)

theorem table_del : table { f with state := (f.state.del key).1 } = f.table.remove {key} := by
  cases h : f.state.get key with
  | none =>
    have habsent : ∀ k ∈ ({key} : Set Bytes), f.table.entries k = none := fun k hk => hk ▸ h
    rw [f.state.del_none key h, f.table.remove_of_none habsent]
  | some e =>
    obtain ⟨leases, heq, hlookup⟩ := f.state.del_eq key h
    have hbound : ∀ id, f.table.Bound key id ↔ id ≠ [] ∧ e.leaseID = id := by simp [f.bound_iff, h]
    rw [heq]
    ext1
    · funext k
      simp only [table, Table.remove, Set.mem_singleton_iff, lookup_erase_eq]
    · funext id'
      simp only [Table.remove, Table.rebind, table_leases, hlookup, Option.map_map]
      congr 1
      funext ls
      rw [comp_apply, apply_ite LeaseState.lease, LeaseState.lease_erase]
      ext1 <;> try rfl
      · split <;> rfl
      · split <;> rfl
      ext k
      grind
    all_goals rfl

theorem drop_table : (f.drop typ key).1.table = f.table.remove {key} := by
  rw [← table_del]
  cases h : f.state.get key with
  | none => rw [f.drop_none key typ h, f.state.del_none key h]
  | some e =>
    rw [f.drop_some key typ h]
    rfl

theorem foldl_drop_table (ks : List Bytes) :
    (ks.foldl (fun f key => (f.drop typ key).1) f).table = f.table.remove {k | k ∈ ks} := by
  induction ks generalizing f with
  | nil =>
    have habsent : ∀ k ∈ {k : Bytes | k ∈ ([])}, f.table.entries k = none := fun k hk => absurd hk not_mem_nil
    rw [f.table.remove_of_none habsent]
    rfl
  | cons k ks ih =>
    rw [foldl_cons, ih, drop_table, Table.remove_remove]
    congr 1
    ext k'
    simp

theorem foldl_drop_leases (ks : List Bytes) : (ks.foldl (fun f key => (f.drop typ key).1) f).leases = f.leases := by
  induction ks generalizing f with
  | nil => rfl
  | cons k ks ih =>
    rw [foldl_cons, ih]
    exact (f.drop_kept k typ).2.2

theorem setIfAbsent_table :
    (f.setIfAbsent key value id).1.table = (f.table.setIfAbsent f.state.applyIndex key value id).1 ∧
      (f.setIfAbsent key value id).2 = (f.table.setIfAbsent f.state.applyIndex key value id).2 := by
  unfold setIfAbsent Table.setIfAbsent State.setIfAbsent
  rw [table_entries]
  cases f.state.get key with
  | some e => exact ⟨rfl, rfl⟩
  | none =>
    refine ⟨?_, rfl⟩
    simp only [if_true]
    rw [table_emitPut]
    exact f.table_set key value id

theorem applyTxnOp_table (op : TxnOp) :
    (f.applyTxnOp op).table = f.table.applyTxnOp f.state.applyIndex op ∧
      (f.applyTxnOp op).state.applyIndex = f.state.applyIndex := by
  unfold applyTxnOp Table.applyTxnOp
  cases op.kind with
  | txnPut => exact ⟨f.put_table op.key op.value [], f.put_applyIndex op.key op.value []⟩
  | txnDelete => exact ⟨f.drop_table op.key .delete, (f.drop_kept op.key .delete).1⟩
  | txnCheck => exact ⟨rfl, rfl⟩
  | other code => exact ⟨rfl, rfl⟩

theorem foldl_applyTxnOp_table (ops : List TxnOp) :
    (ops.foldl applyTxnOp f).table = ops.foldl (Table.applyTxnOp f.state.applyIndex) f.table := by
  induction ops generalizing f with
  | nil => rfl
  | cons op ops ih =>
    rw [foldl_cons, foldl_cons, ih, (f.applyTxnOp_table op).2, (f.applyTxnOp_table op).1]

theorem applyTxn_table (ops : List TxnOp) :
    (f.applyTxn ops).1.table = (f.table.applyTxn f.state.applyIndex ops).1 ∧
      (f.applyTxn ops).2 = (f.table.applyTxn f.state.applyIndex ops).2 := by
  have hentries : f.table.entries = f.state.get := rfl
  unfold applyTxn Table.applyTxn
  rw [hentries]
  split
  · exact ⟨f.foldl_applyTxnOp_table ops, rfl⟩
  · exact ⟨rfl, rfl⟩

theorem removeLease_keys : {k | k ∈ (f.state.removeLease id order).2} = f.table.leaseKeys id := by
  ext k
  simp only [State.removeLease, Table.leaseKeys, table_leases, Set.mem_ofPred_eq]
  cases h : f.state.leases.lookup id with
  | none => simp
  | some ls => simp [mem_keysIn, LeaseState.lease]

theorem removeLease_state : table { f with state := (f.state.removeLease id order).1 } = f.table.forgetLease id := by
  unfold State.removeLease Table.forgetLease
  ext1
  case leases =>
    funext id'
    simp only [table_leases, update_apply]
    cases h : f.state.leases.lookup id with
    | none =>
      by_cases hid : id' = id
      · subst hid
        simp [h]
      · simp [hid]
    | some ls => by_cases hid : id' = id <;> simp [hid, lookup_erase_eq]
  all_goals split <;> rfl

theorem revoke_table (c : Command) (hop : c.op = .opLeaseRevoke) :
    (f.applyCommand c order).1.table = f.table.removeLease c.leaseID := by
  unfold applyCommand
  rw [hop]
  set g := (f.state.removeLease c.leaseID order).2.foldl (fun f key => (f.drop .expired key).1)
    { f with state := (f.state.removeLease c.leaseID order).1 } with hg
  have hgt : g.table = (f.table.forgetLease c.leaseID).remove (f.table.leaseKeys c.leaseID) := by
    rw [foldl_drop_table, removeLease_state, removeLease_keys]
  have hgl : g.leases = f.leases := by
    rw [foldl_drop_leases]
  show table { g with leases := g.leases.revoke c.leaseID } = f.table.removeLease c.leaseID
  unfold Table.removeLease LeaseManager.revoke
  rw [hgl, ← hgt]
  by_cases hs : c.leaseID ∈ f.leases.entries
  · rw [if_pos hs, if_pos (show c.leaseID ∈ f.table.scheduled from hs)]
    ext1
    · rfl
    · rfl
    · rfl
    · ext id
      simp [table, AList.mem_erase, hgl, and_comm]
    · ext id
      simp [table, AList.mem_erase, hgl, and_comm]
  · rw [if_neg hs, if_neg (show c.leaseID ∉ f.table.scheduled from hs), ← hgl]

theorem cas_table (expect : Version) :
    f.state.cas key expect value =
      if ((f.state.get key).map Entry.version).getD 0 ≠ expect then
        (f.state, ((f.state.get key).map Entry.version).getD 0, false)
      else ((f.state.set key value (((f.state.get key).map Entry.leaseID).getD [])).1, f.state.version + 1, true) := rfl

theorem compareAndDelete_deleted (expect : Version) :
    (f.state.compareAndDelete key expect).2.1 = decide ((f.state.get key).map Entry.version = some expect) ∧
      (f.state.compareAndDelete key expect).1 =
        if (f.state.get key).map Entry.version = some expect then (f.state.del key).1 else f.state := by
  unfold State.compareAndDelete
  cases f.state.get key with
  | none => simp
  | some e => by_cases h : e.version = expect <;> simp [h]

theorem addLease_table (ttl expiresAtMs : Int64) :
    table { f with state := f.state.addLease id ttl expiresAtMs, leases := f.leases.grant id } =
      f.table.addLease id ttl expiresAtMs := by
  ext1
  · rfl
  · funext id'
    simp only [table_leases, Table.addLease, State.addLease, lookup_insert_eq, update_apply]
    by_cases h : id' = id
    · rw [if_pos h, if_pos h]
      simp [LeaseState.lease]
    · rw [if_neg h, if_neg h]
  · rfl
  · ext id'
    simp [table, Table.addLease, LeaseManager.grant]
  · ext id'
    simp [table, Table.addLease, LeaseManager.grant]

theorem renewLease_table {ls : LeaseState} (h : f.state.leases.lookup id = some ls) (expiresAtMs : Int64) :
    table { f with state := { f.state with leases := f.state.leases.insert id { ls with expiresAtMs } } } =
      f.table.renewLease id expiresAtMs := by
  ext1
  case leases =>
    funext id'
    simp only [table_leases, Table.renewLease, lookup_insert_eq, update_apply]
    by_cases hid : id' = id
    · rw [if_pos hid, if_pos hid, h]
      rfl
    · rw [if_neg hid, if_neg hid]
  all_goals rfl

theorem renewLease_none (h : f.state.leases.lookup id = none) (expiresAtMs : Int64) :
    f.table.renewLease id expiresAtMs = f.table := by
  ext1
  case leases =>
    simp only [Table.renewLease, table_leases, h, map_none, update_eq_self_iff]
  all_goals rfl

theorem applyCommand_table (c : Command) (order : List Bytes) :
    (f.applyCommand c order).1.table = (f.table.applyCommand f.state.applyIndex c).1 ∧
      (f.applyCommand c order).2 = (f.table.applyCommand f.state.applyIndex c).2 := by
  cases hop : c.op
  case opLeaseRevoke =>
    refine ⟨?_, ?_⟩
    · rw [f.revoke_table order c hop]
      simp [Table.applyCommand, hop]
    · simp [applyCommand, Table.applyCommand, hop]
  all_goals simp only [applyCommand, Table.applyCommand, hop]
  case opSet => exact ⟨f.put_table c.key c.value [], rfl⟩
  case opDelete =>
    rw [table_entries, ← f.drop_table c.key .delete]
    cases hget : f.state.get c.key with
    | none =>
      rw [f.drop_none c.key .delete hget]
      exact ⟨rfl, rfl⟩
    | some e =>
      rw [f.drop_some c.key .delete hget]
      exact ⟨rfl, rfl⟩
  case opCAS =>
    rw [cas_table, table_entries]
    by_cases hv : ((f.state.get c.key).map Entry.version).getD 0 = c.expect
    · simp only [hv, ne_eq, not_true_eq_false, if_false, if_true]
      rw [table_emitPut]
      exact ⟨f.table_set _ _ _, rfl⟩
    · simp only [hv, ne_eq, not_false_eq_true, if_true]
      exact ⟨rfl, trivial⟩
  case opSetIfAbsent => exact f.setIfAbsent_table c.key c.value []
  case opSetWithLease =>
    by_cases h : c.leaseID ∈ f.leases.handles
    · rw [if_pos (show c.leaseID ∈ f.table.handles from h)]
      simp only [LeaseManager.getHandle, h, decide_true, if_true]
      exact ⟨f.put_table c.key c.value c.leaseID, rfl⟩
    · rw [if_neg (show c.leaseID ∉ f.table.handles from h)]
      simp [LeaseManager.getHandle, h]
  case opSetIfAbsentWithLease =>
    by_cases h : c.leaseID ∈ f.leases.handles
    · rw [if_pos (show c.leaseID ∈ f.table.handles from h)]
      simp only [LeaseManager.getHandle, h, decide_true, if_true]
      exact f.setIfAbsent_table c.key c.value c.leaseID
    · rw [if_neg (show c.leaseID ∉ f.table.handles from h)]
      simp [LeaseManager.getHandle, h]
  case opLeaseGrant => exact ⟨f.addLease_table c.leaseID c.ttlMs c.expiresAtMs, trivial⟩
  case opLeaseRenew =>
    by_cases h : c.leaseID ∈ f.leases.entries ∧ c.leaseID ∈ f.leases.handles
    · rw [if_pos (show c.leaseID ∈ f.table.scheduled ∧ c.leaseID ∈ f.table.handles from h)]
      simp only [LeaseManager.renew, h.1, h.2, decide_true, Bool.and_self, if_true]
      cases hls : f.state.leases.lookup c.leaseID with
      | some ls => exact ⟨f.renewLease_table c.leaseID hls c.expiresAtMs, rfl⟩
      | none => exact ⟨(f.renewLease_none c.leaseID hls c.expiresAtMs).symm, rfl⟩
    · rw [if_neg (show ¬ (c.leaseID ∈ f.table.scheduled ∧ c.leaseID ∈ f.table.handles) from h)]
      have hr : f.leases.renew c.leaseID = false := by
        simpa [LeaseManager.renew] using h
      rw [hr]
      exact ⟨rfl, rfl⟩
  case opCompareAndDelete =>
    obtain ⟨hdel, hstate⟩ := f.compareAndDelete_deleted c.key c.expect
    rw [table_entries, hdel, hstate]
    by_cases hv : (f.state.get c.key).map Entry.version = some c.expect
    · simp only [hv, if_true, decide_true]
      exact ⟨f.table_del c.key, trivial⟩
    · simp only [hv, if_false, decide_false]
      exact ⟨rfl, trivial⟩
  all_goals exact ⟨trivial, trivial⟩

section
variable (shard : Bytes → Fin snapshotShards)

theorem apply_table (log : Log) (order : List Bytes) :
    (f.apply shard log order).1.table = (f.table.apply log).1 ∧
      (f.apply shard log order).2.1 = (f.table.apply log).2 := by
  unfold apply Table.apply
  by_cases htxn : log.data.head?.map Opcode.ofByte = some .opTxn
  · rw [if_pos htxn, if_pos htxn]
    cases decodeTxn log.data with
    | error e => exact ⟨rfl, rfl⟩
    | ok ops => exact (f.beginLog log.index).applyTxn_table ops
  · rw [if_neg htxn, if_neg htxn]
    cases decodeCommand log.data with
    | error e => exact ⟨rfl, rfl⟩
    | ok c => exact (f.beginLog log.index).applyCommand_table c order

end
end RaftFSM
end Wippy.Kv.Raft
