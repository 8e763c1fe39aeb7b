import Wippy.Theorems.Kv.Raft.Snapshot

/-! The watch records of the kv state machine replay its published table. -/

namespace Wippy.Kv.Raft
open Lib List Function

/-- What a watcher does with a record: a put sets its key to the current entry, a removal drops the key. -/
def replay (view : Bytes → Option Entry) (r : WatchRecord) : Bytes → Option Entry :=
  match r.typ, r.current, r.previous with
  | .put, some e, _ => Function.update view e.key (some e)
  | .delete, _, some e => Function.update view e.key none
  | .expired, _, some e => Function.update view e.key none
  | _, _, _ => view

namespace State
variable (shard : Bytes → Fin snapshotShards) {s : State}

theorem lookup_refreshKey (entries : Map Bytes Entry) (shards : Fin snapshotShards → Map Bytes Entry) (key k : Bytes) :
    (refreshKey shard entries shards key (shard k)).lookup k =
      if k = key then entries.lookup k else (shards (shard k)).lookup k := by
  unfold refreshKey
  rw [update_apply]
  by_cases hk : k = key
  · subst hk
    cases h : entries.lookup k <;> simp
  · rw [if_neg hk]
    by_cases hs : shard k = shard key
    · rw [if_pos hs, hs]
      split <;> simp [hk]
    · rw [if_neg hs]

theorem lookup_foldl_refreshKey (entries : Map Bytes Entry) (ks : List Bytes)
    (shards : Fin snapshotShards → Map Bytes Entry) (k : Bytes) :
    (ks.foldl (refreshKey shard entries) shards (shard k)).lookup k =
      if k ∈ ks then entries.lookup k else (shards (shard k)).lookup k := by
  induction ks generalizing shards with
  | nil => rfl
  | cons key ks ih =>
    rw [foldl_cons, ih, lookup_refreshKey]
    by_cases hk : k = key <;> by_cases hks : k ∈ ks <;> simp [hk, hks]

theorem get_snapshot_some {p : StateSnapshot} (h : s.published = some p) (k : Bytes) :
    (s.snapshot shard).2.get shard k = if k ∈ s.dirty then s.get k else p.get shard k := by
  have hfold := lookup_foldl_refreshKey shard s.entries s.dirty.keys p.shards k
  unfold snapshot StateSnapshot.get
  rw [h]
  by_cases hk : k ∈ s.dirty
  · rw [if_pos hk]
    exact hfold.trans (if_pos hk)
  · rw [if_neg hk]
    exact hfold.trans (if_neg hk)

theorem mem_foldl_markDirty (ks : List Bytes) (s : State) (k : Bytes) :
    k ∈ (ks.foldl markDirty s).dirty ↔ k ∈ ks ∨ k ∈ s.dirty := by
  induction ks generalizing s with
  | nil => simp
  | cons key ks ih =>
    rw [foldl_cons, ih]
    simp [markDirty, or_assoc, or_left_comm]

theorem get_snapshot_none (h : s.published = none) (k : Bytes) : (s.snapshot shard).2.get shard k = s.get k := by
  unfold snapshot StateSnapshot.get
  rw [h]
  rw [lookup_foldl_refreshKey]
  split
  · rfl
  next hk =>
    have hnot : k ∉ s.entries := fun hmem => hk ((mem_foldl_markDirty s.entries.keys s k).mpr (Or.inl hmem))
    exact (AList.lookup_eq_none.mpr hnot).symm

end State

namespace RaftFSM
/-- What the commands do to the state machine, one after the other. -/
inductive Edit (f : RaftFSM) : RaftFSM → Prop
  | put (key value : Bytes) (id : LeaseID) (prev : Option Entry) :
      Edit f (emitPut { f with state := (f.state.set key value id).1 } key prev)
  | drop (typ : WatchEventType) (htyp : typ ≠ .put) (key : Bytes) : Edit f (f.drop typ key).1
  | leases (leases : Map LeaseID LeaseState) (m : LeaseManager) :
      Edit f { f with state := { f.state with leases }, leases := m }

/-- Some edits. -/
abbrev Edits : RaftFSM → RaftFSM → Prop := Relation.ReflTransGen Edit

variable {f f' : RaftFSM}

theorem Edits.published (h : Edits f f') : f'.state.published = f.state.published := by
  induction h with
  | refl => rfl
  | @tail g _ _ he ih =>
    cases he with
    | put key value id prev =>
      obtain ⟨leases, heq, -⟩ := g.state.set_eq id key value
      simpa [heq] using ih
    | drop typ _ key => exact (g.drop_kept key typ).2.1.trans ih
    | leases => exact ih

theorem edits_drop (ks : List Bytes) : Edits f (ks.foldl (fun f key => (f.drop .expired key).1) f) := by
  induction ks generalizing f with
  | nil => exact .refl
  | cons k ks ih => exact .head (.drop .expired (by decide) k) ih

theorem edits_setIfAbsent (key value : Bytes) (id : LeaseID) : Edits f (f.setIfAbsent key value id).1 := by
  unfold RaftFSM.setIfAbsent State.setIfAbsent
  cases f.state.get key with
  | some e => exact .refl
  | none => exact .single (.put key value id none)

theorem edits_applyTxnOp (op : TxnOp) : Edits f (f.applyTxnOp op) := by
  unfold RaftFSM.applyTxnOp
  cases op.kind with
  | txnPut => exact .single (.put op.key op.value [] (f.state.get op.key))
  | txnDelete => exact .single (.drop .delete (by decide) op.key)
  | txnCheck => exact .refl
  | other code => exact .refl

theorem edits_applyTxn (ops : List TxnOp) : Edits f (f.applyTxn ops).1 := by
  unfold RaftFSM.applyTxn
  split
  · exact List.foldlRecOn (motive := Edits f) ops _ .refl fun _ hf op _ => hf.trans (edits_applyTxnOp op)
  · exact .refl

theorem edits_cas (key value : Bytes) (expect : Version) (prev : Option Entry) :
    Edits f
      (if (f.state.cas key expect value).2.2 then emitPut { f with state := (f.state.cas key expect value).1 } key prev
        else { f with state := (f.state.cas key expect value).1 }) := by
  rw [cas_table]
  by_cases hv : ((f.state.get key).map Entry.version).getD 0 = expect
  · simp only [hv, ne_eq, not_true_eq_false, if_false, if_true]
    exact .single (.put key value _ prev)
  · simp only [hv, ne_eq, not_false_eq_true, if_true, Bool.false_eq_true, if_false]
    exact .refl

theorem edits_compareAndDelete (key : Bytes) (expect : Version) :
    Edits f
      (if (f.state.compareAndDelete key expect).2.1 then
        emitEvent { f with state := (f.state.compareAndDelete key expect).1 } .delete none (f.state.get key)
        else { f with state := (f.state.compareAndDelete key expect).1 }) := by
  obtain ⟨hdel, hstate⟩ := f.compareAndDelete_deleted key expect
  rw [hdel, hstate]
  by_cases hv : (f.state.get key).map Entry.version = some expect
  · obtain ⟨e, he, -⟩ := Option.map_eq_some_iff.mp hv
    have hdrop := Edit.drop (f := f) .delete (by decide) key
    rw [f.drop_some key .delete he] at hdrop
    simp only [hv, decide_true, if_true]
    rw [he]
    exact .single hdrop
  · simp only [hv, decide_false, Bool.false_eq_true, if_false]
    exact .refl

theorem edits_revoke (id : LeaseID) (order : List Bytes) :
    Edits f ((f.state.removeLease id order).2.foldl (fun f key => (f.drop .expired key).1)
      { f with state := (f.state.removeLease id order).1 }) := by
  unfold State.removeLease
  cases f.state.leases.lookup id with
  | none => exact edits_drop _
  | some ls => exact .head (.leases _ f.leases) (edits_drop _)

theorem edits_applyCommand (c : Command) (order : List Bytes) : Edits f (f.applyCommand c order).1 := by
  cases hop : c.op
  all_goals simp only [RaftFSM.applyCommand, hop]
  case opSet => exact .single (.put c.key c.value [] (f.state.get c.key))
  case opDelete =>
    have hdrop := Edit.drop (f := f) .delete (by decide) c.key
    generalize f.drop .delete c.key = dropped at hdrop ⊢
    obtain ⟨g, _ | _⟩ := dropped <;> exact .single hdrop
  case opCAS => exact edits_cas c.key c.value c.expect (f.state.get c.key)
  case opSetIfAbsent => exact edits_setIfAbsent c.key c.value []
  case opSetWithLease =>
    split
    · exact .single (.put c.key c.value c.leaseID (f.state.get c.key))
    · exact .refl
  case opSetIfAbsentWithLease =>
    split
    · exact edits_setIfAbsent c.key c.value c.leaseID
    · exact .refl
  case opLeaseGrant => exact .single (.leases _ _)
  case opLeaseRenew =>
    split
    · split
      · exact .single (.leases _ f.leases)
      · exact .refl
    · exact .refl
  case opLeaseRevoke => exact .tail (edits_revoke c.leaseID order) (.leases _ _)
  case opCompareAndDelete => exact edits_compareAndDelete c.key c.expect
  all_goals exact .refl

variable (shard : Bytes → Fin snapshotShards)

/-- The snapshot is that of the state, and nothing waits to be published. -/
structure Published (f : RaftFSM) : Prop where
  keyed : ∀ k e, f.state.get k = some e → e.key = k
  outbox : f.outbox = []
  snap : f.state.published = some f.snap
  get : ∀ k, f.snap.get shard k = f.state.get k

/-- While a command runs that found the table `base` published. -/
structure Recording (base : Bytes → Option Entry) (f : RaftFSM) : Prop where
  keyed : ∀ k e, f.state.get k = some e → e.key = k
  replays : f.outbox.foldl replay base = f.state.get
  clean : ∀ k, k ∉ f.state.dirty → f.state.get k = base k
  published : ∃ p, f.state.published = some p ∧ ∀ k, p.get shard k = base k

variable {shard} {base : Bytes → Option Entry}

namespace Recording

section
variable (h : Recording shard base f)
include h

theorem of_leases (leases : Map LeaseID LeaseState) (m : LeaseManager) :
    Recording shard base { f with state := { f.state with leases }, leases := m } :=
  { h with }

/-- An event on a key that now has `o`. -/
theorem emit {s : State} {key : Bytes} {o current previous : Option Entry} {typ : WatchEventType}
    (hget : s.get = Function.update f.state.get key o) (hkeyed : ∀ e ∈ o, e.key = key)
    (hdirty : s.dirty = f.state.dirty.add key) (hpublished : s.published = f.state.published)
    (hreplay : ∀ index, replay f.state.get { typ, current, previous, index } = s.get) :
    Recording shard base (emitEvent { f with state := s } typ current previous) := by
  refine ⟨fun k e hk => ?_, ?_, fun k hk => ?_, ?_⟩
  · rw [emitEvent_state, hget, update_apply] at hk
    split at hk
    next heq => exact heq ▸ hkeyed e hk
    next => exact h.keyed k e hk
  · show (f.outbox ++ [_]).foldl replay base = _
    rw [foldl_append, h.replays]
    exact hreplay s.applyIndex
  · rw [emitEvent_state] at hk ⊢
    rw [hdirty, KeySet.mem_add, not_or] at hk
    rw [hget, update_of_ne hk.1]
    exact h.clean k hk.2
  · rw [emitEvent_state, hpublished]
    exact h.published

theorem set (key value : Bytes) (id : LeaseID) (prev : Option Entry) :
    Recording shard base (emitPut { f with state := (f.state.set key value id).1 } key prev) := by
  obtain ⟨leases, heq, -⟩ := f.state.set_eq id key value
  have hget : (f.state.set key value id).1.get = Function.update f.state.get key (some
      { key, value, version := f.state.version + 1, leaseID := id, epoch := f.state.applyIndex }) := by
    funext k
    rw [heq, update_apply]
    exact Map.lookup_insert_eq ..
  unfold emitPut
  simp only [hget, update_self]
  refine h.emit hget ?_ (by rw [heq]) (by rw [heq]) fun _ => hget.symm
  rintro e ⟨⟩
  rfl

theorem drop (typ : WatchEventType) (htyp : typ ≠ .put) (key : Bytes) : Recording shard base (f.drop typ key).1 := by
  cases hk : f.state.get key with
  | none =>
    rw [f.drop_none key typ hk]
    exact h
  | some e =>
    obtain ⟨leases, heq, -⟩ := f.state.del_eq key hk
    have hget : (f.state.del key).1.get = Function.update f.state.get key none := by
      funext k
      rw [heq, update_apply]
      exact Map.lookup_erase_eq ..
    rw [f.drop_some key typ hk]
    refine h.emit hget (by simp) (by rw [heq]) (by rw [heq]) fun _ => ?_
    rw [hget, ← h.keyed key e hk]
    cases typ with
    | put => exact absurd rfl htyp
    | delete => rfl
    | expired => rfl

theorem edit (he : Edit f f') : Recording shard base f' := by
  cases he with
  | put key value id prev => exact h.set key value id prev
  | drop typ htyp key => exact h.drop typ htyp key
  | leases leases m => exact h.of_leases leases m

theorem edits (he : Edits f f') : Recording shard base f' := by
  induction he with
  | refl => exact h
  | tail _ he ih => exact ih.edit he

end
end Recording

theorem Published.recording (h : Published shard f) (index : UInt64) :
    Recording shard f.state.get (f.beginLog index) where
  keyed := h.keyed
  replays := by
    show f.outbox.foldl replay f.state.get = f.state.get
    rw [h.outbox]
    rfl
  clean _ _ := rfl
  published := ⟨f.snap, h.snap, h.get⟩

theorem replay_revision (records : List WatchRecord) (revision : UInt64) (view : Bytes → Option Entry) :
    (records.map fun r => { r with revision }).foldl replay view = records.foldl replay view := by
  induction records generalizing view with
  | nil => rfl
  | cons r records ih =>
    rw [map_cons, foldl_cons, ih]
    rfl

theorem Recording.flush (h : Recording shard base f) :
    Published shard (f.flush shard).1 ∧
      (f.flush shard).2.foldl replay base = (f.flush shard).1.state.get := by
  obtain ⟨p, hp, hbase⟩ := h.published
  refine ⟨⟨h.keyed, rfl, rfl, fun k => ?_⟩, ?_⟩
  · refine (State.get_snapshot_some shard hp k).trans ?_
    split
    · rfl
    next hk =>
      rw [hbase]
      exact (h.clean k hk).symm
  · exact (replay_revision f.outbox _ base).trans h.replays

/-- The entry of the log changes nothing: it does not decode, or a condition fails. -/
def Refused (f : RaftFSM) (log : Log) : Prop :=
  if log.data.head?.map Opcode.ofByte = some .opTxn then
    ∀ ops, decodeTxn log.data = .ok ops → ∃ op ∈ ops, condHolds op.cond op.expect (f.state.get op.key) = false
  else ∀ c, decodeCommand log.data ≠ .ok c

theorem applyTxn_refused {ops : List TxnOp} {op : TxnOp} (hop : op ∈ ops)
    (hcond : condHolds op.cond op.expect (f.state.get op.key) = false) : f.applyTxn ops = (f, { ok := false }) := by
  unfold applyTxn
  rw [if_neg]
  intro hall
  rw [List.all_eq_true] at hall
  rw [hall op hop] at hcond
  cases hcond

theorem Published.apply (h : Published shard f) (log : Log) (order : List Bytes) :
    Published shard (f.apply shard log order).1 ∧
      (f.apply shard log order).2.2.foldl replay f.state.get = (f.apply shard log order).1.state.get ∧
      (f.Refused log → (f.apply shard log order).2.2 = [] ∧
        (f.apply shard log order).1.state.get = f.state.get) := by
  have hrec := h.recording log.index
  have hkept : Published shard (f.beginLog log.index) := { h with }
  unfold RaftFSM.apply Refused
  by_cases htxn : log.data.head?.map Opcode.ofByte = some .opTxn
  · simp only [if_pos htxn]
    cases hdec : decodeTxn log.data with
    | error e => exact ⟨hkept, rfl, fun _ => ⟨rfl, rfl⟩⟩
    | ok ops =>
      obtain ⟨hpub, hrep⟩ := (hrec.edits (edits_applyTxn ops)).flush
      refine ⟨hpub, hrep, fun hrefused => ?_⟩
      obtain ⟨op, hop, hcond⟩ := hrefused ops rfl
      have htxn : (f.beginLog log.index).applyTxn ops = (f.beginLog log.index, { ok := false }) :=
        applyTxn_refused hop hcond
      simp only [htxn]
      refine ⟨?_, rfl⟩
      show f.outbox.map _ = []
      rw [h.outbox]
      rfl
  · simp only [if_neg htxn]
    cases hdec : decodeCommand log.data with
    | error e => exact ⟨hkept, rfl, fun _ => ⟨rfl, rfl⟩⟩
    | ok c =>
      obtain ⟨hpub, hrep⟩ := (hrec.edits (edits_applyCommand c order)).flush
      exact ⟨hpub, hrep, fun hrefused => absurd rfl (hrefused c)⟩

theorem published_newRaftFSM : Published shard (newRaftFSM shard) where
  keyed k e h := by cases h
  outbox := rfl
  snap := rfl
  get k := State.get_snapshot_none shard rfl k

theorem keyed_restoreState (st : FsmState) {k : Bytes} {e : Entry} (h : (restoreState st).1.get k = some e) :
    e.key = k := by
  unfold restoreState State.get at h
  rw [(foldl_restoreEntry_kept _ _).1, (foldl_restoreLease _ _ _).2.1] at h
  have hkeyed := List.foldlRecOn (motive := fun m : Map Bytes Entry => ∀ k e, m.lookup k = some e →
    e.key = k) st.entries
    (fun m e => m.insert e.key e) (b := (∅)) (fun k e h => by cases h) fun m hm e _ k e' h' => by
      rcases Map.lookup_insert_some h' with ⟨rfl, rfl⟩ | ⟨-, h'⟩
      · rfl
      · exact hm k e' h'
  exact hkeyed k e h

theorem Published.handle (h : Published shard f) (e : Event) : Published shard (f.handle shard e) := by
  cases e with
  | apply a => exact (h.apply a.log a.order).1
  | restore st =>
    exact ⟨fun k e hk => keyed_restoreState st hk, h.outbox, rfl,
      State.get_snapshot_none shard (published_restoreState st)⟩

/-- The records of a log entry replay the table published before it into the one published after it; an entry that is
    refused leaves both as they were. -/
theorem watch_replays_store (shard : Bytes → Fin snapshotShards) (es : List Event) (log : Log)
    (order : List Bytes) :
    let f := es.foldl (RaftFSM.handle shard) (newRaftFSM shard)
    let g := (f.apply shard log order).1
    let records := (f.apply shard log order).2.2
    (∀ k, f.snap.get shard k = f.state.get k) ∧ (∀ k, g.snap.get shard k = g.state.get k) ∧
      records.foldl replay (f.snap.get shard) = g.snap.get shard ∧
      (f.Refused log → records = [] ∧ (∀ k, g.state.get k = f.state.get k) ∧
        ∀ k, g.snap.get shard k = f.snap.get shard k) := by
  intro f g records
  have hf : Published shard f :=
    List.foldlRecOn (motive := Published shard) es _ published_newRaftFSM fun _ hf e _ => hf.handle e
  obtain ⟨hg, hreplay, hrefused⟩ := hf.apply log order
  have hfget : f.snap.get shard = f.state.get := funext hf.get
  have hgget : (f.apply shard log order).1.snap.get shard =
      (f.apply shard log order).1.state.get := funext hg.get
  refine ⟨hf.get, hg.get, ?_, fun hr => ?_⟩
  · rw [hfget, hgget]
    exact hreplay
  · obtain ⟨hrecords, hsame⟩ := hrefused hr
    refine ⟨hrecords, fun k => congrFun hsame k, fun k => ?_⟩
    rw [hgget, hfget, hsame]

end RaftFSM
end Wippy.Kv.Raft
