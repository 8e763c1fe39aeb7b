import Wippy.Theorems.Kvbacked.Keys

/-! What a step of the registry services can do: the transactions that can be submitted (`Submits`), and what a
    committed one leaves in the store (`Committed`). -/

namespace Wippy.Kvbacked
open Lib List Option

variable {read : Bytes → Option Entry} {pe : Entry} {hdr : PendingHeader} {k attemptID selfNode name : Bytes}
  {reason : Reason}
  {i epoch ver : Nat} {p : PID} {r : Record} {nodes : List Bytes} {f : Bytes → Txn} {ops : Txn}

theorem decodePending_eq (h : decodePending r = some hdr) : r = .pending hdr := by
  cases r with
  | pending v =>
    simp only [decodePending, ite_none_left_eq_some] at h
    rw [Option.some.inj h.2]
  | active v | index v | vote n | result v => cases h

theorem decodeActive_eq {v : ActiveValue} (h : decodeActive r = some v) : r = .active v := by
  cases r with
  | active v =>
    simp only [decodeActive, ite_none_left_eq_some] at h
    rw [Option.some.inj h.2]
  | pending v | index v | vote n | result v => cases h

theorem leaderPromote_eq (h : leaderPromote name ver hdr = some ops) :
    hdr.requiredNodes ≠ [] ∧ ∃ p, ownerOf hdr.pid = some p ∧ ops = promoteOps name ver hdr p := by
  unfold leaderPromote at h
  split at h
  · cases h
  next hne =>
    obtain ⟨p, hp, rfl⟩ := map_eq_some_iff.mp h
    exact ⟨fun hnil => hne (by rw [hnil]; rfl), p, hp, rfl⟩

theorem leaderExpire_eq (h : leaderExpire read name epoch ver hdr reason = some ops) :
    leaderPromote name ver hdr = some ops ∨ ops = expireOps read name epoch ver hdr reason := by
  unfold leaderExpire at h
  split at h
  · exact Or.inl h
  · exact Or.inr (Option.some.inj h).symm

namespace Cluster
variable {s : Cluster} {e : Event} {ops : Txn} {name : Bytes}

/-- An entry that some table published so far has. -/
def Seen (s : Cluster) (k : Bytes) (x : Entry) : Prop := ∃ a ∈ s.published, a.get k = some x

theorem seen_of_get {x : Entry} (h : (s.snapshot i).get k = some x) : s.Seen k x := by
  unfold snapshot at h
  cases ha : s.published[i]? with
  | none =>
    rw [ha] at h
    cases h
  | some a =>
    rw [ha] at h
    exact ⟨a, mem_of_getElem? ha, h⟩

/-- A pending header that was seen. -/
def SeenPending (s : Cluster) (name : Bytes) (pe : Entry) (hdr : PendingHeader) : Prop :=
  s.Seen (pendingKey name) pe ∧ pe.value = .pending hdr

theorem seenPending_of_reconcile {x : Entry × PendingHeader} (h : reconcile (s.snapshot i) name = some x) :
    s.SeenPending name x.1 x.2 := by
  unfold reconcile at h
  split at h
  · cases h
  obtain ⟨pe, hpe, h⟩ := bind_eq_some_iff.mp h
  obtain ⟨hdr, hdec, h⟩ := bind_eq_some_iff.mp h
  split at h
  · cases h
    exact ⟨seen_of_get hpe, decodePending_eq hdec⟩
  · cases h

/-! ### Transactions that can be submitted -/

/-- The process that a step registers. -/
def registrant : Event → Option PID
  | .register _ _ p _ _ _ | .registerConsistent _ p => some p
  | .resolveConflict _ _ p _ _ => some p
  | _ => none

/-- The transactions that a step can submit. -/
inductive Submits (s : Cluster) (e : Event) : Txn → Prop
  | publish {selfNode name : Bytes} {p : PID} {attemptID : Bytes} {deadline now : Int}
      (hdrawn : drawn e = some attemptID)
      (hp : registrant e = some p) : Submits s e (register selfNode name p attemptID deadline now)
  | stamp {name : Bytes} {pe : Entry} {hdr : PendingHeader} {nodes : List Bytes} (h : s.SeenPending name pe hdr)
      (hnone : hdr.requiredNodes = []) :
      Submits s e [.put (.version pe.version) (pendingKey name) (.pending { hdr with requiredNodes := nodes })]
  | vote {name node : Bytes} {pe : Entry} {hdr : PendingHeader} (h : s.SeenPending name pe hdr)
      (hnode : node ∈ hdr.requiredNodes) :
      Submits s e (writeVote name pe.version (ackKey name hdr.attemptID node) node)
  | promote {name : Bytes} {pe : Entry} {hdr : PendingHeader} {p : PID} (h : s.SeenPending name pe hdr)
      (hne : hdr.requiredNodes ≠ []) (hp : ownerOf hdr.pid = some p) : Submits s e (promoteOps name pe.version hdr p)
  | expire {name : Bytes} {pe : Entry} {hdr : PendingHeader} {read : Bytes →
      Option Entry} {epoch : Nat} {reason : Reason}
      (h : s.SeenPending name pe hdr) : Submits s e (expireOps read name epoch pe.version hdr reason)
  | bind {name : Bytes} {p : PID} (hp : registrant e = some p) : Submits s e (registerConsistent name p)
  | swap {name : Bytes} {x : Entry} {av : ActiveValue} {old p : PID} (hp : registrant e = some p)
      (h : s.Seen (activeKey name) x) (hv : x.value = .active av) (hold : ownerOf av.pid = some old) :
      Submits s e (swapOwner name x.version old p)
  | unbind {name : Bytes} {x : Entry} {av : ActiveValue} {owner : PID} (h : s.Seen (activeKey name) x)
      (hv : x.value = .active av) (howner : ownerOf av.pid = some owner) :
      Submits s e [.check (.version x.version) (activeKey name), .delete .any (activeKey name),
        .delete .any (pidIndexKey owner name), .delete .any (nodeIndexKey owner name)]
  | delete {i j : Nat} {v : Victim} (he : e = .deleteBinding i j) (hv : s.victims[i]? = some v) :
      Submits s e (deleteBinding v ((s.snapshot j).get (activeKey v.name)))

section
variable (hseen : s.SeenPending name pe hdr)
include hseen

theorem Submits.of_assign {isLeader : Bool}
    (h : assignObservers selfNode isLeader nodes name pe.version hdr = some ops) : Submits s e ops := by
  unfold assignObservers at h
  split at h
  · cases h
  have hnil : hdr.requiredNodes = [] := by simp_all
  split at h
  · cases h
  split at h
  · cases h
  · cases h
    exact .stamp hseen hnil

theorem Submits.of_promote (h : leaderPromote name pe.version hdr = some ops) : Submits s e ops := by
  obtain ⟨hne, p, hp, rfl⟩ := leaderPromote_eq h
  exact .promote hseen hne hp

theorem Submits.of_expire (h : leaderExpire read name epoch pe.version hdr reason = some ops) : Submits s e ops := by
  rcases leaderExpire_eq h with h | rfl
  · exact .of_promote hseen h
  · exact .expire hseen

theorem Submits.of_drive {read again missing : Bytes → Option Entry} {now : Int} {barrier : Bool}
    (h : leaderDrive read again missing now barrier name epoch pe.version hdr = some ops) : Submits s e ops := by
  unfold leaderDrive at h
  split at h
  · exact .of_promote hseen h
  split at h
  · cases h
  split at h
  · cases h
  · split at h
    · exact .of_promote hseen h
    · exact .of_expire hseen h

end

theorem Submits.of_attest {j : Nat}
    (h : attest selfNode name pe.version hdr.attemptID hdr.requiredNodes ((s.snapshot j).get (pendingKey name)) =
      some ops) :
    Submits s e ops := by
  unfold attest at h
  split at h
  · cases h
  obtain ⟨cur, hcur, h⟩ := bind_eq_some_iff.mp h
  split at h
  · cases h
  rename_i hver
  obtain ⟨header, hdec, h⟩ := bind_eq_some_iff.mp h
  split at h
  · cases h
  rename_i hsame
  split at h
  · cases h
  rename_i hnode
  cases h
  simp only [Bool.or_eq_true, decide_eq_true_eq, not_or, not_not] at hsame
  rw [← not_not.mp hver, ← hsame.1]
  have hin : selfNode ∈ header.requiredNodes := by simpa using hnode
  exact .vote ⟨seen_of_get hcur, decodePending_eq hdec⟩ hin

theorem Submits.of_resolve {resolve : Bytes → PID → PID → PID} {pending : Option Entry} (hp : registrant e = some p)
    (h : resolveConflict resolve name p ((s.snapshot i).get (activeKey name)) pending = some ops) :
    Submits s e ops := by
  unfold resolveConflict at h
  split at h
  · split at h
    · cases h
    · cases h
      exact .bind hp
  next x hx =>
    obtain ⟨av, hav, h⟩ := bind_eq_some_iff.mp h
    obtain ⟨old, hold, h⟩ := bind_eq_some_iff.mp h
    split at h
    · cases h
    split at h
    · cases h
    split at h
    · cases h
    · cases h
      exact .swap hp (seen_of_get hx) (decodeActive_eq hav) hold

theorem Submits.of_unregister (h : unregisterScope name ((s.snapshot i).get (activeKey name)) = some ops) :
    Submits s e ops := by
  obtain ⟨x, hx, h⟩ := bind_eq_some_iff.mp h
  obtain ⟨av, hav, h⟩ := bind_eq_some_iff.mp h
  obtain ⟨owner, howner, h⟩ := bind_eq_some_iff.mp h
  cases h
  exact .unbind (seen_of_get hx) (decodeActive_eq hav) howner

theorem submits (h : s.submitted e = some ops) : Submits s e ops := by
  cases e with
  | register selfNode name p id deadline now =>
    cases h
    exact .publish rfl rfl
  | assignObservers selfNode name isLeader nodes snap =>
    obtain ⟨⟨pe, hdr⟩, hrec, h⟩ := bind_eq_some_iff.mp h
    exact .of_assign (seenPending_of_reconcile hrec) h
  | attest selfNode name snap current =>
    obtain ⟨⟨pe, hdr⟩, hrec, h⟩ := bind_eq_some_iff.mp h
    exact .of_attest h
  | leaderDrive name snap read again missing now barrier =>
    obtain ⟨⟨pe, hdr⟩, hrec, h⟩ := bind_eq_some_iff.mp h
    exact .of_drive (seenPending_of_reconcile hrec) h
  | promoteConflict name snap read =>
    obtain ⟨⟨pe, hdr⟩, hrec, h⟩ := bind_eq_some_iff.mp h
    simp only [Kvbacked.promoteConflict, ite_none_right_eq_some] at h
    exact .of_expire (seenPending_of_reconcile hrec) h.2
  | unreserve name pending read =>
    obtain ⟨pe, hpe, h⟩ := bind_eq_some_iff.mp h
    obtain ⟨hdr, hdec, h⟩ := bind_eq_some_iff.mp h
    exact .of_expire ⟨seen_of_get hpe, decodePending_eq hdec⟩ h
  | registerConsistent name p =>
    cases h
    exact .bind rfl
  | resolveConflict resolve name incoming active pending => exact .of_resolve rfl h
  | unregisterScope name active => exact .of_unregister h
  | remove p snap => cases h
  | removeNode nodeID snap => cases h
  | deleteBinding victim active =>
    obtain ⟨v, hv, h⟩ := bind_eq_some_iff.mp h
    cases h
    exact .delete rfl hv

/-! ### What a step leaves -/

/-- The pending entry of a name. -/
def pendingAt (s : Cluster) (name : Bytes) : Option Entry := s.store.get (pendingKey name)

/-- The active entry of a name. -/
def activeAt (s : Cluster) (name : Bytes) : Option Entry := s.store.get (activeKey name)

/-- The acknowledgement of a node. -/
def ackAt (s : Cluster) (name attemptID node : Bytes) : Option Entry := s.store.get (ackKey name attemptID node)

/-- `t` is `s` after the transaction `ops` committed. -/
structure Committed (s t : Cluster) (ops : Txn) : Prop where
  ok : (s.store.txn ops).2 = true
  store : t.store = (s.store.txn ops).1
  puts : t.puts = s.puts ++ TxnOp.puts ops

section Committed
variable {t : Cluster}

section
variable (h : Committed s t ops)
include h

theorem Committed.holds {op : TxnOp Bytes Record} (hop : op ∈ ops) : s.store.holds op = true :=
  TxnStore.txn_committed.mp h.ok op hop

theorem Committed.kept (hk : TxnOp.lastWrite k ops = none) : t.store.get k = s.store.get k := by
  rw [h.store, TxnStore.get_txn_kept h.ok hk]

theorem Committed.gone (hk : TxnOp.lastWrite k ops = some none) : t.store.get k = none := by
  rw [h.store, TxnStore.get_txn_gone h.ok hk]

theorem Committed.wrote (hk : TxnOp.lastWrite k ops = some (some r)) : ∃ x, t.store.get k = some x ∧ x.value = r := by
  rw [h.store]
  exact TxnStore.get_txn_wrote h.ok hk

end

/-- Groups of operations, one for each node, each of which deletes the node's acknowledgement and writes no other
    key. -/
structure AckGroups (name attemptID : Bytes) (f : Bytes → Txn) : Prop where
  only : ∀ i k, ackKey name attemptID i ≠ k → TxnOp.lastWrite k (f i) = none
  del : ∀ i, TxnOp.lastWrite (ackKey name attemptID i) (f i) = some none

theorem AckGroups.other (hf : AckGroups name attemptID f) (required : List Bytes)
    (hk : (family k == [97, 99, 107]) = false) : TxnOp.lastWrite k (required.flatMap f) = none :=
  TxnOp.lastWrite_flatMap_of_notMem hf.only fun i _ heq => by simp [← heq] at hk

theorem promote_groups (name : Bytes) (hdr : PendingHeader) : AckGroups name hdr.attemptID fun n =>
    [.check .present (ackKey name hdr.attemptID n), .delete .any (ackKey name hdr.attemptID n)] :=
  ⟨fun i k hk => by simp [hk], fun i => by simp⟩

theorem expire_groups (name : Bytes) (hdr : PendingHeader) (read : Bytes → Option Entry) (reason : Reason) :
    AckGroups name hdr.attemptID fun n =>
      (if reason = .deadline then
        [.check (if voteExists read (ackKey name hdr.attemptID n) then .present
          else .absent) (ackKey name hdr.attemptID n)]
      else []) ++ [.delete .any (ackKey name hdr.attemptID n)] :=
  ⟨fun i k hk => by split <;> simp [hk], fun i => by split <;> simp⟩

theorem Committed.acks (h : Committed s t ops) {first last : Txn} {required : List Bytes}
    (hf : AckGroups name attemptID f) (hops : ops = first ++ required.flatMap f ++ last)
    (hfirst : ∀ n a m, TxnOp.lastWrite (ackKey n a m) first = none)
    (hlast : ∀ n a m, TxnOp.lastWrite (ackKey n a m) last = none) :
    (∀ n a m, t.ackAt n a m = s.ackAt n a m ∨ t.ackAt n a m = none) ∧
      ∀ m ∈ required, t.ackAt name attemptID m = none := by
  subst hops
  have gone : ∀ n a m, (∃ i ∈ required, ackKey name attemptID i = ackKey n a m) → t.ackAt n a m = none := by
    intro n a m hex
    refine h.gone ?_
    rw [TxnOp.lastWrite_append, TxnOp.lastWrite_append, hlast, TxnOp.lastWrite_flatMap_of_mem hf.only hf.del hex]
    rfl
  refine ⟨fun n a m => ?_, fun m hm => gone name attemptID m ⟨m, hm, rfl⟩⟩
  by_cases hex : ∃ i ∈ required, ackKey name attemptID i = ackKey n a m
  · exact Or.inr (gone n a m hex)
  refine Or.inl (h.kept ?_)
  rw [TxnOp.lastWrite_append, TxnOp.lastWrite_append, hlast, hfirst,
    TxnOp.lastWrite_flatMap_of_notMem hf.only fun i hi heq => hex ⟨i, hi, heq⟩]
  rfl

@[simp] theorem puts_promoteOps (name : Bytes) (ver : Nat) (hdr : PendingHeader) (p : PID) :
    TxnOp.puts (promoteOps name ver hdr p) =
      [(activeKey name, .active
          { pid := hdr.pid, name, attemptID := hdr.attemptID, requiredNodes := hdr.requiredNodes, strong := true }),
        (pidIndexKey p name, .index { pid := hdr.pid, name }),
        (nodeIndexKey p name, .index { pid := hdr.pid, name })] := by
  rw [promoteOps, TxnOp.puts_append, TxnOp.puts_flatMap_eq_nil (fun _ => rfl)]
  rfl

@[simp] theorem puts_expireOps (read : Bytes → Option Entry) (name : Bytes) (epoch ver : Nat) (hdr : PendingHeader)
    (reason : Reason) :
    TxnOp.puts (expireOps read name epoch ver hdr reason) =
      [(resultKey name hdr.attemptID, .result
        { name, attemptID := hdr.attemptID, reason, missing := missingAcks read name hdr, epoch })] := by
  rw [expireOps, TxnOp.puts_append, TxnOp.puts_append, TxnOp.puts_flatMap_eq_nil fun n => by split <;> rfl]
  rfl

/-- The version check of a transaction on a pending header that was read makes it the current one. -/
theorem SeenPending.current (hs : TxnStore.Versions s.published s.store)
    (hseen : s.SeenPending name pe hdr) (hc : (Cond.version pe.version).holds (s.store.get (pendingKey name)) = true) :
    s.pendingAt name = some pe := by
  obtain ⟨⟨a, ha, hget⟩, -⟩ := hseen
  exact hs.current ha hget hc

end Committed

theorem handle_cases (s : Cluster) (e : Event) :
    ((∀ k, (s.handle e).store.get k = s.store.get k) ∧ (s.handle e).puts = s.puts) ∨
      ∃ ops, Submits s e ops ∧ Committed s (s.handle e) ops := by
  cases hsub : s.submitted e with
  | none =>
    refine Or.inl ?_
    unfold handle
    rw [hsub]
    exact ⟨fun _ => rfl, rfl⟩
  | some ops =>
    cases hc : (s.store.txn ops).2 with
    | false =>
      refine Or.inl ?_
      unfold handle
      rw [hsub]
      refine ⟨fun k => TxnStore.get_txn_of_not hc k, ?_⟩
      simp [commit, hc]
    | true =>
      refine Or.inr ⟨ops, submits hsub, hc, ?_, ?_⟩
      · unfold handle
        rw [hsub]
        rfl
      · unfold handle
        rw [hsub]
        simp [commit, hc]

theorem versions_handle (hs : TxnStore.Versions s.published s.store) (e : Event) :
    TxnStore.Versions (s.handle e).published (s.handle e).store := by
  unfold handle
  cases s.submitted e with
  | none => exact hs
  | some ops => exact hs.txn ops

end Cluster
end Wippy.Kvbacked
