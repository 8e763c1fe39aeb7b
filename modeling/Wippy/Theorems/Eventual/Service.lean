import Wippy.Eventual.Delegate
import Wippy.Theorems.Eventual.Intern
import Wippy.Lib.Reach

/-! What the service does to its replica: each operation is a run of operations of the replica, and only the collector
    reclaims ids. -/

namespace Wippy.Eventual
open Lib State

/-- An operation that reclaims no ids. -/
def State.Op.Quiet (op : State.Op) : Prop := ∀ alive, op ≠ .reclaim alive

/-- `t` is `s` after operations that reclaim no id. -/
abbrev State.Quietly (s t : State) : Prop := Reach State.step (fun _ op => op.Quiet) s t

/-- `t` is `s` after strings with the property `P` were interned. -/
abbrev State.Learns (P : Bytes → Prop) (s t : State) : Prop :=
  Reach State.step (fun _ op => ∃ node, P node ∧ op = .intern node) s t

namespace State
variable {s t : State} {node : Bytes} {id : Nat} {P : Bytes → Prop}

theorem Learns.quietly (h : Learns P s t) : s.Quietly t :=
  h.mono fun _ op ⟨_, _, heq⟩ alive hop => by
    rw [heq] at hop
    cases hop

theorem Learns.other (h : Learns P s t) : t.entries = s.entries ∧ t.localNode = s.localNode :=
  h.invariant (P := fun t => t.entries = s.entries ∧ t.localNode = s.localNode) ⟨rfl, rfl⟩
    fun t op ⟨node, _, heq⟩ ht => by
    subst heq
    exact ⟨(internNode_other t node).1.trans ht.1, (internNode_other t node).2.1.trans ht.2⟩

theorem quietly_step (s : State) {op : Op} (hop : op.Quiet) : s.Quietly (s.step op) := .step op .start hop

theorem Table.step (h : s.Table) (op : Op) : (s.step op).Table := by
  cases op with
  | intern node => exact (h.internNode node).1
  | apply e => exact h.same (apply_table s e)
  | register name p wallMs priority => exact h.same (register_table s name p wallMs priority)
  | unregister name wallMs => exact h.same (unregister_table s name wallMs)
  | reapNode departed => exact h.same (reapNode_table s departed)
  | reapTombstones safe nowMs floor => exact h.same (reapTombstones_table s safe nowMs floor)
  | reclaim alive => exact h.reclaim alive

theorem Table.lookup_step (h : s.Table) {op : Op} (hop : op.Quiet) (hid : s.nodeIDs.lookup node = some id) :
    (s.step op).nodeIDs.lookup node = some id := by
  cases op with
  | intern n => exact h.lookup_internNode n hid
  | apply e => exact (apply_table s e).nodeIDs ▸ hid
  | register name p wallMs priority => exact (register_table s name p wallMs priority).nodeIDs ▸ hid
  | unregister name wallMs => exact (unregister_table s name wallMs).nodeIDs ▸ hid
  | reapNode departed => exact (reapNode_table s departed).nodeIDs ▸ hid
  | reapTombstones safe nowMs floor => exact (reapTombstones_table s safe nowMs floor).nodeIDs ▸ hid
  | reclaim alive => exact absurd rfl (hop alive)

theorem Table.quietly (h : s.Table) (hq : s.Quietly t) :
    t.Table ∧ ∀ node id, s.nodeIDs.lookup node = some id → t.nodeIDs.lookup node = some id :=
  hq.invariant (P := fun t => t.Table ∧ ∀ node id, s.nodeIDs.lookup node = some id → t.nodeIDs.lookup node = some id)
    ⟨h, fun _ _ hid => hid⟩ fun _ _ hop ht => ⟨ht.1.step _, fun node id hid => ht.1.lookup_step hop (ht.2 node id hid)⟩

end State

namespace Service
variable {s t u : Service} {P : Bytes → Prop}

/-! ### The service around its replica -/

/-- `t` is `s` after work on the owned names, the queue and the replica that reclaims no id. -/
structure Within (s t : Service) : Prop where
  state : s.state.Quietly t.state
  tracker : t.tracker = s.tracker
  localNodeID : t.localNodeID = s.localNodeID
  stopped : t.stopped = s.stopped

theorem Within.refl (s : Service) : Within s s := ⟨.start, rfl, rfl, rfl⟩

theorem Within.trans (h : Within s t) (h' : Within t u) : Within s u :=
  ⟨h.state.trans h'.state, h'.tracker.trans h.tracker, h'.localNodeID.trans h.localNodeID, h'.stopped.trans h.stopped⟩

section
variable (s)

theorem within_op {op : Op} (hop : op.Quiet) : Within s { s with state := s.state.step op } :=
  ⟨quietly_step s.state hop, rfl, rfl, rfl⟩

theorem within_push (e : Entry) : Within s (s.push e) := ⟨.start, rfl, rfl, rfl⟩

variable (name : Bytes)

theorem forgetOwned_eq : ∃ owned ownedByPID, s.forgetOwned name = { s with owned, ownedByPID } := by
  unfold forgetOwned
  split
  · exact ⟨s.owned, s.ownedByPID, rfl⟩
  · exact ⟨_, _, rfl⟩

theorem own_eq (p : PID) (priority : UInt32) :
    ∃ owned ownedByPID, s.own name p priority = { s with owned, ownedByPID } := by
  unfold own indexOwned
  split
  · exact ⟨_, _, rfl⟩
  · obtain ⟨owned, ownedByPID, heq⟩ := forgetOwned_eq s name
    rw [heq]
    exact ⟨_, _, rfl⟩

theorem withdraw_eq (nowMs : Int64) :
    ∃ queue, (s.withdraw name nowMs).1 = { s with state := (s.state.unregister name nowMs).1, queue } := by
  unfold withdraw
  split
  next heq =>
    rw [heq]
    exact ⟨s.queue, rfl⟩
  next e heq =>
    rw [heq]
    exact ⟨s.queue.push e, rfl⟩

theorem within_withdraw (nowMs : Int64) : Within s (s.withdraw name nowMs).1 := by
  obtain ⟨queue, heq⟩ := withdraw_eq s name nowMs
  rw [heq]
  exact ⟨quietly_step s.state (fun _ => Op.noConfusion : (Op.unregister name nowMs).Quiet), rfl, rfl, rfl⟩

theorem within_forgetOwned : Within s (s.forgetOwned name) := by
  obtain ⟨owned, ownedByPID, heq⟩ := forgetOwned_eq s name
  rw [heq]
  exact ⟨.start, rfl, rfl, rfl⟩

theorem register_effect (hrun : s.stopped = false) (name : Bytes) (p : PID) (priority : UInt32) (nowMs : Int64) :
    (s.register name p priority nowMs).1 = s ∨ ∃ t r, s.state.register name p nowMs priority = (t, r) ∧
      r.entry = s.state.registered name p nowMs priority ∧ Minted s.state t r.entry ∧
      (∀ cur, s.state.dot name s.state.localNode = some cur → cur.deleted = false → cur.pid = p) ∧
      (s.register name p priority nowMs).1 =
        (if r.won then ({ s with state := t } : Service).own name p priority
          else { s with state := t }).push r.entry := by
  unfold register
  rw [if_neg (by simp [hrun])]
  rcases register_cases s.state name p nowMs priority with ⟨cur, -, -, -, heq⟩ | ⟨t, r, heq, hr, hm, -, -, hlost, hfree⟩
  · rw [heq]
    exact Or.inl rfl
  rw [heq]
  refine Or.inr ⟨t, r, rfl, hr, hm, hfree, ?_⟩
  dsimp only
  split
  · rfl
  next hlose =>
    rw [hlost, if_pos (by simpa using hlose)]

theorem within_register (p : PID) (priority : UInt32) (nowMs : Int64) :
    Within s (s.register name p priority nowMs).1 := by
  cases hrun : s.stopped with
  | true =>
    unfold register
    rw [if_pos hrun]
    exact .refl s
  | false =>
    rcases register_effect s hrun name p priority nowMs with heq | ⟨t, r, hreg, -, -, -, heq⟩
    · rw [heq]
      exact .refl s
    have hop := within_op s (fun _ => Op.noConfusion : (Op.register name p nowMs priority).Quiet)
    have hstate : s.state.step (.register name p nowMs priority) = t := congrArg Prod.fst hreg
    obtain ⟨owned, ownedByPID, hown⟩ := own_eq { s with state := t } name p priority
    rw [hstate] at hop
    rw [heq]
    refine Within.trans ?_ (within_push _ _)
    split
    · rw [hown]
      exact ⟨hop.state, rfl, rfl, rfl⟩
    · exact hop

theorem within_releaseOwned (p : PID) (nowMs : Int64) : Within s (s.releaseOwned name p nowMs) := by
  unfold releaseOwned
  split
  · split
    · exact (within_forgetOwned s name).trans (within_withdraw _ name nowMs)
    · exact .refl s
  · exact .refl s

theorem within_releaseAll (names : List Bytes) (p : PID) (now : Bytes → Int64) :
    Within s (names.foldl (fun s name => s.releaseOwned name p (now name)) s) := by
  induction names generalizing s with
  | nil => exact .refl s
  | cons name names ih => exact (within_releaseOwned s name p (now name)).trans (ih _)

theorem reassertOwned_effect (nowMs : Int64) :
    s.reassertOwned name nowMs = s ∨ ∃ reg t r, s.owned.lookup name = some reg ∧
      s.state.register name reg.pid nowMs reg.priority = (t, r) ∧
      r.entry = s.state.registered name reg.pid nowMs reg.priority ∧ Minted s.state t r.entry ∧
      s.reassertOwned name nowMs =
        if r.won then ({ s with state := t } : Service).push r.entry else { s with state := t } := by
  unfold reassertOwned
  split
  · exact Or.inl rfl
  rename_i reg hreg
  split
  · exact Or.inl rfl
  rcases register_cases s.state name reg.pid nowMs reg.priority with ⟨cur, -, -, -, heq⟩ | ⟨t, r, heq, hr, hm, -⟩
  · rw [heq]
    exact Or.inl rfl
  · refine Or.inr ⟨reg, t, r, hreg, heq, hr, hm, ?_⟩
    rw [heq]

theorem within_reassertOwned (nowMs : Int64) : Within s (s.reassertOwned name nowMs) := by
  rcases reassertOwned_effect s name nowMs with heq | ⟨reg, t, r, -, hreg, -, -, heq⟩
  · rw [heq]
    exact .refl s
  have hop := within_op s (fun _ => Op.noConfusion : (Op.register name reg.pid nowMs reg.priority).Quiet)
  have hstate : s.state.step (.register name reg.pid nowMs reg.priority) = t := congrArg Prod.fst hreg
  rw [hstate] at hop
  rw [heq]
  split
  · exact hop.trans (within_push _ _)
  · exact hop

end

/-- The state and the queue after a merge. -/
def merged (s : Service) (d : Delta) : Service :=
  { s with
    state := (s.state.receive d).1
    queue := match (s.state.receive d).2.2.1 with
      | some e => s.queue.push e
      | none => s.queue }

section
variable (s)

theorem applyIncoming_cases (d : Delta) (nowMs : Int64) :
    s.applyIncoming d nowMs = s.merged d ∨ s.applyIncoming d nowMs = (s.merged d).reassertOwned d.name nowMs := by
  unfold applyIncoming merged State.receive
  dsimp only
  generalize (s.state.internNode d.origin).1.apply (d.entry (s.state.internNode d.origin).2) = r
  obtain ⟨state, outcome, fwd, lost⟩ := r
  cases fwd <;> dsimp only <;> split
  · exact Or.inr rfl
  · exact Or.inl rfl
  · exact Or.inr rfl
  · exact Or.inl rfl

theorem within_applyIncoming (d : Delta) (nowMs : Int64) : Within s (s.applyIncoming d nowMs) := by
  have hreceive : s.state.Quietly (s.state.receive d).1 :=
    (quietly_step s.state (fun _ => Op.noConfusion : (Op.intern d.origin).Quiet)).trans
      (quietly_step _ (fun _ => Op.noConfusion : (Op.apply (d.entry (s.state.internNode d.origin).2)).Quiet))
  have hmerged : Within s (s.merged d) := ⟨hreceive, rfl, rfl, rfl⟩
  rcases applyIncoming_cases s d nowMs with heq | heq
  · rw [heq]
    exact hmerged
  · rw [heq]
    exact hmerged.trans (within_reassertOwned _ d.name nowMs)

theorem foldl_push_eq (es : List Entry) : ∃ queue, es.foldl push s = { s with queue } := by
  induction es generalizing s with
  | nil => exact ⟨s.queue, rfl⟩
  | cons e es ih =>
    obtain ⟨queue, heq⟩ := ih (s.push e)
    exact ⟨queue, heq⟩

theorem handleNodeLeft_eq (node : Bytes) : ∃ queue, s.handleNodeLeft node =
    { s with state := (s.state.reapNode node).1, queue, tracker := s.tracker.forgetPeer node } := by
  obtain ⟨queue, heq⟩ := foldl_push_eq { s with state := (s.state.reapNode node).1 } (s.state.reapNode node).2
  refine ⟨queue, ?_⟩
  unfold handleNodeLeft
  dsimp only
  rw [heq]

end

theorem learns_mergePairs {m : Merging} {pairs : List (Bytes × UInt64)} (hpairs : ∀ p ∈ pairs, P p.1)
    (hpeer : m.peerNode ≠ [] → P m.peerNode) : Learns P m.state (pairs.foldl Merging.pair m).state := by
  induction pairs generalizing m with
  | nil => exact .start
  | cons p pairs ih =>
    have hp : P p.1 := hpairs p (by simp)
    have hintern : ∀ (s : State) (node : Bytes), P node → Learns P s (s.internNode node).1 := fun s node hnode =>
      Reach.step (Op.intern node) .start ⟨node, hnode, rfl⟩
    have hone : Learns P m.state (m.pair p).state ∧ ((m.pair p).peerNode ≠ [] → P (m.pair p).peerNode) := by
      unfold Merging.pair
      dsimp only
      split
      · exact ⟨hintern m.state p.1 hp, fun _ => hp⟩
      rename_i hne
      refine ⟨(hintern m.state p.1 hp).trans (hintern _ m.peerNode (hpeer hne)), fun _ => ?_⟩
      split
      · exact hp
      · exact hpeer hne
    exact hone.1.trans (ih (fun q hq => hpairs q (by simp [hq])) hone.2)

/-- The counters in a push/pull payload. -/
def pairsOf (buf : Bytes) : List (Bytes × UInt64) :=
  match readHead buf with
  | none => []
  | some (_, count, data) => (readPairs count.toNat data).1

theorem mergeRemoteState_eq (s : Service) (localDigest : Digest) {buf : Bytes} (hbuf : ∀ p ∈ pairsOf buf, P p.1) :
    ∃ state tracker, Learns P s.state state ∧
      (s.mergeRemoteState localDigest buf).1 = { s with state, tracker } := by
  unfold pairsOf at hbuf
  unfold mergeRemoteState
  cases hhead : readHead buf with
  | none => exact ⟨s.state, s.tracker, .start, rfl⟩
  | some head =>
    obtain ⟨digest, count, data⟩ := head
    rw [hhead] at hbuf
    have hlearns := learns_mergePairs (m := { state := s.state, peerCV := List.replicate count.toNat 0 }) hbuf
      fun hne => absurd rfl hne
    dsimp only
    split
    · exact ⟨_, s.tracker, hlearns, rfl⟩
    · exact ⟨_, _, hlearns, rfl⟩

/-- An event that touches neither the tracker nor the ids. -/
def Event.Plain : Event → Prop
  | .nodeLeft _ | .runOnce .. | .mergeRemoteState .. => False
  | _ => True

theorem within_step (s : Service) {ev : Event} (hev : ev.Plain) : Within s (s.step ev) := by
  cases ev with
  | register name p priority nowMs => exact within_register s name p priority nowMs
  | unregister name nowMs =>
    simp only [step, unregister]
    split
    · exact .refl s
    · exact (within_withdraw s name nowMs).trans (within_forgetOwned _ name)
  | releasePID p order now =>
    simp only [step, releasePID]
    split
    · exact .refl s
    · exact within_releaseAll s (s.ownedNames p order) p now
  | applyIncoming d nowMs => exact within_applyIncoming s d nowMs
  | drainBroadcasts overhead budget => exact ⟨.start, rfl, rfl, rfl⟩
  | nodeLeft | runOnce | mergeRemoteState => exact hev.elim

end Service
end Wippy.Eventual
