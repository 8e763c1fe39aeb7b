import Wippy.Theorems.Eventual.Integrity
import Wippy.Theorems.Eventual.Service

/-! Each operation of the service is a sequence of critical sections with nothing in between, so the intern table of a
    service whose operations do not overlap keeps its integrity. -/

namespace Wippy.Eventual
open Lib State List Option

namespace Windows
variable {w : Windows} {s t : Service} {d : Delta}

/-- The windows have the state and the queue of the service, and nothing is on its way. -/
structure Mirrors (s : Service) (w : Windows) : Prop where
  state : w.state = s.state
  queue : w.queue = s.queue
  idle : w.incoming = []

/-- Some run of critical sections from `w` ends where the service `s` is. -/
def Follows (w : Windows) (s : Service) : Prop := ∃ w', Mirrors s w' ∧ Reach step Orderly w w'

theorem Orderly.of_none {ev : Event} (hev : w.Steady ev) (hnone : ev.interns = none) : w.Orderly ev :=
  ⟨hev, fun heq => some_ne_none _ (heq.symm.trans hnone)⟩

theorem Follows.of_step (ev : Event) (hev : w.Orderly ev) (h : (w.step ev).Follows s) : w.Follows s := by
  obtain ⟨v, hmirrors, hreach⟩ := h
  exact ⟨v, hmirrors, Reach.trans (.step ev .start hev) hreach⟩

theorem Follows.trans (h : w.Follows s) (h' : ∀ w', Mirrors s w' → w'.Follows t) : w.Follows t := by
  obtain ⟨w', hmirrors, hreach⟩ := h
  obtain ⟨v, hmirrors', hreach'⟩ := h' w' hmirrors
  exact ⟨v, hmirrors', hreach.trans hreach'⟩

theorem Follows.congr (h : w.Follows s) (hstate : t.state = s.state) (hqueue : t.queue = s.queue) : w.Follows t := by
  obtain ⟨v, hmirrors, hreach⟩ := h
  exact ⟨v, ⟨hmirrors.state.trans hstate.symm, hmirrors.queue.trans hqueue.symm, hmirrors.idle⟩, hreach⟩

theorem Mirrors.follows (h : Mirrors s w) : w.Follows s := ⟨w, h, .start⟩

theorem follows_pushAll (es : List Entry) (h : Mirrors s w) :
    ({ w with outgoing := w.outgoing ++ es } : Windows).Follows (es.foldl Service.push s) := by
  induction es generalizing w s with
  | nil => exact Mirrors.follows { h with }
  | cons e es ih =>
    have hget : (w.outgoing ++ e :: es)[w.outgoing.length]? = some e := by simp
    have herase : (w.outgoing ++ e :: es).eraseIdx w.outgoing.length = w.outgoing ++ es := by
      simp [eraseIdx_append_of_length_le]
    have hpush : ({ w with outgoing := w.outgoing ++ e :: es }).step (.push w.outgoing.length) =
        { w.push e with outgoing := w.outgoing ++ es } := by
      simp only [step, hget, herase]
      rfl
    have hmirrors : Mirrors (s.push e) (w.push e) := ⟨h.state, congrArg (BroadcastQueue.push · e) h.queue, h.idle⟩
    refine Follows.of_step (.push w.outgoing.length) (.of_none trivial rfl) ?_
    rw [hpush]
    exact ih hmirrors

section
variable (h : Mirrors s w)
include h

theorem follows_store (state : State) (e : Entry) (origin : Bytes) :
    (w.store state e origin).Follows (({ s with state } : Service).push e) :=
  follows_pushAll [e] (w := { w with state, source := w.source.insert (e.name, e.node) origin }) ⟨rfl, h.queue, h.idle⟩

/-! ### Operations of the service -/

section
variable (name : Bytes)

theorem Mirrors.register (p : PID) (priority : UInt32) (nowMs : Int64) :
    w.Follows (s.register name p priority nowMs).1 := by
  unfold Service.register
  split
  · exact h.follows
  refine Follows.of_step (.register name p nowMs priority) (.of_none trivial rfl) ?_
  simp only [step, Windows.register, h.state]
  generalize s.state.register name p nowMs priority = r
  obtain ⟨state, res⟩ := r
  by_cases hwon : res.won = true
  · obtain ⟨owned, ownedByPID, hown⟩ := Service.own_eq { s with state } name p priority
    rw [if_pos (Or.inl hwon), if_pos hwon, hown]
    exact (follows_store h state res.entry w.node).congr rfl rfl
  · by_cases hlost : res.lost.isSome = true
    · rw [if_pos (Or.inr hlost), if_neg hwon, if_pos hlost]
      exact follows_store h state res.entry w.node
    · rw [if_neg fun hor => hor.elim hwon hlost, if_neg hwon, if_neg hlost]
      exact Mirrors.follows ⟨rfl, h.queue, h.idle⟩

theorem Mirrors.reassertOwned (nowMs : Int64) : w.Follows (s.reassertOwned name nowMs) := by
  unfold Service.reassertOwned
  split
  · exact h.follows
  rename_i reg _
  split
  · exact h.follows
  refine Follows.of_step (.register name reg.pid nowMs reg.priority) (.of_none trivial rfl) ?_
  simp only [step, Windows.register, h.state]
  generalize s.state.register name reg.pid nowMs reg.priority = r
  obtain ⟨state, res⟩ := r
  by_cases hwon : res.won = true
  · rw [if_pos (Or.inl hwon), if_pos hwon]
    exact follows_store h state res.entry w.node
  -- A dot that loses again is stored and never pushed.
  split <;> exact Mirrors.follows ⟨rfl, h.queue, h.idle⟩

theorem Mirrors.withdraw (nowMs : Int64) : w.Follows (s.withdraw name nowMs).1 := by
  refine Follows.of_step (.unregister name nowMs) (.of_none trivial rfl) ?_
  simp only [step, Windows.unregister, Service.withdraw, h.state]
  generalize s.state.unregister name nowMs = r
  obtain ⟨state, e⟩ := r
  cases e with
  | none => exact Mirrors.follows ⟨rfl, h.queue, h.idle⟩
  | some e => exact follows_store h state e w.node

theorem Mirrors.forgetOwned : Mirrors (s.forgetOwned name) w := by
  obtain ⟨owned, ownedByPID, heq⟩ := s.forgetOwned_eq name
  rw [heq]
  exact { h with }

theorem Mirrors.releaseOwned (p : PID) (nowMs : Int64) : w.Follows (s.releaseOwned name p nowMs) := by
  unfold Service.releaseOwned
  split
  · split
    · exact (h.forgetOwned name).withdraw name nowMs
    · exact h.follows
  · exact h.follows

end

theorem Mirrors.releaseAll (names : List Bytes) (p : PID) (now : Bytes → Int64) :
    w.Follows (names.foldl (fun s name => s.releaseOwned name p (now name)) s) := by
  induction names generalizing s w with
  | nil => exact h.follows
  | cons name names ih => exact (h.releaseOwned name p (now name)).trans fun _ h' => ih h'

theorem Mirrors.merged (hd : d.origin ≠ []) : w.Follows (s.merged d) := by
  refine Follows.of_step (.intern d) ⟨hd, fun heq => hd (Option.some.inj heq)⟩ ?_
  refine Follows.of_step (.merge 0) (.of_none trivial rfl) ?_
  simp only [step, h.idle, h.state, nil_append, getElem?_cons_zero, eraseIdx_cons_zero, Windows.merge,
    Service.merged, State.receive]
  generalize (s.state.internNode d.origin).1.apply (d.entry (s.state.internNode d.origin).2) = r
  obtain ⟨state, outcome, fwd, lost⟩ := r
  cases fwd with
  | none => exact Mirrors.follows ⟨rfl, h.queue, rfl⟩
  | some e =>
    exact follows_store (w := { w with state := (s.state.internNode d.origin).1, incoming := [] })
      (s := { s with state := (s.state.internNode d.origin).1 }) ⟨rfl, h.queue, rfl⟩ state e _

theorem Mirrors.applyIncoming (hd : d.origin ≠ []) (nowMs : Int64) : w.Follows (s.applyIncoming d nowMs) := by
  rcases s.applyIncoming_cases d nowMs with heq | heq
  · rw [heq]
    exact h.merged hd
  · rw [heq]
    exact (h.merged hd).trans fun _ h' => h'.reassertOwned d.name nowMs

theorem Mirrors.nodeLeft (node : Bytes) : w.Follows (s.onNodeLeft node) := by
  unfold Service.onNodeLeft
  split
  · exact h.follows
  refine Follows.of_step (.reapNode node) (.of_none trivial rfl) ?_
  have hpushed := follows_pushAll (s.state.reapNode node).2 (w := { w with state := (s.state.reapNode node).1 })
    (s := { s with state := (s.state.reapNode node).1 }) ⟨rfl, h.queue, h.idle⟩
  simp only [step, h.state]
  exact hpushed.congr rfl rfl

theorem Mirrors.runOnce (alivePeers : List Bytes) (nowMs floorMs : Int64) :
    w.Follows (s.runOnce alivePeers nowMs floorMs) := by
  refine Follows.of_step
    (.reapTombstones (s.tracker.safeCounters (s.aliveSet alivePeers) s.state.cv.length) nowMs floorMs)
    (.of_none trivial rfl) ?_
  refine Follows.of_step (.reclaim (s.aliveSet alivePeers)) (.of_none (fun x hx => ?_) rfl) ?_
  · have hx' : x ∈ w.incoming := hx
    rw [h.idle] at hx'
    cases hx'
  · simp only [step, h.state]
    exact Mirrors.follows ⟨rfl, h.queue, h.idle⟩

end

theorem Mirrors.learns {state : State} (h : Mirrors s w) (hlearns : Learns (· ≠ []) s.state state) :
    w.Follows { s with state } := by
  induction hlearns with
  | start => exact h.follows
  | step op _ hop ih =>
    obtain ⟨node, hnode, rfl⟩ := hop
    refine ih.trans fun w' h' => ?_
    refine Follows.of_step (.learn node) ⟨trivial, fun heq => hnode (Option.some.inj heq)⟩ ?_
    simp only [step, h'.state]
    exact Mirrors.follows ⟨rfl, h'.queue, h'.idle⟩

end Windows

/-! ### Runs of the service -/

namespace Service
variable {s : Service}

/-- No string that arrives is empty. -/
def Event.Named : Event → Prop
  | .applyIncoming d _ => d.origin ≠ []
  | .mergeRemoteState _ buf => ∀ p ∈ pairsOf buf, p.1 ≠ []
  | _ => True

theorem follows_step {w : Windows} (h : Windows.Mirrors s w) {ev : Event} (hev : ev.Named) : w.Follows (s.step ev) := by
  cases ev with
  | register name p priority nowMs => exact h.register name p priority nowMs
  | unregister name nowMs =>
    simp only [step, unregister]
    split
    · exact h.follows
    · exact (h.withdraw name nowMs).trans fun _ h' => (h'.forgetOwned name).follows
  | releasePID p order now =>
    simp only [step, releasePID]
    split
    · exact h.follows
    · exact h.releaseAll (s.ownedNames p order) p now
  | applyIncoming d nowMs => exact h.applyIncoming hev nowMs
  | nodeLeft node => exact h.nodeLeft node
  | runOnce alivePeers nowMs floorMs => exact h.runOnce alivePeers nowMs floorMs
  | mergeRemoteState localDigest buf =>
    obtain ⟨state, tracker, hlearns, heq⟩ := s.mergeRemoteState_eq (P := (· ≠ [])) localDigest hev
    rw [step, heq]
    exact (h.learns hlearns).congr rfl rfl
  | drainBroadcasts overhead budget =>
    refine Windows.Follows.of_step (.drain overhead budget) (.of_none trivial rfl) ?_
    simp only [Windows.step, Windows.drain, h.state, h.queue]
    exact Windows.Mirrors.follows ⟨rfl, rfl, h.idle⟩

theorem table_integrity_of_reach {localNodeID : Bytes} {cap : Int} (hne : localNodeID ≠ [])
    (h : Reach step (fun _ ev => ev.Named) (newService localNodeID cap) s) :
    (∀ node id, s.state.nodeIDs.lookup node = some id ↔ s.state.stringIDs[id]? = some node ∧ node ≠ []) ∧
      (∀ id, slot s.state.nodeRefs id = s.state.records id) ∧
      ∀ id ∈ s.state.freeIDs, ∀ name, s.state.dot name id = none := by
  have hstart : Windows.Mirrors (newService localNodeID cap) (.start localNodeID cap) := ⟨rfl, rfl, rfl⟩
  obtain ⟨w, hmirrors, hreach⟩ := h.simulate hstart fun s w ev hev hw => follows_step hw hev
  obtain ⟨hsound, hnil⟩ := Windows.sound_of_reach hne hreach
  have hint := hsound.integrity hnil
  rw [← hmirrors.state]
  exact ⟨hint.inverse, hint.refs, hint.free⟩

/-- A registration, a dot of another node, that node's departure, and a pass that frees the id of the node. -/
theorem register_keeps_integrity :
    let s := [Event.register [110] {} 0 0, .applyIncoming Windows.remote 0, .nodeLeft [98], .runOnce [] 2 1].foldl step
      (newService [97] 0)
    slot s.state.nodeRefs s.state.localNode = s.state.records s.state.localNode ∧ 1 ∈ s.state.freeIDs ∧
      s.state.dot [107] 1 = none := by
  intro s
  have hreach : Reach step (fun _ ev => ev.Named) (newService [97] 0) s :=
    .of_along ⟨trivial, show Windows.remote.origin ≠ [] by decide, trivial, trivial, trivial⟩
  obtain ⟨-, hrefs, hfree⟩ := table_integrity_of_reach (by decide) hreach
  have hmem : 1 ∈ s.state.freeIDs := by decide
  exact ⟨hrefs _, hmem, hfree 1 hmem [107]⟩

end Service
end Wippy.Eventual
