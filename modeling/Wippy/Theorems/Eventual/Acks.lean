import Wippy.Theorems.Eventual.Service

/-! Acknowledgements. The tracker is keyed by compact ids: an origin that gets a reclaimed slot inherits what peers
    acknowledged for its former owner. -/

namespace Wippy.Eventual
open Lib State List Option

namespace TombstoneTracker

/-- The counter under an id, zero if there is none. -/
def read (m : Map Nat UInt64) (id : Nat) : UInt64 := (m.lookup id).getD 0

theorem read_raise (m : Map Nat UInt64) (x : UInt64 × Nat) (id : Nat) :
    read (raise m x) id = if id = x.2 ∧ read m id < x.1 then x.1 else read m id := by
  unfold raise
  split
  next hzero =>
    rw [if_neg]
    rintro ⟨-, hlt⟩
    rw [hzero] at hlt
    exact absurd hlt UInt64.not_lt_zero
  · split
    next hgt =>
      unfold read
      rw [Map.lookup_insert_eq]
      by_cases hid : id = x.2
      · subst hid
        rw [if_pos rfl, if_pos ⟨rfl, hgt⟩]
        rfl
      · rw [if_neg hid, if_neg fun h => hid h.1]
    next hle =>
      rw [if_neg]
      rintro ⟨rfl, hlt⟩
      exact hle hlt

theorem read_foldl_raise (cv : List UInt64) (m : Map Nat UInt64) (k id : Nat) :
    read ((cv.zipIdx k).foldl raise m) id =
      if k ≤ id ∧ read m id < slot cv (id - k) then slot cv (id - k) else read m id := by
  induction cv generalizing m k with
  | nil =>
    rw [if_neg]
    · rfl
    · rintro ⟨-, hlt⟩
      exact absurd hlt UInt64.not_lt_zero
  | cons c cv ih =>
    rw [zipIdx_cons, foldl_cons, ih]
    by_cases hid : id = k
    · subst hid
      rw [read_raise]
      simp [slot]
    have hraise : read (raise m (c, k)) id = read m id := by rw [read_raise, if_neg fun h => hid h.1]
    rw [hraise]
    by_cases hlt : k < id
    · have hslot : slot (c :: cv) (id - k) = slot cv (id - (k + 1)) := by
        rw [show id - k = (id - (k + 1)) + 1 by omega]
        rfl
      have hle : k + 1 ≤ id ↔ k ≤ id := by omega
      simp only [hslot, hle]
    · rw [if_neg fun h => hlt (by omega), if_neg fun h => hlt (by omega)]

theorem acked_recordAck (t : TombstoneTracker) (peer : Bytes) (cv : List UInt64) (peer' : Bytes) (id : Nat) :
    (t.recordAck peer cv).acked peer' id =
      if peer' = peer ∧ t.acked peer' id < slot cv id then slot cv id else t.acked peer' id := by
  have hread : ∀ t : TombstoneTracker, t.acked peer' id = read ((t.peerCV.lookup peer').getD ∅) id := fun _ => rfl
  rw [hread, hread]
  unfold recordAck
  rw [Map.lookup_insert_eq]
  by_cases hp : peer' = peer
  · subst hp
    rw [if_pos rfl, getD_some, read_foldl_raise]
    simp
  · rw [if_neg hp, if_neg fun h => hp h.1]

theorem mem_keys_of_acked {t : TombstoneTracker} {peer : Bytes} {id : Nat} (h : t.acked peer id ≠ 0) :
    peer ∈ t.peerCV.keys := by
  refine AList.mem_keys.mp (AList.lookup_isSome.mp ?_)
  unfold acked at h
  cases hp : t.peerCV.lookup peer with
  | some m => rfl
  | none =>
    rw [hp] at h
    exact absurd rfl h

theorem acked_forgetPeer (t : TombstoneTracker) (peer peer' : Bytes) (id : Nat) :
    (t.forgetPeer peer).acked peer' id = if peer' = peer then 0 else t.acked peer' id := by
  unfold acked forgetPeer
  rw [Map.lookup_erase_eq]
  split <;> rfl

end TombstoneTracker

namespace Service
variable {m : Merging} {pairs : List (Bytes × UInt64)}

/-- The counters gathered so far are those of pairs, each under the id of its origin. -/
structure Merging.Gathered (m : Merging) (pairs : List (Bytes × UInt64)) : Prop where
  table : m.state.Table
  counters : ∀ id, slot m.peerCV id ≠ 0 →
    ∃ origin, (origin, slot m.peerCV id) ∈ pairs ∧ m.state.nodeIDs.lookup origin = some id

theorem Merging.pair_eq (m : Merging) (p : Bytes × UInt64) : (m.state.internNode p.1).1.Quietly (m.pair p).state ∧
    ∀ id, slot (m.pair p).peerCV id = if id = (m.state.internNode p.1).2 then p.2 else slot m.peerCV id := by
  have hcv : ∀ localID id, slot ((m.peerCV ++ List.replicate (localID + 1 - m.peerCV.length) 0).set localID p.2) id =
      if id = localID then p.2 else slot m.peerCV id := fun localID id => by
    rw [slot_set (by simp only [length_append, length_replicate]; omega), slot_append_zeros]
  unfold Merging.pair
  dsimp only
  split
  · exact ⟨.start, hcv _⟩
  · exact ⟨quietly_step _ (fun _ => Op.noConfusion : (Op.intern m.peerNode).Quiet), hcv _⟩

theorem Merging.Gathered.pair (h : m.Gathered pairs) (p : Bytes × UInt64) : (m.pair p).Gathered (pairs ++ [p]) := by
  obtain ⟨hstate, hcv⟩ := m.pair_eq p
  obtain ⟨htable, hlookup⟩ := h.table.internNode p.1
  obtain ⟨htable', hkeep⟩ := htable.quietly hstate
  refine ⟨htable', fun id hne => ?_⟩
  rw [hcv] at hne ⊢
  split at hne <;> rename_i hid
  · subst hid
    exact ⟨p.1, by simp, hkeep _ _ hlookup⟩
  · rw [if_neg hid]
    obtain ⟨origin, hmem, hlook⟩ := h.counters id hne
    exact ⟨origin, mem_append_left _ hmem, hkeep _ _ (h.table.lookup_internNode p.1 hlook)⟩

theorem Merging.Gathered.all (h : m.Gathered pairs) (rest : List (Bytes × UInt64)) :
    (rest.foldl Merging.pair m).Gathered (pairs ++ rest) := by
  induction rest generalizing m pairs with
  | nil => simpa using h
  | cons p rest ih => simpa using ih (h.pair p)

theorem Merging.Gathered.start {state : State} (h : state.Table) (n : Nat) :
    ({ state, peerCV := List.replicate n 0 } : Merging).Gathered [] := by
  refine ⟨h, fun id hne => absurd ?_ hne⟩
  have hzero := slot_append_zeros ([] : List UInt64) n id
  exact hzero

end Service

/-- A service with what was reported to it: a peer, an origin and the counter that the peer has of it. -/
structure Audit where
  service : Service
  reported : List (Bytes × Bytes × UInt64) := []

namespace Audit
variable {a : Audit}

/-- The pairs of a payload that a merge acknowledges, under the peer that it takes for the sender. -/
def reports (s : Service) (buf : Bytes) : List (Bytes × Bytes × UInt64) :=
  match Service.readHead buf with
  | none => []
  | some (_, count, data) =>
    match Service.readPairs count.toNat data with
    | (_, none) => []
    | (pairs, some rest) =>
      let m := pairs.foldl Service.Merging.pair { state := s.state, peerCV := List.replicate count.toNat 0 }
      pairs.map fun p => ((Service.readSender rest).getD m.peerNode, p.1, p.2)

/-- One event of the service, with the reports that it receives. -/
def step (a : Audit) (ev : Service.Event) : Audit where
  service := a.service.step ev
  reported := match ev with
    | .mergeRemoteState _ buf => a.reported ++ reports a.service buf
    | _ => a.reported

/-- An acknowledgement is at most what the peer has reported of the origin. -/
def AcksReported (a : Audit) : Prop := ∀ peer origin id, a.service.state.nodeIDs.lookup origin = some id →
  a.service.tracker.acked peer id = 0 ∨
    ∃ counter, (peer, origin, counter) ∈ a.reported ∧ a.service.tracker.acked peer id ≤ counter

/-- No pass of the collector takes the id of an origin that a peer has acknowledged. -/
def Unacked (a : Audit) : Service.Event → Prop
  | .runOnce alivePeers nowMs floorMs =>
    let s := a.service
    let alive := s.aliveSet alivePeers
    let reaped := (s.state.reapTombstones (s.tracker.safeCounters alive s.state.cv.length) nowMs floorMs).1
    ∀ id < reaped.stringIDs.length, reaped.reclaimable alive id →
      ∀ peer ∈ s.tracker.peerCV.keys, s.tracker.acked peer id = 0
  | _ => True

/-- The invariant: what is acknowledged under an id was reported of its origin. -/
structure Backed (a : Audit) : Prop where
  table : a.service.state.Table
  acked : ∀ peer id, a.service.tracker.acked peer id ≠ 0 → ∃ origin counter,
    a.service.state.nodeIDs.lookup origin = some id ∧ (peer, origin, counter) ∈ a.reported ∧
      a.service.tracker.acked peer id ≤ counter

section
variable (h : a.Backed)
include h

theorem Backed.acksReported : a.AcksReported := by
  intro peer origin id hid
  by_cases hzero : a.service.tracker.acked peer id = 0
  · exact Or.inl hzero
  · obtain ⟨origin', counter, hid', hrep, hle⟩ := h.acked peer id hzero
    rw [h.table.inj hid' hid] at hrep
    exact Or.inr ⟨counter, hrep, hle⟩

theorem Backed.quietly {s : Service} (hstate : a.service.state.Quietly s.state)
    (hacked : ∀ peer id, s.tracker.acked peer id = a.service.tracker.acked peer id ∨ s.tracker.acked peer id = 0) :
    ({ a with service := s } : Audit).Backed := by
  obtain ⟨htable, hkeep⟩ := h.table.quietly hstate
  refine ⟨htable, fun peer id hne => ?_⟩
  rcases hacked peer id with heq | hzero
  · have hne' : a.service.tracker.acked peer id ≠ 0 := heq ▸ hne
    obtain ⟨origin, counter, hid, hrep, hle⟩ := h.acked peer id hne'
    exact ⟨origin, counter, hkeep origin id hid, hrep, heq ▸ hle⟩
  · exact absurd hzero hne

theorem Backed.mergeRemoteState (localDigest : Digest) (buf : Bytes) :
    (a.step (.mergeRemoteState localDigest buf)).Backed := by
  unfold Audit.step Service.step Service.mergeRemoteState reports
  dsimp only
  cases Service.readHead buf with
  | none => simpa using h
  | some head =>
    obtain ⟨digest, count, data⟩ := head
    dsimp only
    generalize hpairs : Service.readPairs count.toNat data = r
    obtain ⟨pairs, rest⟩ := r
    have hgather := (Service.Merging.Gathered.start h.table count.toNat).all pairs
    have hquiet := (Service.learns_mergePairs (P := fun _ => True)
      (m := { state := a.service.state, peerCV := List.replicate count.toNat 0 })
      (fun p (_ : p ∈ pairs) => trivial) fun _ => trivial).quietly
    generalize hm : pairs.foldl Service.Merging.pair _ = m at hgather hquiet ⊢
    cases rest with
    | none =>
      have hold : ({ a with service := { a.service with state := m.state } }).Backed :=
        h.quietly hquiet fun _ _ => Or.inl rfl
      simpa using hold
    | some rest =>
      obtain ⟨-, hkeep⟩ := h.table.quietly hquiet
      refine ⟨hgather.table, fun peer id hne => ?_⟩
      rw [TombstoneTracker.acked_recordAck] at hne ⊢
      split at hne <;> rename_i hraised
      · -- The counter is the payload's, so the payload has the pair.
        rw [if_pos hraised]
        obtain ⟨origin, hmem, hid⟩ := hgather.counters id hne
        refine ⟨origin, _, hid, mem_append_right _ (List.mem_map.mpr ⟨_, hmem, ?_⟩), UInt64.le_refl _⟩
        rw [hm, ← hraised.1]
      · rw [if_neg hraised]
        obtain ⟨origin, counter, hid, hrep, hle⟩ := h.acked peer id hne
        exact ⟨origin, counter, hkeep origin id hid, mem_append_left _ hrep, hle⟩

theorem Backed.runOnce {alivePeers : List Bytes} {nowMs floorMs : Int64}
    (hev : a.Unacked (.runOnce alivePeers nowMs floorMs)) : (a.step (.runOnce alivePeers nowMs floorMs)).Backed := by
  have htable := reapTombstones_table a.service.state
    (a.service.tracker.safeCounters (a.service.aliveSet alivePeers) a.service.state.cv.length) nowMs floorMs
  unfold Unacked at hev
  dsimp only at hev
  unfold Audit.step Service.step Service.runOnce gcRunOnce
  dsimp only
  generalize (a.service.state.reapTombstones _ nowMs floorMs).1 = reaped at hev htable ⊢
  have htable' := h.table.same htable
  refine ⟨htable'.reclaim _, fun peer id hne => ?_⟩
  obtain ⟨origin, counter, hid, hrep, hle⟩ := h.acked peer id hne
  have hid' : reaped.nodeIDs.lookup origin = some id := htable.nodeIDs ▸ hid
  refine ⟨origin, counter, htable'.lookup_reclaim hid' ?_, hrep, hle⟩
  cases hre : reaped.reclaimable (a.service.aliveSet alivePeers) id with
  | false => rfl
  | true =>
    have hlt : id < reaped.stringIDs.length := (List.getElem?_eq_some_iff.mp (htable'.sound origin id hid')).1
    exact absurd (hev id hlt hre peer (TombstoneTracker.mem_keys_of_acked hne)) hne

theorem Backed.step {ev : Service.Event} (hev : a.Unacked ev) : (a.step ev).Backed := by
  have hplain : ev.Plain → (a.step ev) = { a with service := a.service.step ev } → (a.step ev).Backed :=
    fun hp heq => by
    have hw := a.service.within_step hp
    rw [heq]
    exact h.quietly hw.state fun _ _ => Or.inl (by rw [hw.tracker])
  cases ev with
  | nodeLeft node =>
    show ({ a with service := a.service.onNodeLeft node }).Backed
    unfold Service.onNodeLeft
    split
    · exact h
    obtain ⟨queue, heq⟩ := a.service.handleNodeLeft_eq node
    rw [heq]
    refine h.quietly (quietly_step a.service.state (fun _ => Op.noConfusion : (Op.reapNode node).Quiet))
      fun peer id => ?_
    rw [TombstoneTracker.acked_forgetPeer]
    split
    · exact Or.inr rfl
    · exact Or.inl rfl
  | runOnce alivePeers nowMs floorMs => exact h.runOnce hev
  | mergeRemoteState localDigest buf => exact h.mergeRemoteState localDigest buf
  | register | unregister | releasePID | applyIncoming | drainBroadcasts => exact hplain trivial rfl

end

/-- A new service. -/
def start (localNodeID : Bytes) (cap : Int) : Audit := { service := .newService localNodeID cap }

theorem Backed.start (localNodeID : Bytes) (cap : Int) : (start localNodeID cap).Backed where
  table := Table.newState localNodeID
  acked := fun _ _ hne => absurd rfl hne

/-- In every run in which a pass reclaims only ids without acknowledgements, no peer is held to have acknowledged
    more of an origin than it reported. -/
theorem acksReported_of_reach {localNodeID : Bytes} {broadcastCap : Int}
    (h : Reach step Unacked (start localNodeID broadcastCap) a) : a.AcksReported :=
  Backed.acksReported (h.invariant (Backed.start localNodeID broadcastCap) fun _ _ hev hs => hs.step hev)

instance (a : Audit) : ∀ ev, Decidable (a.Unacked ev)
  | .runOnce .. => by
    unfold Unacked
    infer_instance
  | .register .. | .unregister .. | .releasePID .. | .applyIncoming .. | .nodeLeft _ | .mergeRemoteState .. |
    .drainBroadcasts .. => .isTrue trivial

/-- A payload in which peer `p` reports counter 9 for the origin `b`. -/
def report : Bytes :=
  Digest.encode (Vector.replicate shardCount 0) ++ Wire.le 2 1 ++ Service.encodePair ([98], 9) ++
    Service.shortName [112]

/-- A live dot of a new origin. -/
def newcomer : Delta :=
  { pid := { uniqID := [1] }, name := [107], origin := [99], counter := 1, wall := 0, priority := 0 }

theorem acksReported_of_reach_alive :
    let es : List Service.Event :=
      [.mergeRemoteState (Vector.replicate shardCount 0) report, .runOnce [[98], [112]] 0 0,
      .applyIncoming newcomer 0]
    Along step Unacked (start [110] 0) es ∧ (es.foldl step (start [110] 0)).service.tracker.acked [112] 1 = 9 ∧
      (es.foldl step (start [110] 0)).AcksReported :=
  ⟨by decide +kernel, by decide +kernel, acksReported_of_reach (Reach.of_along (by decide +kernel))⟩

/-- The newcomer gets the id of a reported origin that was reclaimed. -/
def reusedSlot : List Service.Event :=
  [.mergeRemoteState (Vector.replicate shardCount 0) report, .runOnce [[112]] 0 0, .applyIncoming newcomer 0]

theorem not_acksReported_reused : ¬∀ (localNodeID : Bytes) (broadcastCap : Int) (a : Audit),
    Reach step (fun _ _ => True) (start localNodeID broadcastCap) a → a.AcksReported := by
  intro h
  have hall : Along step (fun _ _ => True) (start [110] 0) reusedSlot := along_of_forall (fun _ _ => trivial) _ _
  rcases h [110] 0 _ (Reach.of_along hall) [112] [99] 1 (by decide +kernel) with hzero | ⟨counter, hrep, -⟩
  · exact absurd hzero (by decide +kernel)
  · have hreported : (reusedSlot.foldl step (start [110] 0)).reported = [([112], [98], 9)] := by decide +kernel
    rw [hreported] at hrep
    simp at hrep

end Audit
end Wippy.Eventual
