import Wippy.Theorems.Eventual.Serving

/-! No dot that a member dropped comes back, if tombstones of an origin are seen in order: a tombstone goes when the
    counters of the other members are not below its own. -/

namespace Wippy.Eventual
open Lib State List Option Function Map

variable {t : TombstoneTracker} {alive : List Bytes}

namespace TombstoneTracker

theorem foldl_leastAcked (records : List (Map Nat UInt64)) (origin : Nat) (init : UInt64) :
    let least := records.foldl (fun safe m =>
      let seen := (m.lookup origin).getD 0
      if seen < safe then seen else safe) init
    least ≤ init ∧ ∀ m ∈ records, least ≤ (m.lookup origin).getD 0 := by
  induction records generalizing init with
  | nil => exact ⟨UInt64.le_refl _, fun m hm => absurd hm not_mem_nil⟩
  | cons r records ih =>
    obtain ⟨hinit, hall⟩ := ih (if (r.lookup origin).getD 0 < init then (r.lookup origin).getD 0 else init)
    have hle : (if (r.lookup origin).getD 0 < init then (r.lookup origin).getD 0 else init) ≤ init ∧
        (if (r.lookup origin).getD 0 < init then (r.lookup origin).getD 0 else init) ≤ (r.lookup origin).getD 0 := by
      split
      next hlt =>
        exact ⟨UInt64.le_of_lt hlt, UInt64.le_refl _⟩
      next hge =>
        exact ⟨UInt64.le_refl _, UInt64.not_lt.mp hge⟩
    refine ⟨UInt64.le_trans hinit hle.1, fun m hm => ?_⟩
    rcases mem_cons.mp hm with rfl | hm
    · exact UInt64.le_trans hinit hle.2
    · exact hall m hm

theorem mem_aliveRecords {m : Map Nat UInt64} :
    m ∈ t.aliveRecords alive ↔ ∃ peer ∈ alive, t.peerCV.lookup peer = some m := by
  unfold aliveRecords
  simp only [mem_values, lookup_keep, filter_eq_some_iff, contains_iff_mem]
  exact exists_congr fun peer => and_comm

theorem slot_safeCounters (t : TombstoneTracker) (alive : List Bytes) (numOrigins origin : Nat) :
    slot (t.safeCounters alive numOrigins) origin =
      if origin < numOrigins ∧ t.aliveRecords alive ≠ [] then leastAcked (t.aliveRecords alive) origin else 0 := by
  rw [slot, getD_eq_getElem?_getD, safeCounters]
  by_cases hlt : origin < numOrigins
  · simp [hlt, ite_not]
  · rw [getElem?_eq_none (by simpa using hlt), if_neg fun h => hlt h.1]
    rfl

theorem safeCounters_le_acked {peer : Bytes} (hrecord : (t.peerCV.lookup peer).isSome) (halive : peer ∈ alive)
    (numOrigins id : Nat) : slot (t.safeCounters alive numOrigins) id ≤ t.acked peer id := by
  obtain ⟨m, hm⟩ := isSome_iff_exists.mp hrecord
  rw [slot_safeCounters, acked, hm]
  split
  · exact (foldl_leastAcked (t.aliveRecords alive) id _).2 m (mem_aliveRecords.mpr ⟨peer, halive, hm⟩)
  · exact UInt64.zero_le

theorem leastAcked_attained (records : List (Map Nat UInt64)) (origin : Nat) :
    leastAcked records origin = 0x7FFFFFFFFFFFFFFF ∨
      ∃ m ∈ records, leastAcked records origin = (m.lookup origin).getD 0 := by
  refine List.foldlRecOn (motive := fun safe => safe = 0x7FFFFFFFFFFFFFFF ∨
    ∃ m ∈ records, safe = (m.lookup origin).getD 0)
    records _ (.inl rfl) fun safe hsafe m hm => ?_
  dsimp only
  split
  · exact .inr ⟨m, hm, rfl⟩
  · exact hsafe

/-- The calls that change the tracker. -/
inductive Call
  | recordAck (peer : Bytes) (cv : List UInt64)
  | forgetPeer (peer : Bytes)

/-- One call. -/
def call (t : TombstoneTracker) : Call → TombstoneTracker
  | .recordAck peer cv => t.recordAck peer cv
  | .forgetPeer peer => t.forgetPeer peer

/-- The counters that a peer reported since it was last forgotten. -/
def reports (peer : Bytes) (calls : List Call) : List (List UInt64) :=
  calls.foldl (fun cvs c =>
    match c with
    | .recordAck p cv => if p = peer then cvs ++ [cv] else cvs
    | .forgetPeer p => if p = peer then [] else cvs) []

/-- The highest counter of an origin in any of the vectors. -/
def highest (cvs : List (List UInt64)) (origin : Nat) : UInt64 :=
  cvs.foldl (fun c cv => if c < slot cv origin then slot cv origin else c) 0

theorem acked_calls (calls : List Call) (peer : Bytes) (origin : Nat) :
    (calls.foldl call {}).acked peer origin = highest (reports peer calls) origin ∧
      ((calls.foldl call {}).peerCV.lookup peer = none ↔ reports peer calls = []) := by
  induction calls using List.reverseRecOn with
  | nil => exact ⟨rfl, iff_of_true rfl rfl⟩
  | append_singleton calls c ih =>
    simp only [reports, foldl_append, foldl_cons, foldl_nil] at ih ⊢
    cases c with
    | recordAck p cv =>
      simp only [call]
      rw [acked_recordAck, ih.1]
      simp only [recordAck, lookup_insert_eq]
      by_cases hp : p = peer
      · simp [hp, highest]
      · simp [hp, Ne.symm hp, ih.2]
    | forgetPeer p =>
      simp only [call]
      rw [acked_forgetPeer, ih.1]
      simp only [forgetPeer, lookup_erase_eq]
      by_cases hp : p = peer
      · simp [hp, highest]
      · simp [hp, Ne.symm hp, ih.2]

theorem safe_eq_zero (t : TombstoneTracker) (alive : List Bytes) {numOrigins origin : Nat} (ho : origin < numOrigins) :
    slot (t.safeCounters alive numOrigins) origin = 0 ↔ (∀ peer ∈ alive, t.peerCV.lookup peer = none) ∨
      ∃ peer ∈ alive, t.peerCV.lookup peer ≠ none ∧ t.acked peer origin = 0 := by
  constructor
  · intro hzero
    rw [slot_safeCounters] at hzero
    by_cases hnil : t.aliveRecords alive = []
    · refine .inl fun peer hpeer => eq_none_iff_forall_ne_some.mpr fun m hm => ?_
      exact ne_nil_of_mem (mem_aliveRecords.mpr ⟨peer, hpeer, hm⟩) hnil
    rw [if_pos ⟨ho, hnil⟩] at hzero
    rcases leastAcked_attained (t.aliveRecords alive) origin with htop | ⟨m, hm, hleast⟩
    · rw [htop] at hzero
      cases hzero
    · obtain ⟨peer, hpeer, hlookup⟩ := mem_aliveRecords.mp hm
      refine .inr ⟨peer, hpeer, by simp [hlookup], ?_⟩
      rw [acked, hlookup, getD_some, ← hleast, hzero]
  · rintro (hnone | ⟨peer, hpeer, hrecord, hacked⟩)
    · have hnil : t.aliveRecords alive = [] := by
        refine eq_nil_iff_forall_not_mem.mpr fun m hm => ?_
        obtain ⟨peer, hpeer, hlookup⟩ := mem_aliveRecords.mp hm
        rw [hnone peer hpeer] at hlookup
        cases hlookup
      rw [slot_safeCounters, if_neg fun h => h.2 hnil]
    · have hle := safeCounters_le_acked (isSome_iff_ne_none.mpr hrecord) hpeer numOrigins origin
      exact UInt64.le_zero_iff.mp (hacked ▸ hle)

/-- The safe counter of an origin is a lower bound over the alive peers exactly when all of them have reported, none
    has, or one of those that have reported has nothing of the origin. -/
theorem safeCounters_bound_iff (calls : List Call) (alive : List Bytes) (localNode : Bytes) (numOrigins : Nat) :
    (∀ origin < numOrigins, ∀ peer ∈ alive, peer ≠ localNode →
      slot ((calls.foldl call {}).safeCounters alive numOrigins) origin ≤ highest (reports peer calls) origin) ↔
    ∀ origin < numOrigins, (∀ peer ∈ alive, peer ≠ localNode → reports peer calls ≠ []) ∨
      (∀ peer ∈ alive, reports peer calls = []) ∨
      ∃ peer ∈ alive, reports peer calls ≠ [] ∧ highest (reports peer calls) origin = 0 := by
  refine forall₂_congr fun origin ho => ?_
  have hzero := safe_eq_zero (calls.foldl call {}) alive ho
  simp only [(acked_calls calls _ origin).1, (acked_calls calls _ origin).2, ne_eq] at hzero
  simp only [ne_eq, ← hzero]
  constructor
  · intro hbound
    refine or_iff_not_imp_left.mpr fun hall => ?_
    obtain ⟨peer, hpeer, hother, hnone⟩ : ∃ peer ∈ alive, peer ≠ localNode ∧ reports peer calls = [] := by
      simpa using hall
    have hle := hbound peer hpeer hother
    rw [hnone] at hle
    exact UInt64.le_zero_iff.mp hle
  · rintro (hall | hsafe) peer hpeer hother
    · have hrecord := (acked_calls calls peer origin).2.not.mpr (hall peer hpeer hother)
      rw [← (acked_calls calls peer origin).1]
      exact safeCounters_le_acked (isSome_iff_ne_none.mpr hrecord) hpeer numOrigins origin
    · rw [hsafe]
      exact UInt64.zero_le

theorem safeCounters_unreported : ¬ ∀ (calls : List Call) (alive : List Bytes) (localNode : Bytes) (numOrigins : Nat),
    ∀ origin < numOrigins, ∀ peer ∈ alive, peer ≠ localNode →
      slot ((calls.foldl call {}).safeCounters alive numOrigins) origin ≤ highest (reports peer calls) origin := by
  intro h
  exact absurd (h [.recordAck [97] [5]] [[97], [98], [99]] [99] 1 0 (by decide) [98] (by decide) (by decide))
    (by decide)

end TombstoneTracker

namespace Cluster
variable {c : Cluster} {nodes nodes' : Bytes → Service} {M : List Bytes} {D D' : List Delta} {node name : Bytes}
  {s : Service}

/-- A payload of a member, whose counters are not above what it has seen. -/
def Reported (M : List Bytes) (nodes : Bytes → Service) (buf : Bytes) : Prop :=
  ∃ digest pairs, ∃ sender ∈ M, buf = Service.payload digest pairs sender ∧ pairs.length < 2 ^ 16 ∧
    ∀ p ∈ pairs, p.1 ∈ M ∧ p.2 ≤ (nodes sender).state.seen p.1

/-- An acknowledgement is not above what the peer has seen. -/
def Acknowledged (nodes : Bytes → Service) (s : Service) : Prop :=
  ∀ peer id, s.tracker.acked peer id ≠ 0 → ∃ origin, s.state.nodeIDs.lookup origin = some id ∧
    s.tracker.acked peer id ≤ (nodes peer).state.seen origin

/-- A tombstone that was dropped is one that every member has seen. -/
def Settled (M : List Bytes) (D : List Delta) (nodes : Bytes → Service) (x : Bytes × Bytes × UInt64) : Prop :=
  ∃ tomb ∈ D, tomb.deleted = true ∧ x = (tomb.name, tomb.origin, tomb.counter) ∧
    ∀ p ∈ M, tomb.counter ≤ (nodes p).state.seen tomb.origin

/-- The invariant of a cluster. -/
structure Sound (c : Cluster) : Prop where
  serving : ∀ p ∈ c.members, Serving c.members c.minted p (c.nodes p)
  unique : CountersUnique c.minted
  written : ∀ d ∈ c.minted, d.origin ∈ c.members ∧ (d.deleted = true → d.pid = {})
  frames : ∀ frame ∈ c.frames, ∀ d ∈ (decodeFrame frame.tail).1, d ∈ c.minted
  payloads : ∀ buf ∈ c.payloads, Reported c.members c.nodes buf
  acks : ∀ p ∈ c.members, Acknowledged c.nodes (c.nodes p)
  reaped : ∀ x ∈ c.reaped, Settled c.members c.minted c.nodes x

/-- No member holds a live dot below a tombstone that was dropped. -/
def NoResurrection (c : Cluster) : Prop :=
  ∀ name origin counter, (name, origin, counter) ∈ c.reaped → ∀ p ∈ c.members, ∀ d,
    (c.nodes p).state.held name origin = some d → d.deleted = false → ¬d.counter < counter

theorem Sound.noResurrection (h : c.Sound) : c.NoResurrection := by
  intro name origin counter hx p hp d hd hlive hlt
  obtain ⟨tomb, htomb, hdel, heq, hseen⟩ := h.reaped _ hx
  cases heq
  have hgt := (h.serving p hp).member.buried tomb htomb hdel (hseen p hp) d hd hlive
  exact UInt64.lt_irrefl _ (UInt64.lt_trans hgt hlt)

theorem Reported.later {buf : Bytes} (h : Reported M nodes buf) (hlater : ∀ p, Later (nodes p).state (nodes' p).state) :
    Reported M nodes' buf := by
  obtain ⟨digest, pairs, sender, hsender, hbuf, hlen, hpairs⟩ := h
  exact ⟨digest, pairs, sender, hsender, hbuf, hlen, fun p hp =>
    ⟨(hpairs p hp).1, UInt64.le_trans (hpairs p hp).2 ((hlater sender).seen p.1)⟩⟩

theorem Acknowledged.later {t : Service} (h : Acknowledged nodes s)
    (hlater : ∀ p, Later (nodes p).state (nodes' p).state)
    (hself : Later s.state t.state) (htracker : t.tracker = s.tracker) : Acknowledged nodes' t := by
  intro peer id hne
  rw [htracker] at hne ⊢
  obtain ⟨origin, hid, hle⟩ := h peer id hne
  exact ⟨origin, hself.ids origin id hid, UInt64.le_trans hle ((hlater peer).seen origin)⟩

theorem Settled.later {x : Bytes × Bytes × UInt64} (h : Settled M D nodes x) (hD : ∀ d ∈ D, d ∈ D')
    (hlater : ∀ p, Later (nodes p).state (nodes' p).state) : Settled M D' nodes' x := by
  obtain ⟨tomb, htomb, hdel, hx, hseen⟩ := h
  exact ⟨tomb, hD tomb htomb, hdel, hx, fun p hp => UInt64.le_trans (hseen p hp) ((hlater p).seen tomb.origin)⟩

theorem later_update (h : Later (nodes node).state s.state) (p : Bytes) :
    Later (nodes p).state (Function.update nodes node s p).state :=
  (forall_update_iff nodes fun p t => Later (nodes p).state t.state).mpr ⟨h, fun _ _ => .refl _⟩ p

theorem Sound.move (h : c.Sound) (hserving : Serving c.members D' node s) (hD : ∀ d ∈ c.minted, d ∈ D')
    (hothers : ∀ p ∈ c.members, p ≠ node → Member c.members D' p (c.nodes p).state) (hunique : CountersUnique D')
    (hwritten : ∀ d ∈ D', d.origin ∈ c.members ∧ (d.deleted = true → d.pid = {}))
    (hlater : Later (c.nodes node).state s.state)
    (hack : Acknowledged (Function.update c.nodes node s) s) :
    ({ c with nodes := Function.update c.nodes node s, minted := D' } : Cluster).Sound where
  serving := (forall_update_iff c.nodes fun p t => p ∈ c.members → Serving c.members D' p t).mpr
    ⟨fun _ => hserving, fun p hpn hp => (h.serving p hp).mono (hothers p hp hpn) hD⟩
  unique := hunique
  written := hwritten
  frames := fun frame hframe d hd => hD d (h.frames frame hframe d hd)
  payloads := fun buf hbuf => (h.payloads buf hbuf).later (later_update hlater)
  acks := (forall_update_iff c.nodes fun p t => p ∈ c.members → Acknowledged (update c.nodes node s) t).mpr
    ⟨fun _ => hack, fun p _ hp => (h.acks p hp).later (later_update hlater) (.refl _) rfl⟩
  reaped := fun x hx => (h.reaped x hx).later hD (later_update hlater)

theorem Sound.move_same (h : c.Sound) (hserving : Serving c.members c.minted node s)
    (hlater : Later (c.nodes node).state s.state) (hack : Acknowledged (Function.update c.nodes node s) s) :
    ({ c with nodes := Function.update c.nodes node s } : Cluster).Sound :=
  h.move hserving (fun _ hd => hd) (fun p hp _ => (h.serving p hp).member) h.unique h.written hlater hack

theorem Sound.write (h : c.Sound) (hnode : node ∈ c.members)
    (hw : Wrote c.members c.minted node name (c.nodes node) s) :
    (c.write node name s).Sound := by
  have hack : Acknowledged (Function.update c.nodes node s) s :=
    (h.acks node hnode).later (later_update hw.writes.later) hw.writes.later hw.tracker
  have hgrow : ∀ d ∈ c.minted, d ∈ c.minted ++ mintedBy (c.nodes node).state s.state name := fun d hd =>
    mem_append_left _ hd
  rcases hw.writes.adds with hsame | ⟨d, hfresh, hadd⟩
  · refine h.move hw.serving hgrow (fun p hp _ => (h.serving p hp).member.congr hsame) ?_ ?_ hw.writes.later hack
    · exact fun x hx y hy => h.unique x ((hsame x).mp hx) y ((hsame y).mp hy)
    · exact fun x hx => h.written x ((hsame x).mp hx)
  · refine h.move hw.serving hgrow (fun p hp hne => (h.serving p hp).member.learn hne hfresh hadd)
      (hfresh.unique h.unique hadd) (fun x hx => ?_) hw.writes.later hack
    rcases (hadd x).mp hx with hx | rfl
    · exact h.written x hx
    · exact ⟨hfresh.origin ▸ hnode, hfresh.bare⟩

/-! ### Frames, payloads and passes -/

/-- Members have short names, and there are not too many. -/
structure Roster (M : List Bytes) : Prop where
  named : ∀ p ∈ M, p ≠ [] ∧ p.length ≤ 255
  few : M.length < 2 ^ 16

section
variable (h : c.Sound) (hM : Roster c.members) (hnode : node ∈ c.members)
include h hM hnode

theorem Sound.drain (overhead budget : Int) : (c.act node (.drain overhead budget)).Sound := by
  have hempty : [] ∉ c.members := fun hnil => (hM.named [] hnil).1 rfl
  obtain ⟨hserving, hframes⟩ :=
    (h.serving node hnode).drainBroadcasts hempty (fun d hd => (h.written d hd).2) overhead budget
  have hlater : Later (c.nodes node).state ((c.nodes node).drainBroadcasts overhead budget).1.state := .refl _
  have hmove := h.move_same hserving hlater ((h.acks node hnode).later (later_update hlater) hlater rfl)
  refine { hmove with frames := fun frame hframe => ?_ }
  rcases mem_append.mp hframe with hframe | hframe
  · exact h.frames frame hframe
  · exact hframes frame hframe

theorem Sound.handOut (digest : Digest) : (c.act node (.handOut digest)).Sound := by
  have hserving := h.serving node hnode
  refine { h with payloads := fun buf hbuf => ?_ }
  rcases mem_append.mp hbuf with hbuf | hbuf
  · exact h.payloads buf hbuf
  refine ⟨digest, (c.nodes node).collectCVPairs, node, hnode, ?_, ?_, fun p hp => ?_⟩
  · rw [mem_singleton.mp hbuf, Service.localState, Service.payload, hserving.name]
  · exact Nat.lt_of_le_of_lt hserving.length_collectCVPairs hM.few
  · obtain ⟨hname, hcounter⟩ := hserving.collectCVPairs p hp
    exact ⟨hname, hcounter ▸ UInt64.le_refl _⟩

theorem Sound.accept (payload : Nat) (localDigest : Digest) : (c.act node (.accept payload localDigest)).Sound := by
  unfold act
  dsimp only
  split
  · exact h
  rename_i buf hbuf
  obtain ⟨digest, pairs, sender, hsender, rfl, hlen, hpairs⟩ := h.payloads buf (mem_of_getElem? hbuf)
  have hserving := h.serving node hnode
  have hmerge := (c.nodes node).mergeRemoteState_payload localDigest digest hlen
    (fun p hp => (hM.named p.1 (hpairs p hp).1).2) (hM.named sender hsender).2
  have hlearns : Learns (· ∈ c.members) (c.nodes node).state _ := Service.learns_mergePairs
    (m := { state := (c.nodes node).state, peerCV := List.replicate pairs.length 0 }) (fun p hp => (hpairs p hp).1)
    fun hne => absurd rfl hne
  obtain ⟨hmember, hlater⟩ := hserving.member.learns hlearns
  have hgather := (Service.Merging.Gathered.start hserving.member.table pairs.length).all pairs
  rw [hmerge]
  generalize pairs.foldl Service.Merging.pair _ = m at hmember hlater hgather ⊢
  refine h.move_same ⟨hmember, hserving.name, hserving.running, fun e he => ?_⟩ hlater fun peer id hne => ?_
  · obtain ⟨origin, hid, hmem⟩ := hserving.queued e he
    exact ⟨origin, hlater.ids origin _ hid, hmem⟩
  · rw [TombstoneTracker.acked_recordAck] at hne ⊢
    split at hne <;> rename_i hraised
    · rw [if_pos hraised]
      obtain ⟨origin, hmem, hid⟩ := hgather.counters id hne
      refine ⟨origin, hid, UInt64.le_trans (hpairs _ hmem).2 ?_⟩
      rw [hraised.1]
      exact (later_update (s := { c.nodes node with state := m.state, tracker := _ }) hlater sender).seen origin
    · rw [if_neg hraised]
      obtain ⟨origin, hid, hle⟩ := h.acks node hnode peer id hne
      refine ⟨origin, hlater.ids origin id hid, UInt64.le_trans hle ?_⟩
      exact (later_update (s := { c.nodes node with state := m.state, tracker := _ }) hlater peer).seen origin

end

section
variable (h : c.Sound) (hnode : node ∈ c.members)
  (hrecords : ∀ p ∈ c.members, p ≠ node → ((c.nodes node).tracker.peerCV.lookup p).isSome)
include h hnode hrecords

theorem Sound.settled {e : Entry} (he : e ∈ c.safeTombs (c.nodes node)) :
    Settled c.members c.minted c.nodes (e.name, (c.nodes node).state.nodeString e.node, e.counter) := by
  have hmember := (h.serving node hnode).member
  obtain ⟨hdots, hsafe⟩ := mem_filter.mp he
  unfold safeTomb at hsafe
  simp only [Bool.and_eq_true, decide_eq_true_iff] at hsafe
  obtain ⟨⟨hdel, -⟩, hle⟩ := hsafe
  obtain ⟨name, id, hdot⟩ := mem_allDots hdots
  obtain ⟨hname, hid⟩ := hmember.keyed name id e hdot
  obtain ⟨origin, hlook⟩ := hmember.known name id e hdot
  subst hname hid
  rw [hmember.table.nodeString hlook]
  have hheld : (c.nodes node).state.held e.name origin = some (e.withOrigin origin) := by
    rw [held_of_lookup hlook, hdot, map_some, delta, hmember.table.nodeString hlook]
  obtain ⟨hmem, hseen⟩ := hmember.holds _ _ _ hheld
  refine ⟨e.withOrigin origin, hmem, hdel, rfl, fun p hp => ?_⟩
  by_cases hpn : p = node
  · subst hpn
    exact hseen
  have halive : p ∈ (c.nodes node).aliveSet c.members := mem_cons_of_mem _ hp
  have hacked := UInt64.le_trans hle (TombstoneTracker.safeCounters_le_acked (hrecords p hp hpn) halive _ _)
  by_cases hzero : (c.nodes node).tracker.acked p e.node = 0
  · rw [hzero] at hacked
    exact UInt64.le_trans hacked UInt64.zero_le
  · obtain ⟨origin', hlook', hle'⟩ := h.acks node hnode p e.node hzero
    rw [hmember.table.inj hlook' hlook] at hle'
    exact UInt64.le_trans hacked hle'

theorem Sound.collect (nowMs : Int64) : (c.act node (.collect nowMs)).Sound := by
  have hserving := h.serving node hnode
  obtain ⟨hmember, hlater⟩ := hserving.member.reapTombstones
    ((c.nodes node).tracker.safeCounters ((c.nodes node).aliveSet c.members) (c.nodes node).state.cv.length) nowMs 0
  -- All members are alive, so the second half of the pass does nothing.
  have hpass : ((c.nodes node).runOnce c.members nowMs 0).state = ((c.nodes node).state.reapTombstones
      ((c.nodes node).tracker.safeCounters ((c.nodes node).aliveSet c.members)
        (c.nodes node).state.cv.length) nowMs 0).1 :=
    hmember.reclaim_eq fun x hx => mem_cons_of_mem _ hx
  rw [← hpass] at hmember hlater
  have hmove := h.move_same (s := (c.nodes node).runOnce c.members nowMs 0)
    ⟨hmember, hserving.name, hserving.running, fun e he => by
      obtain ⟨origin, hid, hmem⟩ := hserving.queued e he
      exact ⟨origin, hlater.ids origin _ hid, hmem⟩⟩ hlater
    ((h.acks node hnode).later (later_update hlater) hlater rfl)
  refine { hmove with reaped := fun x hx => ?_ }
  rcases mem_append.mp hx with hx | hx
  · exact hmove.reaped x hx
  · obtain ⟨e, he, rfl⟩ := List.mem_map.mp hx
    exact (h.settled hnode hrecords he).later (fun _ hd => hd) (later_update hlater)

end

/-- What a step must respect: a dot arrives in time, a member collects only when it has a record of every other one,
    and counters are not exhausted. -/
def Timely (c : Cluster) (ev : Event) : Prop :=
  let s := c.nodes ev.node
  match ev.action with
  | .register .. | .unregister .. | .release .. => s.state.seen ev.node ≠ 18446744073709551615
  | .receive frame delta _ =>
    match c.delta? frame delta with
    | some d => s.state.seen ev.node ≠ 18446744073709551615 ∧ InTime c.minted s.state d
    | none => True
  | .collect _ => ∀ p ∈ c.members, p ≠ ev.node → (s.tracker.peerCV.lookup p).isSome
  | .drain .. | .handOut _ | .accept .. => True

theorem Sound.mem_of_delta? (h : c.Sound) {frame delta : Nat} {d : Delta} (hd : c.delta? frame delta = some d) :
    d ∈ c.minted := by
  obtain ⟨data, hdata, hget⟩ := bind_eq_some_iff.mp hd
  exact h.frames data (mem_of_getElem? hdata) d (mem_of_getElem? hget)

theorem Sound.step (h : c.Sound) (hM : Roster c.members) {ev : Event} (hev : c.Timely ev) : (c.step ev).Sound := by
  obtain ⟨node, action⟩ := ev
  unfold Cluster.step
  split
  next hcontains =>
    have hnode : node ∈ c.members := contains_iff_mem.mp hcontains
    have hserving := h.serving node hnode
    cases action with
    | register name p priority nowMs => exact h.write hnode (hserving.register h.unique hev name p priority nowMs)
    | unregister name nowMs => exact h.write hnode (hserving.unregister h.unique hev name nowMs)
    | release name p nowMs => exact h.write hnode (hserving.releaseOwned h.unique hev name p nowMs)
    | drain overhead budget => exact h.drain hM hnode overhead budget
    | receive frame delta nowMs =>
      unfold Timely at hev
      unfold act
      dsimp only at hev ⊢
      cases hd : c.delta? frame delta with
      | none => exact h
      | some d =>
        rw [hd] at hev
        have hmem := h.mem_of_delta? hd
        exact h.write hnode (hserving.applyIncoming h.unique hev.1 hmem (h.written d hmem).1 hev.2 nowMs)
    | handOut digest => exact h.handOut hM hnode digest
    | accept payload localDigest => exact h.accept hM hnode payload localDigest
    | collect nowMs => exact h.collect hnode hev nowMs
  · exact h

theorem members_step (c : Cluster) (ev : Event) : (c.step ev).members = c.members := by
  unfold Cluster.step
  split
  · unfold act
    split <;> first | rfl | (split <;> rfl)
  · rfl

theorem Sound.start (cap : Int) : (start M cap).Sound where
  serving := fun _ hp => ⟨.newState hp, rfl, rfl, fun _ he => absurd he not_mem_nil⟩
  unique := fun _ hd => absurd hd not_mem_nil
  written := fun _ hd => absurd hd not_mem_nil
  frames := fun _ hframe => absurd hframe not_mem_nil
  payloads := fun _ hbuf => absurd hbuf not_mem_nil
  acks := fun _ _ _ _ hne => absurd rfl hne
  reaped := fun _ hx => absurd hx not_mem_nil

/-- In every run in which dots arrive in time and members collect with a record of every other member. -/
theorem noResurrection_of_reach {M : List Bytes} {broadcastCap : Int} (hM : Roster M)
    (h : Reach step Timely (start M broadcastCap) c) : c.NoResurrection := by
  have hinv : c.Sound ∧ c.members = M :=
    h.invariant (P := fun c => c.Sound ∧ c.members = M) ⟨Sound.start broadcastCap, rfl⟩ fun c ev hev hc =>
      ⟨hc.1.step (hc.2 ▸ hM) hev, (members_step c ev).trans hc.2⟩
  exact hinv.1.noResurrection

instance (c : Cluster) (ev : Event) : Decidable (c.Timely ev) := by
  unfold Timely InTime
  dsimp only
  split <;> first | infer_instance | (split <;> infer_instance)

/-- A digest with one hash everywhere. -/
def flatDigest (hash : UInt64) : Digest := Vector.replicate shardCount hash

/-- Member `a` registers `x` and withdraws it, then registers `y`. -/
def withdrawn : List Event :=
  [⟨[97], .register [120] { uniqID := [1] } 0 0⟩, ⟨[97], .drain 0 0⟩, ⟨[98], .receive 0 0 0⟩,
    ⟨[97], .unregister [120] 0⟩, ⟨[97], .drain 0 0⟩, ⟨[97], .register [121] { uniqID := [1] } 0 0⟩, ⟨[97], .drain 0 0⟩]

/-- Member `b` gets `y`, reports what it has seen, and `a` collects. -/
def collected (hash : UInt64) : List Event :=
  [⟨[98], .receive 2 0 0⟩, ⟨[98], .handOut (flatDigest hash)⟩, ⟨[97], .accept 0 (flatDigest 0)⟩, ⟨[97], .collect 0⟩]

theorem noResurrection_of_reach_inOrder :
    let es := withdrawn ++ ⟨[98], .receive 1 0 0⟩ :: collected 0
    Along step Timely (start [[97], [98]] 0) es ∧ (es.foldl step (start [[97], [98]] 0)).reaped = [([120], [97], 2)] ∧
      (es.foldl step (start [[97], [98]] 0)).NoResurrection :=
  ⟨by decide +kernel, by decide +kernel,
    noResurrection_of_reach ⟨by decide, by decide⟩ (Reach.of_along (by decide +kernel))⟩

/-- Member `b` never gets the tombstone of `x`: its counter for `a` is that of `y`, which is taken for an
    acknowledgement. -/
theorem not_noResurrection_skipped : ¬∀ (M : List Bytes) (broadcastCap : Int) (c : Cluster), Roster M →
    Reach step (fun _ _ => True) (start M broadcastCap) c → c.NoResurrection := by
  intro h
  have hall : Along step (fun _ _ => True) (start [[97], [98]] 0) (withdrawn ++ collected 1) :=
    along_of_forall (fun _ _ => trivial) _ _
  have hheld : (((withdrawn ++ collected 1).foldl step (start [[97], [98]] 0)).nodes [98]).state.held [120] [97] =
      some { pid := { uniqID := [1] }, name := [120], origin := [97], counter := 1, wall := 0, priority := 0 } := by
    decide +kernel
  exact h _ 0 _ ⟨by decide, by decide⟩ (Reach.of_along hall) [120] [97] 2 (by decide +kernel) [98] (by decide +kernel) _
    hheld rfl (by decide)

end Cluster
end Wippy.Eventual
