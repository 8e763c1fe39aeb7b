import Wippy.Theorems.Eventual.Members
import Wippy.Theorems.Eventual.Payload
import Wippy.Theorems.Eventual.Codec

/-! The service of a member: its queue and its frames have dots that members wrote, under ids of their origins. -/

namespace Wippy.Eventual
open Lib State List

variable {M : List Bytes} {D D' : List Delta} {node name : Bytes} {s t u : Service} {d : Delta} {e : Entry}

/-- The invariant of a member's service: its replica, and what it has queued. -/
structure Serving (M : List Bytes) (D : List Delta) (node : Bytes) (s : Service) : Prop where
  member : Member M D node s.state
  name : s.localNodeID = node
  running : s.stopped = false
  queued : ∀ e ∈ s.queue.pending, ∃ origin, s.state.nodeIDs.lookup origin = some e.node ∧ e.withOrigin origin ∈ D

theorem BroadcastQueue.mem_push {q : BroadcastQueue} {x : Entry} (h : x ∈ (q.push e).pending) :
    x ∈ q.pending ∨ x = e := by
  unfold BroadcastQueue.push at h
  split at h
  · exact Or.inl h
  · exact (mem_append.mp h).imp_right mem_singleton.mp

theorem Serving.mono (h : Serving M D node s) (hm : Member M D' node s.state) (hD : ∀ x ∈ D, x ∈ D') :
    Serving M D' node s :=
  ⟨hm, h.name, h.running, fun e he => by
    obtain ⟨origin, hid, hmem⟩ := h.queued e he
    exact ⟨origin, hid, hD _ hmem⟩⟩

/-- A step of a member's service, from `s` to `t`, that writes at most the local dot of `name`. -/
structure Wrote (M : List Bytes) (D : List Delta) (node name : Bytes) (s t : Service) : Prop where
  writes : Writes M D node name s.state t.state
  serving : Serving M (D ++ Cluster.mintedBy s.state t.state name) node t
  tracker : t.tracker = s.tracker

section
variable (h : Serving M D node s)
include h

theorem Serving.wrote (hw : s.Within t) (hwrites : Writes M D node name s.state t.state)
    (hqueue : ∀ e ∈ t.queue.pending, e ∈ s.queue.pending ∨ ∃ origin, t.state.nodeIDs.lookup origin = some e.node ∧
      e.withOrigin origin ∈ D ++ Cluster.mintedBy s.state t.state name) : Wrote M D node name s t := by
  refine ⟨hwrites, ⟨hwrites.member, hw.localNodeID.trans h.name, hw.stopped.trans h.running, fun e he => ?_⟩,
    hw.tracker⟩
  rcases hqueue e he with he | hnew
  · obtain ⟨origin, hid, hmem⟩ := h.queued e he
    exact ⟨origin, hwrites.later.ids origin _ hid, mem_append_left _ hmem⟩
  · exact hnew

theorem Serving.wrote_nothing : Wrote M D node name s s :=
  h.wrote (.refl s) (.of_member h.member (.refl _)) fun _ he => Or.inl he

section
variable (hu : CountersUnique D)
include hu

theorem Serving.mint (hw : s.Within t) (hserving : Serving M D node u) (hlater : Later s.state u.state)
    (hmax : s.state.seen node ≠ 18446744073709551615) (hm : Minted u.state t.state e) (hname : e.name = name)
    (hbare : e.deleted = true → e.pid = {}) (hqueue : ∀ x ∈ t.queue.pending, x ∈ u.queue.pending ∨ x = e) :
    Wrote M D node name s t := by
  have hmax' : u.state.seen node ≠ 18446744073709551615 := by
    rw [h.member.seen_own hserving.member hlater]
    exact hmax
  obtain ⟨hwrites, hmem⟩ := Writes.of_minted h.member hu hserving.member hlater hm hname hmax' hbare
  refine h.wrote hw hwrites fun x hx => Or.inr ?_
  rcases hqueue x hx with hx | rfl
  · obtain ⟨origin, hid, hxD⟩ := hserving.queued x hx
    exact ⟨origin, hm.table.nodeIDs ▸ hid, mem_append_left _ hxD⟩
  · refine ⟨node, ?_, hmem⟩
    rw [hm.table.nodeIDs, hm.node]
    exact hserving.member.local_id

section
variable (hmax : s.state.seen node ≠ 18446744073709551615)
include hmax

theorem Serving.register (name : Bytes) (p : PID) (priority : UInt32) (nowMs : Int64) :
    Wrote M D node name s (s.register name p priority nowMs).1 := by
  have hw := s.within_register name p priority nowMs
  rcases s.register_effect h.running name p priority nowMs with heq | ⟨t, r, -, hr, hm, -, heq⟩
  · rw [heq]
    exact h.wrote_nothing
  obtain ⟨owned, ownedByPID, hown⟩ := Service.own_eq { s with state := t } name p priority
  have hstate : (s.register name p priority nowMs).1.state = t := by
    rw [heq, hown]
    split <;> rfl
  have hqueue : (s.register name p priority nowMs).1.queue = s.queue.push r.entry := by
    rw [heq, hown]
    split <;> rfl
  have hlive : r.entry.deleted = false := congrArg Entry.deleted hr
  refine h.mint hu hw h (.refl _) hmax (e := r.entry) ?_ (congrArg Entry.name hr) (fun hdel => ?_) fun x hx => ?_
  · rw [hstate]
    exact hm
  · rw [hlive] at hdel
    cases hdel
  · rw [hqueue] at hx
    exact BroadcastQueue.mem_push hx

theorem Serving.withdraw (name : Bytes) (nowMs : Int64) : Wrote M D node name s (s.withdraw name nowMs).1 := by
  have hw := s.within_withdraw name nowMs
  unfold Service.withdraw at hw ⊢
  rcases unregister_cases s.state name nowMs with ⟨-, heq⟩ | ⟨t, e, heq, hname, -, hm, -, hbare⟩ <;> rw [heq] at hw ⊢
  · exact h.wrote_nothing
  · exact h.mint hu hw h (.refl _) hmax hm hname (fun _ => hbare) fun x hx => BroadcastQueue.mem_push hx

theorem Serving.unregister (name : Bytes) (nowMs : Int64) : Wrote M D node name s (s.unregister name nowMs).1 := by
  have hwrote := h.withdraw hu hmax name nowMs
  unfold Service.unregister
  rw [if_neg (by simp [h.running])]
  dsimp only
  obtain ⟨owned, ownedByPID, heq⟩ := Service.forgetOwned_eq (s.withdraw name nowMs).1 name
  rw [heq]
  exact ⟨hwrote.writes, ⟨hwrote.serving.member, hwrote.serving.name, hwrote.serving.running, hwrote.serving.queued⟩,
    hwrote.tracker⟩

theorem Serving.releaseOwned (name : Bytes) (p : PID) (nowMs : Int64) :
    Wrote M D node name s (s.releaseOwned name p nowMs) := by
  unfold Service.releaseOwned
  split
  · split
    · obtain ⟨owned, ownedByPID, heq⟩ := Service.forgetOwned_eq s name
      rw [heq]
      have hserving : Serving M D node { s with owned, ownedByPID } := { h with }
      have hwrote := hserving.withdraw hu hmax name nowMs
      exact { hwrote with }
    · exact h.wrote_nothing
  · exact h.wrote_nothing

end

theorem Serving.merged (hd : d ∈ D) (hM : d.origin ∈ M) (ht : InTime D s.state d) :
    Serving M D node (s.merged d) ∧ Later s.state (s.merged d).state := by
  obtain ⟨hmember, hlater, hforward⟩ := h.member.receive hu hd hM ht
  have hold : ∀ e ∈ s.queue.pending, ∃ origin, (s.state.receive d).1.nodeIDs.lookup origin = some e.node ∧
      e.withOrigin origin ∈ D := fun e he => by
    obtain ⟨origin, hid, hmem⟩ := h.queued e he
    exact ⟨origin, hlater.ids origin _ hid, hmem⟩
  refine ⟨⟨hmember, h.name, h.running, fun e he => ?_⟩, hlater⟩
  unfold Service.merged at he ⊢
  split at he
  next x hx =>
    rcases BroadcastQueue.mem_push he with he | rfl
    · exact hold e he
    · obtain ⟨heq, hid⟩ := hforward e hx
      exact ⟨d.origin, hid, heq ▸ hd⟩
  · exact hold e he

theorem Serving.applyIncoming (hmax : s.state.seen node ≠ 18446744073709551615) (hd : d ∈ D) (hM : d.origin ∈ M)
    (ht : InTime D s.state d) (nowMs : Int64) : Wrote M D node d.name s (s.applyIncoming d nowMs) := by
  obtain ⟨hserving, hlater⟩ := h.merged hu hd hM ht
  have hw := s.within_applyIncoming d nowMs
  have hmerged : (s.merged d) = s.applyIncoming d nowMs → Wrote M D node d.name s (s.applyIncoming d nowMs) :=
    fun heq =>
    h.wrote hw (heq ▸ .of_member hserving.member hlater) fun e he => Or.inr (by
      obtain ⟨origin, hid, hmem⟩ := hserving.queued e (heq ▸ he)
      exact ⟨origin, heq ▸ hid, mem_append_left _ hmem⟩)
  rcases s.applyIncoming_cases d nowMs with heq | heq
  · exact hmerged heq.symm
  rcases (s.merged d).reassertOwned_effect d.name nowMs with hsame | ⟨reg, t, r, -, -, hr, hm, heff⟩
  · exact hmerged (heq.trans hsame).symm
  have hlive : r.entry.deleted = false := congrArg Entry.deleted hr
  have hstate : (s.applyIncoming d nowMs).state = t := by
    rw [heq, heff]
    split <;> rfl
  refine h.mint hu hw hserving hlater hmax (e := r.entry) ?_ (congrArg Entry.name hr) (fun hdel => ?_)
    fun x hx => ?_
  · rw [hstate]
    exact hm
  · rw [hlive] at hdel
    cases hdel
  · rw [heq, heff] at hx
    split at hx
    · exact BroadcastQueue.mem_push hx
    · exact Or.inl hx

end

theorem Serving.drainBroadcasts (hM : [] ∉ M) (hbare : ∀ d ∈ D, d.deleted = true → d.pid = {})
    (overhead budget : Int) : Serving M D node (s.drainBroadcasts overhead budget).1 ∧
      ∀ frame ∈ (s.drainBroadcasts overhead budget).2, ∀ d ∈ (decodeFrame frame.tail).1, d ∈ D := by
  refine ⟨{ h with queued := fun e he => h.queued e (Gossip.drain_kept he) }, fun frame hframe d hd => ?_⟩
  obtain ⟨body, rfl, hbody⟩ := decodeFrame_framed (fun e => e) (Gossip.drain_framed hframe)
  obtain ⟨e, he, rfl⟩ := hbody d hd
  obtain ⟨origin, hid, hmem⟩ := h.queued e he
  have hne : origin ≠ [] := fun heq => hM (heq ▸ h.member.names origin _ hid)
  have horigin : s.queue.originFor s.state.nodeString e = origin := by
    unfold BroadcastQueue.originFor
    rw [h.member.table.nodeString hid, if_pos hne]
  rw [horigin]
  have hread : (e.withOrigin origin).read = e.withOrigin origin := by
    unfold Delta.read
    split
    next hdel =>
      rw [← hbare _ hmem hdel]
    · rfl
  rw [hread]
  exact hmem

theorem Serving.collectCVPairs : ∀ p ∈ s.collectCVPairs, p.1 ∈ M ∧ p.2 = s.state.seen p.1 := by
  rintro ⟨origin, counter⟩ hp
  obtain ⟨hzip, hne⟩ := mem_filter.mp hp
  obtain ⟨id, hget⟩ := mem_iff_getElem?.mp hzip
  obtain ⟨horigin, hcounter⟩ := getElem?_zip_eq_some.mp hget
  have hid := h.member.table.complete origin id horigin (by simpa using hne)
  refine ⟨h.member.names origin id hid, ?_⟩
  rw [seen_of_lookup hid, slot, getD_eq_getElem?_getD, hcounter]
  rfl

theorem Serving.length_collectCVPairs : s.collectCVPairs.length ≤ M.length := by
  have hnodup : (s.collectCVPairs.map Prod.fst).Nodup := by
    rw [List.Nodup, pairwise_map, Service.collectCVPairs, pairwise_filter, pairwise_iff_getElem]
    intro i j hi hj hlt hne _ heq
    have hgi : s.state.stringIDs[i]? = some (s.state.stringIDs.zip s.state.cv)[i].1 := by
      rw [getElem_zip, getElem?_eq_getElem]
    have hgj : s.state.stringIDs[j]? = some (s.state.stringIDs.zip s.state.cv)[j].1 := by
      rw [getElem_zip, getElem?_eq_getElem]
    have hii := h.member.table.complete _ i hgi (by simpa using hne)
    have hjj := h.member.table.complete _ j (heq ▸ hgj) (by simpa using hne)
    rw [hii, Option.some.injEq] at hjj
    omega
  have hsub : s.collectCVPairs.map Prod.fst ⊆ M := fun origin ho => by
    obtain ⟨p, hp, rfl⟩ := List.mem_map.mp ho
    exact (h.collectCVPairs p hp).1
  have hle := (subperm_of_subset hnodup hsub).length_le
  rwa [length_map] at hle

end

theorem Member.learns {state state' : State} (h : Member M D node state) (hlearns : Learns (· ∈ M) state state') :
    Member M D node state' ∧ Later state state' :=
  hlearns.invariant (P := fun t => Member M D node t ∧ Later state t) ⟨h, .refl state⟩
    fun t op ⟨origin, hM, heq⟩ ht => by
    subst heq
    obtain ⟨hmember, hlater⟩ := ht.1.internNode hM
    exact ⟨hmember, ht.2.trans hlater⟩

end Wippy.Eventual
