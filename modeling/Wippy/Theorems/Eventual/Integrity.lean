import Wippy.Eventual.Windows
import Wippy.Theorems.Eventual.References
import Wippy.Lib.Reach

/-! Integrity of the intern table while critical sections interleave. A pass that frees the id of a dot between its
    interning and its merge breaks it. -/

namespace Wippy.Eventual
open Lib State List Option Map

/-! ### Where dots come from -/

namespace State
variable {s t : State} {e : Entry} {name node : Bytes} {id : Nat} {source : Map (Bytes × Nat) Bytes}

/-- Each dot came with the string that its id denotes. -/
structure Traced (s : State) (source : Map (Bytes × Nat) Bytes) : Prop where
  table : s.Table
  keyed : s.Keyed
  counted : s.Counted
  source : ∀ name id e, s.dot name id = some e →
    ∃ origin, origin ≠ [] ∧ s.nodeIDs.lookup origin = some id ∧ source.lookup (name, id) = some origin

theorem Traced.sourced (h : s.Traced source) : s.Sourced where
  __ := h
  known := fun name id e he => by
    obtain ⟨origin, -, hid, -⟩ := h.source name id e he
    exact ⟨origin, hid⟩

theorem Traced.newState (node : Bytes) : (newState node).Traced source where
  table := Table.newState node
  keyed := (Sourced.newState node).keyed
  counted := fun id => by
    show slot (List.replicate 8 0) id = 0
    unfold slot
    rw [getD_eq_getElem?_getD, getElem?_replicate]
    split <;> rfl
  source := fun _ _ _ he => (nomatch he)

section
variable (h : s.Traced source)
include h

theorem Traced.internNode (node : Bytes) : (s.internNode node).1.Traced source where
  table := (h.table.internNode node).1
  keyed := h.keyed.of_entries (internNode_other s node).1
  counted := h.counted.internNode h.sourced node
  source := fun name id e he => by
    rw [dot_internNode] at he
    obtain ⟨origin, hne, hid, hsrc⟩ := h.source name id e he
    exact ⟨origin, hne, h.table.lookup_internNode node hid, hsrc⟩

theorem Traced.stored (hst : Stored s t e) (hid : s.nodeIDs.lookup node = some e.node) (hne : node ≠ []) :
    t.Traced (source.insert (e.name, e.node) node) where
  table := h.table.same hst.table
  keyed := h.keyed.stored hst
  counted := h.counted.stored hst
  source := fun name id x hx => by
    rw [hst.table.nodeIDs, lookup_insert_eq]
    rw [hst.dot] at hx
    split at hx
    next hk =>
      exact ⟨node, hne, hk.2 ▸ hid, by rw [hk.1, hk.2, if_pos rfl]⟩
    rename_i hk
    obtain ⟨origin, ho, hid', hsrc⟩ := h.source name id x hx
    refine ⟨origin, ho, hid', ?_⟩
    rw [if_neg fun heq => hk ⟨congrArg Prod.fst heq, congrArg Prod.snd heq⟩]
    exact hsrc

theorem Traced.warned (e : Entry) : (s.warned e).Traced source :=
  { h with table := h.table.same ⟨rfl, rfl, rfl, rfl⟩ }

theorem Traced.reapNode (departed : Bytes) : (s.reapNode departed).1.Traced source := by
  have htable := reapNode_table s departed
  refine ⟨h.table.same htable, h.keyed.reapNode departed, h.counted.reapNode departed, fun name id e he => ?_⟩
  rw [dot_reapNode] at he
  obtain ⟨x, hx, -⟩ := map_eq_some_iff.mp he
  rw [htable.nodeIDs]
  exact h.source name id x hx

theorem Traced.reapTombstones (safe : List UInt64) (nowMs floor : Int64) :
    (s.reapTombstones safe nowMs floor).1.Traced source := by
  have htable := reapTombstones_table s safe nowMs floor
  refine ⟨h.table.same htable, h.keyed.reapTombstones safe nowMs floor,
    h.counted.reapTombstones h.keyed safe nowMs floor, fun name id e he => ?_⟩
  rw [dot_reapTombstones] at he
  rw [htable.nodeIDs]
  exact h.source name id e (filter_eq_some_iff.mp he).1

theorem Traced.reclaim (alive : List Bytes) : (s.reclaimUnreferencedNodes alive).1.Traced source where
  table := h.table.reclaim alive
  keyed := h.keyed.of_entries (reclaim_other s alive).1
  counted := h.counted.reclaim alive
  source := fun name id e he => by
    rw [dot_of_entries (reclaim_other s alive).1] at he
    obtain ⟨origin, hne, hid, hsrc⟩ := h.source name id e he
    exact ⟨origin, hne, h.table.lookup_reclaim hid (h.counted.not_reclaimable he alive), hsrc⟩

end
end State

namespace Windows
variable {w w' : Windows} {node : Bytes} {ev : Event}

/-- What keeps dots with their origin: origins have a name, and a pass does not reclaim the id of a dot that was
    interned and not merged yet. -/
def Steady (w : Windows) : Event → Prop
  | .intern d => d.origin ≠ []
  | .reclaim alive => ∀ x ∈ w.incoming, w.state.reclaimable alive x.2 = false
  | _ => True

/-- The invariant: the state is traced, and a dot on its way has the id of its origin. -/
structure Sound (w : Windows) : Prop where
  traced : w.state.Traced w.source
  name : w.node ≠ []
  local_id : w.state.nodeIDs.lookup w.node = some w.state.localNode
  incoming : ∀ x ∈ w.incoming, x.1.origin ≠ [] ∧ w.state.nodeIDs.lookup x.1.origin = some x.2

theorem Sound.start (hne : node ≠ []) (cap : Int) : (start node cap).Sound where
  traced := Traced.newState node
  name := hne
  local_id := by
    show (AList.insert node 0 ∅).lookup node = some 0
    rw [lookup_insert_eq, if_pos rfl]
  incoming := fun _ hx => absurd hx not_mem_nil

/-- `w'` is `w`, or `w` after it stored a dot under the id of the origin it came with. -/
def Stores (w w' : Windows) : Prop :=
  w' = w ∨ ∃ t e origin, w' = w.store t e origin ∧ origin ≠ [] ∧ w.state.nodeIDs.lookup origin = some e.node ∧
    SameTable w.state t ∧ t.Traced (w.source.insert (e.name, e.node) origin)

theorem Sound.merge (h : w.Sound) {d : Delta} {id : Nat} (hne : d.origin ≠ [])
    (hid : w.state.nodeIDs.lookup d.origin = some id) : w.Stores (w.merge d id) := by
  unfold Windows.merge
  rcases apply_cases w.state (d.entry id) with ⟨-, t, heq, rfl⟩ | ⟨-, -, heq⟩ | ⟨-, -, heq, -, hsup, hfwd⟩
  · rw [heq]
    have hst := (h.traced.keyed.supersede (d.entry id)).toStored
    have hnode := (h.traced.keyed.superseding (d.entry id)).2
    refine Or.inr ⟨_, _, _, rfl, h.name, hnode ▸ h.local_id, ?_, ?_⟩
    · exact ⟨hst.table.nodeIDs, hst.table.stringIDs, hst.table.freeIDs, hst.table.localNode⟩
    · exact (h.traced.warned _).stored hst (hnode ▸ h.local_id) h.name
  · rw [heq]
    exact Or.inl rfl
  · have hst := install_stored w.state (d.entry id)
    rw [← heq] at hst
    generalize w.state.apply (d.entry id) = r at heq hsup hfwd hst
    obtain ⟨t, outcome, fwd, lost⟩ := r
    cases hfwd
    refine Or.inr ⟨t, _, _, rfl, ?_, ?_, hst.table, ?_⟩ <;> rw [if_neg hsup]
    · exact hne
    · exact hid
    · exact h.traced.stored hst hid hne

theorem Sound.register (h : w.Sound) (name : Bytes) (p : PID) (wallMs : Int64) (priority : UInt32) :
    w.Stores (w.register name p wallMs priority) := by
  unfold Windows.register
  rcases register_cases w.state name p wallMs priority with ⟨cur, -, -, -, heq⟩ | ⟨t, r, heq, -, hm, -, -, hlost, -⟩
  · rw [heq]
    exact Or.inl rfl
  rw [heq]
  dsimp only
  split
  · have hid : w.state.nodeIDs.lookup w.node = some r.entry.node := hm.node ▸ h.local_id
    exact Or.inr ⟨t, _, _, rfl, h.name, hid, hm.table, h.traced.stored hm.toStored hid h.name⟩
  next hnot =>
    rw [hlost] at hnot
    cases hwon : r.won <;> simp [hwon] at hnot

theorem Sound.unregister (h : w.Sound) (name : Bytes) (wallMs : Int64) : w.Stores (w.unregister name wallMs) := by
  unfold Windows.unregister
  rcases unregister_cases w.state name wallMs with ⟨-, heq⟩ | ⟨t, e, heq, -, -, hm, -⟩
  · rw [heq]
    exact Or.inl rfl
  · rw [heq]
    have hid : w.state.nodeIDs.lookup w.node = some e.node := hm.node ▸ h.local_id
    exact Or.inr ⟨t, _, _, rfl, h.name, hid, hm.table, h.traced.stored hm.toStored hid h.name⟩

theorem Sound.stores (h : w.Sound) (hw : w.Stores w') : w'.Sound := by
  rcases hw with rfl | ⟨t, e, origin, rfl, -, -, htable, htraced⟩
  · exact h
  refine ⟨htraced, h.name, ?_, fun x hx => ?_⟩
  · show t.nodeIDs.lookup w.node = some t.localNode
    rw [htable.nodeIDs, htable.localNode]
    exact h.local_id
  · show x.1.origin ≠ [] ∧ t.nodeIDs.lookup x.1.origin = some x.2
    rw [htable.nodeIDs]
    exact h.incoming x hx

/-- The string that an event interns. -/
def Event.interns : Event → Option Bytes
  | .learn node => some node
  | .intern d => some d.origin
  | _ => none

theorem step_table (w : Windows) (ev : Event) : SameTable w.state (w.step ev).state ∨
    (∃ node, ev.interns = some node ∧ (w.step ev).state = (w.state.internNode node).1) ∨
    ∃ alive, ev = .reclaim alive ∧ (w.step ev).state = (w.state.reclaimUnreferencedNodes alive).1 := by
  cases ev with
  | learn node => exact Or.inr (Or.inl ⟨node, rfl, rfl⟩)
  | intern d => exact Or.inr (Or.inl ⟨d.origin, rfl, rfl⟩)
  | merge i =>
    simp only [Windows.step]
    split
    · exact Or.inl (.refl _)
    rename_i d id _
    have htable := apply_table w.state (d.entry id)
    unfold Windows.merge
    split <;> rename_i heq <;> rw [heq] at htable <;> exact Or.inl htable
  | register name p wallMs priority =>
    have htable := register_table w.state name p wallMs priority
    simp only [Windows.step, Windows.register]
    split <;> exact Or.inl htable
  | unregister name wallMs =>
    have htable := unregister_table w.state name wallMs
    simp only [Windows.step, Windows.unregister]
    split <;> rename_i heq <;> rw [heq] at htable <;> exact Or.inl htable
  | reapNode departed => exact Or.inl (reapNode_table w.state departed)
  | reapTombstones safe nowMs floor => exact Or.inl (reapTombstones_table w.state safe nowMs floor)
  | reclaim alive => exact Or.inr (Or.inr ⟨alive, rfl, rfl⟩)
  | push i =>
    simp only [Windows.step]
    split <;> exact Or.inl (.refl _)
  | drain overhead budget => exact Or.inl (.refl _)

theorem Sound.learn (h : w.Sound) (node : Bytes) :
    ({ w with state := (w.state.internNode node).1 } : Windows).Sound where
  traced := h.traced.internNode node
  name := h.name
  local_id := by
    rw [(internNode_other w.state node).2.1]
    exact h.traced.table.lookup_internNode node h.local_id
  incoming := fun x hx => ⟨(h.incoming x hx).1, h.traced.table.lookup_internNode node (h.incoming x hx).2⟩

theorem Sound.same (h : w.Sound) {t : State} (htable : SameTable w.state t) (htraced : t.Traced w.source)
    (outgoing : List Entry) : ({ w with state := t, outgoing } : Windows).Sound where
  traced := htraced
  name := h.name
  local_id := by
    rw [htable.nodeIDs, htable.localNode]
    exact h.local_id
  incoming := fun x hx => by
    rw [htable.nodeIDs]
    exact h.incoming x hx

theorem Sound.step (h : w.Sound) (hev : w.Steady ev) : (w.step ev).Sound := by
  cases ev with
  | learn node => exact h.learn node
  | intern d =>
    have hl := h.learn d.origin
    refine { hl with incoming := fun x hx => ?_ }
    have hx' : x ∈ w.incoming ++ [(d, (w.state.internNode d.origin).2)] := hx
    rcases mem_append.mp hx' with hx' | hx'
    · exact hl.incoming x hx'
    · rw [mem_singleton.mp hx']
      exact ⟨hev, (h.traced.table.internNode d.origin).2⟩
  | merge i =>
    simp only [Windows.step]
    split
    · exact h
    rename_i d id hget
    have hin := h.incoming (d, id) (mem_of_getElem? hget)
    have hrest : ({ w with incoming := w.incoming.eraseIdx i }).Sound :=
      { h with incoming := fun x hx => h.incoming x (mem_of_mem_eraseIdx hx) }
    exact hrest.stores (hrest.merge hin.1 hin.2)
  | register name p wallMs priority => exact h.stores (h.register name p wallMs priority)
  | unregister name wallMs => exact h.stores (h.unregister name wallMs)
  | reapNode departed => exact h.same (reapNode_table w.state departed) (h.traced.reapNode departed) _
  | reapTombstones safe nowMs floor =>
    exact h.same (reapTombstones_table w.state safe nowMs floor)
      (h.traced.reapTombstones safe nowMs floor) _
  | reclaim alive =>
    refine ⟨h.traced.reclaim alive, h.name, ?_, fun x hx => ?_⟩
    · show (w.state.reclaimUnreferencedNodes alive).1.nodeIDs.lookup w.node =
        some (w.state.reclaimUnreferencedNodes alive).1.localNode
      rw [(reclaim_other w.state alive).2.2]
      exact h.traced.table.lookup_reclaim h.local_id (by simp [reclaimable])
    · exact ⟨(h.incoming x hx).1, h.traced.table.lookup_reclaim (h.incoming x hx).2 (hev x hx)⟩
  | push i =>
    simp only [Windows.step]
    split
    · exact h
    · exact { h with }
  | drain overhead budget => exact { h with }

/-! ### Integrity of the intern table -/

/-- The intern table and the dots agree: a dot came with the string of its id; the table maps strings and ids to each
    other; references are counted; and free ids have none. -/
structure Integrity (w : Windows) : Prop where
  origin : ∀ name id e, w.state.dot name id = some e → w.source.lookup (name, id) = some (w.state.nodeString id)
  inverse : ∀ node id, w.state.nodeIDs.lookup node = some id ↔ w.state.stringIDs[id]? = some node ∧ node ≠ []
  refs : ∀ id, slot w.state.nodeRefs id = w.state.records id
  free : ∀ id ∈ w.state.freeIDs, ∀ name, w.state.dot name id = none

/-- A steady event that interns no empty string. -/
def Orderly (w : Windows) (ev : Event) : Prop := w.Steady ev ∧ ev.interns ≠ some []

instance (w : Windows) : ∀ ev, Decidable (w.Steady ev)
  | .intern d => inferInstanceAs (Decidable (d.origin ≠ []))
  | .reclaim alive => inferInstanceAs (Decidable (∀ x ∈ w.incoming, w.state.reclaimable alive x.2 = false))
  | .learn _ | .merge _ | .register .. | .unregister .. | .reapNode _ | .reapTombstones .. | .push _ | .drain .. =>
    .isTrue trivial

instance (w : Windows) (ev : Event) : Decidable (w.Orderly ev) := inferInstanceAs (Decidable (_ ∧ _))

theorem lookup_nil_step (hs : w.Sound) (h : w.state.nodeIDs.lookup [] = none) (hev : w.Orderly ev) :
    (w.step ev).state.nodeIDs.lookup [] = none := by
  rcases step_table w ev with htable | ⟨node, hnode, heq⟩ | ⟨alive, -, heq⟩
  · rw [htable.nodeIDs]
    exact h
  · rw [heq]
    rcases hs.traced.table.internNode_cases node with ⟨id, -, hsame⟩ | hslot
    · rw [hsame]
      exact h
    · have hne : node ≠ [] := fun hnil => hev.2 (hnil ▸ hnode)
      rw [hslot.nodeIDs, lookup_insert_eq, if_neg hne.symm]
      exact h
  · rw [heq]
    exact reclaim_lookup_none h alive

theorem Sound.integrity (h : w.Sound) (hnil : w.state.nodeIDs.lookup [] = none) : w.Integrity where
  origin := fun name id e he => by
    obtain ⟨origin, -, hid, hsrc⟩ := h.traced.source name id e he
    rw [hsrc, h.traced.table.nodeString hid]
  inverse := fun node id => by
    constructor
    · intro hid
      refine ⟨h.traced.table.sound node id hid, fun hne => ?_⟩
      rw [hne, hnil] at hid
      cases hid
    · rintro ⟨hget, hne⟩
      exact h.traced.table.complete node id hget hne
  refs := h.traced.counted
  free := fun id hfree name => by
    cases he : w.state.dot name id with
    | none => rfl
    | some e =>
      obtain ⟨origin, -, hid, -⟩ := h.traced.source name id e he
      exact absurd hfree (h.traced.table.not_free hid)

theorem sound_of_reach {cap : Int} (hne : node ≠ [])
    (h : Reach step Orderly (start node cap) w) : w.Sound ∧ w.state.nodeIDs.lookup [] = none := by
  refine h.invariant (P := fun w => w.Sound ∧ w.state.nodeIDs.lookup [] = none) ⟨.start hne _, ?_⟩ fun w ev hev hw => ?_
  · show (AList.insert node 0 ∅).lookup [] = none
    rw [lookup_insert_eq, if_neg hne.symm]
    rfl
  · exact ⟨hw.1.step hev.1, lookup_nil_step hw.1 hw.2 hev⟩

/-- In every interleaving in which no pass reclaims the id of a dot between its interning and its merge, and no empty
    string is interned. -/
theorem integrity_of_reach {broadcastCap : Int} (hne : node ≠ [])
    (h : Reach step Orderly (start node broadcastCap) w) : w.Integrity := by
  obtain ⟨hsound, hnil⟩ := sound_of_reach hne h
  exact hsound.integrity hnil

/-- A live dot of another node. -/
def remote : Delta :=
  { pid := { node := [98], uniqID := [1] }, name := [107], origin := [98], counter := 1, wall := 0, priority := 0 }

theorem integrity_of_reach_merged :
    let es : List Event := [.intern remote, .merge 0, .reclaim []]
    ([110] : Bytes) ≠ [] ∧ Along step Orderly (start [110] 0) es ∧ (es.foldl step (start [110] 0)).Integrity :=
  ⟨by decide, by decide, integrity_of_reach (by decide) (Reach.of_along (by decide))⟩

/-- Its id is reclaimed between `internNode` and `Apply`. -/
def reclaimedBetween : List Event := [.intern remote, .reclaim [], .merge 0]

theorem not_integrity_reclaimed : ¬∀ (node : Bytes) (broadcastCap : Int) (w : Windows), node ≠ [] →
    Reach step (fun _ _ => True) (start node broadcastCap) w → w.Integrity := by
  intro h
  have hall : Along step (fun _ _ => True) (start [110] 0) reclaimedBetween := along_of_forall (fun _ _ => trivial) _ _
  exact absurd ((h [110] 0 _ (by decide) (Reach.of_along hall)).free 1 (by decide) [107]) (by decide)

end Windows
end Wippy.Eventual
