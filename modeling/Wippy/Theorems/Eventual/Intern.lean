import Wippy.Theorems.Eventual.Replica

/-! The intern table of an eventual replica. The dots under an id are those of its string as long as every dot is stored
    under the id of a known string (`Sourced`). -/

namespace Wippy.Eventual
open Lib List Option Map

namespace State
variable {s t : State} {e : Entry} {name node node' : Bytes} {id : Nat} {alive : List Bytes}

section
variable (s) (node)

theorem internNode_cases :
    (∃ id, s.nodeIDs.lookup node = some id ∧ s.internNode node = (s, id)) ∨
      (∃ id free, s.nodeIDs.lookup node = none ∧ s.freeIDs = id :: free ∧ s.internNode node =
        ({ s with
            freeIDs := free
            nodeIDs := s.nodeIDs.insert node id
            stringIDs := s.stringIDs.set id node
            cv := s.cv.set id 0
            nodeRefs := s.nodeRefs.set id 0 }, id)) ∨
      (s.nodeIDs.lookup node = none ∧ s.freeIDs = [] ∧ s.internNode node =
        ({ s with
            nodeIDs := s.nodeIDs.insert node s.stringIDs.length
            stringIDs := s.stringIDs ++ [node]
            cv := grow s.cv s.stringIDs.length
            nodeRefs := grow s.nodeRefs s.stringIDs.length }, s.stringIDs.length)) := by
  unfold internNode
  split
  next id h =>
    exact Or.inl ⟨id, h, rfl⟩
  rename_i h
  split
  next id free hf =>
    exact Or.inr (Or.inl ⟨id, free, h, hf, rfl⟩)
  next hf =>
    exact Or.inr (Or.inr ⟨h, hf, rfl⟩)

theorem internNode_other : (s.internNode node).1.entries = s.entries ∧ (s.internNode node).1.localNode = s.localNode ∧
      (s.internNode node).1.localCounter = s.localCounter ∧ (s.internNode node).1.claims = s.claims := by
  rcases internNode_cases s node with ⟨id, -, h⟩ | ⟨id, free, -, -, h⟩ | ⟨-, -, h⟩ <;> rw [h] <;>
    exact ⟨rfl, rfl, rfl, rfl⟩

end

/-- The intern table, whatever strings are interned: an id that a string has denotes it, and free slots are empty and
    nobody's. -/
structure Table (s : State) : Prop where
  sound : ∀ node id, s.nodeIDs.lookup node = some id → s.stringIDs[id]? = some node
  complete : ∀ node id, s.stringIDs[id]? = some node → node ≠ [] → s.nodeIDs.lookup node = some id
  free : ∀ id ∈ s.freeIDs, s.stringIDs[id]? = some [] ∧ s.nodeIDs.lookup [] ≠ some id
  nodup : s.freeIDs.Nodup

theorem Table.same (h : s.Table) (hst : SameTable s t) : t.Table := by
  refine ⟨?_, ?_, ?_, ?_⟩
  · rw [hst.nodeIDs, hst.stringIDs]
    exact h.sound
  · rw [hst.nodeIDs, hst.stringIDs]
    exact h.complete
  · rw [hst.nodeIDs, hst.stringIDs, hst.freeIDs]
    exact h.free
  · rw [hst.freeIDs]
    exact h.nodup

section
variable (h : s.Table) (hid : s.nodeIDs.lookup node = some id)
include h hid

theorem Table.not_free : id ∉ s.freeIDs := by
  intro hfree
  obtain ⟨hempty, hne⟩ := h.free id hfree
  have heq := h.sound node id hid
  rw [hempty, Option.some.injEq] at heq
  exact hne (heq ▸ hid)

theorem Table.inj (hid' : s.nodeIDs.lookup node' = some id) : node = node' := by
  have heq := h.sound node id hid
  rw [h.sound node' id hid', Option.some.injEq] at heq
  exact heq.symm

theorem Table.nodeString : s.nodeString id = node := by
  simp [State.nodeString, h.sound node id hid]

end

/-- `t` is `s` after it gave the unknown string `node` the slot `id`, a free one or a new one. -/
structure Slotted (s t : State) (node : Bytes) (id : Nat) : Prop where
  unknown : s.nodeIDs.lookup node = none
  nobody : ∀ node', s.nodeIDs.lookup node' ≠ some id
  nodeIDs : t.nodeIDs = s.nodeIDs.insert node id
  stringIDs : ∀ j, t.stringIDs[j]? = if j = id then some node else s.stringIDs[j]?
  freeIDs : ∀ j, j ∈ t.freeIDs ↔ j ∈ s.freeIDs ∧ j ≠ id
  nodup : t.freeIDs.Nodup
  cv : ∀ j, slot t.cv j = if j = id ∧ id ∈ s.freeIDs then 0 else slot s.cv j
  refs : ∀ j, slot t.nodeRefs j = if j = id ∧ id ∈ s.freeIDs then 0 else slot s.nodeRefs j

theorem Table.internNode_cases (h : s.Table) (node : Bytes) :
    (∃ id, s.nodeIDs.lookup node = some id ∧ s.internNode node = (s, id)) ∨
      Slotted s (s.internNode node).1 node (s.internNode node).2 := by
  rcases State.internNode_cases s node with hknown | ⟨id, free, hnone, hfree, heq⟩ | ⟨hnone, hfree, heq⟩
  · exact Or.inl hknown
  · have hmem : id ∈ s.freeIDs := by simp [hfree]
    have hlt : id < s.stringIDs.length := (List.getElem?_eq_some_iff.mp (h.free id hmem).1).1
    have hnodup : (id :: free).Nodup := hfree ▸ h.nodup
    rw [heq]
    refine Or.inr ⟨hnone, fun n hn => h.not_free hn hmem, rfl, fun j => ?_, fun j => ?_,
      (nodup_cons.mp hnodup).2, fun j => ?_, fun j => ?_⟩
    · rw [getElem?_set]
      by_cases hj : j = id
      · subst hj
        simp [hlt]
      · rw [if_neg (Ne.symm hj), if_neg hj]
    · show j ∈ free ↔ j ∈ s.freeIDs ∧ j ≠ id
      rw [hfree, mem_cons]
      constructor
      · intro hj
        exact ⟨Or.inr hj, fun hji => (nodup_cons.mp hnodup).1 (hji ▸ hj)⟩
      · rintro ⟨hj | hj, hne⟩
        · exact absurd hj hne
        · exact hj
    · simp only [slot_set_zero, hmem, and_true]
    · simp only [slot_set_zero, hmem, and_true]
  · have hout : s.stringIDs[s.stringIDs.length]? = none := getElem?_eq_none (Nat.le_refl _)
    have hnot : s.stringIDs.length ∉ s.freeIDs := by simp [hfree]
    rw [heq]
    refine Or.inr ⟨hnone, fun n hn => ?_, rfl, fun j => ?_, fun j => ?_, h.nodup, fun j => ?_, fun j => ?_⟩
    · have := h.sound n _ hn
      rw [hout] at this
      cases this
    · by_cases hj : j = s.stringIDs.length
      · subst hj
        simp
      · rw [getElem?_append]
        split
        · rfl
        · rw [getElem?_eq_none (by simp; omega), getElem?_eq_none (by omega)]
    · simp [hfree]
    · simp [hnot]
    · simp [hnot]

theorem Slotted.table (h : s.Table) (hs : Slotted s t node id) : t.Table := by
  have hread : ∀ n, t.nodeIDs.lookup n = if n = node then some id else s.nodeIDs.lookup n := fun n => by
    rw [hs.nodeIDs, lookup_insert_eq]
  refine ⟨fun n i hn => ?_, fun n i hn hne => ?_, fun i hi => ?_, hs.nodup⟩
  · rw [hread] at hn
    rw [hs.stringIDs]
    split at hn
    next heq =>
      cases hn
      rw [if_pos rfl, heq]
    · have hi : i ≠ id := fun hi => hs.nobody n (hi ▸ hn)
      rw [if_neg hi]
      exact h.sound n i hn
  · rw [hs.stringIDs] at hn
    rw [hread]
    split at hn
    next heq =>
      cases hn
      rw [if_pos rfl, heq]
    have hn' := h.complete n i hn hne
    have hnode : n ≠ node := fun heq => by
      rw [heq, hs.unknown] at hn'
      cases hn'
    rw [if_neg hnode]
    exact hn'
  · obtain ⟨hi, hne⟩ := (hs.freeIDs i).mp hi
    rw [hs.stringIDs, if_neg hne, hread]
    refine ⟨(h.free i hi).1, ?_⟩
    split
    · intro heq
      exact hne (Option.some.inj heq).symm
    · exact (h.free i hi).2

theorem Table.internNode (h : s.Table) (node : Bytes) :
    (s.internNode node).1.Table ∧ (s.internNode node).1.nodeIDs.lookup node = some (s.internNode node).2 := by
  rcases h.internNode_cases node with ⟨id, hid, heq⟩ | hs
  · rw [heq]
    exact ⟨h, hid⟩
  · refine ⟨hs.table h, ?_⟩
    rw [hs.nodeIDs, lookup_insert_eq, if_pos rfl]

theorem Table.newState (node : Bytes) : (newState node).Table where
  sound := fun n i hn => by
    have hn' : (AList.insert node 0 ∅ : Map Bytes Nat).lookup n = some i := hn
    rcases lookup_insert_some hn' with ⟨rfl, rfl⟩ | ⟨-, hn'⟩
    · rfl
    · cases hn'
  complete := fun n i hn _ => by
    have hn' : ([node])[i]? = some n := hn
    obtain ⟨hlt, heq⟩ := List.getElem?_eq_some_iff.mp hn'
    show (AList.insert node 0 ∅ : Map Bytes Nat).lookup n = some i
    have hi : i = 0 := by simpa using hlt
    subst hi
    have hnode : node = n := heq
    rw [lookup_insert_eq, if_pos hnode.symm]
  free := fun _ hi => (nomatch hi)
  nodup := nodup_nil

theorem reclaimable_iff : s.reclaimable alive id = true ↔
    id ≠ s.localNode ∧ s.nodeString id ≠ [] ∧ slot s.nodeRefs id = 0 ∧ s.nodeString id ∉ alive := by
  simp [reclaimable, and_assoc]

theorem stringIDs_of_nodeString (h : s.nodeString id ≠ []) : s.stringIDs[id]? = some (s.nodeString id) := by
  unfold nodeString at h ⊢
  cases hget : s.stringIDs[id]? with
  | none => simp [getD_eq_getElem?_getD, hget] at h
  | some node => simp [getD_eq_getElem?_getD, hget]

theorem reclaimNode_stringIDs (h : s.nodeString id ≠ []) (j : Nat) :
    (s.reclaimNode id).stringIDs[j]? = if j = id then some [] else s.stringIDs[j]? := by
  have hlt : id < s.stringIDs.length := (List.getElem?_eq_some_iff.mp (stringIDs_of_nodeString h)).1
  show (s.stringIDs.set id [])[j]? = _
  rw [getElem?_set]
  by_cases hj : j = id
  · subst hj
    simp [hlt]
  · rw [if_neg (Ne.symm hj), if_neg hj]

/-- Whether a slot is reclaimable does not depend on the slots freed before it. -/
theorem reclaim_induction {P : State → Prop} (h : P s)
    (step : ∀ t id, P t → s.reclaimable alive id = true → t.reclaimable alive id = true → P (t.reclaimNode id)) :
    P (s.reclaimUnreferencedNodes alive).1 := by
  suffices hgen : ∀ (ids : List Nat) (t : State) (n : Nat), ids.Nodup → P t →
      (∀ id ∈ ids, t.reclaimable alive id = s.reclaimable alive id) →
      P (ids.foldl (fun x id => if x.1.reclaimable alive id then (x.1.reclaimNode id, x.2 + 1)
        else (x.1, x.2)) (t, n)).1 from
    hgen _ s 0 nodup_range h fun _ _ => rfl
  intro ids
  induction ids with
  | nil => intro t n _ ht _; exact ht
  | cons id ids ih =>
    intro t n hnodup ht hsame
    obtain ⟨hnot, hnodup'⟩ := nodup_cons.mp hnodup
    rw [foldl_cons]
    split
    next hre =>
      refine ih _ _ hnodup' (step t id ht (hsame id (by simp) ▸ hre) hre) fun j hj => ?_
      have hji : j ≠ id := fun h => hnot (h ▸ hj)
      have hstring : (t.reclaimNode id).nodeString j = t.nodeString j := by
        unfold nodeString
        rw [getD_eq_getElem?_getD, reclaimNode_stringIDs (reclaimable_iff.mp hre).2.1, if_neg hji,
          getD_eq_getElem?_getD]
      rw [← hsame j (by simp [hj])]
      unfold reclaimable
      rw [hstring]
      rfl
    · exact ih _ _ hnodup' ht fun j hj => hsame j (by simp [hj])

theorem Table.reclaimNode (h : s.Table) (hre : s.reclaimable alive id = true) : (s.reclaimNode id).Table := by
  obtain ⟨-, hne, -, -⟩ := reclaimable_iff.mp hre
  have hget := stringIDs_of_nodeString hne
  have hid := h.complete _ id hget hne
  have hread : ∀ n, (s.reclaimNode id).nodeIDs.lookup n = if n = s.nodeString id then none else s.nodeIDs.lookup n :=
    fun n => lookup_erase_eq s.nodeIDs _ n
  refine ⟨fun n i hn => ?_, fun n i hn hnil => ?_, fun i hi => ?_, ?_⟩
  · rw [hread] at hn
    split at hn
    · cases hn
    rename_i hother
    have hi : i ≠ id := fun hi => hother (h.inj hn (hi ▸ hid))
    rw [reclaimNode_stringIDs hne, if_neg hi]
    exact h.sound n i hn
  · rw [reclaimNode_stringIDs hne] at hn
    split at hn
    · cases hn
      exact absurd rfl hnil
    rename_i hi
    have hn' := h.complete n i hn hnil
    have hother : n ≠ s.nodeString id := fun heq => by
      rw [heq, hid, Option.some.injEq] at hn'
      exact hi hn'.symm
    rw [hread, if_neg hother]
    exact hn'
  · have hi' : i = id ∨ i ∈ s.freeIDs := mem_cons.mp hi
    rw [reclaimNode_stringIDs hne, hread, if_neg hne.symm]
    by_cases heq : i = id
    · subst heq
      rw [if_pos rfl]
      exact ⟨rfl, fun hnil => hne (h.inj hid hnil)⟩
    · rw [if_neg heq]
      exact h.free i (hi'.resolve_left heq)
  · exact nodup_cons.mpr ⟨h.not_free hid, h.nodup⟩

theorem Table.lookup_reclaimNode {j : Nat} (h : s.Table) (hre : s.reclaimable alive id = true)
    (hj : s.nodeIDs.lookup node = some j) (hne : j ≠ id) : (s.reclaimNode id).nodeIDs.lookup node = some j := by
  have hstring := (reclaimable_iff.mp hre).2.1
  have hid := h.complete _ id (stringIDs_of_nodeString hstring) hstring
  have hother : node ≠ s.nodeString id := fun heq => by
    rw [heq, hid, Option.some.injEq] at hj
    exact hne hj.symm
  show (s.nodeIDs.erase _).lookup node = some j
  rw [lookup_erase_eq, if_neg hother]
  exact hj

theorem Table.reclaim (h : s.Table) (alive : List Bytes) : (s.reclaimUnreferencedNodes alive).1.Table :=
  reclaim_induction h fun _ _ ht _ hre => ht.reclaimNode hre

theorem Table.lookup_reclaim (h : s.Table) (hid : s.nodeIDs.lookup node = some id)
    (hre : s.reclaimable alive id = false) : (s.reclaimUnreferencedNodes alive).1.nodeIDs.lookup node = some id := by
  refine (reclaim_induction (P := fun t => t.Table ∧ t.nodeIDs.lookup node = some id) ⟨h, hid⟩ fun t j ht hs hj => ?_).2
  refine ⟨ht.1.reclaimNode hj, ht.1.lookup_reclaimNode hj ht.2 fun heq => ?_⟩
  rw [← heq, hre] at hs
  cases hs

theorem reclaim_lookup_none (h : s.nodeIDs.lookup node = none) (alive : List Bytes) :
    (s.reclaimUnreferencedNodes alive).1.nodeIDs.lookup node = none := by
  refine reclaim_induction (P := fun t => t.nodeIDs.lookup node = none) h fun t j ht _ _ => ?_
  show (t.nodeIDs.erase _).lookup node = none
  rw [lookup_erase_eq]
  split
  · rfl
  · exact ht

theorem reclaim_other (s : State) (alive : List Bytes) : (s.reclaimUnreferencedNodes alive).1.entries = s.entries ∧
      (s.reclaimUnreferencedNodes alive).1.nodeRefs = s.nodeRefs ∧
      (s.reclaimUnreferencedNodes alive).1.localNode = s.localNode :=
  reclaim_induction (P := fun t => t.entries = s.entries ∧ t.nodeRefs = s.nodeRefs ∧ t.localNode = s.localNode)
    ⟨rfl, rfl, rfl⟩ fun _ _ ht _ _ => ht

/-- Each dot has an id that denotes a string. -/
structure Sourced (s : State) : Prop where
  table : s.Table
  keyed : s.Keyed
  known : ∀ name id e, s.dot name id = some e → ∃ node, s.nodeIDs.lookup node = some id

/-- The dot of a name and an origin, with the origin as a string. -/
def held (s : State) (name origin : Bytes) : Option Delta :=
  (s.nodeIDs.lookup origin).bind fun id => (s.dot name id).map s.delta

theorem held_of_lookup {origin : Bytes} (hid : s.nodeIDs.lookup origin = some id) (name : Bytes) :
    s.held name origin = (s.dot name id).map s.delta := by
  rw [held, hid, bind_some]

theorem Sourced.newState (node : Bytes) : (newState node).Sourced where
  table := Table.newState node
  keyed := fun _ _ _ he => (nomatch he)
  known := fun _ _ _ he => (nomatch he)

theorem dot_internNode (s : State) (node name : Bytes) (id : Nat) : (s.internNode node).1.dot name id = s.dot name id :=
  dot_of_entries (internNode_other s node).1 name id

theorem Table.lookup_internNode (h : s.Table) (node : Bytes) (hid : s.nodeIDs.lookup node' = some id) :
    (s.internNode node).1.nodeIDs.lookup node' = some id := by
  rcases h.internNode_cases node with ⟨id', -, heq⟩ | hs
  · rw [heq]
    exact hid
  have hne : node' ≠ node := fun heq => by
    rw [heq, hs.unknown] at hid
    cases hid
  rw [hs.nodeIDs, lookup_insert_eq, if_neg hne]
  exact hid

theorem Sourced.internNode (h : s.Sourced) (node : Bytes) : (s.internNode node).1.Sourced where
  table := (h.table.internNode node).1
  keyed := h.keyed.of_entries (internNode_other s node).1
  known := fun name id e he => by
    rw [dot_internNode] at he
    obtain ⟨n, hn⟩ := h.known name id e he
    exact ⟨n, h.table.lookup_internNode node hn⟩

theorem Sourced.held_internNode (h : s.Sourced) (node name origin : Bytes) :
    (s.internNode node).1.held name origin = s.held name origin := by
  rcases h.table.internNode_cases node with ⟨id, -, heq⟩ | hs
  · rw [heq]
  unfold held
  rw [hs.nodeIDs, lookup_insert_eq]
  split
  next heq =>
    subst heq
    rw [hs.unknown, bind_some, dot_internNode]
    cases hdot : s.dot name (s.internNode origin).2 with
    | none => rfl
    | some e =>
      obtain ⟨n, hn⟩ := h.known _ _ _ hdot
      exact absurd hn (hs.nobody n)
  · cases hid : s.nodeIDs.lookup origin with
    | none => rfl
    | some id =>
      rw [bind_some, bind_some, dot_internNode]
      cases hdot : s.dot name id with
      | none => rfl
      | some e =>
        have hstring : (s.internNode node).1.nodeString e.node = s.nodeString e.node := by
          rw [(h.keyed _ _ _ hdot).2, h.table.nodeString hid]
          exact (h.table.internNode node).1.nodeString (h.table.lookup_internNode node hid)
        rw [map_some, map_some, delta, delta, hstring]

section
variable (h : s.Sourced) (hst : Stored s t e) (hid : s.nodeIDs.lookup node = some e.node)
include h hst hid

theorem Sourced.stored : t.Sourced where
  table := h.table.same hst.table
  keyed := h.keyed.stored hst
  known := fun name id x hx => by
    rw [hst.table.nodeIDs]
    rw [hst.dot] at hx
    split at hx
    next hk =>
      exact ⟨node, hk.2 ▸ hid⟩
    · exact h.known name id x hx

theorem Sourced.held_stored (name origin : Bytes) :
    t.held name origin = if name = e.name ∧ origin = node then some (s.delta e) else s.held name origin := by
  unfold held
  rw [hst.table.nodeIDs, show t.delta = s.delta from funext hst.table.delta]
  by_cases ho : origin = node
  · subst ho
    rw [hid, bind_some, hst.dot]
    by_cases hn : name = e.name
    · simp [hn]
    · simp [hn]
  · rw [if_neg fun h => ho h.2]
    cases hid' : s.nodeIDs.lookup origin with
    | none => rfl
    | some id =>
      have hne : id ≠ e.node := fun heq => ho (h.table.inj (heq ▸ hid') hid)
      rw [bind_some, bind_some, hst.dot, if_neg fun h => hne h.2]

end
end State
end Wippy.Eventual
