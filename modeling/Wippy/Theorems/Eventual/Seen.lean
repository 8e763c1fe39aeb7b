import Wippy.Theorems.Eventual.Convergence

/-! What a replica has seen of each origin: the highest counter, under the origin's string. -/

namespace Wippy.Eventual
open Lib Option

namespace State
variable {s t : State} {e : Entry} {name node origin : Bytes} {id : Nat}

/-- The highest counter seen of an origin. -/
def seen (s : State) (origin : Bytes) : UInt64 :=
  match s.nodeIDs.lookup origin with
  | some id => slot s.cv id
  | none => 0

theorem seen_of_lookup (h : s.nodeIDs.lookup origin = some id) : s.seen origin = slot s.cv id := by
  unfold seen
  rw [h]

/-- A slot without an origin is zero. -/
def Blank (s : State) : Prop := ∀ id, slot s.cv id ≠ 0 → ∃ origin, s.nodeIDs.lookup origin = some id

theorem seen_of_same (hids : t.nodeIDs = s.nodeIDs) (hcv : ∀ id, slot t.cv id = slot s.cv id) (origin : Bytes) :
    t.seen origin = s.seen origin := by
  unfold seen
  rw [hids]
  split
  · exact hcv _
  · rfl

theorem Blank.seen_internNode (h : s.Blank) (ht : s.Table) (node origin : Bytes) :
    (s.internNode node).1.seen origin = s.seen origin := by
  rcases ht.internNode_cases node with ⟨id, -, heq⟩ | hslot
  · rw [heq]
  by_cases ho : origin = node
  · -- The slot that a new string gets is nobody's, so nothing was seen under it.
    subst ho
    rw [seen_of_lookup (ht.internNode origin).2, hslot.cv]
    unfold seen
    rw [hslot.unknown]
    split
    · rfl
    · by_contra hne
      obtain ⟨o, hid⟩ := h _ hne
      exact hslot.nobody o hid
  · unfold seen
    rw [hslot.nodeIDs, Map.lookup_insert_eq, if_neg ho]
    cases hid : s.nodeIDs.lookup origin with
    | none => rfl
    | some id =>
      show slot (s.internNode node).1.cv id = slot s.cv id
      rw [hslot.cv, if_neg]
      rintro ⟨heq, -⟩
      exact hslot.nobody origin (heq ▸ hid)

theorem Blank.internNode (h : s.Blank) (ht : s.Table) (node : Bytes) : (s.internNode node).1.Blank := fun id hne => by
  rcases ht.internNode_cases node with ⟨id', -, heq⟩ | hslot
  · rw [heq] at hne ⊢
    exact h id hne
  rw [hslot.cv] at hne
  split at hne
  · exact absurd rfl hne
  · obtain ⟨o, ho⟩ := h id hne
    exact ⟨o, ht.lookup_internNode node ho⟩

theorem Blank.stored (h : s.Blank) (hst : Stored s t e) (hid : s.nodeIDs.lookup node = some e.node) : t.Blank :=
  fun id hne => by
  rw [hst.table.nodeIDs]
  rw [hst.cv] at hne
  split at hne
  next hk =>
    exact ⟨node, hk.1 ▸ hid⟩
  · exact h id hne

theorem Table.seen_stored (h : s.Table) (hst : Stored s t e) (hid : s.nodeIDs.lookup node = some e.node)
    (origin : Bytes) :
    t.seen origin = if origin = node ∧ s.seen node < e.counter then e.counter else s.seen origin := by
  unfold seen
  rw [hst.table.nodeIDs, hid]
  cases hid' : s.nodeIDs.lookup origin with
  | none =>
    have hne : origin ≠ node := fun heq => by
      rw [heq, hid] at hid'
      cases hid'
    rw [if_neg fun hk => hne hk.1]
  | some id =>
    show slot t.cv id = _
    rw [hst.cv]
    by_cases ho : origin = node
    · subst ho
      rw [hid, Option.some.injEq] at hid'
      subst hid'
      simp
    · have hne : id ≠ e.node := fun heq => ho (h.inj (heq ▸ hid') hid)
      rw [if_neg fun hk => hne hk.1, if_neg fun hk => ho hk.1]

theorem Sourced.held_key (h : s.Sourced) {d : Delta} (hd : s.held name origin = some d) :
    d.name = name ∧ d.origin = origin := by
  obtain ⟨id, hid, hmap⟩ := bind_eq_some_iff.mp hd
  obtain ⟨e, he, rfl⟩ := map_eq_some_iff.mp hmap
  refine ⟨(h.keyed _ _ _ he).1, ?_⟩
  show s.nodeString e.node = origin
  rw [(h.keyed _ _ _ he).2]
  exact h.table.nodeString hid

end State
end Wippy.Eventual
