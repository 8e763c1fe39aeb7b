import Mathlib.Data.Finset.Card

/-! Directed graphs as relations: acyclicity, its preservation when the edges out of one vertex change, and the lengths
    of the longest walks that lead to a vertex. -/

namespace Lib
open Relation

variable {V : Type} {E F : V → V → Prop} {u v : V} {level : V → Nat} {k : Nat}

def Acyclic (E : V → V → Prop) : Prop := ∀ v, ¬ TransGen E v v

theorem Acyclic.mono (h : Acyclic F) (hsub : ∀ u v, E u v → F u v) : Acyclic E :=
  fun v hv => h v (TransGen.mono hsub v v hv)

theorem acyclic_of_rising (h : ∀ u v, E u v → level u < level v) : Acyclic E := by
  have hlt : ∀ u v, TransGen E u v → level u < level v := by
    intro u v huv
    induction huv with
    | single hedge => exact h _ _ hedge
    | tail _ hedge ih => exact ih.trans (h _ _ hedge)
  exact fun v hv => Nat.lt_irrefl _ (hlt v v hv)

/-- New edges out of one vertex close no cycle if they lead to where the vertex could not be reached from. -/
theorem Acyclic.redirect {a : V} (h : Acyclic E) (hnew : ∀ u v, F u v → E u v ∨ u = a ∧ ¬ ReflTransGen E v a) :
    Acyclic F := by
  -- a walk to `a` may be cut at its first visit, so that it uses old edges only
  have hback : ∀ v, ReflTransGen F v a → ReflTransGen E v a := by
    intro v hv
    induction hv using ReflTransGen.head_induction_on with
    | refl => exact .refl
    | head hedge _ ih =>
      rcases hnew _ _ hedge with hold | ⟨rfl, -⟩
      · exact .head hold ih
      · exact .refl
  have hloop : ¬ TransGen F a a := by
    intro hcycle
    obtain ⟨w, hedge, hrest⟩ := TransGen.head'_iff.mp hcycle
    rcases hnew _ _ hedge with hold | ⟨-, hno⟩
    · exact h a (TransGen.head' hold (hback w hrest))
    · exact hno (hback w hrest)
  have hsplit : ∀ u v, TransGen F u v → TransGen E u v ∨ ReflTransGen F u a ∧ TransGen F a v := by
    intro u v huv
    induction huv with
    | single hedge =>
      rcases hnew _ _ hedge with hold | ⟨rfl, -⟩
      · exact .inl (.single hold)
      · exact .inr ⟨.refl, .single hedge⟩
    | tail hwalk hedge ih =>
      rcases ih with hold | ⟨hto, hfrom⟩
      · rcases hnew _ _ hedge with hold' | ⟨rfl, -⟩
        · exact .inl (.tail hold hold')
        · exact .inr ⟨hwalk.to_reflTransGen, .single hedge⟩
      · exact .inr ⟨hto, .tail hfrom hedge⟩
  intro v hcycle
  rcases hsplit v v hcycle with hold | ⟨hto, hfrom⟩
  · exact h v hold
  · exact hloop (hfrom.trans_left hto)

theorem closed_of_reflTransGen {S : V → Prop} (hclosed : ∀ u v, S u → E u v → S v) (hu : S u)
    (h : ReflTransGen E u v) : S v := by
  induction h with
  | refl => exact hu
  | tail _ hedge ih => exact hclosed _ _ ih hedge

section rank
open Classical in
/-- How many vertices of a finite set lead to a vertex. -/
noncomputable def rank (E : V → V → Prop) (s : Finset V) (v : V) : Nat := (s.filter fun u => TransGen E u v).card

variable {s : Finset V}

theorem rank_le (v : V) : rank E s v ≤ s.card := by
  classical
  exact Finset.card_filter_le _ _

theorem Acyclic.rank_lt (h : Acyclic E) (hu : u ∈ s) (hedge : E u v) : rank E s u < rank E s v := by
  classical
  refine Finset.card_lt_card ⟨fun w hw => ?_, fun hsub => ?_⟩
  · obtain ⟨hin, hwalk⟩ := Finset.mem_filter.mp hw
    exact Finset.mem_filter.mpr ⟨hin, hwalk.tail hedge⟩
  · exact h u (Finset.mem_filter.mp (hsub (Finset.mem_filter.mpr ⟨hu, .single hedge⟩))).2

theorem Acyclic.exists_minimal (h : Acyclic E) (hs : ∀ u v, E u v → u ∈ s) {P : V → Prop} (hv : P v) :
    ∃ w, P w ∧ ∀ u, E u w → ¬ P u := by
  induction hk : rank E s v using Nat.strong_induction_on generalizing v with
  | h k ih =>
    by_cases hmin : ∀ u, E u v → ¬ P u
    · exact ⟨v, hv, hmin⟩
    · push Not at hmin
      obtain ⟨u, hedge, hu⟩ := hmin
      exact ih (rank E s u) (hk ▸ h.rank_lt (hs u v hedge) hedge) hu rfl

end rank

inductive Walk (E : V → V → Prop) : Nat → V → Prop
  | start (v : V) : Walk E 0 v
  | step {k : Nat} {u v : V} (h : Walk E k u) (hedge : E u v) : Walk E (k + 1) v

theorem Walk.mono (hsub : ∀ u v, E u v → F u v) (h : Walk E k v) : Walk F k v := by
  induction h with
  | start v => exact .start v
  | step _ hedge ih => exact .step ih (hsub _ _ hedge)

theorem Walk.le_of_rising (hrise : ∀ u v, E u v → level u < level v) (h : Walk E k v) : k ≤ level v := by
  induction h with
  | start v => exact Nat.zero_le _
  | step _ hedge ih => exact ih.trans_lt (hrise _ _ hedge)

theorem Walk.le_card {s : Finset V} (hac : Acyclic E) (hs : ∀ u v, E u v → u ∈ s) (h : Walk E k v) : k ≤ s.card :=
  (h.le_of_rising fun u v hedge => hac.rank_lt (hs u v hedge) hedge).trans (rank_le v)

/-- The length of the longest walk that ends at the vertex. -/
structure IsLevel (E : V → V → Prop) (v : V) (k : Nat) : Prop where
  walk : Walk E k v
  longest : ∀ j, Walk E j v → j ≤ k

theorem isLevel_of_rising (hwalk : ∀ v, Walk E (level v) v)
    (hrise : ∀ u v, E u v → level u < level v) (v : V) : IsLevel E v (level v) :=
  ⟨hwalk v, fun _ h => h.le_of_rising hrise⟩

theorem IsLevel.rising {j k : Nat} (hu : IsLevel E u j) (hv : IsLevel E v k) (hedge : E u v) : j < k :=
  hv.longest (j + 1) (.step hu.walk hedge)

end Lib
