import Mathlib.Data.List.Range
import Mathlib.Order.WellFounded
import Mathlib.Data.Fintype.EquivFin

/-! Topological orders by counting predecessors, of the numbers below a bound: of the numbers whose predecessors are all
    in the order, the least one comes next. -/

namespace Lib
open List

variable {q : Kahn} {order : List Nat} {index : Nat}

structure Kahn where
  indegree : Nat → Nat
  ready : List Nat
  order : List Nat

namespace Kahn

/-- Insert a number before the first one of the list that is not smaller. -/
def appendSorted (values : List Nat) (value : Nat) : List Nat :=
  values.takeWhile (fun i => decide (i < value)) ++ value :: values.dropWhile (fun i => decide (i < value))

theorem appendSorted_perm (values : List Nat) (value : Nat) : (appendSorted values value).Perm (values ++ [value]) := by
  refine perm_middle.trans ?_
  rw [takeWhile_append_dropWhile]
  exact (perm_append_singleton value values).symm

variable (before : Nat → Nat → Bool) (count : Nat)

def start : Kahn where
  indegree i := ((range count).filter fun j => before j i).length
  ready := (range count).filter fun i => ((range count).filter fun j => before j i).length == 0
  order := []

/-- One predecessor of `dependent` is in the order now. -/
def release (q : Kahn) (dependent : Nat) : Kahn :=
  let left := q.indegree dependent - 1
  { q with
    indegree := fun i => if i = dependent then left else q.indegree i
    ready := if left = 0 then appendSorted q.ready dependent else q.ready }

def run : Nat → Kahn → Kahn
  | 0, q => q
  | fuel + 1, q =>
    match q.ready with
    | [] => q
    | index :: rest =>
      run fuel (((range count).filter fun i => before index i).foldl release
        { q with ready := rest, order := q.order ++ [index] })

/-- A number comes right after another in the constraints, both below the bound. -/
def Edge (a b : Nat) : Prop := a < count ∧ b < count ∧ before a b = true

def Acyclic : Prop := ∀ i, ¬ Relation.TransGen (Edge before count) i i

section round
variable {before count} {l : List Nat}

theorem foldl_release_order (l : List Nat) (q : Kahn) : (l.foldl release q).order = q.order := by
  induction l generalizing q with
  | nil => rfl
  | cons d l ih => exact ih _

theorem foldl_release_indegree (hl : l.Nodup) (q : Kahn) (i : Nat) :
    (l.foldl release q).indegree i = if i ∈ l then q.indegree i - 1 else q.indegree i := by
  induction l generalizing q with
  | nil => simp
  | cons d l ih =>
    obtain ⟨hd, hl⟩ := nodup_cons.mp hl
    rw [foldl_cons, ih hl]
    by_cases hi : i = d
    · subst hi
      simp [release, hd]
    · simp [release, hi]

theorem foldl_release_ready (hl : l.Nodup) (hpos : ∀ d ∈ l, 0 < q.indegree d) :
    (l.foldl release q).ready.Perm (q.ready ++ l.filter fun d => q.indegree d == 1) := by
  induction l generalizing q with
  | nil => simp
  | cons d l ih =>
    obtain ⟨hd, hl⟩ := nodup_cons.mp hl
    have hsame : ∀ i ∈ l, (release q d).indegree i = q.indegree i := by
      intro i hi
      exact if_neg (ne_of_mem_of_not_mem hi hd)
    have htail := ih (q := release q d) hl fun i hi => by
      rw [hsame i hi]
      exact hpos i (mem_cons_of_mem _ hi)
    have hfilter : (l.filter fun i => (release q d).indegree i == 1) = l.filter fun i => q.indegree i == 1 :=
      filter_congr fun i hi => by rw [hsame i hi]
    rw [hfilter] at htail
    refine htail.trans ?_
    have hd0 : 0 < q.indegree d := hpos d mem_cons_self
    by_cases h1 : q.indegree d = 1
    · have hready : (release q d).ready = appendSorted q.ready d := by simp [release, h1]
      rw [hready, filter_cons_of_pos (by simpa using h1)]
      refine ((appendSorted_perm _ _).append_right _).trans ?_
      simp
    · have hready : (release q d).ready = q.ready := by
        have : q.indegree d - 1 ≠ 0 := by omega
        simp [release, this]
      rw [hready, filter_cons_of_neg (by simpa using h1)]

end round

variable {before count}

/-- The predecessors of `i` that are not in the order yet. -/
def waiting (before : Nat → Nat → Bool) (count : Nat) (order : List Nat) (i : Nat) : List Nat :=
  (range count).filter fun j => before j i && !order.contains j

theorem mem_waiting {i j : Nat} : j ∈ waiting before count order i ↔ j < count ∧ before j i = true ∧ j ∉ order := by
  simp [waiting]

theorem nodup_waiting (order : List Nat) (i : Nat) : (waiting before count order i).Nodup :=
  nodup_range.filter _

/-- Between the rounds: the counts are those of the predecessors outside the order, and the ready numbers those outside
    it whose count is zero. -/
structure Inv (before : Nat → Nat → Bool) (count : Nat) (q : Kahn) : Prop where
  bound : ∀ i ∈ q.order, i < count
  nodup : q.order.Nodup
  nodupReady : q.ready.Nodup
  indegree : ∀ i, i < count → q.indegree i = (waiting before count q.order i).length
  ready : ∀ i, i ∈ q.ready ↔ i < count ∧ i ∉ q.order ∧ q.indegree i = 0
  earlier : ∀ i pre post, q.order = pre ++ i :: post → ∀ j, j < count → before j i = true → j ∈ pre

theorem inv_start : Inv before count (start before count) where
  bound := by simp [start]
  nodup := nodup_nil
  nodupReady := nodup_range.filter _
  indegree i _ := by simp [start, waiting]
  ready i := by simp [start, length_eq_zero_iff]
  earlier := by simp [start]

theorem length_waiting_concat (hlt : index < count) (hnew : index ∉ order) (i : Nat) :
    (waiting before count (order ++ [index]) i).length =
      if before index i then (waiting before count order i).length - 1 else (waiting before count order i).length := by
  have herase : waiting before count (order ++ [index]) i = (waiting before count order i).erase index := by
    rw [(nodup_waiting order i).erase_eq_filter]
    unfold waiting
    rw [filter_filter]
    apply filter_congr
    intro j _
    by_cases hj : j = index
    · subst hj
      simp
    · simp [hj]
  rw [herase, length_erase]
  by_cases hb : before index i = true
  · rw [if_pos hb, if_pos (mem_waiting.mpr ⟨hlt, hb, hnew⟩)]
  · rw [if_neg hb, if_neg (fun h => hb (mem_waiting.mp h).2.1)]

theorem Inv.round (h : Inv before count q) {rest : List Nat} (hr : q.ready = index :: rest) :
    Inv before count (((range count).filter fun i => before index i).foldl release
      { q with ready := rest, order := q.order ++ [index] }) := by
  obtain ⟨hlt, hnew, hzero⟩ := (h.ready index).mp (hr ▸ mem_cons_self)
  have hnil : waiting before count q.order index = [] :=
    length_eq_zero_iff.mp ((h.indegree index hlt).symm.trans hzero)
  have hall : ∀ j, j < count → before j index = true → j ∈ q.order := by
    intro j hj hb
    by_contra hout
    exact not_mem_nil (hnil ▸ mem_waiting.mpr ⟨hj, hb, hout⟩)
  have hnodupDep : ((range count).filter fun i => before index i).Nodup := nodup_range.filter _
  have hmemDep : ∀ i, i ∈ (range count).filter (fun i => before index i) ↔ i < count ∧ before index i = true := by
    simp
  have hpos : ∀ d ∈ (range count).filter (fun i => before index i), 0 < q.indegree d := by
    intro d hd
    obtain ⟨hdlt, hb⟩ := (hmemDep d).mp hd
    rw [h.indegree d hdlt]
    exact length_pos_of_mem (mem_waiting.mpr ⟨hlt, hb, hnew⟩)
  -- A dependent of a number outside the order is outside it.
  have hdepOut : ∀ d, before index d = true → d ∉ q.order := by
    intro d hb hd
    obtain ⟨pre, post, heq⟩ := append_of_mem hd
    exact hnew (heq ▸ mem_append_left _ (h.earlier d pre post heq index hlt hb))
  have hdeg : ∀ i, i < count →
      (((range count).filter fun i => before index i).foldl release
        { q with ready := rest, order := q.order ++ [index] }).indegree i =
        (waiting before count (q.order ++ [index]) i).length := by
    intro i hi
    rw [foldl_release_indegree hnodupDep, length_waiting_concat hlt hnew, h.indegree i hi]
    simp only [hmemDep, hi, true_and]
  have hreadyPerm := foldl_release_ready (q := { q with ready := rest, order := q.order ++ [index] }) hnodupDep hpos
  have hrest := nodup_cons.mp (hr ▸ h.nodupReady)
  have hmemRest : ∀ i, i ∈ rest ↔ i ≠ index ∧ i < count ∧ i ∉ q.order ∧ q.indegree i = 0 := by
    intro i
    rw [← h.ready i, hr, mem_cons]
    constructor
    · intro hi
      exact ⟨ne_of_mem_of_not_mem hi hrest.1, .inr hi⟩
    · rintro ⟨hne, rfl | hi⟩
      · exact absurd rfl hne
      · exact hi
  refine ⟨?_, ?_, ?_, ?_, ?_, ?_⟩
  · intro i hi
    rw [foldl_release_order] at hi
    rcases mem_append.mp hi with hi | hi
    · exact h.bound i hi
    · exact (mem_singleton.mp hi) ▸ hlt
  · rw [foldl_release_order, nodup_append]
    refine ⟨h.nodup, by simp, ?_⟩
    rintro a ha b hb rfl
    exact hnew (mem_singleton.mp hb ▸ ha)
  · refine hreadyPerm.nodup_iff.mpr (nodup_append.mpr ⟨hrest.2, hnodupDep.filter _, ?_⟩)
    rintro a ha b hb rfl
    have hone : q.indegree a = 1 := by simpa using (mem_filter.mp hb).2
    rw [((hmemRest a).mp ha).2.2.2] at hone
    cases hone
  · intro i hi
    rw [hdeg i hi, foldl_release_order]
  · intro i
    rw [hreadyPerm.mem_iff, mem_append, mem_filter, hmemRest, foldl_release_order,
      foldl_release_indegree hnodupDep]
    simp only [hmemDep, mem_append, mem_singleton, not_or, beq_iff_eq]
    constructor
    · rintro (⟨hne, hi, hout, hz⟩ | ⟨⟨hi, hb⟩, hone⟩)
      · refine ⟨hi, ⟨hout, hne⟩, ?_⟩
        split <;> omega
      · refine ⟨hi, ⟨hdepOut i hb, ?_⟩, ?_⟩
        · rintro rfl
          omega
        · rw [if_pos ⟨hi, hb⟩]
          omega
    · rintro ⟨hi, ⟨hout, hne⟩, hz⟩
      by_cases hb : before index i = true
      · right
        rw [if_pos ⟨hi, hb⟩] at hz
        have := hpos i ((hmemDep i).mpr ⟨hi, hb⟩)
        exact ⟨⟨hi, hb⟩, by omega⟩
      · left
        rw [if_neg (fun hx => hb hx.2)] at hz
        exact ⟨hne, hi, hout, hz⟩
  · intro i pre post heq j hj hb
    rw [foldl_release_order] at heq
    rcases eq_nil_or_concat post with rfl | ⟨post, last, rfl⟩
    · obtain ⟨rfl, hi⟩ := append_inj' heq rfl
      exact hall j hj (singleton_inj.mp hi ▸ hb)
    · rw [concat_eq_append, ← cons_append, ← append_assoc] at heq
      exact h.earlier i pre post (append_inj_left' heq rfl) j hj hb

theorem Inv.perm (h : Inv before count q) (hlen : count ≤ q.order.length) : q.order.Perm (range count) := by
  refine (subperm_of_subset h.nodup fun i hi => mem_range.mpr (h.bound i hi)).perm_of_length_le ?_
  simpa using hlen

theorem Inv.run (h : Inv before count q) {fuel : Nat} (hfuel : count ≤ q.order.length + fuel) :
    Inv before count (run before count fuel q) ∧ (Kahn.run before count fuel q).ready = [] := by
  induction fuel generalizing q with
  | zero =>
    refine ⟨h, ?_⟩
    -- The order holds every number, so that none is left to be ready.
    have hall := h.perm hfuel
    rw [eq_nil_iff_forall_not_mem]
    intro i hi
    obtain ⟨hlt, hout, -⟩ := (h.ready i).mp hi
    exact hout (hall.mem_iff.mpr (mem_range.mpr hlt))
  | succ fuel ih =>
    rw [Kahn.run]
    split
    next hr =>
      exact ⟨h, hr⟩
    rename_i index rest hr
    refine ih (h.round hr) ?_
    rw [foldl_release_order]
    simp only [length_append, length_singleton]
    omega

/-- The order of all numbers below `count`, when the constraints allow one. -/
def topological (before : Nat → Nat → Bool) (count : Nat) : List Nat × Bool :=
  let order := (run before count count (start before count)).order
  (order, order.length == count)

theorem inv_topological (before : Nat → Nat → Bool) (count : Nat) :
    Inv before count (run before count count (start before count)) ∧
    (run before count count (start before count)).ready = [] :=
  inv_start.run (Nat.le_add_left count _)

theorem perm_of_topological (h : (topological before count).2 = true) :
    (topological before count).1.Perm (range count) := by
  have hlen : (topological before count).1.length = count := by simpa [topological] using h
  exact (inv_topological before count).1.perm hlen.ge

theorem idxOf_lt_of_topological (h : (topological before count).2 = true) {a b : Nat} (hab : Edge before count a b) :
    (topological before count).1.idxOf a < (topological before count).1.idxOf b := by
  obtain ⟨ha, hb, hab⟩ := hab
  obtain ⟨pre, post, heq, hpre⟩ := eq_append_cons_of_mem ((perm_of_topological h).mem_iff.mpr (mem_range.mpr hb))
  have hmem := (inv_topological before count).1.earlier b pre post heq a ha hab
  rw [heq, idxOf_append_of_mem hmem, idxOf_append_of_notMem hpre, idxOf_cons_self]
  exact Nat.lt_add_right 0 (idxOf_lt_length_iff.mpr hmem)

/-- A finite relation without cycles has a number without predecessors in every set that is not empty. -/
theorem exists_minimal_of_acyclic (hac : Acyclic before count) {P : Nat → Prop} {i : Nat} (hi : i < count) (hP : P i) :
    ∃ j, j < count ∧ P j ∧ ∀ k, k < count → P k → before k j = false := by
  let r : Fin count → Fin count → Prop := fun a b => Relation.TransGen (Edge before count) a b
  have : Std.Irrefl r := ⟨fun a ha => hac a ha⟩
  have hwf : WellFounded r := Finite.wellFounded_of_trans_of_irrefl r
  obtain ⟨m, hm, hmin⟩ := hwf.has_min {a : Fin count | P a} ⟨⟨i, hi⟩, hP⟩
  refine ⟨m, m.isLt, hm, fun k hk hPk => Bool.eq_false_iff.mpr fun hb => ?_⟩
  exact hmin ⟨k, hk⟩ hPk (.single ⟨hk, m.isLt, hb⟩)

theorem topological_iff_acyclic : (topological before count).2 = true ↔ Acyclic before count := by
  obtain ⟨hinv, hready⟩ := inv_topological before count
  constructor
  · intro h i hcycle
    have hchain : ∀ a b, Relation.TransGen (Edge before count) a b →
        (topological before count).1.idxOf a < (topological before count).1.idxOf b := by
      intro a b hab
      induction hab with
      | single h1 => exact idxOf_lt_of_topological h h1
      | tail _ h1 ih => exact ih.trans (idxOf_lt_of_topological h h1)
    exact lt_irrefl _ (hchain i i hcycle)
  · intro hac
    by_contra hne
    obtain ⟨i, hi, hout⟩ : ∃ i, i < count ∧ i ∉ (run before count count (start before count)).order := by
      by_contra hall
      push Not at hall
      have hperm : (run before count count (start before count)).order.Perm (range count) :=
        (perm_ext_iff_of_nodup hinv.nodup nodup_range).mpr fun i =>
          ⟨fun h => mem_range.mpr (hinv.bound i h), fun h => hall i (mem_range.mp h)⟩
      exact hne (by simpa [topological] using hperm.length_eq)
    obtain ⟨j, hj, hjout, hjmin⟩ := exists_minimal_of_acyclic hac
      (P := fun i => i ∉ (run before count count (start before count)).order) hi hout
    have hnil : waiting before count (run before count count (start before count)).order j = [] := by
      rw [eq_nil_iff_forall_not_mem]
      intro k hk
      obtain ⟨hklt, hb, hkout⟩ := mem_waiting.mp hk
      rw [hjmin k hklt hkout] at hb
      cases hb
    have hmem := (hinv.ready j).mpr ⟨hj, hjout, by rw [hinv.indegree j hj, hnil]; rfl⟩
    rw [hready] at hmem
    exact not_mem_nil hmem

end Kahn
end Lib
