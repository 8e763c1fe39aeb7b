import Mathlib.Data.List.Perm.Basic

/-! What the elements of a list come to when one of them is replaced or removed. -/

namespace Lib
open List

variable {α β : Type} (g : α → List β) {l : List α} {i : Nat} {x : α} (h : l[i]? = some x)
include h

theorem eq_take_cons_drop : l = l.take i ++ x :: l.drop (i + 1) := by
  obtain ⟨hi, rfl⟩ := List.getElem?_eq_some_iff.mp h
  rw [getElem_cons_drop hi, take_append_drop]

theorem perm_flatMap_set (y : α) : ((l.set i y).flatMap g ++ g x).Perm (l.flatMap g ++ g y) := by
  have hl := congrArg (flatMap g) (eq_take_cons_drop h)
  rw [hl, set_eq_take_append_cons_drop, if_pos (List.getElem?_eq_some_iff.mp h).1]
  simp only [flatMap_append, flatMap_cons, append_assoc]
  refine .append_left _ ((perm_append_comm_assoc _ _ _).trans ?_)
  exact (Perm.append_left _ perm_append_comm).trans (perm_append_comm_assoc _ _ _)

theorem perm_flatMap_eraseIdx : ((l.eraseIdx i).flatMap g ++ g x).Perm (l.flatMap g) := by
  have hl := congrArg (flatMap g) (eq_take_cons_drop h)
  rw [hl, eraseIdx_eq_take_drop_succ]
  simp only [flatMap_append, flatMap_cons, append_assoc]
  exact .append_left _ perm_append_comm

end Lib
