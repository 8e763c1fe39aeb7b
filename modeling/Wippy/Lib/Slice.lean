/-! Slices of numbers that grow on demand. A slot that was never written reads as zero, so growing a slice is
    not visible in its slots. -/

namespace Lib
variable {α : Type} [OfNat α 0] (l : List α)

/-- A slice grown as `make([]T, i+8)` and `copy` do, so that it has slot `i`. -/
def grow (l : List α) (i : Nat) : List α :=
  if l.length ≤ i then l ++ List.replicate (i + 8 - l.length) 0 else l

def slot (l : List α) (i : Nat) : α := l.getD i 0

theorem lt_length_grow (i : Nat) : i < (grow l i).length := by
  unfold grow
  split
  · simp only [List.length_append, List.length_replicate]
    omega
  · omega

theorem slot_append_zeros (n j : Nat) : slot (l ++ List.replicate n 0) j = slot l j := by
  unfold slot
  by_cases h : j < l.length
  · simp [List.getD_eq_getElem?_getD, List.getElem?_append_left h]
  · rw [List.getD_eq_getElem?_getD, List.getD_eq_getElem?_getD, List.getElem?_append_right (by omega),
      List.getElem?_eq_none (by omega : l.length ≤ j), List.getElem?_replicate]
    split <;> rfl

@[simp] theorem slot_grow (i j : Nat) : slot (grow l i) j = slot l j := by
  unfold grow
  split
  · exact slot_append_zeros l _ j
  · rfl

theorem slot_set {l : List α} {i : Nat} (h : i < l.length) (v : α) (j : Nat) :
    slot (l.set i v) j = if j = i then v else slot l j := by
  unfold slot
  rw [List.getD_eq_getElem?_getD, List.getD_eq_getElem?_getD, List.getElem?_set]
  by_cases hj : j = i
  · subst hj
    simp [h]
  · rw [if_neg (Ne.symm hj), if_neg hj]

theorem slot_set_zero (i j : Nat) : slot (l.set i 0) j = if j = i then 0 else slot l j := by
  by_cases h : i < l.length
  · exact slot_set h 0 j
  rw [List.set_eq_of_length_le (by omega)]
  split
  next hj =>
    simp [slot, List.getD_eq_getElem?_getD, List.getElem?_eq_none (by omega : l.length ≤ j)]
  · rfl

end Lib
