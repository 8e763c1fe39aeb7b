import Mathlib.Data.Nat.ModEq

/-! A queue in a ring of slots: `head` is the oldest element, `tail` the slot after the newest, and indices wrap at
    the number of slots. A slot that is not in use holds the default value. -/

namespace Lib
open List

structure RingBuffer (α : Type) where
  cells : List α := []
  head : Nat := 0
  tail : Nat := 0
  count : Nat := 0

namespace RingBuffer
variable {α : Type} {r : RingBuffer α}

def push (r : RingBuffer α) (x : α) : RingBuffer α :=
  { r with cells := r.cells.set r.tail x, tail := (r.tail + 1) % r.cells.length, count := r.count + 1 }

structure Valid (r : RingBuffer α) : Prop where
  count_le : r.count ≤ r.cells.length
  head_lt : 0 < r.cells.length → r.head < r.cells.length
  tail_eq : 0 < r.cells.length → r.tail = (r.head + r.count) % r.cells.length

theorem valid_empty : ({} : RingBuffer α).Valid :=
  ⟨Nat.le_refl 0, fun h => absurd h (Nat.lt_irrefl 0), fun h => absurd h (Nat.lt_irrefl 0)⟩

@[simp] theorem length_cells_push (x : α) : (r.push x).cells.length = r.cells.length := by simp [push]

theorem Valid.push (h : r.Valid) (hc : r.count < r.cells.length) (x : α) : (r.push x).Valid where
  count_le := by
    rw [length_cells_push]
    exact hc
  head_lt _ := by
    rw [length_cells_push]
    exact h.head_lt (Nat.zero_lt_of_lt hc)
  tail_eq _ := by
    rw [length_cells_push]
    show (r.tail + 1) % r.cells.length = (r.head + (r.count + 1)) % r.cells.length
    rw [h.tail_eq (Nat.zero_lt_of_lt hc), Nat.mod_add_mod, Nat.add_assoc]

theorem slot_ne (head : Nat) {n i j : Nat} (hi : i < n) (hj : j < n) (hij : i ≠ j) :
    (head + i) % n ≠ (head + j) % n := by
  intro h
  have hmod : i ≡ j [MOD n] := Nat.ModEq.add_left_cancel' head h
  exact hij (Nat.ModEq.eq_of_lt_of_lt hmod hi hj)

variable [Inhabited α]

def ofSize (n : Nat) : RingBuffer α := { cells := replicate n default }

def front (r : RingBuffer α) : α := r.cells.getD r.head default

def pop (r : RingBuffer α) : RingBuffer α :=
  { r with cells := r.cells.set r.head default, head := (r.head + 1) % r.cells.length, count := r.count - 1 }

def contents (r : RingBuffer α) : List α :=
  (range r.count).map fun i => r.cells.getD ((r.head + i) % r.cells.length) default

variable {r : RingBuffer α}

@[simp] theorem contents_empty : (({} : RingBuffer α)).contents = [] := rfl

@[simp] theorem contents_ofSize (n : Nat) : (ofSize n : RingBuffer α).contents = [] := rfl

theorem valid_ofSize (n : Nat) : (ofSize n : RingBuffer α).Valid := by
  refine ⟨Nat.zero_le _, fun h => h, fun h => ?_⟩
  simp [ofSize]

@[simp] theorem length_cells_pop : r.pop.cells.length = r.cells.length := by simp [pop]

theorem contents_push (h : r.Valid) (hc : r.count < r.cells.length) (x : α) :
    (r.push x).contents = r.contents ++ [x] := by
  have hpos : 0 < r.cells.length := Nat.zero_lt_of_lt hc
  have htail := h.tail_eq hpos
  unfold contents
  rw [length_cells_push]
  simp only [RingBuffer.push, range_succ, map_append, map_cons, map_nil]
  congr 1
  · refine map_congr_left fun i hi => ?_
    have hi' : i < r.count := mem_range.mp hi
    have hne : r.tail ≠ (r.head + i) % r.cells.length := by
      rw [htail]
      exact slot_ne r.head hc (Nat.lt_trans hi' hc) (Nat.ne_of_gt hi')
    simp only [getD_eq_getElem?_getD, getElem?_set_ne hne]
  · have hlt : r.tail < r.cells.length := htail ▸ Nat.mod_lt _ hpos
    rw [← htail]
    simp [getD_eq_getElem?_getD, hlt]

theorem Valid.pop (h : r.Valid) (hc : 0 < r.count) : r.pop.Valid := by
  have hpos : 0 < r.cells.length := Nat.lt_of_lt_of_le hc h.count_le
  refine ⟨?_, fun _ => ?_, fun _ => ?_⟩
  · rw [length_cells_pop]
    exact Nat.le_trans (Nat.sub_le _ _) h.count_le
  · rw [length_cells_pop]
    exact Nat.mod_lt _ hpos
  · rw [length_cells_pop]
    show r.tail = ((r.head + 1) % r.cells.length + (r.count - 1)) % r.cells.length
    rw [h.tail_eq hpos, Nat.mod_add_mod]
    congr 1
    omega

theorem contents_pop (h : r.Valid) (hc : 0 < r.count) : r.contents = r.front :: r.pop.contents := by
  have hpos : 0 < r.cells.length := Nat.lt_of_lt_of_le hc h.count_le
  obtain ⟨n, hn⟩ : ∃ n, r.count = n + 1 := ⟨r.count - 1, by omega⟩
  unfold contents front
  rw [length_cells_pop, hn, range_succ_eq_map, map_cons, map_map]
  congr 1
  · rw [Nat.add_zero, Nat.mod_eq_of_lt (h.head_lt hpos)]
  · show _ = (range (r.count - 1)).map _
    rw [hn]
    refine map_congr_left fun i hi => ?_
    have hi' : i < n := mem_range.mp hi
    have hidx : (r.pop.head + i) % r.cells.length = (r.head + (i + 1)) % r.cells.length := by
      show ((r.head + 1) % r.cells.length + i) % r.cells.length = _
      rw [Nat.mod_add_mod]
      congr 1
      omega
    have hne : r.head ≠ (r.head + (i + 1)) % r.cells.length := by
      have := slot_ne r.head (i := 0) (j := i + 1) hpos (by have := h.count_le; omega) (by omega)
      rwa [Nat.add_zero, Nat.mod_eq_of_lt (h.head_lt hpos)] at this
    rw [hidx]
    simp only [Function.comp_apply, Nat.succ_eq_add_one, pop, getD_eq_getElem?_getD, getElem?_set_ne hne]

end RingBuffer
end Lib
