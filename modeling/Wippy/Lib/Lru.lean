import Mathlib.Data.List.Basic

/-! Caches of bounded size that forget what was used least recently. -/

namespace Lib
open List

structure Lru (κ α : Type) where
  capacity : Nat
  items : List (κ × α) := []

namespace Lru
variable {κ α : Type} [DecidableEq κ] {c : Lru κ α} {k : κ} {v : α} {item : κ × α}

def new (capacity : Nat) : Lru κ α := { capacity := max 1 capacity }

def get (c : Lru κ α) (k : κ) : Option α × Lru κ α :=
  match c.items.find? fun item => decide (item.1 = k) with
  | none => (none, c)
  | some item => (some item.2, { c with items := item :: c.items.eraseP fun item => decide (item.1 = k) })

def set (c : Lru κ α) (k : κ) (v : α) : Lru κ α :=
  if c.items.any fun item => decide (item.1 = k) then
    { c with items := (k, v) :: c.items.eraseP fun item => decide (item.1 = k) }
  else if c.capacity < c.items.length + 1 then { c with items := ((k, v) :: c.items).dropLast }
  else { c with items := (k, v) :: c.items }

theorem mem_of_get (h : (c.get k).1 = some v) : (k, v) ∈ c.items := by
  unfold get at h
  split at h
  · cases h
  rename_i item hfind
  cases h
  have hkey : item.1 = k := by simpa using find?_some hfind
  rw [← hkey]
  exact mem_of_find?_eq_some hfind

theorem mem_items_get (h : item ∈ (c.get k).2.items) : item ∈ c.items := by
  unfold get at h
  split at h
  · exact h
  rename_i found hfind
  rcases mem_cons.mp h with rfl | h
  · exact mem_of_find?_eq_some hfind
  · exact mem_of_mem_eraseP h

theorem mem_items_set (h : item ∈ (c.set k v).items) : item = (k, v) ∨ item ∈ c.items := by
  unfold set at h
  split at h
  · exact (mem_cons.mp h).imp_right mem_of_mem_eraseP
  split at h
  · exact mem_cons.mp ((dropLast_sublist _).subset h)
  · exact mem_cons.mp h

theorem get_set_self (hcapacity : 1 ≤ c.capacity) : ((c.set k v).get k).1 = some v := by
  have hhead : ∃ rest, (c.set k v).items = (k, v) :: rest := by
    unfold set
    split
    · exact ⟨_, rfl⟩
    split
    next hfull =>
      cases hitems : c.items with
      | nil =>
        rw [hitems] at hfull
        exact absurd hfull (Nat.not_lt.mpr hcapacity)
      | cons item rest => exact ⟨_, rfl⟩
    · exact ⟨_, rfl⟩
  obtain ⟨rest, hitems⟩ := hhead
  unfold get
  rw [hitems, find?_cons_of_pos (by simp)]

end Lru
end Lib
