import Mathlib.Algebra.Order.BigOperators.Group.List
import Mathlib.Algebra.Order.Ring.Int
import Mathlib.Tactic.Abel
import Wippy.Lib.Map

/-! Sums over the values of a finite map, and how writing or erasing a key changes them. -/

namespace Lib.Map
variable {κ α : Type} [DecidableEq κ] {β : Type}

def sum {β : Type} [AddCommGroup β] (m : Map κ α) (f : α → β) : β := (m.entries.map fun x => f x.2).sum

theorem sum_kerase [AddCommGroup β] (f : α → β) (k : κ) (l : List (Sigma fun _ : κ => α)) :
    ((l.kerase k).map fun x => f x.2).sum + (l.dlookup k).elim 0 f = (l.map fun x => f x.2).sum := by
  induction l with
  | nil => simp
  | cons x l ih =>
    obtain ⟨k', v⟩ := x
    by_cases hk : k = k'
    · subst hk
      have herase : (⟨k, v⟩ :: l).kerase k = l := List.kerase_cons_eq rfl
      rw [herase, List.dlookup_cons_eq, List.map_cons, List.sum_cons, Option.elim_some, add_comm]
    · rw [List.kerase_cons_ne hk, List.dlookup_cons_ne _ _ hk, List.map_cons, List.map_cons, List.sum_cons,
        List.sum_cons, ← ih,
        add_assoc]

theorem sum_insert [AddCommGroup β] (m : Map κ α) (f : α → β) (k : κ) (v : α) :
    sum (m.insert k v) f + (m.lookup k).elim 0 f = m.sum f + f v := by
  have herase := sum_kerase f k m.entries
  unfold sum
  rw [AList.entries_insert, List.map_cons, List.sum_cons, ← herase]
  abel

theorem sum_erase [AddCommGroup β] (m : Map κ α) (f : α → β) (k : κ) :
    sum (m.erase k) f + (m.lookup k).elim 0 f = m.sum f :=
  sum_kerase f k m.entries

theorem sum_congr [AddCommGroup β] {m m' : Map κ α} (h : ∀ k, m.lookup k = m'.lookup k) (f : α → β) :
    m.sum f = m'.sum f := by
  have hperm : m.entries.Perm m'.entries := List.lookup_ext m.nodupKeys m'.nodupKeys fun k v => by
    rw [← AList.lookup, ← AList.lookup, h]
  exact (hperm.map _).sum_eq

theorem sum_nonneg (m : Map κ α) (f : α → Int) (h : ∀ k v, m.lookup k = some v → 0 ≤ f v) : 0 ≤ m.sum f := by
  refine List.sum_nonneg fun x hx => ?_
  obtain ⟨y, hy, rfl⟩ := List.mem_map.mp hx
  exact h y.1 y.2 (mem_entries.mp hy)

end Lib.Map
