import Mathlib.Data.Finset.Card
import Wippy.Lib.ByteOrder

/-! The orders in which a hash map may hand out its keys, and sorting, which forgets them. -/

namespace Lib

structure MapRange (κ : Type) [DecidableEq κ] where
  keys : Finset κ → List κ
  nodup : ∀ s, (keys s).Nodup
  toFinset : ∀ s, (keys s).toFinset = s

namespace MapRange
variable {κ : Type} [DecidableEq κ]

theorem mem_keys (range : MapRange κ) {s : Finset κ} {k : κ} : k ∈ range.keys s ↔ k ∈ s := by
  rw [← List.mem_toFinset, range.toFinset]

end MapRange

/-- A list and its permutations are sorted alike when the order tells its members apart. -/
theorem insertionSort_congr {α : Type} {r : α → α → Prop} [DecidableRel r] (htotal : ∀ a b, r a b ∨ r b a)
    (htrans : ∀ a b c, r a b → r b c → r a c) {l l' : List α} (hanti : ∀ a ∈ l, ∀ b ∈ l, r a b → r b a → a = b)
    (h : l.Perm l') : l.insertionSort r = l'.insertionSort r := by
  have : Std.Total r := ⟨htotal⟩
  have : IsTrans α r := ⟨htrans⟩
  have hl := List.pairwise_insertionSort r l
  have hl' := List.pairwise_insertionSort r l'
  refine List.Perm.eq_of_pairwise ?_ hl hl' ?_
  · intro a b ha hb
    exact hanti a ((List.perm_insertionSort r l).mem_iff.mp ha) b
      (h.mem_iff.mpr ((List.perm_insertionSort r l').mem_iff.mp hb))
  · exact (List.perm_insertionSort r l).trans (h.trans (List.perm_insertionSort r l').symm)

namespace MapRange

/-- The keys put in order and then through `arrange`. -/
def sorted {κ : Type} [DecidableEq κ] {r : κ → κ → Prop} [DecidableRel r] (htotal : ∀ a b, r a b ∨ r b a)
    (htrans : ∀ a b c, r a b → r b c → r a c) (hanti : ∀ a b, r a b → r b a → a = b) (arrange : List κ → List κ)
    (h : ∀ l, (arrange l).Perm l) : MapRange κ where
  keys s := Quotient.lift (fun l : List κ => arrange (l.insertionSort r))
    (fun _ _ hl => by rw [insertionSort_congr htotal htrans (fun a _ b _ => hanti a b) hl]) s.1
  nodup := by
    rintro ⟨⟨l⟩, hl⟩
    exact ((h _).trans (List.perm_insertionSort _ l)).nodup_iff.mpr hl
  toFinset := by
    rintro ⟨⟨l⟩, hl⟩
    ext k
    rw [List.mem_toFinset]
    exact ((h _).trans (List.perm_insertionSort _ l)).mem_iff

end MapRange
end Lib
