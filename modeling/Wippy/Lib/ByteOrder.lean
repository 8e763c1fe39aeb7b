import Mathlib.Data.List.Sort

/-! Byte strings in the order in which they are compared byte by byte, and the white space at their ends. -/

namespace Lib

def leBytes : List UInt8 → List UInt8 → Bool
  | [], _ => true
  | _ :: _, [] => false
  | a :: as, b :: bs => decide (a < b) || (a == b && leBytes as bs)

theorem leBytes_cons {a b : UInt8} {as bs : List UInt8} :
    leBytes (a :: as) (b :: bs) = true ↔ a < b ∨ a = b ∧ leBytes as bs = true := by
  simp [leBytes]

theorem leBytes_total (x y : List UInt8) : leBytes x y = true ∨ leBytes y x = true := by
  induction x generalizing y with
  | nil => exact .inl rfl
  | cons a as ih =>
    cases y with
    | nil => exact .inr rfl
    | cons b bs =>
      rw [leBytes_cons, leBytes_cons]
      by_cases hab : a = b
      · subst hab
        exact (ih bs).imp (fun h => .inr ⟨rfl, h⟩) fun h => .inr ⟨rfl, h⟩
      · exact (UInt8.lt_or_lt_of_ne hab).imp .inl .inl

theorem leBytes_trans {x y z : List UInt8} (hxy : leBytes x y = true) (hyz : leBytes y z = true) :
    leBytes x z = true := by
  induction x generalizing y z with
  | nil => rfl
  | cons a as ih =>
    cases y with
    | nil => cases hxy
    | cons b bs =>
      cases z with
      | nil => cases hyz
      | cons c cs =>
        rw [leBytes_cons] at hxy hyz ⊢
        rcases hxy with hab | ⟨rfl, hxy⟩
        · rcases hyz with hbc | ⟨rfl, -⟩
          · exact .inl (UInt8.lt_trans hab hbc)
          · exact .inl hab
        · exact hyz.imp_right fun ⟨hac, hyz⟩ => ⟨hac, ih hxy hyz⟩

theorem leBytes_antisymm {x y : List UInt8} (hxy : leBytes x y = true) (hyx : leBytes y x = true) : x = y := by
  induction x generalizing y with
  | nil =>
    cases y with
    | nil => rfl
    | cons => cases hyx
  | cons a as ih =>
    cases y with
    | nil => cases hxy
    | cons b bs =>
      rw [leBytes_cons] at hxy hyx
      rcases hxy with hab | ⟨rfl, hxy⟩
      · rcases hyx with hba | ⟨rfl, -⟩
        · exact absurd (UInt8.lt_trans hab hba) (UInt8.lt_irrefl a)
        · exact absurd hab (UInt8.lt_irrefl _)
      · rcases hyx with haa | ⟨-, hyx⟩
        · exact absurd haa (UInt8.lt_irrefl a)
        · rw [ih hxy hyx]

def sortBytes (l : List (List UInt8)) : List (List UInt8) := l.insertionSort fun a b => leBytes a b = true

def spaces : List (List UInt8) :=
  [[9], [10], [11], [12], [13], [32], [0xC2, 0x85], [0xC2, 0xA0], [0xE1, 0x9A, 0x80], [0xE2, 0x80, 0x80],
    [0xE2, 0x80, 0x81], [0xE2, 0x80, 0x82], [0xE2, 0x80, 0x83], [0xE2, 0x80, 0x84], [0xE2, 0x80, 0x85],
    [0xE2, 0x80, 0x86], [0xE2, 0x80, 0x87], [0xE2, 0x80, 0x88], [0xE2, 0x80, 0x89], [0xE2, 0x80, 0x8A],
    [0xE2, 0x80, 0xA8], [0xE2, 0x80, 0xA9], [0xE2, 0x80, 0xAF], [0xE2, 0x81, 0x9F], [0xE3, 0x80, 0x80]]

/-- Drop leading members of `words` as often as there is one, at most `fuel` times. -/
def dropWords (words : List (List UInt8)) : Nat → List UInt8 → List UInt8
  | 0, s => s
  | fuel + 1, s =>
    match words.find? fun w => w.isPrefixOf s with
    | none => s
    | some w => dropWords words fuel (s.drop w.length)

def trimSpace (s : List UInt8) : List UInt8 :=
  let left := dropWords spaces s.length s
  (dropWords (spaces.map List.reverse) left.length left.reverse).reverse

example : trimSpace [32, 9, 97, 32, 98, 0xC2, 0xA0, 10] = [97, 32, 98] := by decide

end Lib
