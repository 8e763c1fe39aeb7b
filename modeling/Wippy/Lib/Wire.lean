import Wippy.Lib.Except
import Mathlib.Algebra.Group.Nat.Defs

/-! Binary formats: numbers, length-prefixed fields, and readers. `Reads r bs a` says that `r` reads exactly `bs` as
    `a`, whatever follows. -/

namespace Lib.Wire

/-! ### Little-endian numbers -/

def le : Nat → Nat → List UInt8
  | 0, _ => []
  | n + 1, v => UInt8.ofNat v :: le n (v / 256)

def ofLE : List UInt8 → Nat
  | [] => 0
  | b :: bs => b.toNat + 256 * ofLE bs

@[simp] theorem length_le (n v : Nat) : (le n v).length = n := by
  induction n generalizing v with
  | zero => rfl
  | succ n ih => simp [le, ih]

theorem ofLE_le (n v : Nat) : ofLE (le n v) = v % 256 ^ n := by
  induction n generalizing v with
  | zero => simp [le, ofLE, Nat.mod_one]
  | succ n ih =>
    have hb : (UInt8.ofNat v).toNat = v % 256 := UInt8.toNat_ofNat'
    rw [le, ofLE, ih, hb, Nat.pow_succ, Nat.mul_comm (256 ^ n) 256, Nat.mod_mul]

/-! ### Big-endian numbers -/

def be (n v : Nat) : List UInt8 := (le n v).reverse

/-- The number that bytes stand for, highest first. -/
def ofBE (bs : List UInt8) : Nat := ofLE bs.reverse

@[simp] theorem length_be (n v : Nat) : (be n v).length = n := by simp [be]

theorem ofBE_be (n v : Nat) : ofBE (be n v) = v % 256 ^ n := by
  unfold ofBE be
  rw [List.reverse_reverse, ofLE_le]

/-- A value off the front of a byte string and what is left, or nothing when the string is too short. -/
abbrev Reader (α : Type) := StateT (List UInt8) Option α

variable {α β : Type}

def take (n : Nat) : Reader (List UInt8) := fun b => if n ≤ b.length then some (b.take n, b.drop n) else none

def byte : Reader UInt8 := fun b =>
  match b with
  | [] => none
  | x :: rest => some (x, rest)

def u16 : Reader UInt16 := do return UInt16.ofNat (ofLE (← take 2))
def u32 : Reader UInt32 := do return UInt32.ofNat (ofLE (← take 4))
def u64 : Reader UInt64 := do return UInt64.ofNat (ofLE (← take 8))

/-- `r` reads exactly `bs`, as `a`, whatever follows. -/
def Reads (r : Reader α) (bs : List UInt8) (a : α) : Prop := ∀ rest, r (bs ++ rest) = some (a, rest)

theorem Reads.pure (a : α) : Reads (pure a) [] a := fun _ => rfl

theorem Reads.bind {r : Reader α} {f : α → Reader β} {bs cs : List UInt8} {a : α} {b : β} (hr : Reads r bs a)
    (hf : Reads (f a) cs b) : Reads (r >>= f) (bs ++ cs) b := fun rest => by
  show (r (bs ++ cs ++ rest)).bind _ = _
  rw [List.append_assoc, hr]
  exact hf rest

theorem Reads.map {r : Reader α} {bs : List UInt8} {a : α} (hr : Reads r bs a) (f : α → β) :
    Reads (do return f (← r)) bs (f a) := by
  have := hr.bind (f := fun a => Pure.pure (f a)) (Reads.pure (f a))
  rwa [List.append_nil] at this

theorem reads_take (bs : List UInt8) : Reads (take bs.length) bs bs := fun rest => by
  simp [take]

theorem reads_take_of {n : Nat} {bs : List UInt8} (h : n = bs.length) : Reads (take n) bs bs := h ▸ reads_take bs

theorem reads_byte (x : UInt8) : Reads byte [x] x := fun _ => rfl

theorem reads_u16 (v : UInt16) : Reads u16 (le 2 v.toNat) v := by
  have h := (reads_take (le 2 v.toNat)).map fun l => UInt16.ofNat (ofLE l)
  have hv : v.toNat % 256 ^ 2 = v.toNat := Nat.mod_eq_of_lt v.toNat_lt
  rw [ofLE_le, hv, UInt16.ofNat_toNat] at h
  exact h

theorem reads_u32 (v : UInt32) : Reads u32 (le 4 v.toNat) v := by
  have h := (reads_take (le 4 v.toNat)).map fun l => UInt32.ofNat (ofLE l)
  have hv : v.toNat % 256 ^ 4 = v.toNat := Nat.mod_eq_of_lt v.toNat_lt
  rw [ofLE_le, hv, UInt32.ofNat_toNat] at h
  exact h

theorem reads_u64 (v : UInt64) : Reads u64 (le 8 v.toNat) v := by
  have h := (reads_take (le 8 v.toNat)).map fun l => UInt64.ofNat (ofLE l)
  have hv : v.toNat % 256 ^ 8 = v.toNat := Nat.mod_eq_of_lt v.toNat_lt
  rw [ofLE_le, hv, UInt64.ofNat_toNat] at h
  exact h

theorem reads_u16_ofNat {n : Nat} (h : n < 2 ^ 16) : Reads u16 (le 2 n) (UInt16.ofNat n) := by
  have hn : (UInt16.ofNat n).toNat = n := UInt16.toNat_ofNat_of_lt' h
  simpa only [hn] using reads_u16 (UInt16.ofNat n)

theorem reads_u32_ofNat {n : Nat} (h : n < 2 ^ 32) : Reads u32 (le 4 n) (UInt32.ofNat n) := by
  have hn : (UInt32.ofNat n).toNat = n := UInt32.toNat_ofNat_of_lt' h
  simpa only [hn] using reads_u32 (UInt32.ofNat n)

end Lib.Wire
