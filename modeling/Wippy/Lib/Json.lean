import Mathlib.Data.List.Basic

/-! JSON values of strings, arrays and objects, and byte strings that tell them from what follows. -/

namespace Lib

/-- A JSON value: an array is a chain of items and an object a chain of named fields. -/
inductive Json
  | string (s : List UInt8)
  | done
  | item (value rest : Json)
  | field (name : String) (value rest : Json)
  deriving DecidableEq, Repr

namespace Json

def array (items : List Json) : Json := items.foldr item done

def strings (l : List (List UInt8)) : Json := array (l.map string)

def object (fields : List (String × Json)) : Json := fields.foldr (fun f rest => field f.1 f.2 rest) done

end Json

/-- The code of a value can be told from what follows it. -/
def Delimited {α : Type} (code : α → List UInt8) : Prop := ∀ a b s t, code a ++ s = code b ++ t → a = b ∧ s = t

/-- The bytes of a string, each behind a one, and a zero at the end. -/
def bytesCode : List UInt8 → List UInt8
  | [] => [0]
  | b :: s => 1 :: b :: bytesCode s

theorem delimited_bytesCode : Delimited bytesCode := by
  intro a
  induction a with
  | nil =>
    rintro (- | ⟨b, b'⟩) s t h
    · exact ⟨rfl, by simpa [bytesCode] using h⟩
    · simp [bytesCode] at h
  | cons x a ih =>
    rintro (- | ⟨y, b⟩) s t h
    · simp [bytesCode] at h
    · simp only [bytesCode, List.cons_append, List.cons.injEq, true_and] at h
      obtain ⟨rfl, hst⟩ := ih b s t h.2
      exact ⟨by rw [h.1], hst⟩

namespace Json

def code : Json → List UInt8
  | string s => 0 :: bytesCode s
  | done => [1]
  | item value rest => 2 :: (code value ++ code rest)
  | field name value rest => 3 :: (bytesCode name.toByteArray.data.toList ++ (code value ++ code rest))

theorem delimited_code : Delimited code := by
  intro a
  induction a with
  | string x =>
    intro b s t h
    cases b with
    | string y =>
      obtain ⟨rfl, hst⟩ := delimited_bytesCode x y s t (List.cons.inj h).2
      exact ⟨rfl, hst⟩
    | _ => simp [code] at h
  | done =>
    intro b s t h
    cases b with
    | done => exact ⟨rfl, (List.cons.inj h).2⟩
    | _ => simp [code] at h
  | item value rest ihvalue ihrest =>
    intro b s t h
    cases b with
    | item value' rest' =>
      simp only [code, List.cons_append, List.append_assoc, List.cons.injEq, true_and] at h
      obtain ⟨rfl, hrest⟩ := ihvalue _ _ _ h
      obtain ⟨rfl, hst⟩ := ihrest _ _ _ hrest
      exact ⟨rfl, hst⟩
    | _ => simp [code] at h
  | field name value rest ihvalue ihrest =>
    intro b s t h
    cases b with
    | field name' value' rest' =>
      simp only [code, List.cons_append, List.append_assoc, List.cons.injEq, true_and] at h
      obtain ⟨hname, hvalue⟩ := delimited_bytesCode _ _ _ _ h
      obtain ⟨rfl, hrest⟩ := ihvalue _ _ _ hvalue
      obtain ⟨rfl, hst⟩ := ihrest _ _ _ hrest
      rw [String.toByteArray_inj.mp (ByteArray.ext (Array.toList_inj.mp hname))]
      exact ⟨rfl, hst⟩
    | _ => simp [code] at h

theorem code_injective : Function.Injective code := fun a b h => (delimited_code a b [] [] (by rw [h])).1

end Json
end Lib
