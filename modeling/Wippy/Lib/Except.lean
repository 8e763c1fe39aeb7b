/-! Computations that may fail, read backwards from their result. -/

namespace Lib
variable {ε α β : Type} {x : Except ε α} {a : α} {b : β}

theorem exists_of_bind_eq_ok {f : α → Except ε β} (h : x >>= f = .ok b) : ∃ a, x = .ok a ∧ f a = .ok b := by
  cases x with
  | error err => cases h
  | ok a => exact ⟨a, rfl, h⟩

theorem exists_of_map_eq_ok {f : α → β} (h : x.map f = .ok b) : ∃ a, x = .ok a ∧ f a = b := by
  cases x with
  | error err => cases h
  | ok a => exact ⟨a, rfl, Except.ok.inj h⟩

theorem eq_ok_of_toOption (h : x.toOption = some a) : x = .ok a := by
  cases x with
  | error err => cases h
  | ok b => exact congrArg Except.ok (Option.some.inj h)

theorem foldlM_induction {motive : β → Prop} {f : β → α → Except ε β} {l : List α} {b' : β}
    (h : l.foldlM f b = .ok b') (hb : motive b)
    (hstep : ∀ b a b', a ∈ l → motive b → f b a = .ok b' → motive b') : motive b' := by
  induction l generalizing b with
  | nil =>
    cases h
    exact hb
  | cons a l ih =>
    rw [List.foldlM_cons] at h
    obtain ⟨mid, hmid, h⟩ := exists_of_bind_eq_ok h
    exact ih h (hstep b a mid (.head l) hb hmid) fun b a b' ha => hstep b a b' (.tail _ ha)

theorem foldlM_append_eq_ok {f : α → Except ε (List β)} {l : List α} {acc out : List β}
    (h : l.foldlM (fun acc a => do return acc ++ (← f a)) acc = .ok out) :
    ∃ g : α → List β, out = acc ++ l.flatMap g ∧ ∀ a ∈ l, f a = .ok (g a) := by
  let g a := (f a).toOption.getD []
  refine ⟨g, ?_⟩
  induction l generalizing acc with
  | nil =>
    cases h
    simp
  | cons a l ih =>
    rw [List.foldlM_cons] at h
    obtain ⟨next, hnext, h⟩ := exists_of_bind_eq_ok h
    obtain ⟨first, hfirst, heq⟩ := exists_of_bind_eq_ok hnext
    cases heq
    have hg : g a = first := by simp only [g, hfirst, Except.toOption, Option.getD_some]
    obtain ⟨rfl, hrest⟩ := ih h
    rw [List.flatMap_cons, hg, List.append_assoc, List.forall_mem_cons, hg]
    exact ⟨rfl, hfirst, hrest⟩

end Lib
