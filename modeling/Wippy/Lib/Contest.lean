import Mathlib.Data.Set.Basic
import Mathlib.Data.List.Induction

/-! Registers filled by contest: an offered value takes the place of the held one exactly when it beats it. Nothing is
    assumed of `beats`, so the outcome may depend on the order of the offers. -/

namespace Lib
open List

variable {α : Type} {beats : α → α → Bool} {S : Set α} {c x : α} {l : List α}

def offer (beats : α → α → Bool) (cur : Option α) (x : α) : Option α :=
  match cur with
  | none => some x
  | some c => if beats x c then some x else some c

def contest (beats : α → α → Bool) (l : List α) : Option α := l.foldl (offer beats) none

/-- A member of `S` that no member beats and that beats every other member. -/
structure Champion (beats : α → α → Bool) (S : Set α) (c : α) : Prop where
  mem : c ∈ S
  unbeaten : ∀ x ∈ S, beats x c = false
  wins : ∀ x ∈ S, x ≠ c → beats c x = true

theorem contest_append (l : List α) (x : α) : contest beats (l ++ [x]) = offer beats (contest beats l) x := by
  simp [contest]

theorem offer_isSome (cur : Option α) (x : α) : (offer beats cur x).isSome := by
  unfold offer
  split
  · rfl
  · split <;> rfl

theorem contest_mem (l : List α) : ∀ c, contest beats l = some c → c ∈ l := by
  induction l using reverseRecOn with
  | nil => intro c hc; cases hc
  | append_singleton l x ih =>
    intro c hc
    rw [contest_append] at hc
    cases hd : contest beats l with
    | none =>
      simp only [hd, offer, Option.some.injEq] at hc
      simp [hc]
    | some d =>
      simp only [hd, offer] at hc
      split at hc
      · cases hc
        simp
      · cases hc
        exact mem_append_left _ (ih c hd)

theorem contest_eq_none (h : contest beats l = none) : l = [] := by
  induction l using reverseRecOn with
  | nil => rfl
  | append_singleton l x _ =>
    rw [contest_append] at h
    have hsome : (offer beats (contest beats l) x).isSome := offer_isSome _ x
    rw [h] at hsome
    cases hsome

theorem Champion.contest_eq (hc : Champion beats S c) (hl : ∀ x ∈ l, x ∈ S) (hmem : c ∈ l) :
    contest beats l = some c := by
  induction l using reverseRecOn with
  | nil => cases hmem
  | append_singleton l x ih =>
    have hx : x ∈ S := hl x (by simp)
    have hl' : ∀ y ∈ l, y ∈ S := fun y hy => hl y (mem_append_left _ hy)
    rw [contest_append]
    by_cases hcl : c ∈ l
    · simp [ih hl' hcl, offer, hc.unbeaten x hx]
    obtain rfl : c = x := by simpa [hcl] using hmem
    cases hd : contest beats l with
    | none => rfl
    | some d =>
      have hdl := contest_mem l d hd
      have hne : d ≠ c := fun h => hcl (h ▸ hdl)
      simp [offer, hc.wins d (hl' d hdl) hne]

/-- Every two orders of offers of `S`, with any repetitions, leave the same value. -/
def Settles (beats : α → α → Bool) (S : Set α) : Prop :=
  ∀ l₁ l₂ : List α, (∀ x, x ∈ l₁ ↔ x ∈ S) → (∀ x, x ∈ l₂ ↔ x ∈ S) → contest beats l₁ = contest beats l₂

/-- A finite set settles a register exactly when it is empty or has a champion, provided that of two
    different members one beats the other. -/
theorem settles_iff_champion (hfin : ∃ l : List α, ∀ x, x ∈ l ↔ x ∈ S) (irrefl : ∀ x ∈ S, beats x x = false)
    (total : ∀ x ∈ S, ∀ y ∈ S, x ≠ y → beats x y = true ∨ beats y x = true) :
    Settles beats S ↔ (∀ x, x ∉ S) ∨ ∃ c, Champion beats S c := by
  constructor
  · intro hs
    obtain ⟨l, hl⟩ := hfin
    cases hc : contest beats l with
    | none =>
      left
      intro x hx
      have := (hl x).mpr hx
      rw [contest_eq_none hc] at this
      cases this
    | some c =>
      right
      have hcS : c ∈ S := (hl c).mp (contest_mem l c hc)
      -- Offering a member once more may not change the outcome, so no member beats `c`.
      have unbeaten : ∀ x ∈ S, beats x c = false := by
        intro x hx
        have hl' : ∀ y, y ∈ l ++ [x] ↔ y ∈ S := by
          intro y
          rw [mem_append, mem_singleton, hl y]
          exact ⟨fun h => h.elim id fun h => h ▸ hx, Or.inl⟩
        have heq := hs (l ++ [x]) l hl' hl
        rw [contest_append, hc] at heq
        cases hb : beats x c with
        | false => rfl
        | true =>
          simp only [offer, hb, if_true, Option.some.injEq] at heq
          rw [heq, irrefl c hcS] at hb
          cases hb
      refine ⟨c, hcS, unbeaten, fun x hx hne => ?_⟩
      rcases total x hx c hcS hne with h | h
      · rw [unbeaten x hx] at h
        cases h
      · exact h
  · rintro (hempty | ⟨c, hc⟩) l₁ l₂ h₁ h₂
    · have nil : ∀ l, (∀ x, x ∈ l ↔ x ∈ S) → l = [] := fun l hl =>
        eq_nil_iff_forall_not_mem.mpr fun x hx => hempty x ((hl x).mp hx)
      rw [nil l₁ h₁, nil l₂ h₂]
    · rw [hc.contest_eq (fun x hx => (h₁ x).mp hx) ((h₁ c).mpr hc.mem),
        hc.contest_eq (fun x hx => (h₂ x).mp hx) ((h₂ c).mpr hc.mem)]

/-- `beats` is a strict total order on `S`. -/
structure Ranks (beats : α → α → Bool) (S : Set α) : Prop where
  asymm : ∀ x ∈ S, ∀ y ∈ S, beats x y = true → beats y x = false
  trans : ∀ x ∈ S, ∀ y ∈ S, ∀ z ∈ S, beats x y = true → beats y z = true → beats x z = true
  total : ∀ x ∈ S, ∀ y ∈ S, x ≠ y → beats x y = true ∨ beats y x = true

theorem Ranks.wins (h : Ranks beats S) (hl : ∀ x ∈ l, x ∈ S) (hc : contest beats l = some c) :
    ∀ y ∈ l, y ≠ c → beats c y = true := by
  induction l using reverseRecOn generalizing c with
  | nil => cases hc
  | append_singleton l x ih =>
    have hx : x ∈ S := hl x (by simp)
    have hl' : ∀ y ∈ l, y ∈ S := fun y hy => hl y (mem_append_left _ hy)
    rw [contest_append] at hc
    simp only [mem_append, mem_singleton]
    cases hd : contest beats l with
    | none =>
      rw [hd] at hc
      cases hc
      rintro y (hy | rfl) hne
      · exact absurd (contest_eq_none hd ▸ hy) not_mem_nil
      · exact absurd rfl hne
    | some d =>
      have hdS := hl' d (contest_mem l d hd)
      rw [hd, offer] at hc
      split at hc
      next hb =>
        cases hc
        rintro y (hy | rfl) hne
        · -- The new value beats the champion so far, and through it all the others.
          by_cases hyd : y = d
          · exact hyd ▸ hb
          · exact h.trans x hx d hdS y (hl' y hy) hb (ih hl' hd y hy hyd)
        · exact absurd rfl hne
      next hb =>
        cases hc
        rintro y (hy | rfl) hne
        · exact ih hl' hd y hy hne
        · exact (h.total y hx c hdS hne).resolve_left hb

theorem Ranks.contest_eq_some_iff (h : Ranks beats S) (hl : ∀ x, x ∈ l ↔ x ∈ S) :
    contest beats l = some c ↔ Champion beats S c := by
  refine ⟨fun hc => ?_, fun hc => hc.contest_eq (fun x hx => (hl x).mp hx) ((hl c).mpr hc.mem)⟩
  have hmem := (hl c).mp (contest_mem l c hc)
  have hwins : ∀ x ∈ S, x ≠ c → beats c x = true := fun x hx =>
    h.wins (fun x hx => (hl x).mp hx) hc x ((hl x).mpr hx)
  refine ⟨hmem, fun x hx => ?_, hwins⟩
  by_cases hne : x = c
  · subst hne
    exact Bool.eq_false_iff.mpr fun hb => Bool.false_ne_true ((h.asymm x hx x hx hb).symm.trans hb)
  · exact h.asymm c hmem x hx (hwins x hx hne)

theorem contest_map {β : Type} {beats' : β → β → Bool} (f : α → β)
    (hl : ∀ x ∈ l, ∀ y ∈ l, beats' (f x) (f y) = beats x y) :
    contest beats' (l.map f) = (contest beats l).map f := by
  induction l using reverseRecOn with
  | nil => rfl
  | append_singleton l x ih =>
    have hl' : ∀ y ∈ l, ∀ z ∈ l, beats' (f y) (f z) = beats y z := fun y hy z hz =>
      hl y (mem_append_left _ hy) z (mem_append_left _ hz)
    rw [map_append, map_singleton, contest_append, contest_append, ih hl']
    cases hc : contest beats l with
    | none => rfl
    | some c =>
      have hbeats := hl x (by simp) c (mem_append_left _ (contest_mem l c hc))
      rw [Option.map_some, offer, offer, hbeats]
      split <;> rfl

end Lib
