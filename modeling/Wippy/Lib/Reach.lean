/-! Runs of a system whose steps are functions of the state and an event, which carries everything that a step does not
    read from the state. An interleaving is an order of events. -/

namespace Lib
variable {σ ε : Type} {step : σ → ε → σ} {allowed allowed' : σ → ε → Prop} {start s : σ} {es : List ε}
  {P Q : σ → Prop}

/-- The states that runs from `start` pass through when each event is allowed in the state it meets. -/
inductive Reach (step : σ → ε → σ) (allowed : σ → ε → Prop) (start : σ) : σ → Prop
  | start : Reach step allowed start start
  | step {s : σ} (e : ε) (hr : Reach step allowed start s) (he : allowed s e) : Reach step allowed start (step s e)

/-- Every event of a list is allowed in the state that the events before it lead to. -/
def Along (step : σ → ε → σ) (allowed : σ → ε → Prop) : σ → List ε → Prop
  | _, [] => True
  | s, e :: es => allowed s e ∧ Along step allowed (step s e) es

instance instDecidableAlong [∀ s e, Decidable (allowed s e)] :
    ∀ (s : σ) (es : List ε), Decidable (Along step allowed s es)
  | _, [] => .isTrue trivial
  | s, e :: es =>
    have := instDecidableAlong (step s e) es
    inferInstanceAs (Decidable (allowed s e ∧ Along step allowed (step s e) es))

namespace Reach

/-- What holds at the start and is kept by every allowed step holds in every state reached. -/
theorem invariant (start_inv : P start) (step_inv : ∀ s e, allowed s e → P s → P (step s e))
    (h : Reach step allowed start s) : P s := by
  induction h with
  | start => exact start_inv
  | step e _ he ih => exact step_inv _ e he ih

theorem mono (hall : ∀ s e, allowed s e → allowed' s e) (h : Reach step allowed start s) :
    Reach step allowed' start s := by
  induction h with
  | start => exact .start
  | step e _ he ih => exact ih.step e (hall _ e he)

theorem trans {t : σ} (h : Reach step allowed start s) (h' : Reach step allowed s t) : Reach step allowed start t := by
  induction h' with
  | start => exact h
  | step e _ he ih => exact ih.step e he

theorem along (h : Reach step allowed start s) (hes : Along step allowed s es) :
    Reach step allowed start (es.foldl step s) := by
  induction es generalizing s with
  | nil => exact h
  | cons e es ih => exact ih (h.step e hes.1) hes.2

theorem of_along (hes : Along step allowed start es) : Reach step allowed start (es.foldl step start) :=
  Reach.start.along hes

/-- A system whose every step another system matches by a run reaches only states that the other one matches. -/
theorem simulate {τ δ : Type} {step' : τ → δ → τ} {allowed' : τ → δ → Prop} {start' : τ} {R : σ → τ → Prop}
    (hstart : R start start')
    (hstep : ∀ s t e, allowed s e → R s t → ∃ t', R (step s e) t' ∧ Reach step' allowed' t t')
    (h : Reach step allowed start s) : ∃ t, R s t ∧ Reach step' allowed' start' t := by
  induction h with
  | start => exact ⟨start', hstart, .start⟩
  | step e _ he ih =>
    obtain ⟨t, hR, ht⟩ := ih
    obtain ⟨t', hR', ht'⟩ := hstep _ t e he hR
    exact ⟨t', hR', ht.trans ht'⟩

end Reach

theorem along_of_forall (hall : ∀ s e, allowed s e) (s : σ) (es : List ε) : Along step allowed s es := by
  induction es generalizing s with
  | nil => trivial
  | cons e es ih => exact ⟨hall s e, ih _⟩

theorem along_congr (hkeep : ∀ s e, P s → P (step s e)) (h : ∀ s e, P s → (allowed s e ↔ allowed' s e)) (hs : P s)
    (es : List ε) : Along step allowed s es ↔ Along step allowed' s es := by
  induction es generalizing s with
  | nil => exact Iff.rfl
  | cons e es ih => exact and_congr (h s e hs) (ih (hkeep s e hs))

theorem along_concat {e : ε} :
    Along step allowed s (es ++ [e]) ↔ Along step allowed s es ∧ allowed (es.foldl step s) e := by
  induction es generalizing s with
  | nil => exact ⟨fun h => ⟨trivial, h.1⟩, fun h => ⟨h.2, trivial⟩⟩
  | cons e' es ih => exact (and_congr_right fun _ => ih).trans and_assoc.symm

theorem Along.initial {pre es : List ε} (h : Along step allowed s es) (hpre : pre <+: es) :
    Along step allowed s pre := by
  induction pre generalizing s es with
  | nil => trivial
  | cons e pre ih =>
    obtain ⟨t, rfl⟩ := hpre
    exact ⟨h.1, ih h.2 ⟨t, rfl⟩⟩

/-- If `P` is kept by allowed events and `Q`, which it implies, fails right after the first event that is not allowed.
    -/
theorem along_iff_prefixes_of (good : ε → Prop) (hPQ : ∀ s, P s → Q s)
    (hkeep : ∀ s e, good e → P s → allowed s e → P (step s e))
    (hback : ∀ s e, good e → P s → Q (step s e) → allowed s e) (hs : P s) (es : List ε) (hes : ∀ e ∈ es, good e) :
    Along step allowed s es ↔ ∀ pre, pre <+: es → Q (pre.foldl step s) := by
  induction es generalizing s with
  | nil =>
    refine ⟨fun _ pre hpre => ?_, fun _ => trivial⟩
    rw [List.prefix_nil.mp hpre]
    exact hPQ s hs
  | cons e es ih =>
    have hgood := hes e List.mem_cons_self
    have ih := fun he : allowed s e => ih (hkeep s e hgood hs he) fun e' he' => hes e' (List.mem_cons_of_mem _ he')
    constructor
    · rintro ⟨he, hrest⟩ pre hpre
      rcases List.prefix_cons_iff.mp hpre with rfl | ⟨pre', rfl, hpre'⟩
      · exact hPQ s hs
      · exact (ih he).mp hrest pre' hpre'
    · intro h
      have he : allowed s e := hback s e hgood hs (h [e] ((List.prefix_cons_inj e).mpr ⟨es, rfl⟩))
      refine ⟨he, (ih he).mpr fun pre hpre => ?_⟩
      exact h (e :: pre) ((List.prefix_cons_inj e).mpr hpre)

theorem along_iff_prefixes (hPQ : ∀ s, P s → Q s) (hkeep : ∀ s e, P s → allowed s e → P (step s e))
    (hback : ∀ s e, P s → Q (step s e) → allowed s e) (hs : P s) (es : List ε) :
    Along step allowed s es ↔ ∀ pre, pre <+: es → Q (pre.foldl step s) :=
  along_iff_prefixes_of (fun _ => True) hPQ (fun s e _ => hkeep s e) (fun s e _ => hback s e) hs es
    fun _ _ => trivial

end Lib
