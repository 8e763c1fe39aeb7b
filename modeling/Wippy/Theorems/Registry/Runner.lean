import Wippy.Registry.Runner
import Wippy.Theorems.Registry.Deferral
import Wippy.Theorems.Registry.Delta

/-! A transition applies its changeset as a whole or not at all. -/

namespace Wippy.Registry
open Lib Wippy.Registry.Topology List Option

/-- The errors that say that the listener of a dispatched operation did not accept it. -/
def RunError.byListener : RunError → Bool
  | .noListener .. | .awaitService | .operationRejected .. | .operationCanceled .. | .eventHandlerTimeout .. => true
  | .invalid _ | .entryKindNotFound _ | .applyChange _ => false

namespace BusRunner
variable {br : BusRunner} {state : StateMap} {reaction : Reaction} {op : Operation}

/-- A create has a kind. -/
def Named (op : Operation) : Prop := op.kind = .create → op.entry.kind ≠ []

/-- An operation that can be applied still can when its kind is filled in, with the same effect, and only a create may
    have no kind to fill in. -/
theorem resolveKind_cases (hval : op.Valid (state.get op.id)) :
    (∃ op', resolveKind state op = some op' ∧ op'.Valid (state.get op'.id) ∧ Named op ∧
      applyValidatedOperation state op' = applyValidatedOperation state op) ∨
    (resolveKind state op = none ∧ op.kind = .create ∧ op.entry.kind = []) := by
  unfold resolveKind
  by_cases hk : op.entry.kind = []
  · rw [if_pos hk]
    cases hkind : op.kind with
    | create =>
      rw [hval.of_create hkind]
      exact .inr ⟨rfl, rfl, hk⟩
    | update =>
      obtain ⟨entry, hget, hsame⟩ : ∃ entry, state.get op.id = some entry ∧ entry.kind = op.entry.kind := by
        simpa [Operation.Valid, hkind] using hval
      refine .inl ⟨op, ?_, hval, by simp [Named, hkind], rfl⟩
      rw [hget, map_some, hsame, ← hkind]
    | delete =>
      obtain ⟨entry, hget⟩ := ne_none_iff_exists'.mp (hval.ne_none (by simp [hkind]))
      refine .inl ⟨_, by rw [hget]; rfl, ?_, by simp [Named, hkind], ?_⟩
      · simpa [Operation.Valid, hkind] using hval
      · simp [applyValidatedOperation, hkind, Operation.id]
  · rw [if_neg hk]
    exact .inl ⟨op, rfl, hval, fun _ => hk, rfl⟩

theorem applyPrivateStateOperation_of_valid (hval : op.Valid (state.get op.id)) :
    applyPrivateStateOperation state op = .ok (applyValidatedOperation state op) := by
  unfold applyPrivateStateOperation
  rw [applyOperation_eq_ok.mpr ⟨hval, rfl⟩]
  rfl

theorem dispatchOperation_cases (br : BusRunner) (reaction : Reaction) (hval : op.Valid (state.get op.id)) :
    br.dispatchOperation state reaction op = .ok (applyValidatedOperation state op) ∨
      ∃ err, br.dispatchOperation state reaction op = .error err ∧ err.byListener = true := by
  unfold dispatchOperation
  rw [applyPrivateStateOperation_of_valid hval]
  split
  · exact .inl rfl
  split
  · split
    · exact .inl rfl
    · exact .inr ⟨_, rfl, rfl⟩
    · split
      · exact .inr ⟨_, rfl, rfl⟩
      · exact .inr ⟨_, rfl, rfl⟩
    · exact .inr ⟨_, rfl, rfl⟩
  · exact .inr ⟨_, rfl, rfl⟩

theorem applyOperation_cases (br : BusRunner) (state : StateMap) (reaction : Reaction) (op : Operation) :
    (op.Valid (state.get op.id) ∧ Named op ∧
      br.applyOperation state reaction op = .ok (applyValidatedOperation state op)) ∨
    (∃ err, ¬ op.Valid (state.get op.id) ∧ br.applyOperation state reaction op = .error (.invalid err) ∧
      (err.notFound = true → state.get op.id = none)) ∨
    (op.Valid (state.get op.id) ∧ op.kind = .create ∧ op.entry.kind = [] ∧
      br.applyOperation state reaction op = .error (.entryKindNotFound op.id)) ∨
    (op.Valid (state.get op.id) ∧ ∃ err, br.applyOperation state reaction op = .error err ∧ err.byListener = true) := by
  unfold applyOperation
  cases hv : validateOperation state op with
  | error err =>
    refine .inr (.inl ⟨err, ?_, rfl, ?_⟩)
    · rw [← validateOperation_eq_ok, hv]
      simp
    · intro hnf
      unfold validateOperation at hv
      split at hv
      · cases hv
        cases hnf
      · cases hv
      · assumption
      · split at hv
        · cases hv
          cases hnf
        · cases hv
      · assumption
      · cases hv
  | ok u =>
    have hval : op.Valid (state.get op.id) := validateOperation_eq_ok.mp hv
    rcases resolveKind_cases hval with ⟨op', hres, hval', hnamed, hsame⟩ | ⟨hres, hkind, hempty⟩
    · rw [hres]
      rcases br.dispatchOperation_cases reaction hval' with hok | ⟨err, herr, hby⟩
      · exact .inl ⟨hval, hnamed, by rw [← hsame]; exact hok⟩
      · exact .inr (.inr (.inr ⟨hval, err, herr, hby⟩))
    · rw [hres]
      exact .inr (.inr (.inl ⟨hval, hkind, hempty, rfl⟩))

theorem applyOperation_ok {state' : StateMap} (h : br.applyOperation state reaction op = .ok state') :
    op.Valid (state.get op.id) ∧ Named op ∧ state' = applyValidatedOperation state op := by
  rcases br.applyOperation_cases state reaction op with ⟨hval, hnamed, hok⟩ | ⟨_, -, herr, -⟩ | ⟨-, -, -, herr⟩ |
    ⟨-, _, herr, -⟩
  · rw [hok] at h
    cases h
    exact ⟨hval, hnamed, rfl⟩
  all_goals
    rw [herr] at h
    cases h

theorem valid_or_absent_of_deferred {err : RunError} (h : br.applyOperation state reaction op = .error err)
    (hdefer : isDeferrable err = true) : op.Valid (state.get op.id) ∨ state.get op.id = none := by
  rcases br.applyOperation_cases state reaction op with ⟨-, -, hok⟩ | ⟨_, -, herr, hnf⟩ | ⟨hval, -⟩ | ⟨hval, -⟩
  · rw [hok] at h
    cases h
  · rw [herr] at h
    cases h
    exact .inr (hnf hdefer)
  · exact .inl hval
  · exact .inl hval

/-- What holds of a transition, of the operations it has put off and of those still to be visited in a pass, whatever
    the listeners do. -/
structure PassRule (I : Progress → ChangeSet → ChangeSet → Prop) : Prop where
  execute : ∀ {p op deferred remaining}, I p deferred (op :: remaining) → op.Valid (p.state.get op.id) →
    Named op → I (p.accepted op (applyValidatedOperation p.state op)) deferred remaining
  defer : ∀ {p op deferred remaining} (err : RunError), I p deferred (op :: remaining) →
    (op.Valid (p.state.get op.id) ∨ p.state.get op.id = none) → I (p.failed op err) (deferred ++ [op]) remaining
  nextPass : ∀ {p deferred}, I p deferred [] → I p [] deferred

/-- The passes end where the invariant holds, or right after a failed operation. -/
def Ended (I : Progress → ChangeSet → ChangeSet → Prop) (p : Progress) : Prop :=
  ∃ q deferred remaining, I q deferred remaining ∧ (p = q ∨ ∃ op err, p = q.failed op err)

variable {I : Progress → ChangeSet → ChangeSet → Prop} {forward : Nat → Reaction} {p p' : Progress}
  {deferred remaining : ChangeSet} {progressed : Bool}

theorem PassRule.pass (hI : PassRule I) (h : I p deferred remaining) {e : PassEnd}
    (hpass : br.pass forward remaining deferred progressed p = (e, p')) :
    Ended I p' ∧ ∀ deferred' progressed', e = .finished deferred' progressed' → I p' deferred' [] := by
  fun_induction BusRunner.pass br forward remaining deferred progressed p with
  | case1 =>
    cases hpass
    refine ⟨⟨p', _, [], h, .inl rfl⟩, ?_⟩
    rintro _ _ ⟨⟩
    exact h
  | case2 _ _ _ _ _ _ hop =>
    obtain ⟨hval, hnamed, rfl⟩ := applyOperation_ok hop
    cases hpass
    exact ⟨⟨_, _, _, hI.execute h hval hnamed, .inl rfl⟩, by simp⟩
  | case3 _ _ _ _ _ _ hop _ ih =>
    obtain ⟨hval, hnamed, rfl⟩ := applyOperation_ok hop
    exact ih (hI.execute h hval hnamed) hpass
  | case4 op _ _ _ p err | case6 op _ _ _ p err =>
    cases hpass
    exact ⟨⟨p, _, _, h, .inr ⟨op, err, rfl⟩⟩, by simp⟩
  | case5 _ _ _ _ _ err hop _ hdefer ih => exact ih (hI.defer err h (valid_or_absent_of_deferred hop hdefer)) hpass

theorem length_of_pass {deferred' : ChangeSet} {progressed' : Bool}
    (hpass : br.pass forward remaining deferred progressed p = (.finished deferred' progressed', p')) :
    deferred'.length + (progressed'.toNat - progressed.toNat) ≤ deferred.length + remaining.length := by
  fun_induction BusRunner.pass br forward remaining deferred progressed p with
  | case1 =>
    cases hpass
    simp
  | case2 | case4 | case6 => cases hpass
  | case3 _ _ _ _ _ _ _ _ ih =>
    have := ih hpass
    simp only [length_cons, Bool.toNat_true] at this ⊢
    omega
  | case5 _ _ _ _ _ _ _ _ _ ih =>
    have := ih hpass
    simp only [length_append, length_cons, length_nil] at this ⊢
    omega

theorem PassRule.passes (hI : PassRule I) {fuel : Nat} (h : I p [] remaining) (hfuel : remaining.length ≤ fuel)
    {err : Option TransitionError} (hpasses : br.passes forward fuel remaining p = (err, p')) :
    Ended I p' ∧ (err = none → I p' [] []) := by
  fun_induction br.passes forward fuel remaining p with
  | case1 remaining p =>
    obtain rfl := length_eq_zero_iff.mp (Nat.le_zero.mp hfuel)
    cases hpasses
    exact ⟨⟨p', [], [], h, .inl rfl⟩, fun _ => h⟩
  | case2 =>
    cases hpasses
    exact ⟨⟨p', [], [], h, .inl rfl⟩, fun _ => h⟩
  | case3 _ _ _ _ _ hpass | case4 _ _ _ _ _ _ hpass | case6 _ _ _ _ _ _ _ hpass =>
    cases hpasses
    exact ⟨(hI.pass h hpass).1, by simp⟩
  | case5 _ _ _ _ _ _ hpass =>
    cases hpasses
    exact ⟨(hI.pass h hpass).1, fun _ => (hI.pass h hpass).2 _ _ rfl⟩
  | case7 _ _ _ _ _ _ _ hpass ih =>
    have hlength := length_of_pass hpass
    refine ih (hI.nextPass ((hI.pass h hpass).2 _ _ rfl)) ?_ hpasses
    simp only [length_nil, Bool.toNat_true, Bool.toNat_false] at hlength hfuel
    omega

end BusRunner
end Wippy.Registry
