import Wippy.Registry.Directed
import Wippy.Theorems.Registry.Expansion
import Wippy.Theorems.Registry.Overlay

/-! What the calls of the registry do to the effects of directives: they are committed and finalized all, or each is
    rolled back once. If one fails to prepare, it and those behind it are forgotten. -/

namespace Wippy.Registry
open Lib Wippy.Registry.Topology Expansion List Option

variable {writeErr : Option TransitionFailure → RegError} {newState : State} {t : Target} {α : Type}
  {changes : ChangeSet}

namespace Expansion.Staging
variable {st : Staging} {effects : List Expansion.Effect}

/-- Some effects are not rolled back. -/
def Forgetful (st : Staging) : Prop := st.rolledBack.length < st.returned.length

theorem Forgetful.not_perm (h : st.Forgetful) : ¬ st.rolledBack.Perm st.returned :=
  fun hperm => Nat.ne_of_lt h hperm.length_eq

theorem Holding.prepareEffects_cases (kept : List Expansion.Effect) (h : st.Holding (kept ++ effects)) :
    ((∀ eff ∈ effects, eff.prepareFails = false) ∧
      ∃ st', st.prepareEffects [] effects = ((effects, true), st') ∧ st'.Holding (kept ++ effects)) ∨
    ((∃ eff ∈ effects, eff.prepareFails = true) ∧
      ∃ prepared st', st.prepareEffects [] effects = ((prepared, false), st') ∧
        ((st'.rollbackEffects prepared).rollbackEffects kept).Forgetful) := by
  rcases Staging.prepareEffects_cases st [] effects with ⟨hall, heq⟩ | ⟨before, eff, after, rfl, hfails, heq⟩
  · exact .inl ⟨hall, _, heq, h.prepare effects⟩
  refine .inr ⟨⟨eff, by simp, hfails⟩, before, _, heq, ?_⟩
  have hrolled := (h.prepare (before ++ [eff])).nothing.1
  have hreturned : _ = st.returned.length := h.returned.length_eq
  rw [Forgetful, rolledBack_rollbackEffects, rolledBack_rollbackEffects, hrolled, rollbackEffects_eq,
    rollbackEffects_eq]
  simp only [length_append, length_cons, length_reverse] at hreturned ⊢
  simp only [length_nil]
  omega

end Expansion.Staging

/-- The calls of the registry. -/
inductive DirectedCall
  | apply (changes : ChangeSet)
  | applyAt (base : Nat) (changes : ChangeSet)
  | applyPlan (p : Directed.ReviewedPlan)
  | plan (base : Nat) (changes : ChangeSet)
  | applyVersion (v : Nat)
  | loadState (baseline : State) (target : Nat)

/-- The outcome of a call without its value. -/
def Called.done {α : Type} (out : Called α) : Called Unit := ⟨out.registry, out.result.map fun _ => (), out.staging⟩

namespace Directed

section Statements
variable (ds : DirectedServices)

/-- One call. -/
def call (d : Directed) (c : DirectedCall) (w : World) : Called Unit :=
  match c with
  | .apply changes => (d.apply ds changes w).done
  | .applyAt base changes => (d.applyAt ds base changes w).done
  | .applyPlan p => (d.applyPlan ds p w).done
  | .plan base changes => (d.plan ds base changes w).done
  | .applyVersion v => (d.applyVersion ds v w).done
  | .loadState baseline target => (d.loadState ds baseline target w).done

/-- The changes that a call applies, and what it expects. -/
def request : DirectedCall → Option (ChangeSet × Option Reg.PlanExpectation)
  | .apply changes => some (changes, none)
  | .applyAt base changes => some (changes, some ⟨base, none⟩)
  | .applyPlan p => some (p.requested, some ⟨p.base, some p.digest⟩)
  | _ => none

/-- What a call has planned when nothing stops it. -/
def admitted (d : Directed) (c : DirectedCall) (w : World) : Option (Planned × ChangeSet) :=
  (request c).bind fun request =>
    (d.planOps ds request.1 w).1.toOption.bind fun p =>
      (vet ds (d.reg.withDepIndex ds.services) p.all).toOption.bind fun all =>
        (request.2.elim (.ok ()) fun expect => verify ds expect d.reg.currentVersion all p).toOption.map fun _ =>
          (p, all)

/-- The resolution of the state that a call goes to. -/
def resolving (d : Directed) (c : DirectedCall) (w : World) : Option (Except DirectedError Target × Staging) :=
  match c with
  | .applyVersion v =>
    if d.reg.currentVersion = v || w.readFails || !d.reg.history.getVersion v then none
    else
      (d.reg.stateAtVersion v).map fun state =>
        resolveTarget ds (fun _ ops => .ok (ops.map ScopedOp.operation)) state (d.resolutions.lookup v) w
  | .loadState baseline target =>
    if w.readFails then none
    else
      (loadDeclared d.reg (baseline.map canonicalizeEntryID) target).toOption.map fun state =>
        resolveTarget ds (fun fromState ops => (sortOps ds.planner fromState ops).map (·.map ScopedOp.operation)) state
          (d.resolutions.lookup target) w
  | _ => none

/-- An effect fails to prepare: one of an admitted apply, or one on the way to the target of a version or a boot. -/
def PreparationFails (d : Directed) (c : DirectedCall) (w : World) : Prop :=
  (∃ p all, d.admitted ds c w = some (p, all) ∧ ∃ eff ∈ p.effects, eff.prepareFails = true) ∨
    ∃ st, d.resolving ds c w = some (.error .prepareEffects, st)

/-- The transition that a call comes to. -/
def forward (d : Directed) (c : DirectedCall) (w : World) : Option Forward :=
  match c with
  | .applyVersion _ =>
    (d.resolving ds c w).bind fun target => target.1.toOption.bind fun t =>
      (versionOps ds d.reg t).toOption.bind fun ops => (vetVersion ds d.reg ops.1).toOption.map fun all =>
        runTransition ds d.reg.state all w.transition
  | .loadState _ _ =>
    (d.resolving ds c w).bind fun target => target.1.toOption.map fun t =>
      transitionState ds d.reg.state (stateMapToSlice t.state) w.transition
  | _ => (d.admitted ds c w).map fun planned => runTransition ds d.reg.state planned.2 w.transition

/-- The transition succeeds with that state. -/
def Forward.Leads (forward : Forward) (state : State) : Prop := forward.err = none ∧ forward.reached = some state

/-- Each effect returned is committed, finalized if it can be and never rolled back, with the state of the call; or it
    is rolled back once. -/
structure Ended (d : Directed) (c : DirectedCall) (w : World) (kept undone : List Expansion.Effect) : Prop where
  returned : (kept ++ undone).Perm (d.call ds c w).staging.returned
  rolledBack : (d.call ds c w).staging.rolledBack.Perm undone
  committed : kept.Subperm (d.call ds c w).staging.committed
  finalized : (d.call ds c w).staging.finalized.Perm (kept.filter Expansion.Effect.finalizing)
  state : kept ≠ [] → (d.call ds c w).result = .ok () ∧
    ∃ forward, d.forward ds c w = some forward ∧ forward.Leads (d.call ds c w).registry.reg.state

/-- The two registries show the same. -/
structure Unchanged (d d' : Directed) : Prop where
  state : d'.reg.state = d.reg.state
  currentVersion : d'.reg.currentVersion = d.reg.currentVersion
  resolution : d'.resolution = d.resolution
  resolutions : d'.resolutions = d.resolutions
  overlays : d'.reg.overlays = d.reg.overlays
  overlayOwners : d'.reg.overlayOwners = d.reg.overlayOwners
  overlayShadows : d'.reg.overlayShadows = d.reg.overlayShadows
  history : d'.reg.history = d.reg.history

/-- No effect is left half done, and a call that fails leaves the registry as it was. -/
def NothingHalfDone (d : Directed) (c : DirectedCall) (w : World) : Prop :=
  (∃ kept undone, d.Ended ds c w kept undone) ∧
    ∀ err, (d.call ds c w).result = .error err → err.rollback = none → d.Unchanged (d.call ds c w).registry

end Statements

/-! ### The last phases -/

section Finish
variable {ds : DirectedServices} {d : Directed} {st : Staging} {prepared : List Expansion.Effect} {w : World}

/-- A failed transition aborts once. -/
def Forward.Aborting (forward : Forward) : Prop := forward.aborts = if forward.err.isSome then 1 else 0

theorem aborting_runTransition (fromState : State) (ops : ChangeSet) (env : Environment) :
    (runTransition ds fromState ops env).Aborting := by
  unfold Forward.Aborting runTransition
  rw [isSome_map]
  exact ds.services.runner.count_abort_transition fromState ops env

section
variable (fromState toState : State) (env : Environment)

theorem aborting_transitionState : (transitionState ds fromState toState env).Aborting := by
  unfold transitionState
  split
  · rfl
  · rfl
  · exact aborting_runTransition ..

theorem reached_transitionState (h : (transitionState ds fromState toState env).err = none) :
    ∃ state, (transitionState ds fromState toState env).reached = some state := by
  unfold transitionState at h ⊢
  split at h
  · cases h
  · exact ⟨_, rfl⟩
  · exact ⟨_, rfl⟩

end

theorem rollback_unchanged {r : Reg} {newState toState : State} {env : Environment}
    (h : (r.rollback ds.services newState toState env).2 = none) :
    (r.rollback ds.services newState toState env).1 = r := by
  unfold Reg.rollback at h ⊢
  split
  · rfl
  next heq =>
    rw [heq] at h
    cases h

theorem afterFailure_unchanged {r : Reg} {env : CallEnvironment}
    (h : (r.afterFailure ds.services newState env).2 = none) : (r.afterFailure ds.services newState env).1 = r := by
  unfold Reg.afterFailure at h ⊢
  split
  · rfl
  next hcanceled =>
    rw [if_neg hcanceled] at h
    exact rollback_unchanged h

/-- A call has failed, its effects are rolled back, and so is the registry unless the transition back has failed. -/
structure GivenUp {α : Type} (d : Directed) (out : Called α) (err : DirectedError) : Prop where
  result : out.result = .error err
  staging : out.staging.Owing []
  registry : err.rollback = none → out.registry = d

theorem abortTransition_givenUp {err : Option TransitionFailure → DirectedError}
    (herr : ∀ back, (err back).rollback = back) (h : st.Owing prepared) :
    ∃ e, d.GivenUp (d.abortTransition ds newState prepared err st w : Called α) e := by
  refine ⟨_, rfl, h.release, fun hback => ?_⟩
  rw [herr] at hback
  simp only [abortTransition, rollback_unchanged hback]

theorem finish_cases (ds : DirectedServices) (d : Directed) (w : World) {forward : Forward}
    (write : State → Option (Directed × α))
    (hwriteErr : ∀ back, (writeErr back).rollback = back) (haborts : forward.Aborting)
    (hreached : forward.err = none → ∃ state, forward.reached = some state)
    (h : st.Holding prepared) :
    (∃ err, d.GivenUp (d.finish ds forward prepared write writeErr st w) err) ∨
    ∃ a d' newState st', forward.Leads newState ∧ write newState = some (d', a) ∧ st'.Completed ∧
      st'.dispatched = forward.ops ∧ d.finish ds forward prepared write writeErr st w = ⟨d', .ok a, st'⟩ := by
  unfold finish
  unfold Forward.Aborting at haborts
  replace h : Staging.Holding { st with dispatched := forward.ops } prepared := { h with }
  cases hforward : forward.err with
  | some err =>
    rw [hforward] at haborts
    refine .inl ⟨_, rfl, ?_, fun hback => ?_⟩
    · rw [haborts]
      exact h.owing.release
    · cases hreach : forward.reached with
      | none => rfl
      | some newState =>
        rw [hreach] at hback
        have hsame : (d.reg.afterFailure ds.services newState w.toCallEnvironment).1 = d.reg :=
          afterFailure_unchanged hback
        dsimp only
        rw [hsame]
  | none =>
    obtain ⟨newState, hnew⟩ := hreached hforward
    rw [hforward] at haborts
    rw [haborts, hnew]
    simp only [isSome_none, Bool.false_eq_true, if_false, abortEffects, getD_some]
    rcases Staging.commitEffects_cases { st with dispatched := forward.ops } prepared with ⟨hall, heq⟩ | ⟨tried, heq⟩
    · rw [heq]
      cases hwrite : write newState with
      | none => exact .inl (abortTransition_givenUp (fun back => hwriteErr back) (h.owing.commit prepared))
      | some written =>
        obtain ⟨d', a⟩ := written
        refine .inr ⟨a, d', newState, _, ⟨hforward, hnew⟩, hwrite, h.complete hall, ?_, rfl⟩
        rw [Staging.finalizeEffects_eq]
    · rw [heq]
      exact .inl (abortTransition_givenUp (fun _ => rfl) (h.owing.commit tried))

end Finish

/-! ### The first phases -/

section Planning
variable {ds : DirectedServices} {d : Directed} {st : Staging} {w : World}

theorem planOps_cases (ds : DirectedServices) (d : Directed) (changes : ChangeSet) (w : World) :
    (∃ err st, d.planOps ds changes w = (.error err, st) ∧ st.Owing []) ∨
    ∃ p st, d.planOps ds changes w = (.ok p, st) ∧ st.Holding p.effects := by
  unfold planOps
  dsimp only
  split
  · split
    · exact .inl ⟨_, _, rfl, Staging.holding_start.owing⟩
    · exact .inr ⟨_, _, rfl, Staging.holding_start⟩
  unfold expandLocked
  rcases expand_cases ds.planner w.answers
    (normalizeRegistryMetadata (newStateMap d.reg.state) (canonicalizeChangeSetIDs changes))
    d.reg.state Staging.holding_start with ⟨err, st, heq, howing⟩ | ⟨plan, st, heq, hheld, -⟩
  · rw [heq]
    exact .inl ⟨_, _, rfl, howing⟩
  · rw [heq]
    dsimp only
    cases sortOps ds.planner d.reg.state plan.ops with
    | error err => exact .inl ⟨_, _, rfl, hheld.owing.release⟩
    | ok ops => exact .inr ⟨_, _, rfl, hheld⟩

/-- The way to a target: it is reached with its effects prepared, or given up. Only an effect that fails to prepare is
    forgotten. -/
def Targeted (out : Except DirectedError Target × Staging) : Prop :=
  (∃ t st, out = (.ok t, st) ∧ st.Holding t.prepared) ∨
  (∃ err st, out = (.error err, st) ∧ err ≠ .prepareEffects ∧ st.Owing []) ∨
  ∃ st, out = (.error .prepareEffects, st) ∧ st.Forgetful

theorem Targeted.refused {err : DirectedError} (hne : err ≠ .prepareEffects) (h : st.Owing []) :
    Targeted (.error err, st) :=
  .inr (.inl ⟨_, _, rfl, hne, h⟩)

theorem targeted_extend {canonical : Resolution → Resolution} {ops : ChangeSet} {resolution : Option Resolution}
    {refresh : List ID} {effects : List Expansion.Effect}
    {go : Target → Staging → Except DirectedError Target × Staging} :
    st.Holding (t.prepared ++ effects) → (∀ {t st}, st.Holding t.prepared → Targeted (go t st)) →
      Targeted (match t.extend canonical ops resolution refresh effects st with
        | (.error err, st) => (.error err, st)
        | (.ok t, st) => go t st) := by
  intro h hgo
  unfold Target.extend
  rcases h.prepareEffects_cases t.prepared with ⟨-, st', heq, hheld⟩ | ⟨-, prepared, st', heq, hforgets⟩
  · rw [heq]
    exact hgo hheld
  · rw [heq]
    exact .inr (.inr ⟨_, rfl, hforgets⟩)

theorem targeted_reconcile (planner : Planner) (arrange : State → List ScopedOp → Except SortOpsError ChangeSet)
    (answers : Answers) {directives : List Directive} {reconciled : Bool} (h : st.Holding t.prepared) :
    Targeted (reconcile planner arrange answers directives reconciled t st) := by
  induction directives generalizing reconciled t st with
  | nil =>
    unfold reconcile
    split
    · exact .inl ⟨_, _, rfl, h⟩
    · exact .refused (by simp) h.owing.release
  | cons directive directives ih =>
    unfold reconcile
    split
    · exact ih h
    rcases ask_cases st answers with ⟨st', hask, hasked⟩ | ⟨res, st', hask, hasked⟩
    · rw [hask]
      exact .refused (by simp) ((h.asked hasked).owing.perm (by simp)).release
    rw [hask]
    have hheld := h.asked hasked
    dsimp only
    cases harrange : arrange (stateMapToSlice t.state) res.additional with
    | error err => exact .refused (by simp) ((hheld.owing.perm perm_append_comm).rollback).release
    | ok ops => exact targeted_extend hheld ih

theorem targeted_expandDeclarations (planner : Planner) (answers : Answers) {declarations : List Entry}
    (h : st.Holding t.prepared) : Targeted (expandDeclarations planner answers declarations t st) := by
  induction declarations generalizing t st with
  | nil => exact .inl ⟨_, _, rfl, h⟩
  | cons entry declarations ih =>
    unfold expandDeclarations
    split
    · exact ih h
    split
    · exact ih h
    rcases expand_cases planner answers [{ kind := .update, entry }] (stateMapToSlice t.state) h with
      ⟨err, st', heq, howing⟩ | ⟨plan, st', heq, hheld, hunexpanded⟩
    · rw [heq]
      exact .refused (by simp) howing.release
    rw [heq]
    dsimp only
    split
    next hnot =>
      rw [hunexpanded (by simpa using hnot), append_nil] at hheld
      exact ih hheld
    cases hsort : sortOps planner (stateMapToSlice t.state) plan.ops with
    | error err => exact .refused (by simp) ((hheld.owing.perm perm_append_comm).rollback).release
    | ok ops => exact targeted_extend hheld ih

theorem targeted_resolveTarget (ds : DirectedServices) (arrange : State → List ScopedOp → Except SortOpsError ChangeSet)
    (state : StateMap) (stored : Option Resolution) (w : World) :
    Targeted (resolveTarget ds arrange state stored w) := by
  unfold resolveTarget
  split
  · split
    · exact .refused (by simp) Staging.holding_start.owing
    · exact targeted_reconcile _ _ _ Staging.holding_start
  · exact targeted_expandDeclarations _ _ Staging.holding_start

end Planning

section Calls
variable {ds : DirectedServices} {d : Directed} {c : DirectedCall} {w : World} {err : DirectedError} {st : Staging}
  {fails : Prop} {led : Option Forward} {forward : Forward}

@[refl]
theorem Unchanged.refl (d : Directed) : d.Unchanged d := ⟨rfl, rfl, rfl, rfl, rfl, rfl, rfl, rfl⟩

theorem unchanged_withDepIndex (ds : DirectedServices) (d : Directed) :
    d.Unchanged { d with reg := d.reg.withDepIndex ds.services } := by
  unfold Reg.withDepIndex
  split
  · exact .refl d
  · exact ⟨rfl, rfl, rfl, rfl, rfl, rfl, rfl, rfl⟩

theorem unchanged_allocateVersion (d : Directed) (historyOps : ChangeSet) :
    d.Unchanged { d with reg := d.reg.allocateVersion historyOps } := by
  unfold Reg.allocateVersion
  split
  · exact .refl d
  · exact ⟨rfl, rfl, rfl, rfl, rfl, rfl, rfl, rfl⟩

theorem Unchanged.trans {d' d'' : Directed} (h : d.Unchanged d') (h' : d'.Unchanged d'') : d.Unchanged d'' :=
  ⟨h'.state.trans h.state, h'.currentVersion.trans h.currentVersion, h'.resolution.trans h.resolution,
    h'.resolutions.trans h.resolutions, h'.overlays.trans h.overlays, h'.overlayOwners.trans h.overlayOwners,
    h'.overlayShadows.trans h.overlayShadows, h'.history.trans h.history⟩

/-- How a call ends. -/
inductive Concluded (d : Directed) (fails : Prop) (forward : Option Forward) (out : Called Unit) : Prop
  | givenUp (err : DirectedError) : ¬ fails → out.result = .error err → out.staging.Owing [] →
    (err.rollback = none → d.Unchanged out.registry) → Concluded d fails forward out
  | forgotten (err : DirectedError) : fails → out.result = .error err → out.staging.Forgetful →
      Concluded d fails forward out
  | kept (f : Forward) : ¬ fails → out.result = .ok () → out.staging.Completed → forward = some f →
    f.Leads out.registry.reg.state → Concluded d fails forward out
  | idle : ¬ fails → out.result = .ok () → out.staging.Owing [] → Concluded d fails forward out

theorem Concluded.refused (hfails : ¬ fails)
    (h : st.Owing []) : Concluded d fails led ⟨d, .error err, st⟩ :=
  .givenUp err hfails rfl h fun _ => .refl d

theorem concluded_finish {d₀ : Directed} {write : State → Option (Directed × α)} {prepared : List Expansion.Effect}
    (hfails : ¬ fails) (hunchanged : d₀.Unchanged d)
    (hwriteErr : ∀ back, (writeErr back).rollback = back) (hled : led = some forward) (haborts : forward.Aborting)
    (hreached : forward.err = none → ∃ state, forward.reached = some state)
    (hwrite : ∀ newState d' a, write newState = some (d', a) → d'.reg.state = newState) (h : st.Holding prepared) :
    Concluded d₀ fails led (d.finish ds forward prepared write writeErr st w).done := by
  rcases finish_cases ds d w write hwriteErr haborts hreached h with
    ⟨err, hup⟩ | ⟨a, d', newState, st', hleads, hwritten, hcompleted, -, heq⟩
  · refine .givenUp err hfails ?_ hup.staging fun hback => ?_
    · unfold Called.done
      rw [hup.result]
      rfl
    · unfold Called.done
      rw [hup.registry hback]
      exact hunchanged
  · rw [heq]
    refine .kept forward hfails rfl hcompleted hled ?_
    rw [← hwrite newState d' a hwritten] at hleads
    exact hleads

theorem state_writeApplied {p : Planned} {all : ChangeSet} {d' : Directed} {v : Nat}
    (h : d.writeApplied ds p all w newState = some (d', v)) : d'.reg.state = newState := by
  unfold writeApplied at h
  split at h
  · cases h
    rfl
  split at h
  · cases h
  · obtain ⟨history, -, heq⟩ := map_eq_some_iff.mp h
    cases heq
    rfl

theorem concluded_applyLocked {expect : Option Reg.PlanExpectation} (hrequest : request c = some (changes, expect)) :
    Concluded d (d.PreparationFails ds c w) ((d.admitted ds c w).map fun planned =>
      runTransition ds d.reg.state planned.2 w.transition) (d.applyLocked ds changes expect w).done := by
  have hresolving : d.resolving ds c w = none := by
    cases c <;> simp_all [request, resolving]
  have hnone : d.admitted ds c w = none → ¬ d.PreparationFails ds c w := by
    rintro hadmitted (⟨p, all, heq, -⟩ | ⟨st, heq⟩)
    · rw [hadmitted] at heq
      cases heq
    · rw [hresolving] at heq
      cases heq
  unfold applyLocked
  rcases planOps_cases ds d changes w with ⟨err, st, heq, howing⟩ | ⟨p, st, heq, hheld⟩
  · rw [heq]
    exact .refused (hnone (by simp [admitted, hrequest, heq, Except.toOption])) howing
  rw [heq]
  dsimp only
  cases hvet : vet ds (d.reg.withDepIndex ds.services) p.all with
  | error err =>
    exact .givenUp _ (hnone (by simp [admitted, hrequest, heq, hvet, Except.toOption])) rfl hheld.owing.release
      fun _ => unchanged_withDepIndex ds d
  | ok all =>
    dsimp only
    have hversion : (d.reg.withDepIndex ds.services).currentVersion = d.reg.currentVersion :=
      (unchanged_withDepIndex ds d).currentVersion
    rw [hversion]
    cases hverify : expect.elim (.ok ()) fun expect => verify ds expect d.reg.currentVersion all p with
    | error err =>
      exact .givenUp _ (hnone
        (by simp [admitted, hrequest, heq, hvet, hverify, Except.toOption])) rfl hheld.owing.release
        fun _ => unchanged_withDepIndex ds d
    | ok u =>
      have hadmitted : d.admitted ds c w = some (p, all) := by
        simp [admitted, hrequest, heq, hvet, hverify, Except.toOption]
      have hfails : d.PreparationFails ds c w ↔ ∃ eff ∈ p.effects, eff.prepareFails = true := by
        simp [PreparationFails, hadmitted, hresolving]
      rcases Staging.Holding.prepareEffects_cases [] hheld with
        ⟨hall, st', hprepare, hheld'⟩ | ⟨hbad, prepared, st', hprepare, hforgets⟩
      · rw [hprepare]
        have hsound : ¬ d.PreparationFails ds c w := by
          rw [hfails]
          rintro ⟨eff, heff, hfails⟩
          rw [hall eff heff] at hfails
          cases hfails
        have hunchanged := (unchanged_withDepIndex ds d).trans (unchanged_allocateVersion _ p.history)
        refine concluded_finish hsound hunchanged (fun _ => rfl) ?_ (aborting_runTransition _ _ _) (fun _ => ⟨_, rfl⟩)
          (fun _ _ _ => state_writeApplied) hheld'
        rw [hadmitted, map_some, hunchanged.state]
      · rw [hprepare]
        exact .forgotten _ (hfails.mpr hbad) rfl hforgets

theorem concluded_plan {base : Nat} :
    Concluded d (d.PreparationFails ds (.plan base changes) w) none (d.plan ds base changes w).done := by
  have hnever : ¬ d.PreparationFails ds (.plan base changes) w := by
    simp [PreparationFails, admitted, request, resolving]
  unfold plan
  split
  · exact .refused hnever Staging.holding_start.owing
  rcases planOps_cases ds d changes w with ⟨err, st, heq, howing⟩ | ⟨p, st, heq, hheld⟩
  · rw [heq]
    exact .refused hnever howing
  rw [heq]
  dsimp only
  split
  · exact .givenUp _ hnever rfl hheld.owing.release fun _ => unchanged_withDepIndex ds d
  split
  · exact .givenUp _ hnever rfl hheld.owing.release fun _ => unchanged_withDepIndex ds d
  · exact .idle hnever rfl hheld.owing.release

theorem not_preparationFails_of_request (ds : DirectedServices) (d : Directed) (w : World) (hrequest : request c = none)
    (hresolving : ∀ st, d.resolving ds c w ≠ some (.error .prepareEffects, st)) : ¬ d.PreparationFails ds c w := by
  rintro (⟨p, all, heq, -⟩ | ⟨st, heq⟩)
  · rw [admitted, hrequest] at heq
    cases heq
  · exact hresolving st heq

/-- A call that goes to a target ends with it, or goes on from it. -/
theorem concluded_of_targeted {out : Except DirectedError Target × Staging} {go : Target → Staging → Called Unit}
    (hrequest : request c = none) : d.resolving ds c w = some out → Targeted out →
      (∀ t st, out = (.ok t, st) → ¬ d.PreparationFails ds c w → st.Holding t.prepared →
        Concluded d (d.PreparationFails ds c w) (d.forward ds c w) (go t st).done) →
      Concluded d (d.PreparationFails ds c w) (d.forward ds c w)
        (match out with
          | (.error err, st) => ⟨d, .error err, st⟩
          | (.ok t, st) => go t st : Called Unit).done := by
  intro hresolving htargeted hgo
  have hsound := not_preparationFails_of_request ds d w hrequest
  rcases htargeted with ⟨t, st, rfl, hheld⟩ | ⟨err, st, rfl, hne, howing⟩ | ⟨st, rfl, hforgets⟩
  · exact hgo t st rfl (hsound (by simp [hresolving])) hheld
  · exact .refused (hsound (by simp [hresolving, hne])) howing
  · exact .forgotten _ (.inr ⟨_, hresolving⟩) rfl hforgets

theorem concluded_applyVersion {v : Nat} :
    Concluded d (d.PreparationFails ds (.applyVersion v) w) (d.forward ds (.applyVersion v) w)
      (d.applyVersion ds v w).done := by
  have hsound := not_preparationFails_of_request ds d w (c := .applyVersion v) rfl
  unfold applyVersion
  split
  next hcurrent =>
    have hnever := hsound (by simp [resolving, hcurrent])
    split
    · exact .refused hnever Staging.holding_start.owing
    · exact .idle hnever rfl Staging.holding_start.owing
  split
  next hread =>
    exact .refused (hsound (by simp_all [resolving])) Staging.holding_start.owing
  cases hstate : d.reg.stateAtVersion v with
  | none => exact .refused (hsound (by simp [resolving, hstate])) Staging.holding_start.owing
  | some state =>
    dsimp only
    have hresolving : d.resolving ds (.applyVersion v) w =
        some (resolveTarget ds (fun _ ops => .ok (ops.map ScopedOp.operation)) state (d.resolutions.lookup v) w) := by
      simp_all [resolving]
    refine concluded_of_targeted rfl hresolving (targeted_resolveTarget ..) fun t st heq hnever hheld => ?_
    rw [heq] at hresolving
    cases hops : versionOps ds d.reg t with
    | error err => exact .refused hnever hheld.owing.release
    | ok ops =>
      obtain ⟨ops, shadows⟩ := ops
      dsimp only
      split
      · exact .refused hnever hheld.owing.release
      cases hvet : vetVersion ds d.reg ops with
      | error err => exact .refused hnever hheld.owing.release
      | ok all =>
        refine concluded_finish hnever (.refl d) (fun _ => rfl) ?_ (aborting_runTransition _ _ _) (fun _ => ⟨_, rfl⟩)
          ?_ hheld
        · simp [forward, hresolving, hops, hvet, Except.toOption]
        · intro newState d' a hwrite
          obtain ⟨moved, -, heq⟩ := map_eq_some_iff.mp hwrite
          cases heq
          rfl

theorem concluded_loadState {baseline : State} {target : Nat} :
    Concluded d (d.PreparationFails ds (.loadState baseline target) w) (d.forward ds (.loadState baseline target) w)
      (d.loadState ds baseline target w).done := by
  have hsound := not_preparationFails_of_request ds d w (c := .loadState baseline target) rfl
  unfold loadState
  split
  next hread =>
    exact .refused (hsound (by simp [resolving, hread])) Staging.holding_start.owing
  dsimp only
  cases hstate : loadDeclared d.reg (baseline.map canonicalizeEntryID) target with
  | error err =>
    exact .refused (hsound (by simp [resolving, hstate, Except.toOption])) Staging.holding_start.owing
  | ok state =>
    dsimp only
    have hresolving : d.resolving ds (.loadState baseline target) w =
        some (resolveTarget ds
          (fun fromState ops => (sortOps ds.planner fromState ops).map (·.map ScopedOp.operation)) state
          (d.resolutions.lookup target) w) := by
      simp_all [resolving, Except.toOption]
    refine concluded_of_targeted rfl hresolving (targeted_resolveTarget ..) fun t st heq hnever hheld => ?_
    rw [heq] at hresolving
    split
    · exact .refused hnever hheld.owing.release
    refine concluded_finish hnever (.refl d) (fun _ => rfl) ?_ (aborting_transitionState _ _ _)
      (reached_transitionState _ _ _) ?_ hheld
    · simp [forward, hresolving, Except.toOption]
    · intro newState d' a hwrite
      obtain ⟨moved, -, heq⟩ := map_eq_some_iff.mp hwrite
      cases heq
      rfl

theorem concluded_call (ds : DirectedServices) (d : Directed) (c : DirectedCall) (w : World) :
    Concluded d (d.PreparationFails ds c w) (d.forward ds c w) (d.call ds c w) := by
  cases c with
  | apply changes => exact concluded_applyLocked rfl
  | applyAt base changes => exact concluded_applyLocked rfl
  | applyPlan p => exact concluded_applyLocked rfl
  | plan base changes => exact concluded_plan
  | applyVersion v => exact concluded_applyVersion
  | loadState baseline target => exact concluded_loadState

theorem ended_of_owing (h : (d.call ds c w).staging.Owing []) :
    d.Ended ds c w [] (d.call ds c w).staging.rolledBack where
  returned := by simpa using h.returned
  rolledBack := .refl _
  committed := nil_subperm
  finalized := by simp [h.finalized]
  state hne := absurd rfl hne

theorem ended_of_completed {f : Forward} (h : (d.call ds c w).staging.Completed)
    (hresult : (d.call ds c w).result = .ok ())
    (hforward : d.forward ds c w = some f) (hleads : f.Leads (d.call ds c w).registry.reg.state) :
    d.Ended ds c w (d.call ds c w).staging.returned [] where
  returned := by simp
  rolledBack := by simp [h.rolledBack]
  committed := h.committed.symm.subperm
  finalized := h.finalized
  state _ := ⟨hresult, f, hforward, hleads⟩

theorem not_ended_of_forgetful {kept undone : List Expansion.Effect}
    (hresult : (d.call ds c w).result = .error err) (hforgets : (d.call ds c w).staging.Forgetful) :
    ¬ d.Ended ds c w kept undone := by
  intro h
  have hkept : kept = [] := by
    by_contra hne
    obtain ⟨hok, -⟩ := h.state hne
    rw [hresult] at hok
    cases hok
  subst hkept
  exact hforgets.not_perm (h.rolledBack.trans h.returned)

end Calls

/-- No effect is left half done by a call if and only if no effect fails to prepare in it. -/
theorem nothing_half_done_iff (ds : DirectedServices) (d : Directed) (c : DirectedCall) (w : World) :
    d.NothingHalfDone ds c w ↔ ¬ d.PreparationFails ds c w := by
  cases concluded_call ds d c w with
  | givenUp err hfails hresult howing hunchanged =>
    refine ⟨fun _ => hfails, fun _ => ⟨⟨_, _, ended_of_owing howing⟩, fun err' hresult' hback => ?_⟩⟩
    rw [hresult] at hresult'
    cases hresult'
    exact hunchanged hback
  | forgotten err hfails hresult hforgets =>
    refine ⟨fun h => ?_, fun hnot => absurd hfails hnot⟩
    obtain ⟨⟨kept, undone, hended⟩, -⟩ := h
    exact absurd hended (not_ended_of_forgetful hresult hforgets)
  | kept f hfails hresult hcompleted hforward hleads =>
    refine ⟨fun _ => hfails,
      fun _ => ⟨⟨_, _, ended_of_completed hcompleted hresult hforward hleads⟩, fun err herr => ?_⟩⟩
    rw [hresult] at herr
    cases herr
  | idle hfails hresult howing =>
    refine ⟨fun _ => hfails, fun _ => ⟨⟨_, _, ended_of_owing howing⟩, fun err herr => ?_⟩⟩
    rw [hresult] at herr
    cases herr

/-- One directive, for the kind `k`. -/
def directedServices : DirectedServices where
  services := Reg.exactServices
  planner := { directivesByKind := AList.singleton [107] [{}], resolver := plainResolver }
  payload data := some (.string data)
  text := Json.code
  text_injective := Json.code_injective
  hash := id

/-- Directives that return two effects, of which the first cannot be prepared; every listener accepts. -/
def unprepared : World where
  toCallEnvironment := Reg.accepting
  answers _ := some { applied := true, effects := [{ name := 0, prepareFails := true }, { name := 1 }] }

/-- Neither effect is rolled back when the first fails to prepare. -/
theorem unprepared_effects_forgotten :
    ¬ ∀ (ds : DirectedServices) (d : Directed) (c : DirectedCall) (w : World), d.NothingHalfDone ds c w := by
  intro h
  obtain ⟨⟨kept, undone, hended⟩, -⟩ :=
    h directedServices {} (.apply [{ kind := .create, entry := Reg.entryX }]) unprepared
  have hresult : (({} : Directed).call directedServices
    (.apply [{ kind := .create, entry := Reg.entryX }]) unprepared).result =
      .error .prepareEffects := by decide +kernel
  have hforgets : (({} : Directed).call directedServices (.apply [{ kind := .create, entry := Reg.entryX }])
      unprepared).staging.Forgetful := by
    unfold Staging.Forgetful
    decide +kernel
  exact not_ended_of_forgetful hresult hforgets hended

end Directed
end Wippy.Registry
