import Wippy.Theorems.Registry.Runner

/-! A transition applies its changeset as a whole or not at all, up to operations that a delay or the difference back
    does not undo. -/

namespace Wippy.Registry
open Lib Wippy.Registry.Topology List Option

/-- An entry can come back to where there is another one or none: in place by an update, which keeps the kind, or by a
    create, which needs one. -/
def CanReturn (live : Option Entry) (original : Entry) : Prop :=
  match live with
  | some entry => entry.kind = original.kind
  | none => original.kind ≠ []

instance instDecidableCanReturn (live : Option Entry) (original : Entry) : Decidable (CanReturn live original) :=
  match live with
  | some entry => inferInstanceAs (Decidable (entry.kind = original.kind))
  | none => inferInstanceAs (Decidable (original.kind ≠ []))

namespace BusRunner
variable {br : BusRunner} {start : StateMap} {cs deferred remaining : ChangeSet} {p : Progress}
  {result : Option TransitionError} {err : TransitionError} {entry : Entry}

/-- The operations that were executed, in their order. -/
def acceptedOps (trace : List Effect) : ChangeSet :=
  trace.filterMap fun
    | .operation op none => some op
    | _ => none

@[simp] theorem acceptedOps_accepted (op : Operation) (state : StateMap) :
    acceptedOps (p.accepted op state).trace = acceptedOps p.trace ++ [op] := by
  simp [acceptedOps, Progress.accepted, filterMap_append]

@[simp] theorem acceptedOps_failed (op : Operation) (err : RunError) :
    acceptedOps (p.failed op err).trace = acceptedOps p.trace := by
  simp [acceptedOps, Progress.failed, filterMap_append]

/-- The executed operations have led from the start to the state, and the others are still to be executed. -/
structure Underway (start : StateMap) (cs : ChangeSet) (p : Progress) (deferred remaining : ChangeSet) : Prop where
  perm : (acceptedOps p.trace ++ (deferred ++ remaining)).Perm cs
  applied : applyOperations start (acceptedOps p.trace) = .ok p.state
  forward : ∀ effect ∈ p.trace, ∃ op err, effect = .operation op err
  named : ∀ op ∈ acceptedOps p.trace, Named op

theorem underway_start (start : StateMap) (cs : ChangeSet) : Underway start cs { state := start } [] cs :=
  ⟨by simp [acceptedOps], rfl, by simp, by simp [acceptedOps]⟩

theorem Underway.failed (h : Underway start cs p deferred remaining) (op : Operation) (err : RunError) :
    Underway start cs (p.failed op err) deferred remaining where
  perm := by
    rw [acceptedOps_failed]
    exact h.perm
  applied := by
    rw [acceptedOps_failed]
    exact h.applied
  forward := by
    intro effect heffect
    rcases mem_append.mp heffect with heffect | heffect
    · exact h.forward effect heffect
    · exact ⟨op, some err, mem_singleton.mp heffect⟩
  named := by
    rw [acceptedOps_failed]
    exact h.named

theorem underway_rule : PassRule (Underway start cs) where
  execute := by
    intro p op deferred remaining h hval hnamed
    refine ⟨?_, ?_, ?_, ?_⟩
    · rw [acceptedOps_accepted, append_assoc]
      refine (List.Perm.append_left _ ?_).trans h.perm
      rw [singleton_append]
      exact perm_middle.symm
    · rw [acceptedOps_accepted, applyOperations_append h.applied]
      exact applyOperations_cons.mpr ⟨hval, rfl⟩
    · intro effect heffect
      rcases mem_append.mp heffect with heffect | heffect
      · exact h.forward effect heffect
      · exact ⟨op, none, mem_singleton.mp heffect⟩
    · rw [acceptedOps_accepted]
      intro op' hop'
      rcases mem_append.mp hop' with hop' | hop'
      · exact h.named op' hop'
      · rw [mem_singleton.mp hop']
        exact hnamed
  defer := by
    intro p op deferred remaining err h _
    exact { h.failed op err with perm := by simpa using h.perm }
  nextPass := by
    intro p deferred h
    exact { h with perm := by simpa using h.perm }

theorem underway_of_passes {forward : Nat → Reaction}
    (h : br.passes forward cs.length cs { state := start } = (result, p)) :
    (∃ deferred remaining, Underway start cs p deferred remaining) ∧ (result = none → Underway start cs p [] []) := by
  obtain ⟨⟨q, deferred, remaining, hq, hend⟩, hdone⟩ := underway_rule.passes (underway_start start cs) le_rfl h
  refine ⟨⟨deferred, remaining, ?_⟩, hdone⟩
  rcases hend with rfl | ⟨op, err, rfl⟩
  · exact hq
  · exact hq.failed op err

theorem Underway.exists_create (h : Underway start cs p deferred remaining) (id : ID) (hid : p.state.get id ≠ none) :
    start.get id ≠ none ∨ ∃ op ∈ cs, op.kind = .create ∧ op.id = id := by
  refine (exists_create_of_replay (replay_of_applyOperations h.applied id) hid).imp_right ?_
  rintro ⟨op, hop, hkind⟩
  obtain ⟨hop, hopid⟩ := mem_onID.mp hop
  exact ⟨op, h.perm.mem_iff.mp (mem_append_left _ hop), hkind, hopid⟩

/-- A fact about an entry, its operations put off and its operations still to be visited that one operation keeps. -/
structure EntryRule (K : ID → Option Entry → ChangeSet → ChangeSet → Prop) : Prop where
  execute : ∀ {id existing op deferred remaining}, K id existing deferred (op :: remaining) → op.Valid existing →
    K id op.outcome deferred remaining
  defer : ∀ {id existing op deferred remaining}, K id existing deferred (op :: remaining) →
    (op.Valid existing ∨ existing = none) → K id existing (deferred ++ [op]) remaining
  nextPass : ∀ {id existing deferred}, K id existing deferred [] → K id existing [] deferred

theorem EntryRule.passRule {K : ID → Option Entry → ChangeSet → ChangeSet → Prop} (hK : EntryRule K) :
    PassRule fun p deferred remaining => ∀ id, K id (p.state.get id) (onID id deferred) (onID id remaining) where
  execute := by
    intro p op deferred remaining h hval _ id
    change K id ((applyValidatedOperation p.state op).get id) _ _
    rw [get_applyValidatedOperation]
    have hid := h id
    by_cases heq : op.id = id
    · subst heq
      rw [onID_cons_self] at hid
      rw [if_pos rfl]
      exact hK.execute hid hval
    · rw [onID_cons_of_ne _ heq] at hid
      rw [if_neg (Ne.symm heq)]
      exact hid
  defer := by
    intro p op deferred remaining err h hval id
    have hid := h id
    rw [onID_append]
    by_cases heq : op.id = id
    · subst heq
      rw [onID_cons_self] at hid ⊢
      exact hK.defer hid hval
    · rw [onID_cons_of_ne _ heq] at hid ⊢
      rw [onID_nil, append_nil]
      exact hid
  nextPass h id := hK.nextPass (h id)

theorem course_rule (goal : ID → Option (Option Entry)) : EntryRule fun id => Course (goal id) where
  execute := Course.execute
  defer := Course.defer
  nextPass := Course.nextPass

variable {reverse : Nat → Reaction} {delta : ChangeSet}

/-- A reverse operation was refused. -/
def Refused (trace : List Effect) : Prop := ∃ op err, Effect.reverse op (some err) ∈ trace

theorem trace_reverseAll (br : BusRunner) (reverse : Nat → Reaction) (delta : ChangeSet) (p : Progress) :
    ∃ after, (br.reverseAll reverse delta p).trace = p.trace ++ after ∧
      ∀ effect ∈ after, ∃ op err, effect = .reverse op err := by
  induction delta generalizing p with
  | nil => exact ⟨[], by simp [reverseAll], by simp⟩
  | cons op delta ih =>
    unfold reverseAll
    split
    next err _ =>
      obtain ⟨after, htrace, hafter⟩ :=
        ih { p with attempts := p.attempts + 1, trace := p.trace ++ [.reverse op (some err)] }
      exact ⟨.reverse op (some err) :: after, by rw [htrace]; simp, by simpa using hafter⟩
    next state _ =>
      obtain ⟨after, htrace, hafter⟩ := ih ⟨state, p.attempts + 1, p.trace ++ [.reverse op none]⟩
      exact ⟨.reverse op none :: after, by rw [htrace]; simp, by simpa using hafter⟩

theorem applyOperations_of_reverseAll (h : ¬ Refused (br.reverseAll reverse delta p).trace) :
    applyOperations p.state delta = .ok (br.reverseAll reverse delta p).state := by
  induction delta generalizing p with
  | nil => rfl
  | cons op delta ih =>
    unfold reverseAll at h ⊢
    split at h
    next err _ =>
      obtain ⟨after, htrace, -⟩ := br.trace_reverseAll reverse delta
        { p with attempts := p.attempts + 1, trace := p.trace ++ [.reverse op (some err)] }
      refine absurd ⟨op, err, ?_⟩ h
      rw [htrace]
      simp
    next state hop =>
      obtain ⟨hval, -, rfl⟩ := applyOperation_ok hop
      exact applyOperations_cons.mpr ⟨hval, ih h⟩

theorem trace_rollback (br : BusRunner) (reverse : Nat → Reaction) (originalState currentState : StateMap) :
    ∀ effect ∈ (br.rollback reverse originalState currentState).trace, ∃ op err, effect = .reverse op err := by
  unfold rollback
  split
  · simp
  · obtain ⟨after, htrace, hafter⟩ := br.trace_reverseAll reverse _ { state := currentState }
    rw [htrace]
    simpa using hafter

variable {originalState currentState : StateMap}

theorem abort_notMem_rollback : .abort ∉ (br.rollback reverse originalState currentState).trace := by
  intro habort
  obtain ⟨op, err, heq⟩ := br.trace_rollback reverse _ _ _ habort
  cases heq

theorem uniqueIDs_slice (h : UniqueIDs currentState.entries) : UniqueIDs (br.stateMapToSlice currentState) :=
  h.perm (br.stateMapToSlice_perm currentState)

theorem get_slice (id : ID) : (newStateMap (br.stateMapToSlice currentState)).get id = currentState.get id :=
  get_newStateMap_of_perm (br.stateMapToSlice_perm currentState) id

theorem nodup_slice (br : BusRunner) (state : StateMap) : ((br.stateMapToSlice state).map Entry.id).Nodup :=
  ((br.stateMapToSlice_perm state).map _).nodup_iff.mpr state.distinct

theorem get_rollback (hcompare : ∀ x y, br.builder.compare x y = true ↔ x = y) (hcur : UniqueIDs currentState.entries)
    (horig : UniqueIDs originalState.entries) (h : ¬ Refused (br.rollback reverse originalState currentState).trace)
    (id : ID) : (br.rollback reverse originalState currentState).state.get id = originalState.get id := by
  obtain ⟨delta, hdelta, hperm⟩ :=
    StateBuilder.buildDelta_perm (b := br.builder) (br.uniqueIDs_slice hcur) (br.uniqueIDs_slice horig)
  unfold rollback at h ⊢
  simp only [hdelta] at h ⊢
  have happ := applyOperations_of_reverseAll h
  rw [StateBuilder.get_of_perm_deltaOperations hcompare (br.nodup_slice _) (br.nodup_slice _) hperm
    (fun id => (get_slice id).symm) happ, get_slice]

section
variable (hcompare : ∀ x y, br.builder.compare x y = true ↔ x = y)
include hcompare

end

/-- A transition has applied its changeset: the state is what the changeset makes of the initial one, and each operation
    has been accepted once. -/
def Applied (initial : State) (cs : ChangeSet) (out : Outcome) : Prop :=
  ∃ result, applyOperations (newStateMap initial) cs = .ok result ∧ out.state.Perm result.entries ∧
    (acceptedOps out.trace).Perm cs

/-- The IDs that a transition can leave. -/
def knownIDs (initial : State) (cs : ChangeSet) : List ID :=
  initial.map Entry.id ++ (cs.filter fun op => decide (op.kind = .create)).map Operation.id

/-- The IDs are told apart by `ID.Equal` and by their identity. -/
def Separate (ids : List ID) : Prop := ∀ a ∈ ids, ∀ b ∈ ids, a ≠ b → a.equal b = false ∧ a.identity ≠ b.identity

variable {initial : State} {env : Environment}

theorem get_of_passes (hsettles : ∀ id, Settles (start.get id) (onID id cs)) {forward : Nat → Reaction}
    (h : br.passes forward cs.length cs { state := start } = (none, p)) :
    (acceptedOps p.trace).Perm cs ∧ ∃ result, applyOperations start cs = .ok result ∧
    ∀ id, p.state.get id = result.get id := by
  have hdone := (underway_of_passes h).2 rfl
  have hcourse := ((course_rule fun id => replay (start.get id) (onID id cs)).passRule.passes
    (fun id => Course.start (hsettles id)) le_rfl h).2 rfl
  exact ⟨by simpa using hdone.perm, applyOperations_of_replay fun id => (hcourse id).done⟩

section
variable (hnd : (initial.map Entry.id).Nodup) (hsep : Separate (knownIDs initial cs))
include hnd hsep

theorem Underway.uniqueIDs (h : Underway (newStateMap initial) cs p deferred remaining) :
    UniqueIDs p.state.entries := by
  have hknown : ∀ entry ∈ p.state.entries, entry.id ∈ knownIDs initial cs := by
    intro entry hentry
    rcases h.exists_create entry.id (by simp [Keyed.get_of_mem hentry]) with hstart | ⟨op, hop, hkind, hid⟩
    · obtain ⟨old, hold⟩ := ne_none_iff_exists'.mp hstart
      obtain ⟨hmem, hid⟩ := (get_newStateMap hnd).mp hold
      rw [← hid]
      exact mem_append_left _ (List.mem_map_of_mem hmem)
    · rw [← hid]
      exact mem_append_right _ (List.mem_map_of_mem (mem_filter.mpr ⟨hop, by simpa using hkind⟩))
  exact .of_nodup p.state.distinct fun a ha b hb => hsep _ (hknown a ha) _ (hknown b hb)

theorem perm_cancelTransition (hcompare : ∀ x y, br.builder.compare x y = true ↔ x = y)
    (h : Underway (newStateMap initial) cs p deferred remaining)
    (hrefused : ¬ Refused (br.rollback reverse (newStateMap initial) p.state).trace) :
    (br.cancelTransition reverse (newStateMap initial) p err).state.Perm initial := by
  refine (br.stateMapToSlice_perm _).trans (.trans ?_ (entries_newStateMap_perm hnd))
  refine Keyed.perm_of_get (get_rollback hcompare (h.uniqueIDs hnd hsep) ?_ hrefused)
  exact (underway_start (newStateMap initial) cs).uniqueIDs hnd hsep

end

theorem transition_cases (br : BusRunner) (initial : State) (cs : ChangeSet) (env : Environment) :
    (∃ err, br.transition initial cs env =
      ⟨br.stateMapToSlice (newStateMap initial), some err, [.abort]⟩) ∨
    ∃ result p, br.passes env.forward cs.length cs { state := newStateMap initial } = (result, p) ∧
      ((∃ err, br.transition initial cs env = br.cancelTransition env.reverse (newStateMap initial) p err) ∨
        result = none ∧ br.transition initial cs env = ⟨br.stateMapToSlice p.state, none, p.trace⟩) := by
  unfold transition
  split
  · exact .inl ⟨_, rfl⟩
  split
  · exact .inl ⟨_, rfl⟩
  refine .inr ?_
  split
  next err p hpasses =>
    exact ⟨_, p, hpasses, .inl ⟨_, rfl⟩⟩
  rename_i p hpasses
  refine ⟨_, p, hpasses, ?_⟩
  split
  · exact .inl ⟨_, rfl⟩
  split
  · exact .inl ⟨_, rfl⟩
  · exact .inr ⟨rfl, rfl⟩

theorem count_abort_transition (br : BusRunner) (initial : State) (cs : ChangeSet) (env : Environment) :
    (br.transition initial cs env).trace.count .abort =
      if (br.transition initial cs env).err.isSome then 1 else 0 := by
  rcases br.transition_cases initial cs env with ⟨err, heq⟩ | ⟨result, p, hpasses, hend⟩
  · rw [heq]
    rfl
  have hforward : p.trace.count .abort = 0 := by
    refine count_eq_zero.mpr fun habort => ?_
    obtain ⟨deferred, remaining, hended⟩ := (underway_of_passes hpasses).1
    obtain ⟨op, err, heq⟩ := hended.forward _ habort
    cases heq
  rcases hend with ⟨err, heq⟩ | ⟨rfl, heq⟩
  · rw [heq]
    simp [cancelTransition, hforward, count_eq_zero.mpr abort_notMem_rollback]
  · rw [heq]
    exact hforward

theorem transition_succeeded (hsettles : ∀ id, Settles ((newStateMap initial).get id) (onID id cs))
    (herr : (br.transition initial cs env).err = none) : Applied initial cs (br.transition initial cs env) := by
  rcases br.transition_cases initial cs env with ⟨err, heq⟩ | ⟨result, p, hpasses, ⟨err, heq⟩ | ⟨rfl, heq⟩⟩
  · rw [heq] at herr
    cases herr
  · rw [heq] at herr
    cases herr
  · obtain ⟨hperm, result, hresult, hget⟩ := get_of_passes hsettles hpasses
    rw [heq]
    exact ⟨result, hresult, (br.stateMapToSlice_perm _).trans (Keyed.perm_of_get hget), hperm⟩

theorem transition_failed (hcompare : ∀ x y, br.builder.compare x y = true ↔ x = y)
    (hnd : (initial.map Entry.id).Nodup) (hsep : Separate (knownIDs initial cs))
    (herr : (br.transition initial cs env).err ≠ none) (hrefused : ¬ Refused (br.transition initial cs env).trace) :
    (br.transition initial cs env).state.Perm initial := by
  rcases br.transition_cases initial cs env with ⟨err, heq⟩ | ⟨result, p, hpasses, ⟨err, heq⟩ | ⟨rfl, heq⟩⟩
  · rw [heq]
    exact (br.stateMapToSlice_perm _).trans (entries_newStateMap_perm hnd)
  · rw [heq] at hrefused ⊢
    obtain ⟨deferred, remaining, hended⟩ := (underway_of_passes hpasses).1
    refine perm_cancelTransition hnd hsep hcompare hended ?_
    rintro ⟨op, err, hmem⟩
    exact hrefused ⟨op, err, by simp [cancelTransition, hmem]⟩
  · rw [heq] at herr
    exact absurd rfl herr

/-! ### All or nothing -/

end BusRunner

/-- A runner with a listener for every kind. -/
def exactRunner : BusRunner where
  builder := exactBuilder
  internal _ := false
  kindHandled _ := true
  stateMapToSlice sm := sm.entries
  stateMapToSlice_perm _ := .refl _

/-- An update, a delete and a create of one entry, and another create. -/
def replacement : ChangeSet :=
  [{ kind := .update, entry := { id := ⟨[97], [121]⟩, kind := [109], data := [1] } },
    { kind := .delete, entry := { id := ⟨[97], [120]⟩, kind := [107] } },
    { kind := .create, entry := { id := ⟨[97], [120]⟩, kind := [107], data := [1] } },
    { kind := .create, entry := { id := ⟨[97], [122]⟩, kind := [107] } }]

end Wippy.Registry
