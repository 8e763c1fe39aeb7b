import Wippy.Theorems.Registry.SortPerm
import Wippy.Registry.Topology.StateBuilder

/-! The difference of two states leads from one to the other, unless an entry changes its kind: an update that does so
    is refused. -/

namespace Wippy.Registry.Topology
open Lib List Option

namespace StateBuilder
variable {b : StateBuilder} {fromState toState : State} {op : Operation} {delta : ChangeSet}

/-- The operation of a delta on an entry that is the first in one state and the second in the other. -/
def deltaAt (b : StateBuilder) : Option Entry → Option Entry → Option Operation
  | none, none => none
  | some entry, none => some { kind := .delete, entry }
  | none, some entry => some { kind := .create, entry }
  | some old, some entry => if b.compare old entry then none else some { kind := .update, entry }

/-- The deletes of a delta. -/
def removed (fromState toState : State) : ChangeSet :=
  fromState.filterMap fun entry =>
    if ((newStateMap toState).get entry.id).isSome then none else some { kind := .delete, entry }

/-- The creates and updates of a delta. -/
def changed (b : StateBuilder) (fromState toState : State) : ChangeSet :=
  toState.filterMap fun entry => b.deltaAt ((newStateMap fromState).get entry.id) (some entry)

theorem deltaOperations_eq :
    b.deltaOperations fromState toState = removed fromState toState ++ b.changed fromState toState := by
  unfold deltaOperations removed changed
  congr 2
  funext entry
  cases (newStateMap fromState).get entry.id <;> rfl

theorem mem_removed : op ∈ removed fromState toState ↔ op.entry ∈ fromState ∧
    (newStateMap toState).get op.id = none ∧ op = { kind := .delete, entry := op.entry } := by
  unfold removed
  rw [mem_filterMap]
  constructor
  · rintro ⟨entry, hentry, h⟩
    split at h
    · cases h
    next hget =>
      cases h
      exact ⟨hentry, not_isSome_iff_eq_none.mp hget, rfl⟩
  · rintro ⟨hentry, hget, heq⟩
    exact ⟨op.entry, hentry, by rw [hget, heq]; rfl⟩

theorem deltaAt_cases {old new : Option Entry} (h : b.deltaAt old new = some op) :
    (∃ entry, old = some entry ∧ new = none ∧ op = { kind := .delete, entry }) ∨
    (∃ entry, old = none ∧ new = some entry ∧ op = { kind := .create, entry }) ∨
    ∃ x y, old = some x ∧ new = some y ∧ b.compare x y = false ∧ op = { kind := .update, entry := y } := by
  unfold deltaAt at h
  split at h <;> grind

theorem deltaAt_some {old : Option Entry} {entry : Entry} (h : b.deltaAt old (some entry) = some op) :
    op.entry = entry ∧ op.kind ≠ .delete := by
  obtain ⟨_, -, hnew, -⟩ | ⟨_, -, hnew, rfl⟩ | ⟨_, _, -, hnew, -, rfl⟩ := deltaAt_cases h <;> cases hnew <;> simp

theorem mem_changed : op ∈ b.changed fromState toState ↔ op.entry ∈ toState ∧
    b.deltaAt ((newStateMap fromState).get op.id) (some op.entry) = some op := by
  unfold changed
  rw [mem_filterMap]
  constructor
  · rintro ⟨entry, hentry, h⟩
    obtain rfl := (deltaAt_some h).1
    exact ⟨hentry, h⟩
  · exact fun h => ⟨op.entry, h⟩

theorem createUpdates_deltaOperations :
    createUpdates (b.deltaOperations fromState toState) = b.changed fromState toState := by
  rw [deltaOperations_eq, createUpdates, filter_append, filter_eq_nil_iff.mpr, nil_append,
    filter_eq_self]
  · intro op hop
    simpa using (deltaAt_some (mem_changed.mp hop).2).2
  · intro op hop
    rw [(mem_removed.mp hop).2.2]
    simp

theorem deletes_deltaOperations : deletes (b.deltaOperations fromState toState) = removed fromState toState := by
  rw [deltaOperations_eq, deletes, filter_append, filter_eq_self.mpr, filter_eq_nil_iff.mpr,
    append_nil]
  · intro op hop
    simpa using (deltaAt_some (mem_changed.mp hop).2).2
  · intro op hop
    rw [(mem_removed.mp hop).2.2]
    simp

section
variable {R : ID → ID → Prop}

theorem pairwise_removed (h : fromState.Pairwise fun x y => R x.id y.id) :
    (removed fromState toState).Pairwise fun a b => R a.id b.id := by
  refine pairwise_filterMap.mpr (h.imp ?_)
  intro x y hxy op hop op' hop'
  split at hop
  · cases hop
  split at hop'
  · cases hop'
  · cases hop
    cases hop'
    exact hxy

theorem pairwise_changed (h : toState.Pairwise fun x y => R x.id y.id) :
    (b.changed fromState toState).Pairwise fun a b => R a.id b.id := by
  refine pairwise_filterMap.mpr (h.imp ?_)
  intro x y hxy op hop op' hop'
  rw [Operation.id, Operation.id, (deltaAt_some hop).1, (deltaAt_some hop').1]
  exact hxy

end

section
variable (hfrom : (fromState.map Entry.id).Nodup) (hto : (toState.map Entry.id).Nodup)
include hfrom hto

theorem mem_deltaOperations : op ∈ b.deltaOperations fromState toState ↔
    b.deltaAt ((newStateMap fromState).get op.id) ((newStateMap toState).get op.id) = some op := by
  rw [deltaOperations_eq, mem_append, mem_removed, mem_changed]
  constructor
  · rintro (⟨hentry, hget, heq⟩ | ⟨hentry, h⟩)
    · rw [(get_newStateMap hfrom).mpr ⟨hentry, rfl⟩, hget, heq]
      rfl
    · rw [(get_newStateMap hto).mpr ⟨hentry, rfl⟩]
      exact h
  · intro h
    cases hnew : (newStateMap toState).get op.id with
    | some entry =>
      rw [hnew] at h
      obtain rfl := (deltaAt_some h).1
      exact .inr ⟨((get_newStateMap hto).mp hnew).1, h⟩
    | none =>
      cases hold : (newStateMap fromState).get op.id with
      | none =>
        rw [hnew, hold] at h
        cases h
      | some entry =>
        rw [hnew, hold] at h
        cases h
        exact .inl ⟨((get_newStateMap hfrom).mp hold).1, rfl, rfl⟩

theorem nodup_deltaOperations : ((b.deltaOperations fromState toState).map Operation.id).Nodup := by
  rw [deltaOperations_eq, map_append, nodup_append]
  refine ⟨pairwise_map.mpr (pairwise_removed (pairwise_map.mp hfrom)),
    pairwise_map.mpr (pairwise_changed (pairwise_map.mp hto)), ?_⟩
  rintro id hid id' hid' rfl
  obtain ⟨op, hop, rfl⟩ := List.mem_map.mp hid
  obtain ⟨op', hop', heq⟩ := List.mem_map.mp hid'
  have hnone := (mem_removed.mp hop).2.1
  cases hnone.symm.trans ((get_newStateMap hto).mpr ⟨(mem_changed.mp hop').1, heq⟩)

end

theorem buildDelta_perm (hfrom : UniqueIDs fromState) (hto : UniqueIDs toState) :
    ∃ delta, b.buildDelta fromState toState = .ok delta ∧ delta.Perm (b.deltaOperations fromState toState) := by
  obtain ⟨delta, hdelta⟩ :
    ∃ delta, sortChangeSet b.resolver fromState (b.deltaOperations fromState toState) = .ok delta :=
    sortChangeSet_isOk (nodup_deltaOperations hfrom.nodup hto.nodup)
  refine ⟨delta, ?_, ?_⟩
  · unfold buildDelta
    rw [firstDuplicateID_eq_none.mpr hto.identity, firstDuplicateID_eq_none.mpr hfrom.identity]
    simp [hdelta, Except.mapError]
  · refine sortChangeSet_perm ?_ ?_ hdelta
    · rw [createUpdates_deltaOperations]
      exact pairwise_changed (R := fun a b => a.equal b = false) hto.equal
    · rw [deletes_deltaOperations]
      exact pairwise_removed (R := fun a b => a.equal b = false) hfrom.equal

/-- No entry changes its kind. -/
def KeepsKinds (fromState toState : State) : Prop := ∀ x ∈ fromState, ∀ y ∈ toState, x.id = y.id → x.kind = y.kind

instance instDecidableKeepsKinds (fromState toState : State) : Decidable (KeepsKinds fromState toState) :=
  inferInstanceAs (Decidable (∀ x ∈ fromState, ∀ y ∈ toState, x.id = y.id → x.kind = y.kind))

section
variable (hcompare : ∀ x y, b.compare x y = true ↔ x = y)
include hcompare

section
variable (hfrom : (fromState.map Entry.id).Nodup) (hto : (toState.map Entry.id).Nodup)
include hfrom hto

theorem valid_deltaOperations_iff :
    (∀ op ∈ b.deltaOperations fromState toState, op.Valid ((newStateMap fromState).get op.id)) ↔
      KeepsKinds fromState toState := by
  simp only [mem_deltaOperations hfrom hto]
  constructor
  · intro h x hx y hy hid
    by_cases hxy : x = y
    · rw [hxy]
    have hget : (newStateMap fromState).get y.id = some x := (get_newStateMap hfrom).mpr ⟨hx, hid⟩
    obtain ⟨old, hold, hkind⟩ := h { kind := .update, entry := y } (by
      rw [hget, (get_newStateMap hto).mpr ⟨hy, rfl⟩]
      exact if_neg (mt (hcompare x y).mp hxy))
    cases hget.symm.trans hold
    exact hkind
  · intro hkinds op hop
    obtain ⟨_, hold, -, rfl⟩ | ⟨_, hold, -, rfl⟩ | ⟨old, entry, hold, hnew, -, rfl⟩ := deltaAt_cases hop
    · rw [hold]
      exact some_ne_none _
    · exact hold
    · obtain ⟨hmem, hid⟩ := (get_newStateMap hfrom).mp hold
      exact ⟨old, hold, hkinds old hmem entry ((get_newStateMap hto).mp hnew).1 hid⟩

/-- An operation of the difference leaves what the target has, and there is something else before it. -/
theorem outcome_of_mem_deltaOperations (hop : op ∈ b.deltaOperations fromState toState) :
    (newStateMap toState).get op.id = op.outcome ∧ (newStateMap fromState).get op.id ≠ op.outcome := by
  obtain ⟨_, hold, hnew, rfl⟩ | ⟨_, hold, hnew, rfl⟩ | ⟨old, entry, hold, hnew, hcmp, rfl⟩ :=
    deltaAt_cases ((mem_deltaOperations hfrom hto).mp hop)
  · exact ⟨hnew, hold ▸ some_ne_none _⟩
  · exact ⟨hnew, hold ▸ (some_ne_none _).symm⟩
  · refine ⟨hnew, fun hsame => ?_⟩
    rw [(hcompare old entry).mpr (Option.some.inj (hold.symm.trans hsame))] at hcmp
    cases hcmp

theorem get_of_deltaOperations {result : StateMap}
    (hmem : ∀ op ∈ b.deltaOperations fromState toState, result.get op.id = op.outcome)
    (hrest : ∀ id, id ∉ (b.deltaOperations fromState toState).map Operation.id →
      result.get id = (newStateMap fromState).get id) (id : ID) : result.get id = (newStateMap toState).get id := by
  by_cases hid : id ∈ (b.deltaOperations fromState toState).map Operation.id
  · obtain ⟨op, hop, rfl⟩ := List.mem_map.mp hid
    rw [hmem op hop, (outcome_of_mem_deltaOperations hcompare hfrom hto hop).1]
  · -- An entry that the difference leaves alone is the same in both states.
    rw [hrest id hid]
    by_contra hne
    obtain ⟨op, hop, rfl⟩ : ∃ op, b.deltaAt ((newStateMap fromState).get id) ((newStateMap toState).get id) =
        some op ∧ op.id = id := by
      cases hold : (newStateMap fromState).get id with
      | none =>
        cases hnew : (newStateMap toState).get id with
        | none => exact absurd (hold.trans hnew.symm) hne
        | some entry => exact ⟨_, rfl, (Keyed.key_of_get hnew : entry.id = id)⟩
      | some old =>
        cases hnew : (newStateMap toState).get id with
        | none => exact ⟨_, rfl, (Keyed.key_of_get hold : old.id = id)⟩
        | some entry =>
          refine ⟨_, if_neg fun hsame => hne ?_, (Keyed.key_of_get hnew : entry.id = id)⟩
          rw [hold, hnew, (hcompare old entry).mp hsame]
    exact hid (List.mem_map_of_mem ((mem_deltaOperations hfrom hto).mpr hop))

theorem get_of_perm_deltaOperations {ops : ChangeSet}
    (hperm : ops.Perm (b.deltaOperations fromState toState)) {state result : StateMap}
    (hstate : ∀ id, state.get id = (newStateMap fromState).get id) (happ : applyOperations state ops = .ok result)
    (id : ID) : result.get id = (newStateMap toState).get id := by
  obtain ⟨hmem, hrest⟩ := get_applyOperations ((hperm.map _).nodup_iff.mpr (nodup_deltaOperations hfrom hto)) happ
  refine get_of_deltaOperations hcompare hfrom hto ?_ ?_ id
  · intro op hop
    exact hmem op (hperm.mem_iff.mpr hop)
  · intro id hid
    rw [hrest id fun h => hid ((hperm.map Operation.id).mem_iff.mp h)]
    exact hstate id

end
end

theorem perm_of_buildDelta (hfrom : UniqueIDs fromState) (hto : UniqueIDs toState)
    (hdelta : b.buildDelta fromState toState = .ok delta) : delta.Perm (b.deltaOperations fromState toState) := by
  obtain ⟨delta', hdelta', hperm⟩ := buildDelta_perm (b := b) hfrom hto
  rw [hdelta] at hdelta'
  cases hdelta'
  exact hperm

theorem applyOperations_buildDelta_iff (hcompare : ∀ x y, b.compare x y = true ↔ x = y) (hfrom : UniqueIDs fromState)
    (hto : UniqueIDs toState) (hdelta : b.buildDelta fromState toState = .ok delta) {state : StateMap}
    (hstate : ∀ id, state.get id = (newStateMap fromState).get id) :
    (∃ result, applyOperations state delta = .ok result) ↔ KeepsKinds fromState toState := by
  have hperm := perm_of_buildDelta hfrom hto hdelta
  rw [← valid_deltaOperations_iff hcompare hfrom.nodup hto.nodup,
    applyOperations_eq_ok ((hperm.map _).nodup_iff.mpr (nodup_deltaOperations hfrom.nodup hto.nodup))]
  refine forall_congr' fun op => ?_
  rw [hperm.mem_iff, hstate]

/-- The delta leads from the first state to the second. -/
def Executable (b : StateBuilder) (fromState toState : State) : Prop :=
  ∃ delta, b.buildDelta fromState toState = .ok delta ∧
    ∃ result, applyOperations (newStateMap fromState) delta = .ok result ∧
      ∀ id, result.get id = (newStateMap toState).get id

/-- The difference can be built, applied and leads to the target, exactly when no entry has another kind in the target.
    -/
theorem buildDelta_executable_iff (hcompare : ∀ x y, b.compare x y = true ↔ x = y) (hfrom : UniqueIDs fromState)
    (hto : UniqueIDs toState) : b.Executable fromState toState ↔ KeepsKinds fromState toState := by
  obtain ⟨delta, hdelta, -⟩ := buildDelta_perm (b := b) hfrom hto
  rw [← applyOperations_buildDelta_iff hcompare hfrom hto hdelta fun _ => rfl]
  constructor
  · rintro ⟨delta', hdelta', result, hresult, -⟩
    rw [hdelta] at hdelta'
    cases hdelta'
    exact ⟨result, hresult⟩
  · rintro ⟨result, hresult⟩
    exact ⟨delta, hdelta, result, hresult,
      get_of_perm_deltaOperations hcompare hfrom.nodup hto.nodup (perm_of_buildDelta hfrom hto hdelta)
        (fun _ => rfl) hresult⟩

end StateBuilder

/-- No dependencies but those declared. -/
def plainResolver : Resolver where
  extract _ := []
  environment _ := []
  variableName _ := []
  environment_ne := by simp

/-- Entries are compared as they are. -/
def exactBuilder : StateBuilder where
  resolver := plainResolver
  compare x y := decide (x = y)

theorem exactBuilder_compare (x y : Entry) : exactBuilder.compare x y = true ↔ x = y := by simp [exactBuilder]

/-- The entries `a:x` and `a:y`, where `x` depends on `y`, and what they become: `y` has new data and `x` is gone. -/
def beforeDelta : State :=
  [{ id := ⟨[97], [120]⟩, kind := [107], dependsOn := [[121]] }, { id := ⟨[97], [121]⟩, kind := [107] }]

/-- A state to go to. -/
def afterDelta : State :=
  [{ id := ⟨[97], [121]⟩, kind := [107], data := [1] }, { id := ⟨[97], [122]⟩, kind := [109], dependsOn := [[121]] }]

theorem beforeDelta_executable : UniqueIDs beforeDelta ∧ UniqueIDs afterDelta ∧
    exactBuilder.Executable beforeDelta afterDelta :=
  have hfrom : UniqueIDs beforeDelta := by decide
  have hto : UniqueIDs afterDelta := by decide
  ⟨hfrom, hto, (StateBuilder.buildDelta_executable_iff exactBuilder_compare hfrom hto).mpr (by decide)⟩

/-- One entry whose kind goes from `k` to `m` has a difference that is refused. -/
theorem kindSwap_not_executable :
    ¬ ∀ (b : StateBuilder) (fromState toState : State), (∀ x y, b.compare x y = true ↔ x = y) →
      UniqueIDs fromState → UniqueIDs toState → b.Executable fromState toState := by
  intro h
  obtain ⟨delta, hdelta, result, hresult, -⟩ :=
    h exactBuilder [{ id := ⟨[97], [120]⟩, kind := [107] }] [{ id := ⟨[97], [120]⟩, kind := [109] }]
      exactBuilder_compare
      (by decide) (by decide)
  cases hdelta
  cases hresult

end Wippy.Registry.Topology
