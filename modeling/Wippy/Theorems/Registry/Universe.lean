import Wippy.Theorems.Registry.DepIndex
import Wippy.Registry.Topology.SortChangeSet

/-! The dependencies that a changeset is sorted by, against those of the state that it leads to. -/

namespace Wippy.Registry.Topology
open Lib List Option

variable {resolver : Resolver} {fromState : State} {changes : ChangeSet} {index : Option DepIndex}
  {names : List Bytes}

/-- The state that a changeset leads to: its removals first, then its creates and updates. -/
def resultState (fromState : State) (changes : ChangeSet) : StateMap :=
  ((createUpdates changes).map Operation.entry).foldl Keyed.put
    (((deletes changes).map Operation.id).foldl Keyed.del (newStateMap fromState))

theorem get_resultState (fromState : State) (changes : ChangeSet) (id : ID) :
    (resultState fromState changes).get id = ((changedEntries changes).get id).or
      (if ((deletes changes).map Operation.id).contains id then none else (newStateMap fromState).get id) := by
  unfold resultState changedEntries
  rw [Keyed.get_foldl_put, Keyed.get_foldl_del, ← Keyed.get_ofList_eq]
  rfl

theorem get_resultState_of_changed {id : ID} {entry : Entry}
    (h : (changedEntries changes).get id = some entry) : (resultState fromState changes).get id = some entry := by
  rw [get_resultState, h, some_or]

/-- The variable of an entry, if it is among `names`. -/
def referencedName (resolver : Resolver) (names : List Bytes) (entry : Entry) : Option Bytes :=
  if names.contains (envVariableName resolver entry) then some (envVariableName resolver entry) else none

theorem lookup_provided_of_index {d : DepIndex} {m : StateMap} (h : Indexes resolver d m) (names : List Bytes)
    (byID : Map ID Bytes) (id : ID) :
    (names.foldl (fun byID name => (idsAt d.variableNames name).foldl (fun byID id => byID.insert id name) byID)
        byID).lookup id =
      (((m.get id).bind (declaredName resolver)).filter names.contains).or (byID.lookup id) := by
  have hmem : ∀ name, id ∈ idsAt d.variableNames name ↔ (m.get id).bind (declaredName resolver) = some name := by
    intro name
    rw [mem_idsAt, h.variableNames, bind_eq_some_iff]
    simp
  induction names generalizing byID with
  | nil =>
    cases (m.get id).bind (declaredName resolver) <;> simp [Option.filter]
  | cons name names ih =>
    rw [foldl_cons, ih, Map.lookup_foldl_insert_const]
    by_cases hname : (m.get id).bind (declaredName resolver) = some name
    · rw [if_pos ((hmem name).mpr hname), hname]
      by_cases hin : name ∈ names <;> simp [Option.filter, hin]
    rw [if_neg (fun hc => hname ((hmem name).mp hc))]
    cases hd : (m.get id).bind (declaredName resolver) with
    | none => simp
    | some name' =>
      rw [hd] at hname
      have hne : name' ≠ name := fun heq => hname (congrArg some heq)
      by_cases hin : name' ∈ names <;> simp [Option.filter, hin, hne]

theorem lookup_provided_of_scan {state : State} (hnd : (state.map Entry.id).Nodup) (names : List Bytes)
    (byID : Map ID Bytes) (id : ID) : (state.foldl (fun byID entry =>
        if envVariableName resolver entry ≠ [] && names.contains (envVariableName resolver entry) then
          byID.insert entry.id (envVariableName resolver entry)
        else byID) byID).lookup id =
      ((((newStateMap state).get id).bind (declaredName resolver)).filter names.contains).or (byID.lookup id) := by
  induction state generalizing byID with
  | nil => rfl
  | cons entry state ih =>
    obtain ⟨hentry, hnd⟩ := nodup_cons.mp hnd
    rw [foldl_cons, ih hnd, newStateMap, newStateMap, Keyed.get_ofList_cons]
    by_cases hid : entry.id = id
    · subst hid
      have hnone : (newStateMap state).get entry.id = none := by
        rw [← not_isSome_iff_eq_none, get_newStateMap_isSome hnd]
        exact hentry
      rw [newStateMap] at hnone
      rw [hnone, none_or, if_pos rfl]
      by_cases hname : envVariableName resolver entry = []
      · simp [declaredName, hname]
      · by_cases hin : envVariableName resolver entry ∈ names
        · simp [declaredName, hname, hin, Option.filter]
        · simp [declaredName, hname, hin, Option.filter]
    · rw [if_neg hid, or_none]
      congr 1
      split
      · exact AList.lookup_insert_ne (Ne.symm hid)
      · rfl

/-- The index, if there is one, is that of the state. -/
def Keeps (resolver : Resolver) (index : Option DepIndex) (m : StateMap) : Prop :=
  ∀ d, index = some d → Indexes resolver d m

theorem lookup_providedVariables (hnd : (fromState.map Entry.id).Nodup)
    (hidx : Keeps resolver index (newStateMap fromState)) (hne : [] ∉ names) (id : ID) :
    (providedVariables resolver fromState index names).lookup id =
      ((newStateMap fromState).get id).bind (referencedName resolver names) := by
  have hnames : (((newStateMap fromState).get id).bind (declaredName resolver)).filter names.contains =
      ((newStateMap fromState).get id).bind (referencedName resolver names) := by
    cases (newStateMap fromState).get id with
    | none => rfl
    | some entry =>
      simp only [bind_some, declaredName, referencedName]
      by_cases hname : envVariableName resolver entry = []
      · simp [hname, hne]
      · by_cases hin : envVariableName resolver entry ∈ names <;> simp [hname, hin, Option.filter]
  unfold providedVariables
  cases hi : index with
  | none =>
    rw [lookup_provided_of_scan hnd, hnames]
    simp
  | some d =>
    rw [lookup_provided_of_index (hidx d hi), hnames]
    simp

theorem lookup_foldl_changed (names : List Bytes) (ops : ChangeSet) (byID : Map ID Bytes) (id : ID) :
    (ops.foldl (fun byID op =>
        if names.contains (envVariableName resolver op.entry) then byID.insert op.id (envVariableName resolver op.entry)
        else byID.erase op.id) byID).lookup id =
      match (newStateMap (ops.map Operation.entry)).get id with
      | some entry => referencedName resolver names entry
      | none => byID.lookup id := by
  unfold newStateMap
  induction ops generalizing byID with
  | nil => rfl
  | cons op ops ih =>
    rw [foldl_cons, ih, map_cons, Keyed.get_ofList_cons]
    cases (Keyed.ofList (ops.map Operation.entry) : StateMap).get id with
    | some entry => rfl
    | none =>
      rw [none_or]
      by_cases hid : op.entry.id = id
      · rw [if_pos hid]
        simp only [referencedName]
        split
        · rw [← hid, AList.lookup_insert]
        · rw [← hid, AList.lookup_erase]
      · simp only [if_neg hid]
        split
        · exact AList.lookup_insert_ne (Ne.symm hid)
        · exact AList.lookup_erase_ne (Ne.symm hid)

theorem mem_environmentVariablesForChanges (hnd : (fromState.map Entry.id).Nodup)
    (hidx : Keeps resolver index (newStateMap fromState)) (hne : [] ∉ names) {name : Bytes} (hname : name ∈ names)
    {id : ID} :
    id ∈ environmentVariablesForChanges resolver fromState changes index names name ↔
      id ∈ declarants resolver (resultState fromState changes) name := by
  have hlookup : (changedVariables resolver changes names
    (providedVariables resolver fromState index names)).lookup id =
      ((resultState fromState changes).get id).bind (referencedName resolver names) := by
    unfold changedVariables
    rw [lookup_foldl_changed, Map.lookup_foldl_erase, lookup_providedVariables hnd hidx hne, get_resultState,
      changedEntries]
    cases (newStateMap ((createUpdates changes).map Operation.entry)).get id with
    | some entry => rfl
    | none =>
      simp only [contains_iff_mem]
      split <;> rfl
  have hkeys : id ∈ environmentVariablesForChanges resolver fromState changes index names name ↔
      (changedVariables resolver changes names (providedVariables resolver fromState index names)).lookup id =
        some name := by
    unfold environmentVariablesForChanges
    rw [mem_filter, decide_eq_true_eq, and_iff_right_of_imp]
    intro h
    exact AList.mem_keys.mpr (AList.lookup_isSome.mp (by rw [h]; rfl))
  rw [hkeys, hlookup, mem_declarants, bind_eq_some_iff]
  refine exists_congr fun entry => and_congr_right fun _ => ?_
  unfold referencedName
  have hnonempty : name ≠ [] := fun h => hne (h ▸ hname)
  constructor
  · intro h
    split at h
    · exact ⟨hnonempty, Option.some.inj h⟩
    · cases h
  · rintro ⟨-, rfl⟩
    rw [if_pos (by simpa using hname)]

theorem referencedNames_ne (changes : ChangeSet) : [] ∉ referencedNames resolver changes := by
  intro h
  obtain ⟨⟨id, keys⟩, hkeys, hmem⟩ := mem_flatMap.mp h
  obtain ⟨entry, -, rfl⟩ := mem_dependencyKeys.mp hkeys
  exact resolver.environment_ne entry [] hmem rfl

theorem mem_dependencyUniverse
    (hnd : (fromState.map Entry.id).Nodup) (hidx : Keeps resolver index (newStateMap fromState)) {source target : ID}
    (hsource : ((changedEntries changes).get source).isSome = true)
    (htarget : ((changedEntries changes).get target).isSome = true)
    (h : (source, target) ∈ visitDependencies resolver (resultState fromState changes)) :
    (source, target) ∈ dependencyUniverse resolver fromState changes index := by
  obtain ⟨entry, hentry⟩ := isSome_iff_exists.mp hsource
  obtain ⟨te, hte⟩ := isSome_iff_exists.mp htarget
  obtain ⟨entry', hentry', ht⟩ := mem_visitDependencies.mp h
  rw [get_resultState_of_changed hentry] at hentry'
  cases hentry'
  have hres : (resultState fromState changes).get target = some te := get_resultState_of_changed hte
  have hkeys : (source, extractDepKeys resolver entry) ∈ dependencyKeys resolver (changedEntries changes) :=
    mem_dependencyKeys.mpr ⟨entry, hentry, rfl⟩
  refine mem_visitDependencyKeys.mpr ⟨_, hkeys, ?_⟩
  refine (mem_targets_congr (hres.trans hte.symm) fun name hname id => ?_).mp ht
  have hin : name ∈ referencedNames resolver changes := mem_flatMap.mpr ⟨_, hkeys, hname⟩
  rw [if_neg (ne_nil_of_mem hin), getD_some]
  exact (mem_environmentVariablesForChanges hnd hidx (referencedNames_ne changes) hin).symm

end Wippy.Registry.Topology
