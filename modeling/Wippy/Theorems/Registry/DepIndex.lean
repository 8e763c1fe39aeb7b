import Wippy.Theorems.Pid
import Wippy.Theorems.Registry.Dependencies
import Wippy.Registry.Topology.DepIndex

/-! The index of dependents against the dependencies of its state. The key of an ID is its string, and two IDs can have
    one string when a namespace contains a colon. -/

namespace Wippy.Registry.Topology
open Lib List Option Map

variable {resolver : Resolver} {d : DepIndex} {m m' : StateMap} {entry : Entry} {id : ID} {changes : ChangeSet}
  {ns name : Bytes}

section sets
variable {κ : Type} [DecidableEq κ] {l : List (κ × ID)} {m : StateMap} {f : Entry → List κ} {key : κ} {keys : List κ}

theorem mem_idsAt : id ∈ idsAt l key ↔ (key, id) ∈ l := by
  unfold idsAt
  rw [List.mem_map]
  constructor
  · rintro ⟨⟨k, x⟩, hpair, rfl⟩
    obtain ⟨hpair, hk⟩ := mem_filter.mp hpair
    rw [decide_eq_true_eq] at hk
    exact hk ▸ hpair
  · intro hpair
    exact ⟨(key, id), mem_filter.mpr ⟨hpair, by simp⟩, rfl⟩

omit [DecidableEq κ] in
theorem mem_pairs {x : ID} : (key, x) ∈ keys.map (fun key => (key, id)) ↔ key ∈ keys ∧ x = id := by
  rw [List.mem_map]
  constructor
  · rintro ⟨k, hk, heq⟩
    cases heq
    exact ⟨hk, rfl⟩
  · rintro ⟨hk, rfl⟩
    exact ⟨key, hk, rfl⟩

theorem mem_addID {x : ID} : (key, x) ∈ addID l keys id ↔ (key ∈ keys ∧ x = id) ∨ (key, x) ∈ l := by
  unfold addID
  rw [mem_union_iff, mem_pairs]

theorem mem_delID {x : ID} : (key, x) ∈ delID l keys id ↔ (key, x) ∈ l ∧ ¬ (key ∈ keys ∧ x = id) := by
  unfold delID
  rw [mem_filter, Bool.not_eq_true', ← Bool.not_eq_true, contains_iff_mem, mem_pairs]

/-- The list has the keys of every entry, and no others. -/
def Holds (l : List (κ × ID)) (m : StateMap) (f : Entry → List κ) : Prop :=
  ∀ key id, (key, id) ∈ l ↔ ∃ entry, m.get id = some entry ∧ key ∈ f entry

omit [DecidableEq κ] in
theorem Holds.congr (h : Holds l m f) (hm : ∀ id, m.get id = m'.get id) : Holds l m' f := by
  intro key id
  rw [h key id, hm]

theorem Holds.add (h : Holds l m f) (hnew : m.get entry.id = none) :
    Holds (addID l (f entry) entry.id) (m.put entry) f := by
  intro key id
  rw [mem_addID, h key id, Keyed.get_put]
  by_cases hid : id = entry.id
  · subst hid
    simp [hnew]
  · simp [hid]

theorem Holds.del (h : Holds l m f) (hget : m.get entry.id = some entry) :
    Holds (delID l (f entry) entry.id) (m.del entry.id) f := by
  intro key id
  rw [mem_delID, h key id, Keyed.get_del]
  by_cases hid : id = entry.id
  · subst hid
    simp [hget]
  · simp [hid]

end sets

/-! ### What the index holds -/

/-- The keys under which a reference to a variable of `entry` is kept for when no variable has the name. -/
def fallbackKeys (resolver : Resolver) (entry : Entry) : List Bytes :=
  (extractDepKeys resolver entry).env.map (environmentFallbackKey entry.id.ns)

/-- The variable that an entry declares. -/
def declaredName (resolver : Resolver) (entry : Entry) : Option Bytes :=
  if envVariableName resolver entry = [] then none else some (envVariableName resolver entry)

/-- The index is that of the state. -/
structure Indexes (resolver : Resolver) (d : DepIndex) (m : StateMap) : Prop where
  direct : Holds d.direct m fun entry => (extractDepKeys resolver entry).direct
  group : Holds d.group m fun entry => (extractDepKeys resolver entry).groups
  ns : Holds d.ns m fun entry => (extractDepKeys resolver entry).ns
  env : Holds d.env m fun entry => (extractDepKeys resolver entry).env
  envFallback : Holds d.envFallback m (fallbackKeys resolver)
  declared : ∀ id, d.declared.lookup id = (m.get id).bind (declaredName resolver)
  variableNames : Holds d.variableNames m fun entry => (declaredName resolver entry).toList
  ownDeps : ∀ id, d.ownDeps.lookup id = (m.get id).map (extractDepKeys resolver)

namespace Indexes
variable {d : DepIndex} {m : StateMap}

theorem congr (h : Indexes resolver d m) (hm : ∀ id, m.get id = m'.get id) : Indexes resolver d m' where
  direct := h.direct.congr hm
  group := h.group.congr hm
  ns := h.ns.congr hm
  env := h.env.congr hm
  envFallback := h.envFallback.congr hm
  declared id := hm id ▸ h.declared id
  variableNames := h.variableNames.congr hm
  ownDeps id := hm id ▸ h.ownDeps id

theorem empty : Indexes resolver {} Keyed.empty := by
  constructor <;> intros <;> simp [Holds]

theorem add (h : Indexes resolver d m) (hnew : m.get entry.id = none) :
    Indexes resolver (d.add resolver entry) (m.put entry) where
  direct := h.direct.add hnew
  group := h.group.add hnew
  ns := h.ns.add hnew
  env := h.env.add hnew
  envFallback := h.envFallback.add hnew
  declared id := by
    rw [Keyed.get_put]
    unfold DepIndex.add
    by_cases hname : envVariableName resolver entry = []
    · simp only [hname, ne_eq, not_true_eq_false, if_false, h.declared id]
      by_cases hid : id = entry.id
      · simp [hid, hnew, declaredName, hname]
      · simp [hid]
    · simp only [hname, ne_eq, not_false_eq_true, if_true]
      rw [lookup_insert_eq, h.declared id]
      by_cases hid : id = entry.id
      · simp [hid, declaredName, hname]
      · simp [hid]
  variableNames := by
    have hadd := h.variableNames.add hnew
    unfold DepIndex.add
    by_cases hname : envVariableName resolver entry = []
    · have hnone : declaredName resolver entry = none := if_pos hname
      simpa [hname, hnone, addID] using hadd
    · have hsome : declaredName resolver entry = some (envVariableName resolver entry) := if_neg hname
      simpa [hname, hsome] using hadd
  ownDeps id := by
    unfold DepIndex.add
    rw [Keyed.get_put, lookup_insert_eq, h.ownDeps id]
    by_cases hid : id = entry.id
    · simp [hid]
    · simp [hid]

theorem remove (h : Indexes resolver d m) : Indexes resolver (d.remove id) (m.del id) := by
  unfold DepIndex.remove
  rw [h.ownDeps id]
  cases hget : m.get id with
  | none =>
    refine h.congr fun id' => ?_
    rw [Keyed.get_del]
    by_cases hid : id' = id
    · rw [if_pos hid, hid, hget]
    · rw [if_neg hid]
  | some entry =>
    have hid := Keyed.key_of_get hget
    subst hid
    simp only [map_some]
    exact {
      direct := h.direct.del hget
      group := h.group.del hget
      ns := h.ns.del hget
      env := h.env.del hget
      envFallback := h.envFallback.del hget
      declared := fun id => by
        rw [lookup_erase_eq, Keyed.get_del, h.declared id]
        split <;> rfl
      variableNames := by
        have hdel := h.variableNames.del hget
        rw [h.declared, hget]
        exact hdel
      ownDeps := fun id => by
        rw [lookup_erase_eq, Keyed.get_del, h.ownDeps id]
        split <;> rfl }

/-- The entry that an operation replaces, where it carries one, has the ID of the operation. -/
def Originals (op : Operation) : Prop := ∀ original, op.originalEntry = some original → original.id = op.id

theorem patchOp {op : Operation} (h : Indexes resolver d m) (hop : op.Valid (m.get op.id)) (horig : Originals op) :
    Indexes resolver (d.patchOp resolver op) (applyValidatedOperation m op) := by
  unfold DepIndex.patchOp applyValidatedOperation
  unfold Operation.Valid at hop
  cases hkind : op.kind with
  | create =>
    rw [hkind] at hop
    exact h.add hop
  | update =>
    have hid : (op.originalEntry.getD op.entry).id = op.id := by
      cases hprev : op.originalEntry with
      | none => rfl
      | some original => exact horig original hprev
    have hnew : (m.del op.id).get op.entry.id = none := by rw [Keyed.get_del, if_pos rfl]
    simp only [DepIndex.onUpdate]
    rw [hid]
    refine (h.remove.add hnew).congr fun id => ?_
    rw [Keyed.get_put, Keyed.get_put, Keyed.get_del]
    split <;> rfl
  | delete => exact h.remove

theorem buildDepIndex {state : State} (hnd : (state.map Entry.id).Nodup) :
    Indexes resolver (DepIndex.buildDepIndex resolver state) (newStateMap state) := by
  suffices H : ∀ (d : DepIndex) (m : StateMap), Indexes resolver d m → (∀ entry ∈ state, m.get entry.id = none) →
      Indexes resolver (state.foldl (DepIndex.add resolver) d) (state.foldl Keyed.put m) from
    H _ _ empty fun _ _ => rfl
  induction state with
  | nil => exact fun _ _ h _ => h
  | cons entry state ih =>
    intro d m h hnew
    obtain ⟨hentry, hnd⟩ := nodup_cons.mp hnd
    refine ih hnd _ _ (h.add (hnew entry mem_cons_self)) fun e he => ?_
    have hne : e.id ≠ entry.id := fun heq => hentry (heq ▸ List.mem_map_of_mem he)
    rw [Keyed.get_put, if_neg hne]
    exact hnew e (mem_cons_of_mem _ he)

theorem isEmpty_variableNames (h : Indexes resolver d m) (name : Bytes) :
    (idsAt d.variableNames name).isEmpty = true ↔ declarants resolver m name = [] := by
  rw [List.isEmpty_iff, eq_nil_iff_forall_not_mem, eq_nil_iff_forall_not_mem]
  refine forall_congr' fun id => not_congr ?_
  rw [mem_idsAt, h.variableNames, mem_declarants]
  refine exists_congr fun entry => and_congr_right fun _ => ?_
  beta_reduce
  unfold declaredName
  by_cases hname : envVariableName resolver entry = []
  · simp only [hname, if_true, toList_none, not_mem_nil, false_iff, not_and]
    intro hne heq
    exact hne heq.symm
  · rw [if_neg hname, toList_some, mem_singleton]
    constructor
    · rintro rfl
      exact ⟨hname, rfl⟩
    · rintro ⟨-, rfl⟩
      rfl

theorem mem_environmentFallbackDependents (h : Indexes resolver d m) {key : Bytes} :
    id ∈ d.environmentFallbackDependents key ↔
      ∃ entry, m.get id = some entry ∧ ∃ name ∈ (extractDepKeys resolver entry).env,
        declarants resolver m name = [] ∧ environmentFallbackKey id.ns name = key := by
  unfold DepIndex.environmentFallbackDependents
  rw [mem_filter, mem_idsAt, h.envFallback, h.ownDeps id]
  cases hget : m.get id with
  | none => simp
  | some entry =>
    obtain rfl := Keyed.key_of_get hget
    simp only [some.injEq, exists_eq_left', map_some, getD_some, List.any_eq_true, Bool.and_eq_true,
      h.isEmpty_variableNames, decide_eq_true_eq, fallbackKeys, List.mem_map]
    refine and_iff_right_of_imp ?_
    rintro ⟨name, hname, -, hkey⟩
    exact ⟨name, hname, hkey⟩

end Indexes

/-- What a reference to a name means for `entry` when no variable has the name. -/
def Means (entry : Entry) (ns name : Bytes) : Prop :=
  match parseDependency name with
  | .group value => value ∈ entry.groups
  | .ns value => entry.id.ns ≠ [] ∧ entry.id.ns = value
  | .direct value => resolveDependencyID ns value = entry.id

/-- A reference from the namespace `ns` finds the entry. -/
def Finds (entry : Entry) (ns name : Bytes) : Prop :=
  match parseDependency name with
  | .group value => value ∈ entry.groups
  | .ns value => entry.id.ns ≠ [] ∧ entry.id.ns = value
  | .direct value => (resolveDependencyID ns value).string = entry.id.string

theorem Means.finds (h : Means entry ns name) : Finds entry ns name := by
  unfold Means at h
  unfold Finds
  cases hdep : parseDependency name with
  | group value => simpa [hdep] using h
  | ns value => simpa [hdep] using h
  | direct value =>
    rw [hdep] at h
    exact congrArg ID.string h

theorem Finds.cases (h : Finds entry ns name) : Means entry ns name ∨
    ∃ value, parseDependency name = .direct value ∧ (resolveDependencyID ns value).string = entry.id.string := by
  unfold Finds at h
  unfold Means
  cases hdep : parseDependency name with
  | group value => exact .inl (by simpa [hdep] using h)
  | ns value => exact .inl (by simpa [hdep] using h)
  | direct value => exact .inr ⟨value, rfl, by simpa [hdep] using h⟩

theorem finds_iff :
    (environmentFallbackKey ns name = idPrefix ++ entry.id.string ∨
      (∃ g ∈ entry.groups, environmentFallbackKey ns name = groupPrefix ++ g) ∨
      entry.id.ns ≠ [] ∧ environmentFallbackKey ns name = nsPrefix ++ entry.id.ns) ↔ Finds entry ns name := by
  unfold environmentFallbackKey Finds
  cases parseDependency name with
  | direct value => simp [idPrefix, groupPrefix, nsPrefix]
  | group value => simp [idPrefix, groupPrefix, nsPrefix]
  | ns value => simp [idPrefix, groupPrefix, nsPrefix, eq_comm]

namespace Indexes
variable {d : DepIndex} {m : StateMap} {entry : Entry} {id : ID}

/-- The declarations of `source` that lead to `entry` without a reference to a variable. -/
def Declares (resolver : Resolver) (source entry : Entry) : Prop :=
  entry.id ∈ (extractDepKeys resolver source).direct ∨
    (∃ g ∈ (extractDepKeys resolver source).groups, g ∈ entry.groups) ∨
    entry.id.ns ≠ [] ∧ entry.id.ns ∈ (extractDepKeys resolver source).ns

/-- A reference of `source` to a variable leads to `entry`, by its name or by what `reads` makes of it. -/
def Refers (resolver : Resolver) (m : StateMap) (reads : Bytes → Bytes → Prop) (source entry : Entry) : Prop :=
  ∃ name ∈ (extractDepKeys resolver source).env, envVariableName resolver entry = name ∨
    declarants resolver m name = [] ∧ reads source.id.ns name

theorem Refers.finds {source : Entry} (h : Refers resolver m (Means entry) source entry) :
    Refers resolver m (Finds entry) source entry := by
  obtain ⟨name, hname, heq | ⟨hnone, hmeans⟩⟩ := h
  · exact ⟨name, hname, .inl heq⟩
  · exact ⟨name, hname, .inr ⟨hnone, hmeans.finds⟩⟩

theorem mem_dependents (h : Indexes resolver d m) : id ∈ d.dependents resolver entry ↔
    id.equal entry.id = false ∧ ∃ source, m.get id = some source ∧
      (Refers resolver m (Finds entry) source entry ∨ Declares resolver source entry) := by
  have hns (l : List ID) : id ∈ (if entry.id.ns = [] then [] else l) ↔ entry.id.ns ≠ [] ∧ id ∈ l := by
    split <;> simp_all
  unfold DepIndex.dependents
  simp only [mem_filter, mem_append, mem_flatMap, mem_idsAt, hns, h.mem_environmentFallbackDependents, h.env _ _,
    h.direct _ _, h.group _ _, h.ns _ _, Bool.not_eq_true', Refers, Declares, ← finds_iff]
  rw [and_comm]
  refine and_congr_right fun _ => ?_
  cases hget : m.get id with
  | none => simp
  | some source =>
    -- What is left is about the keys of one entry.
    obtain rfl := Keyed.key_of_get hget
    simp only [some.injEq, exists_eq_left']
    grind

end Indexes

theorem mem_visitDependencies_entry (hentry : m.get entry.id = some entry) :
    (id, entry.id) ∈ visitDependencies resolver m ↔
      id.equal entry.id = false ∧ ∃ source, m.get id = some source ∧
        (Indexes.Refers resolver m (Means entry) source entry ∨ Indexes.Declares resolver source entry) := by
  rw [mem_visitDependencies, ID.equal_comm id entry.id, and_comm, ← exists_and_right]
  refine exists_congr fun source => ?_
  rw [and_assoc]
  refine and_congr_right fun hget => ?_
  simp only [mem_targets, hentry, isSome_some, and_true]
  refine and_congr_left fun _ => or_congr ?_ (or_congr_right (or_congr ?_ ?_))
  · refine exists_congr fun name => and_congr_right fun hname => ?_
    rw [mem_environmentTargets (resolver.environment_ne source name hname) hentry, ← Keyed.key_of_get hget]
    rfl
  · simp only [mem_groupMembers, hentry, some.injEq, exists_eq_left']
  · simp only [mem_nsMembers, hentry, isSome_some, true_and]
    grind

/-- No entry has a reference that no variable answers and that reads as an ID with the string of another entry, unless
    it depends on that entry anyhow. -/
def NoCollision (resolver : Resolver) (m : StateMap) : Prop :=
  ∀ source ∈ m.entries, ∀ entry ∈ m.entries, source.id.equal entry.id = false →
    ∀ name ∈ (extractDepKeys resolver source).env, declarants resolver m name = [] →
      ∀ value, parseDependency name = .direct value →
        (resolveDependencyID source.id.ns value).string = entry.id.string →
          resolveDependencyID source.id.ns value = entry.id ∨ (source.id, entry.id) ∈ visitDependencies resolver m

theorem Indexes.dependents_iff (h : Indexes resolver d m) :
    (∀ entry ∈ m.entries, ∀ id, id ∈ d.dependents resolver entry ↔ entry.id ∈ resolveDependencies resolver m id) ↔
      NoCollision resolver m := by
  constructor
  · intro hexact source hsource entry hentry hne name hname hnone value hdep hstring
    right
    rw [← mem_resolveDependencies, ← hexact entry hentry, h.mem_dependents]
    refine ⟨hne, source, Keyed.get_of_mem hsource, .inl ⟨name, hname, .inr ⟨hnone, ?_⟩⟩⟩
    unfold Finds
    rw [hdep]
    exact hstring
  · intro hcol entry hentry id
    have hget := Keyed.get_of_mem hentry
    rw [mem_resolveDependencies, mem_visitDependencies_entry hget, h.mem_dependents]
    refine and_congr_right fun hne => exists_congr fun source => and_congr_right fun hsource => ?_
    obtain ⟨hmem, rfl⟩ := Keyed.get_eq_some.mp hsource
    refine ⟨?_, Or.imp_left Indexes.Refers.finds⟩
    rintro (⟨name, hname, heq | ⟨hnone, hfinds⟩⟩ | hdecl)
    · exact .inl ⟨name, hname, .inl heq⟩
    · rcases hfinds.cases with hmeans | ⟨value, hdep, hstring⟩
      · exact .inl ⟨name, hname, .inr ⟨hnone, hmeans⟩⟩
      rcases hcol source hmem entry hentry hne name hname hnone value hdep hstring with heq | hedge
      · refine .inl ⟨name, hname, .inr ⟨hnone, ?_⟩⟩
        simpa [Means, hdep] using heq
      · obtain ⟨-, source', hsource', hcase⟩ := (mem_visitDependencies_entry hget).mp hedge
        rw [hsource] at hsource'
        cases hsource'
        exact hcase
    · exact .inr hdecl

/-- A candidate state differs from the committed one only where the changes name an entry. -/
def Candidate (m : StateMap) (changes : ChangeSet) (candidate : StateMap) : Prop :=
  ∀ id, id ∉ changes.map Operation.id → candidate.get id = m.get id

theorem lookup_foldl_renewKeys (candidate : StateMap) (changes : ChangeSet) (keys : Map ID EntryDepKeys) (id : ID) :
    (changes.foldl (DepIndex.renewKeys resolver candidate) keys).lookup id =
      if changes.any (fun op => decide (op.id = id)) then (candidate.get id).map (extractDepKeys resolver)
      else keys.lookup id := by
  induction changes generalizing keys with
  | nil => rfl
  | cons change changes ih =>
    rw [foldl_cons, ih, any_cons]
    by_cases hin : changes.any (fun op => decide (op.id = id)) = true
    · simp [hin]
    rw [if_neg hin, Bool.eq_false_iff.mpr hin, DepIndex.renewKeys]
    by_cases hid : change.id = id
    · subst hid
      cases hget : candidate.get change.id with
      | none => simp
      | some entry => simp [Keyed.key_of_get hget]
    · rw [if_neg (by simpa using hid)]
      cases hget : candidate.get change.id with
      | none => exact AList.lookup_erase_ne (Ne.symm hid)
      | some entry => exact AList.lookup_insert_ne (Keyed.key_of_get hget ▸ Ne.symm hid)

theorem Indexes.lookup_candidateKeys {m candidate : StateMap} (h : Indexes resolver d m)
    (hcand : Candidate m changes candidate) (id : ID) :
    (d.candidateKeys resolver candidate changes).lookup id = (candidate.get id).map (extractDepKeys resolver) := by
  unfold DepIndex.candidateKeys
  rw [lookup_foldl_renewKeys]
  by_cases hin : changes.any (fun op => decide (op.id = id)) = true
  · rw [if_pos hin]
  have hout : id ∉ changes.map Operation.id := fun hmem => by
    obtain ⟨op, hop, hid⟩ := List.mem_map.mp hmem
    exact hin (List.any_eq_true.mpr ⟨op, hop, by simpa using hid⟩)
  rw [lookup_keep, h.ownDeps id, ← hcand id hout]
  cases candidate.get id <;> simp

theorem Indexes.visitDependencies_perm {m candidate : StateMap} (h : Indexes resolver d m)
    (hcand : Candidate m changes candidate) :
    (d.visitDependencies resolver candidate changes).Perm (visitDependencies resolver candidate) := by
  refine List.Perm.flatMap_right _ ?_
  have hnodupKeys : ((d.candidateKeys resolver candidate changes).entries.map fun e => (e.1, e.2)).Nodup := by
    refine List.Nodup.map ?_ (d.candidateKeys resolver candidate changes).nodupKeys.nodup
    rintro ⟨a, b⟩ ⟨a', b'⟩ heq
    cases heq
    rfl
  have hnodupDep : (dependencyKeys resolver candidate).Nodup := by
    have hmap : ((dependencyKeys resolver candidate).map Prod.fst).Nodup := by
      unfold dependencyKeys
      rw [List.map_map]
      exact candidate.distinct
    exact hmap.of_map
  rw [perm_ext_iff_of_nodup hnodupKeys hnodupDep]
  rintro ⟨id, keys⟩
  rw [mem_dependencyKeys, List.mem_map]
  constructor
  · rintro ⟨⟨id', keys'⟩, hmem, heq⟩
    cases heq
    rw [mem_entries, h.lookup_candidateKeys hcand, map_eq_some_iff] at hmem
    exact hmem
  · intro hkeys
    refine ⟨⟨id, keys⟩, ?_, rfl⟩
    rw [mem_entries, h.lookup_candidateKeys hcand, map_eq_some_iff]
    exact hkeys

/-- Changesets one after another. -/
def applyChangeSets (state : StateMap) (changeSets : List ChangeSet) : Except OperationError StateMap :=
  changeSets.foldlM applyOperations state

theorem Indexes.patch (h : Indexes resolver d m) (hops : applyOperations m changes = .ok m')
    (horig : ∀ op ∈ changes, Originals op) : Indexes resolver (d.patch resolver changes) m' := by
  induction changes generalizing d m with
  | nil =>
    cases hops
    exact h
  | cons op changes ih =>
    obtain ⟨hvalid, hops⟩ := applyOperations_cons.mp hops
    obtain ⟨horig₁, horig⟩ := forall_mem_cons.mp horig
    exact ih (h.patchOp hvalid horig₁) hops horig

theorem Indexes.patches {changeSets : List ChangeSet} (h : Indexes resolver d m)
    (hrun : applyChangeSets m changeSets = .ok m') (horig : ∀ changes ∈ changeSets, ∀ op ∈ changes, Originals op) :
    Indexes resolver (changeSets.foldl (DepIndex.patch resolver) d) m' := by
  induction changeSets generalizing d m with
  | nil =>
    cases hrun
    exact h
  | cons changes changeSets ih =>
    obtain ⟨horig₁, horig⟩ := forall_mem_cons.mp horig
    rw [applyChangeSets, foldlM_cons] at hrun
    obtain ⟨m₁, happ, hrun⟩ := exists_of_bind_eq_ok hrun
    exact ih (h.patch happ horig₁) hrun horig

/-- The index gives the dependents and the dependencies of a walk. -/
def Exact (resolver : Resolver) (d : DepIndex) (m : StateMap) : Prop :=
  (∀ entry ∈ m.entries, ∀ id, id ∈ d.dependents resolver entry ↔ entry.id ∈ resolveDependencies resolver m id) ∧
    ∀ candidate changes, Candidate m changes candidate →
      (d.visitDependencies resolver candidate changes).Perm (visitDependencies resolver candidate)

/-- Exactly when no reference to a variable of the current state is taken for another entry. -/
theorem depIndex_exact_iff {state : State} {changeSets : List ChangeSet} {m : StateMap}
    (hnd : (state.map Entry.id).Nodup) (hrun : applyChangeSets (newStateMap state) changeSets = .ok m)
    (horig : ∀ changes ∈ changeSets, ∀ op ∈ changes, Indexes.Originals op) :
    Exact resolver (changeSets.foldl (DepIndex.patch resolver) (DepIndex.buildDepIndex resolver state)) m ↔
      NoCollision resolver m := by
  have hbuilt : Indexes resolver (DepIndex.buildDepIndex resolver state) (newStateMap state) := .buildDepIndex hnd
  have hidx := hbuilt.patches hrun horig
  unfold Exact
  rw [hidx.dependents_iff]
  exact and_iff_left fun candidate changes hcand => hidx.visitDependencies_perm hcand

/-! ### Colons in namespaces -/

theorem string_inj {a b : ID} (ha : 58 ∉ a.ns) (hb : 58 ∉ b.ns) (h : a.string = b.string) : a = b := by
  obtain ⟨hns, hname⟩ := cut_inj ha hb h
  cases a
  simp only at hns hname
  rw [hns, hname]

theorem colon_notMem_resolveDependencyID {ns value : Bytes} (h : 58 ∉ ns) : 58 ∉ (resolveDependencyID ns value).ns := by
  unfold resolveDependencyID
  cases hcut : cutByte 58 value with
  | none => exact h
  | some parts => exact (eq_of_cutByte hcut).2

theorem noCollision_of_colon (h : ∀ entry ∈ m.entries, 58 ∉ entry.id.ns) : NoCollision resolver m := by
  intro source hsource entry hentry _ name _ _ value _ hstring
  exact .inl (string_inj (colon_notMem_resolveDependencyID (h source hsource)) (h entry hentry) hstring)

/-- A resolver for entries whose data is the name of the variable that they refer to or declare. -/
def dataResolver : Resolver where
  extract _ := []
  environment entry := if entry.data = [] then [] else [entry.data]
  variableName data := data
  environment_ne := by
    intro entry name hname
    split at hname
    · cases hname
    next hne =>
      rw [mem_singleton.mp hname]
      exact hne

/-- `a:x` refers to the variable `c`, which is first the entry `a:c` and then, too, a variable declared by `a:v`. -/
def variableState : State :=
  [{ id := ⟨[97], [120]⟩, kind := [107], data := [99] }, { id := ⟨[97], [99]⟩, kind := [107] }]

/-- An entry that declares a variable. -/
def declareVariable : ChangeSet :=
  [{ kind := .create, entry := { id := ⟨[97], [118]⟩, kind := envVariableKind, data := [99] } }]

theorem variableState_exact : ∃ m, applyChangeSets (newStateMap variableState) [declareVariable] = .ok m ∧
    Exact dataResolver ([declareVariable].foldl (DepIndex.patch dataResolver)
      (DepIndex.buildDepIndex dataResolver variableState)) m := by
  have hrun : applyChangeSets (newStateMap variableState) [declareVariable] =
      .ok (applyValidatedOperation (newStateMap variableState)
        { kind := .create, entry := { id := ⟨[97], [118]⟩, kind := envVariableKind, data := [99] } }) := rfl
  have horig : ∀ changes ∈ [declareVariable], ∀ op ∈ changes, Indexes.Originals op := by
    intro changes hchanges op hop original horig
    rw [mem_singleton.mp hchanges, declareVariable, mem_singleton] at hop
    rw [hop] at horig
    cases horig
  exact ⟨_, hrun, (depIndex_exact_iff (by decide) hrun horig).mpr (noCollision_of_colon (by decide))⟩

/-- The entry `x` of the namespace `a:b` refers to a missing variable `c`. The index takes it for a dependent of the
    entry `b:c` of the namespace `a`. -/
theorem colon_confuses_index :
    ¬ ∀ (resolver : Resolver) (state : State) (changeSets : List ChangeSet) (m : StateMap),
      (state.map Entry.id).Nodup → applyChangeSets (newStateMap state) changeSets = .ok m →
      (∀ changes ∈ changeSets, ∀ op ∈ changes, Indexes.Originals op) →
      Exact resolver (changeSets.foldl (DepIndex.patch resolver) (DepIndex.buildDepIndex resolver state)) m := by
  intro h
  let state : State := [{ id := ⟨[97, 58, 98], [120]⟩, kind := [107], data := [99] },
    { id := ⟨[97], [98, 58, 99]⟩, kind := [107] }]
  obtain ⟨hdep, -⟩ := h dataResolver state [] (newStateMap state) (by decide) rfl (by simp)
  have hfound := (hdep { id := ⟨[97], [98, 58, 99]⟩, kind := [107] } (by decide) ⟨[97, 58, 98], [120]⟩).mp (by decide)
  cases hfound

end Wippy.Registry.Topology
