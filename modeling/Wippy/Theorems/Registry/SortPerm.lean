import Wippy.Theorems.Registry.Entry
import Wippy.Registry.Topology.SortChangeSet

/-! What the sort of a changeset keeps: every operation once, unless the constraints are cyclic and two have equal IDs.
    -/

namespace Wippy.Registry.Topology
open Lib List Option

variable {resolver : Resolver} {ops changes changes' : ChangeSet} {f : Operation → Entry} {fromState : State}
  {α : Type}

theorem filterMap_getElem?_range (l : List α) : (List.range l.length).filterMap (l[·]?) = l := by
  induction l with
  | nil => rfl
  | cons a l ih =>
    rw [length_cons, range_succ_eq_map]
    simpa [Function.comp_def] using ih

theorem perm_of_positions {l : List α} {order : List Nat} (h : order.Perm (List.range l.length)) :
    (order.filterMap (l[·]?)).Perm l := by
  have hp := h.filterMap (l[·]?)
  rwa [filterMap_getElem?_range] at hp

theorem sortLevel_perm (level : List ID) : (sortLevel level).Perm level :=
  (perm_insertionSort _ _).trans (perm_insertionSort _ _)

theorem dependencyLevels_perm {deps : ID → List ID} {fuel : Nat} {remaining : List ID} {levels : List (List ID)}
    (h : dependencyLevels deps fuel remaining = some levels) : levels.flatten.Perm remaining := by
  fun_induction dependencyLevels deps fuel remaining generalizing levels with
  | case1 | case3 =>
    cases h
    rfl
  | case2 | case4 => cases h
  | case5 _ remaining =>
    rename_i ih
    obtain ⟨rest, hrest, rfl⟩ := map_eq_some_iff.mp h
    exact ((sortLevel_perm _).append (ih hrest)).trans (filter_append_perm _ remaining)

theorem entries_newStateMap_get (state : StateMap) :
    (state.entries.map Entry.id).filterMap state.get = state.entries := by
  rw [filterMap_map]
  have hget : ∀ entry ∈ state.entries, (state.get ∘ Entry.id) entry = some entry := fun entry h => Keyed.get_of_mem h
  rw [filterMap_congr hget]
  simp

theorem sortEntriesByDependency_perm {entries sorted : List Entry}
    (h : sortEntriesByDependency resolver entries = some sorted) : sorted.Perm (newStateMap entries).entries := by
  obtain ⟨levels, hlevels, rfl⟩ := map_eq_some_iff.mp h
  have hp := (dependencyLevels_perm hlevels).filterMap (newStateMap entries).get
  rwa [entries_newStateMap_get] at hp

theorem sortEntriesWithFallback_perm {entries : List Entry} (h : (entries.map Entry.id).Nodup) :
    (sortEntriesWithFallback resolver entries).Perm entries := by
  unfold sortEntriesWithFallback
  cases hs : sortEntriesByDependency resolver entries with
  | none => exact perm_insertionSort _ _
  | some sorted => exact (sortEntriesByDependency_perm hs).trans (entries_newStateMap_perm h)

/-- No two IDs are equal. -/
def DistinctIDs (ops : ChangeSet) : Prop := ops.Pairwise fun a b => a.id.equal b.id = false

theorem DistinctIDs.nodup (h : DistinctIDs ops) : (ops.map Operation.id).Nodup := nodup_of_pairwise_equal h

theorem DistinctIDs.eq (h : DistinctIDs ops) : ∀ a ∈ ops, ∀ b ∈ ops, a.id.equal b.id = true → a = b := by
  have : Std.Symm fun a b : Operation => a.id.equal b.id = false := ⟨fun a b hab => by rwa [ID.equal_comm]⟩
  intro a ha b hb hab
  by_contra hne
  rw [List.Pairwise.forall h ha hb hne] at hab
  cases hab

section
variable (hf : ∀ op ∈ ops, (f op).id = op.id) (heq : ∀ a ∈ ops, ∀ b ∈ ops, a.id.equal b.id = true → a = b)
include hf heq

theorem mapBack_map : mapBack ops (ops.map f) = ops := by
  unfold mapBack
  rw [filterMap_map]
  have hfind : ∀ op ∈ ops, ((fun entry : Entry => ops.find? fun o => o.id.equal entry.id) ∘ f) op = some op := by
    intro op hop
    simp only [Function.comp_def, hf op hop]
    cases hfind : ops.find? fun o => o.id.equal op.id with
    | none => exact absurd (find?_eq_none.mp hfind op hop) (by simp)
    | some first =>
      have hequal : first.id.equal op.id = true := by simpa using find?_some hfind
      exact congrArg some (heq first (mem_of_find?_eq_some hfind) op hop hequal)
  rw [filterMap_congr hfind]
  simp

theorem mapBack_perm {sorted : List Entry} (hs : sorted.Perm (ops.map f)) : (mapBack ops sorted).Perm ops := by
  have hp : (mapBack ops sorted).Perm (mapBack ops (ops.map f)) := hs.filterMap _
  rwa [mapBack_map hf heq] at hp

end

theorem map_id_of_entry (hf : ∀ op ∈ ops, (f op).id = op.id) : (ops.map f).map Entry.id = ops.map Operation.id := by
  rw [List.map_map]
  exact map_congr_left hf

theorem sortCreateUpdateOperations_perm (h : DistinctIDs ops) : (sortCreateUpdateOperations resolver ops).Perm ops := by
  refine mapBack_perm (fun _ _ => rfl) h.eq (sortEntriesWithFallback_perm ?_)
  rw [map_id_of_entry fun _ _ => rfl]
  exact h.nodup

theorem id_sourceEntry (fromState : State) (op : Operation) :
    (((newStateMap fromState).get op.id).getD op.entry).id = op.id := by
  cases hget : (newStateMap fromState).get op.id with
  | none => rfl
  | some entry => exact Keyed.key_of_get hget

theorem sortDeleteOperations_perm (h : DistinctIDs ops) : (sortDeleteOperations resolver fromState ops).Perm ops := by
  refine mapBack_perm (fun op _ => id_sourceEntry fromState op) h.eq
    ((reverse_perm _).trans (sortEntriesWithFallback_perm ?_))
  rw [map_id_of_entry fun op _ => id_sourceEntry fromState op]
  exact h.nodup

theorem createUpdates_append_deletes_perm (changes : ChangeSet) :
    (createUpdates changes ++ deletes changes).Perm changes := by
  refine List.Perm.trans (List.Perm.append_left _ (List.Perm.of_eq ?_)) (filter_append_perm _ changes)
  exact filter_congr fun op _ => by simp

theorem fallbackSortChangeSet_perm (hc : DistinctIDs (createUpdates changes)) (hd : DistinctIDs (deletes changes)) :
    (fallbackSortChangeSet resolver fromState changes).Perm changes :=
  ((sortCreateUpdateOperations_perm hc).append (sortDeleteOperations_perm hd)).trans
    (createUpdates_append_deletes_perm changes)

theorem sortChangeSetInput_perm (changes : ChangeSet) : (sortChangeSetInputForStableOrder changes).Perm changes :=
  perm_insertionSort _ _

theorem DistinctIDs.perm {ops ops' : ChangeSet} (h : DistinctIDs ops) (hp : ops.Perm ops') : DistinctIDs ops' :=
  (hp.pairwise_iff fun hab => by rwa [ID.equal_comm]).mp h

theorem createUpdates_perm (hp : changes.Perm changes') :
    (createUpdates changes).Perm (createUpdates changes') := hp.filter _

theorem deletes_perm (hp : changes.Perm changes') : (deletes changes).Perm (deletes changes') := hp.filter _

variable {fromState : State} {changes sorted : ChangeSet} {index : Option DepIndex}

theorem sortChangeSetWithIndex_cases (h : sortChangeSetWithIndex resolver fromState changes index = .ok sorted) :
    let normal := sortChangeSetInputForStableOrder changes
    let order := stableTopologicalOrder normal.length (constraints resolver fromState normal index)
    (order.2 = true ∧ sorted = order.1.filterMap (normal[·]?)) ∨
      (order.2 = false ∧ sorted = fallbackSortChangeSet resolver fromState normal ∧
        blockedReplacementIDs resolver fromState normal index = [] ∧
        unsatisfiableReplacementCycleIDs normal (constraints resolver fromState normal index) = []) := by
  unfold sortChangeSetWithIndex at h
  simp only at h
  split at h
  · cases h
  rename_i hblocked
  split at h
  next horder =>
    cases h
    exact .inl ⟨horder, rfl⟩
  rename_i horder
  split at h
  · cases h
  next hunsat =>
    cases h
    exact .inr ⟨Bool.eq_false_iff.mpr horder, rfl, not_not.mp hblocked, not_not.mp hunsat⟩

theorem sortChangeSetWithIndex_perm (hc : DistinctIDs (createUpdates changes)) (hd : DistinctIDs (deletes changes))
    (h : sortChangeSetWithIndex resolver fromState changes index = .ok sorted) : sorted.Perm changes := by
  have hnormal := sortChangeSetInput_perm changes
  rcases sortChangeSetWithIndex_cases h with ⟨horder, rfl⟩ | ⟨-, rfl, -⟩
  · exact (perm_of_positions (Kahn.perm_of_topological horder)).trans hnormal
  · refine (fallbackSortChangeSet_perm ?_ ?_).trans hnormal
    · exact hc.perm (createUpdates_perm hnormal.symm)
    · exact hd.perm (deletes_perm hnormal.symm)

theorem mapBack_subset (ops : ChangeSet) (sorted : List Entry) : mapBack ops sorted ⊆ ops := by
  intro op hop
  obtain ⟨entry, -, hfind⟩ := mem_filterMap.mp hop
  exact mem_of_find?_eq_some hfind

theorem sortChangeSetWithIndex_subset (h : sortChangeSetWithIndex resolver fromState changes index = .ok sorted) :
    sorted ⊆ changes := by
  have hnormal := (sortChangeSetInput_perm changes).subset
  rcases sortChangeSetWithIndex_cases h with ⟨-, rfl⟩ | ⟨-, rfl, -⟩
  · intro op hop
    obtain ⟨i, -, hi⟩ := mem_filterMap.mp hop
    exact hnormal (mem_of_getElem? hi)
  · intro op hop
    rcases mem_append.mp hop with hop | hop
    · exact hnormal (mem_of_mem_filter (mapBack_subset _ _ hop))
    · exact hnormal (mem_of_mem_filter (mapBack_subset _ _ hop))

theorem sortChangeSetWithIndex_isOk (hrep : replacementIDs (sortChangeSetInputForStableOrder changes) = []) :
    ∃ sorted, sortChangeSetWithIndex resolver fromState changes index = .ok sorted := by
  unfold sortChangeSetWithIndex
  simp only [blockedReplacementIDs, unsatisfiableReplacementCycleIDs, hrep, filter_nil, insertionSort_nil,
    ne_eq, not_true_eq_false, if_false]
  split <;> exact ⟨_, rfl⟩

theorem replacementIDs_eq_nil (h : (changes.map Operation.id).Nodup) : replacementIDs changes = [] := by
  unfold replacementIDs
  rw [filter_eq_nil_iff]
  intro id hid hany
  obtain ⟨d, hd, rfl⟩ := List.mem_map.mp (mem_dedup.mp hid)
  obtain ⟨hd, hkind⟩ := mem_filter.mp hd
  obtain ⟨c, hc, hcreate⟩ := List.any_eq_true.mp hany
  simp only [Bool.and_eq_true, decide_eq_true_eq] at hkind hcreate
  have hsame : c = d := inj_on_of_nodup_map h hc hd hcreate.2
  rw [hsame, hkind] at hcreate
  cases hcreate.1

theorem sortChangeSet_isOk (h : (changes.map Operation.id).Nodup) :
    ∃ sorted, sortChangeSet resolver fromState changes = .ok sorted := by
  have hrep : replacementIDs (sortChangeSetInputForStableOrder changes) = [] :=
    replacementIDs_eq_nil (((sortChangeSetInput_perm changes).map _).nodup_iff.mpr h)
  unfold sortChangeSet
  split
  · exact sortChangeSetWithIndex_isOk hrep
  · exact sortChangeSetWithIndex_isOk hrep

theorem sortChangeSet_perm (hc : DistinctIDs (createUpdates changes)) (hd : DistinctIDs (deletes changes))
    (h : sortChangeSet resolver fromState changes = .ok sorted) : sorted.Perm changes := by
  unfold sortChangeSet at h
  split at h
  · exact sortChangeSetWithIndex_perm hc hd h
  · exact sortChangeSetWithIndex_perm hc hd h

end Wippy.Registry.Topology
