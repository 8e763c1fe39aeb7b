import Mathlib.Data.List.Dedup
import Wippy.Theorems.Registry.Entry
import Wippy.Registry.Topology.Dependencies

/-! When an edge is a dependency of a state, read off the keys of its source. -/

namespace Wippy.Registry.Topology
open Lib List Option

variable {resolver : Resolver} {m : StateMap} {entry target : Entry} {id source : ID} {keys : EntryDepKeys}

theorem mem_map_id_filter {p : Entry → Bool} :
    id ∈ (m.entries.filter p).map Entry.id ↔ ∃ entry, m.get id = some entry ∧ p entry = true := by
  rw [List.mem_map]
  constructor
  · rintro ⟨entry, hentry, rfl⟩
    obtain ⟨hmem, hp⟩ := mem_filter.mp hentry
    exact ⟨entry, Keyed.get_of_mem hmem, hp⟩
  · rintro ⟨entry, hget, hp⟩
    obtain ⟨hmem, hid⟩ := Keyed.get_eq_some.mp hget
    exact ⟨entry, mem_filter.mpr ⟨hmem, hp⟩, hid⟩

theorem mem_groupMembers {group : Bytes} :
    id ∈ groupMembers m group ↔ ∃ entry, m.get id = some entry ∧ group ∈ entry.groups := by
  unfold groupMembers
  rw [mem_map_id_filter]
  simp

theorem mem_nsMembers {ns : Bytes} : id ∈ nsMembers m ns ↔ (m.get id).isSome = true ∧ id.ns ≠ [] ∧ id.ns = ns := by
  unfold nsMembers
  rw [mem_map_id_filter, isSome_iff_exists]
  constructor
  · rintro ⟨entry, hget, hp⟩
    rw [Keyed.key_of_get hget] at hp
    exact ⟨⟨entry, hget⟩, by simpa using hp⟩
  · rintro ⟨⟨entry, hget⟩, hp⟩
    refine ⟨entry, hget, ?_⟩
    rw [Keyed.key_of_get hget]
    simpa using hp

theorem mem_declarants {name : Bytes} : id ∈ declarants resolver m name ↔
    ∃ entry, m.get id = some entry ∧ name ≠ [] ∧ envVariableName resolver entry = name := by
  unfold declarants
  rw [mem_map_id_filter]
  refine exists_congr fun entry => and_congr_right fun _ => ?_
  simp only [Bool.and_eq_true, decide_eq_true_eq]
  constructor
  · rintro ⟨hne, rfl⟩
    exact ⟨hne, rfl⟩
  · rintro ⟨hne, rfl⟩
    exact ⟨hne, rfl⟩

theorem mem_targets {declared : Bytes → List ID} :
    id ∈ targets m declared source keys ↔
      ((∃ name ∈ keys.env, id ∈ environmentTargets m declared source.ns name) ∨ id ∈ keys.direct ∨
        (∃ group ∈ keys.groups, id ∈ groupMembers m group) ∨ ∃ ns ∈ keys.ns, id ∈ nsMembers m ns) ∧
      id.equal source = false ∧ (m.get id).isSome = true := by
  unfold targets
  rw [mem_dedup, mem_filter]
  simp

theorem mem_visitDependencyKeys {keys : List (ID × EntryDepKeys)} {declared : Option (Bytes → List ID)} :
    (source, id) ∈ visitDependencyKeys resolver m keys declared ↔
      ∃ k, (source, k) ∈ keys ∧ id ∈ targets m (declared.getD (declarants resolver m)) source k := by
  unfold visitDependencyKeys
  simp only [mem_flatMap, List.mem_map, Prod.mk.injEq, Prod.exists]
  constructor
  · rintro ⟨s, k, hk, t, ht, rfl, rfl⟩
    exact ⟨k, hk, ht⟩
  · rintro ⟨k, hk, ht⟩
    exact ⟨source, k, hk, id, ht, rfl, rfl⟩

theorem mem_dependencyKeys : (source, keys) ∈ dependencyKeys resolver m ↔
    ∃ entry, m.get source = some entry ∧ extractDepKeys resolver entry = keys := by
  unfold dependencyKeys
  rw [List.mem_map]
  constructor
  · rintro ⟨entry, hentry, heq⟩
    cases heq
    exact ⟨entry, Keyed.get_of_mem hentry, rfl⟩
  · rintro ⟨entry, hget, rfl⟩
    obtain ⟨hmem, rfl⟩ := Keyed.get_eq_some.mp hget
    exact ⟨entry, hmem, rfl⟩

theorem mem_visitDependencies : (source, id) ∈ visitDependencies resolver m ↔
    ∃ entry, m.get source = some entry ∧
      id ∈ targets m (declarants resolver m) source (extractDepKeys resolver entry) := by
  unfold visitDependencies
  rw [mem_visitDependencyKeys]
  constructor
  · rintro ⟨keys, hkeys, ht⟩
    obtain ⟨entry, hget, rfl⟩ := mem_dependencyKeys.mp hkeys
    exact ⟨entry, hget, ht⟩
  · rintro ⟨entry, hget, ht⟩
    exact ⟨_, mem_dependencyKeys.mpr ⟨entry, hget, rfl⟩, ht⟩

theorem mem_resolveDependencies :
    id ∈ resolveDependencies resolver m source ↔ (source, id) ∈ visitDependencies resolver m := by
  unfold resolveDependencies
  rw [(perm_insertionSort _ _).mem_iff, List.mem_map]
  constructor
  · rintro ⟨⟨s, t⟩, hedge, rfl⟩
    obtain ⟨hedge, hs⟩ := mem_filter.mp hedge
    rw [decide_eq_true_eq] at hs
    exact hs ▸ hedge
  · intro hedge
    exact ⟨(source, id), mem_filter.mpr ⟨hedge, by simp⟩, rfl⟩

theorem mem_environmentTargets {ns name : Bytes} (hname : name ≠ []) (hget : m.get target.id = some target) :
    target.id ∈ environmentTargets m (declarants resolver m) ns name ↔
      envVariableName resolver target = name ∨
        declarants resolver m name = [] ∧
          match parseDependency name with
          | .group value => value ∈ target.groups
          | .ns value => target.id.ns ≠ [] ∧ target.id.ns = value
          | .direct value => resolveDependencyID ns value = target.id := by
  have hdecl : target.id ∈ declarants resolver m name ↔ envVariableName resolver target = name := by
    rw [mem_declarants]
    simp [hget, hname]
  unfold environmentTargets
  by_cases hnil : declarants resolver m name = []
  · have hnot : envVariableName resolver target ≠ name := fun h => by
      rw [← hdecl, hnil] at h
      exact not_mem_nil h
    simp only [hnot, hnil, false_or, true_and]
    cases parseDependency name with
    | direct value => simp [eq_comm]
    | group value => simp [mem_groupMembers, hget]
    | ns value => simp [mem_nsMembers, hget]
  · rw [if_pos hnil, hdecl]
    simp [hnil]

section congr
variable {m' : StateMap}

section
variable {declared declared' : Bytes → List ID} (hget : m.get id = m'.get id)
include hget

theorem mem_groupMembers_congr (group : Bytes) : id ∈ groupMembers m group ↔ id ∈ groupMembers m' group := by
  rw [mem_groupMembers, mem_groupMembers, hget]

theorem mem_nsMembers_congr (ns : Bytes) : id ∈ nsMembers m ns ↔ id ∈ nsMembers m' ns := by
  rw [mem_nsMembers, mem_nsMembers, hget]

theorem mem_environmentTargets_congr (ns : Bytes) {name : Bytes}
    (hdeclared : ∀ id, id ∈ declared name ↔ id ∈ declared' name) :
    id ∈ environmentTargets m declared ns name ↔ id ∈ environmentTargets m' declared' ns name := by
  have hnil : declared name ≠ [] ↔ declared' name ≠ [] := by
    refine not_congr ?_
    rw [eq_nil_iff_forall_not_mem, eq_nil_iff_forall_not_mem]
    exact forall_congr' fun id => not_congr (hdeclared id)
  unfold environmentTargets
  by_cases hne : declared name ≠ []
  · rw [if_pos hne, if_pos (hnil.mp hne)]
    exact hdeclared id
  rw [if_neg hne, if_neg (mt hnil.mpr hne)]
  split
  · exact mem_groupMembers_congr hget _
  · exact mem_nsMembers_congr hget _
  · exact Iff.rfl

theorem mem_targets_congr (hdeclared : ∀ name ∈ keys.env, ∀ id, id ∈ declared name ↔ id ∈ declared' name) :
    id ∈ targets m declared source keys ↔ id ∈ targets m' declared' source keys := by
  rw [mem_targets, mem_targets, hget]
  simp only [mem_groupMembers_congr hget, mem_nsMembers_congr hget]
  refine and_congr_left fun _ => or_congr_left (exists_congr fun name => and_congr_right fun hname => ?_)
  exact mem_environmentTargets_congr hget _ (hdeclared name hname)

end

section
variable (hget : ∀ id, m.get id = m'.get id)
include hget

end
end congr
end Wippy.Registry.Topology
