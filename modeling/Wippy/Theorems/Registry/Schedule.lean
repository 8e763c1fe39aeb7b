import Wippy.Theorems.Registry.Delta
import Wippy.Theorems.Registry.Universe

/-! The sort of a changeset as a schedule: it keeps the operations, does not depend on their order, and puts each after
    what it has to wait for. -/

namespace Wippy.Registry.Topology
open Lib List Option

variable {resolver : Resolver} {fromState : State} {changes sorted ops : ChangeSet} {index : Option DepIndex}
  {entries : List Entry} {a b op : Operation} {f : Operation → Entry}

theorem kindRank_inj {a b : OpKind} (h : kindRank a = kindRank b) : a = b := by
  cases a <;> cases b <;> first | rfl | cases h

theorem leOperation_total (a b : Operation) : leOperation a b = true ∨ leOperation b a = true := by
  unfold leOperation
  by_cases h : a.id = b.id
  · simp only [h, if_true, decide_eq_true_eq]
    exact Nat.le_total _ _
  · simp only [h, Ne.symm h, if_false]
    exact ID.le_total _ _

theorem leOperation_antisymm (hab : leOperation a b = true) (hba : leOperation b a = true) :
    a.id = b.id ∧ a.kind = b.kind := by
  unfold leOperation at hab hba
  by_cases h : a.id = b.id
  · simp only [h, if_true, decide_eq_true_eq] at hab hba
    exact ⟨h, kindRank_inj (Nat.le_antisymm hab hba)⟩
  · simp only [h, Ne.symm h, if_false] at hab hba
    exact absurd (ID.le_antisymm hab hba) h

theorem leOperation_trans {a b c : Operation} (hab : leOperation a b = true) (hbc : leOperation b c = true) :
    leOperation a c = true := by
  unfold leOperation at hab hbc ⊢
  by_cases h : a.id = b.id
  · rw [if_pos h] at hab
    by_cases h' : b.id = c.id
    · rw [if_pos h'] at hbc
      rw [if_pos (h.trans h')]
      rw [decide_eq_true_eq] at hab hbc ⊢
      exact hab.trans hbc
    · rw [if_neg h'] at hbc
      rw [if_neg (h ▸ h'), h]
      exact hbc
  · rw [if_neg h] at hab
    by_cases h' : b.id = c.id
    · rw [if_neg (h' ▸ h), ← h']
      exact hab
    · rw [if_neg h'] at hbc
      have hne : a.id ≠ c.id := fun heq => h (ID.le_antisymm hab (heq ▸ hbc))
      rw [if_neg hne]
      exact ID.le_trans hab hbc

theorem pairwise_sortChangeSetInput (changes : ChangeSet) :
    (sortChangeSetInputForStableOrder changes).Pairwise fun a b => leOperation a b = true := by
  have : Std.Total fun a b : Operation => leOperation a b = true := ⟨leOperation_total⟩
  have : IsTrans Operation fun a b => leOperation a b = true := ⟨fun _ _ _ => leOperation_trans⟩
  exact pairwise_insertionSort _ changes

theorem sortChangeSetInput_eq {changes' : ChangeSet} (hnd : (changes.map fun op => (op.id, op.kind)).Nodup)
    (hperm : changes'.Perm changes) :
    sortChangeSetInputForStableOrder changes' = sortChangeSetInputForStableOrder changes := by
  refine List.Perm.eq_of_pairwise ?_ (pairwise_sortChangeSetInput _) (pairwise_sortChangeSetInput _)
    (((sortChangeSetInput_perm changes').trans hperm).trans (sortChangeSetInput_perm changes).symm)
  intro a b ha hb hab hba
  obtain ⟨hid, hkind⟩ := leOperation_antisymm hab hba
  have ha' : a ∈ changes := hperm.mem_iff.mp ((sortChangeSetInput_perm changes').mem_iff.mp ha)
  have hb' : b ∈ changes := (sortChangeSetInput_perm changes).mem_iff.mp hb
  exact inj_on_of_nodup_map hnd ha' hb' (by rw [hid, hkind])

/-! ### What the fallback keeps -/

/-- Whether the order for cyclic constraints finds all operations again from their entries, each of which leads to the
    first operation with an equal ID. -/
def Recovers (resolver : Resolver) (entryOf : Operation → Entry) (ops : ChangeSet) : Prop :=
  if (sortEntriesByDependency resolver (ops.map entryOf)).isSome then DistinctIDs ops
  else ∀ a ∈ ops, ∀ b ∈ ops, a.id.equal b.id = true → a = b

theorem eq_of_mapBack_perm (h : (mapBack ops entries).Perm ops) (ha : a ∈ ops) (hb : b ∈ ops)
    (hab : a.id.equal b.id = true) : a = b := by
  obtain ⟨ea, -, hfa⟩ := mem_filterMap.mp (h.mem_iff.mpr ha)
  obtain ⟨eb, -, hfb⟩ := mem_filterMap.mp (h.mem_iff.mpr hb)
  have hca : a.id.equal ea.id = true := by simpa using find?_some hfa
  have hcb : b.id.equal eb.id = true := by simpa using find?_some hfb
  have hcanon : ea.id.canonical = eb.id.canonical := by
    rw [ID.equal_iff] at hab hca hcb
    rw [← hca, hab, hcb]
  have hsame : (fun op : Operation => op.id.equal ea.id) = fun op => op.id.equal eb.id := by
    funext op
    rw [ID.equal, ID.equal, hcanon]
  rw [hsame, hfb] at hfa
  exact (Option.some.inj hfa).symm

theorem nodup_of_length_le {α : Type} [DecidableEq α] {l l' : List α} (hl : l.Nodup) (hsub : l ⊆ l')
    (hlen : l'.length ≤ l.length) : l'.Nodup :=
  ((subperm_of_subset hl hsub).perm_of_length_le hlen).nodup_iff.mp hl

theorem mapBack_sorted_perm_iff (hf : ∀ op ∈ ops, (f op).id = op.id)
    (hentries : entries.Perm (sortEntriesWithFallback resolver (ops.map f))) :
    (mapBack ops entries).Perm ops ↔ Recovers resolver f ops := by
  unfold Recovers
  unfold sortEntriesWithFallback at hentries
  have hids := map_id_of_entry hf
  cases hs : sortEntriesByDependency resolver (ops.map f) with
  | none =>
    rw [hs] at hentries
    have hall : entries.Perm (ops.map f) := hentries.trans (perm_insertionSort _ _)
    constructor
    · intro h a ha b hb hab
      exact eq_of_mapBack_perm h ha hb hab
    · exact fun heq => mapBack_perm hf heq hall
  | some byLevel =>
    rw [hs] at hentries
    have hall : entries.Perm (newStateMap (ops.map f)).entries := hentries.trans (sortEntriesByDependency_perm hs)
    constructor
    · intro h
      -- The map holds at most as many entries as there are operations, so that no ID occurs twice.
      have hlen : (ops.map Operation.id).length ≤ ((newStateMap (ops.map f)).entries.map Entry.id).length := by
        rw [length_map, length_map, ← hall.length_eq, ← h.length_eq]
        exact length_filterMap_le _ _
      have hsub : (newStateMap (ops.map f)).entries.map Entry.id ⊆ ops.map Operation.id := by
        intro id hid
        obtain ⟨entry, hentry, rfl⟩ := List.mem_map.mp hid
        rw [← hids]
        exact List.mem_map_of_mem (Keyed.mem_of_get_ofList (Keyed.get_of_mem hentry)).1
      have hnd := nodup_of_length_le (newStateMap (ops.map f)).distinct hsub hlen
      refine (pairwise_map.mp hnd).imp_of_mem ?_
      intro a b ha hb hne
      by_contra hab
      exact hne (congrArg Operation.id (eq_of_mapBack_perm h ha hb (by simpa using hab)))
    · intro hdist
      refine mapBack_perm hf hdist.eq (hall.trans (entries_newStateMap_perm ?_))
      rw [hids]
      exact hdist.nodup

/-- The entry that an operation finds in the source state, or else its own. -/
def sourceEntry (fromState : State) (op : Operation) : Entry := ((newStateMap fromState).get op.id).getD op.entry

theorem fallbackSortChangeSet_perm_iff : (fallbackSortChangeSet resolver fromState changes).Perm changes ↔
    Recovers resolver Operation.entry (createUpdates changes) ∧
      Recovers resolver (sourceEntry fromState) (deletes changes) := by
  have hc : (sortCreateUpdateOperations resolver (createUpdates changes)).Perm (createUpdates changes) ↔
      Recovers resolver Operation.entry (createUpdates changes) :=
    mapBack_sorted_perm_iff (fun _ _ => rfl) (List.Perm.refl _)
  have hd : (sortDeleteOperations resolver fromState (deletes changes)).Perm (deletes changes) ↔
      Recovers resolver (sourceEntry fromState) (deletes changes) :=
    mapBack_sorted_perm_iff (fun op _ => id_sourceEntry fromState op) (reverse_perm _)
  rw [← hc, ← hd]
  constructor
  · intro h
    -- The first part has no deletes and the second nothing else.
    have hfirst : ∀ op ∈ sortCreateUpdateOperations resolver (createUpdates changes), op.kind ≠ .delete := by
      intro op hop
      simpa using (mem_filter.mp (mapBack_subset _ _ hop)).2
    have hsecond : ∀ op ∈ sortDeleteOperations resolver fromState (deletes changes), op.kind = .delete := by
      intro op hop
      simpa using (mem_filter.mp (mapBack_subset _ _ hop)).2
    constructor
    · have hp : (createUpdates (fallbackSortChangeSet resolver fromState changes)).Perm (createUpdates changes) :=
        createUpdates_perm h
      rw [fallbackSortChangeSet, createUpdates, filter_append, filter_eq_self.mpr, filter_eq_nil_iff.mpr,
        append_nil] at hp
      · exact hp
      · intro op hop
        simpa using hsecond op hop
      · intro op hop
        simpa using hfirst op hop
    · have hp : (deletes (fallbackSortChangeSet resolver fromState changes)).Perm (deletes changes) := deletes_perm h
      rw [fallbackSortChangeSet, deletes, filter_append, filter_eq_nil_iff.mpr, filter_eq_self.mpr] at hp
      · exact hp
      · intro op hop
        simpa using hsecond op hop
      · intro op hop
        simpa using hfirst op hop
  · rintro ⟨h₁, h₂⟩
    exact (h₁.append h₂).trans (createUpdates_append_deletes_perm changes)

theorem constrained_self (op : Operation) : constrained resolver fromState changes index op op = false := by
  have huniverse : (op.id, op.id) ∉ dependencyUniverse resolver fromState changes index := by
    intro h
    obtain ⟨_, -, ht⟩ := mem_visitDependencyKeys.mp h
    obtain ⟨-, hne, -⟩ := mem_targets.mp ht
    rw [ID.equal_refl] at hne
    cases hne
  have hsource : op.id ∉ sourceDependents resolver fromState index op.id := by
    intro h
    unfold sourceDependents at h
    split at h
    next d entry hget =>
      obtain ⟨-, hne⟩ := mem_filter.mp h
      rw [Keyed.key_of_get hget, ID.equal_refl] at hne
      cases hne
    · cases h
  unfold constrained
  cases op.kind <;> simp [huniverse, hsource]

theorem lt_of_constrained {order : List Nat} (hperm : order.Perm (List.range changes.length))
    (hedges : ∀ {i j}, Kahn.Edge (constraints resolver fromState changes index) changes.length i j →
      order.idxOf i < order.idxOf j) {p q : Nat}
    (hp : (order.filterMap (changes[·]?))[p]? = some a) (hq : (order.filterMap (changes[·]?))[q]? = some b)
    (hab : constrained resolver fromState changes index a b = true) : p < q := by
  -- Every position is in the changeset, so the operations stand where their positions do.
  have hlt : ∀ {k : Nat}, k ∈ order → k < changes.length := fun hk => mem_range.mp (hperm.mem_iff.mp hk)
  have hget : ∀ k ∈ order, changes[k]? = some (changes[k]?.getD a) := by
    intro k hk
    rw [getElem?_eq_getElem (hlt hk), getD_some]
  have hmap : order.filterMap (changes[·]?) = order.filterMap fun i => some (changes[i]?.getD a) := filterMap_congr hget
  rw [hmap, filterMap_eq_map', getElem?_map, map_eq_some_iff] at hp hq
  obtain ⟨i, hi, ha⟩ := hp
  obtain ⟨j, hj, hb⟩ := hq
  obtain ⟨hplt, hpi⟩ := List.getElem?_eq_some_iff.mp hi
  obtain ⟨hqlt, hqj⟩ := List.getElem?_eq_some_iff.mp hj
  have hmemi : i ∈ order := hpi ▸ getElem_mem hplt
  have hmemj : j ∈ order := hqj ▸ getElem_mem hqlt
  have hia : changes[i]? = some a := by
    rw [hget i hmemi, ha]
  have hjb : changes[j]? = some b := by
    rw [hget j hmemj, hb]
  have hne : i ≠ j := by
    rintro rfl
    rw [hia] at hjb
    cases hjb
    rw [constrained_self] at hab
    cases hab
  have hbefore : constraints resolver fromState changes index i j = true := by
    simp [constraints, hia, hjb, hne, hab]
  have hidx := hedges ⟨hlt hmemi, hlt hmemj, hbefore⟩
  have hnd := hperm.nodup_iff.mpr nodup_range
  rwa [← hpi, ← hqj, hnd.idxOf_getElem, hnd.idxOf_getElem] at hidx

namespace DepIndex

/-- The two indexes have the same members. -/
structure Same (d d' : DepIndex) : Prop where
  direct : ∀ pair, pair ∈ d.direct ↔ pair ∈ d'.direct
  group : ∀ pair, pair ∈ d.group ↔ pair ∈ d'.group
  ns : ∀ pair, pair ∈ d.ns ↔ pair ∈ d'.ns
  env : ∀ pair, pair ∈ d.env ↔ pair ∈ d'.env
  envFallback : ∀ pair, pair ∈ d.envFallback ↔ pair ∈ d'.envFallback
  declared : ∀ id, d.declared.lookup id = d'.declared.lookup id
  variableNames : ∀ pair, pair ∈ d.variableNames ↔ pair ∈ d'.variableNames
  ownDeps : ∀ id, d.ownDeps.lookup id = d'.ownDeps.lookup id

theorem Same.refl (d : DepIndex) : d.Same d :=
  ⟨fun _ => Iff.rfl, fun _ => Iff.rfl, fun _ => Iff.rfl, fun _ => Iff.rfl, fun _ => Iff.rfl, fun _ => rfl,
    fun _ => Iff.rfl,
    fun _ => rfl⟩

end DepIndex

theorem Indexes.of_same {d d' : DepIndex} {m : StateMap} (h : Indexes resolver d' m) (hs : d.Same d') :
    Indexes resolver d m where
  direct key id := (hs.direct _).trans (h.direct key id)
  group key id := (hs.group _).trans (h.group key id)
  ns key id := (hs.ns _).trans (h.ns key id)
  env key id := (hs.env _).trans (h.env key id)
  envFallback key id := (hs.envFallback _).trans (h.envFallback key id)
  declared id := (hs.declared id).trans (h.declared id)
  variableNames key id := (hs.variableNames _).trans (h.variableNames key id)
  ownDeps id := (hs.ownDeps id).trans (h.ownDeps id)

/-- The index of a sort: the one of the source state, or none for a changeset without deletes. -/
def IndexOf (resolver : Resolver) (fromState : State) (changes : ChangeSet) (index : Option DepIndex) : Prop :=
  (index = none ∧ deletes changes = []) ∨
    ∃ d, index = some d ∧ d.Same (DepIndex.buildDepIndex resolver fromState)

theorem IndexOf.keeps (hnd : (fromState.map Entry.id).Nodup) (h : IndexOf resolver fromState changes index) :
    Keeps resolver index (newStateMap fromState) := by
  intro d hd
  rcases h with ⟨hnone, -⟩ | ⟨d', hd', hsame⟩
  · rw [hnone] at hd
    cases hd
  · rw [hd'] at hd
    cases hd
    exact (Indexes.buildDepIndex hnd).of_same hsame

/-- The order of a sorted changeset. -/
structure Ordered (resolver : Resolver) (fromState : State) (changes sorted : ChangeSet) : Prop where
  /-- A create or update comes after the changed entries that it depends on in the resulting state. -/
  target : ∀ {p q : Nat} {a b : Operation}, sorted[p]? = some a → sorted[q]? = some b → a.kind ≠ .delete →
    b.kind ≠ .delete → (b.id, a.id) ∈ visitDependencies resolver (resultState fromState changes) → p < q
  /-- A delete comes after the updates and deletes of the entries that depend on it in the source state. -/
  source : ∀ {p q : Nat} {a b : Operation}, sorted[p]? = some a → sorted[q]? = some b → a.kind ≠ .create →
    b.kind = .delete → (a.id, b.id) ∈ visitDependencies resolver (newStateMap fromState) → p < q
  replacement : ∀ {p q : Nat} {a b : Operation}, sorted[p]? = some a → sorted[q]? = some b → a.kind = .delete →
    b.kind = .create → a.id = b.id → p < q

theorem changedEntries_isSome (hop : op ∈ changes) (hkind : op.kind ≠ .delete) :
    ((changedEntries changes).get op.id).isSome = true := by
  unfold changedEntries newStateMap
  rw [Keyed.get_ofList_eq, find?_isSome]
  have hmem : op ∈ createUpdates changes := mem_filter.mpr ⟨hop, by simpa using hkind⟩
  exact ⟨op.entry, mem_reverse.mpr (List.mem_map_of_mem hmem), by simp⟩

theorem ordered_of_constrained (hnd : (fromState.map Entry.id).Nodup)
    (hidx : Keeps resolver index (newStateMap fromState)) (hnone : index = none → deletes changes = [])
    (hmem : ∀ op ∈ sorted, op ∈ changes)
    (hlt : ∀ {p q : Nat} {a b : Operation}, sorted[p]? = some a → sorted[q]? = some b →
      constrained resolver fromState changes index a b = true → p < q) :
    Ordered resolver fromState changes sorted where
  target := by
    intro p q a b hp hq ha hb hedge
    refine hlt hp hq ?_
    have huniverse := mem_dependencyUniverse hnd hidx (changedEntries_isSome (hmem b (mem_of_getElem? hq)) hb)
      (changedEntries_isSome (hmem a (mem_of_getElem? hp)) ha) hedge
    simp [constrained, ha, hb, huniverse]
  source := by
    intro p q a b hp hq ha hb hedge
    refine hlt hp hq ?_
    obtain ⟨_, -, ht⟩ := mem_visitDependencies.mp hedge
    obtain ⟨entry, hentry⟩ := isSome_iff_exists.mp (mem_targets.mp ht).2.2
    have hid := Keyed.key_of_get hentry
    cases hi : index with
    | none =>
      have hdel : b ∈ deletes changes := mem_filter.mpr ⟨hmem b (mem_of_getElem? hq), by simpa using hb⟩
      rw [hnone hi] at hdel
      cases hdel
    | some d =>
      have hdep : a.id ∈ sourceDependents resolver fromState (some d) b.id := by
        unfold sourceDependents
        simp only [hentry]
        rw [← hid] at hentry hedge
        refine (hidx d hi).mem_dependents.mpr ?_
        obtain ⟨hne, source, hsource, hcase⟩ := (mem_visitDependencies_entry hentry).mp hedge
        exact ⟨hne, source, hsource, hcase.imp_left Indexes.Refers.finds⟩
      simp [constrained, ha, hb, hdep]
  replacement := by
    intro p q a b hp hq ha hb hid
    refine hlt hp hq ?_
    simp [constrained, ha, hb, hid]

/-- The constraints have no cycle. -/
def AcyclicConstraints (resolver : Resolver) (fromState : State) (changes : ChangeSet) (index : Option DepIndex) :
    Prop :=
  Kahn.Acyclic (constraints resolver fromState (sortChangeSetInputForStableOrder changes) index) changes.length

/-- A successful sort is a permutation that does not depend on the order of the input and, when the constraints have no
    cycle, puts every operation after what it has to wait for. -/
def SoundSchedule (resolver : Resolver) (fromState : State) (changes : ChangeSet) (index : Option DepIndex) : Prop :=
  ∀ sorted, sortChangeSetWithIndex resolver fromState changes index = .ok sorted →
    sorted.Perm changes ∧
      ((changes.map fun op => (op.id, op.kind)).Nodup → ∀ changes' : ChangeSet, changes'.Perm changes →
        sortChangeSetWithIndex resolver fromState changes' index = .ok sorted) ∧
      (AcyclicConstraints resolver fromState changes index →
        Ordered resolver fromState (sortChangeSetInputForStableOrder changes) sorted)

/-- The order for cyclic constraints is taken. -/
def FallsBack (resolver : Resolver) (fromState : State) (changes : ChangeSet) (index : Option DepIndex) : Prop :=
  let normal := sortChangeSetInputForStableOrder changes
  ¬ AcyclicConstraints resolver fromState changes index ∧ blockedReplacementIDs resolver fromState normal index = [] ∧
    unsatisfiableReplacementCycleIDs normal (constraints resolver fromState normal index) = []

theorem stableTopologicalOrder_iff :
    (stableTopologicalOrder (sortChangeSetInputForStableOrder changes).length
        (constraints resolver fromState (sortChangeSetInputForStableOrder changes) index)).2 = true ↔
      AcyclicConstraints resolver fromState changes index := by
  rw [stableTopologicalOrder, Kahn.topological_iff_acyclic, (sortChangeSetInput_perm changes).length_eq]
  exact Iff.rfl

/-- Exactly when the order for cyclic constraints is not taken, or no two of the creates and updates, and no two of the
    deletes, have equal IDs, unless they are copies and the entries are themselves on a cycle. -/
theorem sortChangeSet_sound_iff (hnd : (fromState.map Entry.id).Nodup)
    (hindex : IndexOf resolver fromState changes index) :
    SoundSchedule resolver fromState changes index ↔
      (FallsBack resolver fromState changes index →
        Recovers resolver Operation.entry (createUpdates (sortChangeSetInputForStableOrder changes)) ∧
          Recovers resolver (sourceEntry fromState) (deletes (sortChangeSetInputForStableOrder changes))) := by
  have hnormal := sortChangeSetInput_perm changes
  have hinsensitive : ∀ sorted, sortChangeSetWithIndex resolver fromState changes index = .ok sorted →
      (changes.map fun op => (op.id, op.kind)).Nodup → ∀ changes', changes'.Perm changes →
        sortChangeSetWithIndex resolver fromState changes' index = .ok sorted := by
    intro sorted h hpairs changes' hperm
    rw [← h]
    unfold sortChangeSetWithIndex
    rw [sortChangeSetInput_eq hpairs hperm]
  constructor
  · rintro hsound ⟨hcyclic, hblocked, hunsat⟩
    have hsort : sortChangeSetWithIndex resolver fromState changes index =
        .ok (fallbackSortChangeSet resolver fromState (sortChangeSetInputForStableOrder changes)) := by
      unfold sortChangeSetWithIndex
      simp only [hblocked, hunsat, ne_eq, not_true_eq_false, if_false]
      rw [if_neg (fun h => hcyclic (stableTopologicalOrder_iff.mp h))]
    obtain ⟨hperm, -, -⟩ := hsound _ hsort
    exact fallbackSortChangeSet_perm_iff.mp (hperm.trans hnormal.symm)
  · intro hcond sorted hsort
    rcases sortChangeSetWithIndex_cases hsort with ⟨horder, hsorted⟩ | ⟨horder, hsorted, hreplacements⟩
    · have hpositions := Kahn.perm_of_topological horder
      refine ⟨hsorted ▸ (perm_of_positions hpositions).trans hnormal, hinsensitive sorted hsort, fun _ => ?_⟩
      have hnone : index = none → deletes (sortChangeSetInputForStableOrder changes) = [] := by
        intro hi
        rcases hindex with ⟨-, hdel⟩ | ⟨d, hd, -⟩
        · exact List.Perm.eq_nil (hdel ▸ deletes_perm hnormal)
        · rw [hi] at hd
          cases hd
      rw [hsorted]
      refine ordered_of_constrained hnd (hindex.keeps hnd) hnone ?_ ?_
      · intro op hop
        exact (perm_of_positions hpositions).mem_iff.mp hop
      · intro p q a b hp hq hab
        exact lt_of_constrained hpositions (Kahn.idxOf_lt_of_topological horder) hp hq hab
    · have hcyclic : ¬ AcyclicConstraints resolver fromState changes index := by
        rw [← stableTopologicalOrder_iff, horder]
        simp
      refine ⟨?_, hinsensitive sorted hsort, fun h => absurd h hcyclic⟩
      rw [hsorted]
      exact (fallbackSortChangeSet_perm_iff.mpr (hcond ⟨hcyclic, hreplacements⟩)).trans hnormal

/-- The entry `a:n` with some data, depending on the entries `deps` of its namespace. -/
def entryA (n : UInt8) (deps : List Bytes) (data : Bytes) : Entry :=
  { id := ⟨[97], [n]⟩, kind := [107], dependsOn := deps, data }

/-- `x` depends on `y`; the changes make it depend on the new `z`, and remove `y`. -/
def dependentState : State := [entryA 120 [[121]] [], entryA 121 [] []]

/-- A dependency moves from one entry to another. -/
def moveDependency : ChangeSet :=
  [{ kind := .delete, entry := entryA 121 [] [] }, { kind := .update, entry := entryA 120 [[122]] [] },
    { kind := .create, entry := entryA 122 [] [] }]

theorem moveDependency_sound : SoundSchedule plainResolver dependentState moveDependency
    (some (DepIndex.buildDepIndex plainResolver dependentState)) :=
  (sortChangeSet_sound_iff (by decide) (.inr ⟨_, rfl, DepIndex.Same.refl _⟩)).mpr fun hfalls =>
    absurd (stableTopologicalOrder_iff.mp (by decide +kernel)) hfalls.1

/-- `x` and `y` depend on each other and `x` is updated twice: the first update of `x` comes back twice. -/
theorem fallback_loses_update :
    ¬ ∀ (resolver : Resolver) (fromState : State) (changes : ChangeSet) (index : Option DepIndex),
      (fromState.map Entry.id).Nodup → IndexOf resolver fromState changes index →
      SoundSchedule resolver fromState changes index := by
  intro h
  let first : Operation := { kind := .update, entry := entryA 120 [[121]] [1] }
  let second : Operation := { kind := .update, entry := entryA 120 [[121]] [2] }
  let other : Operation := { kind := .update, entry := entryA 121 [[120]] [] }
  have hsort : sortChangeSetWithIndex plainResolver dependentState [first, second, other] none =
      .ok [first, first, other] := by decide +kernel
  obtain ⟨hperm, -, -⟩ := h plainResolver dependentState [first, second, other] none (by decide) (.inl ⟨rfl, by decide⟩)
    [first, first, other] hsort
  exact absurd hperm (by decide)

end Wippy.Registry.Topology
