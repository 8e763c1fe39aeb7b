import Wippy.Theorems.Lua.Graph

/-! Building an entry: the list does not depend on map orders or snapshots, it has every node that the entry reaches,
    and no node before one that it imports. -/

namespace Wippy.Lua
open Lib Registry Relation List Option Map

namespace MemoryGraph
variable {m m' : MemoryGraph} {orders orders' : Orders} {entry id : ID} {importers ids : List ID}
  {reachable : Finset ID} {node : Node} {main : Main}

/-- The order of a build: by falling level, then by the string of the ID. -/
def Before (m : MemoryGraph) (a b : ID) : Prop :=
  m.level b < m.level a ∨ m.level b = m.level a ∧ leBytes a.string b.string = true

theorem mem_sortByID : id ∈ sortByID ids ↔ id ∈ ids :=
  mem_insertionSort _

theorem mem_ordered {order : MapRange ID} : id ∈ m.ordered order reachable ↔ id ∈ reachable := by
  simp only [ordered, mem_flatMap, mem_insertionSort, mem_dedup, mem_sortByID, mem_filter,
    List.mem_map, order.mem_keys, decide_eq_true_eq]
  exact ⟨fun ⟨_, _, hid, _⟩ => hid, fun hid => ⟨_, ⟨id, hid, rfl⟩, hid, rfl⟩⟩

theorem levelKeys_pairwise (levels : List Nat) :
    ((levels.dedup).insertionSort fun a b => b ≤ a).Pairwise fun a b => b < a := by
  have hsorted : ((levels.dedup).insertionSort fun a b => b ≤ a).Pairwise fun a b => b ≤ a :=
    have : Std.Total fun a b : Nat => b ≤ a := ⟨fun a b => Nat.le_total b a⟩
    have : IsTrans Nat fun a b => b ≤ a := ⟨fun _ _ _ hab hbc => Nat.le_trans hbc hab⟩
    pairwise_insertionSort _ _
  have hnodup : ((levels.dedup).insertionSort fun a b => b ≤ a).Nodup :=
    (perm_insertionSort _ _).nodup_iff.mpr levels.nodup_dedup
  exact hsorted.imp₂ (fun _ _ hle hne => Nat.lt_of_le_of_ne hle (Ne.symm hne)) hnodup

theorem sortByID_pairwise (ids : List ID) : (sortByID ids).Pairwise fun a b => leBytes a.string b.string = true :=
  have : Std.Total fun a b : ID => leBytes a.string b.string = true := ⟨fun a b => leBytes_total a.string b.string⟩
  have : IsTrans ID fun a b => leBytes a.string b.string = true := ⟨fun _ _ _ => leBytes_trans⟩
  pairwise_insertionSort _ _

theorem level_of_mem_group {key : Nat} (h : id ∈ sortByID (ids.filter fun id => m.level id = key)) :
    m.level id = key := by
  rw [mem_sortByID, mem_filter, decide_eq_true_eq] at h
  exact h.2

theorem ordered_pairwise (order : MapRange ID) (reachable : Finset ID) :
    (m.ordered order reachable).Pairwise m.Before := by
  refine pairwise_flatMap.mpr ⟨fun key _ => ?_, (levelKeys_pairwise _).imp fun hlt a ha b hb => .inl ?_⟩
  · refine (sortByID_pairwise _).imp_of_mem fun ha hb hle => .inr ⟨?_, hle⟩
    rw [level_of_mem_group ha, level_of_mem_group hb]
  · rw [level_of_mem_group ha, level_of_mem_group hb]
    exact hlt

theorem ordered_nodup (order : MapRange ID) (reachable : Finset ID) : (m.ordered order reachable).Nodup := by
  refine nodup_flatMap.mpr ⟨fun key _ => ?_, (levelKeys_pairwise _).imp fun {a b} hlt x hx hx' => ?_⟩
  · exact (perm_insertionSort _ _).nodup_iff.mpr ((order.nodup reachable).filter _)
  · have hlevel := (level_of_mem_group hx).symm.trans (level_of_mem_group hx')
    omega

theorem ordered_congr {order order' : MapRange ID} (hlevel : ∀ x ∈ reachable, m'.level x = m.level x)
    (hstring : ∀ x ∈ reachable, ∀ y ∈ reachable, x.string = y.string → x = y) :
    m'.ordered order' reachable = m.ordered order reachable := by
  have hperm : (m'.ordered order' reachable).Perm (m.ordered order reachable) :=
    (perm_ext_iff_of_nodup (ordered_nodup _ _) (ordered_nodup _ _)).mpr fun x => by rw [mem_ordered, mem_ordered]
  have hpair : (m'.ordered order' reachable).Pairwise m.Before :=
    (ordered_pairwise order' reachable).imp_of_mem fun ha hb hbefore => by
      rwa [Before, ← hlevel _ (mem_ordered.mp ha), ← hlevel _ (mem_ordered.mp hb)]
  refine hperm.eq_of_pairwise (fun a b ha hb hab hba => ?_) hpair (ordered_pairwise order reachable)
  refine hstring a (mem_ordered.mp ha) b (mem_ordered.mp hb) ?_
  rcases hab with hab | ⟨hlevel, hab⟩
  · rcases hba with hba | ⟨hba, -⟩ <;> omega
  · rcases hba with hba | ⟨-, hba⟩
    · omega
    · exact leBytes_antisymm hab hba

/-! ### Graphs that agree on what is reached -/

/-- The two graphs agree on what `entry` reaches. -/
structure Agree (m m' : MemoryGraph) (entry : ID) : Prop where
  joined : m'.Joined
  vertices : ∀ x, ReflTransGen m.Edge entry x → x ∈ m'.vertices
  nodes : ∀ x, ReflTransGen m.Edge entry x → m'.nodes.lookup x = m.nodes.lookup x
  edges : ∀ x y, ReflTransGen m.Edge entry x → m'.edges.lookup (x, y) = m.edges.lookup (x, y)
  level : ∀ x, ReflTransGen m.Edge entry x → m'.level x = m.level x

theorem Inv.reached (h : m.Inv) {x : ID} (hentry : entry ∈ m.vertices) (hx : ReflTransGen m.Edge entry x) :
    x ∈ m.vertices := by
  cases hx with
  | refl => exact hentry
  | tail _ hedge => exact (h.joined _ _ hedge).2

theorem Inv.agree_self (h : m.Inv) (hentry : entry ∈ m.vertices) : Agree m m entry :=
  ⟨h.joined, fun _ => h.reached hentry, fun _ _ => rfl, fun _ _ _ => rfl, fun _ _ => rfl⟩

section
variable (h : Agree m m' entry)
include h

theorem Agree.edge_iff {x y : ID} (hx : ReflTransGen m.Edge entry x) : m'.Edge x y ↔ m.Edge x y := by
  rw [MemoryGraph.edge_iff, MemoryGraph.edge_iff, h.edges x y hx]

theorem Agree.reach_iff (x : ID) : ReflTransGen m'.Edge entry x ↔ ReflTransGen m.Edge entry x := by
  constructor
  · intro hx
    induction hx with
    | refl => exact .refl
    | tail _ hedge ih => exact ih.tail ((h.edge_iff ih).mp hedge)
  · intro hx
    induction hx with
    | refl => exact .refl
    | tail hx hedge ih => exact ih.tail ((h.edge_iff hx).mpr hedge)

theorem Agree.reachable_eq (orders orders' : Orders) (hinv : m.Inv) (hentry : entry ∈ m.vertices) :
    m'.reachableFromLocked orders' entry = m.reachableFromLocked orders entry := by
  ext x
  rw [mem_reachableFromLocked h.joined (h.vertices _ .refl), mem_reachableFromLocked hinv.joined hentry, h.reach_iff]

section
variable (hinv : m.Inv) (hentry : entry ∈ m.vertices) (himporters : ∀ x ∈ importers, ReflTransGen m.Edge entry x)
include hinv hentry himporters

theorem Agree.aliasesOf_eq (id : ID) : m'.aliasesOf importers id = m.aliasesOf importers id := by
  unfold aliasesOf
  congr 2
  refine filterMap_congr fun x hx => ?_
  have hreach := himporters x hx
  simp only [h.edges x id hreach, h.vertices x hreach, hinv.reached hentry hreach]

theorem Agree.dependenciesOf_eq (hid : ReflTransGen m.Edge entry id) :
    m'.dependenciesOf importers id = m.dependenciesOf importers id := by
  unfold dependenciesOf
  rw [h.nodes id hid, h.aliasesOf_eq hinv hentry himporters]

end
end

/-! ### The list of a build -/

/-- No two vertices have one string or are equal IDs. -/
structure Distinct (m : MemoryGraph) : Prop where
  string : ∀ x ∈ m.vertices, ∀ y ∈ m.vertices, x.string = y.string → x = y
  equal : ∀ x ∈ m.vertices, ∀ y ∈ m.vertices, x.equal y = true → x = y

/-- The dependencies that a build lists. -/
def listed (m : MemoryGraph) (orders : Orders) (entry : ID) : List Dependency :=
  let ordered := m.ordered (orders.part 1 0) (m.reachableFromLocked (orders.part 0) entry)
  (ordered.filter fun id => !id.equal entry).flatMap (m.dependenciesOf ordered)

theorem build_eq (orders : Orders) (hnode : m.nodes.lookup entry = some node) :
    (m.build orders entry).map Main.dependencies = .ok (m.listed orders entry) := by
  unfold build
  rw [hnode]
  rfl

theorem build_missing (orders : Orders) (hnode : m.nodes.lookup entry = none) :
    (m.build orders entry).map Main.dependencies = .error (.nodeNotFound entry) := by
  unfold build
  rw [hnode]
  rfl

theorem build_ok (h : m.build orders entry = .ok main) :
    entry ∈ m.nodes ∧ main.dependencies = m.listed orders entry := by
  unfold build at h
  split at h
  · cases h
  next hnode =>
    cases h
    exact ⟨AList.lookup_isSome.mp (by rw [hnode]; rfl), rfl⟩

theorem Agree.build_eq (h : Agree m m' entry) (hinv : m.Inv) (hdistinct : m.Distinct)
    (hentry : entry ∈ m.vertices) :
    (m'.build orders' entry).map Main.dependencies = (m.build orders entry).map Main.dependencies := by
  obtain ⟨node, hnode⟩ := isSome_iff_exists.mp ((hinv.vertices _).mp hentry)
  have hreach (x : ID) (hx : x ∈ m.reachableFromLocked (orders.part 0) entry) :=
    (mem_reachableFromLocked hinv.joined hentry).mp hx
  have hordered : m'.ordered (orders'.part 1 0) (m'.reachableFromLocked (orders'.part 0) entry) =
      m.ordered (orders.part 1 0) (m.reachableFromLocked (orders.part 0) entry) := by
    rw [h.reachable_eq (orders.part 0) _ hinv hentry]
    refine ordered_congr (fun x hx => h.level x (hreach x hx)) fun x hx y hy => ?_
    exact hdistinct.string x (hinv.reached hentry (hreach x hx)) y (hinv.reached hentry (hreach y hy))
  rw [MemoryGraph.build_eq orders hnode, MemoryGraph.build_eq orders' ((h.nodes _ .refl).trans hnode), listed,
    listed, hordered]
  refine congrArg Except.ok (flatMap_congr fun x hx => ?_)
  exact h.dependenciesOf_eq hinv hentry (fun y hy => hreach y (mem_ordered.mp hy))
    (hreach x (mem_ordered.mp (mem_of_mem_filter hx)))

theorem node_of_mem_dependenciesOf {d : Dependency} (hd : d ∈ m.dependenciesOf importers id) :
    m.nodes.lookup id = some d.node := by
  unfold dependenciesOf at hd
  split at hd
  · cases hd
  rename_i node hnode
  split at hd
  · cases mem_singleton.mp hd
    exact hnode
  · obtain ⟨name, -, rfl⟩ := List.mem_map.mp hd
    exact hnode

theorem exists_mem_dependenciesOf (importers : List ID) (hnode : m.nodes.lookup id = some node) :
    ∃ d ∈ m.dependenciesOf importers id, d.node = node := by
  unfold dependenciesOf
  rw [hnode]
  dsimp only
  split
  · exact ⟨_, mem_singleton_self _, rfl⟩
  next hne =>
    obtain ⟨name, hname⟩ := exists_mem_of_ne_nil _ hne
    exact ⟨_, List.mem_map.mpr ⟨name, hname, rfl⟩, rfl⟩

theorem Inv.not_edge_of_before (h : m.Inv) {a b : ID} (hbefore : m.Before a b) : ¬ m.Edge a b := by
  intro hedge
  have := (h.levels a).rising (h.levels b) hedge
  rcases hbefore with hlt | ⟨heq, -⟩ <;> omega

theorem level_mapVal {f : ID → Nat} {nodes : Map ID Node} (hid : (nodes.lookup id).isSome = true) :
    levelIn (nodes.mapVal fun id _ => f id) id = f id := by
  obtain ⟨node, hnode⟩ := isSome_iff_exists.mp hid
  rw [levelIn, lookup_mapVal, hnode]
  rfl

theorem Inv.agree_snapshot (h : m.Inv) (hentry : entry ∈ m.vertices) : Agree m m.snapshot entry :=
  ⟨h.joined, fun _ => h.reached hentry, fun _ _ => rfl, fun _ _ _ => rfl,
    fun x hx => level_mapVal ((h.vertices x).mp (h.reached hentry hx))⟩

theorem Inv.agree_snapshotReachable (h : m.Inv) (hentry : entry ∈ m.vertices) (preloads : List ID) :
    Agree m (m.snapshotReachable orders entry preloads) entry := by
  have hids (x : ID) (hx : ReflTransGen m.Edge entry x) :
      x ∈ (m.snapshotReachable orders entry preloads).vertices := by
    refine Finset.mem_union_left _ ?_
    rw [if_pos ((h.vertices _).mp hentry), mem_reachableFromLocked h.joined hentry]
    exact hx
  have hnodes (x : ID) (hx : ReflTransGen m.Edge entry x) :
      (m.snapshotReachable orders entry preloads).nodes.lookup x = m.nodes.lookup x := by
    exact lookup_keep_of_forall fun _ _ => decide_eq_true (hids x hx)
  refine ⟨fun a b hedge => ?_, hids, hnodes, fun x y hx => ?_, fun x hx => ?_⟩
  · obtain ⟨as, has⟩ := edge_iff.mp hedge
    have hkept := (filter_eq_some_iff.mp ((lookup_keep _ _ _).symm.trans has)).2
    simp only [Bool.and_eq_true, decide_eq_true_eq] at hkept
    exact ⟨hkept.1.2, hkept.2⟩
  · refine lookup_keep_of_forall fun as has => ?_
    have hxy := hids y (hx.tail (edge_iff.mpr ⟨as, has⟩))
    have hx' := hids x hx
    have hin := h.reached hentry hx
    simp only [Bool.and_eq_true, decide_eq_true_eq]
    exact ⟨⟨hin, hx'⟩, hxy⟩
  · refine level_mapVal ?_
    show ((m.snapshotReachable orders entry preloads).nodes.lookup x).isSome = true
    rw [hnodes x hx]
    exact (h.vertices x).mp (h.reached hentry hx)

theorem snapshotReachable_missing (hnode : m.nodes.lookup entry = none) (preloads : List ID) :
    (m.snapshotReachable orders entry preloads).nodes.lookup entry = none := by
  refine (lookup_keep _ _ _).trans ?_
  rw [hnode]
  rfl

/-- A build succeeds, does not depend on orders or snapshots, and lists what is reached, in order. -/
structure Builds (m : MemoryGraph) (entry : ID) : Prop where
  built : ∀ orders, (m.nodes.lookup entry).isSome = true → ∃ main, m.build orders entry = .ok main
  live : ∀ orders orders', (m.build orders' entry).map Main.dependencies =
    (m.build orders entry).map Main.dependencies
  snapshot : ∀ orders orders', (m.snapshot.build orders' entry).map Main.dependencies =
    (m.build orders entry).map Main.dependencies
  closure : ∀ orders orders' closing preloads,
    ((m.snapshotReachable closing entry preloads).build orders' entry).map Main.dependencies =
      (m.build orders entry).map Main.dependencies
  complete : ∀ orders main, m.build orders entry = .ok main → ∀ x, ReflTransGen m.Edge entry x →
    x ≠ entry → ∃ d ∈ main.dependencies, d.node.id = x
  sorted : ∀ orders main, m.build orders entry = .ok main →
    main.dependencies.Pairwise fun d d' => ¬ m.Edge d.node.id d'.node.id

theorem Inv.complete (h : m.Inv) (hdistinct : m.Distinct) (hmain : m.build orders entry = .ok main) {x : ID}
    (hx : ReflTransGen m.Edge entry x) (hne : x ≠ entry) : ∃ d ∈ main.dependencies, d.node.id = x := by
  obtain ⟨hin, hdeps⟩ := build_ok hmain
  have hentry : entry ∈ m.vertices := (h.vertices _).mpr (AList.lookup_isSome.mpr hin)
  have hxv := h.reached hentry hx
  obtain ⟨other, hother⟩ := isSome_iff_exists.mp ((h.vertices x).mp hxv)
  obtain ⟨d, hd, hdn⟩ := exists_mem_dependenciesOf
    (m.ordered (orders.part 1 0) (m.reachableFromLocked (orders.part 0) entry)) hother
  refine ⟨d, ?_, by rw [hdn]; exact h.keyed x other hother⟩
  rw [hdeps]
  refine mem_flatMap.mpr ⟨x, mem_filter.mpr ⟨?_, ?_⟩, hd⟩
  · rw [mem_ordered, mem_reachableFromLocked h.joined hentry]
    exact hx
  · rw [Bool.not_eq_true']
    exact eq_false_of_ne_true fun hequal => hne (hdistinct.equal x hxv entry hentry hequal)

theorem Inv.sorted (h : m.Inv) (hmain : m.build orders entry = .ok main) :
    main.dependencies.Pairwise fun d d' => ¬ m.Edge d.node.id d'.node.id := by
  have hid {importers : List ID} {id : ID} {d : Dependency} (hd : d ∈ m.dependenciesOf importers id) :
      d.node.id = id := h.keyed _ _ (node_of_mem_dependenciesOf hd)
  rw [(build_ok hmain).2]
  refine pairwise_flatMap.mpr ⟨fun id _ => ?_, ?_⟩
  · refine pairwise_of_forall_mem_list fun d hd d' hd' hedge => h.acyclic id (.single ?_)
    rwa [hid hd, hid hd'] at hedge
  · refine ((ordered_pairwise _ _).filter _).imp fun hbefore d hd d' hd' => ?_
    rw [hid hd, hid hd']
    exact h.not_edge_of_before hbefore

theorem Inv.build_eq (h : m.Inv) (hdistinct : m.Distinct)
    (hmissing : m.nodes.lookup entry = none → m'.nodes.lookup entry = none)
    (hagree : entry ∈ m.vertices → Agree m m' entry) :
    (m'.build orders' entry).map Main.dependencies = (m.build orders entry).map Main.dependencies := by
  cases hnode : m.nodes.lookup entry with
  | none => rw [build_missing orders hnode, build_missing orders' (hmissing hnode)]
  | some node =>
    have hentry : entry ∈ m.vertices := (h.vertices _).mpr (by rw [hnode]; rfl)
    exact (hagree hentry).build_eq h hdistinct hentry

theorem Inv.builds (h : m.Inv) (hdistinct : m.Distinct) (entry : ID) : m.Builds entry where
  built := fun orders hsome => by
    obtain ⟨node, hnode⟩ := isSome_iff_exists.mp hsome
    unfold build
    rw [hnode]
    exact ⟨_, rfl⟩
  live := fun _ _ => h.build_eq hdistinct id h.agree_self
  snapshot := fun _ _ => h.build_eq hdistinct id h.agree_snapshot
  closure := fun _ _ _ preloads => h.build_eq hdistinct (fun hnode => snapshotReachable_missing hnode preloads)
    fun hentry => h.agree_snapshotReachable hentry preloads
  complete := fun _ _ hmain _ => h.complete hdistinct hmain
  sorted := fun _ _ => h.sorted

end MemoryGraph
end Wippy.Lua
