import Wippy.Lib.Except
import Wippy.Theorems.Lua.Levels

/-! The code graph under its calls: it stays acyclic, joined and levelled. -/

namespace Wippy.Lua
open Lib Registry Relation List Option Map

namespace MemoryGraph
variable {m next : MemoryGraph} {orders : Orders} {deps : List Import} {oldDeps : List ID} {order : MapRange ID}
  {id a b u v : ID} {as : Bytes} {node : Node}

/-- The invariant of the graph. -/
structure Inv (m : MemoryGraph) : Prop where
  vertices : ∀ id, id ∈ m.vertices ↔ (m.nodes.lookup id).isSome = true
  keyed : ∀ id n, m.nodes.lookup id = some n → n.id = id
  joined : m.Joined
  acyclic : Acyclic m.Edge
  levels : ∀ id, IsLevel m.Edge id (m.level id)

theorem Inv.stray (h : m.Inv) (hid : id ∉ m.vertices) : m.level id = 0 := by
  have hwalk := (h.levels id).walk
  generalize m.level id = k at hwalk
  cases hwalk with
  | start => rfl
  | step _ hedge => exact absurd (h.joined _ id hedge).2 hid

theorem inv_empty : ({} : MemoryGraph).Inv where
  vertices := fun id => by simp [AList.lookup_empty]
  keyed := fun id n h => by simp [AList.lookup_empty] at h
  joined := fun a b h => by simp [Edge, hasEdge, AList.lookup_empty] at h
  acyclic := @acyclic_of_rising _ _ (fun _ => 0) fun a b h => by simp [Edge, hasEdge, AList.lookup_empty] at h
  levels := @isLevel_of_rising _ _ (fun _ => 0) (fun v => .start v)
    fun a b h => by simp [Edge, hasEdge, AList.lookup_empty] at h

theorem inv_recomputeLevelsLocked (hvertices : ∀ id, id ∈ m.vertices ↔ (m.nodes.lookup id).isSome = true)
    (hkeyed : ∀ id n, m.nodes.lookup id = some n → n.id = id) (hjoined : m.Joined) (hac : Acyclic m.Edge)
    (hstray : ∀ v, v ∉ m.vertices → m.level v = 0) : (m.recomputeLevelsLocked orders).Inv :=
  ⟨hvertices, hkeyed, hjoined, hac, isLevel_recomputeLevelsLocked hjoined hac hstray⟩

/-- What the checks of the imports of a node establish, of the imports seen before as well. -/
structure Checked (m : MemoryGraph) (id : ID) (deps : List Import) (seenDeps : Finset ID) (aliases : Map Bytes ID) :
    Prop where
  known : ∀ dep ∈ deps, (m.nodes.lookup dep.id).isSome = true
  acyclic : ∀ dep ∈ deps, ∃ orders, m.hasCycle orders id dep.id = false
  nodup : (deps.map Import.id).Nodup
  fresh : ∀ dep ∈ deps, dep.id ∉ seenDeps
  free : ∀ dep ∈ deps, dep.importAlias ≠ [] → ∀ other, aliases.lookup dep.importAlias = some other → other = dep.id
  distinct : ∀ dep ∈ deps, ∀ dep' ∈ deps, dep.importAlias ≠ [] → dep.importAlias = dep'.importAlias → dep.id = dep'.id

/-- The edges after the imports of a node are replaced. -/
def redirected (m : MemoryGraph) (id : ID) (oldDeps : List ID) (deps : List Import) : Map (ID × ID) Bytes :=
  deps.foldl (fun edges dep => edges.insert (id, dep.id) dep.importAlias)
    (oldDeps.foldl (fun edges oldDep => edges.erase (id, oldDep)) m.edges)

/-- What a call that succeeds has checked and done. -/
inductive Accepted (m : MemoryGraph) : Call → MemoryGraph → Prop
  | addNode {node : Node} (hnew : m.nodes.lookup node.id = none) :
      Accepted m (.addNode (some node)) { m with
        vertices := insert node.id m.vertices
        nodes := m.nodes.insert node.id node
        nodeLevels := m.nodeLevels.insert node.id 0 }
  | updateNode {node : Node} {deps : List Import} {order : MapRange ID} {oldDeps : List ID} {orders : Orders}
      (hknown : (m.nodes.lookup node.id).isSome = true) (hchecked : m.Checked node.id deps ∅ ∅)
      (hold : m.getNeighbors order node.id = some oldDeps) :
      Accepted m (.updateNode (some node) deps) (({ m with
        edges := m.redirected node.id oldDeps deps
        nodes := m.nodes.insert node.id node } : MemoryGraph).recomputeLevelsLocked orders)
  | removeNode {id : ID} {orders : Orders} :
      Accepted m (.removeNode id) (({
        vertices := m.vertices.erase id
        edges := m.edges.keep fun edge _ => edge.1 ≠ id && edge.2 ≠ id
        nodes := m.nodes.erase id
        nodeLevels := m.nodeLevels.erase id } : MemoryGraph).recomputeLevelsLocked orders)
  | addDependency {a b : ID} {as : Bytes} {order : MapRange ID} {orders : Orders}
      (ha : (m.nodes.lookup a).isSome = true) (hb : (m.nodes.lookup b).isSome = true)
      (hfind : m.findAlias order a b as = none) (hcycle : m.hasCycle (orders.part 1) a b = false) :
      Accepted m (.addDependency a b as) ((m.addEdge a b as).increaseLevelsLocked (orders.part 2) b (m.level a + 1))
  | removeDependency {a b : ID} {orders : Orders} :
      Accepted m (.removeDependency a b)
        (({ m with edges := m.edges.erase (a, b) } : MemoryGraph).recomputeLevelsLocked orders)

/-- The call fails and changes nothing, or is accepted. -/
def Settled (m : MemoryGraph) (c : Call) (out : Option GraphError × MemoryGraph) : Prop :=
  (∃ err, out = (some err, m)) ∨ ∃ m', m.Accepted c m' ∧ out = (none, m')

theorem settled_addNode (m : MemoryGraph) (n : Option Node) : m.Settled (.addNode n) (m.addNode n) := by
  cases n with
  | none => exact .inl ⟨_, rfl⟩
  | some node =>
    cases hnode : m.nodes.lookup node.id with
    | some other => exact .inl ⟨_, by rw [addNode, hnode]; rfl⟩
    | none => exact .inr ⟨_, .addNode hnode, by rw [addNode, hnode]; rfl⟩

theorem Inv.addNode (h : m.Inv) (hm : m.Accepted (.addNode (some node)) next) : next.Inv := by
  cases hm
  rename_i hnew
  exact {
    vertices := fun id => by
      rw [Finset.mem_insert, lookup_insert_eq, h.vertices]
      by_cases hid : id = node.id <;> simp [hid]
    keyed := fun id n hn => by
      rcases lookup_insert_some hn with ⟨rfl, rfl⟩ | ⟨-, hn⟩
      · rfl
      · exact h.keyed id n hn
    joined := fun a b hedge =>
      ⟨Finset.mem_insert_of_mem (h.joined a b hedge).1, Finset.mem_insert_of_mem (h.joined a b hedge).2⟩
    acyclic := h.acyclic
    levels := fun id => by
      have hout : node.id ∉ m.vertices := fun hin => by
        rw [h.vertices, hnew] at hin
        cases hin
      show IsLevel m.Edge id (levelIn (m.nodeLevels.insert node.id 0) id)
      rw [levelIn_insert]
      split
      next hid =>
        subst hid
        have := h.levels node.id
        rwa [h.stray hout] at this
      · exact h.levels id }

theorem settled_addDependency (m : MemoryGraph) (orders : Orders) (a b : ID) (as : Bytes) :
    m.Settled (.addDependency a b as) (m.addDependency orders a b as) := by
  unfold addDependency
  split
  · exact .inl ⟨_, rfl⟩
  rename_i ha
  split
  · exact .inl ⟨_, rfl⟩
  rename_i hb
  split
  · exact .inl ⟨_, rfl⟩
  split
  · exact .inl ⟨_, rfl⟩
  rename_i hclash
  split
  · exact .inl ⟨_, rfl⟩
  next hcycle =>
    rw [isNone_iff_eq_none, ← ne_eq, ne_none_iff_isSome] at ha hb
    exact .inr ⟨_, .addDependency ha hb hclash (eq_false_of_ne_true hcycle), rfl⟩

theorem edge_addEdge : (m.addEdge a b as).Edge u v ↔ m.Edge u v ∨ u = a ∧ v = b := by
  rw [edge_iff, edge_iff, addEdge, lookup_insert_eq]
  split
  next heq =>
    cases heq
    exact iff_of_true ⟨as, rfl⟩ (.inr ⟨rfl, rfl⟩)
  next hne =>
    exact ⟨.inl, fun h => h.resolve_right fun ⟨hu, hv⟩ => hne (by rw [hu, hv])⟩

theorem Inv.addDependency (h : m.Inv) (hm : m.Accepted (.addDependency a b as) next) : next.Inv := by
  cases hm
  rename_i ha hb hcycle _
  have hbv := (h.vertices b).mpr hb
  have hno : ¬ ReflTransGen m.Edge b a := by
    rw [← hasCycle_iff _ h.joined h.acyclic hbv, hcycle]
    exact Bool.false_ne_true
  have hjoined : (m.addEdge a b as).Joined := by
    intro u v huv
    rcases edge_addEdge.mp huv with hold | ⟨rfl, rfl⟩
    · exact h.joined u v hold
    · exact ⟨(h.vertices u).mpr ha, hbv⟩
  have hac : Acyclic (m.addEdge a b as).Edge := h.acyclic.redirect (a := a) fun u v huv =>
    (edge_addEdge.mp huv).imp_right fun ⟨hu, hv⟩ => ⟨hu, hv ▸ hno⟩
  refine ⟨h.vertices, h.keyed, hjoined, hac,
    isLevel_increaseLevelsLocked (m := m.addEdge a b as) hjoined hac (edge_addEdge.mpr (.inr ⟨rfl, rfl⟩)) ?_ ?_⟩
  · exact fun v => (h.levels v).walk.mono fun u v huv => edge_addEdge.mpr (.inl huv)
  · exact fun u v huv => (edge_addEdge.mp huv).imp_left fun hold => (h.levels u).rising (h.levels v) hold

theorem removeEdge_ok (h : m.removeEdge a b = .ok next) : next = { m with edges := m.edges.erase (a, b) } := by
  unfold removeEdge at h
  split at h
  · cases h
  split at h
  · cases h
  split at h
  · cases h
  · cases h
    rfl

theorem settled_removeDependency (m : MemoryGraph) (orders : Orders) (a b : ID) :
    m.Settled (.removeDependency a b) (m.removeDependency orders a b) := by
  unfold removeDependency
  split
  · exact .inl ⟨_, rfl⟩
  split
  · exact .inl ⟨_, rfl⟩
  next next hnext =>
    rw [removeEdge_ok hnext]
    exact .inr ⟨_, .removeDependency, rfl⟩

theorem Inv.fewer (h : m.Inv) {edges : Map (ID × ID) Bytes}
    (hsub : ∀ a b, ({ m with edges } : MemoryGraph).Edge a b → m.Edge a b) :
    (({ m with edges } : MemoryGraph).recomputeLevelsLocked orders).Inv :=
  inv_recomputeLevelsLocked h.vertices h.keyed (fun a b hedge => h.joined a b (hsub a b hedge))
    (h.acyclic.mono hsub) fun _ hv => h.stray hv

theorem edge_erase (h : ({ m with edges := m.edges.erase (a, b) } : MemoryGraph).Edge u v) : m.Edge u v := by
  obtain ⟨as, has⟩ := edge_iff.mp h
  exact edge_iff.mpr ⟨as, (lookup_erase_some.mp has).1⟩

theorem settled_removeNode (m : MemoryGraph) (orders : Orders) (id : ID) :
    m.Settled (.removeNode id) (m.removeNode orders id) := by
  unfold removeNode
  split
  · exact .inl ⟨_, rfl⟩
  split
  · exact .inl ⟨_, rfl⟩
  unfold removeVertex
  split
  · exact .inl ⟨_, rfl⟩
  rename_i next hnext
  split at hnext
  · cases hnext
  · cases hnext
    exact .inr ⟨_, .removeNode, rfl⟩

theorem lookup_removed : (m.edges.keep fun edge _ => edge.1 ≠ id && edge.2 ≠ id).lookup (u, v) =
    if u ≠ id ∧ v ≠ id then m.edges.lookup (u, v) else none := by
  rw [lookup_keep]
  by_cases hu : u = id <;> by_cases hv : v = id <;> cases m.edges.lookup (u, v) <;> simp [hu, hv]

theorem Inv.removeNode (h : m.Inv) (hm : m.Accepted (.removeNode id) next) : next.Inv := by
  cases hm
  have hedge {u v : ID} {vertices nodes nodeLevels} (huv : ({
      vertices
      edges := m.edges.keep fun edge _ => edge.1 ≠ id && edge.2 ≠ id
      nodes
      nodeLevels } : MemoryGraph).Edge u v) : m.Edge u v ∧ u ≠ id ∧ v ≠ id := by
    obtain ⟨as, has⟩ := edge_iff.mp huv
    rw [lookup_removed] at has
    split at has
    next hne =>
      exact ⟨edge_iff.mpr ⟨as, has⟩, hne⟩
    · cases has
  refine inv_recomputeLevelsLocked (fun x => ?_) (fun x n hn => ?_) (fun u v huv => ?_)
    (h.acyclic.mono fun u v huv => (hedge huv).1) fun v hv => ?_
  · rw [Finset.mem_erase, lookup_erase_eq, h.vertices]
    by_cases hx : x = id <;> simp [hx]
  · exact h.keyed x n (lookup_erase_some.mp hn).1
  · obtain ⟨hold, hu, hv⟩ := hedge huv
    exact ⟨Finset.mem_erase.mpr ⟨hu, (h.joined u v hold).1⟩, Finset.mem_erase.mpr ⟨hv, (h.joined u v hold).2⟩⟩
  · show ((m.nodeLevels.erase id).lookup v).getD 0 = 0
    rw [lookup_erase_eq]
    split
    · rfl
    next hne =>
      exact h.stray fun hin => hv (Finset.mem_erase.mpr ⟨hne, hin⟩)

theorem checked_checkImports {seenDeps : Finset ID} {aliases : Map Bytes ID}
    (h : m.checkImports orders id deps seenDeps aliases = none) : m.Checked id deps seenDeps aliases := by
  fun_induction checkImports m orders id deps seenDeps aliases with
  | case1 => constructor <;> simp
  | case2 | case3 | case4 | case5 => cases h
  | case6 dep deps seenDeps aliases hknown hfresh hfree hcycle ih =>
    have hrest := ih h
    have hnotin : dep.id ∉ deps.map Import.id := by
      intro hin
      obtain ⟨other, hother, heq⟩ := List.mem_map.mp hin
      exact hrest.fresh other hother (heq ▸ Finset.mem_insert_self _ _)
    have hown (other : Import) (hother : other ∈ deps) (hne : dep.importAlias ≠ [])
        (heq : dep.importAlias = other.importAlias) : dep.id = other.id := by
      refine hrest.free other hother (heq ▸ hne) dep.id ?_
      rw [if_pos hne, heq, AList.lookup_insert]
    refine ⟨?_, ?_, ?_, ?_, ?_, ?_⟩
    · rintro d (_ | ⟨_, hd⟩)
      · rwa [isNone_iff_eq_none, ← ne_eq, ne_none_iff_isSome] at hknown
      · exact hrest.known d hd
    · rintro d (_ | ⟨_, hd⟩)
      · exact ⟨_, eq_false_of_ne_true hcycle⟩
      · exact hrest.acyclic d hd
    · exact nodup_cons.mpr ⟨hnotin, hrest.nodup⟩
    · rintro d (_ | ⟨_, hd⟩)
      · exact hfresh
      · exact fun hin => hrest.fresh d hd (Finset.mem_insert_of_mem hin)
    · rintro d (_ | ⟨_, hd⟩) hne other hother
      · by_contra hdiffer
        rw [hother, filter_eq_none_iff] at hfree
        exact hfree other rfl (by simp [hne, hdiffer])
      · by_cases heq : dep.importAlias = d.importAlias
        · by_contra hdiffer
          rw [heq, hother, filter_eq_none_iff] at hfree
          have hsame : dep.id = d.id := hown d hd (heq ▸ hne) heq
          exact hfree other rfl (by simp [hne, hsame, hdiffer])
        · refine hrest.free d hd hne other ?_
          split
          · rw [AList.lookup_insert_ne (Ne.symm heq), hother]
          · exact hother
    · rintro d (_ | ⟨_, hd⟩) d' (_ | ⟨_, hd'⟩) hne heq
      · rfl
      · exact hown d' hd' hne heq
      · exact (hown d hd (heq ▸ hne) heq.symm).symm
      · exact hrest.distinct d hd d' hd' hne heq

theorem removeEdges_ok (h : oldDeps.foldlM (fun next oldDep => next.removeEdge id oldDep) m = .ok next) :
    next = { m with edges := oldDeps.foldl (fun edges oldDep => edges.erase (id, oldDep)) m.edges } := by
  induction oldDeps generalizing m with
  | nil =>
    cases h
    rfl
  | cons oldDep oldDeps ih =>
    rw [foldlM_cons] at h
    obtain ⟨first, hstep, h⟩ := exists_of_bind_eq_ok h
    rw [ih h, removeEdge_ok hstep]
    rfl

theorem foldl_addEdge (id : ID) (deps : List Import) (m : MemoryGraph) :
    deps.foldl (fun next dep => next.addEdge id dep.id dep.importAlias) m =
      { m with edges := deps.foldl (fun edges dep => edges.insert (id, dep.id) dep.importAlias) m.edges } := by
  induction deps generalizing m with
  | nil => rfl
  | cons dep deps ih => exact ih _

theorem settled_updateNode (m : MemoryGraph) (orders : Orders) (n : Option Node) (deps : List Import) :
    m.Settled (.updateNode n deps) (m.updateNode orders n deps) := by
  cases n with
  | none => exact .inl ⟨_, rfl⟩
  | some node =>
    rw [updateNode]
    split
    · exact .inl ⟨_, rfl⟩
    rename_i hknown
    split
    · exact .inl ⟨_, rfl⟩
    rename_i hcheck
    split
    · exact .inl ⟨_, rfl⟩
    rename_i oldDeps hold
    split
    · exact .inl ⟨_, rfl⟩
    rename_i next hnext
    rw [isNone_iff_eq_none, ← ne_eq, ne_none_iff_isSome] at hknown
    rw [foldl_addEdge, removeEdges_ok hnext]
    exact .inr ⟨_, .updateNode hknown (checked_checkImports hcheck) hold, rfl⟩

theorem lookup_redirected_other (hu : u ≠ id) :
    (m.redirected id oldDeps deps).lookup (u, v) = m.edges.lookup (u, v) := by
  rw [redirected, lookup_foldl_insert_notMem (fun dep : Import => (id, dep.id)), lookup_foldl_erase, if_neg]
  · simp [hu.symm]
  · simp [hu.symm]

section
variable (hold : m.getNeighbors order id = some oldDeps) (hnodup : (deps.map Import.id).Nodup)
include hold hnodup

theorem lookup_redirected (h : (m.redirected id oldDeps deps).lookup (id, v) = some as) :
    ∃ dep ∈ deps, dep.id = v ∧ dep.importAlias = as := by
  have hkeys : (deps.map fun dep => (id, dep.id)).Nodup := by
    have := hnodup.map (f := fun v : ID => (id, v)) fun a b h => (Prod.ext_iff.mp h).2
    rwa [List.map_map] at this
  by_cases hin : ∃ dep ∈ deps, dep.id = v
  · obtain ⟨dep, hdep, rfl⟩ := hin
    rw [redirected, lookup_foldl_insert_mem (fun dep : Import => (id, dep.id)) Import.importAlias hkeys _ hdep,
      some_inj] at h
    exact ⟨dep, hdep, rfl, h⟩
  · rw [redirected, lookup_foldl_insert_notMem (fun dep : Import => (id, dep.id)), lookup_foldl_erase] at h
    · split at h
      · cases h
      rename_i hkept
      unfold getNeighbors at hold
      split at hold
      · cases hold
        exact absurd (mem_map_of_mem (order.mem_keys.mpr (mem_neighborSet.mpr (edge_iff.mpr ⟨as, h⟩)))) hkept
      · cases hold
    · simpa using hin

theorem edge_redirected {nodes : Map ID Node}
    (h : ({ m with edges := m.redirected id oldDeps deps, nodes } : MemoryGraph).Edge u v) :
    m.Edge u v ∨ u = id ∧ ∃ dep ∈ deps, dep.id = v := by
  obtain ⟨as, has⟩ := edge_iff.mp h
  by_cases hu : u = id
  · subst hu
    obtain ⟨dep, hdep, hv, -⟩ := lookup_redirected hold hnodup has
    exact .inr ⟨rfl, dep, hdep, hv⟩
  · exact .inl (edge_iff.mpr ⟨as, (lookup_redirected_other hu).symm.trans has⟩)

end

theorem Inv.updateNode (h : m.Inv) (hm : m.Accepted (.updateNode (some node) deps) next) : next.Inv := by
  cases hm
  rename_i hknown hold hchecked
  have hin (dep : Import) (hdep : dep ∈ deps) : dep.id ∈ m.vertices := (h.vertices _).mpr (hchecked.known dep hdep)
  refine inv_recomputeLevelsLocked (fun x => ?_) (fun x n hn => ?_) (fun u v huv => ?_) ?_ fun v hv => h.stray hv
  · rw [lookup_insert_eq, h.vertices]
    by_cases hx : x = node.id
    · rw [if_pos hx, hx]
      exact iff_of_true hknown rfl
    · rw [if_neg hx]
  · rcases lookup_insert_some hn with ⟨rfl, rfl⟩ | ⟨-, hn⟩
    · rfl
    · exact h.keyed x n hn
  · rcases edge_redirected hold hchecked.nodup huv with hedge | ⟨rfl, dep, hdep, rfl⟩
    · exact h.joined u v hedge
    · exact ⟨(h.vertices _).mpr hknown, hin dep hdep⟩
  · refine h.acyclic.redirect (a := node.id) fun u v huv => ?_
    rcases edge_redirected hold hchecked.nodup huv with hedge | ⟨rfl, dep, hdep, rfl⟩
    · exact .inl hedge
    refine .inr ⟨rfl, ?_⟩
    obtain ⟨orders, hcycle⟩ := hchecked.acyclic dep hdep
    rw [← hasCycle_iff orders h.joined h.acyclic (hin dep hdep), hcycle]
    exact Bool.false_ne_true

end MemoryGraph
end Wippy.Lua
