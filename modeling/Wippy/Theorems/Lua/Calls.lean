import Wippy.Lib.Reach
import Wippy.Theorems.Lua.Build

/-! The code graph over runs of calls. -/

namespace Wippy.Lua
open Lib Registry Relation List Option

/-- The name under which a node sees an import. -/
def effectiveAlias (importAlias : Bytes) (dep : ID) : Bytes := if importAlias ≠ [] then importAlias else dep.name

namespace MemoryGraph
variable {m m' : MemoryGraph} {orders : Orders} {c : Call} {nodeLevels : Map ID Nat} {nodes : Map ID Node}
  {order : MapRange ID} {as : Bytes}

/-- A node sees no two imports under one name. -/
def Named (m : MemoryGraph) : Prop :=
  ∀ a b c as as', m.edges.lookup (a, b) = some as → m.edges.lookup (a, c) = some as' →
    effectiveAlias as b = effectiveAlias as' c → b = c

/-- What holds of the graph after every call. -/
structure Consistent (m : MemoryGraph) : Prop where
  acyclic : Acyclic m.Edge
  joined : ∀ a b, m.Edge a b → (m.nodes.lookup a).isSome = true ∧ (m.nodes.lookup b).isSome = true
  levels : ∀ id, (m.nodes.lookup id).isSome = true → IsLevel m.Edge id (m.level id)
  named : m.Named
  rejected : ∀ orders c err, (m.call orders c).1 = some err → (m.call orders c).2 = m
  builds : ∀ entry, m.Builds entry

/-- The call brings in no second id with the string or the canonical form of a present one, and no import without alias
    takes or leaves its default name to another import of the node. -/
def Clear (m : MemoryGraph) : Call → Prop
  | .addNode (some n) => ∀ x ∈ m.vertices, x ≠ n.id → x.string ≠ n.id.string ∧ x.equal n.id = false
  | .updateNode _ deps => ∀ dep ∈ deps, ∀ dep' ∈ deps, dep.importAlias = [] →
      effectiveAlias dep'.importAlias dep'.id = dep.id.name → dep'.id = dep.id
  | .addDependency a b as => ∀ c as', m.edges.lookup (a, c) = some as' → as = [] ∨ as' = [] →
      effectiveAlias as' c = effectiveAlias as b → c = b
  | _ => True

theorem settled_call (m : MemoryGraph) (orders : Orders) (c : Call) : m.Settled c (m.call orders c) := by
  cases c with
  | addNode n => exact m.settled_addNode n
  | updateNode n deps => exact m.settled_updateNode orders n deps
  | removeNode id => exact m.settled_removeNode orders id
  | addDependency a b as => exact m.settled_addDependency orders a b as
  | removeDependency a b => exact m.settled_removeDependency orders a b

theorem call_rejected {err : GraphError} (h : (m.call orders c).1 = some err) : (m.call orders c).2 = m := by
  rcases m.settled_call orders c with ⟨_, heq⟩ | ⟨m', -, heq⟩
  · exact congrArg Prod.snd heq
  · rw [heq] at h
    cases h

theorem Accepted.inv (h : m.Accepted c m') (hinv : m.Inv) : m'.Inv := by
  cases h with
  | addNode hnew => exact hinv.addNode (.addNode hnew)
  | updateNode hknown hchecked hold => exact hinv.updateNode (.updateNode hknown hchecked hold)
  | removeNode => exact hinv.removeNode .removeNode
  | addDependency ha hb hfind hcycle => exact hinv.addDependency (.addDependency ha hb hfind hcycle)
  | removeDependency => exact hinv.fewer fun u v => edge_erase

theorem Named.fewer (h : m.Named) {edges : Map (ID × ID) Bytes} {vertices : Finset ID}
    (hsub : ∀ a b as, edges.lookup (a, b) = some as → m.edges.lookup (a, b) = some as) :
    ({ vertices, edges, nodes, nodeLevels } : MemoryGraph).Named :=
  fun a b c as as' hb hc => h a b c as as' (hsub a b as hb) (hsub a c as' hc)

theorem findAlias_none {a b c : ID} (ha : a ∈ m.vertices) (h : m.findAlias order a b as = none) (hne : as ≠ [])
    (hc : m.edges.lookup (a, c) = some as) : c = b := by
  unfold findAlias at h
  rw [if_neg hne, getNeighbors, if_pos ha] at h
  rw [map_eq_none_iff, find?_eq_none] at h
  by_contra hcb
  refine h c (order.mem_keys.mpr (mem_neighborSet.mpr (edge_iff.mpr ⟨as, hc⟩))) ?_
  simp [hc, hcb]

theorem Named.addDependency (h : m.Named) {a b : ID} (ha : a ∈ m.vertices) (hfind : m.findAlias order a b as = none)
    (hclear : m.Clear (.addDependency a b as)) : (m.addEdge a b as).Named := by
  have hnew (c : ID) (as' : Bytes) (hc : m.edges.lookup (a, c) = some as')
      (heq : effectiveAlias as' c = effectiveAlias as b) : c = b := by
    by_cases hempty : as = [] ∨ as' = []
    · exact hclear c as' hc hempty heq
    · rw [not_or] at hempty
      rw [effectiveAlias, effectiveAlias, if_pos hempty.1, if_pos hempty.2] at heq
      exact findAlias_none ha hfind hempty.1 (heq ▸ hc)
  intro u x y as₁ as₂ hx hy heq
  rw [addEdge, Map.lookup_insert_eq] at hx hy
  split at hx
  next hux =>
    cases hux
    cases hx
    split at hy
    next huy =>
      exact (Prod.ext_iff.mp huy).2.symm
    · exact (hnew y as₂ hy heq.symm).symm
  · split at hy
    next huy =>
      cases huy
      cases hy
      exact hnew x as₁ hx heq
    · exact h u x y as₁ as₂ hx hy heq

theorem Named.updateNode (h : m.Named) {id : ID} {oldDeps : List ID} {deps : List Import} {n : Option Node}
    (hchecked : m.Checked id deps ∅ ∅) (hold : m.getNeighbors order id = some oldDeps)
    (hclear : m.Clear (.updateNode n deps)) :
    ({ m with edges := m.redirected id oldDeps deps, nodes, nodeLevels } : MemoryGraph).Named := by
  intro u x y as₁ as₂ hx hy heq
  by_cases hu : u = id
  · subst hu
    obtain ⟨dep, hdep, rfl, rfl⟩ := lookup_redirected hold hchecked.nodup hx
    obtain ⟨dep', hdep', rfl, rfl⟩ := lookup_redirected hold hchecked.nodup hy
    by_cases hempty : dep.importAlias = []
    · refine (hclear dep hdep dep' hdep' hempty ?_).symm
      rw [← heq, effectiveAlias, if_neg (not_not.mpr hempty)]
    by_cases hempty' : dep'.importAlias = []
    · refine hclear dep' hdep' dep hdep hempty' ?_
      rw [heq, effectiveAlias, if_neg (not_not.mpr hempty')]
    · rw [effectiveAlias, effectiveAlias, if_pos hempty, if_pos hempty'] at heq
      exact hchecked.distinct dep hdep dep' hdep' hempty heq
  · exact h u x y as₁ as₂ ((lookup_redirected_other hu).symm.trans hx) ((lookup_redirected_other hu).symm.trans hy) heq

theorem Accepted.named (h : m.Accepted c m') (hinv : m.Inv) (hclear : m.Clear c) (hnamed : m.Named) : m'.Named := by
  cases h with
  | addNode => exact hnamed
  | updateNode _ hchecked hold => exact hnamed.updateNode hchecked hold hclear
  | removeNode =>
    refine hnamed.fewer fun u v as has => ?_
    rw [lookup_removed] at has
    split at has
    · exact has
    · cases has
  | addDependency ha _ hfind _ => exact hnamed.addDependency ((hinv.vertices _).mpr ha) hfind hclear
  | removeDependency =>
    refine hnamed.fewer fun u v as has => ?_
    exact (Map.lookup_erase_some.mp has).1

theorem Distinct.fewer (h : m.Distinct) (hsub : m'.vertices ⊆ m.vertices) : m'.Distinct :=
  ⟨fun x hx y hy => h.string x (hsub hx) y (hsub hy), fun x hx y hy => h.equal x (hsub hx) y (hsub hy)⟩

theorem Distinct.addNode (h : m.Distinct) {n : Node} (hclear : m.Clear (.addNode (some n))) :
    ({ m with vertices := insert n.id m.vertices, nodes, nodeLevels } : MemoryGraph).Distinct := by
  have hnew {x : ID} (hx : x ∈ m.vertices) (hsame : x.string = n.id.string ∨ x.equal n.id = true) : x = n.id := by
    by_contra hne
    obtain ⟨hstring, hequal⟩ := hclear x hx hne
    rcases hsame with hsame | hsame
    · exact hstring hsame
    · rw [hsame] at hequal
      cases hequal
  constructor
  · intro x hx y hy heq
    rcases Finset.mem_insert.mp hx with rfl | hx <;> rcases Finset.mem_insert.mp hy with rfl | hy
    · rfl
    · exact (hnew hy (.inl heq.symm)).symm
    · exact hnew hx (.inl heq)
    · exact h.string x hx y hy heq
  · intro x hx y hy heq
    rcases Finset.mem_insert.mp hx with rfl | hx <;> rcases Finset.mem_insert.mp hy with rfl | hy
    · rfl
    · rw [ID.equal, decide_eq_true_eq] at heq
      exact (hnew hy (.inr (decide_eq_true heq.symm))).symm
    · exact hnew hx (.inr heq)
    · exact h.equal x hx y hy heq

theorem Accepted.distinct (h : m.Accepted c m') (hclear : m.Clear c) (hdistinct : m.Distinct) : m'.Distinct := by
  cases h with
  | addNode => exact hdistinct.addNode hclear
  | updateNode => exact hdistinct.fewer (Finset.Subset.refl _)
  | removeNode => exact hdistinct.fewer (Finset.erase_subset _ _)
  | addDependency => exact hdistinct.fewer (Finset.Subset.refl _)
  | removeDependency => exact hdistinct.fewer (Finset.Subset.refl _)

theorem Inv.consistent (h : m.Inv) (hnamed : m.Named) (hdistinct : m.Distinct) : m.Consistent where
  acyclic := h.acyclic
  joined := fun a b hedge => ⟨(h.vertices a).mp (h.joined a b hedge).1, (h.vertices b).mp (h.joined a b hedge).2⟩
  levels := fun id _ => h.levels id
  named := hnamed
  rejected := fun _ _ _ => call_rejected
  builds := h.builds hdistinct

theorem consistent_of_clear (h : Reach step (fun m x => m.Clear x.2) {} m) : m.Consistent := by
  have hall : m.Inv ∧ m.Named ∧ m.Distinct := by
    refine h.invariant (P := fun m => m.Inv ∧ m.Named ∧ m.Distinct) ⟨inv_empty, ?_, ?_⟩ fun m x hclear hm => ?_
    · intro a b c as as' hb
      cases hb
    · exact ⟨fun x hx => absurd hx (Finset.notMem_empty x), fun x hx => absurd hx (Finset.notMem_empty x)⟩
    · unfold step
      rcases m.settled_call x.1 x.2 with ⟨err, heq⟩ | ⟨m', hm', heq⟩
      · rw [heq]
        exact hm
      · rw [heq]
        exact ⟨hm'.inv hm.1, hm'.named hm.1 hclear hm.2.1, hm'.distinct hclear hm.2.2⟩
  exact hall.1.consistent hall.2.1 hall.2.2

/-! An entry that imports two libraries of one name. -/

/-- An order of IDs. -/
def leID (a b : ID) : Prop := leBytes a.ns b.ns = true ∧ (a.ns = b.ns → leBytes a.name b.name = true)

instance : DecidableRel leID := fun _ _ => inferInstanceAs (Decidable (_ ∧ (_ → _)))

/-- The maps gone through in that order. -/
def ascendingID : MapRange ID :=
  MapRange.sorted (r := leID)
    (fun a b => by
      by_cases hns : a.ns = b.ns
      · rcases leBytes_total a.name b.name with h | h
        · exact .inl ⟨by rw [hns]; exact (leBytes_total _ _).elim id id, fun _ => h⟩
        · exact .inr ⟨by rw [hns]; exact (leBytes_total _ _).elim id id, fun _ => h⟩
      · exact (leBytes_total a.ns b.ns).imp (fun h => ⟨h, fun heq => absurd heq hns⟩)
          fun h => ⟨h, fun heq => absurd heq.symm hns⟩)
    (fun a b c hab hbc => ⟨leBytes_trans hab.1 hbc.1, fun heq => by
      have hb : a.ns = b.ns := leBytes_antisymm hab.1 (heq ▸ hbc.1)
      exact leBytes_trans (hab.2 hb) (hbc.2 (hb.symm.trans heq))⟩)
    (fun a b hab hba => by
      have hns := leBytes_antisymm hab.1 hba.1
      cases a
      cases b
      cases hns
      exact congrArg (ID.mk _) (leBytes_antisymm (hab.2 rfl) (hba.2 rfl)))
    id fun l => List.Perm.refl l

/-- The entry point. -/
def mainID : ID := ⟨[97], [109]⟩
/-- A library. -/
def leftID : ID := ⟨[98], [120]⟩
/-- A library of the same name in another namespace. -/
def rightID : ID := ⟨[99], [120]⟩

/-- Both libraries, the second under an alias. -/
def libraryImports (as : Bytes) : List Import := [{ id := leftID }, { id := rightID, importAlias := as }]

/-- The calls that add and import both. -/
def twoLibraries (as : Bytes) : List (Orders × Call) :=
  [.addNode (some { id := mainID }), .addNode (some { id := leftID }), .addNode (some { id := rightID }),
    .updateNode (some { id := mainID, revision := 1 }) (libraryImports as)].map fun c => (fun _ => ascendingID, c)

theorem consistent_of_clear_twoLibraries :
    ((twoLibraries [121]).foldl step {}).Consistent ∧ ((twoLibraries [121]).foldl step {}).level rightID = 1 := by
  refine ⟨consistent_of_clear (.of_along ⟨?_, ?_, ?_, ?_, trivial⟩), by decide +kernel⟩
  · show ∀ x ∈ (∅), x ≠ mainID → x.string ≠ mainID.string ∧ x.equal mainID = false
    decide
  · show ∀ x ∈ ({mainID} : Finset ID), x ≠ leftID → x.string ≠ leftID.string ∧ x.equal leftID = false
    decide
  · show ∀ x ∈ ({leftID, mainID} : Finset ID), x ≠ rightID → x.string ≠ rightID.string ∧ x.equal rightID = false
    decide
  · show ∀ dep ∈ libraryImports [121], ∀ dep' ∈ libraryImports [121], dep.importAlias = [] →
      effectiveAlias dep'.importAlias dep'.id = dep.id.name → dep'.id = dep.id
    decide

theorem twoLibraries_named_alike : ¬ ∀ m, Reach step (fun _ _ => True) {} m → m.Consistent := by
  intro h
  have hreach : Reach step (fun _ _ => True) {} ((twoLibraries []).foldl step {}) :=
    .of_along (along_of_forall (fun _ _ => trivial) _ _)
  have hsame : leftID = rightID :=
    (h _ hreach).named mainID leftID rightID [] [] (by decide +kernel) (by decide +kernel) rfl
  cases hsame

end MemoryGraph
end Wippy.Lua
