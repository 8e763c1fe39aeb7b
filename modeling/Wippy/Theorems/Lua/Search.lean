import Wippy.Lib.Digraph
import Wippy.Lua.Graph

/-! The searches of the code graph. A visited node is closed, all its imports being visited too, unless it is still
    being worked on. -/

namespace Wippy.Lua.MemoryGraph
open Lib Registry Relation List Option

variable {origin current : ID} {fuel : Nat} {visited : Finset ID} {s s' : Search} {ns : List ID} {found : Bool}

/-- `a` imports `b`. -/
def Edge (m : MemoryGraph) (a b : ID) : Prop := m.hasEdge a b = true

instance (m : MemoryGraph) (a b : ID) : Decidable (m.Edge a b) := inferInstanceAs (Decidable (m.hasEdge a b = true))

variable {m : MemoryGraph} {orders : Orders}

theorem edge_iff {a b : ID} : m.Edge a b ↔ ∃ as, m.edges.lookup (a, b) = some as := by
  rw [Edge, hasEdge, isSome_iff_exists]

theorem mem_neighborSet {a b : ID} : b ∈ m.neighborSet a ↔ m.Edge a b := by
  rw [neighborSet, List.mem_toFinset, List.mem_map, Edge, hasEdge, AList.lookup_isSome]
  constructor
  · rintro ⟨⟨a', b'⟩, hedge, rfl⟩
    obtain ⟨hin, ha⟩ := mem_filter.mp hedge
    rw [decide_eq_true_eq] at ha
    exact ha ▸ hin
  · intro h
    exact ⟨(a, b), mem_filter.mpr ⟨h, decide_eq_true rfl⟩, rfl⟩

theorem getNeighbors_of_mem (order : MapRange ID) {a : ID} (ha : a ∈ m.vertices) :
    ∃ ns, m.getNeighbors order a = some ns ∧ ns.Nodup ∧ ∀ b, b ∈ ns ↔ m.Edge a b := by
  refine ⟨order.keys (m.neighborSet a), if_pos ha, order.nodup _, fun b => ?_⟩
  rw [order.mem_keys, mem_neighborSet]

/-! ### The cycle check -/

/-- The imports of `x` are visited, and none is the origin. -/
def Closed (m : MemoryGraph) (origin : ID) (visited : Finset ID) (x : ID) : Prop :=
  ∀ y, m.Edge x y → y ≠ origin ∧ y ∈ visited

theorem Closed.mono {origin x : ID} {visited visited' : Finset ID} (h : m.Closed origin visited x)
    (hsub : visited ⊆ visited') : m.Closed origin visited' x :=
  fun y hy => ⟨(h y hy).1, hsub (h y hy).2⟩

/-- The imports of what a search visits are visited, and none is the origin. -/
structure Explored (m : MemoryGraph) (origin : ID) (s s' : Search) : Prop where
  grows : s.visited ⊆ s'.visited
  closed : ∀ x ∈ s'.visited, x ∉ s.visited → m.Closed origin s'.visited x
  stack : s'.inStack = s.inStack

theorem Explored.refl (origin : ID) (s : Search) : m.Explored origin s s :=
  ⟨subset_rfl, fun _ hin hout => absurd hin hout, rfl⟩

theorem Explored.trans {s s' s'' : Search} (h : m.Explored origin s s') (h' : m.Explored origin s' s'') :
    m.Explored origin s s'' := by
  refine ⟨h.grows.trans h'.grows, fun x hin hout => ?_, h'.stack.trans h.stack⟩
  by_cases hx : x ∈ s'.visited
  · exact (h.closed x hx hout).mono h'.grows
  · exact h'.closed x hin hx

theorem visitAll_spec {visit : ID → Search → Bool × Search} {P : Search → Prop}
    (hP : ∀ s s', P s → m.Explored origin s s' → P s') (hvisit : ∀ x ∈ ns, ∀ s s', P s → visit x s = (false, s') →
      m.Explored origin s s' ∧ x ≠ origin ∧ x ∈ s'.visited) (hs : P s) (h : visitAll visit ns s = (found, s')) :
    if found then ∃ x ∈ ns, ∃ s₁, P s₁ ∧ s₁.inStack = s.inStack ∧ visit x s₁ = (true, s')
    else m.Explored origin s s' ∧ ∀ x ∈ ns, x ≠ origin ∧ x ∈ s'.visited := by
  induction ns generalizing s with
  | nil =>
    cases h
    exact ⟨.refl origin _, fun _ hx => absurd hx not_mem_nil⟩
  | cons x ns ih =>
    cases hx : visit x s with
    | mk hit s₁ =>
      rw [visitAll, hx] at h
      cases hit with
      | true =>
        cases h
        exact ⟨x, mem_cons_self, s, hs, rfl, hx⟩
      | false =>
        obtain ⟨hexp, hne, hin⟩ := hvisit x mem_cons_self s s₁ hs hx
        have hrest := ih (fun y hy => hvisit y (mem_cons_of_mem x hy)) (hP s s₁ hs hexp) h
        cases found with
        | true =>
          obtain ⟨y, hy, s₂, hs₂, hstack, hfound⟩ := hrest
          exact ⟨y, mem_cons_of_mem x hy, s₂, hs₂, hstack.trans hexp.stack, hfound⟩
        | false =>
          refine ⟨hexp.trans hrest.1, fun y hy => ?_⟩
          rcases mem_cons.mp hy with rfl | hy
          · exact ⟨hne, hrest.1.grows hin⟩
          · exact hrest.2 y hy

/-- Edges join vertices. -/
def Joined (m : MemoryGraph) : Prop := ∀ a b, m.Edge a b → a ∈ m.vertices ∧ b ∈ m.vertices

theorem dfs_succ {result : Bool × Search} (hcurrent : current ∈ m.vertices)
    (h : m.dfs orders origin (fuel + 1) current s = result) :
    current ∈ s.inStack ∧ result = (true, s) ∨
    current ∈ s.visited ∧ result = (false, s) ∨
    current ∉ s.inStack ∧ current ∉ s.visited ∧ ∃ ns, (∀ b, b ∈ ns ↔ m.Edge current b) ∧ ∃ found s',
      visitAll (fun neighbor s => if neighbor = origin then (true, s) else m.dfs orders origin fuel neighbor s) ns
        { visited := insert current s.visited, inStack := insert current s.inStack } = (found, s') ∧
      result = (found, if found then s' else { s' with inStack := s'.inStack.erase current }) := by
  rw [dfs] at h
  split at h
  next hstack =>
    exact .inl ⟨hstack, h.symm⟩
  rename_i hstack
  split at h
  next hin =>
    exact .inr (.inl ⟨hin, h.symm⟩)
  rename_i hnew
  obtain ⟨ns, hns, -, hedges⟩ := getNeighbors_of_mem (orders (insert current s.visited).card) hcurrent
  dsimp only at h
  rw [hns] at h
  dsimp only at h
  refine .inr (.inr ⟨hstack, hnew, ns, hedges, ?_⟩)
  split at h
  next s' hall =>
    exact ⟨true, s', hall, h.symm⟩
  next s' hall =>
    exact ⟨false, s', hall, h.symm⟩

theorem card_unvisited_lt (hcurrent : current ∈ m.vertices) (hnew : current ∉ visited) :
    (m.vertices \ insert current visited).card < (m.vertices \ visited).card := by
  refine Finset.card_lt_card ⟨Finset.sdiff_subset_sdiff subset_rfl (Finset.subset_insert _ _), fun hsub => ?_⟩
  exact (Finset.mem_sdiff.mp (hsub (Finset.mem_sdiff.mpr ⟨hcurrent, hnew⟩))).2 (Finset.mem_insert_self _ _)

theorem length_neighbors_le (hjoined : m.Joined) {a : ID} (hnodup : ns.Nodup) (hedges : ∀ b, b ∈ ns ↔ m.Edge a b) :
    ns.length ≤ m.vertices.card := by
  rw [← toFinset_card_of_nodup hnodup]
  exact Finset.card_le_card fun x hx => (hjoined a x ((hedges x).mp (List.mem_toFinset.mp hx))).2

theorem visit_pays {k l : Nat} (h : k < l) (n : Nat) : k * (n + 1) + (n + 1) ≤ l * (n + 1) := by
  rw [← Nat.succ_mul]
  exact Nat.mul_le_mul_right _ h

theorem dfs_spec (hjoined : m.Joined) (hac : Acyclic m.Edge) (hcurrent : current ∈ m.vertices)
    (hfuel : (m.vertices \ s.visited).card < fuel) (h : m.dfs orders origin fuel current s = (found, s')) :
    if found then TransGen m.Edge current origin ∨ ∃ x ∈ s.inStack, ReflTransGen m.Edge current x
    else m.Explored origin s s' ∧ current ∈ s'.visited := by
  induction fuel generalizing current s s' found with
  | zero => omega
  | succ fuel ih =>
    rcases dfs_succ hcurrent h with ⟨hstack, heq⟩ | ⟨hin, heq⟩ | ⟨hstack, hnew, ns, hedges, hit, s₁, hall, heq⟩
    · cases heq
      exact .inr ⟨current, hstack, .refl⟩
    · cases heq
      exact ⟨.refl origin s, hin⟩
    · have hless := card_unvisited_lt hcurrent hnew
      have hvisits := visitAll_spec (P := fun s : Search => (m.vertices \ s.visited).card < fuel)
        (fun s s' hs hexp => (Finset.card_le_card (Finset.sdiff_subset_sdiff subset_rfl hexp.grows)).trans_lt hs)
        (fun x hx s s' hs hvisit => by
          split at hvisit
          · cases hvisit
          next hne =>
            obtain ⟨hexp, hin⟩ := ih (hjoined current x ((hedges x).mp hx)).2 hs hvisit
            exact ⟨hexp, hne, hin⟩)
        (show (m.vertices \ insert current s.visited).card < fuel by omega) hall
      cases hit with
      | true =>
        cases heq
        obtain ⟨x, hx, s₂, hs₂, hsame, hfound⟩ := hvisits
        have hedge := (hedges x).mp hx
        split at hfound
        next horigin =>
          exact .inl (horigin ▸ .single hedge)
        rcases ih (hjoined current x hedge).2 hs₂ hfound with hway | ⟨y, hy, hback⟩
        · exact .inl (.head hedge hway)
        rw [hsame] at hy
        rcases Finset.mem_insert.mp hy with rfl | hy
        · exact absurd (TransGen.head' hedge hback) (hac y)
        · exact .inr ⟨y, hy, .head hedge hback⟩
      | false =>
        cases heq
        obtain ⟨⟨hgrows, hclosed, hsame⟩, himports⟩ := hvisits
        refine ⟨⟨(Finset.subset_insert _ _).trans hgrows, fun x hin hout => ?_, ?_⟩,
          hgrows (Finset.mem_insert_self _ _)⟩
        · by_cases hx : x = current
          · subst hx
            exact fun y hy => himports y ((hedges y).mpr hy)
          · exact hclosed x hin fun h => (Finset.mem_insert.mp h).elim hx hout
        · show s₁.inStack.erase current = s.inStack
          rw [hsame, Finset.erase_insert hstack]

theorem hasCycle_iff (orders : Orders) (hjoined : m.Joined) (hac : Acyclic m.Edge) {origin target : ID}
    (htarget : target ∈ m.vertices) : m.hasCycle orders origin target = true ↔ ReflTransGen m.Edge target origin := by
  unfold hasCycle
  split
  next heq =>
    subst heq
    exact iff_of_true rfl .refl
  rename_i hne
  have hfuel : (m.vertices \ (∅)).card < m.vertices.card + 1 :=
    Nat.lt_succ_of_le (Finset.card_le_card Finset.sdiff_subset)
  cases hdfs : m.dfs orders origin (m.vertices.card + 1) target {} with
  | mk found s' =>
    have hspec := dfs_spec hjoined hac htarget hfuel hdfs
    cases found with
    | true =>
      refine iff_of_true rfl ?_
      rcases hspec with hway | ⟨x, hx, -⟩
      · exact hway.to_reflTransGen
      · exact absurd hx (Finset.notMem_empty x)
    | false =>
      refine iff_of_false Bool.false_ne_true fun hway => ?_
      obtain ⟨⟨-, hclosed, -⟩, hin⟩ := hspec
      -- the visited nodes are closed, and the origin is no import of one
      have hstays : origin ≠ origin ∨ origin = target := by
        rcases ReflTransGen.cases_tail hway with heq | ⟨x, hx, hedge⟩
        · exact .inr heq
        · have hvisited := closed_of_reflTransGen (S := fun x => x ∈ s'.visited)
            (fun u v hu huv => (hclosed u hu (Finset.notMem_empty u) v huv).2) hin hx
          exact .inl (hclosed x hvisited (Finset.notMem_empty x) origin hedge).1
      exact hstays.elim (fun h => h rfl) hne

/-! ### Reachable nodes -/

theorem reachLoop_spec (hjoined : m.Joined) {fuel : Nat} {queue : List ID} {visited reached : Finset ID}
    (hr : m.reachLoop orders fuel queue visited = reached) (hqueue : ∀ x ∈ queue, x ∈ m.vertices)
    (hclosed : ∀ x ∈ visited, ∀ y, m.Edge x y → y ∈ visited ∨ y ∈ queue)
    (hfuel : (m.vertices \ visited).card * (m.vertices.card + 1) + queue.length ≤ fuel) :
    (∀ x, x ∈ visited ∨ x ∈ queue → x ∈ reached) ∧ (∀ x ∈ reached, ∀ y, m.Edge x y → y ∈ reached) ∧
    ∀ x ∈ reached, x ∈ visited ∨ ∃ z ∈ queue, ReflTransGen m.Edge z x := by
  fun_induction reachLoop m orders fuel queue visited with
  | case1 fuel visited =>
    subst hr
    exact ⟨fun x hx => hx.resolve_right not_mem_nil,
      fun x hx y hy => (hclosed x hx y hy).resolve_right not_mem_nil, fun x hx => .inl hx⟩
  | case2 queue visited hne => exact absurd (length_eq_zero_iff.mp (by omega)) hne
  | case3 fuel current queue visited hin ih =>
    rw [length_cons] at hfuel
    have hrest {x : ID} (hx : x ∈ visited ∨ x ∈ current :: queue) : x ∈ visited ∨ x ∈ queue := by
      rcases hx with hx | _ | ⟨-, hx⟩
      · exact .inl hx
      · exact .inl hin
      · exact .inr hx
    obtain ⟨hall, hstep, honly⟩ := ih hr (fun x hx => hqueue x (mem_cons_of_mem current hx))
      (fun x hx y hy => hrest (hclosed x hx y hy)) (by omega)
    refine ⟨fun x hx => hall x (hrest hx), hstep, fun x hx => ?_⟩
    exact (honly x hx).imp_right fun ⟨z, hz, hway⟩ => ⟨z, mem_cons_of_mem current hz, hway⟩
  | case4 fuel current queue visited hnew visited' neighbors ih =>
    have hcurrent := hqueue current mem_cons_self
    rw [length_cons] at hfuel
    obtain ⟨ns, hns, hnodup, hedges⟩ := getNeighbors_of_mem (orders fuel) hcurrent
    obtain rfl : neighbors = ns := by simp only [neighbors, hns, getD_some]
    have hnext {x : ID} : x ∈ visited' ∨ x ∈ (neighbors.filter fun n => n ∉ visited').reverse ++ queue ↔
        (x ∈ visited ∨ x ∈ current :: queue) ∨ m.Edge current x := by
      simp only [visited', mem_append, mem_reverse, mem_filter, hedges, decide_eq_true_eq, Finset.mem_insert, mem_cons]
      tauto
    have hpushed {x : ID} (hx : x ∈ (neighbors.filter fun n => n ∉ visited').reverse) : m.Edge current x :=
      (hedges x).mp (mem_filter.mp (mem_reverse.mp hx)).1
    have hfuel' : (m.vertices \ visited').card * (m.vertices.card + 1) +
        ((neighbors.filter fun n => n ∉ visited').reverse ++ queue).length ≤ fuel := by
      have hlen := length_neighbors_le hjoined hnodup hedges
      have hfilter := length_filter_le (fun n => n ∉ visited') neighbors
      have hless : (m.vertices \ visited').card < (m.vertices \ visited).card := card_unvisited_lt hcurrent hnew
      have hpays := visit_pays hless m.vertices.card
      rw [length_append, length_reverse]
      omega
    obtain ⟨hall, hstep, honly⟩ := ih hr
      (fun x hx => (mem_append.mp hx).elim (fun h => (hjoined current x (hpushed h)).2)
        fun h => hqueue x (mem_cons_of_mem current h))
      (fun x hx y hy => hnext.mpr ((Finset.mem_insert.mp hx).elim (fun h => .inr (h ▸ hy)) fun h =>
        .inl (hclosed x h y hy)))
      hfuel'
    refine ⟨fun x hx => hall x (hnext.mpr (.inl hx)), hstep, fun x hx => ?_⟩
    rcases honly x hx with h | ⟨z, hz, hway⟩
    · rcases Finset.mem_insert.mp h with rfl | h
      · exact .inr ⟨x, mem_cons_self, .refl⟩
      · exact .inl h
    · rcases mem_append.mp hz with hz | hz
      · exact .inr ⟨current, mem_cons_self, .head (hpushed hz) hway⟩
      · exact .inr ⟨z, mem_cons_of_mem current hz, hway⟩

theorem mem_reachableFromLocked (hjoined : m.Joined) {entry x : ID} (hentry : entry ∈ m.vertices) :
    x ∈ m.reachableFromLocked orders entry ↔ ReflTransGen m.Edge entry x := by
  obtain ⟨hall, hstep, honly⟩ := @reachLoop_spec m orders hjoined _ [entry] ∅ _
    (rfl : _ = m.reachableFromLocked orders entry) (fun x hx => mem_singleton.mp hx ▸ hentry)
    (fun x hx => absurd hx (Finset.notMem_empty x)) (by
      rw [Finset.sdiff_empty]
      exact Nat.succ_le_succ (Nat.mul_le_mul_right _ (Nat.le_succ _)))
  constructor
  · intro hx
    obtain ⟨z, hz, hway⟩ := (honly x hx).resolve_left (Finset.notMem_empty x)
    exact mem_singleton.mp hz ▸ hway
  · exact closed_of_reflTransGen (S := fun x => x ∈ m.reachableFromLocked orders entry)
      (fun u v hu huv => hstep u hu v huv) (hall entry (.inr mem_cons_self))

end Wippy.Lua.MemoryGraph
