import Mathlib.Algebra.Group.Action.Defs
import Mathlib.Algebra.Order.BigOperators.Group.Finset
import Wippy.Theorems.Lua.Search

/-! The stored levels are the lengths of the longest walks. While levels are raised, an edge along which they do not
    grow has its target on the stack; while they are counted, the edges from the nodes that are done are followed. -/

namespace Wippy.Lua.MemoryGraph
open Lib Registry Relation List

variable {m : MemoryGraph} {orders : Orders} {done : Finset ID} {levels : Map ID Nat} {id : ID} {s : Sweep}

/-- The level in a table of levels. -/
def levelIn (levels : Map ID Nat) (id : ID) : Nat := (levels.lookup id).getD 0

theorem levelIn_insert (levels : Map ID Nat) (id : ID) (k : Nat) (x : ID) :
    levelIn (levels.insert id k) x = if x = id then k else levelIn levels x := by
  unfold levelIn
  rw [Map.lookup_insert_eq]
  split <;> rfl

/-- How far the levels can still be raised. -/
def room (m : MemoryGraph) (levels : Map ID Nat) : Nat := ∑ v ∈ m.vertices, (m.vertices.card - levelIn levels v)

theorem room_insert_lt {k : Nat} (hid : id ∈ m.vertices) (hk : levelIn levels id < k) (hle : k ≤ m.vertices.card) :
    m.room (levels.insert id k) < m.room levels := by
  refine Finset.sum_lt_sum (fun v _ => ?_) ⟨id, hid, ?_⟩
  · rw [levelIn_insert]
    split
    next hv =>
      subst hv
      omega
    · exact Nat.le_refl _
  · rw [levelIn_insert, if_pos rfl]
    omega

theorem room_le (m : MemoryGraph) (levels : Map ID Nat) : m.room levels ≤ m.vertices.card * m.vertices.card := by
  have h := Finset.sum_le_card_nsmul m.vertices (fun v => m.vertices.card - levelIn levels v) m.vertices.card
    fun v _ => Nat.sub_le _ _
  rwa [smul_eq_mul] at h

theorem raiseLevels_spec (hjoined : m.Joined) (hac : Acyclic m.Edge) {fuel : Nat} {queue : List (ID × Nat)}
    {levels raised : Map ID Nat} (hr : m.raiseLevels orders fuel queue levels = raised)
    (hwalk : ∀ v, Walk m.Edge (levelIn levels v) v) (hqueue : ∀ x ∈ queue, x.1 ∈ m.vertices ∧ Walk m.Edge x.2 x.1)
    (hrise : ∀ u v, m.Edge u v → levelIn levels u < levelIn levels v ∨ ∃ l, (v, l) ∈ queue ∧ levelIn levels u < l)
    (hfuel : m.room levels * (m.vertices.card + 1) + queue.length ≤ fuel) :
    (∀ v, Walk m.Edge (levelIn raised v) v) ∧ ∀ u v, m.Edge u v → levelIn raised u < levelIn raised v := by
  fun_induction raiseLevels m orders fuel queue levels with
  | case1 fuel levels =>
    subst hr
    exact ⟨hwalk, fun u v hedge => (hrise u v hedge).resolve_right fun ⟨l, hl, _⟩ => not_mem_nil hl⟩
  | case2 queue levels hne => exact absurd (length_eq_zero_iff.mp (by omega)) hne
  | case3 fuel id level queue levels hle ih =>
    -- the level is high enough already
    rw [length_cons] at hfuel
    refine ih hr hwalk (fun x hx => hqueue x (mem_cons_of_mem _ hx)) (fun u v hedge => ?_) (by omega)
    rcases hrise u v hedge with h | ⟨l, _ | ⟨-, hl⟩, hlt⟩
    · exact .inl h
    · exact .inl (hlt.trans_le hle)
    · exact .inr ⟨l, hl, hlt⟩
  | case4 fuel id level queue levels hlt neighbors ih =>
    obtain ⟨hid, hlevel⟩ := hqueue (id, level) mem_cons_self
    rw [length_cons] at hfuel
    have hlt : levelIn levels id < level := Nat.lt_of_not_le hlt
    obtain ⟨ns, hns, hnodup, hedges⟩ := getNeighbors_of_mem (orders fuel) hid
    obtain rfl : neighbors = ns := by simp only [neighbors, hns, Option.getD_some]
    have hpushed {x : ID × Nat} : x ∈ (neighbors.map fun n => (n, level + 1)).reverse ↔
        m.Edge id x.1 ∧ x.2 = level + 1 := by
      rw [mem_reverse, List.mem_map]
      constructor
      · rintro ⟨n, hn, rfl⟩
        exact ⟨(hedges n).mp hn, rfl⟩
      · rintro ⟨hedge, hx⟩
        exact ⟨x.1, (hedges x.1).mpr hedge, Prod.ext rfl hx.symm⟩
    refine ih hr ?_ ?_ ?_ ?_
    · intro v
      rw [levelIn_insert]
      split
      next hv =>
        exact hv ▸ hlevel
      · exact hwalk v
    · intro x hx
      rcases mem_append.mp hx with hx | hx
      · obtain ⟨hedge, hx⟩ := hpushed.mp hx
        exact ⟨(hjoined id x.1 hedge).2, hx ▸ .step hlevel hedge⟩
      · exact hqueue x (mem_cons_of_mem _ hx)
    · intro u v hedge
      rw [levelIn_insert, levelIn_insert]
      by_cases hu : u = id
      · subst hu
        rw [if_pos rfl]
        exact .inr ⟨level + 1, mem_append_left _ (hpushed.mpr ⟨hedge, rfl⟩), Nat.lt_succ_self _⟩
      rw [if_neg hu]
      rcases hrise u v hedge with h | ⟨l, _ | ⟨-, hl⟩, h⟩
      · refine .inl ?_
        split
        next hv =>
          subst hv
          omega
        · exact h
      · rw [if_pos rfl]
        exact .inl h
      · exact .inr ⟨l, mem_append_right _ hl, h⟩
    · have hless : m.room (levels.insert id level) < m.room levels :=
        room_insert_lt hid hlt (hlevel.le_card hac fun u v hedge => (hjoined u v hedge).1)
      have hlen := length_neighbors_le hjoined hnodup hedges
      have hpays := visit_pays hless m.vertices.card
      rw [length_append, length_reverse, length_map]
      omega

theorem isLevel_increaseLevelsLocked (hjoined : m.Joined) (hac : Acyclic m.Edge) {a b : ID} (hedge : m.Edge a b)
    (hwalk : ∀ v, Walk m.Edge (m.level v) v)
    (hrise : ∀ u v, m.Edge u v → m.level u < m.level v ∨ u = a ∧ v = b) (v : ID) :
    IsLevel (m.increaseLevelsLocked orders b (m.level a + 1)).Edge v
      ((m.increaseLevelsLocked orders b (m.level a + 1)).level v) := by
  have hfuel : m.room m.nodeLevels * (m.vertices.card + 1) + [(b, m.level a + 1)].length ≤
      (m.vertices.card + 1) * (m.vertices.card + 1) * (m.vertices.card + 1) + 1 := by
    refine Nat.succ_le_succ (Nat.mul_le_mul_right _ ((room_le m m.nodeLevels).trans ?_))
    exact Nat.mul_le_mul (Nat.le_succ _) (Nat.le_succ _)
  obtain ⟨hwalk', hrise'⟩ := @raiseLevels_spec m orders hjoined hac _ _ _ _ rfl hwalk
    (fun x hx => by
      cases mem_singleton.mp hx
      exact ⟨(hjoined a b hedge).2, .step (hwalk a) hedge⟩)
    (fun u v huv => (hrise u v huv).imp_right fun h => by
      obtain ⟨rfl, rfl⟩ := h
      exact ⟨m.level u + 1, mem_singleton.mpr rfl, Nat.lt_succ_self _⟩)
    hfuel
  exact isLevel_of_rising hwalk' hrise' v

theorem foldl_follow {ns : List ID} (hnodup : ns.Nodup) (hid : id ∉ ns) (s : Sweep) :
    (∀ v, (ns.foldl (Sweep.follow id) s).degree v = if v ∈ ns then s.degree v - 1 else s.degree v) ∧
    (∀ v, levelIn (ns.foldl (Sweep.follow id) s).levels v =
      if v ∈ ns then max (levelIn s.levels v) (levelIn s.levels id + 1) else levelIn s.levels v) ∧
    (ns.foldl (Sweep.follow id) s).queue = (ns.filter fun v => s.degree v - 1 = 0).reverse ++ s.queue := by
  induction ns generalizing s with
  | nil => exact ⟨fun v => rfl, fun v => rfl, rfl⟩
  | cons n ns ih =>
    obtain ⟨hn, hnodup⟩ := nodup_cons.mp hnodup
    obtain ⟨hidn, hid⟩ : id ≠ n ∧ id ∉ ns := ⟨fun h => hid (h ▸ mem_cons_self), fun h => hid (mem_cons_of_mem n h)⟩
    obtain ⟨hdegree, hlevels, hqueue⟩ := ih hnodup hid (Sweep.follow id s n)
    have hlevel (v : ID) : levelIn (Sweep.follow id s n).levels v =
        if v = n then max (levelIn s.levels n) (levelIn s.levels id + 1) else levelIn s.levels v := by
      show levelIn (if levelIn s.levels id + 1 > levelIn s.levels n then s.levels.insert n (levelIn s.levels id + 1)
        else s.levels) v = _
      split
      next hgt =>
        rw [levelIn_insert, max_eq_right hgt.le]
      rename_i hle
      rw [max_eq_left (Nat.le_of_not_lt hle)]
      split
      next hv =>
        rw [hv]
      · rfl
    have hdeg (v : ID) : (Sweep.follow id s n).degree v = if v = n then s.degree n - 1 else s.degree v := by
      show Function.update s.degree n (s.degree n - 1) v = _
      rw [Function.update_apply]
    rw [foldl_cons]
    refine ⟨fun v => ?_, fun v => ?_, ?_⟩
    · rw [hdegree, hdeg]
      by_cases hv : v = n
      · subst hv
        rw [if_neg hn, if_pos rfl, if_pos mem_cons_self]
      · simp only [hv, if_false, mem_cons, false_or]
    · rw [hlevels, hlevel, hlevel, if_neg hidn]
      by_cases hv : v = n
      · subst hv
        rw [if_neg hn, if_pos rfl, if_pos mem_cons_self]
      · simp only [hv, if_false, mem_cons, false_or]
    · rw [hqueue]
      have hfilter : (ns.filter fun v => (Sweep.follow id s n).degree v - 1 = 0) =
          ns.filter fun v => s.degree v - 1 = 0 := by
        refine filter_congr fun v hv => ?_
        have hne : v ≠ n := fun h => hn (h ▸ hv)
        rw [hdeg, if_neg hne]
      rw [hfilter]
      show _ ++ (if s.degree n - 1 = 0 then n :: s.queue else s.queue) = _
      split
      next hzero =>
        simp [hzero]
      next hzero =>
        simp [hzero]

/-- The importers of `v` that are not done. -/
def pending (m : MemoryGraph) (done : Finset ID) (v : ID) : Finset ID := (m.vertices \ done).filter fun u => m.Edge u v

/-- What holds while the nodes `done` have been followed. -/
structure Swept (m : MemoryGraph) (done : Finset ID) (s : Sweep) : Prop where
  degree : ∀ v, s.degree v = (m.pending done v).card
  walk : ∀ v, Walk m.Edge (levelIn s.levels v) v
  rise : ∀ u ∈ done, ∀ v, m.Edge u v → levelIn s.levels u < levelIn s.levels v
  ready : ∀ u ∈ done, m.pending done u = ∅
  nodup : s.queue.Nodup
  queue : ∀ v, v ∈ s.queue ↔ v ∈ m.vertices ∧ v ∉ done ∧ m.pending done v = ∅

theorem pending_insert {id v : ID} : m.pending (insert id done) v = (m.pending done v).erase id := by
  ext u
  simp only [pending, Finset.mem_filter, Finset.mem_sdiff, Finset.mem_insert, Finset.mem_erase, not_or]
  tauto

theorem mem_pending {u v : ID} : u ∈ m.pending done v ↔ u ∈ m.vertices ∧ u ∉ done ∧ m.Edge u v := by
  simp only [pending, Finset.mem_filter, Finset.mem_sdiff, and_assoc]

theorem Swept.step (hjoined : m.Joined) (hac : Acyclic m.Edge) (h : m.Swept done s) {queue ns : List ID}
    (hqueue : s.queue = id :: queue) (hns : ns.Nodup) (hedges : ∀ b, b ∈ ns ↔ m.Edge id b) :
    m.Swept (insert id done) (ns.foldl (Sweep.follow id) { s with queue }) := by
  obtain ⟨hid, hnew, hready⟩ := (h.queue id).mp (hqueue ▸ mem_cons_self)
  have hself : id ∉ ns := fun hin => hac id (.single ((hedges id).mp hin))
  obtain ⟨hdegree, hlevels, hqueue'⟩ := foldl_follow hns hself { s with queue }
  have hnodup : (id :: queue).Nodup := hqueue ▸ h.nodup
  have hpending {v : ID} (hv : v ∉ ns) : m.pending (insert id done) v = m.pending done v := by
    rw [pending_insert, Finset.erase_eq_of_notMem fun hin => hv ((hedges v).mpr (mem_pending.mp hin).2.2)]
  have hmem {v : ID} (hv : v ∈ ns) : id ∈ m.pending done v := mem_pending.mpr ⟨hid, hnew, (hedges v).mp hv⟩
  have hcard {v : ID} (hv : v ∈ ns) : (m.pending (insert id done) v).card = s.degree v - 1 := by
    rw [pending_insert, Finset.card_erase_of_mem (hmem hv), h.degree]
  refine ⟨fun v => ?_, fun v => ?_, fun u hu v hedge => ?_, fun u hu => ?_, ?_, fun v => ?_⟩
  · rw [hdegree]
    split
    next hv =>
      rw [hcard hv]
    next hv =>
      rw [hpending hv, h.degree]
  · rw [hlevels]
    split
    next hv =>
      rcases max_choice (levelIn s.levels v) (levelIn s.levels id + 1) with hmax | hmax
      · rw [hmax]
        exact h.walk v
      · rw [hmax]
        exact .step (h.walk id) ((hedges v).mp hv)
    · exact h.walk v
  · -- a node that is done is not an import of `id`, so that its level is final
    have hu' : u ∉ ns := by
      intro hin
      rcases Finset.mem_insert.mp hu with rfl | hu
      · exact hself hin
      · have := h.ready u hu ▸ hmem hin
        exact Finset.notMem_empty id this
    rw [hlevels, hlevels, if_neg hu']
    rcases Finset.mem_insert.mp hu with rfl | hu
    · rw [if_pos ((hedges v).mpr hedge)]
      exact Nat.lt_of_lt_of_le (Nat.lt_succ_self _) (le_max_right _ _)
    · have hlt := h.rise u hu v hedge
      split
      · exact hlt.trans_le (le_max_left _ _)
      · exact hlt
  · have hempty : m.pending done u = ∅ := by
      rcases Finset.mem_insert.mp hu with rfl | hu
      · exact hready
      · exact h.ready u hu
    rw [pending_insert, hempty, Finset.erase_empty]
  · rw [hqueue']
    refine List.Nodup.append (nodup_reverse.mpr (hns.filter _)) (nodup_cons.mp hnodup).2 ?_
    intro v hv hin
    have hv := (mem_filter.mp (mem_reverse.mp hv)).1
    have hempty := ((h.queue v).mp (hqueue ▸ mem_cons_of_mem id hin)).2.2
    exact Finset.notMem_empty id (hempty ▸ hmem hv)
  · rw [hqueue', mem_append, mem_reverse, mem_filter, decide_eq_true_eq]
    constructor
    · rintro (⟨hv, hzero⟩ | hin)
      · refine ⟨(hjoined id v ((hedges v).mp hv)).2, fun hdone => ?_, Finset.card_eq_zero.mp ((hcard hv).trans hzero)⟩
        rcases Finset.mem_insert.mp hdone with rfl | hdone
        · exact hself hv
        · exact Finset.notMem_empty id (h.ready v hdone ▸ hmem hv)
      · obtain ⟨hv, hdone, hempty⟩ := (h.queue v).mp (hqueue ▸ mem_cons_of_mem id hin)
        refine ⟨hv, fun hins => ?_, by rw [pending_insert, hempty, Finset.erase_empty]⟩
        rcases Finset.mem_insert.mp hins with rfl | hins
        · exact (nodup_cons.mp hnodup).1 hin
        · exact hdone hins
    · rintro ⟨hv, hdone, hempty⟩
      by_cases hin : v ∈ ns
      · exact .inl ⟨hin, by rw [← hcard hin, hempty, Finset.card_empty]⟩
      rw [hpending hin] at hempty
      have := (h.queue v).mpr ⟨hv, fun h => hdone (Finset.mem_insert_of_mem h), hempty⟩
      rw [hqueue] at this
      exact .inr ((mem_cons.mp this).resolve_left fun heq => hdone (heq ▸ Finset.mem_insert_self _ _))

theorem Swept.run (hjoined : m.Joined) (hac : Acyclic m.Edge) {fuel : Nat} {done : Finset ID} {s : Sweep}
    (h : m.Swept done s) (hsub : done ⊆ m.vertices) (hfuel : (m.vertices \ done).card < fuel) :
    m.Swept m.vertices (m.sweepLevels orders fuel s) := by
  induction fuel generalizing done s with
  | zero => omega
  | succ fuel ih =>
    rw [sweepLevels]
    cases hqueue : s.queue with
    | nil =>
      -- nothing is ready: by acyclicity nothing is left
      have hall : done = m.vertices := by
        refine hsub.antisymm fun v hv => ?_
        by_contra hnot
        obtain ⟨w, ⟨hw, hwout⟩, hmin⟩ := hac.exists_minimal (s := m.vertices) (fun u v huv => (hjoined u v huv).1)
          (P := fun v => v ∈ m.vertices ∧ v ∉ done) ⟨hv, hnot⟩
        have hempty : m.pending done w = ∅ := by
          refine Finset.eq_empty_of_forall_notMem fun u hu => ?_
          obtain ⟨huin, huout, hedge⟩ := mem_pending.mp hu
          exact hmin u hedge ⟨huin, huout⟩
        have := (h.queue w).mpr ⟨hw, hwout, hempty⟩
        rw [hqueue] at this
        exact not_mem_nil this
      exact hall ▸ h
    | cons id queue =>
      obtain ⟨hid, hnew, -⟩ := (h.queue id).mp (hqueue ▸ mem_cons_self)
      obtain ⟨ns, hns, hnodup, hedges⟩ := getNeighbors_of_mem (orders fuel) hid
      dsimp only
      rw [hns]
      refine ih (h.step hjoined hac hqueue hnodup hedges) (Finset.insert_subset hid hsub) ?_
      have := card_unvisited_lt hid hnew
      omega

theorem foldl_count (l : List ID) (f : ID → Nat) (v : ID) :
    l.foldl (fun degree n => Function.update degree n (degree n + 1)) f v = f v + l.count v := by
  induction l generalizing f with
  | nil => rfl
  | cons n l ih =>
    rw [foldl_cons, ih, Function.update_apply, count_cons]
    by_cases hv : v = n
    · subst hv
      rw [if_pos rfl, beq_self_eq_true, if_pos rfl]
      omega
    · rw [if_neg hv, if_neg fun h => hv (beq_iff_eq.mp h).symm]
      omega

theorem count_neighbors {ids : List ID} (hids : ∀ id ∈ ids, id ∈ m.vertices) (v : ID) (k : Nat) :
    ((ids.zipIdx k).flatMap fun x => (m.getNeighbors (orders x.2) x.1).getD []).count v =
      (ids.filter fun id => m.Edge id v).length := by
  induction ids generalizing k with
  | nil => rfl
  | cons id ids ih =>
    obtain ⟨ns, hns, hnodup, hedges⟩ := getNeighbors_of_mem (orders k) (hids id mem_cons_self)
    rw [zipIdx_cons, flatMap_cons, count_append,
      ih (fun x hx => hids x (mem_cons_of_mem id hx)), hns, Option.getD_some, filter_cons]
    by_cases hedge : m.Edge id v
    · rw [if_pos (decide_eq_true hedge), count_eq_one_of_mem hnodup ((hedges v).mpr hedge), length_cons]
      omega
    · rw [if_neg (by simpa using hedge), count_eq_zero_of_not_mem fun h => hedge ((hedges v).mp h)]
      omega

theorem countDegrees_eq (order : MapRange ID) (v : ID) :
    m.countDegrees orders (order.keys m.vertices) v = (m.pending ∅ v).card := by
  unfold countDegrees pending
  rw [foldl_count, count_neighbors fun id hid => order.mem_keys.mp hid, Nat.zero_add, Finset.sdiff_empty,
    ← toFinset_card_of_nodup ((order.nodup m.vertices).filter _), toFinset_filter, order.toFinset]
  simp only [decide_eq_true_eq]

theorem levelIn_zeroed (ids : List ID) (levels : Map ID Nat) (v : ID) :
    levelIn (ids.foldl (fun levels id => levels.insert id 0) levels) v = if v ∈ ids then 0 else levelIn levels v := by
  unfold levelIn
  rw [Map.lookup_foldl_insert_const]
  split <;> rfl

theorem isLevel_recomputeLevelsLocked (hjoined : m.Joined) (hac : Acyclic m.Edge)
    (hstray : ∀ v, v ∉ m.vertices → m.level v = 0) (v : ID) :
    IsLevel (m.recomputeLevelsLocked orders).Edge v ((m.recomputeLevelsLocked orders).level v) := by
  have hids (v : ID) : v ∈ (orders.part 0 0).keys m.vertices ↔ v ∈ m.vertices := (orders.part 0 0).mem_keys
  have hstart : m.Swept ∅
      { degree := m.countDegrees (orders.part 1) ((orders.part 0 0).keys m.vertices)
        levels := ((orders.part 0 0).keys m.vertices).foldl (fun levels id => levels.insert id 0) m.nodeLevels
        queue := (((orders.part 0 0).keys m.vertices).filter fun id =>
          m.countDegrees (orders.part 1) ((orders.part 0 0).keys m.vertices) id = 0).reverse } := by
    refine ⟨fun v => countDegrees_eq _ v, fun v => ?_, fun u hu => absurd hu (Finset.notMem_empty u),
      fun u hu => absurd hu (Finset.notMem_empty u), nodup_reverse.mpr (((orders.part 0 0).nodup _).filter _),
      fun v => ?_⟩
    · rw [levelIn_zeroed]
      split
      · exact .start v
      next hv =>
        have hzero := hstray v fun hin => hv ((hids v).mpr hin)
        exact (show levelIn m.nodeLevels v = 0 from hzero) ▸ .start v
    · rw [mem_reverse, mem_filter, hids, decide_eq_true_eq, countDegrees_eq, Finset.card_eq_zero]
      exact and_congr_right fun _ => ⟨fun h => ⟨Finset.notMem_empty v, h⟩, fun h => h.2⟩
  have hend := @Swept.run m (orders.part 2) hjoined hac (m.vertices.card + 1) ∅ _ hstart (Finset.empty_subset _)
    (Nat.lt_succ_of_le (Finset.card_le_card Finset.sdiff_subset))
  exact isLevel_of_rising hend.walk (fun u v hedge => hend.rise u (hjoined u v hedge).1 v hedge) v

end Wippy.Lua.MemoryGraph
