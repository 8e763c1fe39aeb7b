import Wippy.Theorems.Eventual.Convergence
import Wippy.Lib.Reach

/-! Restarts of a node: a dot of an earlier run that comes in is superseded by a re-minted local dot, which is above it
    unless the counters are exhausted. -/

namespace Wippy.Eventual
open Lib State List Option

namespace State
variable {s t u : State} {e m : Entry} {name : Bytes}

/-- The live local dots of `t` are among those of `s`, with the same pids. -/
structure LocalKept (s t : State) : Prop where
  localNode : t.localNode = s.localNode
  live : ∀ name e, t.dot name s.localNode = some e → e.deleted = false →
    ∃ cur, s.dot name s.localNode = some cur ∧ cur.deleted = false ∧ cur.pid = e.pid

theorem LocalKept.of_dots (hl : t.localNode = s.localNode)
    (hd : ∀ name e, t.dot name s.localNode = some e → s.dot name s.localNode = some e) : LocalKept s t :=
  ⟨hl, fun name e he hlive => ⟨e, hd name e he, hlive, rfl⟩⟩

theorem LocalKept.trans (h : LocalKept s t) (h' : LocalKept t u) : LocalKept s u where
  localNode := h'.localNode.trans h.localNode
  live := fun name e he hlive => by
    rw [← h.localNode] at he
    obtain ⟨cur, hcur, hlive', hpid⟩ := h'.live name e he hlive
    rw [h.localNode] at hcur
    obtain ⟨cur', hcur', hlive'', hpid'⟩ := h.live name cur hcur hlive'
    exact ⟨cur', hcur', hlive'', hpid'.trans hpid⟩

theorem localKept_internNode (s : State) (node : Bytes) : LocalKept s (s.internNode node).1 :=
  .of_dots (internNode_other s node).2.1 fun name _ he => dot_internNode s node name s.localNode ▸ he

theorem deleted_of_accepted (hn : e.node = s.localNode) (hf : ¬s.Foreign e)
    (hno : mergeOutcome (s.dot e.name e.node) e ≠ .noop) : e.deleted = true := by
  have hprior : priorIncarnation (s.dot e.name s.localNode) e = false := by
    cases h : priorIncarnation (s.dot e.name s.localNode) e with
    | false => rfl
    | true => exact absurd ⟨hn, h⟩ hf
  cases hdot : s.dot e.name s.localNode with
  | none => simpa [hdot, priorIncarnation] using hprior
  | some cur =>
    unfold priorIncarnation at hprior
    unfold mergeOutcome at hno
    cases hd : e.deleted with
    | true => rfl
    | false => grind

theorem superseding_live (h : (s.superseding e).deleted = false) :
    ∃ cur, s.dot e.name s.localNode = some cur ∧ cur.deleted = false ∧ (s.superseding e).pid = cur.pid := by
  unfold superseding at h ⊢
  split at h
  next cur hcur =>
    exact ⟨cur, hcur, h, rfl⟩
  · cases h

theorem Keyed.localKept_apply (h : s.Keyed) (e : Entry) : LocalKept s (s.apply e).1 := by
  refine ⟨(apply_table s e).localNode, fun name x hx hlive => ?_⟩
  rcases apply_cases s e with ⟨-, t, heq, rfl⟩ | ⟨-, -, heq⟩ | ⟨hf, hno, heq, -⟩
  · have hm := h.supersede e
    have hdot : ((s.warned e).nextCounter.1.install (s.superseding e)).dot name s.localNode =
        if name = (s.superseding e).name ∧ s.localNode = (s.superseding e).node then some (s.superseding e)
        else s.dot name s.localNode := hm.toStored.dot name s.localNode
    rw [heq, hdot] at hx
    split at hx
    next hk =>
      cases hx
      obtain ⟨cur, hcur, hcurlive, hpid⟩ := superseding_live hlive
      rw [hk.1, (h.superseding e).1]
      exact ⟨cur, hcur, hcurlive, hpid.symm⟩
    · exact ⟨x, hx, hlive, rfl⟩
  · rw [heq] at hx
    exact ⟨x, hx, hlive, rfl⟩
  · rw [heq, (install_stored s e).dot] at hx
    split at hx
    next hk =>
      cases hx
      rw [deleted_of_accepted hk.2.symm hf hno] at hlive
      cases hlive
    · exact ⟨x, hx, hlive, rfl⟩

theorem localKept_reapNode (s : State) (departed : Bytes) : LocalKept s (s.reapNode departed).1 := by
  refine ⟨(reapNode_table s departed).localNode, fun name e he hlive => ?_⟩
  rw [dot_reapNode] at he
  obtain ⟨x, hx, rfl⟩ := map_eq_some_iff.mp he
  unfold reaped at hlive ⊢
  split at hlive
  · cases hlive
  next hdep =>
    rw [if_neg hdep]
    exact ⟨x, hx, hlive, rfl⟩

theorem localKept_reapTombstones (s : State) (safe : List UInt64) (nowMs floor : Int64) :
    LocalKept s (s.reapTombstones safe nowMs floor).1 :=
  .of_dots (reapTombstones_table s safe nowMs floor).localNode fun name e he => by
    rw [dot_reapTombstones] at he
    exact (filter_eq_some_iff.mp he).1

theorem localKept_reclaim (s : State) (alive : List Bytes) : LocalKept s (s.reclaimUnreferencedNodes alive).1 :=
  .of_dots (reclaim_other s alive).2.2 fun name _ he => dot_of_entries (reclaim_other s alive).1 name s.localNode ▸ he

/-- The replica of `node` in any run: its own slot is known, its counter is not ahead of `cv`, and its live dots
    were registered. -/
structure Own (node : Bytes) (s : State) : Prop where
  table : s.Table
  keyed : s.Keyed
  local_id : s.nodeIDs.lookup node = some s.localNode
  seen : s.localCounter ≤ slot s.cv s.localNode
  claimed : ∀ name e, s.dot name s.localNode = some e → e.deleted = false → (name, e.pid) ∈ s.claims

theorem Stored.seen (h : Stored s t e) (j : Nat) :
    slot s.cv j ≤ slot t.cv j ∧ (j = e.node → e.counter ≤ slot t.cv j) := by
  rw [h.cv]
  split
  next hj =>
    exact ⟨UInt64.le_of_lt hj.2, fun _ => UInt64.le_refl _⟩
  next hj =>
    exact ⟨UInt64.le_refl _, fun hn => UInt64.not_lt.mp fun hlt => hj ⟨hn, hlt⟩⟩

theorem Own.newState (node : Bytes) : Own node (newState node) where
  table := Table.newState node
  keyed := (Sourced.newState node).keyed
  local_id := (Running.newState node).local_id
  seen := UInt64.zero_le
  claimed := fun _ _ he => (nomatch he)

variable {node : Bytes}

theorem Own.stored (h : Own node s) (hst : Stored s t e) (hcount : t.localCounter ≤ slot t.cv s.localNode)
    (hclaims : ∀ x ∈ s.claims, x ∈ t.claims)
    (hlive : e.node = s.localNode → e.deleted = false → (e.name, e.pid) ∈ t.claims) : Own node t where
  table := h.table.same hst.table
  keyed := h.keyed.stored hst
  local_id := by
    rw [hst.table.nodeIDs, hst.table.localNode]
    exact h.local_id
  seen := by
    rw [hst.table.localNode]
    exact hcount
  claimed := fun name x hx hd => by
    rw [hst.table.localNode, hst.dot] at hx
    split at hx
    next hk =>
      cases hx
      exact hk.1 ▸ hlive hk.2.symm hd
    · exact hclaims _ (h.claimed name x hx hd)

theorem Own.minted (h : Own node s) (hm : Minted s t m) (hclaims : ∀ x ∈ s.claims, x ∈ t.claims)
    (hlive : m.deleted = false → (m.name, m.pid) ∈ t.claims) : Own node t := by
  refine h.stored hm.toStored ?_ hclaims fun _ => hlive
  rw [hm.localCounter, ← hm.counter]
  exact (hm.toStored.seen s.localNode).2 hm.node.symm

theorem apply_claims (s : State) (e : Entry) : (s.apply e).1.claims = s.claims := by
  rcases apply_cases s e with ⟨-, t, heq, rfl⟩ | ⟨-, -, heq⟩ | ⟨-, -, heq, -⟩
  · rw [heq]
    exact install_claims (s.warned e).nextCounter.1 _
  · rw [heq]
  · rw [heq, install_claims]

section
variable (h : Own node s)
include h

theorem Own.kept (hst : SameTable s t) (hkeyed : t.Keyed) (hcount : t.localCounter ≤ slot t.cv s.localNode)
    (hclaims : t.claims = s.claims) (hkept : LocalKept s t) : Own node t where
  table := h.table.same hst
  keyed := hkeyed
  local_id := by
    rw [hst.nodeIDs, hst.localNode]
    exact h.local_id
  seen := by
    rw [hst.localNode]
    exact hcount
  claimed := fun name x hx hd => by
    rw [hst.localNode] at hx
    obtain ⟨cur, hcur, hlive, hpid⟩ := hkept.live name x hx hd
    rw [hclaims, ← hpid]
    exact h.claimed name cur hcur hlive

theorem Own.apply (e : Entry) : Own node (s.apply e).1 := by
  refine h.kept (apply_table s e) (h.keyed.apply e) ?_ (apply_claims s e) (h.keyed.localKept_apply e)
  rcases apply_cases s e with ⟨-, t, heq, rfl⟩ | ⟨-, -, heq⟩ | ⟨-, -, heq, -⟩
  · have hm := h.keyed.supersede e
    rw [heq, hm.localCounter, ← hm.counter]
    exact (hm.toStored.seen s.localNode).2 hm.node.symm
  · rw [heq]
    exact h.seen
  · rw [heq, install_localCounter]
    exact UInt64.le_trans h.seen ((install_stored s e).seen s.localNode).1

theorem Own.internNode (n : Bytes) : Own node (s.internNode n).1 where
  table := (h.table.internNode n).1
  keyed := h.keyed.of_entries (internNode_other s n).1
  local_id := by
    rw [(internNode_other s n).2.1]
    exact h.table.lookup_internNode n h.local_id
  seen := by
    rw [(internNode_other s n).2.1, (internNode_other s n).2.2.1]
    rcases h.table.internNode_cases n with ⟨id, -, heq⟩ | hs
    · rw [heq]
      exact h.seen
    · rw [hs.cv, if_neg]
      · exact h.seen
      · rintro ⟨heq, -⟩
        exact hs.nobody node (heq ▸ h.local_id)
  claimed := fun name x hx hd => by
    rw [(internNode_other s n).2.1, dot_internNode] at hx
    rw [(internNode_other s n).2.2.2]
    exact h.claimed name x hx hd

theorem Own.reclaim (alive : List Bytes) : Own node (s.reclaimUnreferencedNodes alive).1 := by
  refine reclaim_induction h fun t id ht _ hre => ?_
  have hne : t.localNode ≠ id := (reclaimable_iff.mp hre).1.symm
  refine ⟨ht.table.reclaimNode hre, ht.keyed, ht.table.lookup_reclaimNode hre ht.local_id hne, ?_, ht.claimed⟩
  show t.localCounter ≤ slot (t.cv.set id 0) t.localNode
  rw [slot_set_zero, if_neg hne]
  exact ht.seen

theorem Own.step (op : Op) : Own node (s.step op) := by
  cases op with
  | intern n => exact h.internNode n
  | apply e => exact h.apply e
  | register name p wallMs priority =>
    simp only [State.step]
    rcases register_cases s name p wallMs priority with ⟨cur, -, -, -, heq⟩ | ⟨t, r, heq, hr, hm, hclaims, -⟩
    · rw [heq]
      exact h
    · rw [heq]
      refine h.minted hm (fun x hx => hclaims ▸ mem_append_left _ hx) fun _ => ?_
      rw [hr, hclaims]
      exact mem_append_right _ (mem_singleton.mpr rfl)
  | unregister name wallMs =>
    simp only [State.step]
    rcases unregister_cases s name wallMs with ⟨-, heq⟩ | ⟨t, m, heq, -, hd, hm, hclaims, -⟩
    · rw [heq]
      exact h
    · rw [heq]
      exact h.minted hm (fun x hx => hclaims ▸ hx) fun hlive => by rw [hd] at hlive; cases hlive
  | reapNode departed =>
    obtain ⟨hcv, hcounter, hclaims⟩ := reapNode_other s departed
    refine h.kept (t := (s.reapNode departed).1) (reapNode_table s departed) (h.keyed.reapNode departed) ?_ hclaims
      (localKept_reapNode s departed)
    rw [hcounter, hcv]
    exact h.seen
  | reapTombstones safe nowMs floor =>
    obtain ⟨hcv, hcounter, hclaims⟩ := reapTombstones_other s safe nowMs floor
    refine h.kept (t := (s.reapTombstones safe nowMs floor).1) (reapTombstones_table s safe nowMs floor)
      (h.keyed.reapTombstones safe nowMs floor) ?_ hclaims (localKept_reapTombstones s safe nowMs floor)
    rw [hcounter, hcv]
    exact h.seen
  | reclaim alive => exact h.reclaim alive

end

theorem lt_fresh_iff (h : s.localCounter ≤ slot s.cv s.localNode) :
    slot s.cv s.localNode < s.fresh ↔ slot s.cv s.localNode ≠ 18446744073709551615 := by
  revert h
  unfold fresh nextCounter
  grind

theorem lt_superseding_iff (h : s.localCounter ≤ slot s.cv s.localNode) (e : Entry) :
    (e.counter < (s.superseding e).counter ∧ slot s.cv s.localNode < (s.superseding e).counter) ↔
      e.counter ≠ 18446744073709551615 ∧ slot s.cv s.localNode ≠ 18446744073709551615 := by
  have hseen : slot (s.warned e).cv s.localNode = if slot s.cv s.localNode < e.counter then e.counter
    else slot s.cv s.localNode := by
    rw [warned, slot_bumpCV]
    simp
  have hle : (s.warned e).localCounter ≤ slot (s.warned e).cv (s.warned e).localNode :=
    UInt64.le_trans h (le_slot_bumpCV s s.localNode e.counter s.localNode)
  have hfresh := lt_fresh_iff hle
  rw [superseding_counter]
  change slot (s.warned e).cv s.localNode < _ ↔ slot (s.warned e).cv s.localNode ≠ _ at hfresh
  grind

end State

/-- What a merge of `e` at the replica `s` of `node` must do. A live local dot is one that this run registered; a dot
    that supersedes `e` is above all that was seen, and wins at the replica of any other node in either order. -/
structure Refuses (node : Bytes) (s : State) (e : Entry) : Prop where
  registered : ∀ name x, (s.apply e).1.dot name s.localNode = some x → x.deleted = false → (name, x.pid) ∈ s.claims
  above : ∀ m, (s.apply e).2.1 = .superseded → (s.apply e).2.2.1 = some m →
    e.counter < m.counter ∧ slot s.cv s.localNode < m.counter
  wins : ∀ m, (s.apply e).2.1 = .superseded → (s.apply e).2.2.1 = some m →
    ∀ (other : Bytes) (t : State), Running other t → other ≠ node →
      (∀ d, t.held e.name node = some d → d.counter < m.counter) →
      ((t.receive (e.withOrigin node)).1.receive (m.withOrigin node)).1.held e.name node = some (m.withOrigin node) ∧
        ((t.receive (m.withOrigin node)).1.receive (e.withOrigin node)).1.held e.name node = some (m.withOrigin node)

theorem held_highest {other : Bytes} {t : State} (ht : Running other t) {d m : Delta} (hname : d.name = m.name)
    (horigin : d.origin = m.origin) (hother : other ≠ m.origin) (hlt : d.counter < m.counter)
    (hheld : ∀ x, t.held m.name m.origin = some x → x.counter < m.counter) :
    ((t.receive d).1.receive m).1.held m.name m.origin = some m ∧
      ((t.receive m).1.receive d).1.held m.name m.origin = some m := by
  have htakes : ∀ x, x.counter < m.counter → m.newer x = true := fun x hx => by simp [Delta.newer, hx]
  have hkeeps : ∀ x : Delta, x.counter < m.counter → x.newer m = false := fun x hx => by
    unfold Delta.newer
    grind
  have hm : ∀ t', Running other t' → (∀ x, t'.held m.name m.origin = some x → x.counter < m.counter) →
      (t'.receive m).1.held m.name m.origin = some m := by
    intro t' ht' hlow
    rw [(ht'.receive (Ne.symm hother)).2, if_pos ⟨rfl, rfl⟩]
    cases hx : t'.held m.name m.origin with
    | none => rfl
    | some x => simp [offer, htakes x (hlow x hx)]
  have hd : d.origin ≠ other := horigin ▸ Ne.symm hother
  constructor
  · refine hm _ (ht.receive hd).1 fun x hx => ?_
    rw [(ht.receive hd).2, if_pos ⟨hname.symm, horigin.symm⟩] at hx
    cases hc : t.held m.name m.origin with
    | none =>
      rw [hc] at hx
      cases hx
      exact hlt
    | some c =>
      rw [hc, offer] at hx
      split at hx
      · cases hx
        exact hlt
      · cases hx
        exact hheld x hc
  · rw [((ht.receive (Ne.symm hother)).1.receive hd).2, hm t ht hheld]
    simp [offer, hkeeps d hlt]

/-- A dot is refused as promised exactly when it is not of an earlier run, or neither its counter nor the highest one
    seen of the local origin is the largest counter. -/
theorem refuses_iff {node : Bytes} {s : State} (h : Reach State.step (fun _ _ => True) (newState node) s) (e : Entry) :
    Refuses node s e ↔
      (s.Foreign e → e.counter ≠ 18446744073709551615 ∧ slot s.cv s.localNode ≠ 18446744073709551615) := by
  have hown : Own node s := h.invariant (Own.newState node) fun _ op _ hs => hs.step op
  have hforeign : s.Foreign e → (s.apply e).2.1 = .superseded ∧ (s.apply e).2.2.1 = some (s.superseding e) := by
    intro hf
    rcases apply_cases s e with ⟨-, t, heq, -⟩ | ⟨hnot, -⟩ | ⟨hnot, -⟩
    · rw [heq]
      exact ⟨rfl, rfl⟩
    · exact absurd hf hnot
    · exact absurd hf hnot
  have hsup : (s.apply e).2.1 = .superseded → s.Foreign e := by
    intro hout
    rcases apply_cases s e with ⟨hf, -⟩ | ⟨-, -, heq⟩ | ⟨-, -, -, -, hne, -⟩
    · exact hf
    · rw [heq] at hout
      cases hout
    · exact absurd hout hne
  constructor
  · intro hr hf
    exact (lt_superseding_iff hown.seen e).mp (hr.above _ (hforeign hf).1 (hforeign hf).2)
  · intro hmax
    have habove : ∀ m, (s.apply e).2.1 = .superseded → (s.apply e).2.2.1 = some m →
        e.counter < m.counter ∧ slot s.cv s.localNode < m.counter := by
      intro m hout hm
      rw [(hforeign (hsup hout)).2] at hm
      cases hm
      exact (lt_superseding_iff hown.seen e).mpr (hmax (hsup hout))
    refine ⟨fun name x hx hd => ?_, habove, fun m hout hm other t ht hother hheld => ?_⟩
    · rw [← (apply_table s e).localNode] at hx
      rw [← apply_claims s e]
      exact (hown.apply e).claimed name x hx hd
    · have hname : m.name = e.name := by
        rw [(hforeign (hsup hout)).2] at hm
        cases hm
        exact (hown.keyed.superseding e).1
      have hlow : ∀ x, t.held (m.withOrigin node).name node = some x → x.counter < m.counter := by
        rw [show (m.withOrigin node).name = e.name from hname]
        exact hheld
      have hboth := held_highest ht (d := e.withOrigin node) (m := m.withOrigin node) hname.symm rfl hother
        (habove m hout hm).1 hlow
      rw [show (m.withOrigin node).name = e.name from hname] at hboth
      exact hboth

/-- The node has registered a name and gets a live dot of an earlier run for it. -/
theorem refuses_iff_earlier :
    let s := (newState [110]).step (.register [107] { uniqID := [2] } 1 0)
    let e : Entry := { pid := { uniqID := [1] }, name := [107], counter := 5, wall := 0, node := 0, priority := 0 }
    (s.apply e).2.1 = .superseded ∧ Refuses [110] s e :=
  ⟨by decide, (refuses_iff (.step _ .start trivial) _).mpr fun _ => by decide⟩

/-- A dot of the local origin with the largest counter: the re-minted counter wraps to 0. -/
def exhausted : Entry :=
  { pid := { uniqID := [1] }, name := [107], counter := 18446744073709551615, wall := 0, node := 0, priority := 0 }

theorem not_refuses_exhausted :
    ¬∀ (node : Bytes) (s : State) (e : Entry), Reach State.step (fun _ _ => True) (newState node) s →
      Refuses node s e := by
  intro h
  have hr := h [110] (newState [110]) exhausted .start
  exact absurd (hr.above ((newState [110]).superseding exhausted) (by decide) (by decide)).1 (by decide)

end Wippy.Eventual
