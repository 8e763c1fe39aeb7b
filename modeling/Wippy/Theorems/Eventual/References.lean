import Wippy.Theorems.Eventual.Intern

/-! Reference counts: the count of an id is the number of records that hold a dot under it. -/

namespace Wippy.Eventual
open Lib List Option Map

namespace State
variable {s t : State} {e : Entry} {name node : Bytes} {id : Nat}

/-- How many names have a dot with the id. -/
def records (s : State) (id : Nat) : Nat := s.entries.count fun _ r => (r.lookup id).isSome

/-- The reference counts are exact. -/
def Counted (s : State) : Prop := ∀ id, slot s.nodeRefs id = s.records id

theorem records_pos (h : s.dot name id = some e) : 0 < s.records id := by
  obtain ⟨r, hr, he⟩ := dot_eq_some.mp h
  refine countP_pos_iff.mpr ⟨⟨name, r⟩, mem_entries.mpr hr, ?_⟩
  simp [he]

theorem Counted.not_reclaimable (h : s.Counted) (hd : s.dot name id = some e) (alive : List Bytes) :
    s.reclaimable alive id = false := by
  have hpos := records_pos hd
  cases hre : s.reclaimable alive id with
  | false => rfl
  | true =>
    have hzero := (reclaimable_iff.mp hre).2.2.1
    rw [h] at hzero
    omega

theorem isSome_dot (s : State) (name : Bytes) (id : Nat) :
    (s.dot name id).isSome = (s.entries.lookup name).any fun r => (r.lookup id).isSome := by
  unfold dot dots
  cases s.entries.lookup name with
  | none => rfl
  | some r => rfl

theorem Stored.records (h : Stored s t e) (j : Nat) :
    t.records j = if j = e.node ∧ s.dot e.name e.node = none then s.records j + 1 else s.records j := by
  have hcount := count_insert s.entries (fun _ r => (r.lookup j).isSome) e.name ((s.dots e.name).insert e.node e)
  rw [← h.entries, ← isSome_dot s e.name j, lookup_insert_eq] at hcount
  unfold State.records
  by_cases hj : j = e.node
  · subst hj
    cases hd : s.dot e.name e.node with
    | none => simpa [hd] using hcount
    | some cur => simpa [hd] using hcount
  · rw [if_neg hj] at hcount
    rw [if_neg fun hk => hj hk.1]
    exact Nat.add_right_cancel hcount

section
variable (h : s.Counted)
include h

theorem Counted.stored (hst : Stored s t e) : t.Counted := fun j => by
  rw [hst.refs, hst.records, h]

theorem Counted.of_same (hrefs : t.nodeRefs = s.nodeRefs) (hentries : t.entries = s.entries) :
    t.Counted := fun j => by
  unfold records
  rw [hrefs, hentries]
  exact h j

theorem Counted.internNode (hs : s.Sourced) (node : Bytes) : (s.internNode node).1.Counted := fun j => by
  have hrec : (s.internNode node).1.records j = s.records j := by
    unfold records
    rw [(internNode_other s node).1]
  rcases hs.table.internNode_cases node with ⟨id, -, heq⟩ | hslot
  · rw [heq]
    exact h j
  rw [hrec, hslot.refs]
  split
  next hj =>
    refine (countP_eq_zero.mpr fun x hx => ?_).symm
    cases hd : x.2.lookup j with
    | none => simp [hd]
    | some e =>
      obtain ⟨n, hn⟩ := hs.known x.1 j e (dot_eq_some.mpr ⟨x.2, mem_entries.mp hx, hd⟩)
      exact absurd (hj.1 ▸ hn) (hslot.nobody n)
  · exact h j

theorem Counted.reapNode (departed : Bytes) : (s.reapNode departed).1.Counted := fun j => by
  obtain ⟨live, tombstone, heq⟩ := reapNode_eq s departed
  rw [heq]
  unfold records
  rw [count_mapVal]
  refine (h j).trans (count_congr fun name r _ => ?_)
  rw [lookup_mapVal, isSome_map]

theorem Counted.reclaim (alive : List Bytes) : (s.reclaimUnreferencedNodes alive).1.Counted :=
  h.of_same (reclaim_other s alive).2.1 (reclaim_other s alive).1

end

theorem slot_release (s : State) (id j : Nat) :
    slot (s.release id).nodeRefs j = if j = id then slot s.nodeRefs j - 1 else slot s.nodeRefs j := by
  show slot (s.nodeRefs.set id _) j = _
  by_cases hlt : id < s.nodeRefs.length
  · rw [slot_set hlt]
    split
    next hj =>
      rw [hj]
    · rfl
  · -- A slot that the slice does not have reads as zero before and after.
    rw [set_eq_of_length_le (by omega)]
    split
    next hj =>
      have hzero : slot s.nodeRefs j = 0 := by
        simp [slot, getD_eq_getElem?_getD, getElem?_eq_none (by omega : s.nodeRefs.length ≤ j)]
      rw [hzero]
    · rfl

theorem slot_releaseAll (s : State) (es : List Entry) (j : Nat) :
    slot (s.releaseAll es).nodeRefs j = slot s.nodeRefs j - es.countP fun e => decide (e.node = j) := by
  induction es generalizing s with
  | nil => rfl
  | cons e es ih =>
    show slot ((s.release e.node).releaseAll es).nodeRefs j = _
    rw [ih, slot_release, countP_cons]
    by_cases hj : j = e.node
    · subst hj
      simp only [if_pos, decide_true]
      omega
    · rw [if_neg hj]
      simp [Ne.symm hj]

theorem Keyed.countP_allDots (h : s.Keyed) (p : Entry → Bool) (j : Nat) :
    (s.allDots.filter p).countP (fun e => decide (e.node = j)) = s.entries.count fun _ r => (r.lookup j).any p := by
  rw [countP_filter]
  refine countP_flatMap_values fun name r hr => ?_
  rw [← count_key r j p]
  unfold Map.values Map.count
  rw [countP_map]
  refine countP_congr fun y hy => ?_
  have hkey := (h name y.1 y.2 (dot_eq_some.mpr ⟨r, hr, mem_entries.mp hy⟩)).2
  simp [hkey, and_comm]

theorem Counted.reapTombstones (h : s.Counted) (hk : s.Keyed) (safe : List UInt64) (nowMs floor : Int64) :
    (s.reapTombstones safe nowMs floor).1.Counted := fun j => by
  obtain ⟨live, tombstone, heq⟩ := reapTombstones_eq s safe nowMs floor
  rw [heq]
  unfold records
  rw [slot_releaseAll, hk.countP_allDots, h, count_keep, count_mapVal]
  -- The records with a dot under the id are those that lose it and those that keep it.
  have hsplit := count_split s.entries (fun _ r => (r.lookup j).isSome)
    fun _ r => (r.lookup j).any (reapable safe nowMs floor)
  have hlose : (s.entries.count fun _ r => (r.lookup j).isSome && (r.lookup j).any (reapable safe nowMs floor)) =
      s.entries.count fun _ r => (r.lookup j).any (reapable safe nowMs floor) :=
    count_congr fun _ r _ => by cases r.lookup j <;> simp
  have hkeep : (s.entries.count fun _ r => (r.lookup j).isSome && !(r.lookup j).any (reapable safe nowMs floor)) =
      s.entries.count fun _ r =>
        ((r.keep fun _ e => !reapable safe nowMs floor e).lookup j).isSome &&
          !(r.keep fun _ e => !reapable safe nowMs floor e).entries.isEmpty := by
    refine count_congr fun _ r _ => ?_
    rw [isSome_lookup_and_ne_nil, lookup_keep]
    cases r.lookup j with
    | none => rfl
    | some e => cases hre : reapable safe nowMs floor e <;> simp [hre]
  unfold records
  omega

end State
end Wippy.Eventual
