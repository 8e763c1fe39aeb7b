import Wippy.Theorems.Eventual.Convergence

/-! The gauges of live names and tombstones. Whether the winner of a record is live depends only on whether one of its
    dots is, so `adjustCounts` counts a name where that changes. -/

namespace Wippy.Eventual
open Lib List Option Map

namespace State
variable {s t : State}

/-- Whether the winner among some dots is a tombstone. -/
def verdict (dots : List Entry) : Option Bool :=
  if dots.any fun e => !e.deleted then some false else if dots.isEmpty then none else some true

/-- The gauge of live names, or that of tombstones. -/
def gauge (s : State) : Bool → Int
  | false => s.live
  | true => s.tombstone

/-- Each gauge is the number of names whose winner is of its kind. -/
structure Tallied (s : State) : Prop where
  gauge : ∀ b, s.gauge b = s.entries.count fun _ r => verdict r.values == some b
  dotted : ∀ name r, s.entries.lookup name = some r → r.values ≠ []

theorem deleted_winnerOf (s : State) (dots : List Entry) : (s.winnerOf dots).map Entry.deleted = verdict dots := by
  unfold winnerOf verdict
  rw [foldl_winnerStep]
  cases hlive : contest s.outranks (dots.filter fun e => !e.deleted) with
  | some w =>
    obtain ⟨hmem, hw⟩ := mem_filter.mp (contest_mem _ w hlive)
    rw [if_pos (any_eq_true.mpr ⟨w, hmem, hw⟩)]
    simpa using hw
  | none =>
    have hnone := contest_eq_none hlive
    rw [if_neg fun hany => ?_]
    · cases htomb : contest s.outranks (dots.filter fun e => e.deleted) with
      | some w =>
        obtain ⟨hmem, hw⟩ := mem_filter.mp (contest_mem _ w htomb)
        rw [if_neg fun hnil => by simp [isEmpty_iff.mp hnil] at hmem]
        exact congrArg some hw
      | none =>
        have hnil : dots = [] := eq_nil_iff_forall_not_mem.mpr fun e he => by
          cases hdel : e.deleted with
          | true => exact not_mem_nil (contest_eq_none htomb ▸ mem_filter.mpr ⟨he, hdel⟩)
          | false => exact not_mem_nil (hnone ▸ mem_filter.mpr ⟨he, by simp [hdel]⟩)
        rw [hnil]
        rfl
    · obtain ⟨e, he, hdel⟩ := any_eq_true.mp hany
      exact not_mem_nil (hnone ▸ mem_filter.mpr ⟨he, hdel⟩)

theorem gauge_adjustCounts (s : State) (prev next : Option Entry) (b : Bool) :
    (s.adjustCounts prev next).gauge b = s.gauge b + (if next.map Entry.deleted = some b then 1 else 0) -
      (if prev.map Entry.deleted = some b then 1 else 0) := by
  cases b <;> rcases prev with _ | ⟨_, _, _, _, _, _, _ | _⟩ <;> rcases next with _ | ⟨_, _, _, _, _, _, _ | _⟩ <;>
    simp [adjustCounts, gauge]

theorem gauge_setDot (s : State) (e : Entry) (b : Bool) :
    ((s.setDot e).bumpCV e.node e.counter).gauge b = s.gauge b := by
  unfold setDot bumpCV
  dsimp only
  split <;> cases b <;> rfl

theorem Tallied.install (h : s.Tallied) (e : Entry) : (s.install e).Tallied where
  gauge b := by
    let u := (s.setDot e).bumpCV e.node e.counter
    have hgauge : (s.install e).gauge b = _ := gauge_adjustCounts u (s.winner e.name) (u.winner e.name) b
    have hsame : u.gauge b = s.gauge b := gauge_setDot s e b
    have hdots : u.dots e.name = (s.dots e.name).insert e.node e := by
      have hentries : u.entries = s.entries.insert e.name ((s.dots e.name).insert e.node e) := setDot_entries s e
      rw [dots, hentries, AList.lookup_insert]
      rfl
    have hcount := count_insert s.entries (fun _ r => verdict r.values == some b) e.name
      ((s.dots e.name).insert e.node e)
    have hprev : ((s.entries.lookup e.name).any fun r => verdict r.values == some b) =
        (verdict (s.dots e.name).values == some b) := by
      unfold dots
      cases s.entries.lookup e.name <;> rfl
    rw [← (install_stored s e).entries] at hcount
    rw [hgauge, hsame, h.gauge, winner, winner, deleted_winnerOf, deleted_winnerOf]
    split at hcount <;> split at hcount <;> simp_all
    all_goals omega
  dotted name r hr := by
    rw [(install_stored s e).entries] at hr
    rcases lookup_insert_some hr with ⟨rfl, rfl⟩ | ⟨-, hr⟩
    · exact ne_nil_of_mem (mem_values.mpr ⟨e.node, AList.lookup_insert _⟩)
    · exact h.dotted name r hr

theorem gauge_foldl_adjustCounts (rs : List NameRecord) (f : NameRecord → Option Entry × Option Entry) (s : State)
    (b : Bool) :
    (rs.foldl (fun t r => t.adjustCounts (f r).1 (f r).2) s).gauge b = s.gauge b +
      (rs.countP fun r => (f r).2.map Entry.deleted == some b) - rs.countP fun r =>
        (f r).1.map Entry.deleted == some b := by
  induction rs generalizing s with
  | nil => simp
  | cons r rs ih =>
    rw [foldl_cons, ih, gauge_adjustCounts, countP_cons, countP_cons]
    simp only [beq_iff_eq]
    split <;> split <;> omega

/-- A function on records is counted where it changes the verdict; records that it empties have none. -/
theorem Tallied.updateRecords (h : s.Tallied) (f : NameRecord → NameRecord) (b : Bool) :
    (s.updateRecords f).gauge b = s.entries.count fun _ r => verdict (f r).values == some b := by
  have hfold := gauge_foldl_adjustCounts s.entries.values (fun r => (s.winnerOf r.values, s.winnerOf (f r).values)) s b
  have hcount : ∀ p, s.entries.values.countP p = s.entries.count fun _ => p := fun p => by
    unfold values Map.count
    rw [countP_map]
    rfl
  simp only [deleted_winnerOf, hcount] at hfold
  rw [h.gauge] at hfold
  have hgauge : (s.updateRecords f).gauge b = (s.entries.values.foldl (fun t r =>
      t.adjustCounts (s.winnerOf r.values) (s.winnerOf (f r).values)) s).gauge b := by cases b <;> rfl
  omega

theorem Tallied.step (h : s.Tallied) (op : Op) : (s.step op).Tallied := by
  cases op with
  | intern node =>
    simp only [State.step]
    rcases internNode_cases s node with ⟨id, -, heq⟩ | ⟨id, free, -, -, heq⟩ | ⟨-, -, heq⟩ <;> rw [heq]
    · exact h
    · exact { h with }
    · exact { h with }
  | apply e =>
    simp only [State.step]
    rcases apply_cases s e with ⟨-, t, heq, rfl⟩ | ⟨-, -, heq⟩ | ⟨-, -, heq, -⟩ <;> rw [heq]
    · have hwarned : (s.warned e).nextCounter.1.Tallied := { h with }
      exact hwarned.install _
    · exact h
    · exact h.install e
  | register name p wallMs priority =>
    simp only [State.step]
    unfold State.register
    split
    · exact h
    · have hnext : s.nextCounter.1.Tallied := { h with }
      have hinstall := hnext.install (s.registered name p wallMs priority)
      exact { hinstall with }
  | unregister name wallMs =>
    simp only [State.step]
    unfold State.unregister
    split
    · exact h
    · have hnext : s.nextCounter.1.Tallied := { h with }
      exact hnext.install _
  | reapNode departed =>
    obtain ⟨live, tombstone, heq⟩ := reapNode_eq s departed
    have hentries : (s.step (.reapNode departed)).entries = _ := congrArg State.entries heq
    refine ⟨fun b => ?_, fun name r hr => ?_⟩
    · rw [hentries, count_mapVal]
      exact h.updateRecords _ b
    · rw [hentries, lookup_mapVal] at hr
      obtain ⟨r', hr', rfl⟩ := map_eq_some_iff.mp hr
      simpa [values, mapVal] using h.dotted name r' hr'
  | reapTombstones safe nowMs floor =>
    obtain ⟨live, tombstone, heq⟩ := reapTombstones_eq s safe nowMs floor
    have hentries : (s.step (.reapTombstones safe nowMs floor)).entries = _ := congrArg State.entries heq
    refine ⟨fun b => ?_, fun name r hr => ?_⟩
    · have hreleased : (s.releaseAll (s.allDots.filter (reapable safe nowMs floor))).Tallied := by
        rw [releaseAll_eq]
        exact { h with }
      have hgauge := hreleased.updateRecords (fun r => r.keep fun _ e => !reapable safe nowMs floor e) b
      have hsame := congrArg State.entries (releaseAll_eq s (s.allDots.filter (reapable safe nowMs floor)))
      rw [hsame] at hgauge
      rw [hentries, count_keep, count_mapVal]
      refine Eq.trans (by cases b <;> rfl) (hgauge.trans (congrArg _ (count_congr fun name r _ => ?_)))
      cases hnil : (r.keep fun _ e => !reapable safe nowMs floor e).entries with
      | nil => simp [values, hnil, verdict]
      | cons x l => simp
    · rw [hentries, lookup_keep] at hr
      have hne := (Option.filter_eq_some_iff.mp hr).2
      simpa [values] using hne
  | reclaim alive => exact reclaim_induction h fun t id ht _ _ => { ht with }

/-- What `LiveCount` and `TombstoneCount` report is the number of names whose winner is live or a tombstone, and no
    record is without dots. -/
structure Gauged (s : State) : Prop where
  live : s.live = s.entries.count fun name _ => (s.winner name).any fun w => !w.deleted
  tombstone : s.tombstone = s.entries.count fun name _ => (s.winner name).any Entry.deleted
  dotted : ∀ name r, s.entries.lookup name = some r → r.values ≠ []

theorem Tallied.gauged (h : s.Tallied) : s.Gauged := by
  have hcount (b : Bool) : s.gauge b = s.entries.count fun name _ => (s.winner name).any fun w => w.deleted == b := by
    refine (h.gauge b).trans (congrArg _ (count_congr fun name r hr => ?_))
    have hwinner : s.winner name = s.winnerOf r.values := by
      rw [winner, dots, hr]
      rfl
    rw [← deleted_winnerOf s, hwinner]
    cases s.winnerOf r.values <;> rfl
  exact ⟨by simpa [State.gauge] using hcount false, by simpa [State.gauge] using hcount true, h.dotted⟩

theorem gauges_exact (node : Bytes) (ops : List Op) : (ops.foldl step (newState node)).Gauged := by
  have hnew : (newState node).Tallied := by
    have hintern := Tallied.step (s := {}) ⟨fun b => by cases b <;> rfl, fun name r hr => by cases hr⟩ (.intern node)
    exact { hintern with }
  exact (foldlRecOn ops step hnew fun _ hs op _ => hs.step op).gauged

end State
end Wippy.Eventual
