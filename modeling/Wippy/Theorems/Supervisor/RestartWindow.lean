import Mathlib.Data.List.Rotate
import Wippy.Supervisor.RestartWindow

/-! Restarts are limited in a sliding window: the ring, read from `next` on, is the end of the list of admitted
    times. -/

namespace Wippy.Supervisor
open List

variable {policy : RestartIntensity} {log : List (Int × Bool)} {w : RestartWindow} {now : Int}

theorem sub_lt_iff {t u : Int} (h : u ≤ t) (d : Int64) : sub t u < d ↔ t - u < d.toInt := by
  have hd := d.toInt_lt
  have hsub : (sub t u).toInt = min 9223372036854775807 (t - u) := by
    rw [sub, Int64.toInt_ofInt_of_le] <;> omega
  rw [Int64.lt_iff_toInt_lt, hsub]
  omega

/-- The times of the admitted attempts. -/
def admitted (log : List (Int × Bool)) : List Int := (log.filter Prod.snd).map Prod.fst

theorem admitted_sublist (log : List (Int × Bool)) : admitted log <+ log.map Prod.fst := filter_sublist.map _

theorem admitted_concat (log : List (Int × Bool)) (now : Int) (ok : Bool) :
    admitted (log ++ [(now, ok)]) = admitted log ++ if ok then [now] else [] := by
  cases ok <;> simp [admitted]

theorem split_concat {earlier later : List (Int × Bool)} {x y : Int × Bool} (h : log ++ [y] = earlier ++ x :: later) :
    (∃ later', log = earlier ++ x :: later') ∨ earlier = log ∧ x = y := by
  rcases eq_nil_or_concat later with rfl | ⟨later, last, rfl⟩
  · obtain ⟨rfl, heq⟩ := append_inj' h rfl
    exact .inr ⟨rfl, (singleton_inj.mp heq).symm⟩
  · rw [concat_eq_append, ← cons_append, ← append_assoc] at h
    exact .inl ⟨later, append_inj_left' h rfl⟩

/-- As many times as the policy allows restarts were admitted less than `Window` before `now`. -/
def Crowded (policy : RestartIntensity) (log : List (Int × Bool)) (now : Int) : Prop :=
  ∃ picked, picked <+ admitted log ∧ picked.length = policy.maxRestarts ∧ ∀ t ∈ picked, now - t < policy.window.toInt

/-- Any `MaxRestarts + 1` admitted times span at least `Window`, and a time is refused only in a crowd. -/
structure Slides (policy : RestartIntensity) (log : List (Int × Bool)) : Prop where
  spans : ∀ picked, picked <+ admitted log → picked.length = policy.maxRestarts + 1 →
    ∃ first ∈ picked, ∃ last ∈ picked, policy.window.toInt ≤ last - first
  refused : ∀ earlier now later, log = earlier ++ (now, false) :: later → Crowded policy earlier now

theorem Slides.concat (h : Slides policy log) {ok : Bool} (hok : ok = false ↔ Crowded policy log now) :
    Slides policy (log ++ [(now, ok)]) where
  spans picked hsub hlen := by
    rw [admitted_concat] at hsub
    obtain ⟨init, last, rfl, hinit, hlast⟩ := sublist_append_iff.mp hsub
    rcases eq_or_ne last [] with rfl | hne
    · rw [append_nil] at hlen ⊢
      exact h.spans init hinit hlen
    · -- the time is admitted and the last one picked; not all the others are close to it
      cases ok with
      | false => exact absurd (sublist_nil.mp hlast) hne
      | true =>
        obtain rfl : last = [now] := (sublist_singleton.mp hlast).resolve_left hne
        rw [length_append, length_singleton] at hlen
        have : ∃ t ∈ init, ¬ now - t < policy.window.toInt := by
          by_contra hall
          simp only [not_exists, not_and, not_not] at hall
          exact absurd (hok.mpr ⟨init, hinit, by omega, hall⟩) nofun
        obtain ⟨t, ht, hle⟩ := this
        exact ⟨t, mem_append_left _ ht, now, mem_append_right _ mem_cons_self, by omega⟩
  refused earlier now' later heq := by
    rcases split_concat heq with ⟨later', hlog⟩ | ⟨rfl, hlast⟩
    · exact h.refused _ _ _ hlog
    · cases hlast
      exact hok.mp rfl

/-- In order of time, only times after the oldest one kept can be closer to `now` than that one. -/
theorem not_crowded {front back : List Int} {oldest : Int} (hadm : admitted log = front ++ oldest :: back)
    (hsorted : (admitted log).Pairwise (· ≤ ·)) (hlen : back.length < policy.maxRestarts)
    (hfar : policy.window.toInt ≤ now - oldest) : ¬ Crowded policy log now := by
  rintro ⟨picked, hsub, hpicked, hclose⟩
  rw [hadm] at hsub hsorted
  have hfront : front.filter (oldest < ·) = [] := by
    simpa using fun t ht => (pairwise_append.mp hsorted).2.2 t ht oldest mem_cons_self
  have hnewer : picked.filter (oldest < ·) = picked := by
    simp only [filter_eq_self, decide_eq_true_eq]
    intro t ht
    have := hclose t ht
    omega
  have hback := hsub.filter (oldest < ·)
  rw [hnewer, filter_append, hfront, nil_append, filter_cons_of_neg (by simp)] at hback
  have := hback.length_le.trans (length_filter_le _ _)
  omega

/-- Read from `next` on, the ring is the end of the list of admitted times, and all of it until the ring is full. -/
structure Ring (policy : RestartIntensity) (log : List (Int × Bool)) (w : RestartWindow) : Prop where
  limit : w.policy = some policy
  small : w.times.length ≤ policy.maxRestarts
  next : w.next < w.times.length ∨ w.next = 0
  kept : ∃ front, admitted log = front ++ w.times.rotate w.next ∧
    (w.times.length < policy.maxRestarts → front = [] ∧ w.next = 0)

theorem Ring.step (h : Ring policy log w) (hmax : 1 ≤ policy.maxRestarts) (hsorted : (admitted log).Pairwise (· ≤ ·))
    (hnow : ∀ t ∈ admitted log, t ≤ now) : ∃ ok w', w.admit now = some (ok, w') ∧
      Ring policy (log ++ [(now, ok)]) w' ∧ (ok = false ↔ Crowded policy log now) := by
  have hsmall := h.small
  obtain ⟨front, hadm, hfilling⟩ := h.kept
  unfold RestartWindow.admit
  rw [h.limit]
  dsimp only
  split
  next hlt =>
    obtain ⟨rfl, hnext⟩ := hfilling hlt
    rw [hnext, rotate_zero, nil_append] at hadm
    refine ⟨_, _, rfl, ⟨rfl, ?_, .inr hnext, [], ?_, fun _ => ⟨rfl, hnext⟩⟩, iff_of_false nofun ?_⟩
    · rw [length_append, length_singleton]
      omega
    · rw [admitted_concat, hadm, hnext, rotate_zero]
      rfl
    · rintro ⟨picked, hsub, hlen, -⟩
      have := hsub.length_le
      rw [hadm] at this
      omega
  next hfull =>
    -- the ring is full: what it holds before and after the oldest time
    have hbound : w.next < w.times.length := by
      have := h.next
      omega
    obtain ⟨before, oldest, back, htimes, hbefore⟩ : ∃ before oldest back,
        w.times = before ++ oldest :: back ∧ before.length = w.next := by
      refine ⟨w.times.take w.next, w.times[w.next], w.times.drop (w.next + 1), ?_, length_take_of_le hbound.le⟩
      rw [getElem_cons_drop hbound, take_append_drop]
    have hring : w.times.rotate w.next = oldest :: (back ++ before) := by
      rw [htimes, ← hbefore, rotate_append_length_eq]
      rfl
    rw [hring] at hadm
    have hlen : before.length + (back.length + 1) = policy.maxRestarts := by
      rw [htimes, length_append, length_cons] at hsmall hfull
      omega
    rw [htimes, ← hbefore, getElem?_append_right le_rfl, Nat.sub_self, getElem?_cons_zero]
    have hold : oldest ≤ now := hnow _ (hadm ▸ mem_append_right _ mem_cons_self)
    simp only [bind, Option.bind, sub_lt_iff hold]
    split
    next hclose =>
      refine ⟨_, _, rfl, { h with kept := ?_ }, iff_of_true rfl ⟨_, hadm ▸ sublist_append_right _ _, ?_, ?_⟩⟩
      · rw [admitted_concat, if_neg Bool.false_ne_true, append_nil]
        exact h.kept
      · rw [length_cons, length_append]
        omega
      · intro t ht
        have : oldest ≤ t := by
          rcases mem_cons.mp ht with rfl | ht
          · exact Int.le_refl _
          · rw [hadm] at hsorted
            exact (pairwise_cons.mp (pairwise_append.mp hsorted).2.1).1 t ht
        omega
    next hfar =>
      have hset : (before ++ oldest :: back).set before.length now = before ++ [now] ++ back := by simp
      have hsize : (before ++ oldest :: back).length = (before ++ [now] ++ back).length := by simp
      refine ⟨_, _, rfl, ⟨rfl, ?_, .inl ?_, front ++ [oldest], ?_, ?_⟩,
        iff_of_false nofun (not_crowded hadm hsorted ?_ (Int.not_lt.mp hfar))⟩
      · rw [length_set]
        exact htimes ▸ hsmall
      · rw [length_set]
        exact Nat.mod_lt _ (htimes ▸ Nat.zero_lt_of_lt hbound)
      · rw [hset, hsize, rotate_mod, ← length_singleton, ← length_append, rotate_append_length_eq, admitted_concat,
          hadm]
        simp
      · rw [length_set, ← htimes]
        exact fun hlt => absurd hlt hfull
      · rw [length_append]
        omega

/-- A run is a step for every time, each of which is not before those decided on. -/
theorem Ring.run (h : Ring policy log w) (hslides : Slides policy log) (hmax : 1 ≤ policy.maxRestarts)
    {times : List Int}
    (hsorted : (log.map Prod.fst ++ times).Pairwise (· ≤ ·)) :
    ∃ log', w.run log times = some log' ∧ log'.map Prod.fst = log.map Prod.fst ++ times ∧ Slides policy log' := by
  induction times generalizing log w with
  | nil => exact ⟨log, rfl, (append_nil _).symm, hslides⟩
  | cons now times ih =>
    have hadm := admitted_sublist log
    have hparts := pairwise_append.mp hsorted
    have hnow : ∀ t ∈ admitted log, t ≤ now := fun t ht => hparts.2.2 t (hadm.subset ht) now mem_cons_self
    obtain ⟨ok, w', hadmit, hring, hok⟩ := h.step hmax (hparts.1.sublist hadm) hnow
    have hmap : (log ++ [(now, ok)]).map Prod.fst ++ times = log.map Prod.fst ++ now :: times := by simp
    rw [← hmap] at hsorted ⊢
    rw [RestartWindow.run, hadmit]
    exact ih hring (hslides.concat hok) hsorted

/-- A policy that allows restarts slides over every sequence of times in their order. -/
theorem restart_intensity_slides (hmax : 1 ≤ policy.maxRestarts) {times : List Int} (hsorted : times.Pairwise (· ≤ ·)) :
    ∃ log, RestartWindow.run { policy := some policy } [] times = some log ∧ log.map Prod.fst = times ∧
      Slides policy log := by
  have hring : Ring policy [] { policy := some policy } :=
    ⟨rfl, Int.le_of_lt hmax, .inr rfl, [], rfl, fun _ => ⟨rfl, rfl⟩⟩
  refine hring.run ⟨fun picked hsub hlen => ?_, by simp⟩ hmax hsorted
  rw [sublist_nil.mp hsub, length_nil] at hlen
  omega

/-- The third restart within ten nanoseconds is refused, and no other. -/
theorem restart_intensity_slides_two :
    (∃ log, RestartWindow.run { policy := some ⟨2, 10⟩ } [] [0, 4, 9, 10, 13] = some log ∧
      log.map Prod.fst = [0, 4, 9, 10, 13] ∧ Slides ⟨2, 10⟩ log) ∧
    RestartWindow.run { policy := some ⟨2, 10⟩ } [] [0, 4, 9, 10, 14] =
      some [(0, true), (4, true), (9, false), (10, true), (14, true)] :=
  ⟨restart_intensity_slides (by decide) (by decide), by decide⟩

end Wippy.Supervisor
