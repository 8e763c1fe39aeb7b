import Wippy.Theorems.Crdt.Replica
import Mathlib.Data.Finset.Basic

/-! Convergence of `State.Apply`: each key of a replica is a register filled by contest. The order is not transitive: at
    one wall a tombstone, the next write of its origin and a write of another origin can beat each other in a circle. -/

namespace Wippy.Crdt
open Lib State List

/-- What a replica does: learn the name of a node, or merge a delta. -/
inductive Event
  | intern (node : Bytes)
  | receive (d : Delta)

/-- One event. -/
def exec (s : State) : Event → State
  | .intern node => (s.internNode node).1
  | .receive d => (s.receive d).1

/-- The deltas that were merged. -/
def delivered (es : List Event) : List Delta :=
  es.filterMap fun
    | .intern _ => none
    | .receive d => some d

theorem exec_interned {s : State} (hs : s.Interned) (ev : Event) : (exec s ev).Interned := by
  cases ev with
  | intern node => exact hs.internNode node
  | receive d => exact hs.receive d

theorem view_run (node key : Bytes) (es : List Event) :
    (es.foldl exec (newState node)).Interned ∧ (es.foldl exec (newState node)).view key =
      contest Delta.supersedes ((delivered es).filter fun d => d.key = key) := by
  induction es using List.reverseRecOn with
  | nil => exact ⟨Interned.newState node, rfl⟩
  | append_singleton es ev ih =>
    obtain ⟨hint, hview⟩ := ih
    rw [foldl_append]
    refine ⟨exec_interned hint ev, ?_⟩
    cases ev with
    | intern n =>
      have : delivered (es ++ [.intern n]) = delivered es := by simp [delivered]
      rw [this, ← hview]
      exact view_internNode hint n key
    | receive d =>
      have : delivered (es ++ [.receive d]) = delivered es ++ [d] := by simp [delivered]
      rw [this]
      show ((es.foldl exec (newState node)).receive d).1.view key = _
      rw [view_receive hint, hview]
      by_cases hk : key = d.key
      · simp [hk, contest_append]
      · simp [hk, Ne.symm hk]

/-- No two deltas have one dot. -/
def DotsUnique (S : Finset Delta) : Prop :=
  ∀ d ∈ S, ∀ d' ∈ S, d.origin = d'.origin → d.counter = d'.counter → d = d'

/-- Along the counter of an origin its clock does not go back. -/
def WallMonotone (S : Finset Delta) : Prop :=
  ∀ d ∈ S, ∀ d' ∈ S, d.origin = d'.origin → d.counter ≤ d'.counter → d.wall ≤ d'.wall

instance (S : Finset Delta) : Decidable (DotsUnique S) := inferInstanceAs (Decidable (∀ d ∈ S, _))
instance (S : Finset Delta) : Decidable (WallMonotone S) := inferInstanceAs (Decidable (∀ d ∈ S, _))

/-- Any two replicas that apply all of `S`, in any orders, with any repetitions and any interning, hold the
    same value, origin, counter, wall and deletion for every key. -/
def Converges (S : Finset Delta) : Prop :=
  ∀ (node₁ node₂ : Bytes) (es₁ es₂ : List Event), (∀ d, d ∈ delivered es₁ ↔ d ∈ S) → (∀ d, d ∈ delivered es₂ ↔ d ∈ S) →
    ∀ key, (es₁.foldl exec (newState node₁)).view key = (es₂.foldl exec (newState node₂)).view key

/-- A tombstone outranks a put, and between two of a kind the larger origin string does. -/
def Delta.Outranks (t d : Delta) : Prop :=
  (t.deleted = true ∧ d.deleted = false) ∨ (t.deleted = d.deleted ∧ d.origin < t.origin)

instance (t d : Delta) : Decidable (t.Outranks d) := inferInstanceAs (Decidable (_ ∨ _))

/-- `t` has the highest wall of its key, it is the last write of its origin to the key, and it outranks
    every entry of another origin at that wall. -/
structure Prevails (S : Finset Delta) (t : Delta) : Prop where
  wall : ∀ d ∈ S, d.key = t.key → d.wall ≤ t.wall
  last : ∀ d ∈ S, d.key = t.key → d.origin = t.origin → d.counter ≤ t.counter
  outranks : ∀ d ∈ S, d.key = t.key → d.wall = t.wall → d.origin ≠ t.origin → t.Outranks d

variable {S : Finset Delta}

theorem supersedes_irrefl (d : Delta) : d.supersedes d = false := by
  simp [Delta.supersedes, List.lt_irrefl]

theorem supersedes_total (hdot : DotsUnique S) {d d' : Delta} (hd : d ∈ S) (hd' : d' ∈ S) (hne : d ≠ d') :
    d.supersedes d' = true ∨ d'.supersedes d = true := by
  have := hdot d hd d' hd'
  unfold Delta.supersedes
  grind

/-- The deltas of a key. -/
def ofKey (S : Finset Delta) (key : Bytes) : Set Delta := { d | d ∈ S ∧ d.key = key }

/-- That an entry of a lower wall loses to one of its own origin needs the walls of an origin to follow its counters. -/
theorem prevails_iff_champion (hdot : DotsUnique S) (hwall : WallMonotone S) {key : Bytes} {t : Delta} :
    (t ∈ S ∧ t.key = key ∧ Prevails S t) ↔ Champion Delta.supersedes (ofKey S key) t := by
  constructor
  · rintro ⟨ht, rfl, hp⟩
    have beaten : ∀ x ∈ ofKey S t.key, x.supersedes t = false ∧ (x ≠ t → t.supersedes x = true) := by
      rintro x ⟨hx, hk⟩
      have h1 := hp.wall x hx hk
      have h2 := hp.last x hx hk
      have h3 := hp.outranks x hx hk
      have h4 := hdot x hx t ht
      unfold Delta.supersedes
      by_cases ho : x.origin = t.origin
      · grind
      · by_cases hw : x.wall = t.wall
        · rcases h3 hw ho with ⟨htd, hxd⟩ | ⟨hdel, hlt⟩ <;> grind
        · grind
    exact ⟨⟨ht, rfl⟩, fun x hx => (beaten x hx).1, fun x hx => (beaten x hx).2⟩
  · rintro ⟨⟨ht, rfl⟩, unbeaten, wins⟩
    refine ⟨ht, rfl, ?_, ?_, ?_⟩
    · intro d hd hk
      have h1 := unbeaten d ⟨hd, hk⟩
      have h2 := hwall d hd t ht
      unfold Delta.supersedes at h1
      grind
    · intro d hd hk ho
      have h1 := unbeaten d ⟨hd, hk⟩
      unfold Delta.supersedes at h1
      grind
    · intro d hd hk hw ho
      have h1 := wins d ⟨hd, hk⟩ (fun h => ho (h ▸ rfl))
      unfold Delta.supersedes at h1
      unfold Delta.Outranks
      grind

/-- Replicas converge on `S` exactly when `S` settles the register of every key. -/
theorem converges_iff_settles : Converges S ↔ ∀ key, Settles Delta.supersedes (ofKey S key) := by
  constructor
  · intro hc key l₁ l₂ h₁ h₂
    -- A run that first receives a list of entries of `key` and then all entries of the other keys.
    let run : List Delta → List Event := fun l => (l ++ S.toList.filter fun d => d.key ≠ key).map Event.receive
    have hdel : ∀ l, delivered (run l) = l ++ S.toList.filter fun d => d.key ≠ key := fun l => by
      simp [delivered, run, filterMap_map]
    have hall : ∀ l, (∀ x, x ∈ l ↔ x ∈ ofKey S key) → ∀ d, d ∈ delivered (run l) ↔ d ∈ S := by
      intro l hl d
      rw [hdel, mem_append, hl]
      unfold ofKey
      by_cases hk : d.key = key <;> simp [hk]
    have hcontest : ∀ l, (∀ x, x ∈ l ↔ x ∈ ofKey S key) →
        (delivered (run l)).filter (fun d => d.key = key) = l := by
      intro l hl
      rw [hdel]
      have hleft : l.filter (fun d => d.key = key) = l :=
        filter_eq_self.mpr fun d hd => decide_eq_true ((hl d).mp hd).2
      simp [hleft]
    have := hc [] [] (run l₁) (run l₂) (hall l₁ h₁) (hall l₂ h₂) key
    rw [(view_run [] key _).2, (view_run [] key _).2, hcontest l₁ h₁, hcontest l₂ h₂] at this
    exact this
  · intro hs node₁ node₂ es₁ es₂ h₁ h₂ key
    rw [(view_run node₁ key es₁).2, (view_run node₂ key es₂).2]
    refine hs key _ _ (fun x => ?_) (fun x => ?_)
    · simp [ofKey, h₁]
    · simp [ofKey, h₂]

/-- Replicas converge on `S` exactly when each key of `S` has a prevailing entry. -/
theorem converges_iff_prevails (hdot : DotsUnique S) (hwall : WallMonotone S) :
    Converges S ↔ ∀ d ∈ S, ∃ t ∈ S, t.key = d.key ∧ Prevails S t := by
  have settles : ∀ key, Settles Delta.supersedes (ofKey S key) ↔
      (∀ x, x ∉ ofKey S key) ∨ ∃ t, Champion Delta.supersedes (ofKey S key) t := by
    intro key
    refine settles_iff_champion ⟨S.toList.filter fun d => d.key = key, fun x => by simp [ofKey]⟩
      (fun x _ => supersedes_irrefl x) (fun x hx y hy => supersedes_total hdot hx.1 hy.1)
  rw [converges_iff_settles]
  constructor
  · intro hs d hd
    rcases (settles d.key).mp (hs d.key) with hempty | ⟨t, ht⟩
    · exact absurd ⟨hd, rfl⟩ (hempty d)
    · obtain ⟨hmem, hkey, hp⟩ := (prevails_iff_champion hdot hwall).mpr ht
      exact ⟨t, hmem, hkey, hp⟩
  · intro hp key
    refine (settles key).mpr ?_
    by_cases hempty : ∀ x, x ∉ ofKey S key
    · exact Or.inl hempty
    push Not at hempty
    obtain ⟨d, hd, hkey⟩ := hempty
    obtain ⟨t, ht, htk, htp⟩ := hp d hd
    exact Or.inr ⟨t, (prevails_iff_champion hdot hwall).mp ⟨ht, htk.trans hkey, htp⟩⟩

/-! ### A circle of three

Node `a` deletes a key and writes it again within one wall, and node `b` writes the key at that wall. -/

/-- A delete, the rewrite that followed it, and a write of another origin, all at one wall. -/
def reopened : Finset Delta :=
  { { key := [107], origin := [97], counter := 1, wall := 10, deleted := true },
    { key := [107], value := [1], origin := [97], counter := 2, wall := 10 },
    { key := [107], value := [2], origin := [98], counter := 1, wall := 10 } }

/-- Received as delete, rewrite, other write the key ends with the write of `b`; received as other write,
    delete, rewrite it ends with the rewrite of `a`. -/
theorem not_converges_reopened : ¬∀ S : Finset Delta, DotsUnique S → WallMonotone S → Converges S := by
  intro h
  have hc := h reopened (by decide) (by decide)
  let del : Delta := { key := [107], origin := [97], counter := 1, wall := 10, deleted := true }
  let rewrite : Delta := { key := [107], value := [1], origin := [97], counter := 2, wall := 10 }
  let other : Delta := { key := [107], value := [2], origin := [98], counter := 1, wall := 10 }
  have := hc [120] [121] [.receive del, .receive rewrite, .receive other]
    [.receive other, .receive del, .receive rewrite]
    (fun d => by simp [delivered, reopened, del, rewrite, other])
    (fun d => by simp [delivered, reopened, del, rewrite, other]; tauto) [107]
  revert this
  decide

/-- With a later wall for the rewrite the three entries converge: the rewrite prevails. -/
theorem converges_iff_prevails_later : Converges
    { { key := [107], origin := [97], counter := 1, wall := 10, deleted := true },
      { key := [107], value := [1], origin := [97], counter := 2, wall := 11 },
      { key := [107], value := [2], origin := [98], counter := 1, wall := 10 } } := by
  refine (converges_iff_prevails (by decide) (by decide)).mpr fun d hd =>
    ⟨{ key := [107], value := [1], origin := [97], counter := 2, wall := 11 }, by decide, ?_, ?_, ?_, ?_⟩
  · revert d
    decide
  · decide
  · decide
  · decide

end Wippy.Crdt
