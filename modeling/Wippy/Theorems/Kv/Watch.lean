import Wippy.Theorems.Kv.Core

/-! What the watchers of the CRDT store see of a frame: a delta that wins by wall clock or origin is merged without an
    event. -/

namespace Wippy.Kv
open Lib Crdt List Function

/-- The value that a delta shows. -/
def visible (d : Delta) : Option Bytes := if d.deleted then none else some d.value

/-- What a watcher does with an event: a put sets its key to the current value, a removal drops the key. -/
def observe (view : Bytes → Option Bytes) (ev : WatchEvent) : Bytes → Option Bytes :=
  match ev.type, ev.current, ev.previous with
  | .put, some e, _ => Function.update view e.key (some e.value)
  | .delete, _, some e => Function.update view e.key none
  | .expired, _, some e => Function.update view e.key none
  | _, _, _ => view

/-- The event that a delta is announced by. -/
def announcement (d : Delta) : WatchEvent :=
  if d.deleted then { type := .delete, previous := some { key := d.key } }
  else { type := .put, current := some { key := d.key, value := d.value, version := d.counter } }

theorem observe_announcement (view : Bytes → Option Bytes) (d : Delta) :
    observe view (announcement d) = Function.update view d.key (visible d) := by
  unfold announcement visible
  split <;> rfl

namespace CRDTEngine

/-- The value that the engine shows. -/
def live (g : CRDTEngine) (key : Bytes) : Option Bytes := (g.state.lookupEntry key).map Crdt.Entry.value

/-- The peer that sent a full state. -/
def sender (data : Bytes) : Bytes :=
  match openFullState data with
  | none => []
  | some (peer, _) => peer

theorem onFrame_eq (g : CRDTEngine) (data : Bytes) :
    g.onFrame data = (inbound data).foldl (onDelta (sender data)) g := by
  unfold onFrame mergeFullState inbound sender
  cases h : openFullState data with
  | none => rfl
  | some x =>
    obtain ⟨peer, deltas⟩ := x
    by_cases hd : deltas = []
    · subst hd
      rfl
    · simp only [hd, if_false]
      rfl

variable (g : CRDTEngine) (peer : Bytes) (d : Delta)

/-- What a merge makes of a delta. -/
def outcome : MergeOutcome := (g.state.receive d).2.1

theorem onDelta_state : (onDelta peer g d).state = (g.state.receive d).1 := congrArg Core.state (g.core_onDelta peer d)

theorem live_eq (k : Bytes) :
    g.live k = (g.state.entries.lookup k).bind fun e => if e.deleted then none else some e.value := by
  unfold live State.lookupEntry
  cases g.state.entries.lookup k with
  | none => rfl
  | some e => by_cases hd : e.deleted <;> simp [hd]

theorem live_onDelta :
    (onDelta peer g d).live = if g.outcome d = .noop then g.live else Function.update g.live d.key (visible d) := by
  have hentries := (g.state.internNode d.origin).1.apply_entries (d.entry (g.state.internNode d.origin).2)
  rw [State.internNode_entries] at hentries
  have hstate : (onDelta peer g d).state.entries =
      if g.outcome d = .noop then g.state.entries
      else g.state.entries.insert d.key (d.entry (g.state.internNode d.origin).2) := by
    rw [onDelta_state]
    exact hentries
  funext k
  rw [live_eq, hstate]
  by_cases hno : g.outcome d = .noop
  · rw [if_pos hno, if_pos hno, live_eq]
  rw [if_neg hno, if_neg hno, Map.lookup_insert_eq, update_apply]
  by_cases hk : k = d.key
  · rw [if_pos hk, if_pos hk]
    rfl
  · rw [if_neg hk, if_neg hk, live_eq]

theorem published_acknowledge (en : Crdt.Entry) : (acknowledge peer g en).published = g.published := by
  unfold acknowledge recordPeerTombstoneAck
  split
  · split <;> rfl
  · rfl

theorem published_onDelta :
    (onDelta peer g d).published =
      g.published ++ if g.outcome d = .applied ∨ g.outcome d = .deleteWins then [announcement d] else [] := by
  set en := d.entry (g.state.internNode d.origin).2 with hen
  set g₁ : CRDTEngine := acknowledge peer { g with state := (g.state.internNode d.origin).1 } en with hg₁
  have hstate : g₁.state = (g.state.internNode d.origin).1 :=
    congrArg Core.state (core_acknowledge { g with state := (g.state.internNode d.origin).1 } peer en)
  have hpub : g₁.published = g.published := published_acknowledge _ peer en
  have hout : g.outcome d = (g₁.state.apply en).2.1 := by
    rw [hstate]
    rfl
  show (g₁.mergeEntry en).published = _
  unfold mergeEntry
  rw [hout]
  by_cases h : (g₁.state.apply en).2.1 = .applied ∨ (g₁.state.apply en).2.1 = .deleteWins
  · have hmerged : (g₁.state.apply en).2.2 = en := by
      rcases g₁.state.apply_cases en with ⟨-, hno⟩ | ⟨-, hm, -⟩
      · rw [hno] at h
        simp at h
      · exact hm
    simp only [h, if_true, hmerged]
    unfold announcement
    split <;> simp_all [emit, push, Delta.entry]
  · simp only [h, if_false, append_nil]
    exact hpub

/-- A delta that wins a tie by wall clock or origin leaves what is visible at its key. -/
def Announced : Prop := g.outcome d = .wallTiebreak → visible d = g.live d.key

/-- The events published since `g₀` show the live pairs of `g`. -/
def Shown (g₀ g : CRDTEngine) : Prop :=
  ∃ evs, g.published = g₀.published ++ evs ∧ evs.foldl observe g₀.live = g.live

variable {g} {d} {g₀ : CRDTEngine}

section
variable (h : Shown g₀ g)
include h

theorem Shown.fold : (g.published.drop g₀.published.length).foldl observe g₀.live = g.live := by
  obtain ⟨evs, hevs, hfold⟩ := h
  rw [hevs, drop_left]
  exact hfold

theorem Shown.fold_onDelta : ((onDelta peer g d).published.drop g₀.published.length).foldl observe g₀.live =
      if g.outcome d = .applied ∨ g.outcome d = .deleteWins then Function.update g.live d.key (visible d)
        else g.live := by
  obtain ⟨evs, hevs, hfold⟩ := h
  rw [published_onDelta, hevs, append_assoc, drop_left, foldl_append, hfold]
  split
  · exact observe_announcement g.live d
  · rfl

theorem Shown.fold_onDelta_iff :
    ((onDelta peer g d).published.drop g₀.published.length).foldl observe g₀.live = (onDelta peer g d).live ↔
      g.Announced d := by
  rw [h.fold_onDelta, live_onDelta]
  unfold Announced
  cases hout : g.outcome d
  case wallTiebreak =>
    simp only [reduceCtorEq, or_self, if_false, forall_const]
    constructor
    · intro heq
      have := congrFun heq d.key
      rw [update_self] at this
      exact this.symm
    · intro heq
      rw [heq, update_eq_self]
  all_goals simp

theorem Shown.onDelta (ha : g.Announced d) : Shown g₀ (onDelta peer g d) := by
  have hfold := (h.fold_onDelta_iff peer).mpr ha
  obtain ⟨evs, hevs, -⟩ := h
  have hpub := published_onDelta g peer d
  rw [hevs, append_assoc] at hpub
  refine ⟨_, hpub, ?_⟩
  rw [hpub, drop_left] at hfold
  exact hfold

end

/-- The events of a frame, replayed over the live pairs before it, give the live pairs after it; and they do so at
    every delta of the frame. -/
def SeesEveryChange (g : CRDTEngine) (data : Bytes) : Prop :=
  ((g.onFrame data).published.drop g.published.length).foldl observe g.live = (g.onFrame data).live ∧
    ∀ pre, pre <+: inbound data →
      ((pre.foldl (CRDTEngine.onDelta (sender data)) g).published.drop g.published.length).foldl observe g.live =
        (pre.foldl (CRDTEngine.onDelta (sender data)) g).live

/-- A frame is seen in full exactly when every delta that wins a tie by wall clock or origin leaves what is visible
    at its key. -/
theorem sees_every_change_iff (g : CRDTEngine) (data : Bytes) :
    g.SeesEveryChange data ↔ Along (CRDTEngine.onDelta (sender data)) Announced g (inbound data) := by
  have hiff : Along (CRDTEngine.onDelta (sender data)) Announced g (inbound data) ↔ ∀ pre, pre <+: inbound data → _ :=
    along_iff_prefixes (P := Shown g)
      (Q := fun g' => (g'.published.drop g.published.length).foldl observe g.live = g'.live) (fun _ h => h.fold)
      (fun _ _ h ha => h.onDelta (sender data) ha) (fun _ _ h hq => (h.fold_onDelta_iff (sender data)).mp hq)
      ⟨[], (append_nil _).symm, rfl⟩ (inbound data)
  rw [hiff]
  constructor
  · exact And.right
  · intro h
    refine ⟨?_, h⟩
    rw [onFrame_eq]
    exact h (inbound data) prefix_rfl

/-- Node `a` wrote `1` to the key `k` at one millisecond; node `b` wrote `2` at five. -/
def contested : CRDTEngine × Bytes :=
  (((newCRDTEngine [97]).set [107] [1] 1).1,
    ((encodeDelta { key := [107], value := [2], counter := 1, wall := 5000000, node := 0 } [98]).toOption).getD [])

/-- The frame of `b` replaces the value at `a` without an event. -/
theorem contested_unseen : ¬ ∀ (g : CRDTEngine) (data : Bytes),
    ((g.onFrame data).published.drop g.published.length).foldl observe g.live = (g.onFrame data).live := by
  intro h
  have hkey := congrFun (h contested.1 contested.2) [107]
  cases hkey

end CRDTEngine
end Wippy.Kv
