import Wippy.Theorems.Kv.Core

/-! Fresh dots. A local write mints the next local counter, which `Apply` does not advance: an entry of the local origin
    that comes back with a higher counter leaves it behind. -/

namespace Wippy.Kv
open Lib Crdt State List

/-- Every minted dot has a counter above those of the local origin installed before it. -/
def MintedFresh (s : State) : Prop :=
  s.history.Pairwise fun w w' => ∀ m, w' = .minted m → w.entry.node = s.localNode → w.entry.counter < m.counter

/-- Any engine that holds, for the key of a minted `m`, an entry of the local origin which this replica installed
    before `m`, takes `m` in its place. -/
def MintedAccepted (s : State) : Prop :=
  s.history.Pairwise fun w w' => ∀ m, w' = .minted m → w.entry.node = s.localNode →
    ∀ (node : Bytes) (peer : CRDTEngine), Reach CRDTEngine.step (fun _ _ => True) (.newCRDTEngine node) peer →
      peer.state.view m.key = some (s.delta w.entry) →
      (peer.state.receive (s.delta m)).2.1 = .applied ∧
        (peer.state.receive (s.delta m)).1.view m.key = some (s.delta m)

/-- An entry of the local origin that is applied is not ahead of the local counter, and a dot is minted below the
    largest counter. -/
def Core.InStep (c : Core) : Action → Prop
  | .overwrite _ _ _ => c.state.localCounter ≠ 18446744073709551615
  | .unregister key wall => (c.state.unregister key wall).2 = none ∨ c.state.localCounter ≠ 18446744073709551615
  | .merge d => d.origin = c.state.nodeString c.state.localNode → (c.state.receive d).2.1 ≠ .noop →
      d.counter ≤ c.state.localCounter
  | .reap _ _ _ => True
  | .drain _ _ => True

instance (c : Core) : ∀ a, Decidable (c.InStep a)
  | .overwrite _ _ _ => inferInstanceAs (Decidable (_ ≠ _))
  | .unregister _ _ => inferInstanceAs (Decidable (_ = none ∨ _ ≠ _))
  | .merge _ => inferInstanceAs (Decidable (_ → _ → _))
  | .reap _ _ _ => inferInstanceAs (Decidable True)
  | .drain _ _ => inferInstanceAs (Decidable True)

/-- Every local write of the operation finds the counter in step. -/
def CRDTEngine.InStep (g : CRDTEngine) (op : CRDTEngine.Op) : Prop := Along Core.act Core.InStep g.core (g.actions op)

instance (g : CRDTEngine) (op : CRDTEngine.Op) : Decidable (g.InStep op) := inferInstanceAs (Decidable (Along ..))

/-- The local counter bounds the counters of the local origin, and minted dots are fresh. -/
structure Core.Bounded (c : Core) : Prop where
  interned : c.state.Interned
  own : ∀ m, .minted m ∈ c.state.history → m.node = c.state.localNode
  bound : ∀ w ∈ c.state.history, w.entry.node = c.state.localNode → w.entry.counter ≤ c.state.localCounter
  fresh : MintedFresh c.state

theorem Core.Bounded.of_minted {c c' : Core} {e : Entry} (h : c.Bounded) (hm : Minted c.state c'.state e)
    (hmax : c.state.localCounter ≠ 18446744073709551615) : c'.Bounded := by
  have hlt : ∀ x ≤ c.state.localCounter, x < c.state.localCounter + 1 := by grind
  refine ⟨hm.interned h.interned, ?_, ?_, ?_⟩
  · intro m hmem
    rw [hm.history, mem_append, mem_singleton] at hmem
    rw [hm.localNode]
    rcases hmem with hmem | hmem
    · exact h.own m hmem
    · cases hmem
      exact hm.node
  · intro w hw hn
    rw [hm.history, mem_append, mem_singleton] at hw
    rw [hm.localNode] at hn
    rw [hm.localCounter]
    rcases hw with hw | rfl
    · exact UInt64.le_of_lt (hlt _ (h.bound w hw hn))
    · exact UInt64.le_of_eq hm.counter
  · unfold MintedFresh
    rw [hm.history, pairwise_append]
    refine ⟨hm.localNode ▸ h.fresh, pairwise_singleton _ _, ?_⟩
    intro w hw w' hw' m hwm hn
    cases mem_singleton.mp hw'
    cases hwm
    rw [hm.counter]
    exact hlt _ (h.bound w hw (hm.localNode ▸ hn))

theorem origin_of_local {s t : State} {d : Delta} {e : Entry} (h : Installed s t d e)
    (hown : t.nodeString s.localNode = s.nodeString s.localNode) (hn : e.node = s.localNode) :
    d.origin = s.nodeString s.localNode := by
  rw [← hown, ← hn, ← h.delta]
  rfl

theorem Core.Bounded.merge {c : Core} (h : c.Bounded) {d : Delta} (hd : c.InStep (.merge d)) :
    (c.act (.merge d)).Bounded := by
  have hcount : (c.act (.merge d)).state.localCounter = c.state.localCounter := receive_localCounter c.state d
  have hnode : (c.act (.merge d)).state.localNode = c.state.localNode := receive_localNode c.state d
  rcases receive_cases h.interned d with ⟨-, -, hh⟩ | ⟨hno, hi⟩
  · have hhist : (c.act (.merge d)).state.history = c.state.history := hh
    refine ⟨h.interned.receive d, ?_, ?_, ?_⟩
    · rw [hhist, hnode]
      exact h.own
    · rw [hhist, hnode, hcount]
      exact h.bound
    · rw [MintedFresh, hhist, hnode]
      exact h.fresh
  · have hhist : (c.act (.merge d)).state.history = c.state.history ++ [.merged (c.state.receive d).2.2] := hi.history
    refine ⟨h.interned.receive d, ?_, ?_, ?_⟩
    · intro m hm
      rw [hhist, mem_append, mem_singleton] at hm
      rw [hnode]
      rcases hm with hm | hm
      · exact h.own m hm
      · cases hm
    · intro w hw hn
      rw [hhist, mem_append, mem_singleton] at hw
      rw [hnode] at hn
      rw [hcount]
      rcases hw with hw | rfl
      · exact h.bound w hw hn
      have hown : c.state.stringIDs[c.state.localNode]? = some (c.state.nodeString c.state.localNode) := by
        simp [nodeString, h.interned.own]
      have hlocal := origin_of_local hi (nodeString_of_getElem? (receive_kept c.state d hown)) hn
      show (c.state.receive d).2.2.counter ≤ _
      rw [hi.counter]
      exact hd hlocal hno
    · rw [MintedFresh, hhist, hnode, pairwise_append]
      refine ⟨h.fresh, pairwise_singleton _ _, ?_⟩
      intro w _ w' hw' m hwm
      cases mem_singleton.mp hw'
      cases hwm

theorem Core.Bounded.act {c : Core} (h : c.Bounded) {a : Action} (ha : c.InStep a) : (c.act a).Bounded := by
  cases a with
  | overwrite key value wall => exact h.of_minted (overwrite_minted _ _ _ _) ha
  | unregister key wall =>
    rcases unregister_cases c.state key wall with hu | ⟨t, e, hu, hm⟩
    · simpa [Core.act, hu] using h
    rw [Core.InStep, hu] at ha
    rcases ha with ha | ha
    · cases ha
    · simp only [Core.act, hu]
      exact h.of_minted hm ha
  | merge d => exact h.merge ha
  | reap canReap now floor => exact { h with interned := h.interned.reap canReap now floor }
  | drain overhead budget => exact { h with }

theorem Core.Bounded.new (node : Bytes) : (CRDTEngine.newCRDTEngine node).core.Bounded where
  interned := Interned.newState node
  own := fun m hm => by cases hm
  bound := fun w hw => by cases hw
  fresh := List.Pairwise.nil

/-- In every run whose operations stay in step with the local counter, minted dots are fresh, and a replica that
    holds an older entry of the origin for the key accepts them. -/
theorem minted_fresh {node : Bytes} {g : CRDTEngine}
    (h : Reach CRDTEngine.step CRDTEngine.InStep (CRDTEngine.newCRDTEngine node) g) :
    MintedFresh g.state ∧ MintedAccepted g.state := by
  have hb : g.core.Bounded := (reach_core h).invariant (Core.Bounded.new node) fun _ _ ha hc => hc.act ha
  refine ⟨hb.fresh, hb.fresh.imp_of_mem fun {w w'} _ hw' hlt m hm hn peerNode peer hp hview => ?_⟩
  have horigin : (g.state.delta w.entry).origin = (g.state.delta m).origin := by
    have hnode : w.entry.node = m.node := hn.trans (hb.own m (hm ▸ hw')).symm
    exact congrArg g.state.nodeString hnode
  exact receive_newer (interned_of_reach hp) hview horigin (hlt m hm hn)

/-- A node writes twice, gets its first write back under another key and writes that key. -/
theorem minted_fresh_echoed :
    let ops : List CRDTEngine.Op := [.set [107] [1] 1, .set [107] [2] 2,
      .onFrame ((encodeDelta
        { key := [106], value := [1], counter := 1, wall := 1, node := 0 } [110]).toOption.getD []),
      .set [106] [3] 3]
    let g := ops.foldl CRDTEngine.step (.newCRDTEngine [110])
    g.state.history.map (·.entry.counter) = [1, 2, 1, 3] ∧ MintedFresh g.state ∧ MintedAccepted g.state :=
  ⟨by decide, minted_fresh (.of_along (by decide))⟩

/-- A snapshot with a dot of this node's earlier run. -/
def leftSnapshot : Bytes :=
  (encodeDelta { key := [107], value := [1], counter := 5, wall := 7, node := 0 } [110]).toOption.getD []

/-- The engine that has loaded it and written. -/
def restarted : CRDTEngine :=
  [.setDurability [47], .loadDurable (some leftSnapshot), .set [107] [2] 1].foldl CRDTEngine.step (.newCRDTEngine [110])

/-- A peer that holds the dot of the earlier run. -/
def holdsOlder : CRDTEngine := CRDTEngine.step (.newCRDTEngine [112]) (.onFrame leftSnapshot)

theorem restarted_history : restarted.state.history =
    [.merged { key := [107], value := [1], counter := 5, wall := 7, node := 0 },
      .minted { key := [107], value := [2], counter := 1, wall := restarted.wall 1, node := 0 }] := by decide

/-- The write after the restart mints counter 1, below the counter 5 just replayed, and the peer refuses it. -/
theorem not_minted_fresh_restarted :
    (¬∀ (node : Bytes) (g : CRDTEngine), Reach CRDTEngine.step (fun _ _ => True) (.newCRDTEngine node) g →
      MintedFresh g.state) ∧
    (¬∀ (node : Bytes) (g : CRDTEngine), Reach CRDTEngine.step (fun _ _ => True) (.newCRDTEngine node) g →
      MintedAccepted g.state) := by
  have hrun : Reach CRDTEngine.step (fun _ _ => True) (.newCRDTEngine [110]) restarted :=
    .of_along (along_of_forall (fun _ _ => trivial) _ _)
  have hpeer : Reach CRDTEngine.step (fun _ _ => True) (.newCRDTEngine [112]) holdsOlder := .step _ .start trivial
  constructor
  · intro h
    have hfresh := h _ _ hrun
    rw [MintedFresh, restarted_history, pairwise_pair] at hfresh
    exact absurd (hfresh _ rfl (by decide)) (by decide)
  · intro h
    have hacc := h _ _ hrun
    rw [MintedAccepted, restarted_history, pairwise_pair] at hacc
    exact absurd (hacc _ rfl (by decide) _ _ hpeer (by decide)).1 (by decide)

end Wippy.Kv
