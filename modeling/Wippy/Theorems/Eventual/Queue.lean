import Wippy.Theorems.Eventual.Integrity
import Wippy.Theorems.Eventual.Codec

/-! Queued entries keep their origin, unless a pass frees the id of a waiting entry: the queue holds no references. -/

namespace Wippy.Eventual
open Lib State List

namespace Windows
variable {w w' : Windows} {ev : Event} {e : Entry}

/-- What keeps queued entries with their origin: origins have a name, and a pass reclaims no id of a dot or entry under
    way or in the queue. -/
def Retaining (w : Windows) : Event → Prop
  | .intern d => d.origin ≠ []
  | .reclaim alive => (∀ x ∈ w.incoming, w.state.reclaimable alive x.2 = false) ∧
      (∀ e ∈ w.outgoing, w.state.reclaimable alive e.node = false) ∧
      ∀ e ∈ w.queue.pending, w.state.reclaimable alive e.node = false
  | _ => True

instance (w : Windows) : ∀ ev, Decidable (w.Retaining ev)
  | .intern d => inferInstanceAs (Decidable (d.origin ≠ []))
  | .reclaim alive => inferInstanceAs (Decidable ((∀ x ∈ w.incoming, w.state.reclaimable alive x.2 = false) ∧ _ ∧ _))
  | .learn _ | .merge _ | .register .. | .unregister .. | .reapNode _ | .reapTombstones .. | .push _ | .drain .. =>
    .isTrue trivial

theorem Retaining.steady (h : w.Retaining ev) : w.Steady ev := by
  cases ev with
  | intern d => exact h
  | reclaim alive => exact h.1
  | _ => trivial

/-! ### The tags of the queue -/

theorem merge_queue (w : Windows) (d : Delta) (id : Nat) :
    (w.merge d id).queue = w.queue ∧ (w.merge d id).tags = w.tags := by
  unfold Windows.merge
  split <;> exact ⟨rfl, rfl⟩

theorem register_queue (w : Windows) (name : Bytes) (p : PID) (wallMs : Int64) (priority : UInt32) :
    (w.register name p wallMs priority).queue = w.queue ∧ (w.register name p wallMs priority).tags = w.tags := by
  unfold Windows.register
  dsimp only
  split <;> exact ⟨rfl, rfl⟩

theorem unregister_queue (w : Windows) (name : Bytes) (wallMs : Int64) :
    (w.unregister name wallMs).queue = w.queue ∧ (w.unregister name wallMs).tags = w.tags := by
  unfold Windows.unregister
  split <;> exact ⟨rfl, rfl⟩

/-- The history variable `tags` lists what waits. -/
def Synced (w : Windows) : Prop := w.tags.map Prod.fst = w.queue.pending

theorem Synced.push (h : w.Synced) (e : Entry) : (w.push e).Synced := by
  unfold Synced Windows.push BroadcastQueue.push
  split
  · exact h
  · rw [map_append, h]
    rfl

theorem Synced.drain (h : w.Synced) (overhead budget : Int) : (w.drain overhead budget).Synced := by
  unfold Synced Windows.drain BroadcastQueue.drain
  rw [← h, Gossip.drain_map]
  rfl

theorem Synced.of_queue (h : w.Synced) (hq : w'.queue = w.queue ∧ w'.tags = w.tags) : w'.Synced := by
  unfold Synced
  rw [hq.1, hq.2]
  exact h

theorem Synced.step (h : w.Synced) (ev : Event) : (w.step ev).Synced := by
  cases ev with
  | merge i =>
    simp only [Windows.step]
    split
    · exact h
    next d id _ =>
      exact h.of_queue (merge_queue ({ w with incoming := w.incoming.eraseIdx i }) d id)
  | register name p wallMs priority => exact h.of_queue (register_queue w name p wallMs priority)
  | unregister name wallMs => exact h.of_queue (unregister_queue w name wallMs)
  | push i =>
    simp only [Windows.step]
    split
    · exact h
    next e _ =>
      exact Synced.push (w := { w with outgoing := w.outgoing.eraseIdx i }) h e
  | drain overhead budget => exact h.drain overhead budget
  | learn | intern | reapNode | reapTombstones | reclaim => exact h

/-- Entries under way and in the queue have the id of a string with a name, and the tag of a queued entry is it. -/
structure Named (w : Windows) : Prop where
  outgoing : ∀ e ∈ w.outgoing, ∃ origin, origin ≠ [] ∧ w.state.nodeIDs.lookup origin = some e.node
  tags : ∀ x ∈ w.tags, x.2 ≠ [] ∧ w.state.nodeIDs.lookup x.2 = some x.1.node

theorem Sound.lookup_step (h : w.Sound) {origin : Bytes} {id : Nat} (hid : w.state.nodeIDs.lookup origin = some id)
    (hev : ∀ alive, ev = .reclaim alive → w.state.reclaimable alive id = false) :
    (w.step ev).state.nodeIDs.lookup origin = some id := by
  rcases step_table w ev with htable | ⟨node, -, heq⟩ | ⟨alive, hreclaim, heq⟩
  · rw [htable.nodeIDs]
    exact hid
  · rw [heq]
    exact h.traced.table.lookup_internNode node hid
  · rw [heq]
    exact h.traced.table.lookup_reclaim hid (hev alive hreclaim)

theorem Stores.outgoing (h : w.Stores w') (he : e ∈ w'.outgoing) :
    e ∈ w.outgoing ∨ ∃ origin, origin ≠ [] ∧ w.state.nodeIDs.lookup origin = some e.node := by
  rcases h with rfl | ⟨t, x, origin, rfl, hne, hid, -⟩
  · exact Or.inl he
  rcases mem_append.mp he with he | he
  · exact Or.inl he
  · rw [mem_singleton.mp he]
    exact Or.inr ⟨origin, hne, hid⟩

theorem Sound.outgoing_step (h : w.Sound) (he : e ∈ (w.step ev).outgoing) :
    e ∈ w.outgoing ∨ (∀ alive, ev ≠ .reclaim alive) ∧ ∃ origin, origin ≠ [] ∧
      w.state.nodeIDs.lookup origin = some e.node := by
  cases ev with
  | merge i =>
    simp only [Windows.step] at he
    split at he
    · exact Or.inl he
    rename_i d id hget
    have hin := h.incoming (d, id) (mem_of_getElem? hget)
    have hrest : ({ w with incoming := w.incoming.eraseIdx i }).Sound :=
      { h with incoming := fun x hx => h.incoming x (mem_of_mem_eraseIdx hx) }
    exact ((hrest.merge hin.1 hin.2).outgoing he).imp_right fun hnew => ⟨fun _ => Event.noConfusion, hnew⟩
  | register name p wallMs priority =>
    exact ((h.register name p wallMs priority).outgoing he).imp_right fun hnew => ⟨fun _ => Event.noConfusion, hnew⟩
  | unregister name wallMs =>
    exact ((h.unregister name wallMs).outgoing he).imp_right fun hnew => ⟨fun _ => Event.noConfusion, hnew⟩
  | reapNode departed =>
    rcases mem_append.mp he with he | he
    · exact Or.inl he
    obtain ⟨x, hx, rfl⟩ := List.mem_map.mp he
    obtain ⟨name, id, hdot⟩ := mem_allDots (mem_filter.mp hx).1
    obtain ⟨origin, hne, hid, -⟩ := h.traced.source name id x hdot
    exact Or.inr ⟨fun _ => Event.noConfusion, origin, hne, (h.traced.keyed name id x hdot).2 ▸ hid⟩
  | push i =>
    simp only [Windows.step] at he
    split at he
    · exact Or.inl he
    · exact Or.inl (mem_of_mem_eraseIdx he)
  | learn | intern | reapTombstones | reclaim | drain => exact Or.inl he

theorem tags_step {x : Entry × Bytes} (hx : x ∈ (w.step ev).tags) :
    x ∈ w.tags ∨ (∀ alive, ev ≠ .reclaim alive) ∧ x.1 ∈ w.outgoing ∧ x.2 = w.state.nodeString x.1.node := by
  cases ev with
  | push i =>
    simp only [Windows.step] at hx
    split at hx
    · exact Or.inl hx
    rename_i e hget
    simp only [Windows.push] at hx
    split at hx
    · exact Or.inl hx
    rcases mem_append.mp hx with hx | hx
    · exact Or.inl hx
    · rw [mem_singleton.mp hx]
      exact Or.inr ⟨fun _ => Event.noConfusion, mem_of_getElem? hget, rfl⟩
  | drain overhead budget => exact Or.inl (Gossip.drain_kept hx)
  | merge i =>
    simp only [Windows.step] at hx
    split at hx
    · exact Or.inl hx
    · rw [(merge_queue _ _ _).2] at hx
      exact Or.inl hx
  | register name p wallMs priority => exact Or.inl ((register_queue w name p wallMs priority).2 ▸ hx)
  | unregister name wallMs => exact Or.inl ((unregister_queue w name wallMs).2 ▸ hx)
  | learn | intern | reapNode | reapTombstones | reclaim => exact Or.inl hx

theorem Named.step (hs : w.Sound) (h : w.Named) (hev : w.Retaining ev) (hsync : w.Synced) : (w.step ev).Named where
  outgoing := fun e he => by
    rcases hs.outgoing_step he with hold | ⟨hnot, origin, hne, hid⟩
    · obtain ⟨origin, hne, hid⟩ := h.outgoing e hold
      exact ⟨origin, hne, hs.lookup_step hid fun alive heq => by subst heq; exact hev.2.1 e hold⟩
    · exact ⟨origin, hne, hs.lookup_step hid fun alive heq => absurd heq (hnot alive)⟩
  tags := fun x hx => by
    rcases tags_step hx with hold | ⟨hnot, hout, htag⟩
    · obtain ⟨hne, hid⟩ := h.tags x hold
      refine ⟨hne, hs.lookup_step hid fun alive heq => ?_⟩
      subst heq
      exact hev.2.2 x.1 (hsync ▸ List.mem_map_of_mem hold)
    · obtain ⟨origin, hne, hid⟩ := h.outgoing x.1 hout
      have hstring := hs.traced.table.nodeString hid
      rw [htag, hstring]
      exact ⟨hne, hs.lookup_step hid fun alive heq => absurd heq (hnot alive)⟩

/-- `Drain` emits what it would if each waiting entry carried the string that its id denoted when it was pushed, and a
    reader of a frame gets entries with these strings. -/
structure OriginsKept (w : Windows) : Prop where
  frames : ∀ overhead budget, (w.queue.drain w.state.nodeString overhead budget).2 =
    (Gossip.drain [frameTypeDelta] (fun x => (encodeDelta x.1 x.2).toOption) w.tags overhead budget).1
  decoded : ∀ overhead budget, ∀ frame ∈ (w.queue.drain w.state.nodeString overhead budget).2,
    ∃ body, frame = frameTypeDelta :: body ∧
      ∀ d ∈ (decodeFrame body).1, ∃ x ∈ w.tags, d = (x.1.withOrigin x.2).read

theorem Named.originsKept (h : w.Named) (hs : w.Sound) (hsync : w.Synced) : w.OriginsKept := by
  have horigin : ∀ x ∈ w.tags, w.queue.originFor w.state.nodeString x.1 = x.2 := fun x hx => by
    obtain ⟨hne, hid⟩ := h.tags x hx
    unfold BroadcastQueue.originFor
    rw [hs.traced.table.nodeString hid, if_pos hne]
  have hframes : ∀ overhead budget, (w.queue.drain w.state.nodeString overhead budget).2 =
      (Gossip.drain [frameTypeDelta] (fun x => (encodeDelta x.1 x.2).toOption) w.tags overhead budget).1 := by
    intro overhead budget
    unfold BroadcastQueue.drain
    rw [← hsync, Gossip.drain_map]
    have hcongr : Gossip.drain [frameTypeDelta]
          (fun x => (encodeDelta x.1 (w.queue.originFor w.state.nodeString x.1)).toOption) w.tags overhead budget =
        Gossip.drain [frameTypeDelta] (fun x => (encodeDelta x.1 x.2).toOption) w.tags overhead budget :=
      Gossip.drain_congr fun x hx => by rw [horigin x hx]
    exact congrArg Prod.fst hcongr
  refine ⟨hframes, fun overhead budget frame hframe => ?_⟩
  rw [hframes] at hframe
  exact decodeFrame_framed _ (Gossip.drain_framed hframe)

/-- In every interleaving in which a pass reclaims no id of a dot or entry under way or in the queue, and in which
    origins have a name. -/
theorem originsKept_of_reach {node : Bytes} {broadcastCap : Int} (hne : node ≠ [])
    (h : Reach step Retaining (start node broadcastCap) w) : w.OriginsKept := by
  have hinv : w.Sound ∧ w.Synced ∧ w.Named := by
    refine h.invariant (P := fun w => w.Sound ∧ w.Synced ∧ w.Named) ⟨.start hne _, rfl, ?_⟩ fun w ev hev hw => ?_
    · exact ⟨fun _ he => absurd he not_mem_nil, fun _ hx => absurd hx not_mem_nil⟩
    · exact ⟨hw.1.step hev.steady, hw.2.1.step ev, hw.2.2.step hw.1 hev hw.2.1⟩
  exact hinv.2.2.originsKept hinv.1 hinv.2.1

/-- The departed node's tombstone is broadcast before its id is reclaimed; a local entry waits. -/
theorem originsKept_of_reach_drained :
    let es : List Event := [.intern remote, .merge 0, .reapNode [98], .push 1, .drain 0 0, .reapTombstones [0, 1] 0 0,
      .register [107] { uniqID := [2] } 1 0, .push 1]
    ([110] : Bytes) ≠ [] ∧ Along step Retaining (start [110] 0) es ∧ (es.foldl step (start [110] 0)).OriginsKept :=
  ⟨by decide, by decide, originsKept_of_reach (by decide) (Reach.of_along (by decide))⟩

/-- The id of a waiting entry is reclaimed. -/
def reclaimedWaiting : List Event :=
  [.intern remote, .merge 0, .reapNode [98], .push 1, .reapTombstones [0, 1] 0 0, .reclaim []]

theorem not_originsKept_reclaimed : ¬∀ (node : Bytes) (broadcastCap : Int) (w : Windows), node ≠ [] →
    Reach step (fun _ _ => True) (start node broadcastCap) w → w.OriginsKept := by
  intro h
  have hall : Along step (fun _ _ => True) (start [110] 0) reclaimedWaiting := along_of_forall (fun _ _ => trivial) _ _
  exact absurd ((h [110] 0 _ (by decide) (Reach.of_along hall)).frames 0 0) (by decide)

end Windows
end Wippy.Eventual
