import Wippy.Kv.Cluster
import Wippy.Theorems.Kv.Core
import Wippy.Theorems.Crdt.Codec

/-! What a cluster relays. `Drain` encodes every entry under the name of its own node, so a frame carries minted entries
    only as long as nothing received waits in the queue. -/

namespace Wippy.Kv
open Lib Lib.Wire Crdt State List Option Map

variable {records : List (Entry × Bytes)} {overhead budget : Int} {e : Entry} {q : BroadcastQueue} {g g' : CRDTEngine}
  {s : State}

/-- Every delta on its way was written by its origin. -/
def Cluster.RelaysMinted (c : Cluster) : Prop := ∀ frame ∈ c.frames, ∀ d ∈ (decodeFrame frame).1, d ∈ c.minted

/-- A queue is drained only when the entries waiting in it are of the node's own origin. -/
def Cluster.DrainsOwn (c : Cluster) : Cluster.Event → Prop
  | .drain node _ _ => ∀ e ∈ (c.nodes node).queue.pending, (c.nodes node).state.nodeString e.node = node
  | _ => True

instance (c : Cluster) : Decidable c.RelaysMinted := inferInstanceAs (Decidable (∀ frame ∈ c.frames, _))

instance (c : Cluster) : ∀ ev, Decidable (c.DrainsOwn ev)
  | .drain node _ _ => inferInstanceAs (Decidable (∀ e ∈ (c.nodes node).queue.pending, _))
  | .call _ _ | .deliver _ _ | .handOut _ | .accept _ _ | .snapshot _ | .load _ | .restart _ =>
    inferInstanceAs (Decidable True)

/-- What a node holds and queues satisfies `K`, and what it wrote is well formed. -/
structure Core.Faithful (K : Delta → Prop) (node : Bytes) (c : Core) : Prop where
  interned : c.state.Interned
  name : c.state.stringIDs[c.state.localNode]? = some node
  origin : c.queue.originNodeStr = node
  held : ∀ key e, c.state.entries.lookup key = some e → K (c.state.delta e)
  queued : ∀ e ∈ c.queue.pending, e.node < c.state.stringIDs.length ∧ K (c.state.delta e)
  bare : ∀ e, .minted e ∈ c.state.history → e.deleted = true → e.value = []

theorem mem_push {e x : Entry} (h : x ∈ (q.push e).pending) : x ∈ q.pending ∨ x = e := by
  unfold BroadcastQueue.push at h
  split at h
  · exact Or.inl h
  · exact (mem_append.mp h).imp id mem_singleton.mp

theorem push_originNodeStr (q : BroadcastQueue) (e : Entry) : (q.push e).originNodeStr = q.originNodeStr := by
  unfold BroadcastQueue.push
  split <;> rfl

section Core
variable {K K' : Delta → Prop} {node : Bytes} {c : Core} {d : Delta}

theorem Core.Faithful.imp (h : c.Faithful K node) (hK : ∀ d, K d → K' d) : c.Faithful K' node :=
  { h with
    held := fun key e he => hK _ (h.held key e he)
    queued := fun e he => ⟨(h.queued e he).1, hK _ (h.queued e he).2⟩ }

theorem Core.Faithful.of_minted {c' : Core} (h : c.Faithful K node) (hm : Minted c.state c'.state e)
    (hq : c'.queue = c.queue.push e) (hK : K (e.withOrigin node)) : c'.Faithful K node := by
  have hdelta : ∀ x, c'.state.delta x = c.state.delta x := fun x => by simp [delta, nodeString, hm.stringIDs]
  have hnode : c.state.delta e = e.withOrigin node := by rw [delta, hm.node, nodeString_of_getElem? h.name]
  refine ⟨hm.interned h.interned, ?_, ?_, ?_, ?_, ?_⟩
  · rw [hm.stringIDs, hm.localNode]
    exact h.name
  · rw [hq, push_originNodeStr]
    exact h.origin
  · intro key x hx
    rw [hm.entries] at hx
    rw [hdelta]
    rcases lookup_insert_some hx with ⟨-, rfl⟩ | ⟨-, hx⟩
    · exact hnode ▸ hK
    · exact h.held key x hx
  · intro x hx
    rw [hdelta, hm.stringIDs]
    rcases mem_push (hq ▸ hx) with hx | rfl
    · exact h.queued x hx
    · exact ⟨hm.node ▸ h.interned.own, hnode ▸ hK⟩
  · intro x hx
    rw [hm.history, mem_append, mem_singleton] at hx
    rcases hx with hx | hx
    · exact h.bare x hx
    · cases hx
      exact hm.bare

theorem Core.Faithful.merge (h : c.Faithful K node) (hK : K d) : (c.act (.merge d)).Faithful K node := by
  have hgrow : c.state.stringIDs.length ≤ (c.state.receive d).1.stringIDs.length := by
    rw [receive_eq, (apply_table _ _).1]
    rcases internNode_cases c.state d.origin with ⟨-, hs⟩ | ⟨-, -, hs⟩ <;> simp [hs]
  have hold : ∀ e ∈ c.queue.pending, e.node < (c.state.receive d).1.stringIDs.length ∧
      K ((c.state.receive d).1.delta e) := fun e he =>
    ⟨Nat.lt_of_lt_of_le (h.queued e he).1 hgrow, delta_receive c.state d (h.queued e he).1 ▸ (h.queued e he).2⟩
  have hheld : ∀ key e, c.state.entries.lookup key = some e → K ((c.state.receive d).1.delta e) := fun key e he =>
    delta_receive c.state d (h.interned.held key e he) ▸ h.held key e he
  have hname : (c.state.receive d).1.stringIDs[(c.state.receive d).1.localNode]? = some node :=
    receive_localNode c.state d ▸ receive_kept c.state d h.name
  have horigin : (c.act (.merge d)).queue.originNodeStr = node := by
    simp only [Core.act]
    split
    · rw [push_originNodeStr, h.origin]
    · exact h.origin
  rcases receive_cases h.interned d with ⟨hno, hent, hhist⟩ | ⟨-, hi⟩
  · refine ⟨h.interned.receive d, hname, horigin, fun key e he => ?_, ?_, fun e he => ?_⟩
    · exact hheld key e (hent ▸ he)
    · simpa [Core.act, hno] using hold
    · exact h.bare e (hhist ▸ he)
  · refine ⟨h.interned.receive d, hname, horigin, fun key e he => ?_, fun e he => ?_, fun e he => ?_⟩
    · have he' : (c.state.entries.insert _ _).lookup key = some e := hi.entries ▸ he
      rcases lookup_insert_some he' with ⟨-, rfl⟩ | ⟨-, he'⟩
      · exact hi.delta.symm ▸ hK
      · exact hheld key e he'
    · have he' : e ∈ c.queue.pending ∨ e = (c.state.receive d).2.2 := by
        simp only [Core.act] at he
        split at he
        · exact mem_push he
        · exact Or.inl he
      rcases he' with he' | rfl
      · exact hold e he'
      · exact ⟨hi.node, hi.delta.symm ▸ hK⟩
    · have he' : .minted e ∈ c.state.history ++ [.merged (c.state.receive d).2.2] := hi.history ▸ he
      rw [mem_append, mem_singleton] at he'
      rcases he' with he' | he'
      · exact h.bare e he'
      · cases he'

theorem mem_pending_of_drain (h : e ∈ (q.drain overhead budget).1.pending) : e ∈ q.pending :=
  Gossip.drain_kept h

/-- An action keeps a core faithful when the delta it merges and the entry it mints satisfy `K`. -/
theorem Core.Faithful.act (h : c.Faithful K node) (a : Action) (hmerge : ∀ d, a = .merge d → K d)
    (hminted : ∀ e, .minted e ∈ (c.act a).state.history → K (e.withOrigin node)) : (c.act a).Faithful K node := by
  cases a with
  | overwrite key value wall =>
    have hm := overwrite_minted c.state key value wall
    exact h.of_minted hm rfl (hminted _ (by rw [Core.act, hm.history]; simp))
  | unregister key wall =>
    rcases unregister_cases c.state key wall with hu | ⟨t, e, hu, hm⟩
    · simpa only [Core.act, hu] using h
    · simp only [Core.act, hu] at hminted ⊢
      exact h.of_minted hm rfl (hminted e (by rw [hm.history]; simp))
  | merge d => exact h.merge (hmerge d rfl)
  | reap canReap now floor =>
    refine { h with interned := h.interned.reap canReap now floor, held := fun key e he => ?_ }
    simp only [Core.act, reapTombstonesWhere, lookup_keep, filter_eq_some_iff] at he
    exact h.held key e he.1
  | drain overhead budget => exact { h with queued := fun e he => h.queued e (mem_pending_of_drain he) }

theorem Core.history_act (c : Core) (a : Action) : c.state.history <+: (c.act a).state.history := by
  cases a with
  | overwrite key value wall => exact prefix_append _ _
  | unregister key wall =>
    rcases unregister_cases c.state key wall with hu | ⟨t, e, hu, hm⟩
    · simp [Core.act, hu]
    · simp [Core.act, hu, hm.history]
  | merge d =>
    simp only [Core.act, receive_eq]
    rcases apply_cases (c.state.internNode d.origin).1 (d.entry (c.state.internNode d.origin).2) with
      ⟨h, -⟩ | ⟨-, -, live, tombstone, h⟩
    · simp [h]
    · simp [h, merged, bumpCV]
  | reap canReap now floor => exact prefix_rfl
  | drain overhead budget => exact prefix_rfl

theorem Core.history_acts (c : Core) (as : List Action) : c.state.history <+: (as.foldl Core.act c).state.history := by
  induction as generalizing c with
  | nil => exact prefix_rfl
  | cons a as ih => exact (c.history_act a).trans (ih (c.act a))

theorem Core.Faithful.acts (h : c.Faithful K node) (as : List Action) (hmerge : ∀ d, .merge d ∈ as → K d)
    (hminted : ∀ e, .minted e ∈ (as.foldl Core.act c).state.history → K (e.withOrigin node)) :
    (as.foldl Core.act c).Faithful K node := by
  induction as generalizing c with
  | nil => exact h
  | cons a as ih =>
    refine ih (h.act a (fun d hd => hmerge d (by simp [hd])) fun e he => hminted e ?_)
      (fun d hd => hmerge d (by simp [hd]))
      hminted
    exact ((c.act a).history_acts as).subset he

end Core

/-! ### What a node sends -/

section
variable (h : ∀ r ∈ records, encodeDelta r.1 (s.nodeString r.1.node) = .ok r.2)
include h

theorem decodeFrame_records (hbare : ∀ r ∈ records, r.1.deleted = true → r.1.value = []) :
    decodeFrame (records.map Prod.snd).flatten = (records.map fun r => s.delta r.1, none) := by
  refine decodeFrame_flatten (forall₂_map_left_iff.mpr (forall₂_map_right_iff.mpr ?_))
  refine forall₂_same.mpr fun r hr => ?_
  have hread := reads_encodeDelta (h r hr)
  rwa [Delta.read_eq (hbare r hr)] at hread

theorem openFullState_records : CRDTEngine.openFullState (records.map Prod.snd).flatten = none := by
  unfold CRDTEngine.openFullState
  rw [if_pos]
  cases records with
  | nil => decide
  | cons r records =>
    obtain ⟨-, -, -, hr⟩ := encodeDelta_eq_ok (h r (by simp))
    intro hmagic
    have hhead := congrArg List.head? hmagic
    rw [map_cons, hr] at hhead
    cases hdel : r.1.deleted <;> simp [hdel, opPut, opTombstone, CRDTEngine.fullStateMagic] at hhead

end

theorem encodeEntries_records (s : State) (es : List Entry) :
    ∃ records : List (Entry × Bytes), CRDTEngine.encodeEntries s es = (records.map Prod.snd).flatten ∧
      ∀ r ∈ records, r.1 ∈ es ∧ encodeDelta r.1 (s.nodeString r.1.node) = .ok r.2 := by
  refine ⟨es.filterMap fun e => (encodeDelta e (s.nodeString e.node)).toOption.map (e, ·), ?_, fun r hr => ?_⟩
  · unfold CRDTEngine.encodeEntries
    induction es with
    | nil => rfl
    | cons e es ih =>
      rw [flatMap_cons, ih]
      cases he : encodeDelta e (s.nodeString e.node) with
      | error err => simp [he, Except.toOption]
      | ok bs => simp [he, Except.toOption]
  · obtain ⟨e, he, hr⟩ := mem_filterMap.mp hr
    obtain ⟨bs, hbs, rfl⟩ := map_eq_some_iff.mp hr
    exact ⟨he, Lib.eq_ok_of_toOption hbs⟩

section Sent
variable {K : Delta → Prop} {node : Bytes} {g : CRDTEngine}

section
variable (h : g.core.Faithful K node) (hbare : ∀ d, K d → d.deleted = true → d.value = [])
include h hbare

theorem inbound_drained (hown : ∀ e ∈ g.queue.pending, g.state.nodeString e.node = node) {frame : Bytes}
    (hframe : frame ∈ (g.drainBroadcasts overhead budget).2) :
    CRDTEngine.inbound frame = (decodeFrame frame).1 ∧ ∀ d ∈ (decodeFrame frame).1, K d := by
  obtain ⟨records, hrec, hflat⟩ := Gossip.drain_framed hframe
  rw [nil_append] at hflat
  have henc : ∀ r ∈ records, encodeDelta r.1 (g.state.nodeString r.1.node) = .ok r.2 := by
    intro r hr
    rw [hown r.1 (hrec r hr).1, ← h.origin]
    exact Lib.eq_ok_of_toOption (hrec r hr).2
  have hK : ∀ r ∈ records, K (g.state.delta r.1) := fun r hr => (h.queued r.1 (hrec r hr).1).2
  constructor
  · rw [CRDTEngine.inbound, hflat, openFullState_records henc]
  · rw [hflat, decodeFrame_records henc fun r hr => hbare _ (hK r hr)]
    intro d hd
    obtain ⟨r, hr, rfl⟩ := List.mem_map.mp hd
    exact hK r hr

theorem decode_encodeEntries (es : List Entry) (hes : ∀ e ∈ es, e ∈ g.state.allEntries) :
    CRDTEngine.openFullState (CRDTEngine.encodeEntries g.state es) = none ∧
      ∀ d ∈ (decodeFrame (CRDTEngine.encodeEntries g.state es)).1, K d := by
  obtain ⟨records, hflat, hrec⟩ := encodeEntries_records g.state es
  have hK : ∀ r ∈ records, K (g.state.delta r.1) := fun r hr => by
    obtain ⟨key, hkey⟩ := mem_values.mp (hes r.1 (hrec r hr).1)
    exact h.held key r.1 hkey
  rw [hflat]
  refine ⟨openFullState_records fun r hr => (hrec r hr).2, ?_⟩
  rw [decodeFrame_records (fun r hr => (hrec r hr).2) fun r hr => hbare _ (hK r hr)]
  intro d hd
  obtain ⟨r, hr, rfl⟩ := List.mem_map.mp hd
  exact hK r hr

end

theorem openFullState_envelope (hlen : ¬g.localNode.length > 0xFFFF) (deltas : Bytes) :
    CRDTEngine.openFullState (g.encodeFullState deltas) =
      some (if g.localNode = [] then ([], []) else (g.localNode, deltas)) := by
  have hle : ofLE (le 2 g.localNode.length) = g.localNode.length := by
    rw [ofLE_le]
    exact Nat.mod_eq_of_lt (by omega)
  have htake : (le 2 g.localNode.length ++ (g.localNode ++ deltas)).take 2 = le 2 g.localNode.length := by
    rw [take_append_of_le_length (by simp), take_of_length_le (by simp)]
  have hdrop : (le 2 g.localNode.length ++ (g.localNode ++ deltas)).drop 2 = g.localNode ++ deltas := by
    rw [drop_append_of_le_length (by simp), drop_of_length_le (by simp), nil_append]
  have hmagic : ∀ rest, (CRDTEngine.fullStateMagic ++ rest).take CRDTEngine.fullStateMagic.length =
      CRDTEngine.fullStateMagic := fun rest => take_left
  have hbody : ∀ rest, (CRDTEngine.fullStateMagic ++ rest).drop CRDTEngine.fullStateMagic.length = rest :=
    fun rest => drop_left
  unfold CRDTEngine.openFullState CRDTEngine.encodeFullState
  simp only [if_neg hlen, append_assoc, hmagic, hbody, htake, hdrop, hle]
  by_cases hn : g.localNode = []
  · simp [hn]
  have hshort : ¬(le 2 g.localNode.length ++ (g.localNode ++ deltas)).length < 2 := by
    rw [length_append, length_le]
    omega
  have hnode : ¬(g.localNode.length = 0 ∨ (g.localNode ++ deltas).length < g.localNode.length) := by simp [hn]
  rw [if_neg (fun h => h rfl), if_neg hshort, if_neg hnode, if_neg hn, take_left, drop_left]

section
variable (h : g.core.Faithful K node) (hbare : ∀ d, K d → d.deleted = true → d.value = [])
include h hbare

theorem inbound_fullState : ∀ d ∈ CRDTEngine.inbound g.fullState, K d := by
  obtain ⟨hopen, hK⟩ := decode_encodeEntries h hbare g.state.allEntries fun e he => he
  unfold CRDTEngine.inbound CRDTEngine.fullState
  by_cases hlen : g.localNode.length > 0xFFFF
  · rw [CRDTEngine.encodeFullState, if_pos hlen, hopen]
    exact hK
  rw [openFullState_envelope hlen]
  split
  next heq =>
    cases heq
  rename_i heq
  split at heq
  · cases heq
    intro d hd
    cases hd
  · cases heq
    exact hK

theorem inbound_snapshot {file : Bytes}
    (hfile : g.snapshotDurable = some file) : ∀ d ∈ CRDTEngine.inbound file, K d := by
  unfold CRDTEngine.snapshotDurable at hfile
  split at hfile
  · cases hfile
  cases hfile
  obtain ⟨hopen, hK⟩ := decode_encodeEntries h hbare (g.state.allEntries.filter fun en => g.isDurableKey en.key)
    fun e he => (mem_filter.mp he).1
  rw [CRDTEngine.inbound, hopen]
  exact hK

end
end Sent

namespace Cluster
variable {c : Cluster} {node : Bytes} {op : CRDTEngine.Op} {d : Delta}

/-- The invariant: every engine holds and sends what was written. -/
structure Faithful (c : Cluster) : Prop where
  nodes : ∀ node, (c.nodes node).core.Faithful (· ∈ c.minted) node
  logged : ∀ node e, .minted e ∈ (c.nodes node).state.history → e.withOrigin node ∈ c.minted
  bare : ∀ d ∈ c.minted, d.deleted = true → d.value = []
  frames : ∀ frame ∈ c.frames, CRDTEngine.inbound frame = (decodeFrame frame).1 ∧
    ∀ d ∈ (decodeFrame frame).1, d ∈ c.minted
  payloads : ∀ data ∈ c.payloads, ∀ d ∈ CRDTEngine.inbound data, d ∈ c.minted
  disks : ∀ node file, c.disks node = some file → ∀ d ∈ CRDTEngine.inbound file, d ∈ c.minted

theorem Faithful.start : Faithful start where
  nodes := fun node =>
    { interned := Interned.newState node
      name := rfl
      origin := rfl
      held := fun _ _ he => (nomatch he)
      queued := fun _ he => (nomatch he)
      bare := fun _ he => (nomatch he) }
  logged := fun _ _ he => (nomatch he)
  bare := fun _ hd => (nomatch hd)
  frames := fun _ hf => (nomatch hf)
  payloads := fun _ hp => (nomatch hp)
  disks := fun _ _ hf => (nomatch hf)

theorem not_merge_mem_actions (h : isCall op = true) : .merge d ∉ g.actions op := by
  intro hd
  cases op with
  | drainBroadcasts | onFrame | loadDurable => cases h
  | setIfAbsent | compareAndSwap | compareAndDelete | setWithLease | setIfAbsentWithLease =>
    simp only [CRDTEngine.actions] at hd
    split at hd <;> simp at hd
  | _ => simp [CRDTEngine.actions] at hd

theorem run_nodes (c : Cluster) (node n : Bytes) (op : CRDTEngine.Op) :
    (c.run node op).nodes n = if n = node then (c.nodes node).step op else c.nodes n := by
  by_cases hn : n = node
  · subst hn
    simp [Cluster.run]
  · simp [Cluster.run, hn]

theorem history_step (g : CRDTEngine) (op : CRDTEngine.Op) : g.state.history <+: (g.step op).state.history := by
  have h := g.core.history_acts (g.actions op)
  rw [← CRDTEngine.step_core] at h
  exact h

theorem mem_mintedBy (h : d ∈ mintedBy node g g') : ∃ e, .minted e ∈ g'.state.history ∧ d = e.withOrigin node := by
  obtain ⟨w, hw, hd⟩ := mem_filterMap.mp h
  cases w with
  | minted e => exact ⟨e, mem_of_mem_drop hw, (Option.some.inj hd).symm⟩
  | merged e => cases hd

theorem mintedBy_or (node : Bytes) (hp : g.state.history <+: g'.state.history) (he : .minted e ∈ g'.state.history) :
    .minted e ∈ g.state.history ∨ e.withOrigin node ∈ mintedBy node g g' := by
  obtain ⟨new, hnew⟩ := hp
  rw [← hnew, mem_append] at he
  refine he.imp id fun he => ?_
  unfold mintedBy
  rw [← hnew, drop_left]
  exact mem_filterMap.mpr ⟨_, he, rfl⟩

theorem Faithful.run (h : c.Faithful) (hin : ∀ d, .merge d ∈ (c.nodes node).actions op → d ∈ c.minted) :
    (c.run node op).Faithful := by
  have hmono : ∀ d ∈ c.minted, d ∈ (c.run node op).minted := fun d hd => mem_append_left _ hd
  have hlogged : ∀ e, .minted e ∈ ((c.nodes node).step op).state.history →
    e.withOrigin node ∈ (c.run node op).minted := by
    intro e he
    rcases mintedBy_or node (history_step (c.nodes node) op) he with hold | hnew
    · exact hmono _ (h.logged node e hold)
    · exact mem_append_right _ hnew
  have hcore : ((c.nodes node).step op).core.Faithful (· ∈ (c.run node op).minted) node := by
    have hfinal : ∀ e, .minted e ∈ (((c.nodes node).actions op).foldl Core.act (c.nodes node).core).state.history →
        e.withOrigin node ∈ (c.run node op).minted := by
      rw [← CRDTEngine.step_core]
      exact hlogged
    rw [CRDTEngine.step_core]
    exact ((h.nodes node).imp hmono).acts _ (fun d hd => hmono d (hin d hd)) hfinal
  refine
    { nodes := fun n => ?_
      logged := fun n e he => ?_
      bare := fun d hd => ?_
      frames := fun f hf => ⟨(h.frames f hf).1, fun d hd => hmono d ((h.frames f hf).2 d hd)⟩
      payloads := fun p hp d hd => hmono d (h.payloads p hp d hd)
      disks := fun n f hf d hd => hmono d (h.disks n f hf d hd) }
  · rw [run_nodes]
    split
    next hn =>
      exact hn ▸ hcore
    · exact (h.nodes n).imp hmono
  · rw [run_nodes] at he
    split at he
    next hn =>
      exact hn ▸ hlogged e he
    · exact hmono _ (h.logged n e he)
  · rcases mem_append.mp hd with hd | hd
    · exact h.bare d hd
    · obtain ⟨e, he, rfl⟩ := mem_mintedBy hd
      exact hcore.bare e he

theorem Faithful.step (h : c.Faithful) {ev : Event} (hev : c.DrainsOwn ev) : (c.step ev).Faithful := by
  cases ev with
  | call node op =>
    simp only [Cluster.step]
    split
    next hcall =>
      exact h.run fun d hd => absurd hd (not_merge_mem_actions hcall)
    · exact h
  | drain node overhead budget =>
    have hrun : (c.run node (.drainBroadcasts overhead budget)).Faithful :=
      h.run fun d hd => by simp [CRDTEngine.actions] at hd
    refine { hrun with frames := fun f hf => ?_ }
    rcases mem_append.mp hf with hf | hf
    · exact hrun.frames f hf
    · obtain ⟨hopen, hdec⟩ := inbound_drained (h.nodes node) h.bare hev hf
      exact ⟨hopen, fun d hd => mem_append_left _ (hdec d hd)⟩
  | deliver node frame =>
    simp only [Cluster.step]
    split
    · exact h
    rename_i data hdata
    refine h.run fun d hd => ?_
    obtain ⟨hopen, hdec⟩ := h.frames data (mem_of_getElem? hdata)
    simp only [CRDTEngine.actions, List.mem_map, Action.merge.injEq, exists_eq_right] at hd
    exact hdec d (hopen ▸ hd)
  | handOut node =>
    refine { h with payloads := fun p hp => ?_ }
    rcases mem_append.mp hp with hp | hp
    · exact h.payloads p hp
    · rw [mem_singleton.mp hp]
      exact inbound_fullState (h.nodes node) h.bare
  | accept node payload =>
    simp only [Cluster.step]
    split
    · exact h
    rename_i data hdata
    refine h.run fun d hd => ?_
    simp only [CRDTEngine.actions, List.mem_map, Action.merge.injEq, exists_eq_right] at hd
    exact h.payloads data (mem_of_getElem? hdata) d hd
  | snapshot node =>
    simp only [Cluster.step]
    split
    · exact h
    rename_i file hfile
    refine { h with disks := fun n f hf => ?_ }
    have hf' : (if n = node then some file else c.disks n) = some f := by
      rw [← hf]
      exact (Function.update_apply ..).symm
    split at hf'
    · cases hf'
      exact inbound_snapshot (h.nodes node) h.bare hfile
    · exact h.disks n f hf'
  | load node =>
    refine h.run fun d hd => ?_
    simp only [CRDTEngine.actions] at hd
    split at hd
    · cases hd
    cases hfile : c.disks node with
    | none => simp [hfile] at hd
    | some file =>
      simp only [hfile, map_some, getD_some, List.mem_map, Action.merge.injEq, exists_eq_right] at hd
      exact h.disks node file hfile d hd
  | restart node =>
    have hnodes : ∀ n, (c.step (.restart node)).nodes n = if n = node then .newCRDTEngine node else c.nodes n :=
      fun n => Function.update_apply ..
    refine { h with nodes := fun n => ?_, logged := fun n e he => ?_ }
    · rw [hnodes]
      split
      next hn =>
        exact hn ▸ (Faithful.start.nodes n).imp fun _ hd => absurd hd not_mem_nil
      · exact h.nodes n
    · rw [hnodes] at he
      split at he
      · cases he
      · exact h.logged n e he

end Cluster

/-- In every run in which a queue is drained only while it holds entries of its own node, every entry read out of
    a drained frame is the one that its origin minted. -/
theorem relays_minted {c : Cluster} (h : Reach Cluster.step Cluster.DrainsOwn .start c) : c.RelaysMinted := by
  have hf : c.Faithful := h.invariant Cluster.Faithful.start fun _ _ hev hc => hc.step hev
  exact fun frame hframe d hd => (hf.frames frame hframe).2 d hd

/-- Node `a` writes and drains, `b` receives the frame and passes its full state to `d`, and `a` drains again. -/
theorem relays_minted_direct :
    let events : List Cluster.Event := [.call [97] (.set [107] [1] 1), .drain [97] 0 0, .deliver [98] 0, .handOut [98],
      .accept [100] 0, .call [97] (.delete [107] 2), .drain [97] 0 0]
    let c := events.foldl Cluster.step .start
    c.frames.map (fun frame => (decodeFrame frame).1.map (·.counter)) = [[1], [2]] ∧ c.RelaysMinted :=
  ⟨by decide, relays_minted (.of_along (by decide))⟩

/-- Node `a` writes and drains, `b` receives the frame and drains in turn. -/
def relayed : Cluster :=
  [.call [97] (.set [107] [1] 1), .drain [97] 0 0, .deliver [98] 0, .drain [98] 0 0].foldl Cluster.step .start

/-- The frame of `b` carries the entry of `a` as an entry of origin `b`, which `b` never wrote. -/
theorem not_relays_minted_relayed : ¬∀ c : Cluster, Reach Cluster.step (fun _ _ => True) .start c → c.RelaysMinted := by
  intro h
  have hrun : Reach Cluster.step (fun _ _ => True) .start relayed :=
    .of_along (along_of_forall (fun _ _ => trivial) _ _)
  exact absurd (h relayed hrun) (by decide)

end Wippy.Kv
