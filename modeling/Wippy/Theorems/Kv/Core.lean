import Wippy.Kv.CrdtEngine
import Wippy.Theorems.Crdt.Replica
import Wippy.Lib.Reach

/-! The replicated core of an engine: its replica and its broadcast queue, on which every operation of the engine acts
    by five primitive actions (`step_core`). -/

namespace Wippy.Kv
open Lib Crdt State List Option

/-- The part of an engine that gossip reads and writes. -/
structure Core where
  state : State
  queue : BroadcastQueue

/-- What an operation does to it. -/
inductive Action
  | overwrite (key value : Bytes) (wall : Int64)
  | unregister (key : Bytes) (wall : Int64)
  | merge (d : Delta)
  | reap (canReap : Option (Entry → Bool)) (now floor : Int64)
  | drain (overhead budget : Int)

/-- One action. -/
def Core.act (c : Core) : Action → Core
  | .overwrite key value wall =>
    ⟨(c.state.overwrite key value wall).1, c.queue.push (c.state.overwrite key value wall).2⟩
  | .unregister key wall =>
    match c.state.unregister key wall with
    | (_, none) => c
    | (s, some e) => ⟨s, c.queue.push e⟩
  | .merge d =>
    let r := c.state.receive d
    ⟨r.1, if r.2.1 = .applied ∨ r.2.1 = .deleteWins then c.queue.push r.2.2 else c.queue⟩
  | .reap canReap now floor => ⟨(c.state.reapTombstonesWhere canReap now floor).1, c.queue⟩
  | .drain overhead budget => ⟨c.state, (c.queue.drain overhead budget).1⟩

namespace CRDTEngine

/-- The core of an engine. -/
def core (g : CRDTEngine) : Core := ⟨g.state, g.queue⟩

/-- The deltas in a frame or a full state. -/
def inbound (data : Bytes) : List Delta :=
  match openFullState data with
  | none => (decodeFrame data).1
  | some (_, deltas) => (decodeFrame deltas).1

/-- The actions of an operation. -/
def actions (g : CRDTEngine) : Op → List Action
  | .set key value nowMs => [.overwrite key value (g.wall nowMs)]
  | .delete key nowMs => [.unregister key (g.wall nowMs)]
  | .setIfAbsent key value nowMs =>
    if (g.state.lookupEntry key).isSome then [] else [.overwrite key value (g.wall nowMs)]
  | .compareAndSwap key expect value nowMs =>
    if ((g.state.lookupEntry key).map (·.counter)).getD 0 ≠ expect then [] else [.overwrite key value (g.wall nowMs)]
  | .compareAndDelete key expect nowMs =>
    if (g.state.lookupEntry key).any (·.counter = expect) then [.unregister key (g.wall nowMs)] else []
  | .setWithLease key value lease nowMs =>
    if (g.leaseKeys.lookup lease).isSome then [.overwrite key value (g.wall nowMs)] else []
  | .setIfAbsentWithLease key value lease nowMs =>
    if (g.leaseKeys.lookup lease).isSome ∧ (g.state.lookupEntry key).isNone then [.overwrite key value (g.wall nowMs)]
    else []
  | .expireLease id nowMs =>
    ((g.leaseKeys.lookup id).getD ([] : List Bytes)).map fun key => .unregister key (g.wall nowMs)
  | .gcTombstones alive nowMs =>
    [.reap (g.tombstoneAckedByPeers alive) (nowMs * wallScale) (g.tombstoneFloor * wallScale)]
  | .drainBroadcasts overhead budget => [.drain overhead budget]
  | .onFrame data => (inbound data).map .merge
  | .loadDurable file => if g.dataDir = [] then [] else ((file.map inbound).getD []).map .merge
  | _ => []

variable (g : CRDTEngine)

@[simp] theorem core_emit (type : WatchEventType) (cur : KvEntry) : (g.emit type cur).core = g.core := rfl

@[simp] theorem core_push (e : Entry) : (g.push e).core = ⟨g.state, g.queue.push e⟩ := rfl

@[simp] theorem core_detachKey (key : Bytes) : (g.detachKey key).core = g.core := by
  unfold detachKey
  split <;> rfl

@[simp] theorem core_recordPeerTombstoneAck (peer : Bytes) (ent : Entry) :
    (g.recordPeerTombstoneAck peer ent).core = g.core := by
  unfold recordPeerTombstoneAck
  split <;> rfl

@[simp] theorem core_pruneTombstoneAcks (reaped : List Entry) : (g.pruneTombstoneAcks reaped).core = g.core := by
  unfold pruneTombstoneAcks
  split <;> rfl

theorem core_expireKey (nowMs : Int64) (key : Bytes) :
    (g.expireKey nowMs key).core = g.core.act (.unregister key (g.wall nowMs)) := by
  rcases h : g.state.unregister key (g.wall nowMs) with ⟨s, _ | e⟩
  · simp [expireKey, Core.act, core, h]
  · simp only [expireKey, Core.act, core, h]
    rfl

@[simp] theorem wall_expireKey (nowMs : Int64) (key : Bytes) : (g.expireKey nowMs key).wall nowMs = g.wall nowMs := by
  unfold expireKey
  split <;> rfl

theorem core_expireKeys (nowMs : Int64) (keys : List Bytes) :
    (keys.foldl (expireKey nowMs) g).core =
      (keys.map fun key => Action.unregister key (g.wall nowMs)).foldl Core.act g.core := by
  induction keys generalizing g with
  | nil => rfl
  | cons key keys ih =>
    rw [foldl_cons, ih, map_cons, foldl_cons, core_expireKey, wall_expireKey]

theorem core_delete (key : Bytes) (nowMs : Int64) :
    (g.delete key nowMs).1.core = g.core.act (.unregister key (g.wall nowMs)) := by
  rcases h : g.state.unregister key (g.wall nowMs) with ⟨s, _ | e⟩
  · simp [CRDTEngine.delete, Core.act, core, h]
  · simp only [CRDTEngine.delete, Core.act, h, core_emit, core_detachKey, core_push]
    simp [core, h]

theorem core_compareAndDelete (key : Bytes) (expect : Version) (nowMs : Int64) :
    (g.compareAndDelete key expect nowMs).1.core =
      (g.actions (.compareAndDelete key expect nowMs)).foldl Core.act g.core := by
  simp only [compareAndDelete, actions]
  cases hcur : g.state.lookupEntry key with
  | none => rfl
  | some cur =>
    by_cases hv : cur.counter = expect
    · rcases h : g.state.unregister key (g.wall nowMs) with ⟨s, _ | e⟩
      · simp [hv, Core.act, core, h]
      · simp only [hv, ne_eq, not_true, if_false, any_some, decide_true, if_true, foldl_cons, foldl_nil,
          core_emit, core_detachKey, core_push, Core.act]
        simp [core, h]
    · simp [hv]

@[simp] theorem core_acknowledge (peer : Bytes) (en : Entry) : (acknowledge peer g en).core = g.core := by
  unfold acknowledge
  split
  · exact core_recordPeerTombstoneAck g peer en
  · rfl

theorem core_mergeEntry (en : Entry) : (g.mergeEntry en).core = ⟨(g.state.apply en).1,
    if (g.state.apply en).2.1 = .applied ∨ (g.state.apply en).2.1 = .deleteWins then
      g.queue.push (g.state.apply en).2.2 else g.queue⟩ := by
  unfold mergeEntry
  by_cases h : (g.state.apply en).2.1 = .applied ∨ (g.state.apply en).2.1 = .deleteWins
  · simp only [h, if_true]
    split <;> rfl
  · simp only [h, if_false]
    rfl

theorem core_onDelta (peer : Bytes) (d : Delta) : (onDelta peer g d).core = g.core.act (.merge d) := by
  let en := d.entry (g.state.internNode d.origin).2
  let g₁ : CRDTEngine := { g with state := (g.state.internNode d.origin).1 }
  have hcore : (acknowledge peer g₁ en).core = g₁.core := core_acknowledge g₁ peer en
  have hstate : (acknowledge peer g₁ en).state = (g.state.internNode d.origin).1 := congrArg Core.state hcore
  have hqueue : (acknowledge peer g₁ en).queue = g.queue := congrArg Core.queue hcore
  show ((acknowledge peer g₁ en).mergeEntry en).core = _
  rw [core_mergeEntry, hstate, hqueue]
  rfl

theorem core_onDeltas (peer : Bytes) (ds : List Delta) :
    (ds.foldl (onDelta peer) g).core = (ds.map Action.merge).foldl Core.act g.core := by
  induction ds generalizing g with
  | nil => rfl
  | cons d ds ih => rw [foldl_cons, ih, map_cons, foldl_cons, core_onDelta]

theorem core_onFrame (data : Bytes) :
    (g.onFrame data).core = ((inbound data).map Action.merge).foldl Core.act g.core := by
  unfold onFrame mergeFullState inbound
  cases h : openFullState data with
  | none => exact core_onDeltas g [] _
  | some x =>
    obtain ⟨peer, deltas⟩ := x
    by_cases hd : deltas = []
    · subst hd
      rfl
    · simp only [hd, if_false]
      exact core_onDeltas g peer _

theorem step_core (op : Op) : (g.step op).core = (g.actions op).foldl Core.act g.core := by
  cases op with
  | set key value nowMs => rfl
  | delete key nowMs => exact core_delete g key nowMs
  | setIfAbsent key value nowMs =>
    simp only [step, setIfAbsent, actions]
    cases g.state.lookupEntry key with
    | none => rfl
    | some cur => rfl
  | compareAndSwap key expect value nowMs =>
    simp only [step, compareAndSwap, actions]
    split <;> rfl
  | compareAndDelete key expect nowMs => exact core_compareAndDelete g key expect nowMs
  | grantLease deadline => rfl
  | keepAlive id deadline =>
    simp only [step, keepAlive, actions]
    split <;> rfl
  | setWithLease key value lease nowMs =>
    simp only [step, setWithLease, actions]
    cases g.leaseKeys.lookup lease with
    | none => rfl
    | some keys => rfl
  | setIfAbsentWithLease key value lease nowMs =>
    simp only [step, setIfAbsentWithLease, actions]
    cases g.leaseKeys.lookup lease with
    | none => rfl
    | some keys =>
      cases g.state.lookupEntry key with
      | none => rfl
      | some cur => rfl
  | expireLease id nowMs => exact core_expireKeys _ nowMs _
  | gcTombstones alive nowMs => exact core_pruneTombstoneAcks _ _
  | drainBroadcasts overhead budget => rfl
  | onFrame data => exact core_onFrame g data
  | loadDurable file =>
    simp only [step, loadDurable, actions]
    split
    · rfl
    · cases file with
      | none => rfl
      | some data => exact core_onFrame g data
  | setDurability dataDir => rfl
  | setTombstoneRetention retentionMs => rfl
  | markDurable ns => rfl

end CRDTEngine

theorem reach_core {ok : Core → Action → Prop} {node : Bytes} {g : CRDTEngine}
    (h : Reach CRDTEngine.step (fun g op => Along Core.act ok g.core (g.actions op)) (.newCRDTEngine node) g) :
    Reach Core.act ok (CRDTEngine.newCRDTEngine node).core g.core := by
  induction h with
  | start => exact .start
  | step op _ hop ih =>
    rw [CRDTEngine.step_core]
    exact ih.along hop

theorem Core.interned_act {c : Core} (h : c.state.Interned) (a : Action) : (c.act a).state.Interned := by
  cases a with
  | overwrite key value wall => exact (overwrite_minted _ _ _ _).interned h
  | unregister key wall =>
    rcases unregister_cases c.state key wall with hu | ⟨t, e, hu, hm⟩
    · simpa only [Core.act, hu] using h
    · simpa only [Core.act, hu] using hm.interned h
  | merge d => exact h.receive d
  | reap canReap now floor => exact h.reap canReap now floor
  | drain overhead budget => exact h

theorem interned_of_reach {node : Bytes} {g : CRDTEngine}
    (h : Reach CRDTEngine.step (fun _ _ => True) (.newCRDTEngine node) g) : g.state.Interned := by
  refine h.invariant (P := fun g => g.core.state.Interned) (Interned.newState node) fun g op _ hg => ?_
  rw [CRDTEngine.step_core]
  exact List.foldlRecOn (motive := fun c : Core => c.state.Interned) _ _ hg fun _ hc a _ => Core.interned_act hc a

end Wippy.Kv
