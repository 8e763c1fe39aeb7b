import Wippy.Eventual.Service

/-! The service between its critical sections, each a step of its own: an incoming dot is interned under one lock and
    merged under another; a dot to broadcast leaves the lock of its shard before it enters the queue. -/

namespace Wippy.Eventual
open Lib State

/-- A registry, dots that are interned and not merged, and entries stored and not queued. History variables: `source`,
    the origin with which each stored dot came; `tags`, the queued entries with what their ids denoted then. -/
structure Windows where
  node : Bytes
  state : State
  queue : BroadcastQueue
  incoming : List (Delta × Nat) := []
  outgoing : List Entry := []
  source : Map (Bytes × Nat) Bytes := ∅
  tags : List (Entry × Bytes) := []

namespace Windows

def start (node : Bytes) (broadcastCap : Int) : Windows :=
  { node
    state := newState node
    queue := .newBroadcastQueue node broadcastCap }

inductive Event
  | learn (node : Bytes)
  | intern (d : Delta)
  | merge (i : Nat)
  | register (name : Bytes) (p : PID) (wallMs : Int64) (priority : UInt32)
  | unregister (name : Bytes) (wallMs : Int64)
  | reapNode (departed : Bytes)
  | reapTombstones (safeByNode : List UInt64) (nowMs wallFloorMs : Int64)
  | reclaim (alive : List Bytes)
  | push (i : Nat)
  | drain (headerOverhead byteBudget : Int)

def store (w : Windows) (state : State) (e : Entry) (origin : Bytes) : Windows :=
  { w with state, outgoing := w.outgoing ++ [e], source := w.source.insert (e.name, e.node) origin }

/-- `Apply` of a dot that was interned earlier. The dot it stores is the received one, or a local one that
    supersedes it. -/
def merge (w : Windows) (d : Delta) (id : Nat) : Windows :=
  match w.state.apply (d.entry id) with
  | (state, _, none, _) => { w with state }
  | (state, outcome, some e, _) => w.store state e (if outcome = .superseded then w.node else d.origin)

def register (w : Windows) (name : Bytes) (p : PID) (wallMs : Int64) (priority : UInt32) : Windows :=
  let (state, res) := w.state.register name p wallMs priority
  if res.won ∨ res.lost.isSome then w.store state res.entry w.node else { w with state }

def unregister (w : Windows) (name : Bytes) (wallMs : Int64) : Windows :=
  match w.state.unregister name wallMs with
  | (state, none) => { w with state }
  | (state, some e) => w.store state e w.node

def push (w : Windows) (e : Entry) : Windows :=
  { w with
    queue := w.queue.push e
    tags := if w.queue.pending.length ≥ w.queue.cap then w.tags else w.tags ++ [(e, w.state.nodeString e.node)] }

/-- `Drain`, on the queue and in the same way on the queue with its tags. -/
def drain (w : Windows) (headerOverhead byteBudget : Int) : Windows :=
  { w with
    queue := (w.queue.drain w.state.nodeString headerOverhead byteBudget).1
    tags := (Gossip.drain [frameTypeDelta]
      (fun x => (encodeDelta x.1
        (w.queue.originFor w.state.nodeString x.1)).toOption) w.tags headerOverhead byteBudget).2 }

def step (w : Windows) : Event → Windows
  | .learn node => { w with state := (w.state.internNode node).1 }
  | .intern d =>
    let (state, id) := w.state.internNode d.origin
    { w with state, incoming := w.incoming ++ [(d, id)] }
  | .merge i =>
    match w.incoming[i]? with
    | none => w
    | some (d, id) => ({ w with incoming := w.incoming.eraseIdx i } : Windows).merge d id
  | .register name p wallMs priority => w.register name p wallMs priority
  | .unregister name wallMs => w.unregister name wallMs
  | .reapNode departed =>
    let (state, tombstones) := w.state.reapNode departed
    { w with state, outgoing := w.outgoing ++ tombstones }
  | .reapTombstones safeByNode nowMs wallFloorMs =>
    { w with state := (w.state.reapTombstones safeByNode nowMs wallFloorMs).1 }
  | .reclaim alive => { w with state := (w.state.reclaimUnreferencedNodes alive).1 }
  | .push i =>
    match w.outgoing[i]? with
    | none => w
    | some e => ({ w with outgoing := w.outgoing.eraseIdx i } : Windows).push e
  | .drain headerOverhead byteBudget => w.drain headerOverhead byteBudget

end Windows
end Wippy.Eventual
