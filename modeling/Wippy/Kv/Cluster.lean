import Wippy.Kv.CrdtEngine

/-! A cluster of key-value engines. Every node name has an engine. Frames and full-state payloads, once handed
    out, may reach any node at any later time, any number of times or never; snapshot files outlive a restart. -/

namespace Wippy.Kv
open Crdt

/-- `frames` were drained and `payloads` handed out anywhere. `minted` is a history variable: every entry that a node
    wrote, with the node as its origin. -/
structure Cluster where
  nodes : Bytes → CRDTEngine
  frames : List Bytes := []
  payloads : List Bytes := []
  disks : Bytes → Option Bytes := fun _ => none
  minted : List Delta := []

namespace Cluster

inductive Event
  | call (node : Bytes) (op : CRDTEngine.Op)
  | drain (node : Bytes) (overhead budget : Int)
  | deliver (node : Bytes) (frame : Nat)
  | handOut (node : Bytes)
  | accept (node : Bytes) (payload : Nat)
  | snapshot (node : Bytes)
  | load (node : Bytes)
  | restart (node : Bytes)

def start : Cluster := { nodes := CRDTEngine.newCRDTEngine }

def isCall : CRDTEngine.Op → Bool
  | .drainBroadcasts _ _ | .onFrame _ | .loadDurable _ => false
  | _ => true

def mintedBy (node : Bytes) (g g' : CRDTEngine) : List Delta :=
  (g'.state.history.drop g.state.history.length).filterMap fun
    | .minted e => some (e.withOrigin node)
    | .merged _ => none

def run (c : Cluster) (node : Bytes) (op : CRDTEngine.Op) : Cluster :=
  { c with
    nodes := Function.update c.nodes node ((c.nodes node).step op)
    minted := c.minted ++ mintedBy node (c.nodes node) ((c.nodes node).step op) }

def step (c : Cluster) : Event → Cluster
  | .call node op => if isCall op then c.run node op else c
  | .drain node overhead budget =>
    { c.run node (.drainBroadcasts overhead budget) with
      frames := c.frames ++ ((c.nodes node).drainBroadcasts overhead budget).2 }
  | .deliver node frame =>
    match c.frames[frame]? with
    | none => c
    | some data => c.run node (.onFrame data)
  | .handOut node => { c with payloads := c.payloads ++ [(c.nodes node).fullState] }
  | .accept node payload =>
    match c.payloads[payload]? with
    | none => c
    | some data => c.run node (.onFrame data)
  | .snapshot node =>
    match (c.nodes node).snapshotDurable with
    | none => c
    | some file => { c with disks := Function.update c.disks node (some file) }
  | .load node => c.run node (.loadDurable (c.disks node))
  | .restart node => { c with nodes := Function.update c.nodes node (.newCRDTEngine node) }

end Cluster
end Wippy.Kv
