import Wippy.Eventual.Delegate

/-! A cluster of name registries with a fixed set of alive members and no wall floor. Frames and push/pull payloads may
    reach any member at any later time, any number of times or never. The dots of a frame are merged one at a time, and
    `ReleasePID` withdraws one name at a time. -/

namespace Wippy.Eventual
open State

/-- `frames` were drained and `payloads` handed out anywhere. History variables: `minted`, the dots that members wrote,
    and `reaped`, the tombstones they dropped as their counters were safe. -/
structure Cluster where
  members : List Bytes
  nodes : Bytes → Service
  frames : List Bytes := []
  payloads : List Bytes := []
  minted : List Delta := []
  reaped : List (Bytes × Bytes × UInt64) := []

namespace Cluster

def start (members : List Bytes) (broadcastCap : Int) : Cluster :=
  { members, nodes := fun node => .newService node broadcastCap }

inductive Action
  | register (name : Bytes) (p : PID) (priority : UInt32) (nowMs : Int64)
  | unregister (name : Bytes) (nowMs : Int64)
  | release (name : Bytes) (p : PID) (nowMs : Int64)
  | drain (headerOverhead byteBudget : Int)
  | receive (frame delta : Nat) (nowMs : Int64)
  | handOut (digest : Digest)
  | accept (payload : Nat) (localDigest : Digest)
  | collect (nowMs : Int64)

structure Event where
  node : Bytes
  action : Action

def mintedBy (s s' : State) (name : Bytes) : List Delta :=
  match s'.dot name s'.localNode with
  | some e => if s.dot name s.localNode = some e then [] else [s'.delta e]
  | none => []

variable (c : Cluster)

def write (node name : Bytes) (s : Service) : Cluster :=
  { c with nodes := Function.update c.nodes node s, minted := c.minted ++ mintedBy (c.nodes node).state s.state name }

def delta? (frame delta : Nat) : Option Delta :=
  (c.frames[frame]?).bind fun data => (decodeFrame data.tail).1[delta]?

def safeTombs (s : Service) : List Entry :=
  s.state.allDots.filter (safeTomb (s.tracker.safeCounters (s.aliveSet c.members) s.state.cv.length))

def act (node : Bytes) : Action → Cluster
  | .register name p priority nowMs => c.write node name ((c.nodes node).register name p priority nowMs).1
  | .unregister name nowMs => c.write node name ((c.nodes node).unregister name nowMs).1
  | .release name p nowMs => c.write node name ((c.nodes node).releaseOwned name p nowMs)
  | .drain headerOverhead byteBudget =>
    let (s, frames) := (c.nodes node).drainBroadcasts headerOverhead byteBudget
    { c with nodes := Function.update c.nodes node s, frames := c.frames ++ frames }
  | .receive frame delta nowMs =>
    match c.delta? frame delta with
    | none => c
    | some d => c.write node d.name ((c.nodes node).applyIncoming d nowMs)
  | .handOut digest => { c with payloads := c.payloads ++ [(c.nodes node).localState digest] }
  | .accept payload localDigest =>
    match c.payloads[payload]? with
    | none => c
    | some buf => { c with nodes := Function.update c.nodes node ((c.nodes node).mergeRemoteState localDigest buf).1 }
  | .collect nowMs =>
    { c with
      nodes := Function.update c.nodes node ((c.nodes node).runOnce c.members nowMs 0)
      reaped := c.reaped ++ (c.safeTombs (c.nodes node)).map fun e =>
        (e.name, (c.nodes node).state.nodeString e.node, e.counter) }

def step (ev : Event) : Cluster := if c.members.contains ev.node then c.act ev.node ev.action else c

end Cluster
end Wippy.Eventual
