import Wippy.Eventual.Delta
import Wippy.Eventual.Gc
import Mathlib.Data.List.Sort

/-! The name registry service over an eventual replica, `system/topology/namereg/eventual/service.go`, and the push/pull
    merge of `delegate.go`.

    Each operation is one step. Clock readings, the alive nodes and, where it shows, the order of a Go map are
    arguments. -/

namespace Wippy.Eventual
open Lib Lib.Wire State

structure OwnedReg where
  pid : PID
  priority : UInt32
  deriving DecidableEq, Repr

inductive ServiceError
  | nameAlreadyRegistered
  | serviceStopped
  deriving DecidableEq, Repr

structure Service where
  localNodeID : Bytes
  state : State
  queue : BroadcastQueue
  tracker : TombstoneTracker := {}
  owned : Map Bytes OwnedReg := ∅
  ownedByPID : Map Bytes (Map Bytes Unit) := ∅
  stopped : Bool := false

namespace Service

def newService (localNodeID : Bytes) (broadcastCap : Int) : Service :=
  { localNodeID
    state := newState localNodeID
    queue := .newBroadcastQueue localNodeID broadcastCap }

def push (s : Service) (e : Entry) : Service := { s with queue := s.queue.push e }

variable (s : Service) (name : Bytes)

def forgetOwned : Service :=
  match s.owned.lookup name with
  | none => s
  | some reg =>
    let key := reg.pid.string
    let names : Map Bytes Unit := ((s.ownedByPID.lookup key).getD ∅).erase name
    { s with
      owned := s.owned.erase name
      ownedByPID := if names.entries = [] then s.ownedByPID.erase key else s.ownedByPID.insert key names }

def indexOwned (p : PID) : Service :=
  if (s.owned.lookup name).any fun old => old.pid = p then s
  else
    let s := s.forgetOwned name
    let names : Map Bytes Unit := (s.ownedByPID.lookup p.string).getD ∅
    { s with ownedByPID := s.ownedByPID.insert p.string (names.insert name ()) }

def own (p : PID) (priority : UInt32) : Service :=
  let s := s.indexOwned name p
  { s with owned := s.owned.insert name ⟨p, priority⟩ }

def register (s : Service) (name : Bytes) (p : PID) (priority : UInt32) (nowMs : Int64) :
    Service × PID × Option ServiceError :=
  if s.stopped then (s, {}, some .serviceStopped)
  else
    let (state, res) := s.state.register name p nowMs priority
    let s := { s with state }
    if res.won then ((s.own name p priority).push res.entry, p, none)
    else
      -- A dot that lost to another origin is broadcast; after a local refusal there is none.
      let s := if res.lost.isSome then s.push res.entry else s
      (s, (res.winner.map (·.pid)).getD {}, some .nameAlreadyRegistered)

def withdraw (nowMs : Int64) : Service × Bool :=
  match s.state.unregister name nowMs with
  | (state, none) => ({ s with state }, false)
  | (state, some e) => (({ s with state } : Service).push e, true)

def unregister (nowMs : Int64) : Service × Bool :=
  if s.stopped then (s, false)
  else
    let (s, held) := s.withdraw name nowMs
    (s.forgetOwned name, held)

def releaseOwned (p : PID) (nowMs : Int64) : Service :=
  match s.owned.lookup name with
  | some reg => if reg.pid = p then ((s.forgetOwned name).withdraw name nowMs).1 else s
  | none => s

/-- The names that the index has for a pid, in the order in which the map yields them. -/
def ownedNames (p : PID) (order : Bytes → Nat) : List Bytes :=
  (((s.ownedByPID.lookup p.string).getD ∅ : Map Bytes Unit).keys).insertionSort fun a b => order a ≤ order b

/-- Withdraw every name that the node keeps for a pid; `now` reads the clock at each of them. -/
def releasePID (p : PID) (order : Bytes → Nat) (now : Bytes → Int64) : Service :=
  if s.stopped then s
  else (s.ownedNames p order).foldl (fun s name => s.releaseOwned name p (now name)) s

def reassertOwned (nowMs : Int64) : Service :=
  match s.owned.lookup name with
  | none => s
  | some reg =>
    if s.stopped ∨ s.state.lookup name = some reg.pid then s
    else
      let (state, res) := s.state.register name reg.pid nowMs reg.priority
      let s := { s with state }
      if res.won then s.push res.entry else s

/-- Merge a received dot, forward what changed, and assert an owned name again that a tombstone of the local origin
    took. -/
def applyIncoming (d : Delta) (nowMs : Int64) : Service :=
  let (state, node) := s.state.internNode d.origin
  let (state, outcome, fwd, _) := state.apply (d.entry node)
  let s := { s with state }
  let s := match fwd with
    | some e => s.push e
    | none => s
  if node = s.state.localNode ∧ (outcome = .applied ∨ outcome = .deleteWins ∨ outcome = .conflictResolved) then
    s.reassertOwned d.name nowMs
  else s

def handleDeltaFrame (body : Bytes) (nowMs : Int64) : Service :=
  (decodeFrame body).1.foldl (fun s d => s.applyIncoming d nowMs) s

/-! ### Membership, collection and broadcasts -/

def handleNodeLeft (node : Bytes) : Service :=
  let (state, tombstones) := s.state.reapNode node
  let s := tombstones.foldl push { s with state }
  { s with tracker := s.tracker.forgetPeer node }

def onNodeLeft (node : Bytes) : Service :=
  if s.stopped ∨ node = [] ∨ node = s.localNodeID then s else s.handleNodeLeft node

def aliveSet (alivePeers : List Bytes) : List Bytes := s.localNodeID :: alivePeers

def runOnce (alivePeers : List Bytes) (nowMs floorMs : Int64) : Service :=
  { s with state := (gcRunOnce s.state s.tracker (s.aliveSet alivePeers) nowMs floorMs).1 }

def drainBroadcasts (headerOverhead byteBudget : Int) : Service × List Bytes :=
  let (queue, frames) := s.queue.drain s.state.nodeString headerOverhead byteBudget
  ({ s with queue }, frames)

end Service
end Wippy.Eventual
