import Wippy.Global.State

/-! The state machine of the global name registry, `system/topology/namereg/global/fsm.go` and `commands.go`.

    A log entry carries what msgpack makes of its data, a snapshot the payload that it encodes. The function that
    decides a conflict is the parameter `resolve`. Hooks and metrics are left out. -/

namespace Wippy.Global
open Lib

inductive CommandType
  | cmdRegister
  | cmdUnregister
  | cmdRemovePID
  | cmdRemoveNode
  | cmdRegisterPending
  | cmdRegisterAck
  | cmdRegisterExpired
  | cmdRegisterUnreserve
  | cmdDropRequired
  | cmdRegisterReject
  | other (code : UInt8)
  deriving DecidableEq, Repr

structure Command where
  pid : PID := {}
  name : Bytes := []
  nodeID : Bytes := []
  ackerNode : Bytes := []
  reason : Bytes := []
  requiredNodes : List Bytes := []
  epoch : UInt64 := 0
  deadlineUnixNano : Int64 := 0
  limit : Int := 0
  type : CommandType
  deriving DecidableEq, Repr

structure Log where
  index : UInt64
  data : Except Bytes Command

/-- What a replica brings itself when it applies a log entry: the orders in which it walks its maps, and its clock. -/
structure Site where
  pidKeys : List Bytes := []
  pending : List Bytes := []
  now : Int64 := 0

/-- `strongRejectReason`, the text `rejected`. -/
def strongRejectReason : Bytes := "rejected".toUTF8.toList

inductive RegisterError
  | registeredTo (name : Bytes) (existing : PID)
  | nameAlreadyRegistered
  | pendingConflict
  deriving DecidableEq, Repr

inductive RegisterState
  | unknown
  | active
  | expired
  deriving DecidableEq, Repr

structure RegisterResult where
  err : Option RegisterError := none
  pid : PID := {}
  existingPID : PID := {}
  resolvedPID : PID := {}
  fenceToken : UInt64 := 0
  state : RegisterState := .unknown
  deriving DecidableEq, Repr

inductive Response
  | decodeError (err : Bytes)
  | unknownType (code : UInt8)
  | register (r : RegisterResult)
  | unregister (removed : Bool)
  | remove (count : Nat) (hasMore : Bool)
  | ack (recognized complete activated : Bool)
  | expire (removed : Bool) (missingAcks : List Bytes)
  | dropRequired (dropped activated : Bool)
  | reject (rejected : Bool) (rejectedBy : Bytes)
  deriving DecidableEq, Repr

def Command.node (cmd : Command) : Bytes := if cmd.nodeID = [] then cmd.pid.node else cmd.nodeID

namespace ShardedState

def applyRegister (resolve : Bytes → PID → PID → PID) (s : ShardedState) (cmd : Command) (index : UInt64) :
    ShardedState × RegisterResult :=
  match s.register cmd.name cmd.pid cmd.node index with
  | (s, existing, _, .inserted) => (s, { pid := existing, fenceToken := index })
  | (s, existing, established, .dedupe) => (s, { pid := existing, fenceToken := established })
  | (s, existing, _, .conflict) =>
    let winner := resolve cmd.name existing cmd.pid
    if winner = cmd.pid then
      -- what this second attempt returns is not looked at
      (((s.unregister cmd.name).1.register cmd.name cmd.pid cmd.node index).1,
        { pid := cmd.pid, resolvedPID := existing, fenceToken := index })
    else (s, { existingPID := existing, err := some (.registeredTo cmd.name existing) })

variable (s : ShardedState) (cmd : Command)

def applyUnregister : ShardedState × Response :=
  let (s, removed) := s.unregisterEntry cmd.name
  (s, .unregister removed.isSome)

def applyRemovePID (site : Site) : ShardedState × Response :=
  let pendingNames := s.lookupPendingByPID cmd.pid site.pending
  let s := pendingNames.foldl (fun s n => (s.unreservePending n cmd.pid).1) s
  let (s, removed) := s.removePIDWithNames cmd.pid
  (s, .remove (removed.length + pendingNames.length) false)

def applyRemoveNode (site : Site) : ShardedState × Response :=
  let (s, removed, hasMore) := s.removeNodeWithNames cmd.nodeID cmd.limit site.pidKeys
  (s, .remove removed.length hasMore)

def applyRegisterPending (index : UInt64) : ShardedState × RegisterResult :=
  let epoch := if cmd.epoch = 0 then index else cmd.epoch
  match s.registerPending cmd.name cmd.pid cmd.node epoch cmd.requiredNodes cmd.deadlineUnixNano index.toInt64 with
  | (s, _, .inserted) => (s, { pid := cmd.pid, fenceToken := epoch })
  | (s, existing, .dedupe) => (s, { pid := existing, fenceToken := epoch })
  | (s, existing, .conflictActive) => (s, { existingPID := existing, err := some .nameAlreadyRegistered })
  | (s, existing, .conflictPending) => (s, { existingPID := existing, err := some .pendingConflict })

def applyRegisterAck (index : UInt64) : ShardedState × Response :=
  match s.recordAck cmd.name cmd.epoch cmd.ackerNode with
  | (s, none) => (s, .ack false false false)
  | (s, some (_, _, false)) => (s, .ack true false false)
  | (s, some (_, _, true)) =>
    let (s, promoted) := s.promotePending cmd.name cmd.epoch index
    (s, .ack true true promoted.isSome)

def applyRegisterExpired (site : Site) : ShardedState × Response :=
  match s.expirePending cmd.name cmd.epoch cmd.reason site.now with
  | (s, none) => (s, .expire false [])
  | (s, some (_, missing)) => (s, .expire true missing)

def applyRegisterUnreserve : ShardedState × Response :=
  match s.unreservePending cmd.name cmd.pid with
  | (s, _, true) => (s, .unregister true)
  | (s, _, false) => s.applyUnregister cmd

def applyDropRequired (index : UInt64) : ShardedState × Response :=
  match s.dropRequired cmd.name cmd.epoch cmd.nodeID with
  | (s, none) => (s, .dropRequired false false)
  | (s, some (_, dropped, false)) => (s, .dropRequired dropped false)
  | (s, some (_, dropped, true)) =>
    let (s, promoted) := s.promotePending cmd.name cmd.epoch index
    (s, .dropRequired dropped promoted.isSome)

def applyRegisterReject (site : Site) : ShardedState × Response :=
  let reason := if cmd.reason = [] then strongRejectReason else cmd.reason
  match s.rejectPending cmd.name cmd.epoch cmd.ackerNode reason site.now with
  | (s, none) => (s, .reject false [])
  | (s, some _) => (s, .reject true cmd.ackerNode)

section
variable (resolve : Bytes → PID → PID → PID) (s : ShardedState)

def applyCommand (cmd : Command) (index : UInt64) (site : Site) : ShardedState × Response :=
  match cmd.type with
  | .cmdRegister => let (s, r) := s.applyRegister resolve cmd index; (s, .register r)
  | .cmdUnregister => s.applyUnregister cmd
  | .cmdRemovePID => s.applyRemovePID cmd site
  | .cmdRemoveNode => s.applyRemoveNode cmd site
  | .cmdRegisterPending => let (s, r) := s.applyRegisterPending cmd index; (s, .register r)
  | .cmdRegisterAck => s.applyRegisterAck cmd index
  | .cmdRegisterExpired => s.applyRegisterExpired cmd site
  | .cmdRegisterUnreserve => s.applyRegisterUnreserve cmd
  | .cmdDropRequired => s.applyDropRequired cmd index
  | .cmdRegisterReject => s.applyRegisterReject cmd site
  | .other code => (s, .unknownType code)

def apply (log : Log) (site : Site) : ShardedState × Response :=
  match log.data with
  | .error err => (s, .decodeError err)
  | .ok cmd => s.applyCommand resolve cmd log.index site

structure Applied where
  log : Log
  site : Site := {}

def step (a : Applied) : ShardedState := (s.apply resolve a.log a.site).1

/-- The states of a replica after a log: it applies the entries, and at any point it may be restored from the snapshot
    of a replica, whatever it had before. -/
inductive Replica : List Log → ShardedState → Prop
  | new : Replica [] newShardedState
  | apply {logs : List Log} {s : ShardedState} (h : Replica logs s) (log : Log) (site : Site) :
      Replica (logs ++ [log]) (s.apply resolve log site).1
  | restore {logs : List Log} {s : ShardedState} (h : Replica logs s) (order : SnapshotOrder) (t : ShardedState) :
      Replica logs (t.restore (s.snapshot order))

end
end ShardedState
end Wippy.Global
