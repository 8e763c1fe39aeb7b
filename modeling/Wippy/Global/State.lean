import Wippy.Pid
import Wippy.Lib.Fnv
import Mathlib.Data.Finset.Insert

/-! The tables of the global name registry, `system/topology/namereg/global/state.go`.

    Where the source walks a Go map, the order is an argument. The ack set of a reservation is a finite set, also in a
    snapshot. What only hooks and metrics get (strong terminals) is left out. -/

namespace Wippy.Global
open Lib

def shardCount : Nat := 16

structure NameEntry where
  pid : PID
  nodeID : Bytes
  requiredNodes : List Bytes := []
  appliedAt : UInt64
  epoch : UInt64 := 0
  deriving DecidableEq, Repr

structure Shard where
  names : Map Bytes NameEntry := ∅
  pidNames : Map Bytes (List Bytes) := ∅

structure PendingEntry where
  ackSet : Finset Bytes := ∅
  pid : PID
  name : Bytes
  nodeID : Bytes
  requiredNodes : List Bytes
  epoch : UInt64
  deadlineUnixNano : Int64
  createdAt : Int64
  deriving DecidableEq

structure ExpiredRecord where
  pid : PID
  name : Bytes
  reason : Bytes
  rejectedBy : Bytes := []
  missingAcks : List Bytes
  epoch : UInt64
  expiredAt : Int64
  deriving DecidableEq, Repr

structure RemovedNameEntry where
  name : Bytes
  pid : PID
  deriving DecidableEq, Repr

structure ShardedState where
  pending : Map Bytes PendingEntry := ∅
  nodeIndex : Map Bytes (KeySet Bytes) := ∅
  expired : List ExpiredRecord := []
  shards : Fin shardCount → Shard := fun _ => {}

def expiredRingCap : Nat := 64

def shardFor (name : Bytes) : Fin shardCount := ⟨(fnv32a name).toNat % shardCount, Nat.mod_lt _ (by decide)⟩

namespace PendingEntry

def ackComplete (e : PendingEntry) : Bool := e.requiredNodes.all fun n => decide (n ∈ e.ackSet)

def missingAcks (e : PendingEntry) : List Bytes := e.requiredNodes.filter fun n => !decide (n ∈ e.ackSet)

end PendingEntry

namespace Shard

def namesOf (sh : Shard) (pidKey : Bytes) : List Bytes := (sh.pidNames.lookup pidKey).getD []

def removePIDName (sh : Shard) (pidKey name : Bytes) : Shard :=
  let names := (sh.namesOf pidKey).erase name
  { sh with pidNames := if names.isEmpty then sh.pidNames.erase pidKey else sh.pidNames.insert pidKey names }

def dropNameLocked (sh : Shard) (name : Bytes) : Shard × Option NameEntry :=
  match sh.names.lookup name with
  | none => (sh, none)
  | some e => ({ sh with names := sh.names.erase name }, some e)

/-- Drop names until `cap` names have been removed in all: the names removed so far, and those that are left. -/
def removeNames (cap : Option Nat) (sh : Shard) (removed : List RemovedNameEntry) :
    List Bytes → Shard × List RemovedNameEntry × List Bytes
  | [] => (sh, removed, [])
  | name :: names =>
    if cap.any (· ≤ removed.length) then (sh, removed, name :: names)
    else
      match sh.dropNameLocked name with
      | (sh, none) => removeNames cap sh removed names
      | (sh, some e) => removeNames cap sh (removed ++ [{ name, pid := e.pid }]) names

/-- Drop the names of processes, one process after the other. Names that are left stop the walk. -/
def removeKeys (cap : Option Nat) (sh : Shard) (removed : List RemovedNameEntry) :
    List Bytes → Shard × List RemovedNameEntry × Bool
  | [] => (sh, removed, false)
  | pidKey :: pidKeys =>
    match sh.pidNames.lookup pidKey with
    | none => removeKeys cap sh removed pidKeys
    | some names =>
      match removeNames cap sh removed names with
      | (sh, removed, []) => removeKeys cap { sh with pidNames := sh.pidNames.erase pidKey } removed pidKeys
      | (sh, removed, left) => ({ sh with pidNames := sh.pidNames.insert pidKey left }, removed, true)

end Shard

namespace ShardedState

def newShardedState : ShardedState := {}

variable (s : ShardedState) (name : Bytes)

def entry : Option NameEntry := (s.shards (shardFor name)).names.lookup name

def lookup : Option PID := (s.entry name).map NameEntry.pid

def setShard (i : Fin shardCount) (sh : Shard) : ShardedState :=
  { s with shards := Function.update s.shards i sh }

def addToNodeIndex (nodeID pidKey : Bytes) : ShardedState :=
  { s with nodeIndex := s.nodeIndex.insert nodeID (KeySet.add ((s.nodeIndex.lookup nodeID).getD ∅) pidKey) }

/-- Write an entry for a name and add the name to the names of its owner: the end of `register`, of `promotePending`
    and of each round of `restore`. -/
def bindName (e : NameEntry) : ShardedState :=
  let sh := s.shards (shardFor name)
  let pidKey := e.pid.string
  let sh : Shard :=
    { names := sh.names.insert name e, pidNames := sh.pidNames.insert pidKey (sh.namesOf pidKey ++ [name]) }
  (s.setShard (shardFor name) sh).addToNodeIndex e.nodeID pidKey

inductive RegisterOutcome
  | inserted
  | dedupe
  | conflict
  deriving DecidableEq, Repr

def register (p : PID) (nodeID : Bytes) (index : UInt64) : ShardedState × PID × UInt64 × RegisterOutcome :=
  match s.pending.lookup name with
  | some e => if e.pid = p then (s, p, e.epoch, .dedupe) else (s, e.pid, e.epoch, .conflict)
  | none =>
    match s.entry name with
    | some existing =>
      if existing.pid = p then (s, p, existing.appliedAt, .dedupe) else (s, existing.pid, existing.appliedAt, .conflict)
    | none => (s.bindName name { pid := p, nodeID, appliedAt := index }, p, index, .inserted)

def unregisterEntry : ShardedState × Option NameEntry :=
  match s.entry name with
  | none => (s, none)
  | some e =>
    let sh := s.shards (shardFor name)
    let sh : Shard := { sh with names := sh.names.erase name }
    (s.setShard (shardFor name) (sh.removePIDName e.pid.string name), some e)

def unregister : ShardedState × Bool :=
  let (s, removed) := s.unregisterEntry name
  (s, removed.isSome)

inductive PendingOutcome
  | inserted
  | dedupe
  | conflictActive
  | conflictPending
  deriving DecidableEq, Repr

def registerPending (p : PID) (nodeID : Bytes) (epoch : UInt64) (required : List Bytes)
    (deadline createdAt : Int64) : ShardedState × PID × PendingOutcome :=
  match s.entry name with
  | some existing => if existing.pid = p then (s, p, .dedupe) else (s, existing.pid, .conflictActive)
  | none =>
    match s.pending.lookup name with
    | some e => if e.pid = p ∧ e.epoch = epoch then (s, p, .dedupe) else (s, e.pid, .conflictPending)
    | none =>
      let e : PendingEntry :=
        { name, pid := p, nodeID, epoch, requiredNodes := required, deadlineUnixNano := deadline, createdAt }
      ({ s with pending := s.pending.insert name e }, p, .inserted)

def reservation (epoch : UInt64) : Option PendingEntry :=
  (s.pending.lookup name).filter fun e => e.epoch = epoch

def recordAck (epoch : UInt64) (acker : Bytes) : ShardedState × Option (PendingEntry × Bool × Bool) :=
  match s.reservation name epoch with
  | none => (s, none)
  | some e =>
    if acker ∈ e.ackSet then (s, some (e, false, e.ackComplete))
    else
      let e := { e with ackSet := insert acker e.ackSet }
      ({ s with pending := s.pending.insert name e }, some (e, true, e.ackComplete))

def dropRequired (epoch : UInt64) (node : Bytes) : ShardedState × Option (PendingEntry × Bool × Bool) :=
  match s.reservation name epoch with
  | none => (s, none)
  | some e =>
    if e.requiredNodes.contains node then
      let e := { e with requiredNodes := e.requiredNodes.erase node }
      ({ s with pending := s.pending.insert name e }, some (e, true, e.ackComplete))
    else (s, some (e, false, e.ackComplete))

/-- Keep a record of a released reservation, without the oldest one if there are too many. -/
def recordExpired (r : ExpiredRecord) : ShardedState :=
  if s.expired.length < expiredRingCap then { s with expired := s.expired ++ [r] }
  else { s with expired := s.expired.drop 1 ++ [r] }

def rejectPending (epoch : UInt64) (rejecter reason : Bytes) (expiredAt : Int64) : ShardedState × Option PendingEntry :=
  match s.reservation name epoch with
  | none => (s, none)
  | some e =>
    ({ s with pending := s.pending.erase name }.recordExpired
      { name, pid := e.pid, epoch, reason, rejectedBy := rejecter, missingAcks := e.missingAcks, expiredAt }, some e)

def expirePending (epoch : UInt64) (reason : Bytes) (expiredAt : Int64) :
    ShardedState × Option (PendingEntry × List Bytes) :=
  let (s, e) := s.rejectPending name epoch [] reason expiredAt
  (s, e.map fun e => (e, e.missingAcks))

def promotePending (epoch activationIndex : UInt64) : ShardedState × Option PendingEntry :=
  match s.reservation name epoch with
  | none => (s, none)
  | some e =>
    let entry : NameEntry :=
      { pid := e.pid, nodeID := e.nodeID, appliedAt := activationIndex, requiredNodes := e.requiredNodes,
        epoch := e.epoch }
    ({ s with pending := s.pending.erase name }.bindName name entry, some e)

def unreservePending (p : PID) : ShardedState × Option PendingEntry × Bool :=
  match s.pending.lookup name with
  | none => (s, none, false)
  | some e =>
    if p ≠ {} ∧ e.pid ≠ p then (s, some e, false) else ({ s with pending := s.pending.erase name }, some e, true)

def lookupPendingByPID (p : PID) (order : List Bytes) : List Bytes :=
  (s.pending.keysIn order).filter fun name => (s.pending.lookup name).any fun e => e.pid = p

def removeShards (cap : Option Nat) (pidKeys : List Bytes) (s : ShardedState) (removed : List RemovedNameEntry) :
    List (Fin shardCount) → ShardedState × List RemovedNameEntry × Bool
  | [] => (s, removed, false)
  | i :: is =>
    match (s.shards i).removeKeys cap removed pidKeys with
    | (sh, removed, false) => removeShards cap pidKeys (s.setShard i sh) removed is
    | (sh, removed, true) => (s.setShard i sh, removed, true)

def removePIDWithNames (p : PID) : ShardedState × List RemovedNameEntry :=
  let pidKey := p.string
  let (s, removed, _) := removeShards none [pidKey] s [] (List.finRange shardCount)
  let nodeIndex := (s.nodeIndex.mapVal fun _ pids => pids.erase pidKey).keep fun _ pids => !pids.keys.isEmpty
  ({ s with nodeIndex }, removed)

/-- Drop the names of all processes of a node, `limit` at most if that is positive, and say whether some are left. The
    processes are taken in the order `order`. -/
def removeNodeWithNames (nodeID : Bytes) (limit : Int) (order : List Bytes) :
    ShardedState × List RemovedNameEntry × Bool :=
  match s.nodeIndex.lookup nodeID with
  | none => (s, [], false)
  | some pids =>
    let pidKeys := pids.keysIn order
    let cap : Option Nat := if limit ≤ 0 then none else some limit.toNat
    match removeShards cap pidKeys s [] (List.finRange shardCount) with
    | (s, removed, true) => (s, removed, true)
    | (s, removed, false) =>
      let pids := pidKeys.foldl (fun pids k => pids.erase k) pids
      let nodeIndex := if pids.keys.isEmpty then s.nodeIndex.erase nodeID else s.nodeIndex.insert nodeID pids
      ({ s with nodeIndex }, removed, false)

structure SnapshotEntry where
  name : Bytes
  entry : NameEntry

structure FsmSnapshotPayload where
  entries : List SnapshotEntry := []
  pending : List PendingEntry := []

structure SnapshotOrder where
  names : Fin shardCount → List Bytes := fun _ => []
  pending : List Bytes := []

def snapshot (order : SnapshotOrder) : FsmSnapshotPayload :=
  { entries := (List.finRange shardCount).flatMap fun i =>
      ((s.shards i).names.keysIn (order.names i)).filterMap fun name =>
        ((s.shards i).names.lookup name).map fun entry => { name, entry }
    pending := (s.pending.keysIn order.pending).filterMap fun name => s.pending.lookup name }

/-- Replace the tables by those of a snapshot. The history of released reservations stays. -/
def restore (payload : FsmSnapshotPayload) : ShardedState :=
  let s := { s with shards := fun _ => {}, nodeIndex := ∅ }
  let s := payload.entries.foldl (fun s e => s.bindName e.name e.entry) s
  { s with pending := payload.pending.foldl (fun pending p => pending.insert p.name p) ∅ }

end ShardedState
end Wippy.Global
