import Wippy.Kv.Raft.Fsm
import Wippy.Pid

/-! Distributed locks over the kv, `system/kv/locks.go`.

    A lock is the entry at `_sys:lock:<name>` whose value is the holder's identifier. All nodes share one replicated kv:
    a write is a committed command, a read sees any snapshot published so far. A release or a reap reads first and
    deletes later. `ReapPID` may be called at any time. -/

namespace Wippy.Kv.Raft
open Lib

/-- `_sys:lock:` -/
def lockPrefix : Bytes := [95, 115, 121, 115, 58, 108, 111, 99, 107, 58]

def lockKey (name : Bytes) : Bytes := lockPrefix ++ name

def StateSnapshot.scan (s : StateSnapshot) (pfx : Bytes) : List Entry :=
  (List.finRange snapshotShards).flatMap fun i =>
    (s.shards i).entries.filterMap fun x => if pfx.isPrefixOf x.1 then some x.2 else none

inductive Cause
  | release (name : Bytes) (holder : PID)
  | reapPID (p : PID)
  | reapNode (node : Bytes)
  deriving DecidableEq, Repr

structure Victim where
  key : Bytes
  version : Version
  deriving DecidableEq, Repr

/-- The kv and what the lock services on it are about to do. History variables: `written`, all entries ever written, and
    `freed`, those that a lock service deleted. -/
structure Locks where
  fsm : RaftFSM
  published : List StateSnapshot
  victims : List (Cause × Victim) := []
  written : List Entry := []
  freed : List (Cause × Entry) := []

namespace Locks

section
variable (snapshotShard : Bytes → Fin snapshotShards)

def newLocks : Locks :=
  let fsm := RaftFSM.newRaftFSM snapshotShard
  { fsm, published := [fsm.snap] }

variable (s : Locks)

/-- Commit a command: the kv applies it and publishes its table. A command that takes a new version writes its key. -/
def commit (c : Command) : Locks × ApplyResult :=
  let res := (s.fsm.beginLog (s.fsm.state.applyIndex + 1)).applyCommand c []
  let fsm := (res.1.flush snapshotShard).1
  ({ s with
      fsm
      published := s.published ++ [fsm.snap]
      written := s.written ++ if fsm.state.version ≠ s.fsm.state.version then (fsm.state.get c.key).toList else [] },
    res.2)

def acquire (name : Bytes) (holder : PID) : Locks × Bool :=
  let res := s.commit snapshotShard { op := .opSetIfAbsent, key := lockKey name, value := holder.string }
  (res.1, res.2.ok)

/-- The first half of `Release`, on a snapshot. -/
def release (s : Locks) (snap : StateSnapshot) (name : Bytes) (holder : PID) : Locks :=
  match snap.get snapshotShard (lockKey name) with
  | none => s
  | some e =>
    if e.value ≠ holder.string then s
    else { s with victims := s.victims ++ [(.release name holder, { key := lockKey name, version := e.version })] }

/-- The scan of `reap`, on a snapshot. -/
def reap (snap : StateSnapshot) (cause : Cause) (isHolder : PID → Bool) : Locks :=
  { s with
    victims := s.victims ++ (snap.scan lockPrefix).filterMap fun e =>
      match parsePID e.value with
      | .ok p => if isHolder p then some (cause, { key := e.key, version := e.version }) else none
      | .error _ => none }

def reapPID (s : Locks) (snap : StateSnapshot) (p : PID) : Locks :=
  s.reap snap (.reapPID p) fun h => decide (h.string = p.string)

def reapNode (s : Locks) (snap : StateSnapshot) (node : Bytes) : Locks :=
  s.reap snap (.reapNode node) fun h => decide (h.node = node)

def delete (cause : Cause) (v : Victim) : Locks :=
  let res := s.commit snapshotShard { op := .opCompareAndDelete, key := v.key, expect := v.version }
  { res.1 with
    freed := if res.2.ok then s.freed ++ (s.fsm.state.get v.key).toList.map fun e => (cause, e) else s.freed }

def restore (s : Locks) (entryOrder : List Bytes) (leaseOrder : List LeaseID) : Locks :=
  let fsm := s.fsm.restore snapshotShard (s.fsm.snapshot entryOrder leaseOrder)
  { s with fsm, published := s.published ++ [fsm.snap] }

/-- Reads name the snapshot they see by its number, deletions the victim by its position. Other clients of the kv commit
    commands of their own. -/
inductive Event
  | acquire (name : Bytes) (holder : PID)
  | release (snap : Nat) (name : Bytes) (holder : PID)
  | reapPID (snap : Nat) (p : PID)
  | reapNode (snap : Nat) (node : Bytes)
  | delete (victim : Nat)
  | restore (entryOrder : List Bytes) (leaseOrder : List LeaseID)
  | other (c : Command)

def handle : Event → Locks
  | .acquire name holder => (s.acquire snapshotShard name holder).1
  | .release snap name holder => s.published[snap]?.elim s fun x => s.release snapshotShard x name holder
  | .reapPID snap p => s.published[snap]?.elim s fun x => s.reapPID x p
  | .reapNode snap node => s.published[snap]?.elim s fun x => s.reapNode x node
  | .delete i =>
    match s.victims[i]? with
    | some (cause, v) => { s with victims := s.victims.eraseIdx i }.delete snapshotShard cause v
    | none => s
  | .restore entryOrder leaseOrder => s.restore snapshotShard entryOrder leaseOrder
  | .other c => (s.commit snapshotShard c).1

def run (es : List Event) : Locks := es.foldl (handle snapshotShard) s

end
end Locks
end Wippy.Kv.Raft
