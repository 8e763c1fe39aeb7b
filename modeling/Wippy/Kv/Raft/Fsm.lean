import Wippy.Kv.Raft.Command

/-! The kv state machine of the raft log, `system/kv/raft_fsm.go`, with the part of the lease table of
    `system/kv/lease.go` that it reads.

    Applying a log entry also gives the records for the watch source. Go's map order, where it shows, is the argument
    `order`. A snapshot is the `fsmState` that gob encodes; the hash that picks its shard is the parameter
    `snapshotShard`. -/

namespace Wippy.Kv.Raft
open Lib

/-- Ids with an entry in the deadline heap and ids with a handle. The state machine does not read the deadlines. -/
structure LeaseManager where
  entries : KeySet LeaseID := ∅
  handles : KeySet LeaseID := ∅

namespace LeaseManager
variable (m : LeaseManager)

def grant (id : LeaseID) : LeaseManager :=
  { m with entries := m.entries.add id, handles := m.handles.add id }

def renew (id : LeaseID) : Bool := decide (id ∈ m.entries) && decide (id ∈ m.handles)

def revoke (id : LeaseID) : LeaseManager :=
  if id ∈ m.entries then { m with entries := m.entries.erase id, handles := m.handles.erase id } else m

def getHandle (id : LeaseID) : Bool := decide (id ∈ m.handles)

end LeaseManager

inductive ApplyError
  | keyNotFound
  | leaseNotFound
  | decode (e : DecodeError)
  | unknownOp (op : Opcode)
  deriving DecidableEq, Repr

structure ApplyResult where
  err : Option ApplyError := none
  version : Version := 0
  ok : Bool := false
  deriving DecidableEq, Repr

structure WatchRecord where
  typ : WatchEventType
  current : Option Entry := none
  previous : Option Entry := none
  index : UInt64
  revision : UInt64 := 0
  deriving DecidableEq, Repr

structure Log where
  index : UInt64
  data : Bytes
  deriving DecidableEq, Repr

/-- A log entry as one replica applies it: the order in which that replica walks its maps is its own. -/
structure Applied where
  log : Log
  order : List Bytes := []

structure RaftFSM where
  state : State
  leases : LeaseManager := {}
  snap : StateSnapshot
  outbox : List WatchRecord := []

structure SnapLease where
  id : LeaseID
  keys : List Bytes
  ttlMs : Int64
  expiresAtMs : Int64

structure FsmState where
  entries : List Entry := []
  leases : List SnapLease := []
  applyIndex : UInt64 := 0
  version : Version := 0

namespace RaftFSM
variable (f : RaftFSM)

def emitEvent (typ : WatchEventType) (current previous : Option Entry) : RaftFSM :=
  { f with outbox := f.outbox ++ [{ typ, current, previous, index := f.state.applyIndex }] }

def emitPut (key : Bytes) (prev : Option Entry) : RaftFSM :=
  match f.state.get key with
  | none => f
  | some current => f.emitEvent .put (some current) prev

def put (key value : Bytes) (leaseID : LeaseID) : RaftFSM × Version :=
  let (state, prev, ver) := f.state.set key value leaseID
  ({ f with state }.emitPut key prev, ver)

def drop (typ : WatchEventType) (key : Bytes) : RaftFSM × Bool :=
  match f.state.del key with
  | (_, none) => (f, false)
  | (state, some prev) => ({ f with state }.emitEvent typ none (some prev), true)

def setIfAbsent (f : RaftFSM) (key value : Bytes) (leaseID : LeaseID) : RaftFSM × ApplyResult :=
  let (state, version, ok) := f.state.setIfAbsent key value leaseID
  let f := { f with state }
  (if ok then f.emitPut key none else f, { version, ok })

def applyTxnOp (op : TxnOp) : RaftFSM :=
  match op.kind with
  | .txnPut => (f.put op.key op.value []).1
  | .txnDelete => (f.drop .delete op.key).1
  | .txnCheck | .other _ => f

def applyTxn (ops : List TxnOp) : RaftFSM × ApplyResult :=
  if ops.all fun op => condHolds op.cond op.expect (f.state.get op.key) then
    (ops.foldl applyTxnOp f, { ok := true })
  else (f, { ok := false })

def applyCommand (c : Command) (order : List Bytes) : RaftFSM × ApplyResult :=
  match c.op with
  | .opSet =>
    let (f, version) := f.put c.key c.value []
    (f, { version, ok := true })
  | .opDelete =>
    match f.drop .delete c.key with
    | (f, false) => (f, { err := some .keyNotFound })
    | (f, true) => (f, { ok := true })
  | .opCAS =>
    let prev := f.state.get c.key
    let (state, version, ok) := f.state.cas c.key c.expect c.value
    let f := { f with state }
    (if ok then f.emitPut c.key prev else f, { version, ok })
  | .opSetIfAbsent => f.setIfAbsent c.key c.value []
  | .opCompareAndDelete =>
    let prev := f.state.get c.key
    let (state, deleted, _) := f.state.compareAndDelete c.key c.expect
    let f := { f with state }
    (if deleted then f.emitEvent .delete none prev else f, { ok := deleted })
  | .opSetWithLease =>
    if f.leases.getHandle c.leaseID then
      let (f, version) := f.put c.key c.value c.leaseID
      (f, { version, ok := true })
    else (f, { err := some .leaseNotFound })
  | .opSetIfAbsentWithLease =>
    if f.leases.getHandle c.leaseID then f.setIfAbsent c.key c.value c.leaseID
    else (f, { err := some .leaseNotFound })
  | .opLeaseGrant =>
    ({ f with state := f.state.addLease c.leaseID c.ttlMs c.expiresAtMs, leases := f.leases.grant c.leaseID },
      { ok := true })
  | .opLeaseRenew =>
    if f.leases.renew c.leaseID then
      match f.state.leases.lookup c.leaseID with
      | some ls =>
        let leases := f.state.leases.insert c.leaseID { ls with expiresAtMs := c.expiresAtMs }
        ({ f with state := { f.state with leases } }, { ok := true })
      | none => (f, { ok := true })
    else (f, { err := some .leaseNotFound })
  | .opLeaseRevoke =>
    let (state, keys) := f.state.removeLease c.leaseID order
    let f := keys.foldl (fun f key => (f.drop .expired key).1) { f with state }
    ({ f with leases := f.leases.revoke c.leaseID }, { ok := true })
  | .opTxn | .other _ => (f, { err := some (.unknownOp c.op) })

section
variable (snapshotShard : Bytes → Fin snapshotShards)

def newRaftFSM : RaftFSM :=
  let (state, snap) := State.newState.snapshot snapshotShard
  { state, snap }

variable (f : RaftFSM)

def flush : RaftFSM × List WatchRecord :=
  let (state, published) := f.state.snapshot snapshotShard
  let records := f.outbox.map fun r => { r with revision := published.index }
  ({ f with state, snap := published, outbox := [] }, records)

def beginLog (index : UInt64) : RaftFSM := { f with state := { f.state with applyIndex := index } }

def apply (log : Log) (order : List Bytes) : RaftFSM × ApplyResult × List WatchRecord :=
  let f := f.beginLog log.index
  if log.data.head?.map Opcode.ofByte = some .opTxn then
    match decodeTxn log.data with
    | .error e => (f, { err := some (.decode e) }, [])
    | .ok ops =>
      let (f, res) := f.applyTxn ops
      let (f, records) := f.flush snapshotShard
      (f, res, records)
  else
    match decodeCommand log.data with
    | .error e => (f, { err := some (.decode e) }, [])
    | .ok c =>
      let (f, res) := f.applyCommand c order
      let (f, records) := f.flush snapshotShard
      (f, res, records)

def step (a : Applied) : RaftFSM := (f.apply snapshotShard a.log a.order).1

def run (f : RaftFSM) : List Applied → RaftFSM × List ApplyResult
  | [] => (f, [])
  | a :: as =>
    let (g, res, _) := f.apply snapshotShard a.log a.order
    let (g, results) := run g as
    (g, res :: results)

def get (f : RaftFSM) (key : Bytes) : Option Entry := f.snap.get snapshotShard key

def leaseSnapshot : Map LeaseID Int64 := f.state.leases.mapVal fun _ ls => ls.expiresAtMs

/-! ### Snapshot and restore -/

/-- The maps of entries and leases are walked in the orders `entryOrder` and `leaseOrder`. -/
def snapshot (entryOrder : List Bytes) (leaseOrder : List LeaseID) : FsmState :=
  { version := f.state.version
    applyIndex := f.state.applyIndex
    entries := (f.state.entries.keysIn entryOrder).filterMap fun k => f.state.entries.lookup k
    leases := (f.state.leases.keysIn leaseOrder).filterMap fun id =>
      (f.state.leases.lookup id).map fun ls =>
        { id, ttlMs := ls.ttl, expiresAtMs := ls.expiresAtMs, keys := ls.keys.keys } }

def restoreLease (x : State × LeaseManager) (l : SnapLease) : State × LeaseManager :=
  (x.1.addLease l.id l.ttlMs l.expiresAtMs, x.2.grant l.id)

/-- Put one entry of a snapshot back; the keys of a lease are rebuilt from the entries. -/
def restoreEntry (s : State) (e : Entry) : State :=
  { s with
    applyIndex := if e.epoch > s.applyIndex then e.epoch else s.applyIndex
    entries := s.entries.insert e.key e }.bind e.leaseID e.key

def restoreState (st : FsmState) : State × LeaseManager :=
  let fresh : State := { version := st.version, revision := st.version, applyIndex := st.applyIndex }
  let (fresh, leases) := st.leases.foldl restoreLease (fresh, {})
  (st.entries.foldl restoreEntry fresh, leases)

def restore (st : FsmState) : RaftFSM :=
  let (fresh, leases) := restoreState st
  let (state, snap) := fresh.snapshot snapshotShard
  { f with state, leases, snap }

inductive Event
  | apply (a : Applied)
  | restore (st : FsmState)

def handle : Event → RaftFSM
  | .apply a => f.step snapshotShard a
  | .restore st => f.restore snapshotShard st

end
end RaftFSM
end Wippy.Kv.Raft
