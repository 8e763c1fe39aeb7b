import Wippy.Kv.Api

/-! The table that the kv commands of the raft log act on, `system/kv/state.go`.

    A Go map is a finite map here; where the source walks one, the order it takes is an argument. Entries and
    leases are values: a write that the source makes through a pointer replaces the value in its map. -/

namespace Wippy.Kv.Raft
open Lib

/-- `entry`, and with the same fields the `kvapi.Entry` of a published snapshot. -/
structure Entry where
  key : Bytes
  leaseID : LeaseID := []
  value : Bytes := []
  version : Version := 0
  epoch : UInt64 := 0
  deriving DecidableEq, Repr

structure LeaseState where
  id : LeaseID
  ttl : Int64
  expiresAtMs : Int64
  keys : KeySet Bytes := ∅

def snapshotShards : Nat := 256

/-- A published table: the entries of each shard, the revision and the log index it stands for. -/
structure StateSnapshot where
  shards : Fin snapshotShards → Map Bytes Entry := fun _ => ∅
  version : UInt64 := 0
  index : UInt64 := 0

structure State where
  published : Option StateSnapshot := none
  dirty : KeySet Bytes := ∅
  entries : Map Bytes Entry := ∅
  leases : Map LeaseID LeaseState := ∅
  version : Version := 0
  revision : UInt64 := 0
  applyIndex : UInt64 := 0

inductive TxnCond
  | condAny
  | condAbsent
  | condExists
  | condVersion
  | other (code : UInt8)
  deriving DecidableEq, Repr

def condHolds (cond : TxnCond) (expect : Version) (e : Option Entry) : Bool :=
  match cond with
  | .condAny => true
  | .condAbsent => e.isNone
  | .condExists => e.isSome
  | .condVersion => e.any fun e => e.version == expect
  | .other _ => false

namespace State

def newState : State := {}

variable (s : State)

def nextVersion : State × Version :=
  let version := s.version + 1
  ({ s with version, revision := s.revision + 1 }, version)

def get (key : Bytes) : Option Entry := s.entries.lookup key

def markDirty (key : Bytes) : State := { s with dirty := s.dirty.add key }

def detach (id : LeaseID) (key : Bytes) : State :=
  match s.leases.lookup id with
  | some ls => { s with leases := s.leases.insert id { ls with keys := ls.keys.erase key } }
  | none => s

def attach (id : LeaseID) (key : Bytes) : State :=
  match s.leases.lookup id with
  | some ls => { s with leases := s.leases.insert id { ls with keys := ls.keys.add key } }
  | none => s

/-- Detach a key from the lease it was bound to, if that is another one than `leaseID`. -/
def unbind (prev : Option Entry) (leaseID : LeaseID) (key : Bytes) : State :=
  match prev with
  | some p => if p.leaseID ≠ [] ∧ p.leaseID ≠ leaseID then s.detach p.leaseID key else s
  | none => s

def bind (leaseID : LeaseID) (key : Bytes) : State := if leaseID ≠ [] then s.attach leaseID key else s

def set (key value : Bytes) (leaseID : LeaseID) : State × Option Entry × Version :=
  let (s, ver) := s.nextVersion
  let prev := s.get key
  let s := s.unbind prev leaseID key
  let e : Entry := { key, value, version := ver, leaseID, epoch := s.applyIndex }
  let s := { s with entries := s.entries.insert key e }.markDirty key
  (s.bind leaseID key, prev, ver)

def del (key : Bytes) : State × Option Entry :=
  match s.get key with
  | none => (s, none)
  | some e =>
    let s := { s with entries := s.entries.erase key, revision := s.revision + 1 }.markDirty key
    (if e.leaseID ≠ [] then s.detach e.leaseID key else s, some e)

def setIfAbsent (key value : Bytes) (leaseID : LeaseID) : State × Version × Bool :=
  match s.get key with
  | some existing => (s, existing.version, false)
  | none =>
    let (s, _, ver) := s.set key value leaseID
    (s, ver, true)

def cas (key : Bytes) (expect : Version) (value : Bytes) : State × Version × Bool :=
  let existing := s.get key
  let actual : Version := (existing.map Entry.version).getD 0
  if actual ≠ expect then (s, actual, false)
  else
    let leaseID : LeaseID := (existing.map Entry.leaseID).getD []
    let (s, _, ver) := s.set key value leaseID
    (s, ver, true)

def compareAndDelete (key : Bytes) (expect : Version) : State × Bool × Bool :=
  match s.get key with
  | none => (s, false, false)
  | some e => if e.version ≠ expect then (s, false, true) else ((s.del key).1, true, true)

def addLease (id : LeaseID) (ttlMs expiresAtMs : Int64) : State :=
  { s with leases := s.leases.insert id { id, ttl := ttlMs, expiresAtMs } }

def removeLease (id : LeaseID) (order : List Bytes) : State × List Bytes :=
  match s.leases.lookup id with
  | none => (s, [])
  | some ls => ({ s with leases := s.leases.erase id }, ls.keys.keysIn order)

section Snapshot
variable (snapshotShard : Bytes → Fin snapshotShards)

/-- Bring the shard of a dirty key up to date. A shard is cloned before its first change, so only the new
    snapshot sees it. -/
def refreshKey (entries : Map Bytes Entry) (shards : Fin snapshotShards → Map Bytes Entry) (key : Bytes) :
    Fin snapshotShards → Map Bytes Entry :=
  let shard := snapshotShard key
  Function.update shards shard <|
    match entries.lookup key with
    | some e => (shards shard).insert key e
    | none => (shards shard).erase key

def snapshot (s : State) : State × StateSnapshot :=
  let (shards, dirty) : (Fin snapshotShards → Map Bytes Entry) × List Bytes :=
    match s.published with
    | some p => (p.shards, s.dirty.keys)
    | none => (fun _ => ∅, (s.entries.keys.foldl markDirty s).dirty.keys)
  let snap : StateSnapshot :=
    { index := s.applyIndex, version := s.revision, shards := dirty.foldl (refreshKey snapshotShard s.entries) shards }
  ({ s with dirty := ∅, published := some snap }, snap)

end Snapshot
end State

namespace StateSnapshot
variable (snapshotShard : Bytes → Fin snapshotShards)

def get (s : StateSnapshot) (key : Bytes) : Option Entry := (s.shards (snapshotShard key)).lookup key

end StateSnapshot
end Wippy.Kv.Raft
