import Wippy.Crdt.Delta
import Wippy.Kv.Api
import Wippy.Lib.Fnv

/-! The key-value engine over a gossip CRDT, `system/kv/crdt_engine.go`.

    Each operation is one step of the engine. Clock readings and the set of alive peers are arguments, in
    milliseconds and as a list of node names. The file of a durable snapshot is its bytes. -/

namespace Wippy.Kv
open Lib Lib.Wire Crdt

/-! ### Values of the engine's interface -/

/-- `kvapi.Entry` as this backend fills it: no lease binding, no epoch. -/
structure KvEntry where
  key : Bytes
  value : Bytes := []
  version : Version := 0
  deriving DecidableEq, Repr

structure WatchEvent where
  type : WatchEventType
  current : Option KvEntry := none
  previous : Option KvEntry := none
  deriving DecidableEq, Repr

structure TombstoneDot where
  node : Nat
  counter : UInt64
  deriving DecidableEq, Repr

def tombstoneDot (e : Crdt.Entry) : TombstoneDot := ⟨e.node, e.counter⟩

def wallScale : Int64 := 1000000

/-- The engine of a node. `published` lists the events handed to the watch source, oldest first. -/
structure CRDTEngine where
  state : State
  queue : BroadcastQueue
  localNode : Bytes
  tiebreak : Int64
  peerTombAck : Map Bytes (List TombstoneDot) := ∅
  leaseKeys : Map LeaseID (List Bytes) := ∅
  deadlines : Map LeaseID Int := ∅
  keyLease : Map Bytes LeaseID := ∅
  leaseSeq : Nat := 0
  tombstoneFloor : Int64 := 0
  durableNS : List Bytes := []
  dataDir : Bytes := []
  published : List WatchEvent := []

namespace CRDTEngine

def newCRDTEngine (localNode : Bytes) : CRDTEngine :=
  { state := State.newState localNode
    queue := BroadcastQueue.newBroadcastQueue localNode 0
    localNode
    tiebreak := (fnv32a localNode % 1000000).toUInt64.toInt64 }

variable (g : CRDTEngine)

def wall (nowMs : Int64) : Int64 := nowMs * wallScale + g.tiebreak

def emit (type : WatchEventType) (cur : KvEntry) : CRDTEngine :=
  let evt : WatchEvent :=
    match type with
    | .delete | .expired => { type, previous := some cur }
    | .put => { type, current := some cur }
  { g with published := g.published ++ [evt] }

def push (g : CRDTEngine) (e : Crdt.Entry) : CRDTEngine := { g with queue := g.queue.push e }

variable (key : Bytes)

def get : Except KvError KvEntry :=
  match g.state.lookupEntry key with
  | none => .error .keyNotFound
  | some en => .ok { key, value := en.value, version := en.counter }

def put (g : CRDTEngine) (key value : Bytes) (nowMs : Int64) : CRDTEngine × Version :=
  let (state, en) := g.state.overwrite key value (g.wall nowMs)
  let g := { g with state }
  ((g.push en).emit .put { key, value, version := en.counter }, en.counter)

def set (key value : Bytes) (nowMs : Int64) : CRDTEngine × Version := g.put key value nowMs

def detachKey : CRDTEngine :=
  match g.keyLease.lookup key with
  | none => g
  | some id =>
    let leaseKeys :=
      match g.leaseKeys.lookup id with
      | some keys => g.leaseKeys.insert id (keys.filter (· ≠ key))
      | none => g.leaseKeys
    { g with leaseKeys, keyLease := g.keyLease.erase key }

def delete (g : CRDTEngine) (key : Bytes) (nowMs : Int64) : CRDTEngine × Except KvError Unit :=
  match g.state.unregister key (g.wall nowMs) with
  | (_, none) => (g, .error .keyNotFound)
  | (state, some en) =>
    let g := { g with state }
    (((g.push en).detachKey key).emit .delete { key }, .ok ())

def setIfAbsent (key value : Bytes) (nowMs : Int64) : CRDTEngine × Version × Bool :=
  match g.state.lookupEntry key with
  | some cur => (g, cur.counter, false)
  | none => let (g, v) := g.put key value nowMs; (g, v, true)

def compareAndSwap (expect : Version) (value : Bytes) (nowMs : Int64) : CRDTEngine × Version × Bool :=
  let curVer : Version := ((g.state.lookupEntry key).map (·.counter)).getD 0
  if curVer ≠ expect then (g, curVer, false)
  else let (g, v) := g.put key value nowMs; (g, v, true)

/-- In the source a call whose version matches holds `e.mu` when `detachKey` locks it, and does not return. Here it
    returns as it is meant to, which adds runs. -/
def compareAndDelete (expect : Version) (nowMs : Int64) : CRDTEngine × Bool :=
  match g.state.lookupEntry key with
  | none => (g, false)
  | some cur =>
    if cur.counter ≠ expect then (g, false)
    else
      match g.state.unregister key (g.wall nowMs) with
      | (_, none) => (g, false)
      | (state, some en) =>
        let g := { g with state }
        (((g.push en).detachKey key).emit .delete { key }, true)

/-- The id of the lease with sequence number `seq`: `<node>-clease-<seq>`. -/
def leaseID (node : Bytes) (seq : Nat) : LeaseID :=
  node ++ [45, 99, 108, 101, 97, 115, 101, 45] ++ (Nat.toDigits 10 seq).map fun c => UInt8.ofNat c.toNat

def grantLease (deadline : Int) : CRDTEngine × LeaseID :=
  let seq := g.leaseSeq + 1
  let id := leaseID (g.state.nodeString g.state.localNode) seq
  ({ g with
      leaseSeq := seq
      leaseKeys := g.leaseKeys.insert id []
      deadlines := g.deadlines.insert id deadline }, id)

def keepAlive (id : LeaseID) (deadline : Int) : CRDTEngine × Except KvError Unit :=
  match g.deadlines.lookup id with
  | none => (g, .error .leaseNotFound)
  | some _ => ({ g with deadlines := g.deadlines.insert id deadline }, .ok ())

def attachKey (lease : LeaseID) (keys : List Bytes) : CRDTEngine :=
  { g with
    leaseKeys := g.leaseKeys.insert lease (if key ∈ keys then keys else keys ++ [key])
    keyLease := g.keyLease.insert key lease }

def setWithLease (key value : Bytes) (lease : LeaseID) (nowMs : Int64) : CRDTEngine × Except KvError Version :=
  match g.leaseKeys.lookup lease with
  | none => (g, .error .leaseNotFound)
  | some keys => let (g, v) := (g.attachKey key lease keys).put key value nowMs; (g, .ok v)

def setIfAbsentWithLease (key value : Bytes) (lease : LeaseID) (nowMs : Int64) :
    CRDTEngine × Except KvError (Version × Bool) :=
  match g.leaseKeys.lookup lease with
  | none => (g, .error .leaseNotFound)
  | some keys =>
    match g.state.lookupEntry key with
    | some cur => (g, .ok (cur.counter, false))
    | none => let (g, v) := (g.attachKey key lease keys).put key value nowMs; (g, .ok (v, true))

def expireKey (nowMs : Int64) (g : CRDTEngine) (key : Bytes) : CRDTEngine :=
  match g.state.unregister key (g.wall nowMs) with
  | (_, none) => g
  | (state, some en) => ({ g with state }.push en).emit .expired { key }

def expireLease (id : LeaseID) (nowMs : Int64) : CRDTEngine :=
  let keys : List Bytes := (g.leaseKeys.lookup id).getD []
  let g := { g with
    leaseKeys := g.leaseKeys.erase id
    deadlines := g.deadlines.erase id
    keyLease := g.keyLease.keep fun k _ => k ∉ keys }
  keys.foldl (expireKey nowMs) g

/-! ### Tombstone collection -/

/-- The acknowledgement rule: `nil` without a peer set, else "acknowledged by every alive peer but us". -/
def tombstoneAckedByPeers (alive : Option (List Bytes)) : Option (Crdt.Entry → Bool) :=
  match alive with
  | none => none
  | some peers =>
    if peers = [] then none
    else some fun ent => (peers.filter (· ≠ g.localNode)).all fun peer =>
      ((g.peerTombAck.lookup peer).getD ([] : List TombstoneDot)).contains (tombstoneDot ent)

def pruneTombstoneAcks (reaped : List Crdt.Entry) : CRDTEngine :=
  if reaped = [] then g
  else
    let dots := reaped.map tombstoneDot
    let acks := g.peerTombAck.mapVal fun _ (ack : List TombstoneDot) => ack.filter (· ∉ dots)
    { g with peerTombAck := acks.keep fun _ ack => !ack.isEmpty }

def gcTombstones (alive : Option (List Bytes)) (nowMs : Int64) : CRDTEngine × Nat × Nat :=
  let (state, safe, floor, reaped) :=
    g.state.reapTombstonesWhere (g.tombstoneAckedByPeers alive) (nowMs * wallScale) (g.tombstoneFloor * wallScale)
  ({ g with state }.pruneTombstoneAcks reaped, safe, floor)

def drainBroadcasts (overhead budget : Int) : CRDTEngine × List Bytes :=
  let (queue, frames) := g.queue.drain overhead budget
  ({ g with queue }, frames)

def recordPeerTombstoneAck (peer : Bytes) (ent : Crdt.Entry) : CRDTEngine :=
  if peer = [] then g
  else
    let m : List TombstoneDot := (g.peerTombAck.lookup peer).getD []
    { g with peerTombAck := g.peerTombAck.insert peer (if tombstoneDot ent ∈ m then m else m ++ [tombstoneDot ent]) }

/-- A tombstone in a full-state snapshot acknowledges the delete on behalf of its sender. -/
def acknowledge (ackPeer : Bytes) (g : CRDTEngine) (en : Crdt.Entry) : CRDTEngine :=
  if ackPeer ≠ [] ∧ en.deleted then g.recordPeerTombstoneAck ackPeer en else g

def mergeEntry (en : Crdt.Entry) : CRDTEngine :=
  let (state, outcome, merged) := g.state.apply en
  let g := { g with state }
  if outcome = .applied ∨ outcome = .deleteWins then
    if merged.deleted then (g.push merged).emit .delete { key := merged.key }
    else (g.push merged).emit .put { key := merged.key, value := merged.value, version := merged.counter }
  else g

/-- The body of `onFrame`'s loop. -/
def onDelta (ackPeer : Bytes) (g : CRDTEngine) (d : Delta) : CRDTEngine :=
  let (state, node) := g.state.internNode d.origin
  let en := d.entry node
  (acknowledge ackPeer { g with state } en).mergeEntry en

/-- `onFrame` of the source: the deltas of a frame one after the other, up to the first malformed one. -/
def onDeltas (data : Bytes) (ackPeer : Bytes) : CRDTEngine :=
  (decodeFrame data).1.foldl (onDelta ackPeer) g

/-- `wkvcrdt` and a version byte. -/
def fullStateMagic : Bytes := [119, 107, 118, 99, 114, 100, 116, 1]

def encodeFullState (deltas : Bytes) : Bytes :=
  if g.localNode.length > 0xFFFF then deltas
  else fullStateMagic ++ le 2 g.localNode.length ++ g.localNode ++ deltas

def encodeEntries (s : State) (entries : List Crdt.Entry) : Bytes :=
  entries.flatMap fun en => ((encodeDelta en (s.nodeString en.node)).toOption).getD []

def fullState : Bytes := g.encodeFullState (encodeEntries g.state g.state.allEntries)

/-- The sender and the deltas of a full-state envelope, both empty when it is malformed; `none` when the data
    is not an envelope. -/
def openFullState (buf : Bytes) : Option (Bytes × Bytes) :=
  if buf.take fullStateMagic.length ≠ fullStateMagic then none
  else
    let body := buf.drop fullStateMagic.length
    if body.length < 2 then some ([], [])
    else
      let nodeLen := ofLE (body.take 2)
      let rest := body.drop 2
      if nodeLen = 0 ∨ rest.length < nodeLen then some ([], [])
      else some (rest.take nodeLen, rest.drop nodeLen)

def mergeFullState (buf : Bytes) : Option CRDTEngine :=
  match openFullState buf with
  | none => none
  | some (peer, deltas) => some (if deltas = [] then g else g.onDeltas deltas peer)

/-- `OnFrame` of the source: a full-state envelope, or else a delta frame. -/
def onFrame (data : Bytes) : CRDTEngine :=
  match g.mergeFullState data with
  | some g => g
  | none => g.onDeltas data []

def isDurableKey : Bool := g.durableNS.any fun ns => (ns ++ [58]).isPrefixOf key

def snapshotDurable : Option Bytes :=
  if g.dataDir = [] then none
  else some (encodeEntries g.state (g.state.allEntries.filter fun en => g.isDurableKey en.key))

def loadDurable (file : Option Bytes) : CRDTEngine :=
  if g.dataDir = [] then g
  else
    match file with
    | none => g
    | some data => g.onFrame data

inductive Op
  | set (key value : Bytes) (nowMs : Int64)
  | delete (key : Bytes) (nowMs : Int64)
  | setIfAbsent (key value : Bytes) (nowMs : Int64)
  | compareAndSwap (key : Bytes) (expect : Version) (value : Bytes) (nowMs : Int64)
  | compareAndDelete (key : Bytes) (expect : Version) (nowMs : Int64)
  | grantLease (deadline : Int)
  | keepAlive (id : LeaseID) (deadline : Int)
  | setWithLease (key value : Bytes) (lease : LeaseID) (nowMs : Int64)
  | setIfAbsentWithLease (key value : Bytes) (lease : LeaseID) (nowMs : Int64)
  | expireLease (id : LeaseID) (nowMs : Int64)
  | gcTombstones (alive : Option (List Bytes)) (nowMs : Int64)
  | drainBroadcasts (overhead budget : Int)
  | onFrame (data : Bytes)
  | loadDurable (file : Option Bytes)
  | setDurability (dataDir : Bytes)
  | setTombstoneRetention (retentionMs : Int64)
  | markDurable (ns : Bytes)

def step : Op → CRDTEngine
  | .set key value nowMs => (g.set key value nowMs).1
  | .delete key nowMs => (g.delete key nowMs).1
  | .setIfAbsent key value nowMs => (g.setIfAbsent key value nowMs).1
  | .compareAndSwap key expect value nowMs => (g.compareAndSwap key expect value nowMs).1
  | .compareAndDelete key expect nowMs => (g.compareAndDelete key expect nowMs).1
  | .grantLease deadline => (g.grantLease deadline).1
  | .keepAlive id deadline => (g.keepAlive id deadline).1
  | .setWithLease key value lease nowMs => (g.setWithLease key value lease nowMs).1
  | .setIfAbsentWithLease key value lease nowMs => (g.setIfAbsentWithLease key value lease nowMs).1
  | .expireLease id nowMs => g.expireLease id nowMs
  | .gcTombstones alive nowMs => (g.gcTombstones alive nowMs).1
  | .drainBroadcasts overhead budget => (g.drainBroadcasts overhead budget).1
  | .onFrame data => g.onFrame data
  | .loadDurable file => g.loadDurable file
  | .setDurability dataDir => { g with dataDir }
  | .setTombstoneRetention retentionMs => { g with tombstoneFloor := retentionMs }
  | .markDurable ns => { g with durableNS := if ns ∈ g.durableNS then g.durableNS else g.durableNS ++ [ns] }

end CRDTEngine
end Wippy.Kv
