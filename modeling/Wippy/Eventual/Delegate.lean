import Wippy.Eventual.Service

/-! The push/pull exchange of `system/topology/namereg/eventual/delegate.go` and the digests of `digest.go`.

    The xxhash of a shard is not modelled: the digest of the local replica is an argument. Sending a shard request
    is the result of a merge. -/

namespace Wippy.Eventual
open Lib Lib.Wire State

/-! ### Digests

`ver:1 | shard_count:2 | repeated{ shard_id:2 | xxhash64:8 }` -/

def shardCount : Nat := 64
def digestVersion : UInt8 := 1
def digestSize : Nat := 1 + 2 + shardCount * (2 + 8)

abbrev Digest := Vector UInt64 shardCount

namespace Digest

def encode (d : Digest) : Bytes :=
  [digestVersion] ++ le 2 shardCount ++ d.toList.zipIdx.flatMap fun x => le 2 x.2 ++ le 8 x.1.toNat

/-- The loop of `DecodeDigest`, on the hashes read so far. -/
def decodeHashes : Nat → Bytes → Digest → Except String Digest
  | 0, _, d => .ok d
  | n + 1, data, d =>
    let shardID := ofLE (data.take 2)
    let hash := UInt64.ofNat (ofLE ((data.drop 2).take 8))
    if h : shardID < shardCount then decodeHashes n (data.drop 10) (d.set shardID hash h)
    else .error s!"eventualreg: digest shard id out of range: {shardID}"

def decode (data : Bytes) : Except String Digest :=
  match data with
  | ver :: c₀ :: c₁ :: body =>
    let count := ofLE [c₀, c₁]
    if ver ≠ digestVersion then .error s!"eventualreg: unsupported digest version: {ver}"
    else if count ≠ shardCount then .error s!"eventualreg: digest shard count mismatch: got {count} want {shardCount}"
    else if data.length < digestSize then .error "eventualreg: digest body truncated"
    else decodeHashes shardCount body (Vector.replicate shardCount 0)
  | _ => .error "eventualreg: digest header truncated"

def diff (d remote : Digest) : List Nat :=
  (List.finRange shardCount).filterMap fun i => if d[i] ≠ remote[i] then some i.val else none

end Digest

namespace Service

/-! ### Outgoing state

`digest | cv_len:2 | repeated{ node_len:1 | node | counter:8 } | node_len:1 | node` -/

variable (s : Service)

def collectCVPairs : List (Bytes × UInt64) :=
  (s.state.stringIDs.zip s.state.cv).filter fun x => x.1 ≠ []

def shortName (name : Bytes) : Bytes := [UInt8.ofNat (name.take 0xFF).length] ++ name.take 0xFF

def encodePair (p : Bytes × UInt64) : Bytes := shortName p.1 ++ le 8 p.2.toNat

def localState (digest : Digest) : Bytes :=
  digest.encode ++ le 2 s.collectCVPairs.length ++ s.collectCVPairs.flatMap encodePair ++ shortName s.localNodeID

def readPair : Reader (Bytes × UInt64) := do
  let nameLen ← byte
  let name ← take nameLen.toNat
  let counter ← u64
  return (name, counter)

/-- The pairs of a payload and the bytes behind them, or no such bytes when the payload ends before the last pair. -/
def readPairs : Nat → Bytes → List (Bytes × UInt64) × Option Bytes
  | 0, data => ([], some data)
  | n + 1, data =>
    match readPair data with
    | none => ([], none)
    | some (pair, rest) =>
      let (pairs, rest) := readPairs n rest
      (pair :: pairs, rest)

structure Merging where
  state : State
  peerCV : List UInt64
  peerNode : Bytes := []

/-- Enter a pair under the local id of its origin. The sender is guessed to be the origin with the highest counter. -/
def Merging.pair (m : Merging) (p : Bytes × UInt64) : Merging :=
  let (state, localID) := m.state.internNode p.1
  let peerCV := m.peerCV ++ List.replicate (localID + 1 - m.peerCV.length) 0
  let peerCV := peerCV.set localID p.2
  if m.peerNode = [] then { state, peerCV, peerNode := p.1 }
  else
    let (state, id) := state.internNode m.peerNode
    { state, peerCV, peerNode := if p.2 > slot peerCV id then p.1 else m.peerNode }

def readSender (rest : Bytes) : Option Bytes :=
  match rest with
  | [] => none
  | n :: name => if n.toNat ≤ name.length then some (name.take n.toNat) else none

def readHead (buf : Bytes) : Option (Digest × UInt16 × Bytes) :=
  if buf.length < digestSize then none
  else
    match Digest.decode (buf.take digestSize) with
    | .error _ => none
    | .ok digest => (u16 (buf.drop digestSize)).map fun (count, data) => (digest, count, data)

/-- Merge the push/pull payload of a peer: its counters become acknowledgements, shards that differ are requested. A
    truncated one leaves the names read so far interned. -/
def mergeRemoteState (localDigest : Digest) (buf : Bytes) : Service × Option (Bytes × List Nat) :=
  match readHead buf with
  | none => (s, none)
  | some (digest, count, data) =>
    let (pairs, rest) := readPairs count.toNat data
    let m := pairs.foldl Merging.pair { state := s.state, peerCV := List.replicate count.toNat 0 }
    let s := { s with state := m.state }
    match rest with
    | none => (s, none)
    | some rest =>
      let peerNode := (readSender rest).getD m.peerNode
      let mismatched := localDigest.diff digest
      ({ s with tracker := s.tracker.recordAck peerNode m.peerCV },
        if mismatched ≠ [] ∧ peerNode ≠ [] ∧ peerNode ≠ s.localNodeID then some (peerNode, mismatched) else none)

/-! ### Runs of the service -/

inductive Event
  | register (name : Bytes) (p : PID) (priority : UInt32) (nowMs : Int64)
  | unregister (name : Bytes) (nowMs : Int64)
  | releasePID (p : PID) (order : Bytes → Nat) (now : Bytes → Int64)
  | applyIncoming (d : Delta) (nowMs : Int64)
  | nodeLeft (node : Bytes)
  | runOnce (alivePeers : List Bytes) (nowMs floorMs : Int64)
  | mergeRemoteState (localDigest : Digest) (buf : Bytes)
  | drainBroadcasts (headerOverhead byteBudget : Int)

def step : Event → Service
  | .register name p priority nowMs => (s.register name p priority nowMs).1
  | .unregister name nowMs => (s.unregister name nowMs).1
  | .releasePID p order now => s.releasePID p order now
  | .applyIncoming d nowMs => s.applyIncoming d nowMs
  | .nodeLeft node => s.onNodeLeft node
  | .runOnce alivePeers nowMs floorMs => s.runOnce alivePeers nowMs floorMs
  | .mergeRemoteState localDigest buf => (s.mergeRemoteState localDigest buf).1
  | .drainBroadcasts headerOverhead byteBudget => (s.drainBroadcasts headerOverhead byteBudget).1

end Service
end Wippy.Eventual
