import Wippy.Gossip.Packing
import Wippy.Lib.Wire

/-! Wire format and broadcast queue of `system/crdt/delta.go`. -/

namespace Wippy.Crdt
open Lib Lib.Wire

/-! ### Wire format

`op:1 | key_len:2 | key | node_str_len:1 | node_str | counter:8 | wall:8 | value_len:4 | value` -/

def opPut : UInt8 := 0
def opTombstone : UInt8 := 1

def encodeDelta (e : Entry) (originNodeStr : Bytes) : Except String Bytes :=
  if e.key.length > 0xFFFF then .error s!"crdt: key too long: {e.key.length} bytes"
  else if originNodeStr.length > 0xFF then .error s!"crdt: origin node too long: {originNodeStr.length} bytes"
  else if e.value.length > 0xFFFFFFFF then .error s!"crdt: value too long: {e.value.length} bytes"
  else
    let op := if e.deleted then opTombstone else opPut
    .ok ([op] ++ le 2 e.key.length ++ e.key ++ [UInt8.ofNat originNodeStr.length] ++ originNodeStr ++
      le 8 e.counter.toNat ++ le 8 e.wall.toUInt64.toNat ++
      if e.deleted then le 4 0 else le 4 e.value.length ++ e.value)

/-- The fields of one delta. The reader of the source keeps a sticky error; here a short read is `none`. -/
def readDelta : Reader Delta := do
  let op ← byte
  let keyLen ← u16
  let key ← take keyLen.toNat
  let originLen ← byte
  let origin ← take originLen.toNat
  let counter ← u64
  let wall ← u64
  let valueLen ← u32
  let value ← take valueLen.toNat
  let deleted := op == opTombstone
  return { key, value := if deleted then [] else value, origin, counter, wall := wall.toInt64, deleted }

def decodeDelta (data : Bytes) : Except String (Delta × Nat) :=
  match readDelta data with
  | some (d, rest) => .ok (d, data.length - rest.length)
  | none => .error "crdt: truncated delta"

def decodeFrame (data : Bytes) : List Delta × Option String := Gossip.unpack decodeDelta data

/-! ### Broadcast queue -/

/-- Pending deltas, bounded by `cap`. Every entry is encoded under the one origin `originNodeStr`. -/
structure BroadcastQueue where
  originNodeStr : Bytes
  pending : List Entry := []
  cap : Nat
  dropped : UInt64 := 0

namespace BroadcastQueue

def newBroadcastQueue (originNodeStr : Bytes) (capacity : Int) : BroadcastQueue :=
  { originNodeStr, cap := if capacity ≤ 0 then 4096 else capacity.toNat }

def push (q : BroadcastQueue) (e : Entry) : BroadcastQueue :=
  if q.pending.length ≥ q.cap then { q with dropped := q.dropped + 1 }
  else { q with pending := q.pending ++ [e] }

def drain (q : BroadcastQueue) (headerOverhead byteBudget : Int) : BroadcastQueue × List Bytes :=
  let (frames, keep) := Gossip.drain [] (fun e => (encodeDelta e q.originNodeStr).toOption) q.pending headerOverhead
    byteBudget
  ({ q with pending := keep }, frames)

end BroadcastQueue
end Wippy.Crdt
