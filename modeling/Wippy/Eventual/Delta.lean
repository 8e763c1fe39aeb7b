import Wippy.Eventual.State
import Wippy.Gossip.Packing
import Wippy.Lib.Wire

/-! Wire format and broadcast queue of `system/topology/namereg/eventual/delta.go`. -/

namespace Wippy.Eventual
open Lib Lib.Wire

/-! ### Wire format

`op:1 | name_len:2 | name | node_str_len:1 | node_str | counter:8 | wall:8 | priority:4 |
pid_node_len:1 | pid_node | pid_host_len:1 | pid_host | pid_uniq_len:2 | pid_uniq` -/

def opRegister : UInt8 := 0
def opUnregister : UInt8 := 1

def frameTypeDelta : UInt8 := 0

def encodeDelta (e : Entry) (originNodeStr : Bytes) : Except String Bytes :=
  if e.name.length > 0xFFFF then .error s!"eventualreg: name too long: {e.name.length} bytes"
  else if originNodeStr.length > 0xFF then .error s!"eventualreg: origin node too long: {originNodeStr.length} bytes"
  else if e.pid.node.length > 0xFF ∨ e.pid.host.length > 0xFF ∨ e.pid.uniqID.length > 0xFFFF then
    .error "eventualreg: pid fields too long"
  else
    let op := if e.deleted then opUnregister else opRegister
    .ok ([op] ++ le 2 e.name.length ++ e.name ++ [UInt8.ofNat originNodeStr.length] ++ originNodeStr ++
      le 8 e.counter.toNat ++ le 8 e.wall.toUInt64.toNat ++ le 4 e.priority.toNat ++
      [UInt8.ofNat e.pid.node.length] ++ e.pid.node ++ [UInt8.ofNat e.pid.host.length] ++ e.pid.host ++
      le 2 e.pid.uniqID.length ++ e.pid.uniqID)

/-- The fields of one delta. The reader of the source keeps a sticky error; here a short read is `none`. -/
def readDelta : Reader Delta := do
  let op ← byte
  let nameLen ← u16
  let name ← take nameLen.toNat
  let originLen ← byte
  let origin ← take originLen.toNat
  let counter ← u64
  let wall ← u64
  let priority ← u32
  let pidNodeLen ← byte
  let node ← take pidNodeLen.toNat
  let pidHostLen ← byte
  let host ← take pidHostLen.toNat
  let pidUniqLen ← u16
  let uniqID ← take pidUniqLen.toNat
  let deleted := op == opUnregister
  return { name, origin, counter, wall := wall.toInt64, priority, deleted,
           pid := if deleted then {} else { node, host, uniqID } }

def decodeDelta (data : Bytes) : Except String (Delta × Nat) :=
  match readDelta data with
  | some (d, rest) => .ok (d, data.length - rest.length)
  | none => .error "eventualreg: truncated delta"

def decodeFrame (data : Bytes) : List Delta × Option String := Gossip.unpack decodeDelta data

/-! ### Broadcast queue -/

/-- Pending deltas, bounded by `cap`. Entries keep the compact id of their origin; the string is looked up when
    they are drained. -/
structure BroadcastQueue where
  originNodeStr : Bytes
  pending : List Entry := []
  cap : Nat
  dropped : UInt64 := 0

namespace BroadcastQueue

def newBroadcastQueue (originNodeStr : Bytes) (capacity : Int) : BroadcastQueue :=
  { originNodeStr, cap := if capacity ≤ 0 then 4096 else capacity.toNat }

/-- The origin string of an entry by `originOf`, or the local one where that gives none. -/
def originFor (q : BroadcastQueue) (originOf : Nat → Bytes) (e : Entry) : Bytes :=
  if originOf e.node ≠ [] then originOf e.node else q.originNodeStr

def push (q : BroadcastQueue) (e : Entry) : BroadcastQueue :=
  if q.pending.length ≥ q.cap then { q with dropped := q.dropped + 1 }
  else { q with pending := q.pending ++ [e] }

def drain (q : BroadcastQueue) (originOf : Nat → Bytes) (headerOverhead byteBudget : Int) :
    BroadcastQueue × List Bytes :=
  let (frames, keep) :=
    Gossip.drain [frameTypeDelta] (fun e => (encodeDelta e (q.originFor originOf e)).toOption) q.pending
    headerOverhead byteBudget
  ({ q with pending := keep }, frames)

end BroadcastQueue
end Wippy.Eventual
