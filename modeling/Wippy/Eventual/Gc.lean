import Wippy.Eventual.State

/-! Acknowledged tombstone collection, `system/topology/namereg/eventual/gc.go`. -/

namespace Wippy.Eventual
open Lib

/-- For each peer the highest counter it acknowledged, by the compact id of the origin. -/
structure TombstoneTracker where
  peerCV : Map Bytes (Map Nat UInt64) := ∅

namespace TombstoneTracker
variable (t : TombstoneTracker)

def acked (peer : Bytes) (id : Nat) : UInt64 :=
  (((t.peerCV.lookup peer).getD ∅ : Map Nat UInt64).lookup id).getD 0

/-- The body of `RecordAck`'s loop. -/
def raise (m : Map Nat UInt64) (x : UInt64 × Nat) : Map Nat UInt64 :=
  if x.1 = 0 then m
  else if x.1 > (m.lookup x.2).getD 0 then m.insert x.2 x.1
  else m

def recordAck (peer : Bytes) (cv : List UInt64) : TombstoneTracker :=
  { t with peerCV := t.peerCV.insert peer (cv.zipIdx.foldl raise ((t.peerCV.lookup peer).getD ∅)) }

def forgetPeer (peer : Bytes) : TombstoneTracker := { t with peerCV := t.peerCV.erase peer }

/-- The least counter that the alive peers with a record acknowledged for an origin, from `1<<63 - 1` down. -/
def leastAcked (records : List (Map Nat UInt64)) (origin : Nat) : UInt64 :=
  records.foldl (fun safe m =>
    let seen := (m.lookup origin).getD 0
    if seen < safe then seen else safe) 0x7FFFFFFFFFFFFFFF

def aliveRecords (alive : List Bytes) : List (Map Nat UInt64) :=
  (t.peerCV.keep fun peer _ => alive.contains peer).values

/-- Per origin the counter up to which tombstones may go; zero without an alive peer that has a record. -/
def safeCounters (alive : List Bytes) (numOrigins : Nat) : List UInt64 :=
  let records := t.aliveRecords alive
  (List.range numOrigins).map fun origin => if records = [] then 0 else leastAcked records origin

end TombstoneTracker

def gcRunOnce (s : State) (t : TombstoneTracker) (alive : List Bytes) (nowMs floorMs : Int64) :
    State × Nat × Nat × Nat :=
  let safe := t.safeCounters alive s.cv.length
  let (s, gcSafe, gcFloor) := s.reapTombstones safe nowMs floorMs
  let (s, reclaimed) := s.reclaimUnreferencedNodes alive
  (s, gcSafe, gcFloor, reclaimed)

end Wippy.Eventual
