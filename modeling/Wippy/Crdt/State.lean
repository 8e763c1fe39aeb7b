import Wippy.Lib.Map
import Wippy.Lib.Slice
import Mathlib.Data.List.Lex

/-! The gossip replica of `system/crdt/state.go`: one entry for each key, merged by dot and wall clock.

    The 64 shards hold disjoint parts of one key space, so they are one map here. Compact node ids are
    natural numbers. A byte slice is its list of bytes, `nil` being the empty one. -/

namespace Wippy

abbrev Bytes := List UInt8

namespace Crdt
open Lib

inductive MergeOutcome
  | noop
  | applied
  | wallTiebreak
  | deleteWins
  deriving DecidableEq, Repr

structure Entry where
  key : Bytes
  value : Bytes := []
  counter : UInt64
  wall : Int64
  node : Nat
  deleted : Bool := false
  deriving DecidableEq, Repr

inductive Write
  | minted (e : Entry)
  | merged (e : Entry)
  deriving DecidableEq, Repr

def Write.entry : Write → Entry
  | .minted e => e
  | .merged e => e

/-- A replica. `history` is a history variable: the entries installed so far, oldest first. No function
    reads it. -/
structure State where
  nodeIDs : Map Bytes Nat := ∅
  stringIDs : List Bytes := []
  cv : List UInt64 := []
  entries : Map Bytes Entry := ∅
  localCounter : UInt64 := 0
  live : Int := 0
  tombstone : Int := 0
  localNode : Nat := 0
  history : List Write := []

/-- `>0` if `a` is newer, `<0` if `b` is, `0` for the same dot or different origins. -/
def compareDots (a b : Entry) : Int :=
  if a.node ≠ b.node then 0
  else if a.counter > b.counter then 1
  else if a.counter < b.counter then -1
  else 0

/-- An entry as replicas exchange it: its origin is a string and not a replica's compact id. -/
structure Delta where
  key : Bytes
  value : Bytes := []
  origin : Bytes
  counter : UInt64
  wall : Int64
  deleted : Bool := false
  deriving DecidableEq, Repr

def Delta.entry (d : Delta) (node : Nat) : Entry :=
  { key := d.key, value := d.value, counter := d.counter, wall := d.wall, node, deleted := d.deleted }

def Entry.withOrigin (e : Entry) (origin : Bytes) : Delta :=
  { key := e.key, value := e.value, origin, counter := e.counter, wall := e.wall, deleted := e.deleted }

namespace State
variable (s : State)

def internNode (node : Bytes) : State × Nat :=
  match s.nodeIDs.lookup node with
  | some id => (s, id)
  | none =>
    let id := s.stringIDs.length
    ({ s with
        nodeIDs := s.nodeIDs.insert node id
        stringIDs := s.stringIDs ++ [node]
        cv := grow s.cv id }, id)

def nodeString (id : Nat) : Bytes := s.stringIDs.getD id []

def newState (localNodeID : Bytes) : State :=
  let (s, id) := internNode {} localNodeID
  { s with localNode := id }

def lookupEntry (key : Bytes) : Option Entry :=
  match s.entries.lookup key with
  | some e => if e.deleted then none else some e
  | none => none

/-- `ShardEntries` over all shards, in no particular order. -/
def allEntries : List Entry := s.entries.values

def bumpCV (node : Nat) (counter : UInt64) : State :=
  let cv := grow s.cv node
  { s with cv := if counter > slot cv node then cv.set node counter else cv }

/-- Install a minted entry: the common part of `Register` and `Overwrite`. -/
def install (key value : Bytes) (wallMs : Int64) : State × Entry :=
  let counter := s.localCounter + 1
  let e : Entry := { key, value, node := s.localNode, counter, wall := wallMs }
  let prev : Option Entry := s.entries.lookup key
  let s := { s with
    localCounter := counter
    entries := s.entries.insert key e
    history := s.history ++ [Write.minted e]
    tombstone := if prev.any Entry.deleted then s.tombstone - 1 else s.tombstone
    live := if prev.any fun p => !Entry.deleted p then s.live else s.live + 1 }
  (s.bumpCV s.localNode counter, e)

def register (key value : Bytes) (wallMs : Int64) : State × Entry × Bool :=
  match s.entries.lookup key with
  | some cur =>
    if !cur.deleted && cur.value != value then (s, cur, false)
    else let (s, e) := s.install key value wallMs; (s, e, true)
  | none => let (s, e) := s.install key value wallMs; (s, e, true)

/-- `Register` without the check of the held value. -/
def overwrite (key value : Bytes) (wallMs : Int64) : State × Entry := s.install key value wallMs

def unregister (key : Bytes) (wallMs : Int64) : State × Option Entry :=
  match s.entries.lookup key with
  | none => (s, none)
  | some cur =>
    if cur.deleted then (s, none)
    else
      let counter := s.localCounter + 1
      let e : Entry := { key, node := s.localNode, counter, wall := wallMs, deleted := true }
      let s := { s with
        localCounter := counter
        entries := s.entries.insert key e
        history := s.history ++ [Write.minted e]
        live := s.live - 1
        tombstone := s.tombstone + 1 }
      (s.bumpCV s.localNode counter, some e)

def applyNew (e : Entry) : State :=
  let s := { s with
    entries := s.entries.insert e.key e
    history := s.history ++ [Write.merged e]
    tombstone := if e.deleted then s.tombstone + 1 else s.tombstone
    live := if e.deleted then s.live else s.live + 1 }
  s.bumpCV e.node e.counter

def swap (cur e : Entry) : State :=
  let revived := cur.deleted && !e.deleted
  let buried := !cur.deleted && e.deleted
  let s := { s with
    entries := s.entries.insert e.key e
    history := s.history ++ [Write.merged e]
    tombstone := if revived then s.tombstone - 1 else if buried then s.tombstone + 1 else s.tombstone
    live := if revived then s.live + 1 else if buried then s.live - 1 else s.live }
  s.bumpCV e.node e.counter

def apply (e : Entry) : State × MergeOutcome × Entry :=
  match s.entries.lookup e.key with
  | none => (s.applyNew e, .applied, e)
  | some cur =>
    if compareDots cur e > 0 then (s, .noop, cur)
    else if compareDots cur e < 0 then (s.swap cur e, .applied, e)
    -- Concurrent: different origins, or the identical dot.
    else if e.wall > cur.wall then (s.swap cur e, .wallTiebreak, e)
    else if e.wall < cur.wall then (s, .noop, cur)
    else if e.deleted != cur.deleted then
      if e.deleted then (s.swap cur e, .deleteWins, e) else (s, .noop, cur)
    else
      let inOrigin := s.nodeString e.node
      let curOrigin := s.nodeString cur.node
      if inOrigin > curOrigin ∨ (inOrigin = curOrigin ∧ e.counter > cur.counter) then
        (s.swap cur e, .wallTiebreak, e)
      else (s, .noop, cur)

/-- Merge an entry received with its origin string, as every receiver does: intern, then `Apply`. -/
def receive (d : Delta) : State × MergeOutcome × Entry :=
  let (s, id) := s.internNode d.origin
  s.apply (d.entry id)

def delta (e : Entry) : Delta := e.withOrigin (s.nodeString e.node)

def view (key : Bytes) : Option Delta := (s.entries.lookup key).map s.delta

/-! ### Tombstone collection -/

/-- Whether a pass drops entry `e`: accepted by `canReap`, or past a positive wall floor. -/
def reapable (canReap : Option (Entry → Bool)) (nowMs wallFloorMs : Int64) (e : Entry) : Bool :=
  e.deleted && (canReap.any (· e) || (decide (wallFloorMs > 0) && decide (nowMs - e.wall > wallFloorMs)))

def reapTombstonesWhere (canReap : Option (Entry → Bool)) (nowMs wallFloorMs : Int64) :
    State × Nat × Nat × List Entry :=
  let reaped := s.allEntries.filter (reapable canReap nowMs wallFloorMs)
  let safe := reaped.filter fun e => canReap.any (· e)
  ({ s with
      entries := s.entries.keep fun _ e => !reapable canReap nowMs wallFloorMs e
      tombstone := s.tombstone - reaped.length },
    safe.length, reaped.length - safe.length, reaped)

end State
end Crdt
end Wippy
