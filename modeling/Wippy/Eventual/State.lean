import Wippy.Pid
import Wippy.Lib.Contest
import Wippy.Lib.Fnv

/-! The replica of the eventual name registry, `system/topology/namereg/eventual/state.go`: for each name one dot per
    origin, the winner derived from them, and an intern table of origins whose ids are reused.

    The 64 shards are one map here, and a name without a record has an empty one. Ids and reference counts are natural
    numbers. -/

namespace Wippy.Eventual
open Lib

inductive MergeOutcome
  | noop
  | applied
  | conflictResolved
  | deleteWins
  | superseded
  deriving DecidableEq, Repr

structure Entry where
  pid : PID := {}
  name : Bytes
  counter : UInt64
  wall : Int64
  node : Nat
  priority : UInt32
  deleted : Bool := false
  deriving DecidableEq, Repr

structure LostBinding where
  name : Bytes
  pid : PID
  counter : UInt64
  node : Nat
  deriving DecidableEq, Repr

abbrev NameRecord := Map Nat Entry

/-- A replica. `freeIDs` has the top of the free list first. `claims` is a history variable: the bindings that
    `Register` of this run installed. -/
structure State where
  nodeIDs : Map Bytes Nat := ∅
  stringIDs : List Bytes := []
  cv : List UInt64 := []
  nodeRefs : List Nat := []
  freeIDs : List Nat := []
  entries : Map Bytes NameRecord := ∅
  localCounter : UInt64 := 0
  live : Int := 0
  tombstone : Int := 0
  localNode : Nat := 0
  claims : List (Bytes × PID) := []

/-- A dot as replicas exchange it: its origin is a string and not a replica's compact id. -/
structure Delta where
  pid : PID := {}
  name : Bytes
  origin : Bytes
  counter : UInt64
  wall : Int64
  priority : UInt32
  deleted : Bool := false
  deriving DecidableEq, Repr

def Delta.entry (d : Delta) (node : Nat) : Entry :=
  { pid := d.pid, name := d.name, counter := d.counter, wall := d.wall, node, priority := d.priority,
    deleted := d.deleted }

def Entry.withOrigin (e : Entry) (origin : Bytes) : Delta :=
  { pid := e.pid, name := e.name, origin, counter := e.counter, wall := e.wall, priority := e.priority,
    deleted := e.deleted }

def Entry.buried (e : Entry) : Entry := { e with pid := {}, deleted := true }

namespace State
variable (s : State)

def internNode (node : Bytes) : State × Nat :=
  match s.nodeIDs.lookup node with
  | some id => (s, id)
  | none =>
    match s.freeIDs with
    | id :: free =>
      ({ s with
          freeIDs := free
          nodeIDs := s.nodeIDs.insert node id
          stringIDs := s.stringIDs.set id node
          cv := s.cv.set id 0
          nodeRefs := s.nodeRefs.set id 0 }, id)
    | [] =>
      let id := s.stringIDs.length
      ({ s with
          nodeIDs := s.nodeIDs.insert node id
          stringIDs := s.stringIDs ++ [node]
          cv := grow s.cv id
          nodeRefs := grow s.nodeRefs id }, id)

def retain (id : Nat) : State :=
  let refs := grow s.nodeRefs id
  { s with nodeRefs := refs.set id (slot refs id + 1) }

def release (id : Nat) : State := { s with nodeRefs := s.nodeRefs.set id (slot s.nodeRefs id - 1) }

def nodeString (id : Nat) : Bytes := s.stringIDs.getD id []

def newState (localNodeID : Bytes) : State :=
  let (s, id) := internNode {} localNodeID
  { s with localNode := id }

structure ConcurrentKey where
  priority : UInt32
  hash : UInt64
  deriving DecidableEq, Repr

def winnerKey (e : Entry) : ConcurrentKey := ⟨e.priority, fnv64a (e.name ++ s.nodeString e.node)⟩

/-- `>0` if `a` outranks `b`, `<0` if `b` outranks `a`. -/
def concurrentKeyCmp (a b : ConcurrentKey) : Int :=
  if a.priority > b.priority then 1
  else if a.priority < b.priority then -1
  else if a.hash > b.hash then 1
  else if a.hash < b.hash then -1
  else 0

def outranks (e e' : Entry) : Bool := decide (concurrentKeyCmp (s.winnerKey e) (s.winnerKey e') > 0)

/-- The body of `winnerOf`'s loop, on the best live dot and the best tombstone so far. -/
def winnerStep (best : Option Entry × Option Entry) (e : Entry) : Option Entry × Option Entry :=
  if e.deleted then (best.1, offer s.outranks best.2 e) else (offer s.outranks best.1 e, best.2)

/-- The visible entry of a record whose dots the map yields in the order `dots`. -/
def winnerOf (dots : List Entry) : Option Entry :=
  let (live, tomb) := dots.foldl s.winnerStep (none, none)
  match live with
  | some e => some e
  | none => tomb

variable (name : Bytes)

def dots : NameRecord := (s.entries.lookup name).getD ∅

def dot (id : Nat) : Option Entry := (s.dots name).lookup id

def winner : Option Entry := s.winnerOf (s.dots name).values

/-- What `Lookup` answers when the map yields the dots in the order `dots`. -/
def lookupIn (dots : List Entry) : Option PID :=
  match s.winnerOf dots with
  | some w => if w.deleted then none else some w.pid
  | none => none

def lookup : Option PID := s.lookupIn (s.dots name).values

def allDots : List Entry := s.entries.values.flatMap Map.values

def adjustCounts (prev next : Option Entry) : State :=
  let prevLive := prev.any fun e => !e.deleted
  let prevTomb := prev.any Entry.deleted
  let nextLive := next.any fun e => !e.deleted
  let nextTomb := next.any Entry.deleted
  { s with
    live := s.live + (if !prevLive && nextLive then 1 else 0) - (if prevLive && !nextLive then 1 else 0)
    tombstone := s.tombstone + (if !prevTomb && nextTomb then 1 else 0) - (if prevTomb && !nextTomb then 1 else 0) }

/-- The next local counter, above the last one and above `cv` of the local origin unless it wraps. -/
def nextCounter : State × UInt64 :=
  let seen := slot s.cv s.localNode
  let next := s.localCounter + 1
  let next := if seen ≥ next then seen + 1 else next
  ({ s with localCounter := next }, next)

def bumpCV (node : Nat) (counter : UInt64) : State :=
  let cv := grow s.cv node
  { s with cv := if counter > slot cv node then cv.set node counter else cv }

def setDot (e : Entry) : State :=
  let had := ((s.dots e.name).lookup e.node).isSome
  let s := { s with entries := s.entries.insert e.name ((s.dots e.name).insert e.node e) }
  if had then s else s.retain e.node

def install (e : Entry) : State :=
  let prev := s.winner e.name
  let s := (s.setDot e).bumpCV e.node e.counter
  s.adjustCounts prev (s.winner e.name)

structure RegisterResult where
  entry : Entry
  winner : Option Entry
  lost : Option LostBinding := none
  won : Bool := false
  deriving DecidableEq, Repr

/-- A local registration: refused while another pid of this node holds the name, otherwise a fresh dot that
    becomes the winner or loses to another origin. -/
def register (p : PID) (wallMs : Int64) (priority : UInt32) : State × RegisterResult :=
  match ((s.dots name).lookup s.localNode).filter fun cur => !cur.deleted && cur.pid != p with
  | some cur => (s, { entry := cur, winner := s.winner name })
  | none =>
    let (s, counter) := s.nextCounter
    let e : Entry := { pid := p, name, node := s.localNode, counter, wall := wallMs, priority }
    let s := s.install e
    let s := { s with claims := s.claims ++ [(name, p)] }
    let winner := s.winner name
    let won := winner == some e
    let lost := if won then none else some { name, pid := p, node := s.localNode, counter }
    (s, { entry := e, winner, lost, won })

def unregister (wallMs : Int64) : State × Option Entry :=
  match ((s.dots name).lookup s.localNode).filter fun cur => !cur.deleted with
  | none => (s, none)
  | some cur =>
    let (s, counter) := s.nextCounter
    let e : Entry :=
      { name, node := s.localNode, counter, wall := wallMs, priority := cur.priority, deleted := true }
    (s.install e, some e)

/-- Whether a dot of the local origin was minted by an earlier run of this node; `cur` is the local dot. -/
def priorIncarnation (cur : Option Entry) (e : Entry) : Bool :=
  match cur with
  | none => !e.deleted
  | some cur =>
    if e.counter > cur.counter then !e.deleted || !cur.deleted
    else if e.counter = cur.counter then !e.deleted && !cur.deleted && e.pid != cur.pid
    else false

/-- Refuse a dot of an earlier run: mint the local dot again above it, or a tombstone where there is none. -/
def supersede (e : Entry) : State × Entry :=
  let cur := (s.dots e.name).lookup s.localNode
  let s := s.bumpCV s.localNode e.counter
  let (s, counter) := s.nextCounter
  let minted : Entry :=
    match cur with
    | some cur => { cur with counter }
    | none => { name := e.name, node := s.localNode, counter, wall := e.wall, priority := e.priority, deleted := true }
  (s.install minted, minted)

def mergeOutcome (cur : Option Entry) (e : Entry) : MergeOutcome :=
  match cur with
  | none => .applied
  | some cur =>
    if e.counter > cur.counter then .applied
    else if e.counter < cur.counter then .noop
    else if e.deleted && !cur.deleted then .deleteWins
    else .noop

def lostBinding (prev next : Option Entry) : Option LostBinding :=
  match prev, next with
  | some prev, some next =>
    if prev.node = s.localNode ∧ prev.deleted = false ∧ next.node ≠ s.localNode then
      some { name := prev.name, pid := prev.pid, node := prev.node, counter := prev.counter }
    else none
  | _, _ => none

/-- Merge a remote dot: the outcome, the dot to forward and the local binding that lost its name. -/
def apply (e : Entry) : State × MergeOutcome × Option Entry × Option LostBinding :=
  if e.node = s.localNode ∧ priorIncarnation ((s.dots e.name).lookup s.localNode) e then
    let (s, minted) := s.supersede e
    (s, .superseded, some minted, none)
  else
    let outcome := mergeOutcome ((s.dots e.name).lookup e.node) e
    if outcome = .noop then (s, .noop, none, none)
    else
      let prev := s.winner e.name
      let s := s.install e
      let lost := s.lostBinding prev (s.winner e.name)
      (s, if lost.isSome ∧ outcome = .applied then .conflictResolved else outcome, some e, lost)

def receive (d : Delta) : State × MergeOutcome × Option Entry × Option LostBinding :=
  let (s, id) := s.internNode d.origin
  s.apply (d.entry id)

def delta (e : Entry) : Delta := e.withOrigin (s.nodeString e.node)

/-! ### Departed nodes and collection -/

def updateRecords (f : NameRecord → NameRecord) : State :=
  let s := s.entries.values.foldl (fun t r => t.adjustCounts (s.winnerOf r.values) (s.winnerOf (f r).values)) s
  { s with entries := s.entries.mapVal fun _ => f }

def departing (departed : Bytes) (e : Entry) : Bool := !e.deleted && e.pid.node == departed

def reaped (departed : Bytes) (e : Entry) : Entry := if departing departed e then e.buried else e

def reapNode (departed : Bytes) : State × List Entry :=
  (s.updateRecords fun r => r.mapVal fun _ e => reaped departed e,
    (s.allDots.filter (departing departed)).map Entry.buried)

def safeTomb (safeByNode : List UInt64) (e : Entry) : Bool :=
  e.deleted && decide (e.node < safeByNode.length) && decide (e.counter ≤ slot safeByNode e.node)

def agedTomb (nowMs wallFloorMs : Int64) (e : Entry) : Bool :=
  e.deleted && decide (wallFloorMs > 0) && decide (nowMs - e.wall > wallFloorMs)

def reapable (safeByNode : List UInt64) (nowMs wallFloorMs : Int64) (e : Entry) : Bool :=
  safeTomb safeByNode e || agedTomb nowMs wallFloorMs e

def releaseAll (es : List Entry) : State := es.foldl (fun s e => s.release e.node) s

def reapTombstones (safeByNode : List UInt64) (nowMs wallFloorMs : Int64) : State × Nat × Nat :=
  let dropped := s.allDots.filter (reapable safeByNode nowMs wallFloorMs)
  let safe := dropped.filter (safeTomb safeByNode)
  let s := s.releaseAll dropped
  let s := s.updateRecords fun r => r.keep fun _ e => !reapable safeByNode nowMs wallFloorMs e
  ({ s with entries := s.entries.keep fun _ r => !r.entries.isEmpty }, safe.length, dropped.length - safe.length)

def reclaimable (alive : List Bytes) (id : Nat) : Bool :=
  decide (id ≠ s.localNode) && decide (s.nodeString id ≠ []) && slot s.nodeRefs id == 0 &&
    !alive.contains (s.nodeString id)

def reclaimNode (id : Nat) : State :=
  { s with
    nodeIDs := s.nodeIDs.erase (s.nodeString id)
    stringIDs := s.stringIDs.set id []
    cv := s.cv.set id 0
    freeIDs := id :: s.freeIDs }

def reclaimUnreferencedNodes (alive : List Bytes) : State × Nat :=
  (List.range s.stringIDs.length).foldl
    (fun (s, reclaimed) id => if s.reclaimable alive id then (s.reclaimNode id, reclaimed + 1)
      else (s, reclaimed)) (s, 0)

inductive Op
  | intern (node : Bytes)
  | apply (e : Entry)
  | register (name : Bytes) (p : PID) (wallMs : Int64) (priority : UInt32)
  | unregister (name : Bytes) (wallMs : Int64)
  | reapNode (departed : Bytes)
  | reapTombstones (safeByNode : List UInt64) (nowMs wallFloorMs : Int64)
  | reclaim (alive : List Bytes)

def step : Op → State
  | .intern node => (s.internNode node).1
  | .apply e => (s.apply e).1
  | .register name p wallMs priority => (s.register name p wallMs priority).1
  | .unregister name wallMs => (s.unregister name wallMs).1
  | .reapNode departed => (s.reapNode departed).1
  | .reapTombstones safeByNode nowMs wallFloorMs => (s.reapTombstones safeByNode nowMs wallFloorMs).1
  | .reclaim alive => (s.reclaimUnreferencedNodes alive).1

end State
end Wippy.Eventual
