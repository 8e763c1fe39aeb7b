import Wippy.Kv.Raft.Fsm
import Wippy.Lib.RingBuffer

/-! The watch source that every kv backend publishes to, `system/kv/watch_source.go` and `watch_policy.go`.

    Each function that takes the source's mutex is one step, and so is each move of a subscription's worker. The order
    in which an event meets the subscriptions is an argument. -/

namespace Wippy.Kv.Raft
open Lib

inductive WatchErr
  | overflow
  | reset
  | closed
  | kvClosed
  | limit
  | ctxDone
  | invalidLimits
  | reconfigure
  deriving DecidableEq, Repr

structure WatchLimits where
  maxWatchers : Nat
  maxEvents : Nat
  maxBytes : Int
  deriving DecidableEq, Repr

def validWatchLimits (limits : WatchLimits) : Bool :=
  decide (limits.maxWatchers > 0) && decide (limits.maxEvents > 0) && decide (limits.maxBytes > 0)

def defaultWatchLimits : WatchLimits := { maxWatchers := 128, maxEvents := 256, maxBytes := 33554432 }

structure WatchItem where
  event : WatchRecord
  bytes : Int

instance : Inhabited WatchItem := ⟨{ event := { typ := .put, index := 0 }, bytes := 0 }⟩

inductive Worker
  | top
  | waiting
  | checking (item : WatchItem)
  | sending (item : WatchItem)
  | sent
  | cancelIdle
  | cancelHeld
  | dropping
  | exiting

/-- A subscription. History variables: `since`, how many events had been published when it was registered, and `handed`,
    the events it handed out. -/
structure Subscription where
  pfx : Bytes
  prefixBytes : Int
  owner : Option Nat
  queue : RingBuffer WatchItem
  flight : Option WatchItem := none
  active : Bool := true
  err : Option WatchErr := none
  notify : Bool := false
  ctxDone : Bool := false
  worker : Worker := .top
  since : Nat
  handed : List WatchRecord := []

/-- `watches` has the registered subscriptions under numbers never used again, `stopped` the owners that were stopped.
    History variables: `published`, and `retired`, the subscriptions whose worker has left. -/
structure WatchSource where
  limits : WatchLimits
  watches : Map Nat Subscription := ∅
  bytes : Int := 0
  active : Int := 0
  closed : Bool := false
  stopped : List Nat := []
  nextSub : Nat := 0
  published : List WatchRecord := []
  retired : List Subscription := []

def newWatchSource (limits : WatchLimits) : Except WatchErr WatchSource :=
  if validWatchLimits limits then .ok { limits } else .error .limit

def maxInt64 : Int := 9223372036854775807

variable (event : WatchRecord)

def eventKey : Option Bytes :=
  match event.current with
  | some e => some e.key
  | none => event.previous.map Entry.key

def watchEventMatches (pfx : Bytes) : Bool :=
  if pfx = [] then true else (eventKey event).any fun key => pfx.isPrefixOf key

def addSize (total : Option Int) (size : Nat) : Option Int :=
  total.bind fun total => if (size : Int) > maxInt64 - total then none else some (total + size)

def watchEventBytes : Option Int :=
  let sizes : List Nat := (event.current.toList ++ event.previous.toList).flatMap fun e =>
    [e.key.length, e.leaseID.length, e.value.length]
  sizes.foldl addSize (some 0)

def boolInt (b : Bool) : Nat := if b then 1 else 0

namespace WatchSource
variable (s : WatchSource)

def newSubscription (pfx : Bytes) (owner : Option Nat) : Subscription :=
  { pfx, prefixBytes := pfx.length, owner, queue := RingBuffer.ofSize s.limits.maxEvents, since := s.published.length }

def watch (pfx : Bytes) (owner : Option Nat) (ctxDone : Bool) : WatchSource × Except WatchErr Nat :=
  if ctxDone then (s, .error .ctxDone)
  else if s.closed then (s, .error .kvClosed)
  else if owner.any s.stopped.contains then (s, .error .kvClosed)
  else if s.watches.keys.length ≥ s.limits.maxWatchers then (s, .error .limit)
  else
    let prefixBytes : Int := pfx.length
    if prefixBytes > s.limits.maxBytes ∨ s.bytes > s.limits.maxBytes - prefixBytes then (s, .error .limit)
    else
      ({ s with
          watches := s.watches.insert s.nextSub (s.newSubscription pfx owner)
          active := s.active + 1
          bytes := s.bytes + prefixBytes
          nextSub := s.nextSub + 1 }, .ok s.nextSub)

def setLimits (limits : WatchLimits) : WatchSource × Except WatchErr Unit :=
  if !validWatchLimits limits then (s, .error .invalidLimits)
  else if s.closed then (s, .error .kvClosed)
  else if s.watches.keys.length ≠ 0 then (s, .error .reconfigure)
  else ({ s with limits }, .ok ())

variable (id : Nat)

def put (sub : Subscription) : WatchSource := { s with watches := s.watches.insert id sub }

/-- End a subscription: its queued items are given back, one in flight is not. -/
def invalidateLocked (reason : WatchErr) : WatchSource :=
  match s.watches.lookup id with
  | none => s
  | some sub =>
    if !sub.active then s
    else
      let bytes := sub.queue.contents.foldl (fun bytes item => bytes - item.bytes) s.bytes
      { s with active := s.active - 1, bytes }.put id
        { sub with active := false, err := some reason, queue := {} }

def nextItemLocked (sub : Subscription) (event : WatchRecord) (size : Int) : WatchSource :=
  { s with bytes := s.bytes + size }.put id
    { sub with queue := sub.queue.push { event, bytes := size }, notify := true }

def finishFlight (sub : Subscription) (next : Worker) : WatchSource :=
  match sub.flight with
  | some item => { s with bytes := s.bytes - item.bytes }.put id { sub with flight := none, worker := next }
  | none => s.put id { sub with worker := next }

/-- The body of the loop of `publishEventLocked`. -/
def publishTo (event : WatchRecord) (s : WatchSource) (id : Nat) : WatchSource :=
  match s.watches.lookup id with
  | none => s
  | some sub =>
    if !sub.active || !watchEventMatches event sub.pfx then s
    else if sub.queue.count + boolInt sub.flight.isSome ≥ s.limits.maxEvents then s.invalidateLocked id .overflow
    else
      match watchEventBytes event with
      | none => s.invalidateLocked id .overflow
      | some size =>
        if size > s.limits.maxBytes ∨ s.bytes > s.limits.maxBytes - size then s.invalidateLocked id .overflow
        else s.nextItemLocked id sub event size

def note (event : WatchRecord) : WatchSource := { s with published := s.published ++ [event] }

def publishEventLocked (event : WatchRecord) (order : List Nat) : WatchSource :=
  ((s.watches.keysIn order).foldl (publishTo event) s).note event

/-- Publish events, each with the order in which the subscriptions are walked for it. -/
def publish (events : List (WatchRecord × List Nat)) : WatchSource :=
  if s.closed ∨ s.active = 0 then events.foldl (fun s e => s.note e.1) s
  else events.foldl (fun s e => s.publishEventLocked e.1 e.2) s

/-- A subscription observes a record: the check of `publishRecords` on the record's key, empty without entries. -/
def observed (record : WatchRecord) : Bool :=
  s.watches.values.any fun sub => sub.active && sub.pfx.isPrefixOf ((eventKey record).getD [])

def publishRecords (records : List (WatchRecord × List Nat)) : WatchSource :=
  if s.closed ∨ s.active = 0 then records.foldl (fun s r => s.note r.1) s
  else records.foldl (fun s r => if s.observed r.1 then s.publishEventLocked r.1 r.2 else s.note r.1) s

/-! ### Ending subscriptions -/

def invalidateAll (which : Subscription → Bool) (reason : WatchErr) : WatchSource :=
  s.watches.keys.foldl
    (fun s id => if (s.watches.lookup id).any which then s.invalidateLocked id reason else s) s

def reset (s : WatchSource) : WatchSource := s.invalidateAll (fun _ => true) .reset

def close : WatchSource :=
  if s.closed then s else { s with closed := true }.invalidateAll Subscription.active .kvClosed

def stopOwner (owner : Nat) : WatchSource :=
  { s with stopped := if s.stopped.contains owner then s.stopped else owner :: s.stopped }.invalidateAll
    (fun sub => sub.active && decide (sub.owner = some owner)) .kvClosed

/-- The case that a select takes, if it is ready: the subscription's `done`, the context's, or its own channel (a
    notification, a reader of the events, or the default). -/
inductive Case
  | done
  | ctx
  | own

def take (sub : Subscription) : WatchSource :=
  if !sub.active || sub.queue.count == 0 then s.put id { sub with worker := .waiting }
  else
    let item := sub.queue.front
    s.put id { sub with queue := sub.queue.pop, flight := some item, worker := .checking item }

/-- The deferred part of `run`: the subscription is no longer registered. -/
def leave (sub : Subscription) : WatchSource :=
  { s with
    watches := s.watches.erase id
    bytes := s.bytes - sub.prefixBytes
    retired := sub :: s.retired }

/-- The cases of `done` and of the context, which every select of `run` has: where the worker goes. -/
def ended (sub : Subscription) (onDone onCtx : Worker) : Case → Option Worker
  | .done => if sub.active then none else some onDone
  | .ctx => if sub.ctxDone then some onCtx else none
  | .own => none

def moveOn (next : Worker) : WatchSource :=
  let s := s.invalidateLocked id .ctxDone
  match s.watches.lookup id with
  | none => s
  | some sub => s.put id { sub with worker := next }

/-- One step of the worker of a subscription. A select whose case is not ready stays where it is. -/
def work (select : Case) : WatchSource :=
  match s.watches.lookup id with
  | none => s
  | some sub =>
    match sub.worker with
    | .top => s.take id sub
    | .waiting =>
      match select with
      | .own => if sub.notify then s.put id { sub with notify := false, worker := .top } else s
      | select => s.put id { sub with worker := (ended sub .exiting .cancelIdle select).getD sub.worker }
    | .checking item =>
      match select with
      | .own => if sub.active && !sub.ctxDone then s.put id { sub with worker := .sending item } else s
      | select => s.put id { sub with worker := (ended sub .dropping .cancelHeld select).getD sub.worker }
    | .sending item =>
      match select with
      | .own => s.put id { sub with handed := sub.handed ++ [item.event], worker := .sent }
      | select => s.put id { sub with worker := (ended sub .dropping .cancelHeld select).getD sub.worker }
    | .sent => s.finishFlight id sub .top
    | .cancelIdle => s.moveOn id .exiting
    | .cancelHeld => s.moveOn id .dropping
    | .dropping => s.finishFlight id sub .exiting
    | .exiting => s.leave id sub

inductive Event
  | watch (pfx : Bytes) (owner : Option Nat) (ctxDone : Bool)
  | publish (events : List (WatchRecord × List Nat))
  | publishRecords (records : List (WatchRecord × List Nat))
  | invalidate (id : Nat) (reason : WatchErr)
  | reset
  | close
  | stopOwner (owner : Nat)
  | setLimits (limits : WatchLimits)
  | cancel (id : Nat)
  | work (id : Nat) (select : Case)

def handle : Event → WatchSource
  | .watch pfx owner ctxDone => (s.watch pfx owner ctxDone).1
  | .publish events => s.publish events
  | .publishRecords records => s.publishRecords records
  | .invalidate id reason => s.invalidateLocked id reason
  | .reset => s.reset
  | .close => s.close
  | .stopOwner owner => s.stopOwner owner
  | .setLimits limits => (s.setLimits limits).1
  | .cancel id =>
    match s.watches.lookup id with
    | none => s
    | some sub => s.put id { sub with ctxDone := true }
  | .work id select => s.work id select

def run (es : List Event) : WatchSource := es.foldl handle s

end WatchSource
end Wippy.Kv.Raft
