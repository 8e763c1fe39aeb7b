import Wippy.Registry.Entry

/-! The in-memory queue driver and its consumers, `service/queue/memory/driver.go` and
    `service/queue/consumer/consumer.go`.

    A step is one communication or the settling of a delivery; what `select` chooses comes with it. The driver runs: its
    context is not cancelled and no queue is closed. Prefetch is at least 1 (`Config.Validate`). -/

namespace Wippy.Memory
open Lib

variable {M : Type}

structure Delivery (M : Type) where
  msg : M
  settled : Bool := false

/-- The goroutine that `Attach` starts. -/
inductive Forwarder (M : Type)
  | waiting
  | holding (msg : M)
  | gone

structure Consumer (M : Type) where
  prefetch : Nat
  concurrency : Nat
  /-- `consumerCtx` is done. -/
  canceled : Bool := false
  /-- `workerCtx` is done. -/
  workerCanceled : Bool := false
  forwarder : Forwarder M := .waiting
  deliveries : List M := []
  /-- The deliveries inside `processDelivery`. -/
  busy : List (Delivery M) := []
  returned : Nat := 0

/-- A queue with its consumers, what was published to it and what was acknowledged. -/
structure Queue (M : Type) where
  maxLength : Nat
  messages : List M := []
  consumers : List (Consumer M) := []
  published : List M := []
  acked : List M := []

inductive Event (M : Type)
  | publish (msg : M)
  | attach (prefetch concurrency : Nat)
  /-- `Stop` cancels the attachment, then the workers; so does the context of the consumer. -/
  | cancel (i : Nat)
  | workerCancel (i : Nat)
  | take (i : Nat)
  | exit (i : Nat)
  | forward (i : Nat)
  | receive (i : Nat)
  | workerReturn (i : Nat)
  /-- Delivery `j` is settled, by the handler or after it. -/
  | ack (i j : Nat)
  /-- `sent` is the choice of `select` when the context is done and the queue has room. -/
  | nack (i j : Nat) (ctxDone sent : Bool)
  | finish (i j : Nat)

namespace Queue
variable (q : Queue M)

def full : Bool := q.maxLength ≤ q.messages.length

/-- `requeue`; nobody sees its error but the log. -/
def requeue (msg : M) (ctxDone sent : Bool) : Queue M :=
  if q.full || (ctxDone && !sent) then q else { q with messages := q.messages ++ [msg] }

def withConsumer (i : Nat) (f : Consumer M → Queue M) : Queue M := (q.consumers[i]?).elim q f

def put (i : Nat) (c : Consumer M) : Queue M := { q with consumers := q.consumers.set i c }

def markSettled (i j : Nat) (f : Queue M → M → Queue M) : Queue M :=
  q.withConsumer i fun c => (c.busy[j]?).elim q fun d =>
    if d.settled then q else f (q.put i { c with busy := c.busy.set j { d with settled := true } }) d.msg

def idle (c : Consumer M) : Bool := c.busy.length + c.returned < c.concurrency

def take (i : Nat) (c : Consumer M) : Queue M :=
  match c.forwarder, q.messages with
  | .waiting, msg :: messages => { q with messages }.put i { c with forwarder := .holding msg }
  | _, _ => q

def forward (i : Nat) (c : Consumer M) : Queue M :=
  match c.forwarder with
  | .holding msg =>
    if c.deliveries.length < c.prefetch then
      q.put i { c with forwarder := .waiting, deliveries := c.deliveries ++ [msg] }
    else q
  | _ => q

def receive (i : Nat) (c : Consumer M) : Queue M :=
  match c.deliveries with
  | msg :: deliveries => if idle c then q.put i { c with deliveries, busy := c.busy ++ [{ msg }] } else q
  | [] => q

def step : Event M → Queue M
  | .publish msg =>
    if q.full then q else { q with messages := q.messages ++ [msg], published := q.published ++ [msg] }
  | .attach prefetch concurrency => { q with consumers := q.consumers ++ [{ prefetch, concurrency }] }
  | .cancel i => q.withConsumer i fun c => q.put i { c with canceled := true }
  | .workerCancel i => q.withConsumer i fun c => q.put i { c with workerCanceled := true }
  | .take i => q.withConsumer i (q.take i)
  | .exit i => q.withConsumer i fun c => if c.canceled then q.put i { c with forwarder := .gone } else q
  | .forward i => q.withConsumer i (q.forward i)
  | .receive i => q.withConsumer i (q.receive i)
  | .workerReturn i => q.withConsumer i fun c =>
    if c.workerCanceled && idle c then q.put i { c with returned := c.returned + 1 } else q
  | .ack i j => q.markSettled i j fun q msg => { q with acked := q.acked ++ [msg] }
  | .nack i j ctxDone sent => q.markSettled i j fun q msg => q.requeue msg ctxDone sent
  | .finish i j => q.withConsumer i fun c => (c.busy[j]?).elim q fun d =>
    if d.settled then q.put i { c with busy := c.busy.eraseIdx j } else q

end Queue

abbrev Driver (M : Type) := Map Registry.ID (Queue M)

inductive Call (M : Type)
  | declareQueue (queueID : Registry.ID) (maxLength : Nat)
  | on (queueID : Registry.ID) (e : Event M)

/-- A queue that is declared again keeps its messages; an unknown queue is an error. -/
def Driver.step (d : Driver M) : Call M → Driver M
  | .declareQueue queueID maxLength => if (d.lookup queueID).isSome then d else d.insert queueID { maxLength }
  | .on queueID e => (d.lookup queueID).elim d fun q => d.insert queueID (q.step e)

end Wippy.Memory
