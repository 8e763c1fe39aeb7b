import Wippy.Registry.Topology.StateBuilder

/-! The runner that takes a registry from one state to another over the event bus,
    `system/registry/runner/bus_runner.go`.

    The answers to operations, to the begin and the commit of the transaction, and the cancellation of the context are
    an `Environment`, and any of them may be anything. -/

namespace Wippy.Registry
open Lib Wippy.Registry.Topology

/-- What the listener of an operation does: accept, reject with or without a `NotFound` in the error, or not answer; or
    the wait could not be prepared. -/
inductive Reply
  | accept
  | reject (notFound : Bool)
  | silent
  | unprepared
  deriving DecidableEq, Repr

/-- One attempt of an operation as the runner sees it: whether anything is subscribed to it, the reply, and whether the
    context is canceled afterwards. -/
structure Reaction where
  subscribed : Bool := true
  reply : Reply := .accept
  canceled : Bool := false
  deriving DecidableEq, Repr

inductive RunError
  | invalid (err : OperationError)
  | entryKindNotFound (id : ID)
  | applyChange (err : OperationError)
  | noListener (id : ID) (kind : Bytes)
  | awaitService
  | operationRejected (id : ID) (notFound : Bool)
  | operationCanceled (id : ID) (kind : Bytes)
  | eventHandlerTimeout (id : ID) (kind : Bytes)
  deriving DecidableEq, Repr

def OperationError.notFound : OperationError → Bool
  | .entryNotExists _ | .deleteNonExistent _ => true
  | .entryExists _ | .kindChange .. => false

/-- A failed operation is tried again after the rest of the pass when a `NotFound` is in the chain of its error. -/
def isDeferrable : RunError → Bool
  | .invalid err | .applyChange err => err.notFound
  | .entryKindNotFound _ => true
  | .operationRejected _ notFound => notFound
  | .noListener .. | .awaitService | .operationCanceled .. | .eventHandlerTimeout .. => false

structure BusRunner where
  builder : StateBuilder
  /-- The dispatch policy: internal operations are applied without an event. -/
  internal : Operation → Bool
  kindHandled : Bytes → Bool
  stateMapToSlice : StateMap → State
  stateMapToSlice_perm : ∀ sm, (stateMapToSlice sm).Perm sm.entries

inductive TransitionError
  | duplicateTransactionParticipant
  | txBegin
  | operation (err : RunError)
  | unresolvedDependencies (ids : List ID)
  | canceled
  | txCommit
  deriving DecidableEq, Repr

/-- What a transition does to the outside: forward and reverse operations with their errors, `abort` and the discarded
    transaction. -/
inductive Effect
  | operation (op : Operation) (err : Option RunError)
  | abort
  | reverse (op : Operation) (err : Option RunError)
  | txDiscard
  deriving DecidableEq, Repr

structure Environment where
  participantsDistinct : Bool := true
  beginAccepted : Bool := true
  forward : Nat → Reaction
  canceled : Bool := false
  commitAccepted : Bool := true
  reverse : Nat → Reaction

structure Progress where
  state : StateMap
  attempts : Nat := 0
  trace : List Effect := []

namespace Progress

def accepted (p : Progress) (op : Operation) (state : StateMap) : Progress :=
  ⟨state, p.attempts + 1, p.trace ++ [.operation op none]⟩

def failed (p : Progress) (op : Operation) (err : RunError) : Progress :=
  { p with attempts := p.attempts + 1, trace := p.trace ++ [.operation op (some err)] }

end Progress

inductive PassEnd
  | finished (deferred : ChangeSet) (progressed : Bool)
  | canceled
  | fatal (err : RunError)
  deriving DecidableEq, Repr

structure Outcome where
  state : State
  err : Option TransitionError
  trace : List Effect

namespace BusRunner
variable (br : BusRunner)

def hasListener (subscribed : Bool) (op : Operation) : Bool := subscribed && br.kindHandled op.entry.kind

variable (state : StateMap)

def resolveKind (op : Operation) : Option Operation :=
  if op.entry.kind = [] then
    (state.get op.id).map fun entry => { op with entry := { op.entry with kind := entry.kind } }
  else some op

def applyPrivateStateOperation (op : Operation) : Except RunError StateMap :=
  (Registry.applyOperation state op).mapError .applyChange

/-- Dispatch an operation whose kind is known, and apply it once its listener has accepted it. -/
def dispatchOperation (reaction : Reaction) (op : Operation) : Except RunError StateMap :=
  if br.internal op then applyPrivateStateOperation state op
  else if br.hasListener reaction.subscribed op then
    match reaction.reply with
    | .accept => applyPrivateStateOperation state op
    | .reject notFound => .error (.operationRejected op.id notFound)
    | .silent =>
      if reaction.canceled then .error (.operationCanceled op.id op.entry.kind)
      else .error (.eventHandlerTimeout op.id op.entry.kind)
    | .unprepared => .error .awaitService
  else .error (.noListener op.id op.entry.kind)

def applyOperation (reaction : Reaction) (op : Operation) : Except RunError StateMap :=
  match validateOperation state op with
  | .error err => .error (.invalid err)
  | .ok () =>
    match resolveKind state op with
    | none => .error (.entryKindNotFound op.id)
    | some op => br.dispatchOperation state reaction op

def pass (forward : Nat → Reaction) : ChangeSet → ChangeSet → Bool → Progress → PassEnd × Progress
  | [], deferred, progressed, p => (.finished deferred progressed, p)
  | op :: remaining, deferred, progressed, p =>
    match br.applyOperation p.state (forward p.attempts) op with
    | .ok state =>
      if (forward p.attempts).canceled then (.canceled, p.accepted op state)
      else pass forward remaining deferred true (p.accepted op state)
    | .error err =>
      if (forward p.attempts).canceled then (.canceled, p.failed op err)
      else if isDeferrable err then pass forward remaining (deferred ++ [op]) progressed (p.failed op err)
      else (.fatal err, p.failed op err)

/-- Passes over what the pass before deferred, while passes make progress; there are at most as many as operations. -/
def passes (forward : Nat → Reaction) : Nat → ChangeSet → Progress → Option TransitionError × Progress
  | 0, _, p => (none, p)
  | _, [], p => (none, p)
  | fuel + 1, remaining, p =>
    match br.pass forward remaining [] false p with
    | (.canceled, p) => (some .canceled, p)
    | (.fatal err, p) => (some (.operation err), p)
    | (.finished [] _, p) => (none, p)
    | (.finished deferred false, p) => (some (.unresolvedDependencies (deferred.map Operation.id)), p)
    | (.finished deferred true, p) => passes forward fuel deferred p

def reverseAll (reverse : Nat → Reaction) : ChangeSet → Progress → Progress
  | [], p => p
  | op :: delta, p =>
    match br.applyOperation p.state (reverse p.attempts) op with
    | .error err => reverseAll reverse delta
        { p with attempts := p.attempts + 1, trace := p.trace ++ [.reverse op (some err)] }
    | .ok state => reverseAll reverse delta ⟨state, p.attempts + 1, p.trace ++ [.reverse op none]⟩

def rollback (reverse : Nat → Reaction) (originalState currentState : StateMap) : Progress :=
  match br.builder.buildDelta (br.stateMapToSlice currentState) (br.stateMapToSlice originalState) with
  | .error _ => { state := currentState }
  | .ok delta => br.reverseAll reverse delta { state := currentState }

def cancelTransition (reverse : Nat → Reaction) (originalState : StateMap) (p : Progress) (err : TransitionError) :
    Outcome where
  state := br.stateMapToSlice (br.rollback reverse originalState p.state).state
  err := some err
  trace := p.trace ++ .abort :: (br.rollback reverse originalState p.state).trace ++ [.txDiscard]

def transition (initialState : State) (cs : ChangeSet) (env : Environment) : Outcome :=
  if !env.participantsDistinct then
    ⟨br.stateMapToSlice (newStateMap initialState), some .duplicateTransactionParticipant, [.abort]⟩
  else if !env.beginAccepted then ⟨br.stateMapToSlice (newStateMap initialState), some .txBegin, [.abort]⟩
  else
    match br.passes env.forward cs.length cs { state := newStateMap initialState } with
    | (some err, p) => br.cancelTransition env.reverse (newStateMap initialState) p err
    | (none, p) =>
      if env.canceled then br.cancelTransition env.reverse (newStateMap initialState) p .canceled
      else if !env.commitAccepted then br.cancelTransition env.reverse (newStateMap initialState) p .txCommit
      else ⟨br.stateMapToSlice p.state, none, p.trace⟩

end BusRunner
end Wippy.Registry
