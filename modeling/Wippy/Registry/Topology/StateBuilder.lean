import Wippy.Registry.Topology.SortChangeSet

/-! The difference of two states, `BuildDelta` of `system/registry/topology/state_builder.go`. -/

namespace Wippy.Registry.Topology
open Lib

structure StateBuilder where
  resolver : Resolver
  compare : Entry → Entry → Bool

inductive Side
  | target
  | source
  deriving DecidableEq, Repr

inductive DeltaError
  | duplicateEntryID (side : Side) (id : ID)
  | sort (err : SortError)
  deriving DecidableEq, Repr

namespace StateBuilder
variable (b : StateBuilder)

def deltaOperations (fromState toState : State) : ChangeSet :=
  fromState.filterMap (fun entry =>
    if ((newStateMap toState).get entry.id).isSome then none else some { kind := .delete, entry }) ++
  toState.filterMap fun entry =>
    match (newStateMap fromState).get entry.id with
    | none => some { kind := .create, entry }
    | some old => if b.compare old entry then none else some { kind := .update, entry }

def buildDelta (fromState toState : State) : Except DeltaError ChangeSet :=
  match firstDuplicateID toState, firstDuplicateID fromState with
  | some dup, _ => .error (.duplicateEntryID .target dup)
  | none, some dup => .error (.duplicateEntryID .source dup)
  | none, none => (sortChangeSet b.resolver fromState (b.deltaOperations fromState toState)).mapError .sort

end StateBuilder
end Wippy.Registry.Topology
