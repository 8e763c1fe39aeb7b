import Wippy.Lib.Kahn
import Wippy.Registry.Topology.DepIndex

/-! The order of the operations of a changeset, `system/registry/topology/sort_changeset.go`, with the level sort of
    `sort.go` and `internal/graph`. -/

namespace Wippy.Registry.Topology
open Lib

variable (resolver : Resolver)

/-! ### Entries by levels of their dependencies -/

/-- The text of an ID as a graph node, by which the nodes of a level are ordered first. -/
def nodeKey (id : ID) : Bytes := 123 :: id.ns ++ 32 :: id.name ++ 32 :: id.string ++ [125]

/-- The nodes of one level: by their node text, then by the string of their ID. -/
def sortLevel (level : List ID) : List ID :=
  (level.insertionSort fun a b => leBytes (nodeKey a) (nodeKey b) = true).insertionSort
    fun a b => leBytes a.string b.string = true

/-- Levels of nodes such that the dependencies of each node are in earlier levels; `none` on a cycle. -/
def dependencyLevels (deps : ID → List ID) : Nat → List ID → Option (List (List ID))
  | 0, remaining => if remaining = [] then some [] else none
  | fuel + 1, remaining =>
    if remaining = [] then some []
    else
      let free := fun id => (deps id).all fun dep => !remaining.contains dep
      if remaining.filter free = [] then none
      else (dependencyLevels deps fuel (remaining.filter fun id => !free id)).map
        (sortLevel (remaining.filter free) :: ·)

def sortByString (entries : List Entry) : List Entry :=
  entries.insertionSort fun a b => leBytes a.id.string b.id.string = true

def sortEntriesByDependency (entries : List Entry) : Option (List Entry) :=
  let entryMap := newStateMap entries
  (dependencyLevels (resolveDependencies resolver entryMap) entryMap.entries.length (entryMap.entries.map Entry.id)).map
    fun levels => levels.flatten.filterMap entryMap.get

def sortEntriesWithFallback (entries : List Entry) : List Entry :=
  (sortEntriesByDependency resolver entries).getD (sortByString entries)

/-- The order of the kinds is that of their names, `entry.create`, `entry.delete` and `entry.update`. -/
def kindRank : OpKind → Nat
  | .create => 0
  | .delete => 1
  | .update => 2

def leOperation (a b : Operation) : Bool :=
  if a.id = b.id then decide (kindRank a.kind ≤ kindRank b.kind) else a.id.le b.id

def sortChangeSetInputForStableOrder (changeSet : ChangeSet) : ChangeSet :=
  changeSet.insertionSort fun a b => leOperation a b = true

def createUpdates (changeSet : ChangeSet) : ChangeSet := changeSet.filter fun op => decide (op.kind ≠ .delete)

def deletes (changeSet : ChangeSet) : ChangeSet := changeSet.filter fun op => decide (op.kind = .delete)

variable (fromState : State)

def providedVariables (index : Option DepIndex) (names : List Bytes) : Map ID Bytes :=
  match index with
  | some d => names.foldl
      (fun byID name => (idsAt d.variableNames name).foldl (fun byID id => byID.insert id name) byID) ∅
  | none => fromState.foldl (fun byID entry =>
      if envVariableName resolver entry ≠ [] && names.contains (envVariableName resolver entry) then
        byID.insert entry.id (envVariableName resolver entry)
      else byID) ∅

variable (changes : ChangeSet)

/-- The same after the changes: removals first, so that a replacement keeps its new declaration. -/
def changedVariables (names : List Bytes) (provided : Map ID Bytes) : Map ID Bytes :=
  (createUpdates changes).foldl (fun byID op =>
      if names.contains (envVariableName resolver op.entry) then byID.insert op.id (envVariableName resolver op.entry)
      else byID.erase op.id)
    ((deletes changes).foldl (fun byID op => byID.erase op.id) provided)

def environmentVariablesForChanges (index : Option DepIndex) (names : List Bytes) (name : Bytes) : List ID :=
  let byID := changedVariables resolver changes names (providedVariables resolver fromState index names)
  byID.keys.filter fun id => decide (byID.lookup id = some name)

def changedEntries : StateMap := newStateMap ((createUpdates changes).map Operation.entry)

def referencedNames : List Bytes :=
  (dependencyKeys resolver (changedEntries changes)).flatMap fun key => key.2.env

def dependencyUniverse (index : Option DepIndex) : List (ID × ID) :=
  visitDependencyKeys resolver (changedEntries changes) (dependencyKeys resolver (changedEntries changes))
    (if referencedNames resolver changes = [] then none
      else some (environmentVariablesForChanges resolver fromState changes index (referencedNames resolver changes)))

def sourceDependents (index : Option DepIndex) (id : ID) : List ID :=
  match index, (newStateMap fromState).get id with
  | some d, some entry => d.dependents resolver entry
  | _, _ => []

/-- Whether `a` has to come before `b`: a delete before the create of its ID, a create or update before the creates and
    updates that depend on it, and the update or delete of a dependent before the delete of what it depends on. -/
def constrained (index : Option DepIndex) (a b : Operation) : Bool :=
  (decide (a.kind = .delete) && decide (b.kind = .create) && decide (a.id = b.id)) ||
  (decide (a.kind ≠ .delete) && decide (b.kind ≠ .delete) &&
    decide ((b.id, a.id) ∈ dependencyUniverse resolver fromState changes index)) ||
  (decide (a.kind ≠ .create) && decide (b.kind = .delete) &&
    decide (a.id ∈ sourceDependents resolver fromState index b.id))

def constraints (index : Option DepIndex) (i j : Nat) : Bool :=
  match changes[i]?, changes[j]? with
  | some a, some b => decide (i ≠ j) && constrained resolver fromState changes index a b
  | _, _ => false

def replacementIDs : List ID :=
  ((deletes changes).map Operation.id).dedup.filter fun id =>
    changes.any fun op => decide (op.kind = .create) && decide (op.id = id)

/-- The replaced IDs with a dependent that the changeset neither updates nor deletes. -/
def blockedReplacementIDs (index : Option DepIndex) : List ID :=
  (replacementIDs changes).filter fun id =>
    (sourceDependents resolver fromState index id).any fun dependent =>
      changes.all fun op => !(decide (op.id = dependent) && decide (op.kind ≠ .create))

def hasConstraintPath (next : Nat → List Nat) (target : Nat) : Nat → Nat → List Nat → Bool × List Nat
  | 0, _, seen => (false, seen)
  | fuel + 1, current, seen =>
    if current = target then (true, seen)
    else if seen.contains current then (false, seen)
    else (next current).foldl (fun found i =>
      if found.1 then found else hasConstraintPath next target fuel i found.2) (false, current :: seen)

/-- The replaced IDs with a path of constraints from their create back to their delete. -/
def unsatisfiableReplacementCycleIDs (before : Nat → Nat → Bool) : List ID :=
  let positions := List.range changes.length
  ((replacementIDs changes).filter fun id => positions.any fun i => positions.any fun j =>
    (match changes[i]?, changes[j]? with
      | some a, some b => decide (a.kind = .create) && decide (a.id = id) && decide (b.kind = .delete) &&
          decide (b.id = id)
      | _, _ => false) &&
    (hasConstraintPath (fun k => positions.filter (before k)) j (changes.length + 1) i []).1).insertionSort
    fun a b => leBytes a.string b.string = true

def mapBack (ops : ChangeSet) (sorted : List Entry) : ChangeSet :=
  sorted.filterMap fun entry => ops.find? fun op => op.id.equal entry.id

def sortCreateUpdateOperations (ops : ChangeSet) : ChangeSet :=
  mapBack ops (sortEntriesWithFallback resolver (ops.map Operation.entry))

/-- Deletes go against the order of the entries as the source state has them. -/
def sortDeleteOperations (ops : ChangeSet) : ChangeSet :=
  mapBack ops (sortEntriesWithFallback resolver
    (ops.map fun op => ((newStateMap fromState).get op.id).getD op.entry)).reverse

def fallbackSortChangeSet : ChangeSet :=
  sortCreateUpdateOperations resolver (createUpdates changes) ++
    sortDeleteOperations resolver fromState (deletes changes)

inductive SortError
  | replacementDependencyCycle (ids : List ID)
  deriving DecidableEq, Repr

/-- The positions of a changeset in an order that the constraints allow, and whether it has all of them. -/
def stableTopologicalOrder (count : Nat) (before : Nat → Nat → Bool) : List Nat × Bool := Kahn.topological before count

def sortChangeSetWithIndex (changeSet : ChangeSet) (index : Option DepIndex) : Except SortError ChangeSet :=
  let changes := sortChangeSetInputForStableOrder changeSet
  let before := constraints resolver fromState changes index
  let order := stableTopologicalOrder changes.length before
  if blockedReplacementIDs resolver fromState changes index ≠ [] then
    .error (.replacementDependencyCycle (blockedReplacementIDs resolver fromState changes index))
  else if order.2 then .ok (order.1.filterMap (changes[·]?))
  else if unsatisfiableReplacementCycleIDs changes before ≠ [] then
    .error (.replacementDependencyCycle (unsatisfiableReplacementCycleIDs changes before))
  else .ok (fallbackSortChangeSet resolver fromState changes)

def sortChangeSet (changeSet : ChangeSet) : Except SortError ChangeSet :=
  if deletes changeSet = [] then sortChangeSetWithIndex resolver fromState changeSet none
  else sortChangeSetWithIndex resolver fromState changeSet (some (DepIndex.buildDepIndex resolver fromState))

end Wippy.Registry.Topology
