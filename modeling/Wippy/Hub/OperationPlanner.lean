import Mathlib.Data.Finset.Insert
import Wippy.Registry.Topology.Dependencies

/-! The planner of the operations by which modules come and go, `boot/deps/hub/operation_planner.go`.

    Entries are kept under their `idKey`. The order in which a map is ranged over is a parameter. Of a resolver, which
    may be missing, only the references that it finds in an entry are read. -/

namespace Wippy.Hub
open Lib Registry Registry.Topology

/-- `namespace:name` without the white space around the parts, from any spelling of an ID. -/
def idKey (id : ID) : Bytes :=
  let joined (parsed : ID) : Bytes := trimSpace parsed.ns ++ 58 :: trimSpace parsed.name
  let named (parsed : ID) : Bool := parsed.ns ≠ [] || parsed.name ≠ []
  let name := trimSpace id.name
  if trimSpace id.ns = [] && name.contains 58 && named (parseID name) then joined (parseID name)
  else
    let s := trimSpace id.string
    let s := if s.head? = some 58 && s.tail.contains 58 then s.tail else s
    if s ≠ [] && named (parseID s) then joined (parseID s)
    else if named id then joined id
    else trimSpace id.string

def idsEqual (a b : ID) : Bool := idKey a = idKey b || trimSpace a.string = trimSpace b.string

def entriesEqual (a b : Entry) : Bool :=
  idsEqual a.id b.id && a.kind = b.kind && a.registry = b.registry && a.groups = b.groups &&
    a.dependsOn = b.dependsOn && a.data = b.data

abbrev entryModule (entry : Entry) : Bytes := entry.registry.owner

structure OperationPlanOptions where
  controlledModules : Option (List Bytes) := none
  mutableModules : Option (List Bytes) := none
  originalKey : Bytes := []

inductive PlanError
  | entryConflict (id existing desired : Bytes)
  /-- An entry cannot be recreated: a live dependent that is not desired, or the target of the original operation. -/
  | liveDependent (id : Bytes)
  | originalTarget (id : Bytes)
  deriving DecidableEq, Repr

abbrev Entries := Keyed fun entry : Entry => idKey entry.id

def byID (entries : List Entry) : Entries := Keyed.ofList entries

/-- The entries in an order of iteration; a list that is not one of their orders counts as the order of insertion. -/
def Entries.inOrder (entries : Entries) (order : List Entry) : List Entry :=
  if order.isPerm entries.entries then order else entries.entries

def missingDesiredEntryWillBeDeleted (entry : Entry) (controlledModules : Option (List Bytes)) : Bool :=
  entryModule entry ≠ [] && controlledModules.all fun modules => modules.contains (entryModule entry)

structure DependencyEntryUniverseView where
  groups : Bytes → List ID
  ns : Bytes → List ID

def dependencyEntryUniverse (entrySets : List Entries) : DependencyEntryUniverseView where
  groups group := ((entrySets.flatMap (·.entries)).filter fun entry => entry.groups.contains group).map Entry.id
  ns ns := ((entrySets.flatMap (·.entries)).filter fun entry => entry.id.ns ≠ [] && entry.id.ns = ns).map Entry.id

variable (extract : Entry → List Bytes) (view : DependencyEntryUniverseView)

/-- The entries that an entry refers to. -/
def mentioned (entry : Entry) : List ID :=
  (entry.dependsOn ++ extract entry).flatMap fun dep =>
    match parseDependency dep with
    | .direct value => [resolveDependencyID entry.id.ns value]
    | .group value => view.groups value
    | .ns value => view.ns value

def entryDependsOn (target : ID) (entry : Entry) : Bool := (mentioned extract view entry).any fun id => id = target

def entryDependsOnSet (targets : Finset Bytes) (entry : Entry) : Bool :=
  (mentioned extract view entry).any fun id => idKey id ∈ targets

section
variable (resolver : Option (Entry → List Bytes)) (opts : OperationPlanOptions) (currentByID desiredByID : Entries)

/-- The entry whose references count for a current one: what is desired in its place, or itself unless it will be
    deleted. -/
def lookedAt (current : Entry) : Option Entry :=
  match desiredByID.get (idKey current.id) with
  | some desired => some desired
  | none => if missingDesiredEntryWillBeDeleted current opts.controlledModules then none else some current

def hasLiveDependent (target : ID) : Bool :=
  match resolver with
  | none => false
  | some extract =>
    currentByID.entries.any fun current =>
      idKey current.id ≠ idKey target &&
        (lookedAt opts desiredByID current).any (entryDependsOn extract (dependencyEntryUniverse [currentByID]) target)

/-! ### Changes of kind -/

/-- One entry of a round of `kindReplacementClosure`. -/
def closeEntry (extract : Entry → List Bytes) (recreate : Finset Bytes) (current : Entry) :
    Except PlanError (Finset Bytes) :=
  if idKey current.id ∈ recreate || !(lookedAt opts desiredByID current).any
      (entryDependsOnSet extract (dependencyEntryUniverse [currentByID, desiredByID]) recreate) then .ok recreate
  else if (desiredByID.get (idKey current.id)).isNone then .error (.liveDependent current.id.string)
  else if idKey current.id = opts.originalKey then .error (.originalTarget current.id.string)
  else .ok (insert (idKey current.id) recreate)

/-- The rounds, until one changes nothing; each before it adds the key of a current entry. -/
def closeRounds (extract : Entry → List Bytes) (orders : Nat → List Entry) :
    Nat → Finset Bytes → Except PlanError (Finset Bytes)
  | 0, recreate => .ok recreate
  | fuel + 1, recreate => do
    let next ← (currentByID.inOrder (orders fuel)).foldlM (closeEntry opts currentByID desiredByID extract) recreate
    if next = recreate then .ok recreate else closeRounds extract orders fuel next

def kindChanged : Finset Bytes :=
  ((currentByID.entries.filter fun current =>
    (desiredByID.get (idKey current.id)).any fun desired => current.kind ≠ desired.kind).map
      fun current => idKey current.id).toFinset

def kindReplacementClosure (orders : Nat → List Entry) : Except PlanError (Finset Bytes) :=
  match resolver with
  | none => .ok (kindChanged currentByID desiredByID)
  | some extract =>
    if kindChanged currentByID desiredByID = ∅ then .ok ∅
    else closeRounds opts currentByID desiredByID extract orders (currentByID.entries.length + 1)
      (kindChanged currentByID desiredByID)

def preserveImmutableResidentEntry (existing desired : Entry) : Bool :=
  opts.mutableModules.any fun modules =>
    existing.registry = desired.registry && entryModule desired ≠ [] && entryModule desired = entryModule existing &&
      !modules.contains (entryModule desired)

def entryConflict (existing desired : Entry) : Bool :=
  entryModule desired ≠ [] && (entryModule existing = [] || entryModule existing ≠ entryModule desired)

/-- The body of the loop over the desired entries. -/
def desiredOperations (recreate : Finset Bytes) (entry : Entry) : Except PlanError (List Operation) :=
  if idKey entry.id = opts.originalKey then .ok []
  else
    match currentByID.get (idKey entry.id) with
    | none => .ok [{ kind := .create, entry }]
    | some existing =>
      if entryConflict existing entry then
        .error (.entryConflict entry.id.string (entryModule existing) (entryModule entry))
      else if idKey entry.id ∈ recreate then .ok [{ kind := .delete, entry := existing }, { kind := .create, entry }]
      else if entriesEqual existing entry || preserveImmutableResidentEntry opts existing entry then .ok []
      else .ok [{ kind := .update, entry }]

def deletes (entry : Entry) : Bool :=
  idKey entry.id ≠ opts.originalKey && (desiredByID.get (idKey entry.id)).isNone &&
    missingDesiredEntryWillBeDeleted entry opts.controlledModules &&
      !hasLiveDependent resolver opts currentByID desiredByID entry.id

/-- The body of the loop over the current entries. -/
def currentOperations (entry : Entry) : List Operation :=
  if deletes resolver opts currentByID desiredByID entry then
    [{ kind := .delete, entry := { id := entry.id, kind := [] } }]
  else []

end

structure PlanOrders where
  desired : List Entry := []
  current : List Entry := []
  rounds : Nat → List Entry := fun _ => []

def plan (resolver : Option (Entry → List Bytes)) (orders : PlanOrders) (current desired : List Entry)
    (opts : OperationPlanOptions) : Except PlanError (List Operation) := do
  let recreate ← kindReplacementClosure resolver opts (byID current) (byID desired) orders.rounds
  let ops ← ((byID desired).inOrder orders.desired).foldlM
    (fun ops entry => do return ops ++ (← desiredOperations opts (byID current) recreate entry)) []
  return ops ++ ((byID current).inOrder orders.current).flatMap
    (currentOperations resolver opts (byID current) (byID desired))

end Wippy.Hub
