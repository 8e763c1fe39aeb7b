import Wippy.Lib.ByteOrder
import Wippy.Lib.Keyed
import Wippy.Pid

/-! Registry entries and changes to them, `api/registry/id.go`, `api/registry/registry.go` and
    `system/registry/topology/state_map.go`.

    The cached string of an ID is the one that every constructor stores. Of the metadata of an entry only its groups and
    declared dependencies are read, and its data is opaque. -/

namespace Wippy.Registry
open Lib

structure ID where
  ns : Bytes
  name : Bytes
  deriving DecidableEq, Repr

namespace ID

/-- `namespace:name` -/
def string (id : ID) : Bytes := id.ns ++ 58 :: id.name

end ID

/-- Parse `namespace:name`; without a colon everything is the name. -/
def parseID (s : Bytes) : ID :=
  match cutByte 58 s with
  | some (ns, name) => ⟨ns, name⟩
  | none => ⟨[], s⟩

namespace ID

/-- An ID without a namespace whose name has a colon is another spelling of the parsed name. -/
def canonical (id : ID) : ID := if id.ns = [] then parseID id.name else id

def equal (id other : ID) : Bool := decide (id.canonical = other.canonical)

end ID

structure EntryMetadata where
  owner : Bytes := []
  root : Bool := false
  deriving DecidableEq, Repr

structure Entry where
  id : ID
  kind : Bytes
  groups : List Bytes := []
  dependsOn : List Bytes := []
  data : Bytes := []
  registry : EntryMetadata := {}
  deriving DecidableEq, Repr

inductive OpKind
  | create
  | update
  | delete
  deriving DecidableEq, Repr

structure Operation where
  kind : OpKind
  entry : Entry
  originalEntry : Option Entry := none
  deriving DecidableEq, Repr

abbrev Operation.id (op : Operation) : ID := op.entry.id

abbrev ChangeSet := List Operation

abbrev State := List Entry

abbrev StateMap := Keyed Entry.id

def newStateMap (state : State) : StateMap := Keyed.ofList state

def ID.le (a b : ID) : Bool := if a.ns = b.ns then leBytes a.name b.name else leBytes a.ns b.ns

def stateMapToSlice (sm : StateMap) : State := sm.entries.insertionSort fun a b => a.id.le b.id = true

/-- The identity by which two entries of one state are duplicates: white space around the parts does not count. -/
def ID.identity (id : ID) : ID :=
  let split := if trimSpace id.ns = [] && id.name.contains 58 && decide (parseID id.name ≠ ⟨[], []⟩) then
    parseID id.name else id
  ⟨trimSpace split.ns, trimSpace split.name⟩

def firstDuplicate (seen : List ID) : State → Option ID
  | [] => none
  | entry :: state =>
    if seen.contains entry.id.identity then some entry.id.identity
    else firstDuplicate (entry.id.identity :: seen) state

def firstDuplicateID (state : State) : Option ID := firstDuplicate [] state

/-! ### Operations on a state -/

inductive OperationError
  | entryExists (id : ID)
  | entryNotExists (id : ID)
  | kindChange (id : ID) (fromKind toKind : Bytes)
  | deleteNonExistent (id : ID)
  deriving DecidableEq, Repr

variable (state : StateMap)

def validateOperation (op : Operation) : Except OperationError Unit :=
  match op.kind, state.get op.id with
  | .create, some _ => .error (.entryExists op.id)
  | .create, none => .ok ()
  | .update, none => .error (.entryNotExists op.id)
  | .update, some existing =>
    if existing.kind ≠ op.entry.kind then .error (.kindChange op.id existing.kind op.entry.kind) else .ok ()
  | .delete, none => .error (.deleteNonExistent op.id)
  | .delete, some _ => .ok ()

def applyValidatedOperation (op : Operation) : StateMap :=
  match op.kind with
  | .create | .update => state.put op.entry
  | .delete => state.del op.id

def applyOperation (op : Operation) : Except OperationError StateMap :=
  match validateOperation state op with
  | .error err => .error err
  | .ok () => .ok (applyValidatedOperation state op)

def applyOperations (ops : ChangeSet) : Except OperationError StateMap := ops.foldlM applyOperation state

end Wippy.Registry
