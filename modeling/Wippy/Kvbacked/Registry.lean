import Wippy.Lib.TxnStore
import Wippy.Pid

/-! The name registry on the kv, `system/topology/namereg/kvbacked/registry.go`.

    The kv is a store with atomic transactions. Its values are the records that the source encodes; decoding fails
    where the source refuses the record. A version is a natural number and never used again: what is proved holds of
    the kv, whose versions have 64 bits, as long as fewer than 2^64 operations are applied, as in
    `transactions_refine_store`. Every function is one transaction of the source, or what it submits after a read,
    which is an argument. -/

namespace Wippy.Kvbacked
open Lib

/-- `_sys:registry:` -/
def registryPrefix : Bytes := [95, 115, 121, 115, 58, 114, 101, 103, 105, 115, 116, 114, 121, 58]

/-- `active:` -/
def activePrefix : Bytes := registryPrefix ++ [97, 99, 116, 105, 118, 101, 58]

/-- `pidx:` -/
def pidxPrefix : Bytes := registryPrefix ++ [112, 105, 100, 120, 58]

/-- `nidx:` -/
def nidxPrefix : Bytes := registryPrefix ++ [110, 105, 100, 120, 58]

variable (name : Bytes)

def activeKey : Bytes := activePrefix ++ name

def pidIndexBase (p : PID) : Bytes := pidxPrefix ++ p.string ++ [58]

def nodeIndexBase (node : Bytes) : Bytes := nidxPrefix ++ node ++ [58]

def pidIndexKey (p : PID) (name : Bytes) : Bytes := pidIndexBase p ++ name

def nodeIndexKey (p : PID) (name : Bytes) : Bytes := nodeIndexBase p.node ++ p.string ++ [58] ++ name

/-- `pending:` -/
def pendingPrefix : Bytes := registryPrefix ++ [112, 101, 110, 100, 105, 110, 103, 58]

def pendingKey : Bytes := pendingPrefix ++ name

structure ActiveValue where
  pid : Bytes
  name : Bytes
  attemptID : Bytes := []
  requiredNodes : List Bytes := []
  strong : Bool := false
  deriving DecidableEq, Repr

structure IndexValue where
  pid : Bytes
  name : Bytes
  deriving DecidableEq, Repr

structure PendingHeader where
  pid : Bytes
  name : Bytes
  attemptID : Bytes
  nodeID : Bytes
  requiredNodes : List Bytes := []
  deadlineUnixNano : Int
  createdAt : Int
  deriving DecidableEq, Repr

inductive Reason
  | deadline
  | ownerConflict
  | unreserve
  deriving DecidableEq, Repr

structure TerminalResult where
  name : Bytes
  attemptID : Bytes
  reason : Reason
  missing : List Bytes
  epoch : Nat
  deriving DecidableEq, Repr

inductive Record
  | active (v : ActiveValue)
  | index (v : IndexValue)
  | pending (v : PendingHeader)
  | vote (node : Bytes)
  | result (v : TerminalResult)
  deriving DecidableEq, Repr

abbrev Store := TxnStore Bytes Record
abbrev Entry := Stored Record
abbrev Txn := List (TxnOp Bytes Record)

def decodeActive (r : Record) : Option ActiveValue :=
  match r with
  | .active v => if v.strong && v.attemptID.isEmpty then none else some v
  | _ => none

def decodeIndex (r : Record) : Option IndexValue :=
  match r with
  | .index v => some v
  | _ => none

def decodePending (r : Record) : Option PendingHeader :=
  match r with
  | .pending v => if v.attemptID.isEmpty then none else some v
  | _ => none

def ownerOf (s : Bytes) : Option PID := (parsePID s).toOption

/-! ### Registration at Consistent scope -/

/-- The transaction of `registerConsistent`. A pending Strong attempt blocks it. -/
def registerConsistent (p : PID) : Txn :=
  [.check .absent (pendingKey name),
    .put .absent (activeKey name) (.active { pid := p.string, name }),
    .put .any (pidIndexKey p name) (.index { pid := p.string, name }),
    .put .any (nodeIndexKey p name) (.index { pid := p.string, name })]

def swapOwner (expectVer : Nat) (old incoming : PID) : Txn :=
  [.check (.version expectVer) (activeKey name),
    .put .any (activeKey name) (.active { pid := incoming.string, name }),
    .delete .any (pidIndexKey old name),
    .delete .any (nodeIndexKey old name),
    .put .any (pidIndexKey incoming name) (.index { pid := incoming.string, name }),
    .put .any (nodeIndexKey incoming name) (.index { pid := incoming.string, name })]

/-- One turn of the loop of `resolveConflict` after it read the active record, and the pending one if there was no
    active record: the transaction it submits, if any. A Strong owner is never displaced. -/
def resolveConflict (resolve : Bytes → PID → PID → PID) (name : Bytes) (incoming : PID)
    (active pending : Option Entry) :
    Option Txn :=
  match active with
  | none => if pending.isSome then none else some (registerConsistent name incoming)
  | some e => do
    let av ← decodeActive e.value
    let existing ← ownerOf av.pid
    if existing.string = incoming.string then none
    else if av.strong then none
    else if (resolve name existing incoming).string = existing.string then none
    else some (swapOwner name e.version existing incoming)

/-- `UnregisterScope` at Consistent scope after it read the active record. -/
def unregisterScope (active : Option Entry) : Option Txn := do
  let e ← active
  let av ← decodeActive e.value
  let owner ← ownerOf av.pid
  some
    [.check (.version e.version) (activeKey name),
      .delete .any (activeKey name),
      .delete .any (pidIndexKey owner name),
      .delete .any (nodeIndexKey owner name)]

/-! ### Removal of a process or a node -/

structure Victim where
  p : PID
  name : Bytes
  deriving DecidableEq, Repr

def victimOf (r : Record) : Option Victim := do
  let iv ← decodeIndex r
  let p ← ownerOf iv.pid
  some { p, name := iv.name }

/-- The scan of `reap`: the bindings of the reverse-index keys under `base`. -/
def reap (s : Store) (base : Bytes) : List Victim :=
  s.entries.entries.filterMap fun x => if base.isPrefixOf x.1 then victimOf x.2.value else none

def remove (s : Store) (p : PID) : List Victim := reap s (pidIndexBase p)

def removeNode (s : Store) (nodeID : Bytes) : List Victim := reap s (nodeIndexBase nodeID)

def ownedVersion (p : PID) (active : Option Entry) : Option Nat := do
  let e ← active
  let av ← decodeActive e.value
  let owner ← ownerOf av.pid
  if owner.string = p.string then some e.version else none

/-- `deleteBinding` after it read the active record: the index keys go in any case, the record only under its
    version. -/
def deleteBinding (v : Victim) (active : Option Entry) : Txn :=
  [.delete .any (pidIndexKey v.p v.name), .delete .any (nodeIndexKey v.p v.name)] ++
    match ownedVersion v.p active with
    | some version => [.check (.version version) (activeKey v.name), .delete .any (activeKey v.name)]
    | none => []

end Wippy.Kvbacked
