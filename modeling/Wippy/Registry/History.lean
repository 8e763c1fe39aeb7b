import Wippy.Registry.Entry

/-! The version history of the registry, `system/registry/history/memory/memory.go`. The stores on databases keep the
    same contract. Version 0 is the root, which every history has and which changes nothing.

    A version is known by its number: its ancestors are those that the history stores for it. -/

namespace Wippy.Registry

structure VersionRecord where
  id : Nat
  parent : Nat
  changes : ChangeSet
  deriving DecidableEq, Repr

structure Storage where
  records : List VersionRecord := []
  head : Option Nat := none
  deriving DecidableEq, Repr

inductive HistoryError
  | versionExists (id : Nat)
  | versionNotFound (id : Nat)
  | headChanged (expected : Nat)
  deriving DecidableEq, Repr

namespace Storage
variable (s : Storage)

def getVersion (id : Nat) : Bool := decide (id = 0) || s.records.any fun rec => decide (rec.id = id)

def maxVersionID : Nat := s.records.foldl (fun maxID rec => max maxID rec.id) 0

def headMatchesParent (version : Nat) : Bool := decide (s.head.getD 0 = version)

def save (id parent : Nat) (changes : ChangeSet) : Except HistoryError Storage :=
  if s.getVersion id then .error (.versionExists id)
  else if !s.getVersion parent then .error (.versionNotFound parent)
  else if !s.headMatchesParent parent then .error (.headChanged parent)
  else .ok { records := ⟨id, parent, changes⟩ :: s.records, head := some id }

def compareAndSetHead (expected target : Nat) : Except HistoryError Storage :=
  if !s.getVersion target then .error (.versionNotFound target)
  else if !s.headMatchesParent expected then .error (.headChanged expected)
  else .ok { s with head := some target }

/-- The changes of the versions from the root to a version; an ancestor was stored before its descendants. -/
def lineage : List VersionRecord → Nat → Option (List ChangeSet)
  | [], version => if version = 0 then some [] else none
  | rec :: older, version =>
    if version = 0 then some []
    else if rec.id = version then (lineage older rec.parent).map (· ++ [rec.changes])
    else lineage older version

def replayChanges (target : Nat) : Option (List ChangeSet) := lineage s.records target

end Storage
end Wippy.Registry
