import Wippy.Registry.Topology.Dependencies

/-! The index of dependents, `system/registry/topology/dep_index.go`.

    A map from keys to sets of IDs is the list of its pairs, in which only membership counts. -/

namespace Wippy.Registry.Topology
open Lib

structure DepIndex where
  direct : List (ID × ID) := []
  group : List (Bytes × ID) := []
  ns : List (Bytes × ID) := []
  env : List (Bytes × ID) := []
  envFallback : List (Bytes × ID) := []
  declared : Map ID Bytes := ∅
  variableNames : List (Bytes × ID) := []
  ownDeps : Map ID EntryDepKeys := ∅

section sets
variable {κ : Type} [DecidableEq κ]

variable (m : List (κ × ID))

def idsAt (key : κ) : List ID := (m.filter fun pair => decide (pair.1 = key)).map Prod.snd

def addID (keys : List κ) (id : ID) : List (κ × ID) := (keys.map fun key => (key, id)) ∪ m

def delID (keys : List κ) (id : ID) : List (κ × ID) :=
  m.filter fun pair => !(keys.map fun key => (key, id)).contains pair

end sets

namespace DepIndex

def remove (d : DepIndex) (id : ID) : DepIndex :=
  match d.ownDeps.lookup id with
  | none => d
  | some keys =>
    { direct := delID d.direct keys.direct id
      group := delID d.group keys.groups id
      ns := delID d.ns keys.ns id
      env := delID d.env keys.env id
      envFallback := delID d.envFallback (keys.env.map (environmentFallbackKey id.ns)) id
      declared := d.declared.erase id
      variableNames := delID d.variableNames (d.declared.lookup id).toList id
      ownDeps := d.ownDeps.erase id }

variable (resolver : Resolver) (d : DepIndex)

def add (entry : Entry) : DepIndex :=
  let keys := extractDepKeys resolver entry
  let name := envVariableName resolver entry
  { direct := addID d.direct keys.direct entry.id
    group := addID d.group keys.groups entry.id
    ns := addID d.ns keys.ns entry.id
    env := addID d.env keys.env entry.id
    envFallback := addID d.envFallback (keys.env.map (environmentFallbackKey entry.id.ns)) entry.id
    declared := if name ≠ [] then d.declared.insert entry.id name else d.declared
    variableNames := if name ≠ [] then addID d.variableNames [name] entry.id else d.variableNames
    ownDeps := d.ownDeps.insert entry.id keys }

def buildDepIndex (state : State) : DepIndex := state.foldl (add resolver) {}

def onUpdate (prev next : Entry) : DepIndex := (d.remove prev.id).add resolver next

def patchOp (op : Operation) : DepIndex :=
  match op.kind with
  | .create => d.add resolver op.entry
  | .update => d.onUpdate resolver (op.originalEntry.getD op.entry) op.entry
  | .delete => d.remove op.id

def patch (changeSet : ChangeSet) : DepIndex := changeSet.foldl (patchOp resolver) d

def environmentFallbackDependents (key : Bytes) : List ID :=
  (idsAt d.envFallback key).filter fun id =>
    (((d.ownDeps.lookup id).map EntryDepKeys.env).getD []).any fun name =>
      (idsAt d.variableNames name).isEmpty && decide (environmentFallbackKey id.ns name = key)

def dependents (entry : Entry) : List ID :=
  (idsAt d.env (envVariableName resolver entry) ++ d.environmentFallbackDependents (idPrefix ++ entry.id.string) ++
    idsAt d.direct entry.id ++
    entry.groups.flatMap (fun g => d.environmentFallbackDependents (groupPrefix ++ g) ++ idsAt d.group g) ++
    (if entry.id.ns = [] then []
      else d.environmentFallbackDependents (nsPrefix ++ entry.id.ns) ++ idsAt d.ns entry.id.ns)).filter
    fun id => !id.equal entry.id

def renewKeys (state : StateMap) (keys : Map ID EntryDepKeys) (change : Operation) : Map ID EntryDepKeys :=
  match state.get change.id with
  | some entry => keys.insert entry.id (extractDepKeys resolver entry)
  | none => keys.erase change.id

/-- The keys of a candidate state: those of the index, renewed for the entries that the changes name. -/
def candidateKeys (state : StateMap) (changes : ChangeSet) : Map ID EntryDepKeys :=
  changes.foldl (renewKeys resolver state) (Map.keep d.ownDeps fun id _ => (state.get id).isSome)

def visitDependencies (state : StateMap) (changes : ChangeSet) : List (ID × ID) :=
  visitDependencyKeys resolver state ((d.candidateKeys resolver state changes).entries.map fun e => (e.1, e.2)) none

end DepIndex
end Wippy.Registry.Topology
