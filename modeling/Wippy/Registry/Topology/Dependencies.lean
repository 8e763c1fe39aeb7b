import Wippy.Registry.Entry

/-! Dependencies between entries, `system/registry/topology/dependencies.go`, `environment.go` and the key extraction of
    `dep_index.go`.

    What an entry's data refers to is read by a resolver, a parameter: registry references, names of environment
    variables, and the name that an `env.variable` declares. -/

namespace Wippy.Registry.Topology
open Lib

/-- `group:` -/
def groupPrefix : Bytes := [103, 114, 111, 117, 112, 58]

/-- `ns:` -/
def nsPrefix : Bytes := [110, 115, 58]

/-- `id:` -/
def idPrefix : Bytes := [105, 100, 58]

/-- `env.variable` -/
def envVariableKind : Bytes := [101, 110, 118, 46, 118, 97, 114, 105, 97, 98, 108, 101]

inductive Dependency
  | direct (value : Bytes)
  | group (value : Bytes)
  | ns (value : Bytes)
  deriving DecidableEq, Repr

def parseDependency (dep : Bytes) : Dependency :=
  if groupPrefix.isPrefixOf dep then .group (dep.drop groupPrefix.length)
  else if nsPrefix.isPrefixOf dep then .ns (dep.drop nsPrefix.length)
  else .direct dep

/-- A reference without a colon is to an entry of the namespace that it stands in. -/
def resolveDependencyID (sourceNS depStr : Bytes) : ID :=
  match cutByte 58 depStr with
  | some (ns, name) => ⟨ns, name⟩
  | none => ⟨sourceNS, depStr⟩

/-- What is read of an entry's data. No reference to an environment variable is empty. -/
structure Resolver where
  extract : Entry → List Bytes
  environment : Entry → List Bytes
  variableName : Bytes → Bytes
  environment_ne : ∀ entry, ∀ name ∈ environment entry, name ≠ []

structure EntryDepKeys where
  direct : List ID := []
  groups : List Bytes := []
  ns : List Bytes := []
  env : List Bytes := []
  deriving DecidableEq, Repr

variable (resolver : Resolver)

def envVariableName (entry : Entry) : Bytes :=
  if entry.kind ≠ envVariableKind then []
  else if resolver.variableName entry.data ≠ [] then resolver.variableName entry.data
  else entry.id.string

def environmentFallbackKey (ns name : Bytes) : Bytes :=
  match parseDependency name with
  | .group value => groupPrefix ++ value
  | .ns value => nsPrefix ++ value
  | .direct value => idPrefix ++ (resolveDependencyID ns value).string

def extractDepKeys (entry : Entry) : EntryDepKeys :=
  let declarations := (entry.dependsOn ++ resolver.extract entry).map parseDependency
  { direct := declarations.filterMap fun
      | .direct value =>
        let id := resolveDependencyID entry.id.ns value
        if id.equal entry.id then none else some id
      | _ => none
    groups := declarations.filterMap fun
      | .group value => some value
      | _ => none
    ns := declarations.filterMap fun
      | .ns value => some value
      | _ => none
    env := resolver.environment entry }

variable (state : StateMap)

def dependencyKeys : List (ID × EntryDepKeys) :=
  state.entries.map fun entry => (entry.id, extractDepKeys resolver entry)

def groupMembers (group : Bytes) : List ID :=
  (state.entries.filter fun entry => entry.groups.contains group).map Entry.id

def nsMembers (ns : Bytes) : List ID :=
  (state.entries.filter fun entry => decide (entry.id.ns ≠ []) && decide (entry.id.ns = ns)).map Entry.id

def declarants (name : Bytes) : List ID :=
  (state.entries.filter fun entry =>
    decide (envVariableName resolver entry ≠ []) && decide (envVariableName resolver entry = name)).map Entry.id

/-- What a reference to a variable name stands for: the variables of that name, or what it names as a dependency. -/
def environmentTargets (declared : Bytes → List ID) (ns name : Bytes) : List ID :=
  if declared name ≠ [] then declared name
  else
    match parseDependency name with
    | .group value => groupMembers state value
    | .ns value => nsMembers state value
    | .direct value => [resolveDependencyID ns value]

/-- The targets of one entry, each once, without itself and without those that are not in the state. -/
def targets (declared : Bytes → List ID) (id : ID) (keys : EntryDepKeys) : List ID :=
  ((keys.env.flatMap (environmentTargets state declared id.ns) ++ keys.direct ++
    keys.groups.flatMap (groupMembers state)
    ++ keys.ns.flatMap (nsMembers state)).filter fun target => !target.equal id && (state.get target).isSome).dedup

/-- The calls of `visit` in a walk over the dependencies, each a source and a target. When none are given as
    `declared`, the variables of the state are taken. -/
def visitDependencyKeys (keysBySource : List (ID × EntryDepKeys))
    (declared : Option (Bytes → List ID)) : List (ID × ID) :=
  keysBySource.flatMap fun (id, keys) =>
    (targets state (declared.getD (declarants resolver state)) id keys).map fun target => (id, target)

def visitDependencies : List (ID × ID) :=
  visitDependencyKeys resolver state (dependencyKeys resolver state) none

def resolveDependencies (source : ID) : List ID :=
  (((visitDependencies resolver state).filter fun edge => decide (edge.1 = source)).map Prod.snd).insertionSort
    fun a b => leBytes a.string b.string = true

end Wippy.Registry.Topology
