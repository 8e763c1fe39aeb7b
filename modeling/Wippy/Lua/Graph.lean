import Mathlib.Data.Nat.Pairing
import Wippy.Lib.MapRange
import Wippy.Registry.Entry

/-! The graph of Lua code units and their imports, `runtime/lua/code/memory_graph.go` over `internal/graph/graph.go`.

    The calls take a stream of orders, one for each time that a map is gone through. Loops take fuel, of which the calls
    give them more than they use. -/

namespace Wippy.Lua
open Lib Registry

structure Node where
  id : ID
  kind : Bytes := []
  source : Bytes := []
  method : Bytes := []
  hash : Bytes := []
  revision : Nat := 0
  deriving DecidableEq, Repr

structure Import where
  id : ID
  importAlias : Bytes := []
  deriving DecidableEq, Repr

structure Dependency where
  name : Bytes
  node : Node
  deriving DecidableEq, Repr

structure Main where
  main : Node
  imports : Map ID (List Import) := ∅
  dependencies : List Dependency := []

inductive GraphError
  | nodeNil
  | nodeExists (id : ID)
  | nodeNotFound (id : ID)
  | dependencyExists (node dep : ID)
  | dependencyNotFound (node dep : ID)
  | aliasCollision (importAlias : Bytes) (node existing dep : ID)
  | cycleDetected
  | incomingDependency (id dependent : ID)
  | nodeDoesNotExist (id : ID)
  | edgeDoesNotExist (node dep : ID)
  deriving DecidableEq, Repr

structure MemoryGraph where
  vertices : Finset ID := ∅
  edges : Map (ID × ID) Bytes := ∅
  nodes : Map ID Node := ∅
  nodeLevels : Map ID Nat := ∅

abbrev Orders := Nat → MapRange ID

/-- The orders that the `i`-th part of a call meets. -/
def Orders.part (orders : Orders) (i : Nat) : Orders := fun k => orders (Nat.pair i k)

namespace MemoryGraph

/-! ### The underlying graph -/

variable (m : MemoryGraph)

def hasEdge (a b : ID) : Bool := (m.edges.lookup (a, b)).isSome

def neighborSet (n : ID) : Finset ID :=
  ((m.edges.keys.filter fun edge => edge.1 = n).map Prod.snd).toFinset

def getNeighbors (order : MapRange ID) (n : ID) : Option (List ID) :=
  if n ∈ m.vertices then some (order.keys (m.neighborSet n)) else none

def removeEdge (a b : ID) : Except GraphError MemoryGraph :=
  if a ∉ m.vertices then .error (.nodeDoesNotExist a)
  else if b ∉ m.vertices then .error (.nodeDoesNotExist b)
  else if !m.hasEdge a b then .error (.edgeDoesNotExist a b)
  else .ok { m with edges := m.edges.erase (a, b) }

def addEdge (a b : ID) (importAlias : Bytes) : MemoryGraph :=
  { m with edges := m.edges.insert (a, b) importAlias }

def removeVertex (n : ID) : Except GraphError MemoryGraph :=
  if n ∉ m.vertices then .error (.nodeDoesNotExist n)
  else .ok { m with vertices := m.vertices.erase n, edges := m.edges.keep fun edge _ => edge.1 ≠ n && edge.2 ≠ n }

def level (id : ID) : Nat := (m.nodeLevels.lookup id).getD 0

/-- The loop of `increaseLevelsLocked`, the top of the stack first. -/
def raiseLevels (m : MemoryGraph) (orders : Orders) : Nat → List (ID × Nat) → Map ID Nat → Map ID Nat
  | _, [], levels => levels
  | 0, _, levels => levels
  | fuel + 1, (id, level) :: queue, levels =>
    if level ≤ (levels.lookup id).getD 0 then raiseLevels m orders fuel queue levels
    else
      let neighbors := (m.getNeighbors (orders fuel) id).getD []
      raiseLevels m orders fuel ((neighbors.map fun neighbor => (neighbor, level + 1)).reverse ++ queue)
        (levels.insert id level)

variable (orders : Orders)

def increaseLevelsLocked (id : ID) (level : Nat) : MemoryGraph :=
  { m with
    nodeLevels := raiseLevels m orders ((m.vertices.card + 1) * (m.vertices.card + 1) * (m.vertices.card + 1) + 1)
      [(id, level)] m.nodeLevels }

/-- The state of `recomputeLevelsLocked`: how many edges to a node are not yet followed, and the stack of nodes
    without. -/
structure Sweep where
  degree : ID → Nat
  levels : Map ID Nat
  queue : List ID

def Sweep.follow (id : ID) (s : Sweep) (neighbor : ID) : Sweep :=
  let next := (s.levels.lookup id).getD 0 + 1
  let degree := s.degree neighbor - 1
  { degree := Function.update s.degree neighbor degree
    levels := if next > (s.levels.lookup neighbor).getD 0 then s.levels.insert neighbor next else s.levels
    queue := if degree = 0 then neighbor :: s.queue else s.queue }

def sweepLevels (m : MemoryGraph) (orders : Orders) : Nat → Sweep → Sweep
  | 0, s => s
  | fuel + 1, s =>
    match s.queue with
    | [] => s
    | id :: queue =>
      sweepLevels m orders fuel (((m.getNeighbors (orders fuel) id).getD []).foldl (Sweep.follow id) { s with queue })

def countDegrees (ids : List ID) : ID → Nat :=
  (ids.zipIdx.flatMap fun x => (m.getNeighbors (orders x.2) x.1).getD []).foldl
    (fun degree neighbor => Function.update degree neighbor (degree neighbor + 1)) fun _ => 0

def recomputeLevelsLocked : MemoryGraph :=
  let ids := (orders.part 0 0).keys m.vertices
  let degree := m.countDegrees (orders.part 1) ids
  let start : Sweep :=
    { degree
      levels := ids.foldl (fun levels id => levels.insert id 0) m.nodeLevels
      queue := (ids.filter fun id => degree id = 0).reverse }
  { m with nodeLevels := (m.sweepLevels (orders.part 2) (m.vertices.card + 1) start).levels }

def visitAll {S : Type} (visit : ID → S → Bool × S) : List ID → S → Bool × S
  | [], s => (false, s)
  | id :: ids, s =>
    match visit id s with
    | (true, s) => (true, s)
    | (false, s) => visitAll visit ids s

structure Search where
  visited : Finset ID := ∅
  inStack : Finset ID := ∅

/-- The depth-first search of `hasCycle` for a way back to `origin`. -/
def dfs (m : MemoryGraph) (orders : Orders) (origin : ID) : Nat → ID → Search → Bool × Search
  | 0, _, s => (false, s)
  | fuel + 1, current, s =>
    if current ∈ s.inStack then (true, s)
    else if current ∈ s.visited then (false, s)
    else
      let s : Search := { visited := insert current s.visited, inStack := insert current s.inStack }
      match m.getNeighbors (orders s.visited.card) current with
      | none => (false, s)
      | some neighbors =>
        match visitAll (fun neighbor s => if neighbor = origin then (true, s) else dfs m orders origin fuel neighbor s)
          neighbors s with
        | (true, s) => (true, s)
        | (false, s) => (false, { s with inStack := s.inStack.erase current })

def hasCycle (origin target : ID) : Bool :=
  if origin = target then true else (m.dfs orders origin (m.vertices.card + 1) target {}).1

def addNode : Option Node → Option GraphError × MemoryGraph
  | none => (some .nodeNil, m)
  | some n =>
    if (m.nodes.lookup n.id).isSome then (some (.nodeExists n.id), m)
    else
      (none, { m with
        vertices := insert n.id m.vertices
        nodes := m.nodes.insert n.id n
        nodeLevels := m.nodeLevels.insert n.id 0 })

/-- The checks of the imports in `UpdateNode`, each with the imports seen before it. -/
def checkImports (m : MemoryGraph) (orders : Orders) (id : ID) :
    List Import → Finset ID → Map Bytes ID → Option GraphError
  | [], _, _ => none
  | dep :: deps, seenDeps, aliases =>
    if (m.nodes.lookup dep.id).isNone then some (.nodeNotFound dep.id)
    else if dep.id ∈ seenDeps then some (.dependencyExists id dep.id)
    else
      match (aliases.lookup dep.importAlias).filter fun existing => dep.importAlias ≠ [] && existing ≠ dep.id with
      | some existing => some (.aliasCollision dep.importAlias id existing dep.id)
      | none =>
        if m.hasCycle (orders.part deps.length) id dep.id then some .cycleDetected
        else checkImports m orders id deps (insert dep.id seenDeps)
          (if dep.importAlias ≠ [] then aliases.insert dep.importAlias dep.id else aliases)

def updateNode : Option Node → List Import → Option GraphError × MemoryGraph
  | none, _ => (some .nodeNil, m)
  | some n, deps =>
    if (m.nodes.lookup n.id).isNone then (some (.nodeNotFound n.id), m)
    else
      match m.checkImports (orders.part 0) n.id deps ∅ ∅ with
      | some err => (some err, m)
      | none =>
        match m.getNeighbors (orders.part 1 0) n.id with
        | none => (some (.nodeDoesNotExist n.id), m)
        | some oldDeps =>
          match oldDeps.foldlM (fun next oldDep => next.removeEdge n.id oldDep) m with
          | .error err => (some err, m)
          | .ok next =>
            let next := deps.foldl (fun next dep => next.addEdge n.id dep.id dep.importAlias) next
            (none, ({ next with nodes := next.nodes.insert n.id n } : MemoryGraph).recomputeLevelsLocked
              (orders.part 2))

def removeNode (id : ID) : Option GraphError × MemoryGraph :=
  if (m.nodes.lookup id).isNone then (some (.nodeNotFound id), m)
  else
    match ((orders.part 0 0).keys m.nodes.keys.toFinset).find? fun nid => m.hasEdge nid id with
    | some nid => (some (.incomingDependency id nid), m)
    | none =>
      match m.removeVertex id with
      | .error err => (some err, m)
      | .ok next =>
        (none, ({ next with nodes := next.nodes.erase id, nodeLevels := next.nodeLevels.erase id } : MemoryGraph)
          |>.recomputeLevelsLocked (orders.part 1))

/-- The search of `AddDependency` for another import of the node under the same alias. -/
def findAlias (order : MapRange ID) (a b : ID) (importAlias : Bytes) : Option GraphError :=
  if importAlias = [] then none
  else
    match m.getNeighbors order a with
    | none => some (.nodeDoesNotExist a)
    | some neighbors =>
      (neighbors.find? fun neighbor => m.edges.lookup (a, neighbor) = some importAlias && neighbor ≠ b).map
        fun neighbor => .aliasCollision importAlias a neighbor b

def addDependency (a b : ID) (importAlias : Bytes) : Option GraphError × MemoryGraph :=
  if (m.nodes.lookup a).isNone then (some (.nodeNotFound a), m)
  else if (m.nodes.lookup b).isNone then (some (.nodeNotFound b), m)
  else if m.hasEdge a b then (some (.dependencyExists a b), m)
  else
    match m.findAlias (orders.part 0 0) a b importAlias with
    | some err => (some err, m)
    | none =>
      if m.hasCycle (orders.part 1) a b then (some .cycleDetected, m)
      else (none, (m.addEdge a b importAlias).increaseLevelsLocked (orders.part 2) b (m.level a + 1))

def removeDependency (a b : ID) : Option GraphError × MemoryGraph :=
  if !m.hasEdge a b then (some (.dependencyNotFound a b), m)
  else
    match m.removeEdge a b with
    | .error err => (some err, m)
    | .ok next => (none, next.recomputeLevelsLocked orders)

inductive Call
  | addNode (n : Option Node)
  | updateNode (n : Option Node) (deps : List Import)
  | removeNode (id : ID)
  | addDependency (a b : ID) (importAlias : Bytes)
  | removeDependency (a b : ID)

def call : Call → Option GraphError × MemoryGraph
  | .addNode n => m.addNode n
  | .updateNode n deps => m.updateNode orders n deps
  | .removeNode id => m.removeNode orders id
  | .addDependency a b importAlias => m.addDependency orders a b importAlias
  | .removeDependency a b => m.removeDependency orders a b

def step (x : Orders × Call) : MemoryGraph := (m.call x.1 x.2).2

/-! ### Builds and snapshots -/

/-- The loop of `reachableFromLocked`, the top of the stack first. -/
def reachLoop (m : MemoryGraph) (orders : Orders) : Nat → List ID → Finset ID → Finset ID
  | _, [], visited => visited
  | 0, _, visited => visited
  | fuel + 1, current :: queue, visited =>
    if current ∈ visited then reachLoop m orders fuel queue visited
    else
      let visited := insert current visited
      let neighbors := (m.getNeighbors (orders fuel) current).getD []
      reachLoop m orders fuel ((neighbors.filter fun neighbor => neighbor ∉ visited).reverse ++ queue) visited

def reachableFromLocked (entrypoint : ID) : Finset ID :=
  m.reachLoop orders ((m.vertices.card + 1) * (m.vertices.card + 1) + 1) [entrypoint] ∅

def sortByID (ids : List ID) : List ID := ids.insertionSort fun a b => leBytes a.string b.string = true

def ordered (order : MapRange ID) (reachable : Finset ID) : List ID :=
  let ids := order.keys reachable
  let levelKeys := ((ids.map m.level).dedup).insertionSort fun a b => b ≤ a
  levelKeys.flatMap fun key => sortByID (ids.filter fun id => m.level id = key)

def directImports (order : MapRange ID) (id : ID) : List Import :=
  ((m.getNeighbors order id).getD []).filterMap fun neighbor =>
    (m.edges.lookup (id, neighbor)).map fun as =>
      { id := neighbor, importAlias := if as ≠ [] then as else neighbor.name }

def aliasesOf (importers : List ID) (id : ID) : List Bytes :=
  sortBytes ((importers.filterMap fun importer =>
    (m.edges.lookup (importer, id)).filter fun as => as ≠ [] && importer ∈ m.vertices).dedup)

def dependenciesOf (importers : List ID) (id : ID) : List Dependency :=
  match m.nodes.lookup id with
  | none => []
  | some node =>
    match m.aliasesOf importers id with
    | [] => [{ name := id.name, node }]
    | aliases => aliases.map fun name => { name, node }

def build (entrypoint : ID) : Except GraphError Main :=
  match m.nodes.lookup entrypoint with
  | none => .error (.nodeNotFound entrypoint)
  | some entryNode =>
    let reachable := m.reachableFromLocked (orders.part 0) entrypoint
    let ordered := m.ordered (orders.part 1 0) reachable
    .ok {
      main := entryNode
      imports := ordered.zipIdx.foldl (fun imports x =>
        let direct := m.directImports (orders.part 2 x.2) x.1
        if direct = [] then imports else imports.insert x.1 direct) ∅
      dependencies := (ordered.filter fun id => !id.equal entrypoint).flatMap (m.dependenciesOf ordered) }

def snapshot : MemoryGraph :=
  { m with nodeLevels := m.nodes.mapVal fun id _ => m.level id }

def snapshotReachable (entrypoint : ID) (preloads : List ID) : MemoryGraph :=
  let reachable := if (m.nodes.lookup entrypoint).isSome then m.reachableFromLocked orders entrypoint else ∅
  let ids := reachable ∪ (preloads.filter fun id => (m.nodes.lookup id).isSome).toFinset
  { vertices := ids
    edges := m.edges.keep fun edge _ => edge.1 ∈ m.vertices && edge.1 ∈ ids && edge.2 ∈ ids
    nodes := m.nodes.keep fun id _ => id ∈ ids
    nodeLevels := (m.nodes.keep fun id _ => id ∈ ids).mapVal fun id _ => m.level id }

end MemoryGraph
end Wippy.Lua
