import Wippy.Registry.Topology.SortChangeSet

/-! The expansion of changesets by directives, and the effects that directives stage outside the registry,
    `system/registry/expansion/expansion.go` and `api/registry/expansion.go`.

    The answers of directives within one call of the registry are any sequence. What the methods of an effect will
    answer is part of the effect. -/

namespace Wippy.Registry.Expansion
open Lib Wippy.Registry.Topology

inductive Scope
  | history
  | baseline
  deriving DecidableEq, Repr

structure ScopedOp where
  operation : Operation
  scope : Scope
  deriving DecidableEq, Repr

structure Resolution where
  digest : Bytes
  content : Bytes
  deriving DecidableEq, Repr

/-- Work outside the registry. Errors of `Rollback` and `Finalize` are only logged. -/
structure Effect where
  name : Nat
  prepareFails : Bool := false
  commitFails : Bool := false
  /-- It has a `Finalize`. -/
  finalizing : Bool := false
  /-- The measured target, unless `Target` fails. -/
  target : Option Bytes := some []
  deriving DecidableEq, Repr

structure DirectiveResult where
  originalScope : Option Scope := none
  resolution : Option Resolution := none
  additional : List ScopedOp := []
  effects : List Effect := []
  refresh : List ID := []
  applied : Bool := false
  deriving DecidableEq, Repr

def DirectiveResult.carries (res : DirectiveResult) : Bool :=
  res.originalScope.isSome || res.resolution.isSome || !res.additional.isEmpty || !res.effects.isEmpty ||
    !res.refresh.isEmpty

/-- What a directive can do besides expanding one operation: expand several of a kind at once, and reconcile a stored
    resolution. -/
structure Directive where
  expandsChanges : Bool := false
  reconciles : Bool := false
  deriving DecidableEq, Repr

structure Planner where
  directivesByKind : Map Bytes (List Directive) := ∅
  resolver : Resolver
  canonical : Resolution → Resolution := id

/-- The answers of the directives in one call: what the `n`-th question gets, or an error. -/
abbrev Answers := Nat → Option DirectiveResult

inductive EffectStep
  | prepare (effect : Effect)
  | commit (effect : Effect)
  | finalize (effect : Effect)
  | rollback (effect : Effect)
  deriving DecidableEq, Repr

/-- What one call does outside the registry: how often directives were asked, the effects returned, those to roll
    back if the expansion under way fails, what was done to effects, and the operations dispatched to the listeners.
    -/
structure Staging where
  asked : Nat := 0
  returned : List Effect := []
  owned : List Effect := []
  steps : List EffectStep := []
  dispatched : ChangeSet := []
  deriving DecidableEq, Repr

namespace Staging
variable (st : Staging)

def ask (answers : Answers) : Option DirectiveResult × Staging :=
  match answers st.asked with
  | none => (none, { st with asked := st.asked + 1 })
  | some res =>
    (some res, { st with
      asked := st.asked + 1, returned := st.returned ++ res.effects, owned := st.owned ++ res.effects })

def step (s : EffectStep) : Staging := { st with steps := st.steps ++ [s] }

def prepareEffects (st : Staging) : List Effect → List Effect → (List Effect × Bool) × Staging
  | prepared, [] => ((prepared, true), st)
  | prepared, eff :: effects =>
    if eff.prepareFails then ((prepared, false), st.step (.prepare eff))
    else prepareEffects (st.step (.prepare eff)) (prepared ++ [eff]) effects

def commitEffects (st : Staging) : List Effect → Bool × Staging
  | [] => (true, st)
  | eff :: effects =>
    if eff.commitFails then (false, st.step (.commit eff)) else commitEffects (st.step (.commit eff)) effects

def finalizeEffects (effects : List Effect) : Staging :=
  (effects.filter Effect.finalizing).foldl (fun st eff => st.step (.finalize eff)) st

def rollbackEffects (effects : List Effect) : Staging :=
  effects.reverse.foldl (fun st eff => st.step (.rollback eff)) st

end Staging

inductive ExpandError
  | directive
  | resultInvalid (id : ID) (kind : Bytes)
  | conflict (id : ID)
  deriving DecidableEq, Repr

structure Plan where
  resolution : Option Resolution := none
  ops : List ScopedOp := []
  effects : List Effect := []
  refresh : List ID := []
  expanded : Bool := false
  deriving DecidableEq, Repr

def Plan.splitScopes (plan : Plan) : ChangeSet × ChangeSet :=
  (plan.ops.map ScopedOp.operation,
    (plan.ops.filter fun sop => decide (sop.scope = .history)).map ScopedOp.operation)

/-- The kind that an operation is expanded by: its own or that of its resident entry. -/
def opKind (snapshot : State) (op : Operation) : Bytes :=
  if op.entry.kind = [] then
    match snapshot.find? fun entry => entry.id.equal op.id with
    | some entry => entry.kind
    | none => op.entry.kind
  else op.entry.kind

/-- A result for all operations of one kind, which is taken up at the first of them. -/
structure Batch where
  kind : Bytes
  directiveIndex : Nat
  result : DirectiveResult
  firstIndex : Nat
  deriving DecidableEq, Repr

def batchKind (answers : Answers) (kind : Bytes) (firstID : ID) (firstIndex : Nat) :
    List (Directive × Nat) → List Batch → Staging → Except ExpandError (List Batch) × Staging
  | [], batches, st => (.ok batches, st)
  | (directive, directiveIndex) :: directives, batches, st =>
    if !directive.expandsChanges then batchKind answers kind firstID firstIndex directives batches st
    else
      match st.ask answers with
      | (none, st) => (.error .directive, st)
      | (some result, st) =>
        if !result.applied && !result.carries then batchKind answers kind firstID firstIndex directives batches st
        else if result.originalScope.isSome then (.error (.resultInvalid firstID kind), st)
        else batchKind answers kind firstID firstIndex directives
          (batches ++ [⟨kind, directiveIndex, result, firstIndex⟩]) st

def opsOfKind (snapshot : State) (changes : ChangeSet) (kind : Bytes) : List (Operation × Nat) :=
  changes.zipIdx.filter fun op => decide (opKind snapshot op.1 = kind)

def batchAll (answers : Answers) (snapshot : State) (changes : ChangeSet) :
    List (Sigma fun _ : Bytes => List Directive) → List Batch → Staging → Except ExpandError (List Batch) × Staging
  | [], batches, st => (.ok batches, st)
  | ⟨kind, directives⟩ :: kinds, batches, st =>
    match opsOfKind snapshot changes kind with
    | (first, firstIndex) :: _ :: _ =>
      match batchKind answers kind first.id firstIndex directives.zipIdx batches st with
      | (.error err, st) => (.error err, st)
      | (.ok batches, st) => batchAll answers snapshot changes kinds batches st
    | _ => batchAll answers snapshot changes kinds batches st

/-- The kinds of operations recorded for an ID admit one more: an entry is added once, or deleted and created. -/
def recordable (recorded : List (ID × OpKind)) (op : Operation) : Bool :=
  match (recorded.filter fun pair => decide (pair.1 = op.id)).map Prod.snd, op.kind with
  | [], _ => true
  | [.delete], .create => true
  | [.create], .delete => true
  | _, _ => false

structure Draft where
  ops : List ScopedOp
  recorded : List (ID × OpKind) := []
  effects : List Effect := []
  refresh : List ID := []
  resolution : Option Resolution := none
  expanded : Bool := false

/-- Take up the additional operations of a result; those on entries that the changeset names are left out. -/
def addOps (originalIDs : List ID) : List ScopedOp → Draft → Except ExpandError Draft
  | [], d => .ok d
  | add :: additional, d =>
    if originalIDs.contains add.operation.id then addOps originalIDs additional d
    else if !recordable d.recorded add.operation then .error (.conflict add.operation.id)
    else addOps originalIDs additional
      { d with
        ops := d.ops ++ [add], recorded := d.recorded ++ [(add.operation.id, add.operation.kind)] }

def rescope (ops : List ScopedOp) (i : Nat) (scope : Option Scope) : List ScopedOp :=
  match scope with
  | none => ops
  | some scope => ops.modify i fun sop => { sop with scope }

def conflicting (old new : Option Resolution) : Bool :=
  match old, new with
  | some old, some new => decide (old.digest ≠ new.digest)
  | _, _ => false

variable (planner : Planner)

def takeUp (originalIDs : List ID) (id : ID) (kind : Bytes) (i : Nat) (res : DirectiveResult) (d : Draft) :
    Except ExpandError Draft :=
  if !res.applied then if res.carries then .error (.resultInvalid id kind) else .ok d
  else if conflicting d.resolution (res.resolution.map planner.canonical) then .error (.conflict id)
  else
    (addOps originalIDs res.additional
      { d with
        expanded := true
        resolution := (res.resolution.map planner.canonical).or d.resolution
        ops := rescope d.ops i res.originalScope }).map fun d =>
      { d with effects := d.effects ++ res.effects, refresh := d.refresh ++ res.refresh }

def findBatch (batches : List Batch) (kind : Bytes) (directiveIndex : Nat) : Option Batch :=
  batches.find? fun batch => decide (batch.kind = kind) && decide (batch.directiveIndex = directiveIndex)

def expandOp (planner : Planner) (answers : Answers) (originalIDs : List ID) (batches : List Batch) (id : ID)
    (kind : Bytes)
    (i : Nat) : List (Directive × Nat) → Draft → Staging → Except ExpandError Draft × Staging
  | [], d, st => (.ok d, st)
  | (_, directiveIndex) :: directives, d, st =>
    match findBatch batches kind directiveIndex with
    | some batch =>
      if i ≠ batch.firstIndex then expandOp planner answers originalIDs batches id kind i directives d st
      else
        match takeUp planner originalIDs id kind i batch.result d with
        | .error err => (.error err, st)
        | .ok d => expandOp planner answers originalIDs batches id kind i directives d st
    | none =>
      match st.ask answers with
      | (none, st) => (.error .directive, st)
      | (some res, st) =>
        match takeUp planner originalIDs id kind i res d with
        | .error err => (.error err, st)
        | .ok d => expandOp planner answers originalIDs batches id kind i directives d st

def expandOps (planner : Planner) (answers : Answers) (snapshot : State) (originalIDs : List ID)
    (batches : List Batch) :
    List (Operation × Nat) → Draft → Staging → Except ExpandError Draft × Staging
  | [], d, st => (.ok d, st)
  | (op, i) :: ops, d, st =>
    match expandOp planner answers originalIDs batches op.id (opKind snapshot op) i
        (((planner.directivesByKind.lookup (opKind snapshot op)).getD []).zipIdx) d st with
    | (.error err, st) => (.error err, st)
    | (.ok d, st) => expandOps planner answers snapshot originalIDs batches ops d st

def expandAll (answers : Answers) (changes : ChangeSet) (snapshot : State) (st : Staging) :
    Except ExpandError Draft × Staging :=
  match batchAll answers snapshot changes planner.directivesByKind.entries [] st with
  | (.error err, st) => (.error err, st)
  | (.ok batches, st) =>
    expandOps planner answers snapshot (changes.map Operation.id) batches changes.zipIdx
      { ops := changes.map fun op => ⟨op, .history⟩ } st

/-- Turn a changeset into a plan. An expansion that fails rolls back what directives have returned to it. -/
def expand (answers : Answers) (changes : ChangeSet) (snapshot : State) (st : Staging) :
    Except ExpandError Plan × Staging :=
  if changes = [] then (.ok {}, st)
  else if planner.directivesByKind.entries.isEmpty then (.ok { ops := changes.map fun op => ⟨op, .history⟩ }, st)
  else
    match expandAll planner answers changes snapshot { st with owned := [] } with
    | (.error err, st) => (.error err, st.rollbackEffects st.owned)
    | (.ok d, st) =>
      (.ok { resolution := d.resolution, ops := d.ops, effects := d.effects, refresh := d.refresh,
             expanded := d.expanded }, st)

inductive SortOpsError
  | sort (err : SortError)
  | scopeMissing (id : ID) (kind : OpKind)
  deriving DecidableEq, Repr

/-- Give sorted operations their scopes back, those of one kind and ID in their order. -/
def assignScopes : ChangeSet → List ScopedOp → Except SortOpsError (List ScopedOp)
  | [], _ => .ok []
  | op :: sorted, queue =>
    match queue.find? fun sop => decide (sop.operation.kind = op.kind) && decide (sop.operation.id = op.id) with
    | none => .error (.scopeMissing op.id op.kind)
    | some sop => (assignScopes sorted (queue.erase sop)).map (⟨op, sop.scope⟩ :: ·)

def sortOps (fromState : State) (ops : List ScopedOp) : Except SortOpsError (List ScopedOp) :=
  if ops = [] then .ok ops
  else
    match sortChangeSet planner.resolver fromState (ops.map ScopedOp.operation) with
    | .error err => .error (.sort err)
    | .ok sorted => assignScopes sorted ops

end Wippy.Registry.Expansion
