import Wippy.Registry.History
import Wippy.Registry.Runner

/-! The registry without directives, `system/registry/registry.go` and `system/registry/plan.go`: the live state, the
    durable versions behind it and the overlays over it. The calls that change the registry exclude each other. -/

namespace Wippy.Registry
open Lib Wippy.Registry.Topology

structure OverlayShadow where
  owner : Bytes
  original : Entry
  removed : Bool := false
  deriving DecidableEq, Repr

/-- The fields of the registry. The entries of the overlays stand in one list, each with the owner of its overlay. -/
structure Reg where
  state : State := []
  baseline : State := []
  currentVersion : Nat := 0
  versionNum : Nat := 0
  history : Storage := {}
  overlays : List (Bytes × Entry) := []
  overlayOwners : Map ID Bytes := ∅
  overlayShadows : Map ID OverlayShadow := ∅
  overlayGeneration : Map Bytes Nat := ∅
  overlayEpoch : Nat := 0
  overlayFloor : Nat := 0
  stateLoaded : Bool := false
  depIndex : Option DepIndex := none

/-- What the registry is built on: its runner, and the digest of what an apply would do, which may fail. -/
structure Services where
  runner : BusRunner
  measurePlan : ChangeSet → ChangeSet → Option Bytes

/-- The world around one call: its transition, that of its rollback if it has one, whether the context is canceled when
    a transition has failed, and whether the history works. -/
structure CallEnvironment where
  transition : Environment
  rollback : Environment
  canceled : Bool := false
  readFails : Bool := false
  writeFails : Bool := false

inductive TransitionFailure
  | compute (err : DeltaError)
  | run (err : TransitionError)
  deriving DecidableEq, Repr

inductive RegError
  | sortChanges (err : SortError)
  | overlayConflict
  | overlayValidation
  | overlayOwnerRequired
  | overlayGenerationConflict
  | planBaseConflict
  | planDigest
  | planDrift
  | computeTransition (err : DeltaError)
  | applyChanges (err : TransitionFailure) (rollback : Option TransitionFailure)
  | saveVersion (rollback : Option TransitionFailure)
  | setHead (rollback : Option TransitionFailure)
  | getVersions
  | getChangeset
  | duplicateEntryID (id : ID)
  deriving DecidableEq, Repr

def RegError.rollback : RegError → Option TransitionFailure
  | .applyChanges _ rollback | .saveVersion rollback | .setHead rollback => rollback
  | _ => none

def canonicalizeEntryID (entry : Entry) : Entry := { entry with id := entry.id.canonical }

def canonicalizeOperation (op : Operation) : Operation :=
  { op with entry := canonicalizeEntryID op.entry, originalEntry := op.originalEntry.map canonicalizeEntryID }

def canonicalizeChangeSetIDs (changes : ChangeSet) : ChangeSet := changes.map canonicalizeOperation

def normalizeOperation (state : StateMap) (op : Operation) : Operation × StateMap :=
  match op.kind with
  | .create =>
    let entry := { op.entry with registry := { root := op.entry.registry.root } }
    ({ op with entry }, state.put entry)
  | .update =>
    let entry := match state.get op.id with
      | some existing => { op.entry with registry := existing.registry }
      | none => op.entry
    ({ op with entry }, state.put entry)
  | .delete => ({ op with entry := (state.get op.id).getD op.entry }, state.del op.id)

/-- Entries do not assign their own ownership: it is that of the resident entry. -/
def normalizeRegistryMetadata : StateMap → ChangeSet → ChangeSet
  | _, [] => []
  | state, op :: changes =>
    (normalizeOperation state op).1 :: normalizeRegistryMetadata (normalizeOperation state op).2 changes

variable (stateMap : StateMap)

def applyStateOperation (op : Operation) : StateMap :=
  match op.kind with
  | .create | .update => stateMap.put (canonicalizeEntryID op.entry)
  | .delete => stateMap.del op.id.canonical

def applyStateOperations (ops : ChangeSet) : StateMap := ops.foldl applyStateOperation stateMap

def enrichOperation (state : StateMap) (op : Operation) : Operation :=
  match op.kind, state.get op.id with
  | .update, some original | .delete, some original => { op with originalEntry := some original }
  | _, _ => op

def enrichChangeset (state : StateMap) (changes : ChangeSet) : ChangeSet := changes.map (enrichOperation state)

def replayOnto (lineage : List ChangeSet) : StateMap :=
  lineage.foldl (fun sm changes => applyStateOperations sm (canonicalizeChangeSetIDs changes)) stateMap

namespace Reg
variable (sv : Services) (r : Reg)

def stateAtVersion (target : Nat) : Option StateMap :=
  (r.history.replayChanges target).map (replayOnto (newStateMap r.baseline))

/-! ### The dependency index -/

def rebuildDepIndex : Reg :=
  { r with depIndex := some (DepIndex.buildDepIndex sv.runner.builder.resolver r.state) }

def withDepIndex : Reg := if r.depIndex.isSome then r else r.rebuildDepIndex sv

def sortWithIndex (cs : ChangeSet) : Except SortError ChangeSet :=
  sortChangeSetWithIndex sv.runner.builder.resolver r.state cs (r.withDepIndex sv).depIndex

def patchDepIndex (ops : ChangeSet) : Reg :=
  { r with depIndex := r.depIndex.map fun index => index.patch sv.runner.builder.resolver ops }

/-! ### Overlays under durable changes -/

/-- The claims that the resident state carries: a claim that removes its entry is kept while the entry is absent, and
    any other while it is there. -/
def carries (shadows : Map ID OverlayShadow) (effective : State) (id : ID) : Bool :=
  match shadows.lookup id with
  | some shadow => shadow.removed != (newStateMap effective |>.get id).isSome
  | none => ((newStateMap effective).get id).isSome

def rebuildOverlayIndexes (knownOwners : Map ID Bytes) (knownShadows : Map ID OverlayShadow) (effective : State) :
    Reg :=
  let owners := knownOwners.keep fun id _ => carries knownShadows effective id
  { r with
    overlayOwners := owners.mapVal fun id owner =>
      match knownShadows.lookup id with
      | some shadow => if shadow.removed then shadow.owner else owner
      | none => owner
    overlayShadows := knownShadows.keep fun id _ => (owners.lookup id).isSome
    overlays := effective.filterMap fun entry => (owners.lookup entry.id).map fun owner => (owner, entry) }

def bumpOverlayGeneration (owner : Bytes) : Reg :=
  { r with
    overlayEpoch := r.overlayEpoch + 1
    overlayGeneration := r.overlayGeneration.insert owner (r.overlayEpoch + 1) }

def reconcileKnownOverlaysAfterFailedRollback : Reg :=
  (r.overlayOwners.values.dedup).foldl bumpOverlayGeneration
    (r.rebuildOverlayIndexes r.overlayOwners r.overlayShadows r.state)

/-- A dependency between an overlay and another overlay, or of a durable entry on an overlay that shadows nothing. -/
def crossesOverlays (owners : Map ID Bytes) (shadows : Map ID OverlayShadow) (edge : ID × ID) : Bool :=
  match owners.lookup edge.1, owners.lookup edge.2 with
  | some sourceOwner, some targetOwner => decide (sourceOwner ≠ targetOwner)
  | none, some _ => (shadows.lookup edge.2).isNone
  | _, none => false

def validateOverlayCompositionWithChanges (effective : StateMap) (owners : Map ID Bytes)
    (shadows : Map ID OverlayShadow) (changes : Option ChangeSet) : Except RegError Unit :=
  let edges := match changes, r.depIndex with
    | some changes, some index => index.visitDependencies sv.runner.builder.resolver effective changes
    | _, _ => visitDependencies sv.runner.builder.resolver effective
  if owners.entries.isEmpty then .ok ()
  else if edges.any (crossesOverlays owners shadows) then .error .overlayConflict
  else .ok ()

def validateOverlayComposition (effective : StateMap) (owners : Map ID Bytes) (shadows : Map ID OverlayShadow) :
    Except RegError Unit :=
  r.validateOverlayCompositionWithChanges sv effective owners shadows none

/-- A durable transition leaves alone what overlays claim and what their entries depend on. -/
def validateDurableTransitionAgainstOverlays (allOps : ChangeSet) : Except RegError Unit :=
  let current := newStateMap r.state
  let deleted := (allOps.filter fun op => decide (op.kind = .delete)).map fun op => op.id.canonical
  if r.overlayOwners.entries.isEmpty then .ok ()
  else if allOps.any fun op => (r.overlayOwners.lookup op.id.canonical).isSome then .error .overlayConflict
  else if (visitDependencies sv.runner.builder.resolver current).any fun edge =>
      (r.overlayOwners.lookup edge.1).isSome && deleted.contains edge.2 then .error .overlayConflict
  else r.validateOverlayComposition sv (applyStateOperations current allOps) r.overlayOwners r.overlayShadows

/-- Lead the listeners from one state to another by their difference: the state reached, unless there is no
    difference to apply, and the error. -/
def transitionState (fromState toState : State) (env : Environment) : Option State × Option TransitionFailure :=
  match sv.runner.builder.buildDelta fromState toState with
  | .error err => (none, some (.compute err))
  | .ok [] => (some fromState, none)
  | .ok cs => (some (sv.runner.transition fromState cs env).state, (sv.runner.transition fromState cs env).err.map .run)

/-- Lead the listeners back; what they are left with when that fails becomes the state. -/
def rollback (fromState toState : State) (env : Environment) : Reg × Option TransitionFailure :=
  match transitionState sv fromState toState env with
  | (_, none) => (r, none)
  | (left, some err) =>
    ((({ r with state := left.getD [] }).rebuildDepIndex sv).reconcileKnownOverlaysAfterFailedRollback, some err)

/-- After a failed transition the listeners are led back, unless the context is canceled. -/
def afterFailure (newState : State) (env : CallEnvironment) : Reg × Option TransitionFailure :=
  if env.canceled then (r, none) else r.rollback sv newState r.state env.rollback

/-- What `ApplyAt` and `ApplyPlan` hold an apply to: the version it was decided against, and the digest of a plan. -/
structure PlanExpectation where
  base : Nat
  digest : Option Bytes
  deriving DecidableEq, Repr

def verify (expect : PlanExpectation) (base : Nat) (all history : ChangeSet) : Except RegError Unit :=
  if base ≠ expect.base then .error .planBaseConflict
  else
    match expect.digest with
    | none => .ok ()
    | some digest =>
      match sv.measurePlan all history with
      | none => .error .planDigest
      | some measured => if measured ≠ digest then .error .planDrift else .ok ()

/-- The operations of an apply, and those that its version records: the changeset is sorted before it is split into
    the two and again before it is dispatched. -/
def applyOps (changes : ChangeSet) : Except SortError (ChangeSet × ChangeSet) :=
  match r.sortWithIndex sv (normalizeRegistryMetadata (newStateMap r.state) (canonicalizeChangeSetIDs changes)) with
  | .error err => .error err
  | .ok historyOps => (r.sortWithIndex sv historyOps).map fun allOps => (allOps, historyOps)

def applyPlanned (changes : ChangeSet) (expect : Option PlanExpectation) : Except RegError (ChangeSet × ChangeSet) :=
  match r.applyOps sv changes with
  | .error err => .error (.sortChanges err)
  | .ok (allOps, historyOps) =>
    match r.validateDurableTransitionAgainstOverlays sv allOps with
    | .error err => .error err
    | .ok () =>
      (expect.elim (.ok ()) fun expect => verify sv expect r.currentVersion allOps historyOps).map fun _ =>
        (allOps, historyOps)

def savedHistory (historyOps : ChangeSet) (env : CallEnvironment) : Option Storage :=
  if env.writeFails then none
  else (r.history.save r.versionNum r.currentVersion (enrichChangeset (newStateMap r.state) historyOps)).toOption

/-- A version for the operations that the listeners have accepted; if it cannot be stored the listeners are led back. -/
def saveApplied (newState : State) (allOps historyOps : ChangeSet) (env : CallEnvironment) :
    Reg × Except RegError Nat :=
  match r.savedHistory historyOps env with
  | none =>
    ((r.rollback sv newState r.state env.rollback).1,
      .error (.saveVersion (r.rollback sv newState r.state env.rollback).2))
  | some history =>
    (({ r with state := newState, history, currentVersion := r.versionNum }).patchDepIndex sv allOps, .ok r.versionNum)

def applyDispatch (allOps historyOps : ChangeSet) (env : CallEnvironment) : Reg × Except RegError Nat :=
  match sv.runner.transition r.state allOps env.transition with
  | ⟨newState, some err, _⟩ =>
    ((r.afterFailure sv newState env).1, .error (.applyChanges (.run err) (r.afterFailure sv newState env).2))
  | ⟨newState, none, _⟩ =>
    if historyOps = [] then (({ r with state := newState }).patchDepIndex sv allOps, .ok r.currentVersion)
    else r.saveApplied sv newState allOps historyOps env

def allocateVersion (historyOps : ChangeSet) : Reg :=
  if historyOps = [] then r else { r with versionNum := r.versionNum + 1 }

def applyLocked (changes : ChangeSet) (expect : Option PlanExpectation) (env : CallEnvironment) :
    Reg × Except RegError Nat :=
  match (r.withDepIndex sv).applyPlanned sv changes expect with
  | .error err => (r.withDepIndex sv, .error err)
  | .ok (allOps, historyOps) => ((r.withDepIndex sv).allocateVersion historyOps).applyDispatch sv allOps historyOps env

def apply (changes : ChangeSet) (env : CallEnvironment) : Reg × Except RegError Nat :=
  r.applyLocked sv changes none env

def applyAt (base : Nat) (changes : ChangeSet) (env : CallEnvironment) : Reg × Except RegError Nat :=
  r.applyLocked sv changes (some ⟨base, none⟩) env

def applyPlan (base : Nat) (digest : Bytes) (requested : ChangeSet) (env : CallEnvironment) :
    Reg × Except RegError Nat :=
  r.applyLocked sv requested (some ⟨base, some digest⟩) env

variable (stateMap : StateMap)

def canonicalizeState : Except RegError StateMap :=
  stateMap.entries.foldlM (fun sm entry =>
    if entry.id.canonical = entry.id then .ok sm
    else if ((sm.del entry.id).get entry.id.canonical).isSome then .error .overlayValidation
    else .ok ((sm.del entry.id).put (canonicalizeEntryID entry))) stateMap

def composeShadow (shadows : Map ID OverlayShadow) (id : ID) (shadow : OverlayShadow) :
    Except RegError (StateMap × Map ID OverlayShadow) :=
  match stateMap.get id with
  | none => .error .overlayConflict
  | some durable =>
    .ok (if shadow.removed then stateMap.del id else stateMap, shadows.insert id { shadow with original := durable })

def composeEntry (shadows : Map ID OverlayShadow) (stateMap : StateMap) (entry : Entry) : Except RegError StateMap :=
  let entry := canonicalizeEntryID entry
  match shadows.lookup entry.id with
  | some shadow => .ok (stateMap.put { entry with registry := shadow.original.registry })
  | none => if (stateMap.get entry.id).isSome then .error .overlayConflict else .ok (stateMap.put entry)

def composeShadows : Except RegError (StateMap × Map ID OverlayShadow) :=
  r.overlayShadows.entries.foldlM (fun acc claim => composeShadow acc.1 acc.2 claim.1 claim.2) (stateMap, ∅)

/-- Fold the overlays onto a durable state: the composed state, and the claims rebased on the durable one. -/
def composeOverlays : Except RegError (StateMap × Map ID OverlayShadow) :=
  match canonicalizeState stateMap with
  | .error err => .error err
  | .ok stateMap =>
    match r.composeShadows stateMap with
    | .error err => .error err
    | .ok (stateMap, shadows) =>
      match (r.overlays.map Prod.snd).foldlM (composeEntry shadows) stateMap with
      | .error err => .error err
      | .ok composed =>
        (r.validateOverlayComposition sv composed r.overlayOwners shadows).map fun _ => (composed, shadows)

def versionPlanned (target : Nat) : Except RegError (ChangeSet × Map ID OverlayShadow) :=
  match r.stateAtVersion target with
  | none => .error .getChangeset
  | some targetState =>
    match r.composeOverlays sv targetState with
    | .error err => .error err
    | .ok (composed, shadows) =>
      match sv.runner.builder.buildDelta r.state (stateMapToSlice composed) with
      | .error err => .error (.computeTransition err)
      | .ok delta =>
        match sortChangeSet sv.runner.builder.resolver r.state delta with
        | .error err => .error (.sortChanges err)
        | .ok allOps => (r.validateDurableTransitionAgainstOverlays sv allOps).map fun _ => (allOps, shadows)

def movedHistory (expected target : Nat) (env : CallEnvironment) : Option Storage :=
  if env.writeFails then none else (r.history.compareAndSetHead expected target).toOption

def versionDispatch (target : Nat) (allOps : ChangeSet) (shadows : Map ID OverlayShadow) (env : CallEnvironment) :
    Reg × Except RegError Unit :=
  match sv.runner.transition r.state allOps env.transition with
  | ⟨newState, some err, _⟩ =>
    ((r.afterFailure sv newState env).1, .error (.applyChanges (.run err) (r.afterFailure sv newState env).2))
  | ⟨newState, none, _⟩ =>
    match r.movedHistory r.currentVersion target env with
    | none =>
      ((r.rollback sv newState r.state env.rollback).1,
        .error (.setHead (r.rollback sv newState r.state env.rollback).2))
    | some history =>
      (({ r with state := newState, overlayShadows := shadows, currentVersion := target, history }).rebuildDepIndex sv,
        .ok ())

def applyVersion (v : Nat) (env : CallEnvironment) : Reg × Except RegError Unit :=
  if r.currentVersion = v then
    match r.movedHistory v v env with
    | none => (r, .error (.setHead none))
    | some history => ({ r with history }, .ok ())
  else if env.readFails || !r.history.getVersion v then (r, .error .getVersions)
  else
    match r.versionPlanned sv v with
    | .error err => (r, .error err)
    | .ok (allOps, shadows) => r.versionDispatch sv v allOps shadows env

/-- The registry after its state was loaded: overlays are local to the process and do not survive. -/
def loaded (newState baseline : State) (target : Nat) (history : Storage) : Reg :=
  let epoch := if r.stateLoaded || decide (0 < r.overlayEpoch) then r.overlayEpoch + 1 else r.overlayEpoch
  ({ r with
    state := newState, baseline, currentVersion := target, history, versionNum := max target history.maxVersionID
    overlays := [], overlayOwners := ∅, overlayShadows := ∅, overlayGeneration := ∅
    overlayEpoch := epoch, overlayFloor := epoch, stateLoaded := true }).rebuildDepIndex sv

def loadPlanned (baseline : State) (target : Nat) : Except RegError State :=
  match firstDuplicateID baseline, r.history.replayChanges target with
  | some id, _ => .error (.duplicateEntryID id)
  | none, none => .error .getChangeset
  | none, some lineage => .ok (stateMapToSlice (replayOnto (newStateMap baseline) lineage))

def loadDispatch (baseline : State) (target : Nat) (finalState : State) (env : CallEnvironment) :
    Reg × Except RegError Unit :=
  match transitionState sv r.state finalState env.transition with
  | (none, some err) => (r, .error (.applyChanges err none))
  | (some newState, some err) =>
    ((r.afterFailure sv newState env).1, .error (.applyChanges err (r.afterFailure sv newState env).2))
  | (newState, none) =>
    match r.movedHistory target target env with
    | none =>
      ((r.rollback sv (newState.getD []) r.state env.rollback).1,
        .error (.saveVersion (r.rollback sv (newState.getD []) r.state env.rollback).2))
    | some history => (r.loaded sv (newState.getD []) baseline target history, .ok ())

def loadState (baseline : State) (target : Nat) (env : CallEnvironment) : Reg × Except RegError Unit :=
  if env.readFails then (r, .error .getVersions)
  else
    match r.loadPlanned (baseline.map canonicalizeEntryID) target with
    | .error err => (r, .error err)
    | .ok finalState => r.loadDispatch sv (baseline.map canonicalizeEntryID) target finalState env

end Reg
end Wippy.Registry
