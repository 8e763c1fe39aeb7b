import Wippy.Lib.Json
import Wippy.Registry.Expansion
import Wippy.Registry.Reg

/-! The registry with directives, `system/registry/registry.go` and `system/registry/plan.go`: its calls expand
    changesets and declarations, and carry the effects of directives through their phases.

    The calls exclude each other. A history stores a dependency resolution with a version if it can. -/

namespace Wippy.Registry
open Lib Wippy.Registry.Topology Expansion

/-- A registry, the dependency resolution it has selected, and those that its history stores. -/
structure Directed where
  reg : Reg := {}
  resolution : Option Resolution := none
  resolutions : Map Nat Resolution := ∅

/-- What the calls use: `payload` is the data of an entry as `json.Marshal` takes it, which may fail, `text` the text
    of a JSON value, and `hash` is SHA-256. Strings are UTF-8. -/
structure DirectedServices where
  services : Services
  planner : Planner
  payload : Bytes → Option Json
  text : Json → Bytes
  text_injective : Function.Injective text
  hash : Bytes → Bytes

/-- The world around one call, with the answers of the directives and whether the history stores resolutions. -/
structure World extends CallEnvironment where
  answers : Answers := fun _ => none
  storesResolutions : Bool := true

inductive DirectedError
  | plain (err : RegError)
  | expandChanges (err : Option ExpandError)
  | sortOps (err : SortOpsError)
  | prepareEffects
  | commitEffects (rollback : Option TransitionFailure)
  | resolutionUnsupported
  deriving DecidableEq, Repr

def DirectedError.rollback : DirectedError → Option TransitionFailure
  | .plain err => err.rollback
  | .commitEffects rollback => rollback
  | _ => none

structure Called (α : Type) where
  registry : Directed
  result : Except DirectedError α
  staging : Staging

namespace Directed
variable (ds : DirectedServices)

/-! ### The last phases of a call -/

/-- The listeners on the way forward: the operations that the runner is given, the state reached, the error, and how
    often the abort was called. -/
structure Forward where
  ops : ChangeSet := []
  reached : Option State
  err : Option TransitionFailure
  aborts : Nat

def runTransition (fromState : State) (ops : ChangeSet) (env : Environment) : Forward :=
  let out := ds.services.runner.transition fromState ops env
  { ops, reached := some out.state, err := out.err.map .run, aborts := out.trace.count .abort }

def transitionState (fromState toState : State) (env : Environment) : Forward :=
  match ds.services.runner.builder.buildDelta fromState toState with
  | .error err => { reached := none, err := some (.compute err), aborts := 1 }
  | .ok [] => { reached := some fromState, err := none, aborts := 0 }
  | .ok cs => runTransition ds fromState cs env

def abortEffects (st : Staging) (prepared : List Expansion.Effect) : Nat → Staging
  | 0 => st
  | aborts + 1 => abortEffects (st.rollbackEffects prepared) prepared aborts

/-- The listeners were led on and this cannot be kept: the effects go back first, then the listeners. -/
def abortTransition {α : Type} (d : Directed) (newState : State) (prepared : List Expansion.Effect)
    (err : Option TransitionFailure → DirectedError) (st : Staging) (w : World) : Called α :=
  let back := d.reg.rollback ds.services newState d.reg.state w.rollback
  ⟨{ d with reg := back.1 }, .error (err back.2), st.rollbackEffects prepared⟩

/-- What follows the preparation of effects in each call: the transition of the listeners, the commit of the effects,
    and the write to the history, which may fail. -/
def finish {α : Type} (d : Directed) (forward : Forward) (prepared : List Expansion.Effect)
    (write : State → Option (Directed × α))
    (writeErr : Option TransitionFailure → RegError) (st : Staging) (w : World) : Called α :=
  let st := abortEffects { st with dispatched := forward.ops } prepared forward.aborts
  match forward.err with
  | some err =>
    let after := match forward.reached with
      | some newState => d.reg.afterFailure ds.services newState w.toCallEnvironment
      | none => (d.reg, none)
    ⟨{ d with reg := after.1 }, .error (.plain (.applyChanges err after.2)), st⟩
  | none =>
    let newState := forward.reached.getD []
    match st.commitEffects prepared with
    | (false, st) => d.abortTransition ds newState prepared .commitEffects st w
    | (true, st) =>
      match write newState with
      | none => d.abortTransition ds newState prepared (fun back => .plain (writeErr back)) st w
      | some (d', a) => ⟨d', .ok a, st.finalizeEffects prepared⟩

structure Planned where
  all : ChangeSet
  history : ChangeSet
  effects : List Expansion.Effect := []
  resolution : Option Resolution
  resolutionChanged : Bool := false

variable (d : Directed) (changes : ChangeSet)

def expandLocked (w : World) : Except DirectedError Plan × Staging :=
  match expand ds.planner w.answers changes d.reg.state {} with
  | (.error err, st) => (.error (.expandChanges (some err)), st)
  | (.ok plan, st) =>
    match sortOps ds.planner d.reg.state plan.ops with
    | .error err => (.error (.sortOps err), st.rollbackEffects plan.effects)
    | .ok ops => (.ok { plan with ops }, st)

def planOps (w : World) : Except DirectedError Planned × Staging :=
  let changes := normalizeRegistryMetadata (newStateMap d.reg.state) (canonicalizeChangeSetIDs changes)
  if ds.planner.directivesByKind.entries.isEmpty then
    match d.reg.sortWithIndex ds.services changes with
    | .error err => (.error (.plain (.sortChanges err)), {})
    | .ok sorted => (.ok { all := sorted, history := sorted, resolution := d.resolution }, {})
  else
    match d.expandLocked ds changes w with
    | (.error err, st) => (.error err, st)
    | (.ok plan, st) =>
      (.ok {
        all := plan.splitScopes.1
        history := plan.splitScopes.2
        effects := plan.effects
        resolution := (plan.resolution.map ds.planner.canonical).or d.resolution
        resolutionChanged := plan.resolution.isSome }, st)

def vet (r : Reg) (all : ChangeSet) : Except RegError ChangeSet :=
  match r.sortWithIndex ds.services all with
  | .error err => .error (.sortChanges err)
  | .ok sorted => (r.validateDurableTransitionAgainstOverlays ds.services sorted).map fun _ => sorted

def opKindText : OpKind → Bytes
  | .create => "entry.create".toUTF8.toList
  | .update => "entry.update".toUTF8.toList
  | .delete => "entry.delete".toUTF8.toList

def describe (op : Operation) : Option Json :=
  (ds.payload op.entry.data).map fun data => .object [
    ("kind", .string (opKindText op.kind)),
    ("id", .string op.id.string),
    ("entry_kind", .string op.entry.kind),
    ("meta", .object [("groups", .strings op.entry.groups), ("depends_on", .strings op.entry.dependsOn)]),
    ("data", data)]

def targets : List Expansion.Effect → Option (List Bytes)
  | [] => some []
  | eff :: effects => eff.target.bind fun target => (targets effects).map (target :: ·)

def measurePlan (all history : ChangeSet) (resolution : Option Resolution) (effects : List Expansion.Effect) :
    Option (List Bytes × Bytes) :=
  (targets effects).bind fun targets => (all.mapM (describe ds)).bind fun changes =>
    (history.mapM (describe ds)).map fun history =>
      let selected := (resolution.map ds.planner.canonical).toList.map fun r =>
        ("resolution", Json.object [("digest", .string r.digest), ("content", .string r.content)])
      (targets, ds.hash (ds.text (.object ([("changes", .array changes), ("history", .array history)] ++ selected ++
        [("effects", .strings targets)]))))

structure ReviewedPlan where
  base : Nat
  requested : ChangeSet
  changes : ChangeSet
  history : ChangeSet
  resolution : Option Resolution
  effects : List Bytes
  digest : Bytes
  deriving DecidableEq, Repr

def plan (base : Nat) (changes : ChangeSet) (w : World) : Called ReviewedPlan :=
  if d.reg.currentVersion ≠ base then ⟨d, .error (.plain .planBaseConflict), {}⟩
  else
    match d.planOps ds changes w with
    | (.error err, st) => ⟨d, .error err, st⟩
    | (.ok p, st) =>
      let d' := { d with reg := d.reg.withDepIndex ds.services }
      match vet ds d'.reg p.all with
      | .error err => ⟨d', .error (.plain err), st.rollbackEffects p.effects⟩
      | .ok all =>
        match measurePlan ds all p.history p.resolution p.effects with
        | none => ⟨d', .error (.plain .planDigest), st.rollbackEffects p.effects⟩
        | some (targets, digest) =>
          ⟨d', .ok {
            base, requested := changes, changes := all, history := p.history, resolution := p.resolution
            effects := targets, digest }, st.rollbackEffects p.effects⟩

def verify (expect : Reg.PlanExpectation) (base : Nat) (all : ChangeSet) (p : Planned) : Except RegError Unit :=
  if base ≠ expect.base then .error .planBaseConflict
  else
    match expect.digest with
    | none => .ok ()
    | some digest =>
      match measurePlan ds all p.history p.resolution p.effects with
      | none => .error .planDigest
      | some (_, measured) => if measured ≠ digest then .error .planDrift else .ok ()

/-- The stored resolutions with that of a new version: its own if the changes selected one, and else that of its
    parent. -/
def savedResolutions (p : Planned) : Map Nat Resolution :=
  match if p.resolutionChanged then p.resolution else d.resolutions.lookup d.reg.currentVersion with
  | some resolution => d.resolutions.insert d.reg.versionNum resolution
  | none => d.resolutions

/-- Keep the state that the listeners were led to, under a new version if there is something to record. -/
def writeApplied (p : Planned) (all : ChangeSet) (w : World) (newState : State) : Option (Directed × Nat) :=
  if p.history = [] then
    some ({ d with reg := ({ d.reg with state := newState }).patchDepIndex ds.services all }, d.reg.currentVersion)
  else if p.resolutionChanged && !w.storesResolutions then none
  else
    (d.reg.savedHistory p.history w.toCallEnvironment).map fun history =>
      ({ reg := ({ d.reg with
           state := newState, history, currentVersion := d.reg.versionNum }).patchDepIndex ds.services all
         resolution := p.resolution
         resolutions := d.savedResolutions p }, d.reg.versionNum)

def applyPrepared (p : Planned) (all : ChangeSet) (prepared : List Expansion.Effect) (st : Staging) (w : World) :
    Called Nat :=
  let d := { d with reg := d.reg.allocateVersion p.history }
  d.finish ds (runTransition ds d.reg.state all w.transition) prepared (d.writeApplied ds p all w) .saveVersion st w

def applyLocked (expect : Option Reg.PlanExpectation) (w : World) : Called Nat :=
  match d.planOps ds changes w with
  | (.error err, st) => ⟨d, .error err, st⟩
  | (.ok p, st) =>
    let d := { d with reg := d.reg.withDepIndex ds.services }
    match vet ds d.reg p.all with
    | .error err => ⟨d, .error (.plain err), st.rollbackEffects p.effects⟩
    | .ok all =>
      match expect.elim (.ok ()) fun expect => verify ds expect d.reg.currentVersion all p with
      | .error err => ⟨d, .error (.plain err), st.rollbackEffects p.effects⟩
      | .ok () =>
        match st.prepareEffects [] p.effects with
        | ((prepared, false), st) => ⟨d, .error .prepareEffects, st.rollbackEffects prepared⟩
        | ((prepared, true), st) => d.applyPrepared ds p all prepared st w

def apply (w : World) : Called Nat := d.applyLocked ds changes none w

def applyAt (base : Nat) (changes : ChangeSet) (w : World) : Called Nat :=
  d.applyLocked ds changes (some ⟨base, none⟩) w

def applyPlan (p : ReviewedPlan) (w : World) : Called Nat :=
  d.applyLocked ds p.requested (some ⟨p.base, some p.digest⟩) w

/-! ### Targets of versions and boots -/

/-- The state that a version or a boot leads to, with what directives have added to it. -/
structure Target where
  state : StateMap
  resolution : Option Resolution := none
  refresh : List ID := []
  prepared : List Expansion.Effect := []

/-- `ns.dependency` -/
def namespaceDependency : Bytes := [110, 115, 46, 100, 101, 112, 101, 110, 100, 101, 110, 99, 121]

def Target.extend (t : Target) (canonical : Resolution → Resolution) (ops : ChangeSet) (resolution : Option Resolution)
    (refresh : List ID) (effects : List Expansion.Effect) (st : Staging) : Except DirectedError Target × Staging :=
  match st.prepareEffects [] effects with
  | ((prepared, false), st) => (.error .prepareEffects, (st.rollbackEffects prepared).rollbackEffects t.prepared)
  | ((prepared, true), st) =>
    (.ok {
      state := applyStateOperations t.state ops
      resolution := (resolution.map canonical).or t.resolution
      refresh := t.refresh ++ refresh
      prepared := t.prepared ++ prepared }, st)

def reconcile (planner : Planner) (arrange : State → List ScopedOp → Except SortOpsError ChangeSet)
    (answers : Answers) :
    List Directive → Bool → Target → Staging → Except DirectedError Target × Staging
  | [], reconciled, t, st =>
    if reconciled then (.ok t, st) else (.error (.expandChanges none), st.rollbackEffects t.prepared)
  | directive :: directives, reconciled, t, st =>
    if !directive.reconciles then reconcile planner arrange answers directives reconciled t st
    else
      match st.ask answers with
      | (none, st) => (.error (.expandChanges (some .directive)), st.rollbackEffects t.prepared)
      | (some res, st) =>
        match arrange (stateMapToSlice t.state) res.additional with
        | .error err => (.error (.sortOps err), (st.rollbackEffects res.effects).rollbackEffects t.prepared)
        | .ok ops =>
          match t.extend planner.canonical ops res.resolution res.refresh res.effects st with
          | (.error err, st) => (.error err, st)
          | (.ok t, st) => reconcile planner arrange answers directives (reconciled || res.applied) t st

/-- Expand the declarations of a state, one after another; one dependency expansion resolves the whole graph. -/
def expandDeclarations (planner : Planner) (answers : Answers) :
    List Entry → Target → Staging → Except DirectedError Target × Staging
  | [], t, st => (.ok t, st)
  | entry :: declarations, t, st =>
    if t.resolution.isSome && decide (entry.kind = namespaceDependency) then
      expandDeclarations planner answers declarations t st
    else if (planner.directivesByKind.lookup entry.kind).getD [] = [] then
      expandDeclarations planner answers declarations t st
    else
      match expand planner answers [{ kind := .update, entry }] (stateMapToSlice t.state) st with
      | (.error err, st) => (.error (.expandChanges (some err)), st.rollbackEffects t.prepared)
      | (.ok plan, st) =>
        if !plan.expanded then expandDeclarations planner answers declarations t st
        else
          match sortOps planner (stateMapToSlice t.state) plan.ops with
          | .error err => (.error (.sortOps err), (st.rollbackEffects plan.effects).rollbackEffects t.prepared)
          | .ok ops =>
            match t.extend planner.canonical
              (ops.map ScopedOp.operation) plan.resolution plan.refresh plan.effects st with
            | (.error err, st) => (.error err, st)
            | (.ok t, st) => expandDeclarations planner answers declarations t st

/-- The target for a state: reconciled with the stored resolution if there is one, and expanded otherwise. -/
def resolveTarget (arrange : State → List ScopedOp → Except SortOpsError ChangeSet) (state : StateMap)
    (stored : Option Resolution) (w : World) : Except DirectedError Target × Staging :=
  match stored with
  | some resolution =>
    if ds.planner.directivesByKind.entries.isEmpty then (.error (.expandChanges none), {})
    else
      reconcile ds.planner arrange w.answers ((ds.planner.directivesByKind.lookup namespaceDependency).getD []) false
        { state, resolution := some resolution } {}
  | none => expandDeclarations ds.planner w.answers (stateMapToSlice state) { state } {}

def appendRefreshOperations (stateMap : StateMap) : List ID → ChangeSet → ChangeSet
  | [], ops => ops
  | id :: refresh, ops =>
    match stateMap.get id.canonical with
    | some entry =>
      if (ops.map fun op => op.id.canonical).contains id.canonical then appendRefreshOperations stateMap refresh ops
      else appendRefreshOperations stateMap refresh (ops ++ [{ kind := .update, entry }])
    | none => appendRefreshOperations stateMap refresh ops

def movedHead (expected target : Nat) (resolution : Option Resolution) (w : World) :
    Option (Storage × Map Nat Resolution) :=
  (d.reg.movedHistory expected target w.toCallEnvironment).map fun history =>
    (history, match resolution with
      | some resolution => d.resolutions.insert target resolution
      | none => d.resolutions)

def versionOps (r : Reg) (t : Target) : Except RegError (ChangeSet × Map ID OverlayShadow) :=
  match r.composeOverlays ds.services t.state with
  | .error err => .error err
  | .ok (composed, shadows) =>
    match ds.services.runner.builder.buildDelta r.state (stateMapToSlice composed) with
    | .error err => .error (.computeTransition err)
    | .ok delta => .ok (appendRefreshOperations composed t.refresh delta, shadows)

def vetVersion (r : Reg) (ops : ChangeSet) : Except RegError ChangeSet :=
  match sortChangeSet ds.services.runner.builder.resolver r.state ops with
  | .error err => .error (.sortChanges err)
  | .ok sorted => (r.validateDurableTransitionAgainstOverlays ds.services sorted).map fun _ => sorted

def writeVersion (target : Nat) (t : Target) (shadows : Map ID OverlayShadow) (w : World) (newState : State) :
    Option (Directed × Unit) :=
  (d.movedHead d.reg.currentVersion target t.resolution w).map fun moved =>
    ({ reg := ({ d.reg with
         state := newState, overlayShadows := shadows, currentVersion := target
         history := moved.1 }).rebuildDepIndex ds.services
       resolution := t.resolution
       resolutions := moved.2 }, ())

def applyVersion (v : Nat) (w : World) : Called Unit :=
  if d.reg.currentVersion = v then
    match d.reg.movedHistory v v w.toCallEnvironment with
    | none => ⟨d, .error (.plain (.setHead none)), {}⟩
    | some history => ⟨{ d with reg := { d.reg with history } }, .ok (), {}⟩
  else if w.readFails || !d.reg.history.getVersion v then ⟨d, .error (.plain .getVersions), {}⟩
  else
    match d.reg.stateAtVersion v with
    | none => ⟨d, .error (.plain .getChangeset), {}⟩
    | some state =>
      match resolveTarget ds (fun _ ops => .ok (ops.map ScopedOp.operation)) state (d.resolutions.lookup v) w with
      | (.error err, st) => ⟨d, .error err, st⟩
      | (.ok t, st) =>
        match versionOps ds d.reg t with
        | .error err => ⟨d, .error (.plain err), st.rollbackEffects t.prepared⟩
        | .ok (ops, shadows) =>
          if t.resolution.isSome && !w.storesResolutions then
            ⟨d, .error .resolutionUnsupported, st.rollbackEffects t.prepared⟩
          else
            match vetVersion ds d.reg ops with
            | .error err => ⟨d, .error (.plain err), st.rollbackEffects t.prepared⟩
            | .ok all =>
              d.finish ds (runTransition ds d.reg.state all w.transition) t.prepared (d.writeVersion ds v t shadows w)
                .setHead st w

def loadDeclared (r : Reg) (baseline : State) (target : Nat) : Except RegError StateMap :=
  match firstDuplicateID baseline, r.history.replayChanges target with
  | some id, _ => .error (.duplicateEntryID id)
  | none, none => .error .getChangeset
  | none, some lineage => .ok (replayOnto (newStateMap baseline) lineage)

def writeLoaded (baseline : State) (target : Nat) (t : Target) (w : World) (newState : State) :
    Option (Directed × Unit) :=
  (d.movedHead target target t.resolution w).map fun moved =>
    ({ reg := d.reg.loaded ds.services newState baseline target moved.1
       resolution := t.resolution
       resolutions := moved.2 }, ())

def loadState (baseline : State) (target : Nat) (w : World) : Called Unit :=
  if w.readFails then ⟨d, .error (.plain .getVersions), {}⟩
  else
    let baseline := baseline.map canonicalizeEntryID
    match loadDeclared d.reg baseline target with
    | .error err => ⟨d, .error (.plain err), {}⟩
    | .ok state =>
      match resolveTarget ds
        (fun fromState ops => (sortOps ds.planner fromState ops).map (·.map ScopedOp.operation)) state
          (d.resolutions.lookup target) w with
      | (.error err, st) => ⟨d, .error err, st⟩
      | (.ok t, st) =>
        if t.resolution.isSome && !w.storesResolutions then
          ⟨d, .error .resolutionUnsupported, st.rollbackEffects t.prepared⟩
        else
          d.finish ds (transitionState ds d.reg.state (stateMapToSlice t.state) w.transition) t.prepared
            (d.writeLoaded ds baseline target t w) .saveVersion st w

end Directed
end Wippy.Registry
