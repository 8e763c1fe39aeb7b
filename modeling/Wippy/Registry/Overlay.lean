import Wippy.Registry.Reg

/-! Overlays, `system/registry/overlay.go`: process-local changes of one owner over the durable state. -/

namespace Wippy.Registry
open Lib Wippy.Registry.Topology

/-- The overlays as a changeset of an owner would leave them, and the operations that lead there. -/
structure OverlayDraft where
  effective : StateMap
  owners : Map ID Bytes
  shadows : Map ID OverlayShadow
  transition : ChangeSet := []
  seen : List ID := []
  deleted : List ID := []

namespace OverlayDraft

/-- An owner creates entries that nobody has, and changes durable entries and its own. -/
def allowed (d : OverlayDraft) (owner : Bytes) (op : Operation) : Bool :=
  match op.kind, d.owners.lookup op.id, d.effective.get op.id with
  | .create, none, none => true
  | .create, _, _ => false
  | _, some entryOwner, _ => decide (entryOwner = owner)
  | _, none, resident => resident.isSome

def claimed (d : OverlayDraft) (op : Operation) : Option Entry :=
  match d.shadows.lookup op.id with
  | some shadow => some shadow.original
  | none => if (d.owners.lookup op.id).isNone then d.effective.get op.id else none

def validateOverlayEntryMetadata (entry : Entry) (claimed : Option Entry) : Bool :=
  decide (entry.registry = {}) || claimed.any fun original => decide (entry.registry = original.registry)

def removed (d : OverlayDraft) (id : ID) : Bool := (d.shadows.lookup id).any (·.removed)

def create (d : OverlayDraft) (owner : Bytes) (op : Operation) : OverlayDraft :=
  { d with
    effective := d.effective.put op.entry
    owners := d.owners.insert op.id owner
    transition := d.transition ++ [{ kind := .create, entry := op.entry }] }

def update (d : OverlayDraft) (owner : Bytes) (op : Operation) : OverlayDraft :=
  let entry := match d.claimed op with
    | some original => { op.entry with registry := original.registry }
    | none => op.entry
  { d with
    effective := d.effective.put entry
    owners := d.owners.insert op.id owner
    shadows := match d.claimed op with
      | some original => d.shadows.insert op.id { owner, original }
      | none => d.shadows
    transition := d.transition ++ [{ kind := if d.removed op.id then .create else .update, entry }] }

def delete (d : OverlayDraft) (owner : Bytes) (op : Operation) : OverlayDraft :=
  match d.shadows.lookup op.id, d.owners.lookup op.id, d.effective.get op.id with
  | some shadow, _, _ =>
    -- The claim is released and the durable entry comes back.
    { d with
      effective := d.effective.put shadow.original
      owners := d.owners.erase op.id
      shadows := d.shadows.erase op.id
      transition := d.transition ++
        [{ kind := if shadow.removed then .create else .update, entry := shadow.original }] }
  | none, some _, _ =>
    { d with
      effective := d.effective.del op.id
      owners := d.owners.erase op.id
      deleted := op.id :: d.deleted
      transition := d.transition ++ [{ kind := .delete, entry := op.entry }] }
  | none, none, some durable =>
    { d with
      effective := d.effective.del op.id
      owners := d.owners.insert op.id owner
      shadows := d.shadows.insert op.id { owner, original := durable, removed := true }
      deleted := op.id :: d.deleted
      transition := d.transition ++ [{ kind := .delete, entry := durable }] }
  | none, none, none => d

def applyOperation (owner : Bytes) (d : OverlayDraft) (op : Operation) : Except RegError OverlayDraft :=
  if d.seen.contains op.id then .error .overlayValidation
  else if !d.allowed owner op then .error .overlayConflict
  else if op.kind ≠ .delete && !validateOverlayEntryMetadata op.entry (d.claimed op) then .error .overlayValidation
  else
    .ok { (match op.kind with
      | .create => d.create owner op
      | .update => d.update owner op
      | .delete => d.delete owner op) with seen := op.id :: d.seen }

end OverlayDraft

namespace Reg
variable (sv : Services) (r : Reg)

def overlayDraft : OverlayDraft where
  effective := newStateMap r.state
  owners := r.overlayOwners
  shadows := r.overlayShadows

variable (owner : Bytes)

def currentGeneration : Nat := (r.overlayGeneration.lookup owner).getD r.overlayFloor

def validateRemovedOverlayDependencies (before after : StateMap) (deleted : List ID) : Except RegError Unit :=
  let edges := match r.depIndex with
    | some index => index.visitDependencies sv.runner.builder.resolver before []
    | none => visitDependencies sv.runner.builder.resolver before
  if deleted ≠ [] && edges.any fun edge => (after.get edge.1).isSome && deleted.contains edge.2 then
    .error .overlayConflict
  else .ok ()

/-- The claims that were live before a changeset and those it would have created, as far as the state has them. -/
def reconcileOverlayIndexesAfterFailedRollback (before : Reg) (draft : OverlayDraft) : Reg :=
  let knownOwners := before.overlayOwners.entries.foldl
    (fun m claim => if (draft.owners.lookup claim.1).isSome then m else m.insert claim.1 claim.2) draft.owners
  let knownShadows := before.overlayShadows.entries.foldl
    (fun m claim => if (draft.shadows.lookup claim.1).isSome then m else m.insert claim.1 claim.2) draft.shadows
  let r := r.rebuildOverlayIndexes knownOwners knownShadows r.state
  if before.overlayOwners.values.contains owner then r else r.bumpOverlayGeneration owner

def overlayPlanned (changes : ChangeSet) : Except RegError (OverlayDraft × ChangeSet) :=
  match (canonicalizeChangeSetIDs changes).foldlM (OverlayDraft.applyOperation owner) r.overlayDraft with
  | .error err => .error err
  | .ok draft =>
    match r.validateRemovedOverlayDependencies sv (newStateMap r.state) draft.effective draft.deleted with
    | .error err => .error err
    | .ok () =>
      match r.validateOverlayCompositionWithChanges sv draft.effective draft.owners draft.shadows
        (some draft.transition) with
      | .error err => .error err
      | .ok () =>
        match r.sortWithIndex sv draft.transition with
        | .error err => .error (.sortChanges err)
        | .ok sorted => .ok (draft, sorted)

def overlayFailed (draft : OverlayDraft) (newState : State) (env : CallEnvironment) : Reg × Option TransitionFailure :=
  match r.afterFailure sv newState env with
  | (r', none) => (r', none)
  | (r', some err) => (r'.reconcileOverlayIndexesAfterFailedRollback owner r draft, some err)

def overlayDispatch (draft : OverlayDraft) (sorted : ChangeSet) (env : CallEnvironment) : Reg × Except RegError Nat :=
  match sv.runner.transition r.state sorted env.transition with
  | ⟨newState, some err, _⟩ =>
    ((r.overlayFailed sv owner draft newState env).1,
      .error (.applyChanges (.run err) (r.overlayFailed sv owner draft newState env).2))
  | ⟨newState, none, _⟩ =>
    (({ (r.rebuildOverlayIndexes draft.owners draft.shadows newState).bumpOverlayGeneration owner with
      state := newState }).patchDepIndex sv sorted, .ok (r.overlayEpoch + 1))

def applyOverlay (expectedGeneration : Nat) (changes : ChangeSet) (env : CallEnvironment) : Reg × Except RegError Nat :=
  let owner := trimSpace owner
  if owner = [] then (r, .error .overlayOwnerRequired)
  else if changes = [] then (r, .error .overlayValidation)
  else if r.currentGeneration owner ≠ expectedGeneration then (r, .error .overlayGenerationConflict)
  else
    match r.overlayPlanned sv owner changes with
    | .error (.sortChanges err) => (r.withDepIndex sv, .error (.sortChanges err))
    | .error err => (r, .error err)
    | .ok (draft, sorted) => (r.withDepIndex sv).overlayDispatch sv owner draft sorted env

inductive Call
  | loadState (baseline : State) (target : Nat)
  | apply (changes : ChangeSet)
  | applyAt (base : Nat) (changes : ChangeSet)
  | applyPlan (base : Nat) (digest : Bytes) (requested : ChangeSet)
  | applyVersion (v : Nat)
  | applyOverlay (owner : Bytes) (expectedGeneration : Nat) (changes : ChangeSet)
  deriving DecidableEq, Repr

def refusal {α : Type} : Except RegError α → Option RegError
  | .error err => some err
  | .ok _ => none

def call (c : Call) (env : CallEnvironment) : Reg × Option RegError :=
  match c with
  | .loadState baseline target => (r.loadState sv baseline target env).map id refusal
  | .apply changes => (r.apply sv changes env).map id refusal
  | .applyAt base changes => (r.applyAt sv base changes env).map id refusal
  | .applyPlan base digest requested => (r.applyPlan sv base digest requested env).map id refusal
  | .applyVersion v => (r.applyVersion sv v env).map id refusal
  | .applyOverlay owner expectedGeneration changes =>
    (r.applyOverlay sv owner expectedGeneration changes env).map id refusal

end Reg
end Wippy.Registry
