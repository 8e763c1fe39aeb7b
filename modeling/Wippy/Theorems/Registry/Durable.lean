import Wippy.Theorems.Registry.Reg

/-! Durable calls keep the live state in step with the history: what is not claimed by an overlay is what the current
    version gives, and what is claimed stays. -/

namespace Wippy.Registry
open Lib Wippy.Registry.Topology List Option

variable {ops changes allOps historyOps : ChangeSet} {history : Storage} {expect : Option PlanExpectation}
  {shadows : Map ID OverlayShadow} {target version : Nat} {durable sm sm' : StateMap} {id : ID} {state : State}
    {owner : Bytes}

namespace Reg

/-- How an entry stands to the overlays: unclaimed and as the durable state has it; added by an overlay; or shadowed
    by one that also removes it or holds another entry in its place. -/
def Claim (owner : Option Bytes) (shadow : Option OverlayShadow) (live durable : Option Entry) : Prop :=
  match owner, shadow with
  | none, none => live = durable
  | none, some _ => False
  | some _, none => live ≠ none ∧ durable = none
  | some owner, some shadow =>
    shadow.owner = owner ∧ durable = some shadow.original ∧ (live = none ↔ shadow.removed = true)

section Claim
variable {owner : Option Bytes} {shadow : Option OverlayShadow} {live durable : Option Entry}
  (h : Claim owner shadow live durable)
include h

theorem Claim.unowned (howner : owner = none) : shadow = none ∧ live = durable := by
  subst howner
  cases shadow with
  | none => exact ⟨rfl, h⟩
  | some shadow => exact h.elim

theorem Claim.added {o : Bytes} (howner : owner = some o) (hshadow : shadow = none) : live ≠ none ∧ durable = none := by
  subst howner hshadow
  exact h

theorem Claim.shadowed {s : OverlayShadow} (hshadow : shadow = some s) :
    owner = some s.owner ∧ durable = some s.original ∧ (live = none ↔ s.removed = true) := by
  subst hshadow
  cases owner with
  | none => exact h.elim
  | some o => exact ⟨congrArg some h.1.symm, h.2⟩

end Claim

/-- The invariant of a registry. -/
structure Sound (ids : ID → Prop) (r : Reg) : Prop where
  within : Within ids r.state
  baseline : ∀ entry ∈ r.baseline, ids entry.id
  history : ∀ rec ∈ r.history.records, ∀ op ∈ rec.changes, ids op.id.canonical
  claims : ∃ durable, r.stateAtVersion r.currentVersion = some durable ∧
    ∀ id, Claim (r.overlayOwners.lookup id) (r.overlayShadows.lookup id) ((newStateMap r.state).get id) (durable.get id)
  overlays : ∀ owner entry, (owner, entry) ∈ r.overlays ↔
    r.overlayOwners.lookup entry.id = some owner ∧ (newStateMap r.state).get entry.id = some entry
  distinct : (r.overlays.map fun claim => claim.2.id).Nodup

variable {sv : Services} {ids : ID → Prop} {r r' : Reg} {env : CallEnvironment}

theorem Sound.congr (h : Sound ids r) (hstate : r'.state = r.state) (hbaseline : r'.baseline = r.baseline)
    (hrecords : r'.history.records = r.history.records) (hversion : r'.currentVersion = r.currentVersion)
    (hoverlays : r'.overlays = r.overlays) (howners : r'.overlayOwners = r.overlayOwners)
    (hshadows : r'.overlayShadows = r.overlayShadows) : Sound ids r' := by
  have hdurable : r'.stateAtVersion r'.currentVersion = r.stateAtVersion r.currentVersion := by
    unfold stateAtVersion Storage.replayChanges
    rw [hbaseline, hrecords, hversion]
  constructor
  · rw [hstate]
    exact h.within
  · rw [hbaseline]
    exact h.baseline
  · rw [hrecords]
    exact h.history
  · rw [hdurable, hstate, howners, hshadows]
    exact h.claims
  · rw [hstate, howners, hoverlays]
    exact h.overlays
  · rw [hoverlays]
    exact h.distinct

@[simp] theorem state_withDepIndex : (r.withDepIndex sv).state = r.state := by
  unfold withDepIndex
  split <;> rfl

theorem Sound.withDepIndex (sv : Services) (h : Sound ids r) : Sound ids (r.withDepIndex sv) := by
  unfold Reg.withDepIndex
  split
  · exact h
  · exact h.congr rfl rfl rfl rfl rfl rfl rfl

theorem known_of_lineage (hids : IDSpace ids) {baseline : State} {lineage : List ChangeSet}
    (hbaseline : ∀ entry ∈ baseline, ids entry.id)
    (hhistory : ∀ rec ∈ history.records, ∀ op ∈ rec.changes, ids op.id.canonical)
    (hlineage : history.replayChanges target = some lineage) :
    ∀ id entry, (replayOnto (newStateMap baseline) lineage).get id = some entry → ids id := by
  refine known_replayOnto hids _ (fun id entry hget => ?_) fun changes hchanges op hop => ?_
  · obtain ⟨hmem, rfl⟩ := Keyed.mem_of_get_ofList hget
    exact hbaseline entry hmem
  · obtain ⟨rec, hrec, rfl⟩ := Storage.mem_lineage hlineage changes hchanges
    exact hhistory rec hrec op hop

theorem Sound.known (h : Sound ids r) (hids : IDSpace ids) (hdurable : r.stateAtVersion version = some durable) :
    ∀ id entry, durable.get id = some entry → ids id := by
  obtain ⟨lineage, hlineage, rfl⟩ := map_eq_some_iff.mp hdurable
  exact known_of_lineage hids h.baseline h.history hlineage

/-- No transition by which the registry leads back from an error fails. -/
def RollsBack {α : Type} (result : Except RegError α) : Prop :=
  ∀ err, result = .error err → ∀ e, err.rollback ≠ some (.run e)

variable (hcompare : ∀ x y, sv.runner.builder.compare x y = true ↔ x = y) (hids : IDSpace ids) (h : Sound ids r)

include hcompare hids h in
theorem Sound.of_failed (hops : ∀ op ∈ ops, ids op.id) (env : Environment)
    (herr : (sv.runner.transition r.state ops env).err ≠ none)
    (hrefused : ¬ BusRunner.Refused (sv.runner.transition r.state ops env).trace) :
    (sv.runner.transition r.state ops env).state.Perm r.state :=
  BusRunner.transition_failed hcompare h.within.nodup (separate_knownIDs hids h.within hops) herr hrefused

section
variable (sv) (env : Environment)

theorem get_of_transition (hsettles : ∀ id, Settles ((newStateMap state).get id) (onID id ops))
    (herr : (sv.runner.transition state ops env).err = none) :
    ((sv.runner.transition state ops env).state.map Entry.id).Nodup ∧
      ∀ id, replay ((newStateMap state).get id) (onID id ops) =
        some ((newStateMap (sv.runner.transition state ops env).state).get id) := by
  obtain ⟨result, happ, hperm, -⟩ := BusRunner.transition_succeeded hsettles herr
  refine ⟨(hperm.map _).nodup_iff.mpr result.distinct, fun id => ?_⟩
  rw [get_newStateMap_of_perm hperm]
  exact replay_of_applyOperations happ id

theorem Within.of_transition (hstate : Within ids state)
    (hops : ∀ op ∈ ops, ids op.id) (hsettles : ∀ id, Settles ((newStateMap state).get id) (onID id ops))
    (herr : (sv.runner.transition state ops env).err = none) :
    Within ids (sv.runner.transition state ops env).state := by
  obtain ⟨hnd, hget⟩ := get_of_transition sv env hsettles herr
  refine ⟨hnd, fun entry hentry => ?_⟩
  have hid := (get_newStateMap hnd).mpr ⟨hentry, rfl⟩
  have hreplay := hget entry.id
  rw [hid] at hreplay
  cases hon : onID entry.id ops with
  | nil =>
    rw [hon] at hreplay
    exact hstate.known entry ((get_newStateMap hstate.nodup).mp (Option.some.inj hreplay)).1
  | cons op rest =>
    have hmem : op ∈ onID entry.id ops := by simp [hon]
    obtain ⟨hop, heq⟩ := mem_onID.mp hmem
    exact heq ▸ hops op hop

end

/-- As it is dispatched and as it is recorded, the changeset comes to the same however its operations are put off. -/
def Settled (sv : Services) (r : Reg) (changes : ChangeSet) : Prop :=
  ∀ allOps historyOps, (r.withDepIndex sv).applyOps sv changes = .ok (allOps, historyOps) →
    ∀ id, onID id allOps = onID id historyOps ∧ Settles ((newStateMap r.state).get id) (onID id historyOps)

theorem applyPlanned_eq_ok
    (h : r.applyPlanned sv changes expect = .ok (allOps, historyOps)) :
    r.applyOps sv changes = .ok (allOps, historyOps) ∧ r.validateDurableTransitionAgainstOverlays sv allOps = .ok
      () := by
  unfold applyPlanned at h
  split at h
  · cases h
  rename_i hops
  split at h
  · cases h
  rename_i hvalid
  obtain ⟨-, -, heq⟩ := exists_of_map_eq_ok h
  cases heq
  exact ⟨hops, hvalid⟩

theorem unclaimed_of_validate (h : r.validateDurableTransitionAgainstOverlays sv ops = .ok ()) :
    ∀ op ∈ ops, r.overlayOwners.lookup op.id.canonical = none := by
  intro op hop
  unfold validateDurableTransitionAgainstOverlays at h
  split at h
  next hempty => exact Map.lookup_of_isEmpty hempty _
  split at h
  · cases h
  next hany =>
    simpa using fun hsome => hany (List.any_eq_true.mpr ⟨op, hop, hsome⟩)

theorem applyOps_eq_ok (h : r.applyOps sv changes = .ok (allOps, historyOps)) :
    r.sortWithIndex sv (normalizeRegistryMetadata (newStateMap r.state) (canonicalizeChangeSetIDs changes)) =
      .ok historyOps ∧ r.sortWithIndex sv historyOps = .ok allOps := by
  unfold applyOps at h
  split at h
  · cases h
  next hsorted =>
    obtain ⟨all, hall, heq⟩ := exists_of_map_eq_ok h
    cases heq
    exact ⟨hsorted, hall⟩

theorem ids_normalized (sm : StateMap) :
    (normalizeRegistryMetadata sm (canonicalizeChangeSetIDs changes)).map Operation.id =
      changes.map fun op => op.id.canonical := by
  rw [ids_normalizeRegistryMetadata, canonicalizeChangeSetIDs, List.map_map]
  rfl

section
variable (hnamed : ∀ op ∈ changes, ids op.id.canonical)
include hnamed

theorem known_normalized (sm : StateMap) :
    ∀ op ∈ normalizeRegistryMetadata sm (canonicalizeChangeSetIDs changes), ids op.id := by
  intro op hop
  have hmem := List.mem_map_of_mem (f := Operation.id) hop
  rw [ids_normalized] at hmem
  obtain ⟨op', hop', hid⟩ := List.mem_map.mp hmem
  exact hid ▸ hnamed op' hop'

theorem known_applyOps (h : r.applyOps sv changes = .ok (allOps, historyOps)) :
    (∀ op ∈ allOps, ids op.id) ∧ ∀ op ∈ historyOps, ids op.id := by
  obtain ⟨hsorted, hall⟩ := applyOps_eq_ok h
  have hhistory : ∀ op ∈ historyOps, ids op.id := fun op hop =>
    known_normalized hnamed _ op (sortChangeSetWithIndex_subset hsorted hop)
  exact ⟨fun op hop => hhistory op (sortChangeSetWithIndex_subset hall hop), hhistory⟩

end

theorem Sound.renew (h : Sound ids r) (howners : r'.overlayOwners = r.overlayOwners)
    (hoverlays : r'.overlays = r.overlays)
    (hwithin : Within ids r'.state) (hbaseline : r'.baseline = r.baseline)
    (hhistory : ∀ rec ∈ r'.history.records, ∀ op ∈ rec.changes, ids op.id.canonical)
    (hkeeps : ∀ id owner, r.overlayOwners.lookup id = some owner →
      (newStateMap r'.state).get id = (newStateMap r.state).get id)
    (hclaims : ∃ durable, r'.stateAtVersion r'.currentVersion = some durable ∧
      ∀ id, Claim (r'.overlayOwners.lookup id) (r'.overlayShadows.lookup id) ((newStateMap r'.state).get id)
        (durable.get id)) : Sound ids r' where
  within := hwithin
  baseline := hbaseline ▸ h.baseline
  history := hhistory
  claims := hclaims
  overlays owner entry := by
    rw [hoverlays, howners, h.overlays]
    refine and_congr_right fun howner => ?_
    rw [hkeeps entry.id owner howner]
  distinct := hoverlays ▸ h.distinct

theorem onID_eq_nil_of_unclaimed (hids : IDSpace ids) (hops : ∀ op ∈ ops, ids op.id)
    (hfree : ∀ op ∈ ops, r.overlayOwners.lookup op.id.canonical = none)
    (howner : r.overlayOwners.lookup id = some owner) : onID id ops = [] := by
  refine eq_nil_iff_forall_not_mem.mpr fun op hmem => ?_
  obtain ⟨hop, rfl⟩ := mem_onID.mp hmem
  have hnone := hfree op hop
  rw [hids.canonical _ (hops op hop), howner] at hnone
  cases hnone

section Apply

theorem save_of_savedHistory (h : r.savedHistory historyOps env = some history) :
    r.history.save r.versionNum r.currentVersion (enrichChangeset (newStateMap r.state) historyOps) = .ok history := by
  unfold savedHistory at h
  split at h
  · cases h
  · exact eq_ok_of_toOption h

theorem stateAtVersion_saved (hdurable : r.stateAtVersion r.currentVersion = some durable)
    (hsave : r.history.save version r.currentVersion (enrichChangeset (newStateMap r.state) historyOps) = .ok history)
    (hbaseline : r'.baseline = r.baseline) (hhistory : r'.history = history) :
    r'.stateAtVersion version =
      some (applyStateOperations durable
        (canonicalizeChangeSetIDs (enrichChangeset (newStateMap r.state) historyOps))) := by
  obtain ⟨lineage, hlineage, rfl⟩ := map_eq_some_iff.mp hdurable
  obtain ⟨-, hreplay⟩ := Storage.save_eq_ok hsave
  unfold stateAtVersion
  rw [hhistory, hreplay, hlineage, hbaseline]
  simp [replayOnto, foldl_append]

theorem Sound.of_applied (hids : IDSpace ids) (h : Sound ids r) (hall : ∀ op ∈ allOps, ids op.id)
    (hfree : ∀ op ∈ allOps, r.overlayOwners.lookup op.id.canonical = none)
    (hwords : ∀ id, onID id allOps = onID id historyOps) {newState : State} (hwithin : Within ids newState)
    (hreplay : ∀ id, replay ((newStateMap r.state).get id) (onID id allOps) = some ((newStateMap newState).get id))
    (hstate : r'.state = newState) (howners : r'.overlayOwners = r.overlayOwners)
    (hshadows : r'.overlayShadows = r.overlayShadows) (hoverlays : r'.overlays = r.overlays)
    (hbaseline : r'.baseline = r.baseline)
    (hhistory : ∀ rec ∈ r'.history.records, ∀ op ∈ rec.changes, ids op.id.canonical)
    (hdurable : ∀ durable, r.stateAtVersion r.currentVersion = some durable →
      ∃ durable', r'.stateAtVersion r'.currentVersion = some durable' ∧
        ∀ id, durable'.get id = lastOutcome (durable.get id) (onID id historyOps)) : Sound ids r' := by
  have hkeeps : ∀ id owner, r.overlayOwners.lookup id = some owner →
      (newStateMap newState).get id = (newStateMap r.state).get id := by
    intro id owner howner
    have hid := hreplay id
    rw [onID_eq_nil_of_unclaimed hids hall hfree howner] at hid
    exact (Option.some.inj hid).symm
  refine h.renew howners hoverlays (hstate ▸ hwithin) hbaseline hhistory (hstate ▸ hkeeps) ?_
  obtain ⟨durable, hcurrent, hclaims⟩ := h.claims
  obtain ⟨durable', hcurrent', hget⟩ := hdurable durable hcurrent
  refine ⟨durable', hcurrent', fun id => ?_⟩
  rw [hstate, howners, hshadows, hget]
  cases howner : r.overlayOwners.lookup id with
  | some owner =>
    have hnil := onID_eq_nil_of_unclaimed hids hall hfree howner
    rw [hkeeps id owner howner, ← hwords id, hnil, ← howner]
    exact hclaims id
  | none =>
    obtain ⟨hshadow, hlive⟩ := (hclaims id).unowned howner
    have hlast := lastOutcome_of_replay (hreplay id)
    rw [hwords id, hlive] at hlast
    rw [hshadow]
    exact hlast.symm

include hcompare hids h in
theorem Sound.applyDispatch (hall : ∀ op ∈ allOps, ids op.id) (hhist : ∀ op ∈ historyOps, ids op.id)
    (hfree : ∀ op ∈ allOps, r.overlayOwners.lookup op.id.canonical = none)
    (hwords : ∀ id, onID id allOps = onID id historyOps ∧ Settles ((newStateMap r.state).get id) (onID id historyOps))
    (hrefused : ¬ BusRunner.Refused (sv.runner.transition r.state allOps env.transition).trace)
    (hroll : RollsBack (r.applyDispatch sv allOps historyOps env).2) :
    Sound ids (r.applyDispatch sv allOps historyOps env).1 := by
  have hsettles : ∀ id, Settles ((newStateMap r.state).get id) (onID id allOps) :=
    fun id => (hwords id).1 ▸ (hwords id).2
  have hfailed := h.of_failed hcompare hids hall env.transition
  have hdone := get_of_transition sv env.transition hsettles
  have hwithin := Within.of_transition sv env.transition h.within hall hsettles
  unfold Reg.applyDispatch at hroll ⊢
  split
  · -- The transition has failed.
    rename_i newState err trace hout
    rw [hout] at hfailed hrefused
    simp only [hout] at hroll
    rw [afterFailure_eq hids h.within (hfailed (by simp) hrefused) (hroll _ rfl)]
    exact h
  next newState trace hout =>
    rw [hout] at hdone hwithin
    simp only [hout] at hroll
    obtain ⟨hnd, hreplay⟩ := hdone rfl
    have hnew : Within ids newState := hwithin rfl
    split
    · -- There is nothing to record.
      rename_i hempty
      refine h.of_applied hids hall hfree (fun id => (hwords id).1) hnew hreplay rfl rfl rfl rfl rfl h.history ?_
      intro durable hdurable
      refine ⟨durable, hdurable, fun id => ?_⟩
      rw [hempty]
      rfl
    next hempty =>
      rw [if_neg hempty] at hroll
      unfold saveApplied at hroll ⊢
      split
      next hsaved =>
        simp only [hsaved] at hroll
        rw [rollback_eq hids hnew h.within (hroll _ rfl)]
        exact h
      rename_i history hsaved
      have hsave := save_of_savedHistory hsaved
      refine h.of_applied hids hall hfree (fun id => (hwords id).1) hnew hreplay rfl rfl rfl rfl rfl ?_ ?_
      · intro rec hrec op hop
        have hmem : rec ∈ history.records := hrec
        rw [(Storage.save_eq_ok hsave).1] at hmem
        rcases mem_cons.mp hmem with rfl | hmem
        · obtain ⟨op', hop', rfl⟩ := List.mem_map.mp hop
          obtain ⟨original, heq⟩ := enrichOperation_eq (newStateMap r.state) op'
          rw [heq]
          exact (hids.canonical _ (hhist op' hop')).symm ▸ hhist op' hop'
        · exact h.history rec hmem op hop
      · intro durable hdurable
        refine ⟨_, stateAtVersion_saved hdurable hsave rfl rfl, fun id => ?_⟩
        exact get_replayed (fun op hop => hids.canonical _ (hhist op hop)) _ _ _

theorem Sound.allocateVersion (h : Sound ids r) (historyOps : ChangeSet) :
    Sound ids (r.allocateVersion historyOps) := by
  unfold Reg.allocateVersion
  split
  · exact h
  · exact h.congr rfl rfl rfl rfl rfl rfl rfl

@[simp] theorem state_allocateVersion : (r.allocateVersion historyOps).state = r.state := by
  unfold Reg.allocateVersion
  split <;> rfl

@[simp] theorem overlayOwners_allocateVersion : (r.allocateVersion historyOps).overlayOwners = r.overlayOwners := by
  unfold Reg.allocateVersion
  split <;> rfl

include hcompare hids h in
theorem Sound.applyLocked {changes : ChangeSet} (hnamed : ∀ op ∈ changes, ids op.id.canonical)
    (hsettled : Settled sv r changes)
    (hrefused : ∀ allOps historyOps, (r.withDepIndex sv).applyPlanned sv changes expect = .ok (allOps, historyOps) →
      ¬ BusRunner.Refused (sv.runner.transition r.state allOps env.transition).trace)
    (hroll : RollsBack (r.applyLocked sv changes expect env).2) :
    Sound ids (r.applyLocked sv changes expect env).1 := by
  unfold Reg.applyLocked at hroll ⊢
  split
  · exact h.withDepIndex sv
  rename_i allOps historyOps hplanned
  simp only [hplanned] at hroll
  obtain ⟨hops, hvalid⟩ := applyPlanned_eq_ok hplanned
  obtain ⟨hall, hhist⟩ := known_applyOps hnamed hops
  refine ((h.withDepIndex sv).allocateVersion historyOps).applyDispatch hcompare hids hall hhist ?_ ?_ ?_ hroll
  · rw [overlayOwners_allocateVersion]
    exact unclaimed_of_validate hvalid
  · rw [state_allocateVersion, state_withDepIndex]
    exact hsettled allOps historyOps hops
  · rw [state_allocateVersion, state_withDepIndex]
    exact hrefused allOps historyOps hplanned

end Apply

section Load

theorem records_of_movedHistory {expected target : Nat}
    (h : r.movedHistory expected target env = some history) : history.records = r.history.records := by
  unfold movedHistory at h
  split at h
  · cases h
  · exact Storage.compareAndSetHead_eq_ok (eq_ok_of_toOption h)

theorem loadPlanned_eq_ok {baseline finalState : State} (h : r.loadPlanned baseline target = .ok finalState) :
    ∃ lineage, r.history.replayChanges target = some lineage ∧
      finalState = stateMapToSlice (replayOnto (newStateMap baseline) lineage) := by
  unfold loadPlanned at h
  split at h
  · cases h
  · cases h
  next lineage _ hlineage =>
    cases h
    exact ⟨lineage, hlineage, rfl⟩

include hcompare hids h in
theorem perm_of_transitionState_failed {toState newState : State} (hto : Within ids toState) {env : Environment}
    {err : TransitionFailure}
    (hrefused : ∀ cs, cs ≠ [] → sv.runner.builder.buildDelta r.state toState = .ok cs →
      ¬ BusRunner.Refused (sv.runner.transition r.state cs env).trace)
    (hfail : transitionState sv r.state toState env = (some newState, some err)) : newState.Perm r.state := by
  unfold transitionState at hfail
  split at hfail
  · cases hfail
  · cases hfail
  next cs hne hdelta =>
    have hperm := StateBuilder.perm_of_buildDelta (h.within.uniqueIDs hids) (hto.uniqueIDs hids) hdelta
    obtain ⟨hstate, herr⟩ := Prod.mk.inj hfail
    rw [← Option.some.inj hstate]
    refine h.of_failed hcompare hids (fun op hop => known_of_delta h.within hto op (hperm.mem_iff.mp hop)) env ?_
      (hrefused cs hne hdelta)
    intro hnone
    rw [hnone] at herr
    cases herr

theorem sound_loaded {newState baseline : State} (lineage : List ChangeSet)
    (hwithin : Within ids newState) (hbaseline : ∀ entry ∈ baseline, ids entry.id)
    (hhistory : ∀ rec ∈ history.records, ∀ op ∈ rec.changes, ids op.id.canonical)
    (hlineage : history.replayChanges target = some lineage)
    (hget : ∀ id, (newStateMap newState).get id = (replayOnto (newStateMap baseline) lineage).get id) :
    Sound ids (r.loaded sv newState baseline target history) where
  within := hwithin
  baseline := hbaseline
  history := hhistory
  claims := ⟨replayOnto (newStateMap baseline) lineage, congrArg (Option.map _) hlineage, hget⟩
  overlays owner entry := by simp [loaded, rebuildDepIndex]
  distinct := nodup_nil

include hcompare hids h in
theorem Sound.loadState {baseline : State} (hnamed : ∀ entry ∈ baseline, ids entry.id.canonical)
    (hrefused : ¬ env.readFails →
      ∀ finalState cs, r.loadPlanned (baseline.map canonicalizeEntryID) target = .ok finalState →
      cs ≠ [] → sv.runner.builder.buildDelta r.state finalState = .ok cs →
      ¬ BusRunner.Refused (sv.runner.transition r.state cs env.transition).trace)
    (hroll : RollsBack (r.loadState sv baseline target env).2) :
    Sound ids (r.loadState sv baseline target env).1 := by
  unfold Reg.loadState at hroll ⊢
  split
  · exact h
  rename_i hreads
  rw [if_neg hreads] at hroll
  replace hrefused := hrefused hreads
  split
  · exact h
  rename_i finalState hplanned
  simp only [hplanned] at hroll
  obtain ⟨lineage, hlineage, hfinal⟩ := loadPlanned_eq_ok hplanned
  have hbaseline : ∀ entry ∈ baseline.map canonicalizeEntryID, ids entry.id := by
    intro entry hentry
    obtain ⟨entry', hentry', rfl⟩ := List.mem_map.mp hentry
    exact hnamed entry' hentry'
  have hto : Within ids finalState := by
    rw [hfinal]
    exact (Within.of_get (known_of_lineage hids hbaseline h.history hlineage)).perm (stateMapToSlice_perm _)
  unfold loadDispatch at hroll ⊢
  split
  · exact h
  next newState err htransition =>
    simp only [htransition] at hroll
    have hnew := perm_of_transitionState_failed hcompare hids h hto (hrefused finalState · hplanned) htransition
    rw [afterFailure_eq hids h.within hnew (hroll _ rfl)]
    exact h
  next newState htransition =>
    simp only [htransition] at hroll
    obtain ⟨loadedState, hloaded, hperm⟩ :=
      transitionState_ok env.transition hcompare hids h.within hto (by rw [htransition])
    rw [htransition] at hloaded
    obtain rfl : newState = some loadedState := hloaded
    rw [getD_some] at hroll ⊢
    split
    next hmoved =>
      simp only [hmoved] at hroll
      rw [rollback_eq hids (hto.perm hperm) h.within (hroll _ rfl)]
      exact h
    rename_i history hmoved
    have hrecords := records_of_movedHistory hmoved
    refine sound_loaded lineage (hto.perm hperm) hbaseline (hrecords ▸ h.history) ?_ ?_
    · unfold Storage.replayChanges at hlineage ⊢
      rw [hrecords]
      exact hlineage
    · intro id
      rw [get_newStateMap_perm hperm hto.nodup, hfinal]
      exact get_newStateMap_of_perm (stateMapToSlice_perm _) id

end Load

theorem canonicalizeState_eq (h : ∀ entry ∈ sm.entries, entry.id.canonical = entry.id) :
    canonicalizeState sm = .ok sm := by
  unfold canonicalizeState
  generalize sm.entries = entries at h
  induction entries with
  | nil => rfl
  | cons entry entries ih =>
    obtain ⟨hentry, h⟩ := forall_mem_cons.mp h
    rw [foldlM_cons, if_pos hentry]
    exact ih h

theorem foldlM_composeShadow {claims : List (Sigma fun _ : ID => OverlayShadow)} (hnd : claims.NodupKeys)
    {shadows shadows' : Map ID OverlayShadow}
    (h : claims.foldlM (fun acc claim => composeShadow acc.1 acc.2 claim.1 claim.2) (sm, shadows) =
      .ok (sm', shadows')) :
    (∀ claim ∈ claims, ∃ durable, sm.get claim.1 = some durable ∧
      shadows'.lookup claim.1 = some { claim.2 with original := durable }) ∧
    ∀ id, id ∉ claims.keys → sm'.get id = sm.get id ∧ shadows'.lookup id = shadows.lookup id := by
  induction claims generalizing sm shadows with
  | nil =>
    cases h
    exact ⟨by simp, fun _ _ => ⟨rfl, rfl⟩⟩
  | cons claim claims ih =>
    obtain ⟨hnew, hnd⟩ := nodupKeys_cons.mp hnd
    rw [foldlM_cons] at h
    unfold composeShadow at h
    cases hget : sm.get claim.1 with
    | none =>
      rw [hget] at h
      cases h
    | some durable =>
      simp only [hget] at h
      obtain ⟨hmem, hrest⟩ := ih hnd h
      have hother : ∀ id, id ≠ claim.1 →
          (if claim.2.removed then sm.del claim.1 else sm).get id = sm.get id ∧
          (shadows.insert claim.1 { claim.2 with original := durable }).lookup id = shadows.lookup id := by
        intro id hid
        refine ⟨?_, AList.lookup_insert_ne hid⟩
        split
        · rw [Keyed.get_del, if_neg hid]
        · rfl
      refine ⟨?_, ?_⟩
      · intro claim' hclaim'
        rcases mem_cons.mp hclaim' with rfl | hclaim'
        · refine ⟨durable, hget, ?_⟩
          rw [(hrest _ hnew).2, AList.lookup_insert]
        · obtain ⟨durable', hdurable', hlookup⟩ := hmem claim' hclaim'
          have hne : claim'.1 ≠ claim.1 := fun heq => hnew (heq ▸ mem_keys_of_mem hclaim')
          rw [(hother _ hne).1] at hdurable'
          exact ⟨durable', hdurable', hlookup⟩
      · intro id hid
        rw [keys_cons, mem_cons, not_or] at hid
        obtain ⟨hsm, hsh⟩ := hrest id hid.2
        exact ⟨hsm.trans (hother id hid.1).1, hsh.trans (hother id hid.1).2⟩

theorem foldlM_composeEntry {entries : List Entry} (hnd : (entries.map Entry.id).Nodup)
    (hcanonical : ∀ entry ∈ entries, entry.id.canonical = entry.id)
    (h : entries.foldlM (composeEntry shadows) sm = .ok sm') :
    (∀ entry ∈ entries, shadows.lookup entry.id = none → sm.get entry.id = none) ∧
      ∀ id, id ∉ entries.map Entry.id → sm'.get id = sm.get id := by
  induction entries generalizing sm with
  | nil =>
    cases h
    exact ⟨by simp, fun _ _ => rfl⟩
  | cons entry entries ih =>
    obtain ⟨hnew, hnd⟩ := nodup_cons.mp hnd
    obtain ⟨hentry, hcanonical⟩ := forall_mem_cons.mp hcanonical
    rw [foldlM_cons] at h
    obtain ⟨next, hstep, h⟩ := exists_of_bind_eq_ok h
    obtain ⟨hmem, hrest⟩ := ih hnd hcanonical h
    unfold composeEntry at hstep
    rw [canonicalizeEntryID_of_canonical hentry] at hstep
    -- A step changes the entry's own ID only.
    have hnext : (∀ id, id ≠ entry.id → next.get id = sm.get id) ∧
        (shadows.lookup entry.id = none → sm.get entry.id = none) := by
      dsimp only at hstep
      split at hstep
      next shadow hshadow =>
        cases hstep
        refine ⟨fun id hid => ?_, fun hnone => ?_⟩
        · rw [Keyed.get_put]
          exact if_neg hid
        · rw [hshadow] at hnone
          cases hnone
      · split at hstep
        · cases hstep
        next hfree =>
          cases hstep
          refine ⟨fun id hid => ?_, fun _ => not_isSome_iff_eq_none.mp hfree⟩
          rw [Keyed.get_put]
          exact if_neg hid
    refine ⟨?_, ?_⟩
    · intro entry' hentry'
      rcases mem_cons.mp hentry' with rfl | hentry'
      · exact hnext.2
      · intro hnone
        rw [← hnext.1 entry'.id fun heq => hnew (heq ▸ List.mem_map_of_mem hentry')]
        exact hmem entry' hentry' hnone
    · intro id hid
      rw [map_cons, mem_cons, not_or] at hid
      exact (hrest id hid.2).trans (hnext.1 id hid.1)

/-- What is composed of a durable state and the overlays: claims rebased on the durable state, and the durable state
    where nothing is claimed. -/
structure Composed (r : Reg) (durable composed : StateMap) (shadows : Map ID OverlayShadow) : Prop where
  unclaimed : ∀ id, r.overlayOwners.lookup id = none → composed.get id = durable.get id ∧ shadows.lookup id = none
  added : ∀ id owner, r.overlayOwners.lookup id = some owner → r.overlayShadows.lookup id = none →
    durable.get id = none ∧ shadows.lookup id = none
  shadowed : ∀ id shadow, r.overlayShadows.lookup id = some shadow →
    ∃ entry, durable.get id = some entry ∧ shadows.lookup id = some { shadow with original := entry }

theorem Sound.overlay_known (h : Sound ids r) {entry : Entry} (hentry : entry ∈ r.overlays.map Prod.snd) :
    ids entry.id ∧ ∃ owner, r.overlayOwners.lookup entry.id = some owner := by
  obtain ⟨⟨owner, entry'⟩, hmem, rfl⟩ := List.mem_map.mp hentry
  obtain ⟨howner, hlive⟩ := (h.overlays owner entry').mp hmem
  exact ⟨h.within.known entry' ((get_newStateMap h.within.nodup).mp hlive).1, owner, howner⟩

theorem Sound.mem_overlays (h : Sound ids r) (howner : r.overlayOwners.lookup id = some owner)
    (hlive : (newStateMap r.state).get id ≠ none) : ∃ entry ∈ r.overlays.map Prod.snd, entry.id = id := by
  obtain ⟨entry, hentry⟩ := ne_none_iff_exists'.mp hlive
  have hid : entry.id = id := Keyed.key_of_get hentry
  refine ⟨entry, List.mem_map.mpr ⟨(owner, entry), (h.overlays owner entry).mpr ?_, rfl⟩, hid⟩
  rw [hid]
  exact ⟨howner, hentry⟩

theorem Sound.composed (hids : IDSpace ids) (h : Sound ids r) {durable composed : StateMap}
    (hknown : ∀ id entry, durable.get id = some entry → ids id)
    (hcompose : r.composeOverlays sv durable = .ok (composed, shadows)) :
    Composed r durable composed shadows ∧ ∀ id entry, composed.get id = some entry → ids id := by
  have hnd : ((r.overlays.map Prod.snd).map Entry.id).Nodup := by
    rw [List.map_map]
    exact h.distinct
  have hcanonical : ∀ entry ∈ r.overlays.map Prod.snd, entry.id.canonical = entry.id := fun entry hentry =>
    hids.canonical _ (h.overlay_known hentry).1
  unfold composeOverlays at hcompose
  rw [canonicalizeState_eq fun entry hentry => hids.canonical _ (hknown entry.id entry (Keyed.get_of_mem hentry))]
    at hcompose
  dsimp only at hcompose
  split at hcompose
  · cases hcompose
  rename_i sm shadows' hshadows
  split at hcompose
  · cases hcompose
  rename_i composed' hentries
  obtain ⟨-, -, heq⟩ := exists_of_map_eq_ok hcompose
  cases heq
  obtain ⟨hclaimed, hfree⟩ := foldlM_composeShadow r.overlayShadows.nodupKeys hshadows
  obtain ⟨hadded, hkept⟩ := foldlM_composeEntry hnd hcanonical hentries
  have hnoshadow : ∀ id, r.overlayShadows.lookup id = none → sm.get id = durable.get id ∧ shadows.lookup id = none := by
    intro id hnone
    have hkey : id ∉ r.overlayShadows.entries.keys := AList.lookup_eq_none.mp hnone
    obtain ⟨hsm, hsh⟩ := hfree id hkey
    exact ⟨hsm, hsh.trans (AList.lookup_empty id)⟩
  have hshadowed : ∀ id shadow, r.overlayShadows.lookup id = some shadow →
      ∃ entry, durable.get id = some entry ∧ shadows.lookup id = some { shadow with original := entry } :=
    fun id shadow hshadow => hclaimed ⟨id, shadow⟩ (Map.mem_entries.mpr hshadow)
  refine ⟨⟨?_, ?_, hshadowed⟩, ?_⟩
  · intro id hnone
    obtain ⟨durable₀, -, hclaims⟩ := h.claims
    obtain ⟨hsm, hsh⟩ := hnoshadow id ((hclaims id).unowned hnone).1
    refine ⟨(hkept id ?_).trans hsm, hsh⟩
    intro hid
    obtain ⟨entry, hentry, rfl⟩ := List.mem_map.mp hid
    obtain ⟨owner, howner⟩ := (h.overlay_known hentry).2
    rw [hnone] at howner
    cases howner
  · intro id owner howner hnone
    obtain ⟨hsm, hsh⟩ := hnoshadow id hnone
    obtain ⟨durable₀, -, hclaims⟩ := h.claims
    obtain ⟨entry, hentry, rfl⟩ := h.mem_overlays howner ((hclaims id).added howner hnone).1
    exact ⟨hsm ▸ hadded entry hentry hsh, hsh⟩
  · intro id entry hget
    by_cases hid : id ∈ (r.overlays.map Prod.snd).map Entry.id
    · obtain ⟨entry', hentry', rfl⟩ := List.mem_map.mp hid
      exact (h.overlay_known hentry').1
    cases hshadow : r.overlayShadows.lookup id with
    | none =>
      rw [hkept id hid, (hnoshadow id hshadow).1] at hget
      exact hknown id entry hget
    | some shadow =>
      obtain ⟨original, horiginal, -⟩ := hshadowed id shadow hshadow
      exact hknown id original horiginal

section Version

theorem versionPlanned_eq_ok (hids : IDSpace ids) (h : Sound ids r)
    (hplanned : r.versionPlanned sv target = .ok (allOps, shadows)) :
    ∃ durable composed, r.stateAtVersion target = some durable ∧ Composed r durable composed shadows ∧
      Within ids (stateMapToSlice composed) ∧
      allOps.Perm (sv.runner.builder.deltaOperations r.state (stateMapToSlice composed)) ∧
      ∀ op ∈ allOps, r.overlayOwners.lookup op.id.canonical = none := by
  unfold versionPlanned at hplanned
  split at hplanned
  · cases hplanned
  rename_i durable hdurable
  split at hplanned
  · cases hplanned
  rename_i composed shadows' hcompose
  split at hplanned
  · cases hplanned
  rename_i delta hdelta
  split at hplanned
  · cases hplanned
  rename_i sorted hsorted
  obtain ⟨_, hvalid, heq⟩ := exists_of_map_eq_ok hplanned
  cases heq
  obtain ⟨hcomposed, hknown⟩ := h.composed hids (h.known hids hdurable) hcompose
  have hto : Within ids (stateMapToSlice composed) := (Within.of_get hknown).perm (stateMapToSlice_perm composed)
  have hperm := StateBuilder.perm_of_buildDelta (h.within.uniqueIDs hids) (hto.uniqueIDs hids) hdelta
  have hdistinct : DistinctIDs delta := by
    have hnd := StateBuilder.nodup_deltaOperations (b := sv.runner.builder) h.within.nodup hto.nodup
    refine hids.distinctIDs ((hperm.map _).nodup_iff.mpr hnd) fun op hop => ?_
    exact known_of_delta h.within hto op (hperm.mem_iff.mp hop)
  have hsort : allOps.Perm delta :=
    sortChangeSet_perm (hdistinct.sublist filter_sublist) (hdistinct.sublist filter_sublist) hsorted
  exact ⟨durable, composed, hdurable, hcomposed, hto, hsort.trans hperm, unclaimed_of_validate hvalid⟩

section

include hcompare hids h

theorem Sound.versionDispatch (hplanned : r.versionPlanned sv target = .ok (allOps, shadows))
    (hrefused : ¬ BusRunner.Refused (sv.runner.transition r.state allOps env.transition).trace)
    (hroll : RollsBack (r.versionDispatch sv target allOps shadows env).2) :
    Sound ids (r.versionDispatch sv target allOps shadows env).1 := by
  obtain ⟨durable, composed, hdurable, hcomposed, hto, hperm, hfree⟩ := versionPlanned_eq_ok hids h hplanned
  have hall : ∀ op ∈ allOps, ids op.id := fun op hop => known_of_delta h.within hto op (hperm.mem_iff.mp hop)
  have hnd : (allOps.map Operation.id).Nodup :=
    (hperm.map _).nodup_iff.mpr (StateBuilder.nodup_deltaOperations h.within.nodup hto.nodup)
  have hfailed := h.of_failed hcompare hids hall env.transition
  have hreached := perm_of_transition env.transition hcompare h.within hto hperm
  have hdone := get_of_transition sv env.transition (settles_of_nodup (newStateMap r.state) hnd)
  unfold Reg.versionDispatch at hroll ⊢
  split
  next newState err trace hout =>
    rw [hout] at hfailed hrefused
    simp only [hout] at hroll
    rw [afterFailure_eq hids h.within (hfailed (by simp) hrefused) (hroll _ rfl)]
    exact h
  next newState trace hout =>
    rw [hout] at hreached hdone
    simp only [hout] at hroll
    have hnew : newState.Perm (stateMapToSlice composed) := hreached rfl
    have hget : ∀ id, (newStateMap newState).get id = composed.get id := fun id =>
      (get_newStateMap_perm hnew hto.nodup id).trans (get_newStateMap_of_perm (stateMapToSlice_perm composed) id)
    have hkeeps : ∀ id owner, r.overlayOwners.lookup id = some owner →
        (newStateMap newState).get id = (newStateMap r.state).get id := by
      intro id owner howner
      have hid := (hdone rfl).2 id
      rw [onID_eq_nil_of_unclaimed hids hall hfree howner] at hid
      exact (Option.some.inj hid).symm
    split
    next hmoved =>
      simp only [hmoved] at hroll
      rw [rollback_eq hids (hto.perm hnew) h.within (hroll _ rfl)]
      exact h
    rename_i history hmoved
    have hrecords := records_of_movedHistory hmoved
    refine h.renew rfl rfl (hto.perm hnew) rfl (hrecords ▸ h.history) hkeeps ⟨durable, ?_, ?_⟩
    · rw [← hdurable]
      exact congrArg (fun records => Option.map _ (Storage.lineage records target)) hrecords
    · obtain ⟨durable₀, -, hclaims⟩ := h.claims
      intro id
      change Claim (r.overlayOwners.lookup id) (shadows.lookup id) ((newStateMap newState).get id) (durable.get id)
      cases howner : r.overlayOwners.lookup id with
      | none =>
        obtain ⟨hsame, hnone⟩ := hcomposed.unclaimed id howner
        rw [hnone, hget, hsame]
        rfl
      | some owner =>
        rw [hkeeps id owner howner]
        cases hshadow : r.overlayShadows.lookup id with
        | none =>
          obtain ⟨hnone, hnone'⟩ := hcomposed.added id owner howner hshadow
          rw [hnone']
          exact ⟨((hclaims id).added howner hshadow).1, hnone⟩
        | some shadow =>
          obtain ⟨entry, hentry, hrebased⟩ := hcomposed.shadowed id shadow hshadow
          obtain ⟨howner', -, hremoved⟩ := (hclaims id).shadowed hshadow
          rw [hrebased]
          exact ⟨Option.some.inj (howner'.symm.trans howner), hentry, hremoved⟩

theorem Sound.applyVersion {v : Nat}
    (hrefused : r.currentVersion ≠ v → ¬ (env.readFails || !r.history.getVersion v) → ∀ allOps shadows,
      r.versionPlanned sv v = .ok (allOps, shadows) →
      ¬ BusRunner.Refused (sv.runner.transition r.state allOps env.transition).trace)
    (hroll : RollsBack (r.applyVersion sv v env).2) :
    Sound ids (r.applyVersion sv v env).1 := by
  unfold Reg.applyVersion at hroll ⊢
  split
  · split
    · exact h
    next history hmoved =>
      exact h.congr rfl rfl (records_of_movedHistory hmoved) rfl rfl rfl rfl
  rename_i hcurrent
  rw [if_neg hcurrent] at hroll
  split
  · exact h
  rename_i hreads
  rw [if_neg hreads] at hroll
  split
  · exact h
  next allOps shadows hplanned =>
    simp only [hplanned] at hroll
    exact h.versionDispatch hcompare hids hplanned (hrefused hcurrent hreads allOps shadows hplanned) hroll

end
end Version
end Reg
end Wippy.Registry
