import Wippy.Registry.Overlay
import Wippy.Theorems.Registry.Transition

/-! Facts about the parts of the registry: the IDs it works with, transitions and rollbacks between states, and the
    durable state of a version. -/

namespace Wippy.Registry
open Lib Wippy.Registry.Topology List Option

variable {ops cs : ChangeSet} {op : Operation}

/-- Canonical IDs that are told apart. -/
structure IDSpace (ids : ID → Prop) : Prop where
  canonical : ∀ id, ids id → id.canonical = id
  separate : ∀ a b, ids a → ids b → a ≠ b → a.identity ≠ b.identity

/-- A state of such IDs, each once. -/
structure Within (ids : ID → Prop) (state : State) : Prop where
  nodup : (state.map Entry.id).Nodup
  known : ∀ entry ∈ state, ids entry.id

section
variable {ids : ID → Prop} {state state' : State}

theorem IDSpace.distinct (hids : IDSpace ids) {a b : ID} (ha : ids a) (hb : ids b) (hne : a ≠ b) :
    a.equal b = false ∧ a.identity ≠ b.identity := by
  refine ⟨?_, hids.separate a b ha hb hne⟩
  rw [Bool.eq_false_iff, Ne, ID.equal_iff, hids.canonical a ha, hids.canonical b hb]
  exact hne

theorem IDSpace.distinctIDs (hids : IDSpace ids) (hnd : (ops.map Operation.id).Nodup)
    (hknown : ∀ op ∈ ops, ids op.id) : DistinctIDs ops :=
  (pairwise_map.mp hnd).imp_of_mem fun ha hb hne => (hids.distinct (hknown _ ha) (hknown _ hb) hne).1

theorem Within.uniqueIDs (h : Within ids state) (hids : IDSpace ids) : UniqueIDs state :=
  .of_nodup h.nodup fun a ha b hb hne => hids.distinct (h.known a ha) (h.known b hb) hne

theorem Within.perm (h : Within ids state) (hperm : state'.Perm state) : Within ids state' :=
  ⟨(hperm.map _).nodup_iff.mpr h.nodup, fun entry hentry => h.known entry (hperm.mem_iff.mp hentry)⟩

theorem Within.of_get {sm : StateMap} (h : ∀ id entry, sm.get id = some entry → ids id) : Within ids sm.entries :=
  ⟨sm.distinct, fun entry hentry => h entry.id entry (Keyed.get_of_mem hentry)⟩

theorem separate_knownIDs (hids : IDSpace ids) (h : Within ids state) (hcs : ∀ op ∈ cs, ids op.id) :
    BusRunner.Separate (BusRunner.knownIDs state cs) := by
  have hknown : ∀ id ∈ BusRunner.knownIDs state cs, ids id := by
    intro id hid
    rcases mem_append.mp hid with hid | hid
    · obtain ⟨entry, hentry, rfl⟩ := List.mem_map.mp hid
      exact h.known entry hentry
    · obtain ⟨op, hop, rfl⟩ := List.mem_map.mp hid
      exact hcs op (mem_filter.mp hop).1
  exact fun a ha b hb => hids.distinct (hknown a ha) (hknown b hb)

theorem stateMapToSlice_perm (sm : StateMap) : (stateMapToSlice sm).Perm sm.entries := perm_insertionSort _ _

theorem perm_of_get_newStateMap (h : (state.map Entry.id).Nodup) (h' : (state'.map Entry.id).Nodup)
    (hget : ∀ id, (newStateMap state).get id = (newStateMap state').get id) : state.Perm state' :=
  ((entries_newStateMap_perm h).symm.trans (Keyed.perm_of_get hget)).trans (entries_newStateMap_perm h')

theorem get_newStateMap_perm (hperm : state.Perm state') (h : (state'.map Entry.id).Nodup) (id : ID) :
    (newStateMap state).get id = (newStateMap state').get id :=
  get_newStateMap_of_perm (hperm.trans (entries_newStateMap_perm h).symm) id

end

/-! ### Transitions between states -/

namespace Reg
variable {sv : Services} {ids : ID → Prop} {r : Reg} {fromState toState : State} {env : Environment}

theorem onID_of_nodup (h : (cs.map Operation.id).Nodup) (hop : op ∈ cs) : onID op.id cs = [op] := by
  have hmem : op ∈ onID op.id cs := mem_onID.mpr ⟨hop, rfl⟩
  have hlength : (onID op.id cs).length ≤ 1 := count_ids cs op.id ▸ nodup_iff_count_le_one.mp h op.id
  obtain ⟨other, heq⟩ := length_eq_one_iff.mp (le_antisymm hlength (length_pos_of_mem hmem))
  rw [heq] at hmem ⊢
  rw [mem_singleton.mp hmem]

theorem settles_of_nodup (start : StateMap) (h : (cs.map Operation.id).Nodup) (id : ID) :
    Settles (start.get id) (onID id cs) := by
  rcases onID_cases id cs with hnil | ⟨op, hop, rfl⟩
  · rw [hnil]
    exact settles_nil _
  · rw [onID_of_nodup h hop]
    exact settles_singleton _ op

theorem onID_perm_of_nodup {cs cs' : ChangeSet} (h : (cs.map Operation.id).Nodup) (hperm : cs'.Perm cs) (id : ID) :
    onID id cs' = onID id cs := by
  have hon : (onID id cs').Perm (onID id cs) := hperm.filter _
  rcases onID_cases id cs with hnil | ⟨op, hop, rfl⟩
  · rw [hnil] at hon ⊢
    exact hon.eq_nil
  · rw [onID_of_nodup h hop] at hon ⊢
    exact hon.eq_singleton

theorem known_of_delta {b : StateBuilder} (hfrom : Within ids fromState) (hto : Within ids toState) :
    ∀ op ∈ b.deltaOperations fromState toState, ids op.id := by
  intro op hop
  rw [StateBuilder.deltaOperations_eq] at hop
  rcases mem_append.mp hop with hop | hop
  · exact hfrom.known _ (StateBuilder.mem_removed.mp hop).1
  · exact hto.known _ (StateBuilder.mem_changed.mp hop).1

section
variable (env) (hcompare : ∀ x y, sv.runner.builder.compare x y = true ↔ x = y) (hids : IDSpace ids)
  (hfrom : Within ids fromState) (hto : Within ids toState)
include hcompare hids hfrom hto

omit hids in
theorem perm_of_transition (hperm : cs.Perm (sv.runner.builder.deltaOperations fromState toState))
    (herr : (sv.runner.transition fromState cs env).err = none) :
    (sv.runner.transition fromState cs env).state.Perm toState := by
  have hnd : (cs.map Operation.id).Nodup :=
    (hperm.map _).nodup_iff.mpr (StateBuilder.nodup_deltaOperations hfrom.nodup hto.nodup)
  obtain ⟨result, happ, hstate, -⟩ := BusRunner.transition_succeeded (settles_of_nodup _ hnd) herr
  refine (hstate.trans ?_).trans (entries_newStateMap_perm hto.nodup)
  exact Keyed.perm_of_get
    (StateBuilder.get_of_perm_deltaOperations hcompare hfrom.nodup hto.nodup hperm (fun _ => rfl) happ)

theorem transitionState_ok (h : (transitionState sv fromState toState env).2 = none) :
    ∃ newState, (transitionState sv fromState toState env).1 = some newState ∧ newState.Perm toState := by
  unfold transitionState at h ⊢
  split at h
  · cases h
  next hdelta =>
    have hperm := StateBuilder.perm_of_buildDelta (hfrom.uniqueIDs hids) (hto.uniqueIDs hids) hdelta
    refine ⟨fromState, rfl, perm_of_get_newStateMap hfrom.nodup hto.nodup ?_⟩
    exact StateBuilder.get_of_perm_deltaOperations hcompare hfrom.nodup hto.nodup hperm (fun _ => rfl) rfl
  next cs _ hdelta =>
    have hperm := StateBuilder.perm_of_buildDelta (hfrom.uniqueIDs hids) (hto.uniqueIDs hids) hdelta
    exact ⟨_, rfl, perm_of_transition env hcompare hfrom hto hperm (by simpa using h)⟩

end

theorem rollback_eq (hids : IDSpace ids) (hfrom : Within ids fromState) (hto : Within ids toState)
    (h : ∀ err, (r.rollback sv fromState toState env).2 ≠ some (.run err)) :
    r.rollback sv fromState toState env = (r, none) := by
  unfold rollback at h ⊢
  split
  · rfl
  rename_i left err heq
  simp only [heq] at h
  cases err with
  | run err => exact absurd rfl (h err)
  | compute err =>
    -- There is a difference between two states without duplicates.
    obtain ⟨delta, hdelta, -⟩ :=
      StateBuilder.buildDelta_perm (b := sv.runner.builder) (hfrom.uniqueIDs hids) (hto.uniqueIDs hids)
    unfold transitionState at heq
    rw [hdelta] at heq
    cases delta with
    | nil => cases heq
    | cons op delta =>
      have hrun := congrArg Prod.snd heq
      obtain ⟨err', -, hcases⟩ := map_eq_some_iff.mp hrun
      cases hcases

theorem afterFailure_eq (hids : IDSpace ids) (hstate : Within ids r.state) {newState : State}
    (hnew : newState.Perm r.state) {env : CallEnvironment}
    (h : ∀ err, (r.afterFailure sv newState env).2 ≠ some (.run err)) :
    r.afterFailure sv newState env = (r, none) := by
  unfold afterFailure at h ⊢
  split
  · rfl
  next hc =>
    rw [if_neg hc] at h
    exact rollback_eq hids (hstate.perm hnew) hstate h

end Reg

/-! ### The durable state -/

/-- What the last of the operations leaves. -/
def lastOutcome (existing : Option Entry) (ops : ChangeSet) : Option Entry :=
  ops.foldl (fun _ op => op.outcome) existing

theorem lastOutcome_of_replay {existing final : Option Entry} (h : replay existing ops = some final) :
    lastOutcome existing ops = final := by
  induction ops generalizing existing with
  | nil =>
    cases h
    rfl
  | cons op ops ih => exact ih (valid_of_replay_cons h).2

theorem lastOutcome_map {f : Operation → Operation} (hid : ∀ op ∈ ops, (f op).id = op.id)
    (hout : ∀ op ∈ ops, (f op).outcome = op.outcome) (existing : Option Entry) (id : ID) :
    lastOutcome existing (onID id (ops.map f)) = lastOutcome existing (onID id ops) := by
  induction ops generalizing existing with
  | nil => rfl
  | cons op ops ih =>
    have ih := ih (fun op' h => hid op' (mem_cons_of_mem _ h)) fun op' h => hout op' (mem_cons_of_mem _ h)
    have hop := hid op mem_cons_self
    rw [map_cons]
    by_cases heq : op.id = id
    · subst heq
      have hself : onID op.id (f op :: ops.map f) = f op :: onID op.id (ops.map f) := by
        rw [← hop]
        exact onID_cons_self
      rw [onID_cons_self, hself]
      exact (congrArg (fun x => lastOutcome x _) (hout op mem_cons_self)).trans (ih _)
    · rw [onID_cons_of_ne _ heq, onID_cons_of_ne _ (hop.symm ▸ heq)]
      exact ih _

theorem canonicalizeEntryID_of_canonical {entry : Entry} (h : entry.id.canonical = entry.id) :
    canonicalizeEntryID entry = entry := by
  unfold canonicalizeEntryID
  rw [h]

theorem get_applyStateOperation (sm : StateMap) (h : op.id.canonical = op.id) (id : ID) :
    (applyStateOperation sm op).get id = if id = op.id then op.outcome else sm.get id := by
  unfold applyStateOperation
  rw [canonicalizeEntryID_of_canonical h, h]
  exact get_applyValidatedOperation sm op id

theorem get_applyStateOperations (h : ∀ op ∈ ops, op.id.canonical = op.id) (sm : StateMap) (id : ID) :
    (applyStateOperations sm ops).get id = lastOutcome (sm.get id) (onID id ops) := by
  induction ops generalizing sm with
  | nil => rfl
  | cons op ops ih =>
    have hop := h op mem_cons_self
    refine (ih (fun op' h' => h op' (mem_cons_of_mem _ h')) (applyStateOperation sm op)).trans ?_
    rw [get_applyStateOperation sm hop]
    by_cases heq : op.id = id
    · subst heq
      rw [if_pos rfl, onID_cons_self]
      rfl
    · rw [if_neg (Ne.symm heq), onID_cons_of_ne _ heq]

theorem enrichOperation_eq (state : StateMap) (op : Operation) :
    ∃ original, enrichOperation state op = { op with originalEntry := original } := by
  unfold enrichOperation
  split
  · exact ⟨_, rfl⟩
  · exact ⟨_, rfl⟩
  · exact ⟨op.originalEntry, rfl⟩

theorem canonicalize_enrich (h : op.id.canonical = op.id) (state : StateMap) :
    (canonicalizeOperation (enrichOperation state op)).id = op.id ∧
      (canonicalizeOperation (enrichOperation state op)).outcome = op.outcome := by
  obtain ⟨original, heq⟩ := enrichOperation_eq state op
  have hentry : (canonicalizeOperation (enrichOperation state op)).entry = op.entry := by
    rw [heq]
    exact canonicalizeEntryID_of_canonical h
  have hkind : (canonicalizeOperation (enrichOperation state op)).kind = op.kind := by rw [heq]; rfl
  refine ⟨congrArg Entry.id hentry, ?_⟩
  unfold Operation.outcome
  rw [hentry, hkind]

theorem get_replayed (h : ∀ op ∈ ops, op.id.canonical = op.id) (state sm : StateMap) (id : ID) :
    (applyStateOperations sm (canonicalizeChangeSetIDs (enrichChangeset state ops))).get id =
      lastOutcome (sm.get id) (onID id ops) := by
  unfold canonicalizeChangeSetIDs enrichChangeset
  rw [List.map_map, get_applyStateOperations]
  · exact lastOutcome_map (fun op hop => (canonicalize_enrich (h op hop) state).1)
      (fun op hop => (canonicalize_enrich (h op hop) state).2) _ _
  · intro op hop
    obtain ⟨op', hop', rfl⟩ := List.mem_map.mp hop
    have hid := (canonicalize_enrich (h op' hop') state).1
    rw [Function.comp_apply, hid]
    exact h op' hop'

theorem known_replayOnto {ids : ID → Prop} (hids : IDSpace ids) (sm : StateMap) {lineage : List ChangeSet}
    (hsm : ∀ id entry, sm.get id = some entry → ids id)
    (hlineage : ∀ changes ∈ lineage, ∀ op ∈ changes, ids op.id.canonical) :
    ∀ id entry, (replayOnto sm lineage).get id = some entry → ids id := by
  induction lineage generalizing sm with
  | nil => exact hsm
  | cons changes lineage ih =>
    obtain ⟨hchanges, hlineage⟩ := forall_mem_cons.mp hlineage
    refine ih (applyStateOperations sm (canonicalizeChangeSetIDs changes)) ?_ hlineage
    intro id entry hget
    have hops : ∀ op ∈ canonicalizeChangeSetIDs changes, ids op.id := by
      intro op hop
      obtain ⟨op', hop', rfl⟩ := List.mem_map.mp hop
      exact hchanges op' hop'
    rw [get_applyStateOperations fun op hop => hids.canonical _ (hops op hop)] at hget
    cases hon : onID id (canonicalizeChangeSetIDs changes) with
    | nil =>
      rw [hon] at hget
      exact hsm id entry hget
    | cons op ops =>
      have hmem : op ∈ onID id (canonicalizeChangeSetIDs changes) := by simp [hon]
      obtain ⟨hop, rfl⟩ := mem_onID.mp hmem
      exact hops op hop

namespace Storage
variable {s s' : Storage}

theorem save_eq_ok {id parent : Nat} {changes : ChangeSet} (h : s.save id parent changes = .ok s') :
    s'.records = ⟨id, parent, changes⟩ :: s.records ∧
      s'.replayChanges id = (s.replayChanges parent).map (· ++ [changes]) := by
  unfold save at h
  split at h
  · cases h
  rename_i hfresh
  split at h
  · cases h
  split at h
  · cases h
  cases h
  have hid : id ≠ 0 := by
    rintro rfl
    exact hfresh (by simp [getVersion])
  simp [replayChanges, lineage, hid]

theorem compareAndSetHead_eq_ok {expected target : Nat} (h : s.compareAndSetHead expected target = .ok s') :
    s'.records = s.records := by
  unfold compareAndSetHead at h
  split at h
  · cases h
  split at h
  · cases h
  cases h
  rfl

theorem mem_lineage {records : List VersionRecord} {version : Nat} {found : List ChangeSet}
    (h : lineage records version = some found) : ∀ changes ∈ found, ∃ rec ∈ records, rec.changes = changes := by
  fun_induction lineage records version generalizing found with
  | case1 | case3 =>
    cases h
    simp
  | case2 => cases h
  | case4 rec older hne ih =>
    obtain ⟨before, hbefore, rfl⟩ := map_eq_some_iff.mp h
    intro changes hchanges
    rcases mem_append.mp hchanges with hchanges | hchanges
    · obtain ⟨rec', hrec', heq⟩ := ih hbefore changes hchanges
      exact ⟨rec', mem_cons_of_mem _ hrec', heq⟩
    · exact ⟨rec, mem_cons_self, (mem_singleton.mp hchanges).symm⟩
  | case5 rec older version _ _ ih =>
    intro changes hchanges
    obtain ⟨rec', hrec', heq⟩ := ih h changes hchanges
    exact ⟨rec', mem_cons_of_mem _ hrec', heq⟩

end Storage

/-! ### The operations of an apply -/

theorem id_normalizeOperation (state : StateMap) (op : Operation) : (normalizeOperation state op).1.id = op.id := by
  unfold normalizeOperation
  cases op.kind with
  | create => rfl
  | update =>
    cases state.get op.id <;> rfl
  | delete =>
    cases hget : state.get op.id with
    | none => rfl
    | some entry =>
      have hkey : entry.id = op.id := Keyed.key_of_get hget
      exact hkey

theorem ids_normalizeRegistryMetadata (state : StateMap) (changes : ChangeSet) :
    (normalizeRegistryMetadata state changes).map Operation.id = changes.map Operation.id := by
  induction changes generalizing state with
  | nil => rfl
  | cons op changes ih =>
    unfold normalizeRegistryMetadata
    rw [map_cons, map_cons, id_normalizeOperation, ih]

end Wippy.Registry
