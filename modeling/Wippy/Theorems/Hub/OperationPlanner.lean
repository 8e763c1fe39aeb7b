import Wippy.Hub.OperationPlanner
import Wippy.Theorems.Registry.Replay

/-! A plan of operations leads to the desired entries and breaks no reference, apart from those of entries that it does
    not look at. -/

namespace Wippy.Hub
open Lib Registry Registry.Topology List Option

/-- No two of the entries have one key. -/
def KeysDistinct (entries : List Entry) : Prop := (entries.map fun entry => idKey entry.id).Nodup

/-- A reference from an entry of the namespace `ns` leads to the entry `d`. -/
def LeadsTo (ns : Bytes) (d : Entry) : Topology.Dependency → Prop
  | .direct value => resolveDependencyID ns value = d.id
  | .group value => value ∈ d.groups
  | .ns value => d.id.ns ≠ [] ∧ d.id.ns = value

/-- An entry refers to another one, directly, by a group or by its namespace. -/
def DependsOn (extract : Entry → List Bytes) (e d : Entry) : Prop :=
  ∃ dep ∈ e.dependsOn ++ extract e, LeadsTo e.id.ns d (parseDependency dep)

section
variable (extract : Entry → List Bytes) (orders : PlanOrders) (opts : OperationPlanOptions)
  (current desired : List Entry)

/-- An entry of a controlled module, which the plan deletes if it is not desired. -/
abbrev Controlled (e : Entry) : Prop := missingDesiredEntryWillBeDeleted e opts.controlledModules = true

/-- The state that the registry is led to is as claimed. -/
structure Reaches (final : StateMap) : Prop where
  wanted : ∀ w ∈ desired, idKey w.id ≠ opts.originalKey → final.get w.id = some w ∨
    ∃ c ∈ current, final.get w.id = some c ∧ preserveImmutableResidentEntry opts c w = true
  outside : ∀ c ∈ current, ¬ Controlled opts c → final.get c.id = some c
  deleted : ∀ c ∈ current, final.get c.id = none → Controlled opts c ∧ ∀ w ∈ desired, idKey w.id ≠ idKey c.id
  intact : ∀ e ∈ final.entries, ∀ d ∈ current, final.get d.id = none → ¬ DependsOn extract e d

/-- The keys that the plan recreates. -/
def recreated : Finset Bytes :=
  (kindReplacementClosure (some extract) opts (byID current) (byID desired) orders.rounds).toOption.getD ∅

/-- The current entry stays in the place of the desired one. -/
def Stays (c w : Entry) : Prop :=
  idKey w.id = opts.originalKey ∨ idKey w.id ∉ recreated extract orders opts current desired ∧
    (entriesEqual c w || preserveImmutableResidentEntry opts c w) = true

instance instDecidableStays (c w : Entry) : Decidable (Stays extract orders opts current desired c w) :=
  inferInstanceAs (Decidable (_ ∨ _))

/-- The entry that a plan leaves in the place of a current and a desired one. -/
def leaves : Option Entry → Option Entry → Option Entry
  | none, none => none
  | none, some w => if idKey w.id = opts.originalKey then none else some w
  | some c, none => if deletes (some extract) opts (byID current) (byID desired) c then none else some c
  | some c, some w => if Stays extract orders opts current desired c w then some c else some w

/-- The entry that a plan leaves under an ID. -/
def left (id : ID) : Option Entry :=
  leaves extract orders opts current desired ((newStateMap current).get id) ((newStateMap desired).get id)

/-- An entry that is there after the plan, but whose references the plan does not look at: one that is created, one that
    is expected to be deleted but stays, or one that stays although another version is desired. -/
def Overlooked (e : Entry) : Prop :=
  left extract orders opts current desired e.id = some e ∧
    ∀ c ∈ current, c.id = e.id → lookedAt opts (byID desired) c ≠ some e

/-- A current and a desired entry with one key, the original target apart, have one ID. -/
def Spelled : Prop :=
  ∀ c ∈ current, ∀ w ∈ desired, idKey c.id = idKey w.id → idKey w.id ≠ opts.originalKey → c.id = w.id

/-- No ID is spelled in two ways, what is desired outside the controlled modules is there, and what the plan does not
    look at depends on no entry that it deletes. -/
structure NothingOverlooked : Prop where
  spelled : Spelled opts current desired
  outside : ∀ c ∈ current, ∀ w ∈ desired, c.id = w.id → idKey w.id ≠ opts.originalKey → ¬ Controlled opts c →
    c = w ∨ preserveImmutableResidentEntry opts c w = true ∧
      idKey w.id ∉ recreated extract orders opts current desired
  references : ∀ e, Overlooked extract orders opts current desired e → ∀ d ∈ current,
    left extract orders opts current desired d.id = none → ¬ DependsOn extract e d

end

section
variable {entries : List Entry} {e : Entry}

theorem KeysDistinct.nodup (h : KeysDistinct entries) : (entries.map Entry.id).Nodup := by
  refine Nodup.of_map idKey ?_
  rw [List.map_map]
  exact h

theorem KeysDistinct.get (h : KeysDistinct entries) (he : e ∈ entries) : (newStateMap entries).get e.id = some e :=
  (get_newStateMap h.nodup).mpr ⟨he, rfl⟩

theorem inOrder_perm (order : List Entry) (h : KeysDistinct entries) : ((byID entries).inOrder order).Perm entries := by
  refine Perm.trans ?_ (Keyed.entries_ofList_perm h)
  unfold Entries.inOrder
  split
  next hperm => exact isPerm_iff.mp hperm
  next => exact .refl _

/-! ### Operations that are grouped by entries -/

variable {group : Entry → List Operation} (hgroup : ∀ e ∈ entries, ∀ op ∈ group e, op.id = e.id)
include hgroup

theorem onID_flatMap_of_ne {id : ID} (hid : ∀ e ∈ entries, e.id ≠ id) : onID id (entries.flatMap group) = [] := by
  refine filter_eq_nil_iff.mpr fun op hop heq => ?_
  obtain ⟨e, he, hop⟩ := mem_flatMap.mp hop
  exact hid e he ((hgroup e he op hop).symm.trans (of_decide_eq_true heq))

theorem onID_flatMap_of_mem (hnd : (entries.map Entry.id).Nodup) (he : e ∈ entries) :
    onID e.id (entries.flatMap group) = group e := by
  obtain ⟨before, after, rfl⟩ := append_of_mem he
  rw [map_append, map_cons, nodup_append, nodup_cons] at hnd
  obtain ⟨hbefore, hself, hafter⟩ := by simpa [or_imp, forall_and] using hgroup
  have hall : onID e.id (group e) = group e := filter_eq_self.mpr fun op hop => decide_eq_true (hself op hop)
  rw [flatMap_append, flatMap_cons, onID_append, onID_append, hall, onID_flatMap_of_ne hbefore,
    onID_flatMap_of_ne hafter, nil_append, append_nil]
  · exact fun e' he' heq => hnd.2.1.1 (heq ▸ List.mem_map_of_mem he')
  · exact fun e' he' heq => hnd.2.2 _ (List.mem_map_of_mem he') _ mem_cons_self heq

end

section
variable {extract : Entry → List Bytes} {orders : PlanOrders} {opts : OperationPlanOptions}
  {current desired : List Entry} {recreate : Finset Bytes} {ops : List Operation} {c d e w : Entry}

theorem plan_eq_ok (h : plan (some extract) orders current desired opts = .ok ops) : ∃ recreate group,
    kindReplacementClosure (some extract) opts (byID current) (byID desired) orders.rounds = .ok recreate ∧
    ops = ((byID desired).inOrder orders.desired).flatMap group ++ ((byID current).inOrder orders.current).flatMap
      (currentOperations (some extract) opts (byID current) (byID desired)) ∧
    ∀ w ∈ (byID desired).inOrder orders.desired, desiredOperations opts (byID current) recreate w = .ok (group w) := by
  obtain ⟨recreate, hclosure, h⟩ := exists_of_bind_eq_ok h
  obtain ⟨first, hfirst, h⟩ := exists_of_bind_eq_ok h
  obtain ⟨group, rfl, hgroup⟩ := foldlM_append_eq_ok hfirst
  cases h
  exact ⟨recreate, group, hclosure, by rw [nil_append], hgroup⟩

/-! ### What is recreated -/

theorem closeEntry_subset {currentByID desiredByID : Entries} {next : Finset Bytes}
    (h : closeEntry opts currentByID desiredByID extract recreate c = .ok next) : recreate ⊆ next := by
  unfold closeEntry at h
  split at h
  · cases h
    exact Finset.Subset.refl _
  split at h
  · cases h
  split at h
  · cases h
  cases h
  exact Finset.subset_insert ..

theorem closeRounds_subset {currentByID desiredByID : Entries} {orders : Nat → List Entry} {fuel : Nat}
    {next : Finset Bytes} (h : closeRounds opts currentByID desiredByID extract orders fuel recreate = .ok next) :
    recreate ⊆ next := by
  induction fuel generalizing recreate with
  | zero =>
    cases h
    exact Finset.Subset.refl _
  | succ fuel ih =>
    obtain ⟨mid, hmid, h⟩ := exists_of_bind_eq_ok h
    split at h
    · cases h
      exact Finset.Subset.refl _
    exact (foldlM_induction (motive := fun s => recreate ⊆ s) hmid (Finset.Subset.refl _) fun _ _ _ _ hs hstep =>
      hs.trans (closeEntry_subset hstep)).trans (ih h)

theorem kind_of_notMem (h : kindReplacementClosure (some extract) opts (byID current) (byID desired) orders.rounds =
      .ok recreate) (hc : c ∈ (byID current).entries) (hw : (byID desired).get (idKey c.id) = some w)
    (hnot : idKey c.id ∉ recreate) : c.kind = w.kind := by
  by_contra hne
  have hchanged : idKey c.id ∈ kindChanged (byID current) (byID desired) := by
    refine mem_toFinset.mpr (List.mem_map_of_mem (mem_filter.mpr ⟨hc, ?_⟩))
    simp [hw, hne]
  unfold kindReplacementClosure at h
  dsimp only at h
  split at h
  next hempty => simp [hempty] at hchanged
  next => exact hnot (closeRounds_subset h hchanged)

/-! ### What a plan leaves -/

/-- The operations on a desired entry: none for the original target, a create, or what a current entry asks for. -/
theorem desiredOperations_cases {currentByID : Entries} (h : desiredOperations opts currentByID recreate w = .ok ops) :
    (idKey w.id = opts.originalKey ∧ ops = []) ∨ idKey w.id ≠ opts.originalKey ∧
    ((currentByID.get (idKey w.id) = none ∧ ops = [{ kind := .create, entry := w }]) ∨
    ∃ c, currentByID.get (idKey w.id) = some c ∧
      ((idKey w.id ∈ recreate ∧ ops = [{ kind := .delete, entry := c }, { kind := .create, entry := w }]) ∨
      idKey w.id ∉ recreate ∧ if entriesEqual c w || preserveImmutableResidentEntry opts c w then ops = []
        else ops = [{ kind := .update, entry := w }])) := by
  unfold desiredOperations at h
  grind

theorem create_of_desiredOperations {op : Operation} (h : desiredOperations opts (byID current) recreate w = .ok ops)
    (hop : op ∈ ops) (hkind : op.kind = .create) : op.entry = w ∧
    ∀ c, (byID current).get (idKey w.id) = some c → { kind := .delete, entry := c } ∈ ops := by
  rcases desiredOperations_cases h with ⟨-, rfl⟩ | ⟨-, ⟨hnone, rfl⟩ | ⟨c, hc, ⟨-, rfl⟩ | ⟨-, hops⟩⟩⟩
  · cases hop
  · simp [hnone, mem_singleton.mp hop]
  · grind
  · grind

theorem mem_currentOperations {op : Operation}
    (h : op ∈ currentOperations (some extract) opts (byID current) (byID desired) c) :
    op.id = c.id ∧ op.kind = .delete ∧ deletes (some extract) opts (byID current) (byID desired) c = true := by
  unfold currentOperations at h
  split at h
  next hdel =>
    rw [mem_singleton.mp h]
    exact ⟨rfl, rfl, hdel⟩
  next => cases h

theorem eq_of_entriesEqual (hid : c.id = w.id) (h : entriesEqual c w = true) : c = w := by
  simp only [entriesEqual, Bool.and_eq_true, decide_eq_true_eq] at h
  cases c
  cases w
  simp_all

/-- The assumptions under which a plan can be followed ID by ID. -/
structure Unambiguous (opts : OperationPlanOptions) (current desired : List Entry) : Prop where
  spelled : Spelled opts current desired
  current : KeysDistinct current
  desired : KeysDistinct desired

variable (h : Unambiguous opts current desired)
include h

theorem Unambiguous.get_current (hw : w ∈ desired) (horiginal : idKey w.id ≠ opts.originalKey) :
    (byID current).get (idKey w.id) = (newStateMap current).get w.id := by
  refine Option.ext fun c => ?_
  rw [byID, Keyed.get_ofList h.current, get_newStateMap h.current.nodup]
  exact and_congr_right fun hc => ⟨fun hkey => h.spelled c hc w hw hkey horiginal, congrArg idKey⟩

theorem replay_desiredOperations
    (hclosure : kindReplacementClosure (some extract) opts (byID current) (byID desired) orders.rounds = .ok recreate)
    (hw : w ∈ desired) (hops : desiredOperations opts (byID current) recreate w = .ok ops) :
    (∀ op ∈ ops, op.id = w.id) ∧ replay ((newStateMap current).get w.id) ops =
      some (leaves extract orders opts current desired ((newStateMap current).get w.id) (some w)) := by
  have hrecreated : recreated extract orders opts current desired = recreate := by
    rw [recreated, hclosure]
    rfl
  rcases desiredOperations_cases hops with ⟨horiginal, rfl⟩ | ⟨horiginal, hcases⟩
  · cases (newStateMap current).get w.id <;> simp [leaves, Stays, horiginal, replay]
  rw [h.get_current hw horiginal] at hcases
  rcases hcases with ⟨hnone, rfl⟩ | ⟨c, hc, hcases⟩
  · simp [hnone, leaves, horiginal, replay, Operation.id, Operation.Valid, Operation.outcome]
  obtain ⟨hcm, hid⟩ := (get_newStateMap h.current.nodup).mp hc
  rw [hc, leaves]
  rcases hcases with ⟨hin, rfl⟩ | ⟨hin, hcases⟩
  · simp [Stays, horiginal, hrecreated, hin, hid, replay, Operation.id, Operation.Valid, Operation.outcome]
  split at hcases
  next hsame => simp [Stays, horiginal, hrecreated, hin, hsame, hcases, replay]
  next hchanged =>
    have hdesired : (byID desired).get (idKey c.id) = some w := (Keyed.get_ofList h.desired).mpr ⟨hw, hid ▸ rfl⟩
    have hkind : c.kind = w.kind :=
      kind_of_notMem hclosure ((Keyed.entries_ofList_perm h.current).mem_iff.mpr hcm) hdesired (hid ▸ hin)
    simp [Stays, horiginal, hchanged, hkind, hcases, replay, Operation.id, Operation.Valid, Operation.outcome]

theorem deletes_of_left (hc : c ∈ current) (hnone : left extract orders opts current desired c.id = none) :
    deletes (some extract) opts (byID current) (byID desired) c = true := by
  rw [left, h.current.get hc] at hnone
  by_contra hdel
  cases hw : (newStateMap desired).get c.id with
  | none => simp [hw, leaves, hdel] at hnone
  | some w =>
    simp only [hw, leaves] at hnone
    split at hnone <;> cases hnone

theorem entryDependsOn_iff (hd : d ∈ current) :
    entryDependsOn extract (dependencyEntryUniverse [byID current]) d.id e = true ↔ DependsOn extract e d := by
  -- the only entry with the ID of `d` is `d`
  have hmembers (p : Entry → Bool) : d.id ∈ ((byID current).entries.filter p).map Entry.id ↔ p d = true := by
    rw [List.mem_map]
    constructor
    · rintro ⟨d', hd', hid⟩
      obtain ⟨hmem, hp⟩ := mem_filter.mp hd'
      have hmem := (Keyed.entries_ofList_perm h.current).mem_iff.mp hmem
      exact inj_on_of_nodup_map h.current.nodup hmem hd hid ▸ hp
    · exact fun hp => ⟨d, mem_filter.mpr ⟨(Keyed.entries_ofList_perm h.current).mem_iff.mpr hd, hp⟩, rfl⟩
  simp only [entryDependsOn, mentioned, List.any_eq_true, decide_eq_true_eq, exists_eq_right, mem_flatMap]
  refine exists_congr fun dep => and_congr_right fun _ => ?_
  cases parseDependency dep with
  | direct value => exact mem_singleton.trans eq_comm
  | group value => simp [dependencyEntryUniverse, hmembers, LeadsTo]
  | ns value => simp [dependencyEntryUniverse, hmembers, LeadsTo]

section
variable (hplan : plan (some extract) orders current desired opts = .ok ops)
include hplan

theorem replay_plan (id : ID) :
    replay ((newStateMap current).get id) (onID id ops) = some (left extract orders opts current desired id) := by
  obtain ⟨recreate, group, hclosure, rfl, hgroup⟩ := plan_eq_ok hplan
  have hdesired := inOrder_perm orders.desired h.desired
  have hcurrent := inOrder_perm orders.current h.current
  have hstep := fun w hw => replay_desiredOperations h hclosure (hdesired.mem_iff.mp hw) (hgroup w hw)
  have hids := fun w hw => (hstep w hw).1
  have hnd := (hdesired.map Entry.id).nodup_iff.mpr h.desired.nodup
  have hnd' := (hcurrent.map Entry.id).nodup_iff.mpr h.current.nodup
  unfold left
  rw [onID_append]
  cases hw : (newStateMap desired).get id with
  | some w =>
    obtain ⟨hwm, rfl⟩ := (get_newStateMap h.desired.nodup).mp hw
    have hnone : onID w.id (((byID current).inOrder orders.current).flatMap
        (currentOperations (some extract) opts (byID current) (byID desired))) = [] := by
      refine eq_nil_iff_forall_not_mem.mpr fun op hop => ?_
      obtain ⟨hop, hid⟩ := mem_onID.mp hop
      obtain ⟨c, hc, hop⟩ := mem_flatMap.mp hop
      obtain ⟨hid', -, hdel⟩ := mem_currentOperations hop
      have hkey : (byID desired).get (idKey c.id) = some w :=
        (Keyed.get_ofList h.desired).mpr ⟨hwm, congrArg idKey (hid.symm.trans hid')⟩
      simp [deletes, hkey] at hdel
    rw [onID_flatMap_of_mem hids hnd (hdesired.mem_iff.mpr hwm), hnone, append_nil]
    exact (hstep w (hdesired.mem_iff.mpr hwm)).2
  | none =>
    have hfree : ∀ w ∈ (byID desired).inOrder orders.desired, w.id ≠ id := by
      rintro w hwm rfl
      cases hw.symm.trans (h.desired.get (hdesired.mem_iff.mp hwm))
    rw [onID_flatMap_of_ne hids hfree, nil_append]
    cases hc : (newStateMap current).get id with
    | some c =>
      obtain ⟨hcm, rfl⟩ := (get_newStateMap h.current.nodup).mp hc
      rw [onID_flatMap_of_mem (fun c _ op hop => (mem_currentOperations hop).1) hnd' (hcurrent.mem_iff.mpr hcm)]
      unfold currentOperations leaves
      split
      next hdel => simp [hdel, replay, Operation.Valid, Operation.outcome]
      next hdel => simp [hdel, replay]
    | none =>
      rw [onID_flatMap_of_ne (fun c _ op hop => (mem_currentOperations hop).1) ?_]
      · rfl
      rintro c hcm rfl
      cases hc.symm.trans (h.current.get (hcurrent.mem_iff.mp hcm))

theorem exists_final : ∃ final, Registry.applyOperations (newStateMap current) ops = .ok final ∧
    ∀ id, final.get id = left extract orders opts current desired id := by
  obtain ⟨final, happ, hget⟩ := applyOperations_of_replay (replay_plan h hplan)
  exact ⟨final, happ, fun id => (hget id).symm⟩

end

variable {final : StateMap} (hfinal : ∀ id, final.get id = left extract orders opts current desired id)
include hfinal

theorem nothingOverlooked_of_reaches (hreaches : Reaches extract opts current desired final) :
    NothingOverlooked extract orders opts current desired := by
  refine ⟨h.spelled, fun c hc w hw hid horiginal hout => ?_, fun e hover d hd hnone => ?_⟩
  · have hsome := hreaches.outside c hc hout
    rw [hfinal, left, h.current.get hc,
      (get_newStateMap h.desired.nodup).mpr ⟨hw, hid.symm⟩, leaves] at hsome
    split at hsome
    next hstays =>
      obtain ⟨hnot, hsame⟩ := hstays.resolve_left horiginal
      exact (Bool.or_eq_true _ _ ▸ hsame).imp (eq_of_entriesEqual hid) fun hpreserve => ⟨hpreserve, hnot⟩
    next => exact .inl (Option.some.inj hsome).symm
  · have he : final.get e.id = some e := (hfinal _).trans hover.1
    exact hreaches.intact e (Keyed.get_eq_some.mp he).1 d hd ((hfinal _).trans hnone)

theorem reaches_of_nothingOverlooked (hnothing : NothingOverlooked extract orders opts current desired) :
    Reaches extract opts current desired final := by
  refine ⟨fun w hw horiginal => ?_, fun c hc hout => ?_, fun c hc hnone => ?_, fun e he d hd hnone => ?_⟩
  · rw [hfinal, left, h.desired.get hw]
    cases hget : (newStateMap current).get w.id with
    | none => simp [leaves, horiginal]
    | some c =>
      obtain ⟨hc, hid⟩ := (get_newStateMap h.current.nodup).mp hget
      rw [leaves]
      split
      next hstays =>
        rcases Bool.or_eq_true _ _ ▸ (hstays.resolve_left horiginal).2 with hequal | hpreserve
        · exact .inl (congrArg some (eq_of_entriesEqual hid hequal))
        · exact .inr ⟨c, hc, rfl, hpreserve⟩
      next => exact .inl rfl
  · rw [hfinal, left, h.current.get hc]
    cases hget : (newStateMap desired).get c.id with
    | none => simp [leaves, deletes, eq_false_of_ne_true hout]
    | some w =>
      obtain ⟨hw, hid⟩ := (get_newStateMap h.desired.nodup).mp hget
      rw [leaves]
      split
      · rfl
      next hstays =>
        rcases hnothing.outside c hc w hw hid.symm (fun heq => hstays (.inl heq)) hout with rfl | ⟨hpreserve, hnot⟩
        · rfl
        · exact absurd (.inr ⟨hnot, by simp [hpreserve]⟩) hstays
  · have hdel := deletes_of_left h hc ((hfinal _).symm.trans hnone)
    simp only [deletes, Bool.and_eq_true, isNone_iff_eq_none] at hdel
    refine ⟨hdel.1.2, fun w hw hkey => ?_⟩
    cases hdel.1.1.2.symm.trans ((Keyed.get_ofList h.desired).mpr ⟨hw, hkey⟩)
  · have hgone := (hfinal _).symm.trans hnone
    by_cases hover : Overlooked extract orders opts current desired e
    · exact hnothing.references e hover d hd hgone
    -- the plan looks at the entry when it decides to delete `d`
    obtain ⟨c, hc, hid, hlooked⟩ : ∃ c ∈ current, c.id = e.id ∧ lookedAt opts (byID desired) c = some e := by
      by_contra hno
      exact hover ⟨(hfinal _).symm.trans (Keyed.get_of_mem he), fun c hc hid hlooked => hno ⟨c, hc, hid, hlooked⟩⟩
    have hdel := deletes_of_left h hd hgone
    simp only [deletes, Bool.and_eq_true, Bool.not_eq_true', isNone_iff_eq_none] at hdel
    have hne : idKey c.id ≠ idKey d.id := by
      intro hkey
      obtain rfl := inj_on_of_nodup_map h.current hc hd hkey
      rw [lookedAt, hdel.1.1.2] at hlooked
      cases (if_pos hdel.1.2).symm.trans hlooked
    intro hdep
    have hlive : hasLiveDependent (some extract) opts (byID current) (byID desired) d.id = true := by
      refine List.any_eq_true.mpr ⟨c, (Keyed.entries_ofList_perm h.current).mem_iff.mpr hc, ?_⟩
      rw [hlooked, any_some, (entryDependsOn_iff h hd).mpr hdep, decide_eq_true hne]
      rfl
    cases hdel.2.symm.trans hlive

end

section
variable {extract : Entry → List Bytes} {orders : PlanOrders} {opts : OperationPlanOptions}
  {current desired : List Entry} {ops : List Operation} {final : StateMap}
  (hcurrent : KeysDistinct current) (hdesired : KeysDistinct desired)
  (hplan : plan (some extract) orders current desired opts = .ok ops)
include hcurrent hdesired hplan

omit hcurrent in
theorem create_of_plan {op : Operation} (hop : op ∈ ops) (hkind : op.kind = .create) : op.entry ∈ desired ∧
    ∀ c, (byID current).get (idKey op.id) = some c → { kind := .delete, entry := c } ∈ ops := by
  obtain ⟨recreate, group, -, rfl, hgroup⟩ := plan_eq_ok hplan
  rcases mem_append.mp hop with hop | hop
  · obtain ⟨w, hw, hop⟩ := mem_flatMap.mp hop
    obtain ⟨rfl, hdelete⟩ := create_of_desiredOperations (hgroup w hw) hop hkind
    refine ⟨(inOrder_perm orders.desired hdesired).mem_iff.mp hw, fun c hc => mem_append_left _ ?_⟩
    exact mem_flatMap.mpr ⟨_, hw, hdelete c hc⟩
  · obtain ⟨c, -, hop⟩ := mem_flatMap.mp hop
    cases (mem_currentOperations hop).2.1.symm.trans hkind

theorem spelled_of_reaches (happ : Registry.applyOperations (newStateMap current) ops = .ok final)
    (hreaches : Reaches extract opts current desired final) : Spelled opts current desired := by
  intro c hc w hw hkey horiginal
  by_contra hne
  have hreplay := replay_of_applyOperations happ
  -- under the ID of `w` there is an entry in the end, but not at the start
  have hthere : final.get w.id ≠ none := by
    rcases hreaches.wanted w hw horiginal with heq | ⟨_, -, heq, -⟩ <;> simp [heq]
  have habsent : (newStateMap current).get w.id = none := by
    refine eq_none_iff_forall_ne_some.mpr fun c' hc' => hne ?_
    obtain ⟨hmem, hid⟩ := (get_newStateMap hcurrent.nodup).mp hc'
    rw [inj_on_of_nodup_map hcurrent hc hmem (hkey.trans (congrArg idKey hid.symm)), hid]
  obtain ⟨op, hop, hkind⟩ := (exists_create_of_replay (hreplay w.id) hthere).resolve_left (absurd habsent)
  obtain ⟨hop, hid⟩ := mem_onID.mp hop
  have hdelete := (create_of_plan hdesired hplan hop hkind).2 c
    (hid ▸ (Keyed.get_ofList hcurrent).mpr ⟨hc, hkey⟩)
  -- so `c` is deleted, and what is created with its key is `w`
  have hgone : final.get c.id = none := by
    by_contra hkept
    obtain ⟨op', hop', hkind'⟩ := exists_create_of_delete (hreplay c.id) hkept (mem_onID.mpr ⟨hdelete, rfl⟩) rfl
    obtain ⟨hop', hid'⟩ := mem_onID.mp hop'
    have heq : op'.entry = w := inj_on_of_nodup_map hdesired (create_of_plan hdesired hplan hop' hkind').1 hw
      ((congrArg idKey hid').trans hkey)
    exact hne (hid'.symm.trans (congrArg Entry.id heq))
  exact (hreaches.deleted c hc hgone).2 w hw hkey.symm

/-- The registry executes a plan and is led to the desired state without a broken reference if and only if nothing is
    overlooked. -/
theorem plan_reaches_iff :
    (∃ final, Registry.applyOperations (newStateMap current) ops = .ok final ∧
      Reaches extract opts current desired final) ↔ NothingOverlooked extract orders opts current desired := by
  constructor
  · rintro ⟨final, happ, hreaches⟩
    have hspelled := spelled_of_reaches hcurrent hdesired hplan happ hreaches
    have h : Unambiguous opts current desired := ⟨hspelled, hcurrent, hdesired⟩
    obtain ⟨final', happ', hfinal⟩ := exists_final h hplan
    cases happ.symm.trans happ'
    exact nothingOverlooked_of_reaches h hfinal hreaches
  · intro hnothing
    have h : Unambiguous opts current desired := ⟨hnothing.spelled, hcurrent, hdesired⟩
    obtain ⟨final, happ, hfinal⟩ := exists_final h hplan
    exact ⟨final, happ, reaches_of_nothingOverlooked h hfinal hnothing⟩

end

/-- A direct reference leads to one of the entries. -/
def present (entries : List Entry) (ns : Bytes) : Topology.Dependency → Bool
  | .direct value => (entries.map Entry.id).contains (resolveDependencyID ns value)
  | _ => true

/-- The entries that are referred to directly are present. -/
def Closed (extract : Entry → List Bytes) (entries : List Entry) : Prop :=
  ∀ e ∈ entries, ∀ dep ∈ e.dependsOn ++ extract e, present entries e.id.ns (parseDependency dep) = true

/-! The entry `a:l` of the application, and `m:e` and `m:d` of the module `M`. -/

def appEntry (dependsOn : List Bytes) : Entry := { id := ⟨[97], [108]⟩, kind := [107], dependsOn }

def moduleEntry (name : UInt8) (dependsOn : List Bytes) : Entry :=
  { id := ⟨[109], [name]⟩, kind := [107], dependsOn, registry := { owner := [77] } }

/-- `a:l` depends on `m:e`, which depends on `m:d`. -/
def chained : List Entry := [appEntry [[109, 58, 101]], moduleEntry 101 [[109, 58, 100]], moduleEntry 100 []]

theorem plan_reaches_iff_removed :
    let current := [appEntry [], moduleEntry 101 [], moduleEntry 100 []]
    let desired := [moduleEntry 101 [[109, 58, 102]], moduleEntry 102 []]
    let opts : OperationPlanOptions := { controlledModules := some [[77]] }
    let ops : List Operation := [{ kind := .update, entry := moduleEntry 101 [[109, 58, 102]] },
      { kind := .create, entry := moduleEntry 102 [] },
      { kind := .delete, entry := { id := ⟨[109], [100]⟩, kind := [] } }]
    (∃ final, Registry.applyOperations (newStateMap current) ops = .ok final ∧
      Reaches (fun _ => []) opts current desired final) ↔ NothingOverlooked (fun _ => []) {} opts current desired :=
  plan_reaches_iff (by unfold KeysDistinct; decide) (by unfold KeysDistinct; decide) rfl

/-- The module `M` is dropped: `m:e` stays because of `a:l`, but `m:d`, on which it depends, is deleted. -/
theorem chained_broken :
    ¬ ∀ extract orders current desired opts ops, Closed extract current → Closed extract desired →
      plan (some extract) orders current desired opts = .ok ops →
      ∃ final, Registry.applyOperations (newStateMap current) ops = .ok final ∧
        Reaches extract opts current desired final := by
  intro h
  have hclosed : Closed (fun _ => []) chained := by
    unfold Closed
    decide
  obtain ⟨final, hfinal, hreaches⟩ := h (fun _ => []) {} chained [] { controlledModules := some [[77]] }
    [{ kind := .delete, entry := { id := ⟨[109], [100]⟩, kind := [] } }] hclosed
    (fun e he => absurd he not_mem_nil) (by rfl)
  cases hfinal
  refine hreaches.intact (moduleEntry 101 [[109, 58, 100]]) (by decide) (moduleEntry 100 []) (by decide) rfl
    ⟨[109, 58, 100], mem_singleton.mpr rfl, rfl⟩

end Wippy.Hub
