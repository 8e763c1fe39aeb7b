import Wippy.Lib.Reach
import Wippy.Security.Registry

/-! A group of the policy registry has exactly the registered policies that name it, as long as no registration drops a
    group that the policy was in. -/

namespace Wippy.Security.PolicyRegistry
open Lib Registry List Map

variable {P : Type} {r : PolicyRegistry P} {e : Event P} {groupID : ID} {l : List ID}

/-- The index of a group lists the policy. -/
def Lists (groups : Map ID (List ID)) (g id : ID) : Prop := ∃ ids, groups.lookup g = some ids ∧ id ∈ ids

/-- The policy names the group. -/
def Names (r : PolicyRegistry P) (g id : ID) : Prop := ∃ entry, r.policies.lookup id = some entry ∧ g ∈ entry.groups

/-- Groups list exactly their members, and a query for a group gives their policies or finds no such group. -/
structure Proper (r : PolicyRegistry P) : Prop where
  lists : ∀ g id, Lists r.groups g id ↔ r.Names g id
  served : ∀ g, (r.getPolicyGroup g = .error .groupNotFound ∧ ∀ id, ¬ r.Names g id) ∨
    ∃ policies, r.getPolicyGroup g = .ok policies ∧
      ∀ policy, policy ∈ policies ↔ r.Names g policy.id ∧ r.getPolicy policy.id = some policy

section
variable {groups : Map ID (List ID)} {g id policyID : ID}

theorem lists_addPolicyToGroup :
    Lists (addPolicyToGroup policyID groups groupID) g id ↔ Lists groups g id ∨ g = groupID ∧ id = policyID := by
  unfold addPolicyToGroup
  dsimp only
  split
  next hin =>
    refine ⟨.inl, fun h => h.elim (fun h => h) ?_⟩
    rintro ⟨rfl, rfl⟩
    cases hids : groups.lookup g with
    | none => simp [hids] at hin
    | some ids => exact ⟨ids, hids, by simpa [hids] using hin⟩
  · unfold Lists
    rw [lookup_insert_eq]
    split
    next hg =>
      subst hg
      cases hids : groups.lookup g <;> simp
    next hg =>
      simp [hg]

theorem lists_removePolicyFromGroup :
    Lists (removePolicyFromGroup policyID groups groupID) g id ↔ Lists groups g id ∧
      ¬ (g = groupID ∧ id = policyID) := by
  unfold removePolicyFromGroup
  cases hids : groups.lookup groupID with
  | none =>
    refine ⟨fun h => ⟨h, ?_⟩, fun h => h.1⟩
    rintro ⟨rfl, -⟩
    obtain ⟨ids, hlookup, -⟩ := h
    rw [hids] at hlookup
    cases hlookup
  | some ids =>
    dsimp only
    split
    next hempty =>
      have hall := filter_eq_nil_iff.mp hempty
      unfold Lists
      rw [lookup_erase_eq]
      split
      next hg =>
        subst hg
        simpa [hids] using fun hin => hall id hin
      next hg =>
        simp [hg]
    · unfold Lists
      rw [lookup_insert_eq]
      split
      next hg =>
        subst hg
        simp [hids]
      next hg =>
        simp [hg]

theorem lists_foldl_add :
    Lists (l.foldl (addPolicyToGroup policyID) groups) g id ↔ Lists groups g id ∨ g ∈ l ∧ id = policyID := by
  induction l generalizing groups with
  | nil => simp
  | cons groupID l ih =>
    rw [foldl_cons, ih, lists_addPolicyToGroup, mem_cons, or_assoc, ← or_and_right]

theorem lists_foldl_remove :
    Lists (l.foldl (removePolicyFromGroup policyID) groups) g id ↔ Lists groups g id ∧ ¬ (g ∈ l ∧ id = policyID) := by
  induction l generalizing groups with
  | nil => simp
  | cons groupID l ih =>
    rw [foldl_cons, ih, lists_removePolicyFromGroup, mem_cons, and_assoc, ← not_or, ← or_and_right]

end

/-- The registry applies an event: nobody waits for it, or its request is still known. -/
def Applies (e : Event P) : Prop := e.admission = .unacknowledged ∨ e.admission = .admitted

/-- A registration of a policy whose latest entry names a group that the new one does not name. -/
def Drops (r : PolicyRegistry P) (e : Event P) (g id : ID) : Prop :=
  Applies e ∧ e.kind = .register ∧ ∃ entry old, e.entry = some entry ∧ entry.policy.id = id ∧
    r.policies.lookup id = some old ∧ g ∈ old.groups ∧ g ∉ entry.groups

/-- The event takes no group from a policy. -/
def KeepsGroups (r : PolicyRegistry P) (e : Event P) : Prop := ∀ g id, ¬ r.Drops e g id

theorem step_cases (r : PolicyRegistry P) (e : Event P) :
    (∃ entry, r.step e = r.registered entry ∧ ∀ g id, r.Drops e g id ↔
      entry.policy.id = id ∧ ∃ old, r.policies.lookup id = some old ∧ g ∈ old.groups ∧ g ∉ entry.groups) ∨
    (∀ g id, ¬ r.Drops e g id) ∧ (r.step e = r ∨
      (∃ entry existing, r.policies.lookup entry.policy.id = some existing ∧ r.step e = r.updated existing entry) ∨
      ∃ id existing, r.policies.lookup id = some existing ∧ r.step e = r.deleted id existing) := by
  by_cases happ : Applies e
  · have hstep : r.step e = (r.applyEvent e).toOption.getD r := by
      unfold step handleEvent
      rcases happ with h | h <;> rw [h] <;> cases r.applyEvent e <;> rfl
    rw [hstep, applyEvent]
    have hkinds (h : e.kind ≠ .register) : ∀ g id, ¬ r.Drops e g id := fun g id hdrops => h hdrops.2.1
    cases hkind : e.kind with
    | register =>
      simp only [registerPolicy]
      cases hentry : e.entry with
      | none =>
        refine .inr ⟨fun g id hdrops => ?_, .inl rfl⟩
        obtain ⟨-, -, entry, old, hsome, -⟩ := hdrops
        cases hentry.symm.trans hsome
      | some entry =>
        refine .inl ⟨entry, rfl, fun g id => ?_⟩
        simp [Drops, happ, hkind, hentry]
    | update =>
      refine .inr ⟨hkinds (by simp [hkind]), ?_⟩
      simp only [updatePolicy]
      split
      · exact .inl rfl
      split
      · exact .inl rfl
      next _ entry _ _ existing hold =>
        exact .inr (.inl ⟨entry, existing, hold, rfl⟩)
    | delete =>
      refine .inr ⟨hkinds (by simp [hkind]), ?_⟩
      simp only [deletePolicy]
      split
      · exact .inl rfl
      next existing hold =>
        exact .inr (.inr ⟨_, existing, hold, rfl⟩)
    | other => exact .inr ⟨hkinds (by simp [hkind]), .inl rfl⟩
  · refine .inr ⟨fun g id hdrops => happ hdrops.1, .inl ?_⟩
    unfold step handleEvent
    cases hadm : e.admission with
    | unacknowledged => exact absurd (.inl hadm) happ
    | admitted => exact absurd (.inr hadm) happ
    | unknown => rfl
    | refused err => rfl

theorem lists_step (hlists : ∀ g id, Lists r.groups g id ↔ r.Names g id) (g id : ID) :
    Lists (r.step e).groups g id ↔ (r.step e).Names g id ∨ r.Drops e g id := by
  rcases step_cases r e with ⟨entry, hstep, hdrops⟩ |
    ⟨hno, hstep | ⟨entry, existing, hold, hstep⟩ | ⟨gone, existing, hold, hstep⟩⟩
  · rw [hstep, hdrops]
    simp only [registered, Names, lists_foldl_add, hlists, lookup_insert_eq]
    by_cases hid : id = entry.policy.id
    · subst hid
      by_cases hin : g ∈ entry.groups <;> simp [hin]
    · simp [hid, Ne.symm hid]
  · rw [hstep, hlists, or_iff_left (hno g id)]
  · rw [hstep, or_iff_left (hno g id)]
    simp only [updated, Names, lists_foldl_add, lists_foldl_remove, hlists, lookup_insert_eq, mem_filter,
      decide_eq_true_eq]
    by_cases hid : id = entry.policy.id
    · subst hid
      simp only [hold, Option.some.injEq, exists_eq_left', if_true, and_true]
      tauto
    · simp [hid]
  · rw [hstep, or_iff_left (hno g id)]
    simp only [deleted, Names, lists_foldl_remove, hlists, lookup_erase_eq]
    by_cases hid : id = gone
    · subst hid
      simp [hold]
    · simp [hid]

theorem not_names_of_drops {g id : ID} (h : r.Drops e g id) : ¬ (r.step e).Names g id := by
  rcases step_cases r e with ⟨entry, hstep, hdrops⟩ | ⟨hno, -⟩
  · obtain ⟨rfl, old, -, -, hout⟩ := (hdrops g id).mp h
    rintro ⟨entry', hlookup, hin⟩
    rw [hstep, registered, lookup_insert_eq, if_pos rfl] at hlookup
    cases hlookup
    exact hout hin
  · exact absurd h (hno g id)

/-- A policy is under its ID. -/
def Keyed (r : PolicyRegistry P) : Prop := ∀ id entry, r.policies.lookup id = some entry → entry.policy.id = id

theorem Keyed.step (h : r.Keyed) (e : Event P) : (r.step e).Keyed := by
  have hinsert (entry : PolicyEntry P) (groups : Map ID (List ID)) :
      Keyed { policies := r.policies.insert entry.policy.id entry, groups } := by
    intro id entry' hlookup
    rcases lookup_insert_some hlookup with ⟨rfl, rfl⟩ | ⟨-, hlookup⟩
    · rfl
    · exact h id entry' hlookup
  rcases step_cases r e with ⟨entry, hstep, -⟩ | ⟨-, hstep | ⟨entry, existing, -, hstep⟩ | ⟨gone, existing, -, hstep⟩⟩
  · rw [hstep]
    exact hinsert entry _
  · rw [hstep]
    exact h
  · rw [hstep]
    exact hinsert entry _
  · intro id entry hlookup
    rw [hstep] at hlookup
    exact h id entry (lookup_erase_some.mp hlookup).1

theorem mapM_member {g : ID} {ids : List ID} (h : ∀ id ∈ ids, ∃ policy, r.getPolicy id = some policy) :
    ids.mapM (r.member g) = .ok (ids.filterMap r.getPolicy) := by
  induction ids with
  | nil => rfl
  | cons id ids ih =>
    obtain ⟨⟨policy, hpolicy⟩, hrest⟩ := forall_mem_cons.mp h
    rw [mapM_cons, ih hrest, filterMap_cons, member, hpolicy]
    rfl

theorem proper_of_exact (hkeyed : r.Keyed) (hlists : ∀ g id, Lists r.groups g id ↔ r.Names g id) : r.Proper := by
  refine ⟨hlists, fun g => ?_⟩
  unfold getPolicyGroup
  cases hids : r.groups.lookup g with
  | none =>
    refine .inl ⟨rfl, fun id hnames => ?_⟩
    obtain ⟨ids, hlookup, -⟩ := (hlists g id).mpr hnames
    rw [hids] at hlookup
    cases hlookup
  | some ids =>
    have hnamed (id : ID) : id ∈ ids ↔ r.Names g id := by
      rw [← hlists]
      exact ⟨fun h => ⟨ids, hids, h⟩, fun ⟨ids', hlookup, h⟩ => by rw [hids] at hlookup; cases hlookup; exact h⟩
    have hfound : ∀ id ∈ ids, ∃ policy, r.getPolicy id = some policy := by
      intro id hid
      obtain ⟨entry, hentry, -⟩ := (hnamed id).mp hid
      exact ⟨entry.policy, by rw [getPolicy, hentry]; rfl⟩
    refine .inr ⟨_, mapM_member hfound, fun policy => ?_⟩
    rw [mem_filterMap]
    constructor
    · rintro ⟨id, hid, hget⟩
      obtain ⟨entry, hentry, rfl⟩ := Option.map_eq_some_iff.mp hget
      rw [hkeyed id entry hentry]
      exact ⟨(hnamed id).mp hid, hget⟩
    · rintro ⟨hnames, hget⟩
      exact ⟨policy.id, (hnamed _).mpr hnames, hget⟩

/-- Groups list exactly their members after every event if and only if no registration drops a group. -/
theorem groups_exact_iff (events : List (Event P)) :
    (∀ pre, pre <+: events → (pre.foldl step {}).Proper) ↔ Along step KeepsGroups ({} : PolicyRegistry P) events := by
  have hempty : ∀ g id, Lists ({} : PolicyRegistry P).groups g id ↔ ({} : PolicyRegistry P).Names g id := by
    simp [Lists, Names]
  refine (along_iff_prefixes (P := fun r : PolicyRegistry P => r.Keyed ∧ ∀ g id, Lists r.groups g id ↔ r.Names g id)
    (fun r h => proper_of_exact h.1 h.2) ?_ ?_ ⟨fun id entry h => ?_, hempty⟩ events).symm
  · rintro r e ⟨hkeyed, hlists⟩ hkeeps
    refine ⟨hkeyed.step e, fun g id => ?_⟩
    rw [lists_step hlists, or_iff_left (hkeeps g id)]
  · rintro r e ⟨-, hlists⟩ hproper g id hdrops
    exact not_names_of_drops hdrops ((hproper.lists g id).mp ((lists_step hlists g id).mpr (.inr hdrops)))
  · cases h

/-- The policy `a:p`, registered in the group `g:x`, then in no group, then deleted. -/
def regrouped : List (Event Unit) :=
  [{ kind := .register, path := [97, 58, 112]
     data := some { policy := some ⟨⟨[97], [112]⟩, ()⟩, groups := [⟨[103], [120]⟩] } },
    { kind := .register, path := [97, 58, 112], data := some { policy := some ⟨⟨[97], [112]⟩, ()⟩, groups := [] } },
    { kind := .delete, path := [97, 58, 112], data := none }]

/-- The group still lists the deleted policy, and a query for it fails. -/
theorem regrouped_dangling : ¬ ∀ events : List (Event Unit), (events.foldl step {}).Proper := by
  intro h
  have hserved := (h regrouped).served ⟨[103], [120]⟩
  rcases hserved with ⟨h, -⟩ | ⟨_, h, -⟩ <;> cases h

end Wippy.Security.PolicyRegistry
