import Wippy.Lib.Reach
import Wippy.Theorems.Registry.Durable

/-! Overlay calls keep the claims of the overlays in step with the live state, and so do whole runs of calls. -/

namespace Wippy.Registry
open Lib Wippy.Registry.Topology List Option Map

namespace OverlayDraft

/-- A draft over a live and a durable state: the claims are right, and each entry that changes is changed by one
    operation that leaves what the draft has. -/
structure Drafted (ids : ID → Prop) (live durable : StateMap) (d : OverlayDraft) : Prop where
  claims : ∀ id, Reg.Claim (d.owners.lookup id) (d.shadows.lookup id) (d.effective.get id) (durable.get id)
  words : ∀ id, (onID id d.transition = [] ∧ d.effective.get id = live.get id) ∨
    ∃ op, onID id d.transition = [op] ∧ op.outcome = d.effective.get id ∧ id ∈ d.seen
  known : ∀ op ∈ d.transition, ids op.id

variable {ids : ID → Prop} {live durable : StateMap} {d d' : OverlayDraft} {owner : Bytes} {op : Operation}

theorem Drafted.step (h : Drafted ids live durable d) {id : ID} {t : Operation} (hid : ids id) (hseen : id ∉ d.seen)
    (hother : ∀ other, other ≠ id → d'.owners.lookup other = d.owners.lookup other ∧
      d'.shadows.lookup other = d.shadows.lookup other ∧ d'.effective.get other = d.effective.get other)
    (htransition : d'.transition = d.transition ++ [t]) (ht : t.id = id) (hseen' : d'.seen = id :: d.seen)
    (hout : t.outcome = d'.effective.get id)
    (hclaim : Reg.Claim (d'.owners.lookup id) (d'.shadows.lookup id) (d'.effective.get id) (durable.get id)) :
    Drafted ids live durable d' := by
  refine ⟨?_, ?_, ?_⟩
  · intro other
    by_cases heq : other = id
    · rw [heq]
      exact hclaim
    · obtain ⟨howners, hshadows, heffective⟩ := hother other heq
      rw [howners, hshadows, heffective]
      exact h.claims other
  · intro other
    rw [htransition, hseen', onID_append]
    by_cases heq : other = id
    · subst heq ht
      refine .inr ⟨t, ?_, hout, mem_cons_self⟩
      rcases h.words t.id with ⟨hnil, -⟩ | ⟨_, -, -, hmem⟩
      · rw [hnil, onID_cons_self]
        rfl
      · exact absurd hmem hseen
    · have hnil : onID other [t] = [] := by
        rw [onID_cons_of_ne _ fun h => heq (h.symm.trans ht)]
        rfl
      rw [hnil, append_nil, (hother other heq).2.2]
      refine (h.words other).imp_right ?_
      rintro ⟨op, hon, hout, hmem⟩
      exact ⟨op, hon, hout, mem_cons_of_mem _ hmem⟩
  · rw [htransition]
    intro op hop
    rcases mem_append.mp hop with hop | hop
    · exact h.known op hop
    · rw [mem_singleton.mp hop, ht]
      exact hid

theorem get_put_ne (sm : StateMap) {entry : Entry} {other : ID} (hne : other ≠ entry.id) :
    (sm.put entry).get other = sm.get other := by
  rw [Keyed.get_put, if_neg hne]

theorem get_put_self (sm : StateMap) (entry : Entry) : (sm.put entry).get entry.id = some entry := by
  rw [Keyed.get_put, if_pos rfl]

theorem Drafted.create (h : Drafted ids live durable d) (hid : ids op.id) (hseen : op.id ∉ d.seen)
    (hallowed : d.allowed owner op = true) (hkind : op.kind = .create) :
    Drafted ids live durable { d.create owner op with seen := op.id :: d.seen } := by
  have hfree : d.owners.lookup op.id = none ∧ d.effective.get op.id = none := by
    unfold allowed at hallowed
    split at hallowed <;> simp_all
  obtain ⟨hshadow, hlive⟩ := (h.claims op.id).unowned hfree.1
  refine h.step hid hseen ?_ rfl rfl rfl ?_ ?_
  · intro other hne
    exact ⟨AList.lookup_insert_ne hne, rfl, get_put_ne _ hne⟩
  · exact (get_put_self _ _).symm
  · change Reg.Claim ((d.owners.insert op.id owner).lookup op.id) (d.shadows.lookup op.id)
      ((d.effective.put op.entry).get op.entry.id) _
    rw [AList.lookup_insert, get_put_self, hshadow]
    exact ⟨by simp, hlive.symm.trans hfree.2⟩

theorem allowed_cases (hallowed : d.allowed owner op = true) (hkind : op.kind ≠ .create) :
    d.owners.lookup op.id = some owner ∨
      (d.owners.lookup op.id = none ∧ ∃ entry, d.effective.get op.id = some entry) := by
  unfold allowed at hallowed
  split at hallowed
  · exact absurd ‹op.kind = .create› hkind
  · cases hallowed
  next entryOwner _ _ howner _ =>
    rw [howner, of_decide_eq_true hallowed]
    exact .inl rfl
  next howner _ _ =>
    exact .inr ⟨howner, isSome_iff_exists.mp hallowed⟩

section
variable (h : Drafted ids live durable d)
include h

section
variable (hid : ids op.id)
include hid

section
variable (hseen : op.id ∉ d.seen)
include hseen

theorem Drafted.update_claimed (original : Entry) (hclaimed : d.claimed op = some original)
    (hdurable : durable.get op.id = some original) :
    Drafted ids live durable { d.update owner op with seen := op.id :: d.seen } := by
  refine h.step (t := ⟨if d.removed op.id then .create else .update,
    { op.entry with registry := original.registry }, none⟩) hid hseen ?_ ?_ rfl rfl ?_ ?_
  · intro other hne
    refine ⟨AList.lookup_insert_ne hne, ?_, ?_⟩
    · simp only [update, hclaimed]
      exact AList.lookup_insert_ne hne
    · simp only [update, hclaimed]
      exact get_put_ne _ hne
  · simp only [update, hclaimed]
  · simp only [update, hclaimed]
    refine Eq.trans ?_ (get_put_self d.effective { op.entry with registry := original.registry }).symm
    cases d.removed op.id <;> rfl
  · simp only [update, hclaimed]
    rw [AList.lookup_insert, AList.lookup_insert,
      show (d.effective.put { op.entry with registry := original.registry }).get op.id = some _ from get_put_self _ _]
    exact ⟨rfl, hdurable, by simp⟩

theorem Drafted.update_added (howner : d.owners.lookup op.id = some owner) (hshadow : d.shadows.lookup op.id = none) :
    Drafted ids live durable { d.update owner op with seen := op.id :: d.seen } := by
  have hclaimed : d.claimed op = none := by simp [claimed, hshadow, howner]
  have hremoved : d.removed op.id = false := by simp [removed, hshadow]
  refine h.step (t := { kind := .update, entry := op.entry }) hid hseen ?_ ?_ rfl rfl ?_ ?_
  · intro other hne
    refine ⟨AList.lookup_insert_ne hne, ?_, ?_⟩
    · simp only [update, hclaimed]
    · simp only [update, hclaimed]
      exact get_put_ne _ hne
  · simp [update, hclaimed, hremoved]
  · simp only [update, hclaimed]
    exact (get_put_self d.effective op.entry).symm
  · simp only [update, hclaimed]
    rw [AList.lookup_insert, hshadow, show (d.effective.put op.entry).get op.id = some _ from get_put_self _ _]
    exact ⟨by simp, ((h.claims op.id).added howner hshadow).2⟩

theorem Drafted.update (hallowed : d.allowed owner op = true) (hkind : op.kind = .update) :
    Drafted ids live durable { d.update owner op with seen := op.id :: d.seen } := by
  rcases allowed_cases hallowed (by simp [hkind]) with howner | ⟨howner, entry, hentry⟩
  · cases hshadow : d.shadows.lookup op.id with
    | none => exact h.update_added hid hseen howner hshadow
    | some shadow =>
      have hdurable := ((h.claims op.id).shadowed hshadow).2.1
      exact h.update_claimed hid hseen shadow.original (by simp [claimed, hshadow]) hdurable
  · obtain ⟨hshadow, hlive⟩ := (h.claims op.id).unowned howner
    exact h.update_claimed hid hseen entry (by simp [claimed, hshadow, howner, hentry]) (hlive.symm.trans hentry)

theorem Drafted.delete (hallowed : d.allowed owner op = true) (hkind : op.kind = .delete) :
    Drafted ids live durable { d.delete owner op with seen := op.id :: d.seen } := by
  unfold OverlayDraft.delete
  split
  · -- A claim is released, and the durable entry comes back.
    rename_i shadow hshadow
    obtain ⟨-, hdurable, -⟩ := (h.claims op.id).shadowed hshadow
    have hkey : shadow.original.id = op.id := Keyed.key_of_get hdurable
    refine h.step (t := { kind := if shadow.removed then .create else .update, entry := shadow.original }) hid hseen
      ?_ rfl hkey rfl ?_ ?_
    · intro other hne
      exact ⟨AList.lookup_erase_ne hne, AList.lookup_erase_ne hne, get_put_ne _ (hkey.symm ▸ hne)⟩
    · rw [← hkey, get_put_self]
      cases shadow.removed <;> rfl
    · rw [AList.lookup_erase, AList.lookup_erase, hdurable, ← hkey, get_put_self]
      rfl
  next owner' hshadow howner =>
    refine h.step (t := { kind := .delete, entry := op.entry }) hid hseen ?_ rfl rfl rfl ?_ ?_
    · intro other hne
      refine ⟨AList.lookup_erase_ne hne, rfl, ?_⟩
      rw [Keyed.get_del, if_neg hne]
    · rw [Keyed.get_del, if_pos rfl]
      rfl
    · rw [AList.lookup_erase, hshadow, Keyed.get_del, if_pos rfl, ((h.claims op.id).added howner hshadow).2]
      rfl
  next entry hshadow howner hentry =>
    have hdurable : durable.get op.id = some entry := ((h.claims op.id).unowned howner).2.symm.trans hentry
    have hkey : entry.id = op.id := Keyed.key_of_get hentry
    refine h.step (t := { kind := .delete, entry }) hid hseen ?_ rfl hkey rfl ?_ ?_
    · intro other hne
      refine ⟨AList.lookup_insert_ne hne, AList.lookup_insert_ne hne, ?_⟩
      rw [Keyed.get_del, if_neg hne]
    · rw [Keyed.get_del, if_pos rfl]
      rfl
    · rw [AList.lookup_insert, AList.lookup_insert, Keyed.get_del]
      exact ⟨rfl, hdurable, by simp⟩
  · -- There is nothing to delete, which is not allowed.
    rename_i hshadow howner hentry
    rcases allowed_cases hallowed (by simp [hkind]) with howner' | ⟨-, entry, hentry'⟩
    · rw [howner] at howner'
      cases howner'
    · rw [hentry] at hentry'
      cases hentry'

end

theorem Drafted.applyOperation (happ : OverlayDraft.applyOperation owner d op = .ok d') :
    Drafted ids live durable d' := by
  unfold OverlayDraft.applyOperation at happ
  split at happ
  · cases happ
  rename_i hseen
  split at happ
  · cases happ
  rename_i hallowed
  split at happ
  · cases happ
  have hnew : op.id ∉ d.seen := by simpa using hseen
  have hallow : d.allowed owner op = true := by simpa using hallowed
  cases happ
  cases hkind : op.kind with
  | create => exact h.create hid hnew hallow hkind
  | update => exact h.update hid hnew hallow hkind
  | delete => exact h.delete hid hnew hallow hkind

end

theorem Drafted.foldlM {changes : ChangeSet} (hids : ∀ op ∈ changes, ids op.id)
    (happ : changes.foldlM (OverlayDraft.applyOperation owner) d = .ok d') : Drafted ids live durable d' := by
  exact foldlM_induction happ h fun _ op _ hop hd hstep => hd.applyOperation (hids op hop) hstep

theorem Drafted.nodup : (d.transition.map Operation.id).Nodup := by
  rw [nodup_iff_count_le_one]
  intro id
  rw [count_ids]
  rcases h.words id with ⟨hnil, -⟩ | ⟨op, hone, -⟩
  · simp [hnil]
  · simp [hone]

end
end OverlayDraft

namespace Reg
open OverlayDraft

variable {sv : Services} {ids : ID → Prop} {r : Reg} {env : CallEnvironment} {owner : Bytes} {draft : OverlayDraft}
  {changes sorted ops : ChangeSet}

theorem overlayPlanned_eq_ok (h : r.overlayPlanned sv owner changes = .ok (draft, sorted)) :
    (canonicalizeChangeSetIDs changes).foldlM (OverlayDraft.applyOperation owner) r.overlayDraft = .ok draft ∧
      r.sortWithIndex sv draft.transition = .ok sorted := by
  unfold overlayPlanned at h
  split at h
  · cases h
  rename_i draft' hdraft
  split at h
  · cases h
  split at h
  · cases h
  split at h
  · cases h
  rename_i sorted' hsorted
  cases h
  exact ⟨hdraft, hsorted⟩

theorem carries_of_claim {shadows : Map ID OverlayShadow} {newState : State} {id : ID} {durable : Option Entry}
    (hclaim : Claim (some owner) (shadows.lookup id) ((newStateMap newState).get id) durable) :
    carries shadows newState id = true := by
  unfold carries
  cases hshadow : shadows.lookup id with
  | none => exact isSome_iff_ne_none.mpr (hclaim.added rfl hshadow).1
  | some shadow =>
    obtain ⟨-, -, hremoved⟩ := hclaim.shadowed hshadow
    cases hlive : (newStateMap newState).get id with
    | none => simp [hremoved.mp hlive]
    | some entry =>
      have hfalse : shadow.removed = false := by
        rw [hlive] at hremoved
        simpa using hremoved
      simp [hfalse]

section Rebuild
variable {owners : Map ID Bytes} {shadows : Map ID OverlayShadow} {newState : State} {durable : StateMap}

section
variable (hclaims : ∀ id, Claim (owners.lookup id) (shadows.lookup id) ((newStateMap newState).get id) (durable.get id))
include hclaims

theorem lookup_rebuildOverlayIndexes :
    (∀ id, (owners.keep fun id _ => carries shadows newState id).lookup id = owners.lookup id) ∧
    (∀ id, (r.rebuildOverlayIndexes owners shadows newState).overlayOwners.lookup id = owners.lookup id) ∧
    ∀ id, (r.rebuildOverlayIndexes owners shadows newState).overlayShadows.lookup id = shadows.lookup id := by
  have hkeep : ∀ id, (owners.keep fun id _ => carries shadows newState id).lookup id = owners.lookup id := by
    intro id
    rw [lookup_keep]
    cases howner : owners.lookup id with
    | none => rfl
    | some owner =>
      have hclaim := hclaims id
      rw [howner] at hclaim
      exact filter_some_pos (carries_of_claim hclaim)
  refine ⟨hkeep, fun id => ?_, fun id => ?_⟩
  · unfold rebuildOverlayIndexes
    rw [lookup_mapVal, hkeep]
    cases howner : owners.lookup id with
    | none => rfl
    | some owner =>
      rw [map_some]
      cases hshadow : shadows.lookup id with
      | none => rfl
      | some shadow =>
        have howner' := ((hclaims id).shadowed hshadow).1
        dsimp only
        rw [Option.some.inj (howner'.symm.trans howner), ite_self]
  · unfold rebuildOverlayIndexes
    rw [lookup_keep]
    cases hshadow : shadows.lookup id with
    | none => rfl
    | some shadow =>
      rw [hkeep, ((hclaims id).shadowed hshadow).1]
      rfl

theorem mem_overlays_rebuilt (hnd : (newState.map Entry.id).Nodup) (owner : Bytes) (entry : Entry) :
    (owner, entry) ∈ (r.rebuildOverlayIndexes owners shadows newState).overlays ↔
      owners.lookup entry.id = some owner ∧ (newStateMap newState).get entry.id = some entry := by
  have hkeep := (lookup_rebuildOverlayIndexes (r := r) hclaims).1
  unfold rebuildOverlayIndexes
  rw [mem_filterMap, get_newStateMap hnd]
  constructor
  · rintro ⟨entry', hentry', heq⟩
    obtain ⟨owner', howner', hpair⟩ := map_eq_some_iff.mp heq
    cases hpair
    rw [hkeep] at howner'
    exact ⟨howner', hentry', rfl⟩
  · rintro ⟨howner, hentry, -⟩
    refine ⟨entry, hentry, ?_⟩
    rw [hkeep, howner]
    rfl

end

theorem nodup_overlays_rebuilt (hnd : (newState.map Entry.id).Nodup) :
    ((r.rebuildOverlayIndexes owners shadows newState).overlays.map fun claim => claim.2.id).Nodup := by
  refine pairwise_map.mpr (pairwise_filterMap.mpr ((pairwise_map.mp hnd).imp ?_))
  intro a b hne claim hclaim claim' hclaim'
  obtain ⟨_, -, rfl⟩ := map_eq_some_iff.mp hclaim
  obtain ⟨_, -, rfl⟩ := map_eq_some_iff.mp hclaim'
  exact hne

theorem Sound.rebuilt {r' : Reg} (h : Sound ids r) (hdurable : r.stateAtVersion r.currentVersion = some durable)
    (hclaims : ∀ id, Claim (owners.lookup id) (shadows.lookup id) ((newStateMap newState).get id) (durable.get id))
    (hwithin : Within ids newState) (hstate : r'.state = newState) (hbaseline : r'.baseline = r.baseline)
    (hhistory : r'.history = r.history) (hversion : r'.currentVersion = r.currentVersion)
    (howners : r'.overlayOwners = (r.rebuildOverlayIndexes owners shadows newState).overlayOwners)
    (hshadows : r'.overlayShadows = (r.rebuildOverlayIndexes owners shadows newState).overlayShadows)
    (hoverlays : r'.overlays = (r.rebuildOverlayIndexes owners shadows newState).overlays) : Sound ids r' := by
  obtain ⟨-, hlookupOwners, hlookupShadows⟩ := lookup_rebuildOverlayIndexes (r := r) hclaims
  refine ⟨hstate ▸ hwithin, hbaseline ▸ h.baseline, hhistory ▸ h.history, ⟨durable, ?_, fun id => ?_⟩,
    fun owner entry => ?_, ?_⟩
  · rw [← hdurable]
    unfold stateAtVersion
    rw [hbaseline, hhistory, hversion]
  · rw [howners, hshadows, hlookupOwners, hlookupShadows, hstate]
    exact hclaims id
  · rw [howners, hlookupOwners, hoverlays, hstate]
    exact mem_overlays_rebuilt hclaims hwithin.nodup owner entry
  · rw [hoverlays]
    exact nodup_overlays_rebuilt hwithin.nodup

end Rebuild

theorem get_of_drafted (sv : Services) (env : Environment) {durable : StateMap}
    (hdraft : Drafted ids (newStateMap r.state) durable draft)
    (hperm : sorted.Perm draft.transition) (herr : (sv.runner.transition r.state sorted env).err = none) (id : ID) :
    (newStateMap (sv.runner.transition r.state sorted env).state).get id = draft.effective.get id := by
  have hnd : (sorted.map Operation.id).Nodup := (hperm.map _).nodup_iff.mpr hdraft.nodup
  have hid := (get_of_transition sv env (settles_of_nodup _ hnd) herr).2 id
  have hon : (onID id sorted).Perm (onID id draft.transition) := hperm.filter _
  rcases hdraft.words id with ⟨hnil, hsame⟩ | ⟨op, hone, hout, -⟩
  · rw [hnil] at hon
    rw [hon.eq_nil] at hid
    exact (Option.some.inj hid).symm.trans hsame.symm
  · rw [hone] at hon
    rw [hon.eq_singleton] at hid
    have hlast := lastOutcome_of_replay hid
    rw [← hlast, ← hout]
    rfl

variable (hcompare : ∀ x y, sv.runner.builder.compare x y = true ↔ x = y) (hids : IDSpace ids) (h : Sound ids r)

include hcompare hids h in
theorem Sound.overlayDispatch (durable : StateMap) (hdurable : r.stateAtVersion r.currentVersion = some durable)
    (hdraft : Drafted ids (newStateMap r.state) durable draft) (hperm : sorted.Perm draft.transition)
    (hrefused : ¬ BusRunner.Refused (sv.runner.transition r.state sorted env.transition).trace)
    (hroll : RollsBack (r.overlayDispatch sv owner draft sorted env).2) :
    Sound ids (r.overlayDispatch sv owner draft sorted env).1 := by
  have hknown : ∀ op ∈ sorted, ids op.id := fun op hop => hdraft.known op (hperm.mem_iff.mp hop)
  have hnd : (sorted.map Operation.id).Nodup := (hperm.map _).nodup_iff.mpr hdraft.nodup
  have hfailed := h.of_failed hcompare hids hknown env.transition
  have hget := get_of_drafted sv env.transition hdraft hperm
  have hwithin := Within.of_transition sv env.transition h.within hknown (settles_of_nodup _ hnd)
  unfold Reg.overlayDispatch at hroll ⊢
  split
  next newState err trace hout =>
    rw [hout] at hfailed hrefused
    simp only [hout] at hroll
    have hafter : r.afterFailure sv newState env = (r, none) := by
      refine afterFailure_eq hids h.within (hfailed (by simp) hrefused) fun e he => ?_
      refine hroll _ rfl e ?_
      unfold overlayFailed
      rw [show r.afterFailure sv newState env = ((r.afterFailure sv newState env).1, some (.run e)) from
        Prod.ext rfl he]
      rfl
    unfold overlayFailed
    rw [hafter]
    exact h
  next newState trace hout =>
    rw [hout] at hget hwithin
    have hclaims : ∀ id, Claim (draft.owners.lookup id) (draft.shadows.lookup id) ((newStateMap newState).get id)
        (durable.get id) := by
      intro id
      rw [hget rfl]
      exact hdraft.claims id
    exact h.rebuilt hdurable hclaims (hwithin rfl) rfl rfl rfl rfl rfl rfl rfl

@[simp] theorem currentVersion_withDepIndex : (r.withDepIndex sv).currentVersion = r.currentVersion := by
  unfold withDepIndex
  split <;> rfl

@[simp] theorem stateAtVersion_withDepIndex (version : Nat) :
    (r.withDepIndex sv).stateAtVersion version = r.stateAtVersion version := by
  unfold withDepIndex
  split <;> rfl

theorem perm_of_sortWithIndex (hids : IDSpace ids) (hnd : (ops.map Operation.id).Nodup)
    (hknown : ∀ op ∈ ops, ids op.id) (hsort : r.sortWithIndex sv ops = .ok sorted) : sorted.Perm ops := by
  have hdistinct := hids.distinctIDs hnd hknown
  exact sortChangeSetWithIndex_perm (hdistinct.sublist filter_sublist) (hdistinct.sublist filter_sublist) hsort

theorem Sound.drafted (hids : IDSpace ids) (h : Sound ids r) (hnamed : ∀ op ∈ changes, ids op.id.canonical)
    (hplanned : r.overlayPlanned sv owner changes = .ok (draft, sorted)) :
    ∃ durable, r.stateAtVersion r.currentVersion = some durable ∧ Drafted ids (newStateMap r.state) durable draft ∧
      sorted.Perm draft.transition := by
  obtain ⟨hdraft, hsort⟩ := overlayPlanned_eq_ok hplanned
  obtain ⟨durable, hdurable, hclaims⟩ := h.claims
  have hstart : Drafted ids (newStateMap r.state) durable r.overlayDraft :=
    ⟨hclaims, fun id => .inl ⟨rfl, rfl⟩, by simp [overlayDraft]⟩
  have hnamed' : ∀ op ∈ canonicalizeChangeSetIDs changes, ids op.id := by
    intro op hop
    obtain ⟨op', hop', rfl⟩ := List.mem_map.mp hop
    exact hnamed op' hop'
  have hdone := hstart.foldlM hnamed' hdraft
  exact ⟨durable, hdurable, hdone, perm_of_sortWithIndex hids hdone.nodup hdone.known hsort⟩

include hcompare hids h in
theorem Sound.applyOverlay {expectedGeneration : Nat} (hnamed : ∀ op ∈ changes, ids op.id.canonical)
    (hrefused : trimSpace owner ≠ [] → changes ≠ [] → r.currentGeneration (trimSpace owner) = expectedGeneration →
      ∀ draft sorted, r.overlayPlanned sv (trimSpace owner) changes = .ok (draft, sorted) →
      ¬ BusRunner.Refused (sv.runner.transition r.state sorted env.transition).trace)
    (hroll : RollsBack (r.applyOverlay sv owner expectedGeneration changes env).2) :
    Sound ids (r.applyOverlay sv owner expectedGeneration changes env).1 := by
  unfold Reg.applyOverlay at hroll ⊢
  dsimp only at hroll ⊢
  split
  · exact h
  rename_i howner
  rw [if_neg howner] at hroll
  split
  · exact h
  rename_i hchanges
  rw [if_neg hchanges] at hroll
  split
  · exact h
  rename_i hgeneration
  rw [if_neg hgeneration] at hroll
  split
  · exact h.withDepIndex sv
  · exact h
  next draft sorted hplanned =>
    simp only [hplanned] at hroll
    obtain ⟨durable, hdurable, hdone, hperm⟩ := h.drafted hids hnamed hplanned
    refine (h.withDepIndex sv).overlayDispatch hcompare hids durable ?_ ?_ ?_ ?_ hroll
    · rw [currentVersion_withDepIndex, stateAtVersion_withDepIndex]
      exact hdurable
    · rw [state_withDepIndex]
      exact hdone
    · exact hperm
    · rw [state_withDepIndex]
      exact hrefused howner hchanges (not_not.mp hgeneration) draft sorted hplanned

theorem settled_of_nodup (hids : IDSpace ids) (hnamed : ∀ op ∈ changes, ids op.id.canonical)
    (hnd : (changes.map fun op => op.id.canonical).Nodup) : Settled sv r changes := by
  intro allOps historyOps hops id
  obtain ⟨hsorted, hall⟩ := applyOps_eq_ok hops
  have hhistory : (historyOps.map Operation.id).Nodup := by
    refine ((perm_of_sortWithIndex hids ?_ (known_normalized hnamed _) hsorted).map _).nodup_iff.mpr ?_ <;>
    · rw [ids_normalized]
      exact hnd
  have hperm := perm_of_sortWithIndex hids hhistory (known_applyOps hnamed hops).2 hall
  exact ⟨onID_perm_of_nodup hhistory hperm id, settles_of_nodup _ hhistory id⟩

/-- The live registry is its history with its overlays: a claimed ID holds the entry of the overlay or is absent, every
    other ID what the current version gives; the original of a shadow is durable, an entry that an overlay has added is
    not. -/
def Agrees (r : Reg) : Prop :=
  ∃ durable, r.stateAtVersion r.currentVersion = some durable ∧
    (∀ id owner, r.overlayOwners.lookup id = some owner →
      if (r.overlayShadows.lookup id).any (·.removed) then (newStateMap r.state).get id = none
      else ∃ entry, (owner, entry) ∈ r.overlays ∧ (newStateMap r.state).get id = some entry) ∧
    (∀ id, r.overlayOwners.lookup id = none → (newStateMap r.state).get id = durable.get id) ∧
    (∀ id shadow, r.overlayShadows.lookup id = some shadow → durable.get id = some shadow.original) ∧
    ∀ id owner, r.overlayOwners.lookup id = some owner → r.overlayShadows.lookup id = none → durable.get id = none

theorem Sound.agrees (h : Sound ids r) : r.Agrees := by
  obtain ⟨durable, hdurable, hclaims⟩ := h.claims
  refine ⟨durable, hdurable, fun id owner howner => ?_, fun id hnone => ?_, fun id shadow hshadow => ?_,
    fun id owner howner hnone => ?_⟩
  · have hentry : (newStateMap r.state).get id ≠ none →
        ∃ entry, (owner, entry) ∈ r.overlays ∧ (newStateMap r.state).get id = some entry := by
      intro hlive
      obtain ⟨entry, hentry⟩ := ne_none_iff_exists'.mp hlive
      have hid : entry.id = id := Keyed.key_of_get hentry
      refine ⟨entry, (h.overlays owner entry).mpr ?_, hentry⟩
      rw [hid]
      exact ⟨howner, hentry⟩
    cases hshadow : r.overlayShadows.lookup id with
    | none => exact hentry ((hclaims id).added howner hshadow).1
    | some shadow =>
      obtain ⟨-, -, hremoved⟩ := (hclaims id).shadowed hshadow
      split
      · exact hremoved.mpr ‹_›
      · exact hentry fun hlive => ‹¬ _› (hremoved.mp hlive)
  · exact ((hclaims id).unowned hnone).2
  · exact ((hclaims id).shadowed hshadow).2.1
  · exact ((hclaims id).added howner hnone).2

/-- The operations that a call dispatches. -/
def dispatched (sv : Services) (r : Reg) (c : Call) (env : CallEnvironment) : Option ChangeSet :=
  match c with
  | .loadState baseline target =>
    if env.readFails then none
    else
      (r.loadPlanned (baseline.map canonicalizeEntryID) target).toOption.bind fun finalState =>
        (sv.runner.builder.buildDelta r.state finalState).toOption.filter (· ≠ [])
  | .apply changes => ((r.withDepIndex sv).applyPlanned sv changes none).toOption.map Prod.fst
  | .applyAt base changes => ((r.withDepIndex sv).applyPlanned sv changes (some ⟨base, none⟩)).toOption.map Prod.fst
  | .applyPlan base digest requested =>
    ((r.withDepIndex sv).applyPlanned sv requested (some ⟨base, some digest⟩)).toOption.map Prod.fst
  | .applyVersion v =>
    if r.currentVersion = v || env.readFails || !r.history.getVersion v then none
    else (r.versionPlanned sv v).toOption.map Prod.fst
  | .applyOverlay owner expectedGeneration changes =>
    if trimSpace owner = [] || changes = [] || r.currentGeneration (trimSpace owner) ≠ expectedGeneration then none
    else (r.overlayPlanned sv (trimSpace owner) changes).toOption.map Prod.snd

/-- No operation of a rollback fails: neither one by which the runner leads back from a failed transition, nor the
    transition by which the registry does. -/
structure RollbacksSucceed (sv : Services) (r : Reg) (c : Call) (env : CallEnvironment) : Prop where
  runner : ∀ ops ∈ r.dispatched sv c env, ¬ BusRunner.Refused (sv.runner.transition r.state ops env.transition).trace
  registry : ∀ err ∈ (r.call sv c env).2, ∀ e, err.rollback ≠ some (.run e)

/-- The IDs that a call names. -/
def Call.named : Call → List ID
  | .loadState baseline _ => baseline.map Entry.id
  | .apply changes | .applyAt _ changes | .applyPlan _ _ changes | .applyOverlay _ _ changes => changes.map Operation.id
  | .applyVersion _ => []

/-- The changes that a call makes to the durable state. -/
def Call.durable : Call → Option ChangeSet
  | .apply changes | .applyAt _ changes | .applyPlan _ _ changes => some changes
  | .loadState .. | .applyVersion _ | .applyOverlay .. => none

/-- The condition on a call: known IDs, settled changes, and rollbacks that succeed. -/
structure Meets (sv : Services) (ids : ID → Prop) (r : Reg) (c : Call) (env : CallEnvironment) : Prop where
  named : ∀ id ∈ c.named, ids id.canonical
  settled : ∀ changes ∈ c.durable, Settled sv r changes
  rollbacks : RollbacksSucceed sv r c env

theorem rollsBack_of_refusal {α : Type} {p : Reg × Except RegError α}
    (h : ∀ err ∈ (p.map id refusal).2, ∀ e, err.rollback ≠ some (.run e)) : RollsBack p.2 := by
  obtain ⟨r, result⟩ := p
  rintro err rfl
  exact h err rfl

include hcompare hids h in
theorem Sound.call {c : Call} (hmeets : Meets sv ids r c env) : Sound ids (r.call sv c env).1 := by
  obtain ⟨hnamed, hsettled, hrunner, hregistry⟩ := hmeets
  -- Apply, ApplyAt and ApplyPlan differ in what they expect of the apply.
  have happly : ∀ {changes : ChangeSet} {expect : Option PlanExpectation},
    (∀ id ∈ changes.map Operation.id, ids id.canonical) →
      Settled sv r changes →
      (∀ ops ∈ ((r.withDepIndex sv).applyPlanned sv changes expect).toOption.map Prod.fst,
        ¬ BusRunner.Refused (sv.runner.transition r.state ops env.transition).trace) →
      (∀ err ∈ ((r.applyLocked sv changes expect env).map id refusal).2, ∀ e, err.rollback ≠ some (.run e)) →
      Sound ids ((r.applyLocked sv changes expect env).map id refusal).1 := by
    intro changes expect hnamed hsettled hrunner hregistry
    refine h.applyLocked hcompare hids (fun op hop => hnamed _ (List.mem_map_of_mem hop)) hsettled ?_
      (rollsBack_of_refusal hregistry)
    intro allOps historyOps hplanned
    exact hrunner allOps (by rw [hplanned]; rfl)
  cases c with
  | apply changes => exact happly hnamed (hsettled changes rfl) hrunner hregistry
  | applyAt base changes => exact happly hnamed (hsettled changes rfl) hrunner hregistry
  | applyPlan base digest requested => exact happly hnamed (hsettled requested rfl) hrunner hregistry
  | loadState baseline target =>
    refine h.loadState hcompare hids (fun entry hentry => hnamed _ (List.mem_map_of_mem hentry)) ?_
      (rollsBack_of_refusal hregistry)
    intro hreads finalState cs hplanned hcs hdelta
    refine hrunner cs ?_
    simp [dispatched, hreads, hplanned, hdelta, Except.toOption, hcs]
  | applyVersion v =>
    refine h.applyVersion hcompare hids ?_ (rollsBack_of_refusal hregistry)
    intro hcurrent hreads allOps shadows hplanned
    simp_all [dispatched, Except.toOption]
  | applyOverlay owner expectedGeneration changes =>
    refine h.applyOverlay hcompare hids (fun op hop => hnamed _ (List.mem_map_of_mem hop)) ?_
      (rollsBack_of_refusal hregistry)
    intro howner hchanges hgeneration draft sorted hplanned
    refine hrunner sorted ?_
    simp [dispatched, howner, hchanges, hgeneration, hplanned, Except.toOption]

theorem sound_start {history : Storage} (hhistory : ∀ rec ∈ history.records, ∀ op ∈ rec.changes, ids op.id.canonical) :
    Sound ids { history } where
  within := ⟨nodup_nil, fun entry hentry => absurd hentry not_mem_nil⟩
  baseline entry hentry := absurd hentry not_mem_nil
  history := hhistory
  claims := by
    refine ⟨newStateMap [], ?_, fun id => rfl⟩
    have hroot : Storage.lineage history.records 0 = some [] := by
      unfold Storage.lineage
      split <;> rfl
    simp only [stateAtVersion, Storage.replayChanges, hroot]
    rfl
  overlays owner entry := by simp [newStateMap]
  distinct := nodup_nil

/-- One call. -/
def step (sv : Services) (r : Reg) (e : Call × CallEnvironment) : Reg := (r.call sv e.1 e.2).1

/-- After every call of a run whose calls name IDs of a space, and whose changesets settle, the registry is its
    history with its overlays. -/
theorem registry_is_history_with_overlays (hcompare : ∀ x y, sv.runner.builder.compare x y = true ↔ x = y)
    (hids : IDSpace ids) {history : Storage}
    (hhistory : ∀ rec ∈ history.records, ∀ op ∈ rec.changes, ids op.id.canonical)
    (hrun : Reach (step sv) (fun r e => Meets sv ids r e.1 e.2) { history } r) : r.Agrees := by
  have hsound : Sound ids r := hrun.invariant (sound_start hhistory) fun r e hmeets h => h.call hcompare hids hmeets
  exact hsound.agrees

/-- A reverse operation that was refused. -/
def refusedReverse : Effect → Bool
  | .reverse _ (some _) => true
  | _ => false

instance instDecidableRefused (trace : List Effect) : Decidable (BusRunner.Refused trace) :=
  decidable_of_iff (trace.any refusedReverse = true) <| by
    rw [List.any_eq_true]
    constructor
    · rintro ⟨effect, hmem, heffect⟩
      match effect, heffect with
      | .reverse op (some err), _ => exact ⟨op, err, hmem⟩
    · rintro ⟨op, err, hmem⟩
      exact ⟨_, hmem, rfl⟩

theorem Meets.of_accepted {c : Call} (hids : IDSpace ids) (hnamed : ∀ id ∈ c.named, ids id.canonical)
    (hnd : ∀ changes ∈ c.durable, (changes.map fun op => op.id.canonical).Nodup)
    (hdurable : ∀ changes ∈ c.durable, ∀ op ∈ changes, ids op.id.canonical) (hcall : (r.call sv c env).2 = none)
    (hrunner : ∀ ops ∈ r.dispatched sv c env,
      ¬ BusRunner.Refused (sv.runner.transition r.state ops env.transition).trace) :
    Meets sv ids r c env := by
  refine ⟨hnamed, fun changes hchanges => ?_, hrunner, ?_⟩
  · exact settled_of_nodup hids (hdurable changes hchanges) (hnd changes hchanges)
  · rw [hcall]
    intro err herr
    cases herr

/-- The runner of the examples. -/
def exactServices : Services := ⟨exactRunner, fun _ _ => some []⟩

/-- Every listener accepts. -/
def accepting : CallEnvironment where
  transition := { forward := fun _ => {}, reverse := fun _ => {} }
  rollback := { forward := fun _ => {}, reverse := fun _ => {} }

/-- The entry `a:x`. -/
def entryX : Entry := { id := ⟨[97], [120]⟩, kind := [107] }

/-- The entry `a:y`. -/
def entryY : Entry := { id := ⟨[97], [121]⟩, kind := [107] }

/-- A baseline with `a:x`, a version that adds `a:y`, an overlay over `a:x`, and the way back to the root. -/
def overlaidRun : List (Call × CallEnvironment) :=
  [(.loadState [entryX] 0, accepting),
    (.apply [{ kind := .create, entry := entryY }], accepting),
    (.applyOverlay [111] 0 [{ kind := .update, entry := { entryX with data := [1] } }], accepting),
    (.applyVersion 0, accepting)]

/-- The IDs of these two. -/
def knownXY (id : ID) : Prop := id = entryX.id ∨ id = entryY.id

instance (id : ID) : Decidable (knownXY id) := inferInstanceAs (Decidable (_ ∨ _))

theorem idSpace_knownXY : IDSpace knownXY where
  canonical := by
    rintro id (rfl | rfl) <;> decide
  separate := by
    rintro a b (rfl | rfl) (rfl | rfl) <;> decide

theorem overlaidRun_agrees : (overlaidRun.foldl (step exactServices) {}).Agrees ∧
    (overlaidRun.foldl (step exactServices) {}).state = [{ entryX with data := [1] }] := by
  have hmeets : Along (step exactServices) (fun r e => Meets exactServices knownXY r e.1 e.2) {} overlaidRun := by
    refine ⟨?_, ?_, ?_, ?_, trivial⟩ <;>
      exact .of_accepted idSpace_knownXY (by decide) (by decide) (by decide) (by decide +kernel) (by decide +kernel)
  have hempty : ∀ rec ∈ ({} : Storage).records, ∀ op ∈ rec.changes, knownXY op.id.canonical := by decide
  exact ⟨registry_is_history_with_overlays exactBuilder_compare idSpace_knownXY hempty (.of_along hmeets),
    by decide +kernel⟩

/-- A changeset that deletes a missing entry and creates it leaves no entry, and its version has the entry. -/
theorem putOff_delete_parts_from_history :
    ¬ ∀ (sv : Services) (r : Reg), (∀ x y, sv.runner.builder.compare x y = true ↔ x = y) →
      Reach (step sv) (fun r e => RollbacksSucceed sv r e.1 e.2) {} r → r.Agrees := by
  intro h
  have hrun := h exactServices _ exactBuilder_compare
    (Reach.start.step (.apply [{ kind := .delete, entry := entryX }, { kind := .create, entry := entryX }],
      accepting) ?_)
  · obtain ⟨durable, hdurable, -, hunclaimed, -⟩ := hrun
    have hlive := hunclaimed entryX.id (by decide +kernel)
    have hstored : (durable.get entryX.id).isSome := by
      cases hdurable
      decide +kernel
    rw [← hlive] at hstored
    revert hstored
    decide +kernel
  · refine ⟨by decide +kernel, fun err herr => ?_⟩
    cases herr

end Reg
end Wippy.Registry
