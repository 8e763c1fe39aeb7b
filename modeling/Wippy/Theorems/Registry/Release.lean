import Wippy.Theorems.Registry.DepIndex
import Wippy.Theorems.Registry.Overlay

/-! An owner releases its claims by deleting every entry that it claims: the entries that it has added go, and the
    durable entries that it shadows come back. -/

namespace Wippy.Registry
open Lib Wippy.Registry.Topology List Option Map

namespace BusRunner
variable {br : BusRunner} {env : Environment} {state : StateMap} {op : Operation} {cs : ChangeSet}
  {initial : State}

end BusRunner

namespace Reg
open OverlayDraft

variable {sv : Services} {ids : ID → Prop} {r : Reg} {env : CallEnvironment} {owner : Bytes}
  {changes done sorted : ChangeSet} {draft d : OverlayDraft} {op : Operation} {shadow : OverlayShadow}

/-- The changes delete what the owner claims. -/
structure Releases (r : Reg) (owner : Bytes) (changes : ChangeSet) : Prop where
  deletes : ∀ op ∈ changes, op.kind = .delete
  distinct : (changes.map Operation.id).Nodup
  claimed : ∀ id, id ∈ changes.map Operation.id ↔ r.overlayOwners.lookup id = some owner

/-- The operation that a delete of a claim becomes. -/
def releaseOp (r : Reg) (op : Operation) : Operation :=
  match r.overlayShadows.lookup op.id with
  | some shadow => { kind := if shadow.removed then .create else .update, entry := shadow.original }
  | none => { kind := .delete, entry := op.entry }

/-- The draft after some of the deletes. -/
structure Releasing (r : Reg) (done : ChangeSet) (d : OverlayDraft) : Prop where
  owners : ∀ id, d.owners.lookup id = if id ∈ done.map Operation.id then none else r.overlayOwners.lookup id
  shadows : ∀ id, d.shadows.lookup id = if id ∈ done.map Operation.id then none else r.overlayShadows.lookup id
  effective : ∀ id, d.effective.get id =
    if id ∈ done.map Operation.id then (r.overlayShadows.lookup id).map (·.original) else (newStateMap r.state).get id
  transition : d.transition = done.map r.releaseOp
  seen : ∀ id, id ∈ d.seen ↔ id ∈ done.map Operation.id
  deleted : ∀ id, id ∈ d.deleted ↔ id ∈ done.map Operation.id ∧ r.overlayShadows.lookup id = none

theorem Releasing.step {d d' : OverlayDraft} (h : Releasing r done d)
    (hother : ∀ other, other ≠ op.id → d'.owners.lookup other = d.owners.lookup other ∧
      d'.shadows.lookup other = d.shadows.lookup other ∧ d'.effective.get other = d.effective.get other)
    (howner : d'.owners.lookup op.id = none) (hshadow : d'.shadows.lookup op.id = none)
    (hentry : d'.effective.get op.id = (r.overlayShadows.lookup op.id).map (·.original))
    (htransition : d'.transition = d.transition ++ [r.releaseOp op]) (hseen : d'.seen = op.id :: d.seen)
    (hdeleted : ∀ id, id ∈ d'.deleted ↔ id ∈ d.deleted ∨ id = op.id ∧ r.overlayShadows.lookup op.id = none) :
    Releasing r (done ++ [op]) d' := by
  have hmem : ∀ id, id ∈ (done ++ [op]).map Operation.id ↔ id ∈ done.map Operation.id ∨ id = op.id := by simp
  refine ⟨fun id => ?_, fun id => ?_, fun id => ?_, ?_, fun id => ?_, fun id => ?_⟩
  · by_cases hid : id = op.id
    · rw [if_pos ((hmem id).mpr (.inr hid)), hid, howner]
    · simp only [hmem, hid, or_false, (hother id hid).1, h.owners]
  · by_cases hid : id = op.id
    · rw [if_pos ((hmem id).mpr (.inr hid)), hid, hshadow]
    · simp only [hmem, hid, or_false, (hother id hid).2.1, h.shadows]
  · by_cases hid : id = op.id
    · rw [if_pos ((hmem id).mpr (.inr hid)), hid, hentry]
    · simp only [hmem, hid, or_false, (hother id hid).2.2, h.effective]
  · simp [htransition, h.transition]
  · simp only [hseen, mem_cons, h.seen, hmem, or_comm]
  · rw [hdeleted, h.deleted, hmem]
    constructor
    · rintro (⟨hid, hnone⟩ | ⟨rfl, hnone⟩)
      · exact ⟨.inl hid, hnone⟩
      · exact ⟨.inr rfl, hnone⟩
    · rintro ⟨hid | rfl, hnone⟩
      · exact .inl ⟨hid, hnone⟩
      · exact .inr ⟨rfl, hnone⟩

theorem Releasing.delete (h : Releasing r done d) (hfresh : op.id ∉ done.map Operation.id)
    (howner : r.overlayOwners.lookup op.id = some owner)
    (hkey : ∀ shadow, r.overlayShadows.lookup op.id = some shadow → shadow.original.id = op.id) :
    Releasing r (done ++ [op]) { d.delete owner op with seen := op.id :: d.seen } := by
  have hshadows := h.shadows op.id
  have howners := h.owners op.id
  rw [if_neg hfresh] at hshadows howners
  rw [howner] at howners
  unfold OverlayDraft.delete
  rw [hshadows, howners]
  cases hshadow : r.overlayShadows.lookup op.id with
  | none =>
    refine h.step (fun other hne => ⟨AList.lookup_erase_ne hne, rfl, ?_⟩) ?_ ?_ ?_ ?_ rfl fun id => ?_
    · rw [Keyed.get_del, if_neg hne]
    · exact AList.lookup_erase _ _
    · rw [hshadows, hshadow]
    · rw [Keyed.get_del, if_pos rfl, hshadow, map_none]
    · simp only [releaseOp, hshadow]
    · simp [hshadow, or_comm]
  | some shadow =>
    have hid := hkey shadow hshadow
    refine h.step (fun other hne =>
      ⟨AList.lookup_erase_ne hne, AList.lookup_erase_ne hne, ?_⟩) ?_ ?_ ?_ ?_ rfl fun id => ?_
    · exact get_put_ne _ (hid.symm ▸ hne)
    · exact AList.lookup_erase _ _
    · exact AList.lookup_erase _ _
    · rw [hshadow, ← hid]
      exact get_put_self _ _
    · simp only [releaseOp, hshadow]
    · simp [hshadow]

theorem Releasing.applyOperation (h : Releasing r done d) (hkind : op.kind = .delete)
    (hfresh : op.id ∉ done.map Operation.id) (howner : r.overlayOwners.lookup op.id = some owner)
    (hkey : ∀ shadow, r.overlayShadows.lookup op.id = some shadow → shadow.original.id = op.id) :
    ∃ d', OverlayDraft.applyOperation owner d op = .ok d' ∧ Releasing r (done ++ [op]) d' := by
  have hseen : op.id ∉ d.seen := mt (h.seen op.id).mp hfresh
  have howners : d.owners.lookup op.id = some owner := by
    rw [h.owners, if_neg hfresh, howner]
  have hallowed : d.allowed owner op = true := by simp [allowed, hkind, howners]
  refine ⟨{ d.delete owner op with seen := op.id :: d.seen }, ?_, h.delete hfresh howner hkey⟩
  simp [OverlayDraft.applyOperation, hseen, hallowed, hkind]

theorem Releasing.foldlM {done rest : ChangeSet} (h : Releasing r done d) (hkinds : ∀ op ∈ rest, op.kind = .delete)
    (hnd : ((done ++ rest).map Operation.id).Nodup) (howner : ∀ op ∈ rest, r.overlayOwners.lookup op.id = some owner)
    (hkey : ∀ id shadow, r.overlayShadows.lookup id = some shadow → shadow.original.id = id) :
    ∃ d', rest.foldlM (OverlayDraft.applyOperation owner) d = .ok d' ∧ Releasing r (done ++ rest) d' := by
  induction rest generalizing done d with
  | nil => exact ⟨d, rfl, by simpa using h⟩
  | cons op rest ih =>
    obtain ⟨hkind, hkinds⟩ := forall_mem_cons.mp hkinds
    obtain ⟨hop, howner⟩ := forall_mem_cons.mp howner
    have hfresh : op.id ∉ done.map Operation.id := by
      rw [map_append, nodup_append] at hnd
      exact fun hmem => hnd.2.2 _ hmem _ (by simp) rfl
    obtain ⟨d', happ, hd'⟩ := h.applyOperation hkind hfresh hop (hkey op.id)
    obtain ⟨d'', hfold, hd''⟩ := ih hd' hkinds (by simpa using hnd) howner
    refine ⟨d'', ?_, by simpa using hd''⟩
    rw [foldlM_cons, happ]
    exact hfold

theorem Sound.known_of_owned (h : Sound ids r) (hids : IDSpace ids) {id : ID}
    (howner : r.overlayOwners.lookup id = some owner) :
    ids id := by
  obtain ⟨durable, hdurable, hclaims⟩ := h.claims
  cases hshadow : r.overlayShadows.lookup id with
  | none =>
    obtain ⟨entry, hentry⟩ := ne_none_iff_exists'.mp ((hclaims id).added howner hshadow).1
    obtain ⟨hmem, rfl⟩ := (get_newStateMap h.within.nodup).mp hentry
    exact h.within.known entry hmem
  | some shadow => exact h.known hids hdurable id shadow.original ((hclaims id).shadowed hshadow).2.1

theorem Releases.known (hids : IDSpace ids) (h : Sound ids r) (hreleases : Releases r owner changes) :
    ∀ op ∈ changes, ids op.id := fun op hop =>
  h.known_of_owned hids ((hreleases.claimed op.id).mp (List.mem_map_of_mem hop))

section Checks
variable {draft : OverlayDraft}

section
variable (h : Releasing r changes draft)
include h

section
variable (hreleases : Releases r owner changes)
include hreleases

end

end

end Checks

section
variable (hids : IDSpace ids) (h : Sound ids r) (hreleases : Releases r owner changes)
include hids h hreleases

end

/-- The changeset that deletes what the owner claims. -/
def release (r : Reg) (owner : Bytes) : ChangeSet :=
  (r.overlayOwners.keys.filter fun id => decide (r.overlayOwners.lookup id = some owner)).map fun id =>
    { kind := .delete, entry := { id, kind := [] } }

/-- An overlay removes the durable `a:x` and then puts an entry of another kind in its place. -/
def recreated : Reg :=
  [(.loadState [entryX] 0, accepting),
    (.applyOverlay [111] 0 [{ kind := .delete, entry := entryX }], accepting),
    (.applyOverlay [111] 1 [{ kind := .update, entry := { entryX with kind := [109] } }], accepting)].foldl
    (step exactServices) {}

end Reg
end Wippy.Registry
