import Wippy.Lib.Except
import Wippy.Registry.Entry

/-! What operations do to a state, and states without duplicates. -/

namespace Wippy.Registry
open Lib List Option

namespace ID

@[simp] theorem equal_refl (id : ID) : id.equal id = true := by simp [equal]

theorem equal_iff {a b : ID} : a.equal b = true ↔ a.canonical = b.canonical := by simp [equal]

theorem equal_comm (a b : ID) : a.equal b = b.equal a := by
  rw [Bool.eq_iff_iff, equal_iff, equal_iff]
  exact eq_comm

theorem le_total (a b : ID) : a.le b = true ∨ b.le a = true := by
  unfold le
  by_cases h : a.ns = b.ns
  · simp only [h, if_true]
    exact leBytes_total _ _
  · simp only [h, Ne.symm h, if_false]
    exact leBytes_total _ _

theorem le_antisymm {a b : ID} (hab : a.le b = true) (hba : b.le a = true) : a = b := by
  unfold le at hab hba
  by_cases h : a.ns = b.ns
  · simp only [h, if_true] at hab hba
    rw [ID.mk.injEq]
    exact ⟨h, leBytes_antisymm hab hba⟩
  · simp only [h, Ne.symm h, if_false] at hab hba
    exact absurd (leBytes_antisymm hab hba) h

theorem le_trans {a b c : ID} (hab : a.le b = true) (hbc : b.le c = true) : a.le c = true := by
  unfold le at hab hbc ⊢
  by_cases h : a.ns = b.ns
  · rw [if_pos h] at hab
    by_cases h' : b.ns = c.ns
    · rw [if_pos h'] at hbc
      rw [if_pos (h.trans h')]
      exact leBytes_trans hab hbc
    · rw [if_neg h'] at hbc
      rw [if_neg (h ▸ h'), h]
      exact hbc
  · rw [if_neg h] at hab
    by_cases h' : b.ns = c.ns
    · rw [if_neg (h' ▸ h), ← h']
      exact hab
    · rw [if_neg h'] at hbc
      have hne : a.ns ≠ c.ns := fun heq => h (leBytes_antisymm hab (heq ▸ hbc))
      rw [if_neg hne]
      exact leBytes_trans hab hbc

end ID

variable {state : State}

theorem firstDuplicate_eq_none {seen : List ID} :
    firstDuplicate seen state = none ↔
      (state.map (·.id.identity)).Nodup ∧ ∀ entry ∈ state, entry.id.identity ∉ seen := by
  induction state generalizing seen with
  | nil => simp [firstDuplicate]
  | cons entry state ih =>
    unfold firstDuplicate
    by_cases hin : entry.id.identity ∈ seen
    · simp [hin]
    rw [if_neg (by simpa using hin), ih]
    simp only [map_cons, nodup_cons, mem_cons, List.mem_map, not_or, forall_eq_or_imp]
    constructor
    · rintro ⟨hnd, hall⟩
      refine ⟨⟨?_, hnd⟩, hin, fun e he => (hall e he).2⟩
      rintro ⟨e, he, heq⟩
      exact (hall e he).1 heq
    · rintro ⟨⟨hnew, hnd⟩, -, hall⟩
      exact ⟨hnd, fun e he => ⟨fun heq => hnew ⟨e, he, heq⟩, hall e he⟩⟩

theorem firstDuplicateID_eq_none : firstDuplicateID state = none ↔ (state.map (·.id.identity)).Nodup := by
  simp [firstDuplicateID, firstDuplicate_eq_none]

/-- No two entries of a state have the same ID, neither by `ID.equal` nor by the identity that ignores white space. -/
structure UniqueIDs (state : State) : Prop where
  equal : state.Pairwise fun a b => a.id.equal b.id = false
  identity : (state.map (·.id.identity)).Nodup

instance instDecidableUniqueIDs (state : State) : Decidable (UniqueIDs state) :=
  decidable_of_iff ((state.Pairwise fun a b => a.id.equal b.id = false) ∧ (state.map (·.id.identity)).Nodup)
    ⟨fun h => ⟨h.1, h.2⟩, fun h => ⟨h.equal, h.identity⟩⟩

theorem nodup_of_pairwise_equal {α : Type} {f : α → ID} {l : List α}
    (h : l.Pairwise fun a b => (f a).equal (f b) = false) : (l.map f).Nodup := by
  refine pairwise_map.mpr (h.imp ?_)
  intro a b hab heq
  rw [heq, ID.equal_refl] at hab
  cases hab

theorem UniqueIDs.nodup (h : UniqueIDs state) : (state.map Entry.id).Nodup :=
  nodup_of_pairwise_equal h.equal

theorem UniqueIDs.perm {state state' : State} (h : UniqueIDs state) (hperm : state'.Perm state) : UniqueIDs state' where
  equal := (hperm.pairwise_iff fun {a b} hab => by rwa [ID.equal_comm]).mpr h.equal
  identity := (hperm.map _).nodup_iff.mpr h.identity

theorem UniqueIDs.of_nodup (hnd : (state.map Entry.id).Nodup)
    (h : ∀ a ∈ state, ∀ b ∈ state, a.id ≠ b.id → a.id.equal b.id = false ∧ a.id.identity ≠ b.id.identity) :
    UniqueIDs state where
  equal := (pairwise_map.mp hnd).imp_of_mem fun ha hb hne => (h _ ha _ hb hne).1
  identity := pairwise_map.mpr ((pairwise_map.mp hnd).imp_of_mem fun ha hb hne => (h _ ha _ hb hne).2)

section
variable (h : (state.map Entry.id).Nodup)
include h

theorem get_newStateMap {id : ID} {entry : Entry} :
    (newStateMap state).get id = some entry ↔ entry ∈ state ∧ entry.id = id :=
  Keyed.get_ofList h

theorem get_newStateMap_isSome {id : ID} : ((newStateMap state).get id).isSome = true ↔ id ∈ state.map Entry.id := by
  rw [isSome_iff_exists, List.mem_map]
  exact exists_congr fun entry => get_newStateMap h

theorem entries_newStateMap_perm : (newStateMap state).entries.Perm state := Keyed.entries_ofList_perm h

end

theorem get_newStateMap_of_perm {sm : StateMap} (h : state.Perm sm.entries) (id : ID) :
    (newStateMap state).get id = sm.get id := by
  have hnd : (state.map Entry.id).Nodup := (h.map _).nodup_iff.mpr sm.distinct
  refine Option.ext fun entry => ?_
  rw [get_newStateMap hnd, Keyed.get_eq_some, h.mem_iff]

/-- What an operation leaves under its ID. -/
def Operation.outcome (op : Operation) : Option Entry :=
  match op.kind with
  | .create | .update => some op.entry
  | .delete => none

theorem get_applyValidatedOperation (state : StateMap) (op : Operation) (id : ID) :
    (applyValidatedOperation state op).get id = if id = op.id then op.outcome else state.get id := by
  unfold applyValidatedOperation Operation.outcome
  cases op.kind with
  | create => exact Keyed.get_put _ _ _
  | update => exact Keyed.get_put _ _ _
  | delete => exact Keyed.get_del _ _ _

/-- The operation passes `ValidateOperation`. -/
def Operation.Valid (op : Operation) (existing : Option Entry) : Prop :=
  match op.kind with
  | .create => existing = none
  | .update => ∃ entry, existing = some entry ∧ entry.kind = op.entry.kind
  | .delete => existing ≠ none

variable {state result : StateMap} {op : Operation} {ops : ChangeSet}

theorem validateOperation_eq_ok :
    validateOperation state op = .ok () ↔ op.Valid (state.get op.id) := by
  unfold validateOperation Operation.Valid
  cases op.kind <;> cases state.get op.id <;> simp

theorem applyOperation_eq_ok {state' : StateMap} :
    applyOperation state op = .ok state' ↔ op.Valid (state.get op.id) ∧ state' = applyValidatedOperation state op := by
  unfold applyOperation
  cases h : validateOperation state op with
  | error err =>
    have hinv : ¬ op.Valid (state.get op.id) := by
      rw [← validateOperation_eq_ok, h]
      simp
    simp [hinv]
  | ok u =>
    have hval : op.Valid (state.get op.id) := validateOperation_eq_ok.mp h
    simp [hval, eq_comm]

theorem applyOperations_cons :
    applyOperations state (op :: ops) = .ok result ↔
      op.Valid (state.get op.id) ∧ applyOperations (applyValidatedOperation state op) ops = .ok result := by
  constructor
  · intro h
    obtain ⟨state', happ, h⟩ := exists_of_bind_eq_ok h
    obtain ⟨hval, rfl⟩ := applyOperation_eq_ok.mp happ
    exact ⟨hval, h⟩
  · rintro ⟨hval, h⟩
    rw [applyOperations, foldlM_cons, applyOperation_eq_ok.mpr ⟨hval, rfl⟩]
    exact h

theorem applyOperations_eq_ok (hnd : (ops.map Operation.id).Nodup) :
    (∃ result, applyOperations state ops = .ok result) ↔ ∀ op ∈ ops, op.Valid (state.get op.id) := by
  induction ops generalizing state with
  | nil => simp [applyOperations, pure, Except.pure]
  | cons op ops ih =>
    obtain ⟨hop, hnd⟩ := nodup_cons.mp hnd
    have hother : ∀ op' ∈ ops, op'.id ≠ op.id := fun op' h heq => hop (heq ▸ List.mem_map_of_mem h)
    simp only [applyOperations_cons, exists_and_left, ih hnd, forall_mem_cons]
    refine and_congr_right fun _ => forall₂_congr fun op' h => ?_
    rw [get_applyValidatedOperation, if_neg (hother op' h)]

theorem get_applyOperations (hnd : (ops.map Operation.id).Nodup)
    (h : applyOperations state ops = .ok result) :
    (∀ op ∈ ops, result.get op.id = op.outcome) ∧ ∀ id, id ∉ ops.map Operation.id → result.get id = state.get id := by
  induction ops generalizing state with
  | nil =>
    cases h
    exact ⟨by simp, fun _ _ => rfl⟩
  | cons op ops ih =>
    obtain ⟨hop, hnd⟩ := nodup_cons.mp hnd
    obtain ⟨hmem, hrest⟩ := ih hnd (applyOperations_cons.mp h).2
    refine ⟨?_, ?_⟩
    · intro op' h'
      rcases mem_cons.mp h' with rfl | h'
      · rw [hrest _ hop, get_applyValidatedOperation, if_pos rfl]
      · exact hmem op' h'
    · intro id hid
      obtain ⟨hne, hid⟩ := not_or.mp (mem_cons.not.mp hid)
      rw [hrest id hid, get_applyValidatedOperation, if_neg hne]

end Wippy.Registry
