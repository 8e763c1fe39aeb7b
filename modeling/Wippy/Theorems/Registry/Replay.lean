import Wippy.Theorems.Registry.Entry

/-! Operations seen one entry at a time: what a sequence of operations does to a state is what its operations on each
    entry do to that entry. -/

namespace Wippy.Registry
open Lib List

instance instDecidableValid (op : Operation) (existing : Option Entry) : Decidable (op.Valid existing) :=
  match hkind : op.kind, existing with
  | .create, none => .isTrue (by simp [Operation.Valid, hkind])
  | .create, some _ => .isFalse (by simp [Operation.Valid, hkind])
  | .update, none => .isFalse (by simp [Operation.Valid, hkind])
  | .update, some entry =>
    if h : entry.kind = op.entry.kind then .isTrue (by simp [Operation.Valid, hkind, h])
    else .isFalse (by simp [Operation.Valid, hkind, h])
  | .delete, none => .isFalse (by simp [Operation.Valid, hkind])
  | .delete, some _ => .isTrue (by simp [Operation.Valid, hkind])

/-- What operations leave of an entry, if each of them is valid. -/
def replay (existing : Option Entry) : ChangeSet → Option (Option Entry)
  | [] => some existing
  | op :: ops => if op.Valid existing then replay op.outcome ops else none

/-- The operations on an ID. -/
def onID (id : ID) (ops : ChangeSet) : ChangeSet := ops.filter fun op => decide (op.id = id)

section onID
variable {id : ID} {op : Operation} {ops ops' : ChangeSet}

@[simp] theorem onID_nil : onID id [] = [] := rfl

@[simp] theorem onID_append : onID id (ops ++ ops') = onID id ops ++ onID id ops' := filter_append _ _

theorem onID_cons_self : onID op.id (op :: ops) = op :: onID op.id ops := by simp [onID]

theorem onID_cons_of_ne (ops : ChangeSet) (h : op.id ≠ id) : onID id (op :: ops) = onID id ops := by simp [onID, h]

theorem mem_onID : op ∈ onID id ops ↔ op ∈ ops ∧ op.id = id := by simp [onID]

theorem onID_cases (id : ID) (ops : ChangeSet) : onID id ops = [] ∨ ∃ op ∈ ops, op.id = id := by
  refine or_iff_not_imp_left.mpr fun hne => ?_
  obtain ⟨op, hop⟩ := exists_mem_of_ne_nil _ hne
  exact ⟨op, mem_onID.mp hop⟩

theorem count_ids (ops : ChangeSet) (id : ID) : (ops.map Operation.id).count id = (onID id ops).length := by
  rw [count_eq_length_filter, List.filter_map, length_map]
  congr 1

end onID

section replay
variable {existing final : Option Entry} {op : Operation} {ops ops' : ChangeSet}

theorem replay_cons (h : op.Valid existing) : replay existing (op :: ops) = replay op.outcome ops := if_pos h

theorem valid_of_replay_cons (h : replay existing (op :: ops) = some final) :
    op.Valid existing ∧ replay op.outcome ops = some final := by
  unfold replay at h
  split at h
  next hval =>
    exact ⟨hval, h⟩
  · cases h

theorem replay_append (h : replay existing ops = some final) : replay existing (ops ++ ops') = replay final ops' := by
  induction ops generalizing existing with
  | nil =>
    cases h
    rfl
  | cons op ops ih =>
    obtain ⟨hval, h⟩ := valid_of_replay_cons h
    rw [cons_append, replay_cons hval]
    exact ih h

theorem replay_append_inv (h : replay existing (ops ++ ops') = some final) :
    ∃ mid, replay existing ops = some mid ∧ replay mid ops' = some final := by
  induction ops generalizing existing with
  | nil => exact ⟨existing, rfl, h⟩
  | cons op ops ih =>
    obtain ⟨hval, h⟩ := valid_of_replay_cons h
    rw [replay_cons hval]
    exact ih h

theorem outcome_eq_none : op.outcome = none ↔ op.kind = .delete := by
  unfold Operation.outcome
  cases op.kind <;> simp

theorem exists_create_of_replay (h : replay existing ops = some final) (hfinal : final ≠ none) :
    existing ≠ none ∨ ∃ op ∈ ops, op.kind = .create := by
  induction ops generalizing existing with
  | nil =>
    cases h
    exact .inl hfinal
  | cons op ops ih =>
    obtain ⟨hval, h⟩ := valid_of_replay_cons h
    cases hkind : op.kind with
    | create => exact .inr ⟨op, mem_cons_self, hkind⟩
    | update =>
      obtain ⟨entry, hentry, -⟩ : ∃ entry, existing = some entry ∧ entry.kind = op.entry.kind := by
        simpa [Operation.Valid, hkind] using hval
      exact .inl (by simp [hentry])
    | delete =>
      have hex : existing ≠ none := by simpa [Operation.Valid, hkind] using hval
      exact .inl hex

theorem exists_create_of_delete (h : replay existing ops = some final) (hfinal : final ≠ none) (hop : op ∈ ops)
    (hkind : op.kind = .delete) : ∃ op' ∈ ops, op'.kind = .create := by
  obtain ⟨before, after, rfl⟩ := append_of_mem hop
  obtain ⟨mid, -, h⟩ := replay_append_inv h
  obtain ⟨-, h⟩ := valid_of_replay_cons h
  rw [outcome_eq_none.mpr hkind] at h
  obtain ⟨op', hop', hkind'⟩ := (exists_create_of_replay h hfinal).resolve_left (by simp)
  exact ⟨op', mem_append_right _ (mem_cons_of_mem _ hop'), hkind'⟩

end replay

variable {state result : StateMap} {ops : ChangeSet}

theorem replay_of_applyOperations (h : applyOperations state ops = .ok result) (id : ID) :
    replay (state.get id) (onID id ops) = some (result.get id) := by
  induction ops generalizing state with
  | nil =>
    cases h
    rfl
  | cons op ops ih =>
    obtain ⟨hval, h⟩ := applyOperations_cons.mp h
    have hrest := ih h
    rw [get_applyValidatedOperation] at hrest
    by_cases hid : op.id = id
    · subst hid
      rw [if_pos rfl] at hrest
      rw [onID_cons_self, replay_cons hval]
      exact hrest
    · rw [if_neg (Ne.symm hid)] at hrest
      rw [onID_cons_of_ne _ hid]
      exact hrest

theorem applyOperations_of_replay {final : ID → Option Entry}
    (h : ∀ id, replay (state.get id) (onID id ops) = some (final id)) :
    ∃ result, applyOperations state ops = .ok result ∧ ∀ id, final id = result.get id := by
  induction ops generalizing state with
  | nil => exact ⟨state, rfl, fun id => (Option.some.inj (h id)).symm⟩
  | cons op ops ih =>
    have hself := h op.id
    rw [onID_cons_self] at hself
    obtain ⟨hval, hself⟩ := valid_of_replay_cons hself
    simp only [applyOperations_cons, hval, true_and]
    refine ih fun id => ?_
    rw [get_applyValidatedOperation]
    by_cases hid : op.id = id
    · subst hid
      rw [if_pos rfl]
      exact hself
    · rw [if_neg (Ne.symm hid), ← onID_cons_of_ne ops hid]
      exact h id

theorem applyOperations_append (h : applyOperations state ops = .ok result) (ops' : ChangeSet) :
    applyOperations state (ops ++ ops') = applyOperations result ops' := by
  unfold applyOperations at h ⊢
  rw [foldlM_append, h]
  rfl

end Wippy.Registry
