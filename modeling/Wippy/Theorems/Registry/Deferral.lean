import Wippy.Theorems.Registry.Replay

/-! The operations on one entry when any of them may be put off and tried again after the others. -/

namespace Wippy.Registry
open List Option

/-- How many operations create. -/
def creates (ops : ChangeSet) : Nat := ops.countP fun op => decide (op.kind = .create)

/-- How many operations delete. -/
def deletions (ops : ChangeSet) : Nat := ops.countP fun op => decide (op.kind = .delete)

/-- One if the entry is there. -/
def presence (existing : Option Entry) : Int := if existing.isSome then 1 else 0

/-- Whether the entry is there when all its operations are executed, in whatever order: 1 if it is and 0 if it is
    not. -/
def surplus (existing : Option Entry) (ops : ChangeSet) : Int := presence existing + creates ops - deletions ops

/-- An update that keeps the kind. -/
def Operation.keepsKind (kind : Bytes) (op : Operation) : Bool :=
  decide (op.kind = .update) && decide (op.entry.kind = kind)

/-- Before an entry of the kind is deleted, it is created or updated to another kind. -/
def FirstFails (kind : Bytes) (ops : ChangeSet) : Prop :=
  (ops.find? fun op => !op.keepsKind kind).any fun op => decide (op.kind ≠ .delete)

/-- The operations on an entry come to the same however they are put off: in order they end with its deletion, or update
    it at most last; or they can never all be executed. -/
def Settles (existing : Option Entry) (ops : ChangeSet) : Prop :=
  match replay existing ops with
  | some none => True
  | some (some _) => ∀ op ∈ ops.dropLast, op.kind ≠ .update
  | none => (∃ entry ∈ existing, FirstFails entry.kind ops) ∨ (existing = none ∧ ∀ op ∈ ops, op.kind ≠ .create) ∨
      surplus existing ops < 0 ∨ 1 < surplus existing ops

section
variable {existing final : Option Entry} {op : Operation} {ops ops' : ChangeSet} {kind : Bytes}

theorem Operation.Valid.of_create (h : op.Valid existing) (hkind : op.kind = .create) : existing = none := by
  simpa [Operation.Valid, hkind] using h

theorem Operation.Valid.ne_none (h : op.Valid existing) (hkind : op.kind ≠ .create) : existing ≠ none := by
  rintro rfl
  unfold Operation.Valid at h
  cases hk : op.kind with
  | create => exact hkind hk
  | update => simp [hk] at h
  | delete => simp [hk] at h

theorem Operation.Valid.create_of_none (h : op.Valid none) : op.kind = .create :=
  Decidable.byContradiction fun hkind => h.ne_none hkind rfl

theorem kind_of_replay_none (h : replay none (op :: ops) = some final) : op.kind = .create :=
  (valid_of_replay_cons h).1.create_of_none

theorem mem_dropLast_cons {op' : Operation} (h : op' ∈ ops.dropLast) : op' ∈ (op :: ops).dropLast := by
  cases ops with
  | nil => cases h
  | cons first ops => exact mem_cons_of_mem _ h

theorem surplus_nil : surplus existing [] = presence existing := by simp [surplus, creates, deletions]

theorem presence_nonneg (existing : Option Entry) : 0 ≤ presence existing := by
  unfold presence
  split <;> decide

theorem presence_le_one (existing : Option Entry) : presence existing ≤ 1 := by
  unfold presence
  split <;> decide

theorem presence_eq_zero : presence existing = 0 ↔ existing = none := by
  cases existing <;> simp [presence]

theorem surplus_execute (ops : ChangeSet) (h : op.Valid existing) :
    surplus op.outcome (ops ++ ops') = surplus existing (ops ++ op :: ops') := by
  simp only [surplus, creates, deletions, countP_append, countP_cons, Operation.outcome]
  cases hkind : op.kind with
  | create =>
    grind [presence, h.of_create hkind]
  | update =>
    obtain ⟨entry, rfl⟩ := ne_none_iff_exists'.mp (h.ne_none (by simp [hkind]))
    simp [presence]
  | delete =>
    obtain ⟨entry, rfl⟩ := ne_none_iff_exists'.mp (h.ne_none (by simp [hkind]))
    grind [presence]

theorem surplus_of_replay (h : replay existing ops = some final) : surplus existing ops = presence final := by
  induction ops generalizing existing with
  | nil =>
    cases h
    exact surplus_nil
  | cons op ops ih =>
    obtain ⟨hval, h⟩ := valid_of_replay_cons h
    rw [← ih h]
    exact (surplus_execute [] hval).symm

theorem firstFails_cons (hkeeps : op.keepsKind kind = false) (hkind : op.kind ≠ .delete) :
    FirstFails kind (op :: ops) := by
  unfold FirstFails
  rw [find?_cons_of_pos (by simp [hkeeps])]
  simpa using hkind

theorem firstFails_of_create (kind : Bytes) (hkind : op.kind = .create) : FirstFails kind (op :: ops) :=
  firstFails_cons (by simp [Operation.keepsKind, hkind]) (by simp [hkind])

theorem firstFails_append_cons (ops : ChangeSet) (hkeeps : op.keepsKind kind = true) :
    FirstFails kind (ops ++ op :: ops') ↔ FirstFails kind (ops ++ ops') := by
  unfold FirstFails
  rw [find?_append, find?_append, find?_cons_of_neg (by simp [hkeeps])]

theorem FirstFails.append (h : FirstFails kind ops) (ops' : ChangeSet) : FirstFails kind (ops ++ ops') := by
  unfold FirstFails at h ⊢
  cases hfind : ops.find? (fun op => !op.keepsKind kind) with
  | none => simp [hfind] at h
  | some op => simpa [hfind] using h

theorem not_firstFails_nil (kind : Bytes) : ¬ FirstFails kind [] := by simp [FirstFails]

theorem Operation.Valid.keepsKind {entry : Entry} (h : op.Valid (some entry)) (hkind : op.kind ≠ .delete) :
    op.keepsKind entry.kind = true := by
  cases hk : op.kind with
  | create => exact absurd (h.of_create hk) (by simp)
  | update =>
    have hsame : entry.kind = op.entry.kind := by simpa [Operation.Valid, hk] using h
    simp [Operation.keepsKind, hk, hsame]
  | delete => exact absurd hk hkind

end

theorem settles_singleton (existing : Option Entry) (op : Operation) : Settles existing [op] := by
  unfold Settles
  split
  · trivial
  · simp
  next hreplay =>
    have hinvalid : ¬ op.Valid existing := by
      intro hval
      rw [replay_cons hval] at hreplay
      cases hreplay
    cases existing with
    | none =>
      refine .inr (.inl ⟨rfl, ?_⟩)
      simp only [mem_singleton, forall_eq]
      intro hkind
      exact hinvalid (by simp [Operation.Valid, hkind])
    | some entry =>
      refine .inl ⟨entry, rfl, firstFails_cons ?_ ?_⟩
      · rw [Bool.eq_false_iff]
        intro hkeeps
        simp only [Operation.keepsKind, Bool.and_eq_true, decide_eq_true_eq] at hkeeps
        exact hinvalid (by simp [Operation.Valid, hkeeps.1, hkeeps.2])
      · intro hkind
        exact hinvalid (by simp [Operation.Valid, hkind])

theorem settles_nil (existing : Option Entry) : Settles existing [] := by
  cases existing <;> simp [Settles, replay]

/-- An entry of the kind is there, and before a delete of it comes an operation that fails for good. -/
structure Blocked (kind : Bytes) (deferred remaining : ChangeSet) : Prop where
  first : FirstFails kind (deferred ++ remaining)
  next : remaining.find? (fun op => !op.keepsKind kind) = none ∨ FirstFails kind remaining

namespace Blocked
variable {entry : Entry} {op : Operation} {deferred remaining : ChangeSet} {kind : Bytes}

theorem kind_ne_delete (h : Blocked kind deferred (op :: remaining)) : op.kind ≠ .delete := by
  intro hkind
  have hfind : (op :: remaining).find? (fun op => !op.keepsKind kind) = some op :=
    find?_cons_of_pos (by simp [Operation.keepsKind, hkind])
  rcases h.next with hnone | hfails
  · rw [hfind] at hnone
    cases hnone
  · unfold FirstFails at hfails
    rw [hfind] at hfails
    simp [hkind] at hfails

theorem next_tail (h : Blocked kind deferred (op :: remaining)) (hkeeps : op.keepsKind kind = true) :
    remaining.find? (fun op => !op.keepsKind kind) = none ∨ FirstFails kind remaining := by
  have hnext := h.next
  rw [find?_cons_of_neg (by simp [hkeeps])] at hnext
  exact hnext.imp id (firstFails_append_cons [] hkeeps).mp

section
variable (h : Blocked entry.kind deferred (op :: remaining)) (hval : op.Valid (some entry))
include h hval

theorem execute :
    op.outcome = some op.entry ∧ op.entry.kind = entry.kind ∧ Blocked op.entry.kind deferred remaining := by
  have hkeeps := hval.keepsKind h.kind_ne_delete
  have hboth := hkeeps
  simp only [Operation.keepsKind, Bool.and_eq_true, decide_eq_true_eq] at hboth
  refine ⟨by simp [Operation.outcome, hboth.1], hboth.2, ?_⟩
  rw [hboth.2]
  exact ⟨(firstFails_append_cons _ hkeeps).mp h.first, h.next_tail hkeeps⟩

theorem defer : Blocked entry.kind (deferred ++ [op]) remaining := by
  refine ⟨?_, h.next_tail (hval.keepsKind h.kind_ne_delete)⟩
  rw [append_assoc]
  exact h.first

end

theorem nextPass (h : Blocked kind deferred []) : Blocked kind [] deferred := by
  have hfirst := h.first
  rw [append_nil] at hfirst
  exact ⟨hfirst, .inr hfirst⟩

theorem not_done : ¬ Blocked kind [] [] := fun h => not_firstFails_nil kind h.first

end Blocked

/-- What the operations on an entry that were put off and those still to be visited can make of it, where `goal` is
    what all of them make of it in their order. -/
inductive Course (goal : Option (Option Entry)) (existing : Option Entry) (deferred remaining : ChangeSet) : Prop
  | absent (hgoal : goal = some none) (hcount : surplus existing (deferred ++ remaining) = 0)
  | unbalanced (hcount : surplus existing (deferred ++ remaining) < 0 ∨ 1 < surplus existing (deferred ++ remaining))
  | stuck (habsent : existing = none) (hleft : deferred ++ remaining ≠ [])
      (hcreate : ∀ op ∈ deferred ++ remaining, op.kind ≠ .create)
  | blocked (entry : Entry) (hpresent : existing = some entry) (h : Blocked entry.kind deferred remaining)
  | inOrder (entry : Entry) (hgoal : goal = some (some entry))
      (hreplay : replay existing (deferred ++ remaining) = some (some entry))
      (hupdate : ∀ op ∈ (deferred ++ remaining).dropLast, op.kind ≠ .update)
      (hcreate : ∀ op ∈ deferred, op.kind = .create → existing = none)
  /-- A create has overtaken those put off; the delete that follows it leads back to the order. -/
  | overtaken (entry : Entry) (op : Operation) (rest : ChangeSet) (hgoal : goal = some (some entry))
      (hpresent : existing ≠ none) (hop : op.kind = .delete) (hremaining : remaining = op :: rest)
      (hfirst : ∀ kind, FirstFails kind deferred) (hrest : ∀ kind, FirstFails kind rest)
      (hreplay : replay none (deferred ++ rest) = some (some entry))
      (hupdate : ∀ op ∈ (deferred ++ rest).dropLast, op.kind ≠ .update)

namespace Course
variable {goal : Option (Option Entry)} {existing : Option Entry} {op : Operation} {deferred remaining : ChangeSet}

theorem start {ops : ChangeSet} (h : Settles existing ops) : Course (replay existing ops) existing [] ops := by
  unfold Settles at h
  split at h
  next hreplay =>
    exact .absent hreplay (surplus_of_replay hreplay)
  next entry hreplay =>
    exact .inOrder entry hreplay hreplay h (by simp)
  next hreplay =>
    rcases h with ⟨entry, hpresent, hfirst⟩ | ⟨habsent, hcreate⟩ | hcount
    · exact .blocked entry hpresent ⟨hfirst, .inr hfirst⟩
    · refine .stuck habsent ?_ hcreate
      rintro hnil
      rw [nil_append] at hnil
      rw [hnil] at hreplay
      cases hreplay
    · exact .unbalanced hcount

theorem nextPass (h : Course goal existing deferred []) : Course goal existing [] deferred := by
  cases h with
  | absent hgoal hcount => exact .absent hgoal (by simpa using hcount)
  | unbalanced hcount => exact .unbalanced (by simpa using hcount)
  | stuck habsent hleft hcreate => exact .stuck habsent (by simpa using hleft) (by simpa using hcreate)
  | blocked entry hpresent h => exact .blocked entry hpresent h.nextPass
  | inOrder entry hgoal hreplay hupdate hcreate =>
    rw [append_nil] at hreplay hupdate
    exact .inOrder entry hgoal hreplay hupdate (by simp)
  | overtaken entry op rest hgoal hpresent hop hremaining => cases hremaining

theorem done (h : Course goal existing [] []) : goal = some existing := by
  cases h with
  | absent hgoal hcount =>
    rw [append_nil, surplus_nil, presence_eq_zero] at hcount
    rw [hgoal, hcount]
  | unbalanced hcount =>
    rw [append_nil, surplus_nil] at hcount
    have h0 := presence_nonneg existing
    have h1 := presence_le_one existing
    omega
  | stuck habsent hleft hcreate => exact absurd rfl hleft
  | blocked entry hpresent h => exact absurd h Blocked.not_done
  | inOrder entry hgoal hreplay hupdate hcreate =>
    cases hreplay
    exact hgoal
  | overtaken entry op rest hgoal hpresent hop hremaining => cases hremaining

theorem defer (h : Course goal existing deferred (op :: remaining)) (hval : op.Valid existing ∨ existing = none) :
    Course goal existing (deferred ++ [op]) remaining := by
  have happ : deferred ++ [op] ++ remaining = deferred ++ op :: remaining := by simp
  cases h with
  | absent hgoal hcount => exact .absent hgoal (happ ▸ hcount)
  | unbalanced hcount => exact .unbalanced (happ ▸ hcount)
  | stuck habsent hleft hcreate => exact .stuck habsent (happ ▸ hleft) (happ ▸ hcreate)
  | blocked entry hpresent h =>
    subst hpresent
    exact .blocked entry rfl (h.defer (hval.resolve_right (by simp)))
  | inOrder entry hgoal hreplay hupdate hcreate =>
    refine .inOrder entry hgoal (happ ▸ hreplay) (happ ▸ hupdate) ?_
    intro op' hop'
    rcases mem_append.mp hop' with hop' | hop'
    · exact hcreate op' hop'
    · rw [mem_singleton.mp hop']
      exact fun hkind => hval.elim (fun h => h.of_create hkind) id
  | overtaken entry op' rest hgoal hpresent hop hremaining hfirst hrest hreplay hupdate =>
    -- The delete is put off as well, and the next operation creates the entry, which is there.
    cases hremaining
    obtain ⟨old, hold⟩ := ne_none_iff_exists'.mp hpresent
    refine .blocked old hold ⟨?_, .inr (hrest _)⟩
    rw [happ]
    exact (hfirst _).append _

/-- An operation is executed while a create is put off: it is a create itself, and the run fails unless a delete comes
    next. -/
theorem overtake {first : Operation} {entry : Entry} (hgoal : goal = some (some entry)) (hkind : first.kind = .create)
    (hreplay : replay existing (first :: deferred ++ op :: remaining) = some (some entry))
    (hupdate : ∀ op' ∈ (first :: deferred ++ op :: remaining).dropLast, op'.kind ≠ .update) (hval : op.Valid none) :
    Course goal op.outcome (first :: deferred) remaining := by
  have hop : op.kind = .create := hval.create_of_none
  have hpresent : op.outcome = some op.entry := by simp [Operation.outcome, hop]
  have hfirst : ∀ kind, FirstFails kind (first :: deferred) := fun kind => firstFails_of_create kind hkind
  obtain ⟨mid, hmid, hthen⟩ := replay_append_inv hreplay
  obtain ⟨hvalmid, hthen⟩ := valid_of_replay_cons hthen
  have hexisting : existing = none := (valid_of_replay_cons hreplay).1.of_create hkind
  rw [hvalmid.of_create hop, hexisting] at hmid
  cases remaining with
  | nil => exact .blocked op.entry hpresent ⟨(hfirst _).append _, .inl rfl⟩
  | cons next rest =>
    obtain ⟨hvalnext, hthen⟩ := valid_of_replay_cons hthen
    rw [hpresent] at hvalnext
    cases hnext : next.kind with
    | create => exact absurd (hvalnext.of_create hnext) (by simp)
    | update =>
      cases rest with
      | nil =>
        have hkeeps := hvalnext.keepsKind (by simp [hnext])
        exact .blocked op.entry hpresent ⟨(hfirst _).append _, .inl (by simp [hkeeps])⟩
      | cons last rest =>
        refine absurd hnext (hupdate next ?_)
        rw [dropLast_append_of_ne_nil (by simp)]
        exact mem_append_right _ (by simp)
    | delete =>
      rw [outcome_eq_none.mpr hnext] at hthen
      cases rest with
      | nil => cases hthen
      | cons last rest =>
        refine .overtaken entry next (last :: rest) hgoal (by simp [hpresent]) hnext rfl hfirst
          (fun kind => firstFails_of_create kind (kind_of_replay_none hthen)) ?_ ?_
        · rw [replay_append hmid]
          exact hthen
        · intro op' hop'
          refine hupdate op' ?_
          rw [dropLast_append_of_ne_nil (by simp)] at hop' ⊢
          refine (mem_append.mp hop').elim (mem_append_left _) fun h => mem_append_right _ ?_
          exact mem_dropLast_cons (mem_dropLast_cons h)

theorem execute (h : Course goal existing deferred (op :: remaining)) (hval : op.Valid existing) :
    Course goal op.outcome deferred remaining := by
  cases h with
  | absent hgoal hcount => exact .absent hgoal ((surplus_execute _ hval).trans hcount)
  | unbalanced hcount => exact .unbalanced (by rwa [surplus_execute _ hval])
  | stuck habsent hleft hcreate =>
    exact absurd habsent (hval.ne_none (hcreate op (by simp)))
  | blocked entry hpresent h =>
    subst hpresent
    obtain ⟨hout, -, hblocked⟩ := h.execute hval
    exact .blocked op.entry hout hblocked
  | inOrder entry hgoal hreplay hupdate hcreate =>
    cases deferred with
    | nil =>
      exact .inOrder entry hgoal (valid_of_replay_cons hreplay).2 (fun op' h => hupdate op' (mem_dropLast_cons h))
        (by simp)
    | cons first deferred =>
      -- The first operation put off is not the last one, so it is not an update.
      obtain ⟨hfirst, hthen⟩ := valid_of_replay_cons hreplay
      have hne : first.kind ≠ .update := by
        refine hupdate first ?_
        rw [dropLast_append_of_ne_nil (by simp)]
        exact mem_cons_self
      cases hkind : first.kind with
      | update => exact absurd hkind hne
      | create => exact overtake hgoal hkind hreplay hupdate (hfirst.of_create hkind ▸ hval)
      | delete =>
        -- What follows the delete is a create, which cannot be executed before it.
        rw [outcome_eq_none.mpr hkind] at hthen
        have hpresent : existing ≠ none := hfirst.ne_none (by simp [hkind])
        cases deferred with
        | nil => exact absurd (hval.of_create (kind_of_replay_none hthen)) hpresent
        | cons second deferred =>
          exact absurd (hcreate second (by simp) (kind_of_replay_none hthen)) hpresent
  | overtaken entry op' rest hgoal hpresent hop hremaining hfirst hrest hreplay hupdate =>
    cases hremaining
    have hnone : op.outcome = none := outcome_eq_none.mpr hop
    exact .inOrder entry hgoal (hnone ▸ hreplay) hupdate fun _ _ _ => hnone

end Course
end Wippy.Registry
