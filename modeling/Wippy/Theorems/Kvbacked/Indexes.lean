import Wippy.Theorems.Kvbacked.Steps

/-! The reverse indexes of the registry: a process that has registered a name again loses the new index keys to a
    `deleteBinding` whose read found no active record. -/

namespace Wippy.Kvbacked
open Lib List Option

variable {p q : PID} {n m base k : Bytes} {x : Entry} {v : Victim}

/-- An identifier that is parsed back from its string and has no braces inside: its string and the name after it can be
    told apart in an index key. -/
structure Plain (p : PID) : Prop where
  parses : ownerOf p.string = some p
  noBrace : ∀ b ∈ p.node ++ p.host ++ p.uniqID, b ≠ 123 ∧ b ≠ 125

instance (p : PID) : Decidable (Plain p) :=
  decidable_of_iff (ownerOf p.string = some p ∧
    (p.node ++ p.host ++ p.uniqID).all (fun b => b != 123 && b != 125) = true)
    ⟨fun h => ⟨h.1, fun b hb => by simpa using List.all_eq_true.mp h.2 b hb⟩,
      fun h => ⟨h.parses, List.all_eq_true.mpr fun b hb => by simpa using h.noBrace b hb⟩⟩

theorem Plain.inj (hp : Plain p) (hq : Plain q) (h : p.string = q.string) : p = q :=
  Option.some.inj (hp.parses.symm.trans (h ▸ hq.parses))

/-- The text of a process between its braces. -/
def PID.inner (p : PID) : Bytes := (if p.node = [] then [] else p.node ++ [64]) ++ p.host ++ [124] ++ p.uniqID

theorem string_eq (p : PID) : p.string = 123 :: (PID.inner p ++ [125]) := by
  simp [PID.string, PID.inner]

theorem Plain.notMem_inner (hp : Plain p) : 125 ∉ PID.inner p := by
  intro h
  simp only [PID.inner, mem_append] at h
  have brace : ∀ b ∈ p.node ++ p.host ++ p.uniqID, b ≠ 125 := fun b hb => (hp.noBrace b hb).2
  simp only [mem_append] at brace
  rcases h with ((h | h) | h) | h
  · split at h
    · cases h
    · rcases mem_append.mp h with h | h
      · exact brace _ (Or.inl (Or.inl h)) rfl
      · simp at h
  · exact brace _ (Or.inl (Or.inr h)) rfl
  · simp at h
  · exact brace _ (Or.inr h) rfl

section
variable (hp : Plain p) (hq : Plain q)
include hp hq

theorem Plain.cut (h : PID.inner p ++ 125 :: 58 :: n = PID.inner q ++ 125 :: 58 :: m) : p = q ∧ n = m := by
  obtain ⟨hinner, hrest⟩ := cut_inj hp.notMem_inner hq.notMem_inner h
  refine ⟨hp.inj hq ?_, tail_eq_of_cons_eq hrest⟩
  rw [string_eq, string_eq, hinner]

theorem pidIndexKey_inj (h : pidIndexKey p n = pidIndexKey q m) : p = q ∧ n = m := by
  simp only [pidIndexKey, pidIndexBase, string_eq, append_assoc, cons_append, nil_append,
    append_cancel_left_eq] at h
  exact hp.cut hq (tail_eq_of_cons_eq h)

theorem nodeIndexKey_inj (h : nodeIndexKey p n = nodeIndexKey q m) : p = q ∧ n = m := by
  have hnode : ∀ {r : PID}, Plain r → 123 ∉ r.node ++ [58] := by
    intro r hr hmem
    rcases mem_append.mp hmem with hmem | hmem
    · exact (hr.noBrace _ (mem_append_left _ (mem_append_left _ hmem))).1 rfl
    · simp at hmem
  have hsplit : p.node ++ [58] ++ 123 :: (PID.inner p ++ 125 :: 58 :: n) =
      q.node ++ [58] ++ 123 :: (PID.inner q ++ 125 :: 58 :: m) := by
    simpa [nodeIndexKey, nodeIndexBase, string_eq] using h
  obtain ⟨-, hrest⟩ := cut_inj (hnode hp) (hnode hq) hsplit
  exact hp.cut hq hrest

theorem Plain.index_ne (hne : n ≠ m) : pidIndexKey p n ≠ pidIndexKey q m ∧ nodeIndexKey p n ≠ nodeIndexKey q m :=
  ⟨fun heq => hne (pidIndexKey_inj hp hq heq).2, fun heq => hne (nodeIndexKey_inj hp hq heq).2⟩

end

namespace Cluster
variable {s t : Cluster} {e : Event} {ops : Txn} {name : Bytes} {p : PID}

/-- The process of the active record. -/
def ownerAt (s : Cluster) (name : Bytes) : Option PID := do
  let x ← s.store.get (activeKey name)
  let av ← decodeActive x.value
  ownerOf av.pid

/-- The victim whose binding a step deletes without a guard: the snapshot it reads shows another owner or none. -/
def unguarded (s : Cluster) : Event → Option Victim
  | .deleteBinding i j => (s.victims[i]?).filter fun v =>
      (ownedVersion v.p ((s.snapshot j).get (activeKey v.name))).isNone
  | _ => none

/-- A removal does not delete the index keys of an active binding: what it deletes unguarded is not the binding of the
    process any more. -/
def Guarded (s : Cluster) (e : Event) : Prop := ∀ v ∈ s.unguarded e, s.ownerAt v.name ≠ some v.p

instance (s : Cluster) (e : Event) : Decidable (s.Guarded e) :=
  inferInstanceAs (Decidable (∀ v ∈ s.unguarded e, s.ownerAt v.name ≠ some v.p))

/-- The binding is in the index of its process and in that of its node. -/
structure IndexedAt (s : Cluster) (name : Bytes) (p : PID) : Prop where
  pid : ∃ x, s.store.get (pidIndexKey p name) = some x ∧ x.value = .index { pid := p.string, name }
  node : ∃ x, s.store.get (nodeIndexKey p name) = some x ∧ x.value = .index { pid := p.string, name }

/-- The record's process survives its text. -/
def PlainRecord : Record → Prop
  | .active v => ∃ p, Plain p ∧ v.pid = p.string
  | .index v => ∃ p, Plain p ∧ v.pid = p.string
  | .pending h => ∃ p, Plain p ∧ h.pid = p.string
  | .vote _ | .result _ => True

/-- The invariant: every binding is indexed. -/
structure Indexes (s : Cluster) : Prop where
  plain : ∀ k x, s.Seen k x → PlainRecord x.value
  current : s.store ∈ s.published
  victims : ∀ v ∈ s.victims, Plain v.p
  indexed : ∀ name p, s.ownerAt name = some p → s.IndexedAt name p

/-! ### What a transaction does to a binding -/

theorem ownerAt_eq {v : ActiveValue} (h : s.store.get (activeKey name) = some x) (hv : x.value = .active v)
    (hp : s.ownerAt name = some p) : ownerOf v.pid = some p := by
  obtain ⟨x', hx', hp⟩ := bind_eq_some_iff.mp hp
  rw [h] at hx'
  cases hx'
  obtain ⟨av, hav, hp⟩ := bind_eq_some_iff.mp hp
  rw [decodeActive_eq hav] at hv
  cases hv
  exact hp

theorem ownerAt_congr (h : t.store.get (activeKey name) = s.store.get (activeKey name)) :
    t.ownerAt name = s.ownerAt name := by
  unfold ownerAt
  rw [h]

theorem ownerAt_none (h : s.store.get (activeKey name) = none) : s.ownerAt name = none := by
  unfold ownerAt
  rw [h]
  rfl

theorem plain_of_owner {str : Bytes} (h : ∃ p, Plain p ∧ str = p.string) (hq : ownerOf str = some q) :
    Plain q ∧ str = q.string := by
  obtain ⟨p, hp, rfl⟩ := h
  rw [hp.parses] at hq
  cases hq
  exact ⟨hp, rfl⟩

theorem Indexes.plain_owner (hs : Indexes s) (hp : s.ownerAt name = some p) : Plain p := by
  obtain ⟨x, hx, hrest⟩ := bind_eq_some_iff.mp hp
  obtain ⟨av, hav, howner⟩ := bind_eq_some_iff.mp hrest
  have hplain := hs.plain _ x ⟨s.store, hs.current, hx⟩
  rw [decodeActive_eq hav] at hplain
  exact (plain_of_owner hplain howner).1

namespace Committed
variable (h : Committed s t ops)
include h

theorem indexed_kept (hp : TxnOp.lastWrite (pidIndexKey p name) ops = none)
    (hn : TxnOp.lastWrite (nodeIndexKey p name) ops = none) (hi : s.IndexedAt name p) : t.IndexedAt name p :=
  ⟨h.kept hp ▸ hi.pid, h.kept hn ▸ hi.node⟩

theorem indexed_quiet (hs : Indexes s) (hquiet : ∀ n p, TxnOp.lastWrite (activeKey n) ops = none ∧
      TxnOp.lastWrite (pidIndexKey p n) ops = none ∧ TxnOp.lastWrite (nodeIndexKey p n) ops = none) :
    ∀ n p, t.ownerAt n = some p → t.IndexedAt n p := by
  intro n p hp
  obtain ⟨hact, hpid, hnode⟩ := hquiet n p
  rw [ownerAt_congr (h.kept hact)] at hp
  exact h.indexed_kept hpid hnode (hs.indexed n p hp)

/-- A transaction on the binding of one name. The index keys of other bindings are other keys, as their processes are
    plain. -/
theorem indexed_except (hs : Indexes s) (name : Bytes) (hact : ∀ n, name ≠ n → TxnOp.lastWrite (activeKey n) ops = none)
    (hother : ∀ n p, name ≠ n → Plain p →
      TxnOp.lastWrite (pidIndexKey p n) ops = none ∧ TxnOp.lastWrite (nodeIndexKey p n) ops = none)
    (hat : ∀ p, t.ownerAt name = some p → t.IndexedAt name p) : ∀ n p, t.ownerAt n = some p → t.IndexedAt n p := by
  intro n p hp
  by_cases hn : name = n
  · subst hn
    exact hat p hp
  · rw [ownerAt_congr (h.kept (hact n hn))] at hp
    obtain ⟨h₁, h₂⟩ := hother n p hn (hs.plain_owner hp)
    exact h.indexed_kept h₁ h₂ (hs.indexed n p hp)

theorem indexed_at (hq : Plain q)
    (hat : ∃ v, TxnOp.lastWrite (activeKey name) ops = some (some (.active v)) ∧ v.pid = q.string)
    (hpid : TxnOp.lastWrite (pidIndexKey q name) ops = some (some (.index { pid := q.string, name })))
    (hnode : TxnOp.lastWrite (nodeIndexKey q name) ops = some (some (.index { pid := q.string, name }))) (p : PID)
    (hp : t.ownerAt name = some p) : t.IndexedAt name p := by
  obtain ⟨v, hat, hv⟩ := hat
  obtain ⟨x, hx, hxv⟩ := h.wrote hat
  have howner := ownerAt_eq hx hxv hp
  rw [hv, hq.parses] at howner
  cases howner
  exact ⟨h.wrote hpid, h.wrote hnode⟩

theorem indexed_gone (hgone : TxnOp.lastWrite (activeKey name) ops = some none) (p : PID)
    (hp : t.ownerAt name = some p) : t.IndexedAt name p := by
  rw [ownerAt_none (h.gone hgone)] at hp
  cases hp

end Committed

section Step
variable (hs : Indexes s) (hreg : ∀ q, registrant e = some q → Plain q)
include hs

theorem Indexes.plain_active {av : ActiveValue} (h : s.Seen (activeKey name) x) (hv : x.value = .active av)
    (hq : ownerOf av.pid = some q) : Plain q := by
  have hplain := hs.plain _ x h
  rw [hv] at hplain
  exact (plain_of_owner hplain hq).1

theorem Indexes.plain_pending {pe : Entry} {hdr : PendingHeader} (h : s.SeenPending name pe hdr) :
    ∃ q, Plain q ∧ hdr.pid = q.string := by
  have hplain := hs.plain _ pe h.1
  rw [h.2] at hplain
  exact hplain

include hreg

theorem Submits.plain (hsub : Submits s e ops) {r : Record} (hmem : (k, r) ∈ TxnOp.puts ops) : PlainRecord r := by
  cases hsub with
  | publish _ hp =>
    simp only [register, TxnOp.puts_check, TxnOp.puts_put, TxnOp.puts_nil, mem_singleton] at hmem
    cases hmem
    exact ⟨_, hreg _ hp, rfl⟩
  | stamp hseen _ =>
    cases mem_singleton.mp hmem
    obtain ⟨q, hq, hpid⟩ := hs.plain_pending hseen
    exact ⟨q, hq, hpid⟩
  | vote _ _ =>
    cases mem_singleton.mp hmem
    trivial
  | promote hseen _ hp =>
    obtain ⟨q, hq, hpid⟩ := hs.plain_pending hseen
    simp only [puts_promoteOps, mem_cons, not_mem_nil, or_false, Prod.mk.injEq] at hmem
    rcases hmem with ⟨-, rfl⟩ | ⟨-, rfl⟩ | ⟨-, rfl⟩ <;> exact ⟨q, hq, hpid⟩
  | expire _ =>
    rw [puts_expireOps] at hmem
    cases mem_singleton.mp hmem
    trivial
  | bind hp =>
    simp only [registerConsistent, TxnOp.puts_check, TxnOp.puts_put, TxnOp.puts_nil, mem_cons, not_mem_nil,
      or_false, Prod.mk.injEq] at hmem
    rcases hmem with ⟨-, rfl⟩ | ⟨-, rfl⟩ | ⟨-, rfl⟩ <;> exact ⟨_, hreg _ hp, rfl⟩
  | swap hp _ _ _ =>
    simp only [swapOwner, TxnOp.puts_check, TxnOp.puts_delete, TxnOp.puts_put, TxnOp.puts_nil, mem_cons,
      not_mem_nil, or_false, Prod.mk.injEq] at hmem
    rcases hmem with ⟨-, rfl⟩ | ⟨-, rfl⟩ | ⟨-, rfl⟩ <;> exact ⟨_, hreg _ hp, rfl⟩
  | unbind _ _ _ => simp at hmem
  | delete _ _ =>
    unfold deleteBinding at hmem
    split at hmem <;> simp at hmem

theorem Committed.indexed (hg : s.Guarded e) (hsub : Submits s e ops) (h : Committed s t ops) :
    ∀ n p, t.ownerAt n = some p → t.IndexedAt n p := by
  cases hsub with
  | publish _ _ => exact h.indexed_quiet hs fun n p => by simp [register, key_ne]
  | stamp _ _ => exact h.indexed_quiet hs fun n p => by simp [key_ne]
  | vote _ _ => exact h.indexed_quiet hs fun n p => by simp [writeVote, key_ne]
  | @expire name pe hdr read epoch reason _ =>
    have hgroups := expire_groups name hdr read reason
    exact h.indexed_quiet hs fun n p => by simp [expireOps, hgroups.other, key_ne]
  | @promote name pe hdr q hseen _ hq =>
    have hgroups := promote_groups name hdr
    obtain ⟨hplain, hpid⟩ := plain_of_owner (hs.plain_pending hseen) hq
    exact h.indexed_except hs name (fun n hn => by simp [promoteOps, hgroups.other, key_ne, hn])
      (fun n r hn hr => by simp [promoteOps, hgroups.other, key_ne, hplain.index_ne hr hn])
      (h.indexed_at hplain ⟨_, by simp [promoteOps, hgroups.other, key_ne]; rfl, hpid⟩
        (by simp [promoteOps, hgroups.other, key_ne, hpid]) (by simp [promoteOps, hgroups.other, key_ne, hpid]))
  | @bind name q hq =>
    have hplain := hreg q hq
    exact h.indexed_except hs name (fun n hn => by simp [registerConsistent, key_ne, hn])
      (fun n r hn hr => by simp [registerConsistent, key_ne, hplain.index_ne hr hn])
      (h.indexed_at hplain ⟨_, by simp [registerConsistent, key_ne]; rfl, rfl⟩ (by simp [registerConsistent, key_ne])
        (by simp [registerConsistent, key_ne]))
  | @swap name x av old q hq hseen hv hold =>
    have hplain := hreg q hq
    have hpold := hs.plain_active hseen hv hold
    exact h.indexed_except hs name (fun n hn => by simp [swapOwner, key_ne, hn])
      (fun n r hn hr => by simp [swapOwner, key_ne, hplain.index_ne hr hn, hpold.index_ne hr hn])
      (h.indexed_at hplain ⟨_, by simp [swapOwner, key_ne]; rfl, rfl⟩ (by simp [swapOwner, key_ne])
        (by simp [swapOwner, key_ne]))
  | @unbind name x av owner hseen hv hown =>
    exact h.indexed_except hs name (fun n hn => by simp [key_ne, hn])
      (fun n r hn hr => by simp [key_ne, (hs.plain_active hseen hv hown).index_ne hr hn])
      (h.indexed_gone (by simp [key_ne]))
  | @delete i j v he hv =>
    have hplain := hs.victims v (mem_of_getElem? hv)
    unfold deleteBinding at h
    split at h
    · exact h.indexed_except hs v.name (fun n hn => by simp [key_ne, hn])
        (fun n r hn hr => by simp [key_ne, hplain.index_ne hr hn]) (h.indexed_gone (by simp))
    next hunguarded =>
      intro n p hp
      rw [ownerAt_congr (h.kept (by simp [key_ne]))] at hp
      -- without the version guard the binding is not the active one
      have hne : ¬ (v.p = p ∧ v.name = n) := by
        rintro ⟨rfl, rfl⟩
        subst he
        exact hg v (filter_eq_some_iff.mpr ⟨hv, by rw [hunguarded]; rfl⟩) hp
      have h₁ : ¬ pidIndexKey v.p v.name = pidIndexKey p n :=
        fun heq => hne (pidIndexKey_inj hplain (hs.plain_owner hp) heq)
      have h₂ : ¬ nodeIndexKey v.p v.name = nodeIndexKey p n :=
        fun heq => hne (nodeIndexKey_inj hplain (hs.plain_owner hp) heq)
      exact h.indexed_kept (by simp [key_ne, h₁]) (by simp [key_ne, h₂]) (hs.indexed n p hp)

end Step

theorem mem_reap {a : Store} :
    v ∈ reap a base ↔ ∃ k x, a.get k = some x ∧ base.isPrefixOf k = true ∧ victimOf x.value = some v := by
  unfold reap
  rw [mem_filterMap]
  constructor
  · rintro ⟨⟨k, x⟩, hx, h⟩
    obtain ⟨hb, h⟩ := ite_none_right_eq_some.mp h
    exact ⟨k, x, Map.mem_entries.mp hx, hb, h⟩
  · rintro ⟨k, x, hx, hb, h⟩
    exact ⟨⟨k, x⟩, Map.mem_entries.mpr hx, ite_none_right_eq_some.mpr ⟨hb, h⟩⟩

theorem Indexes.plain_reap (hs : Indexes s) {i : Nat} (hv : v ∈ reap (s.snapshot i) base) : Plain v.p := by
  obtain ⟨k, x, hx, -, hvic⟩ := mem_reap.mp hv
  have hplain := hs.plain k x (seen_of_get hx)
  obtain ⟨iv, hiv, hvic⟩ := bind_eq_some_iff.mp hvic
  obtain ⟨q, hq, hvic⟩ := bind_eq_some_iff.mp hvic
  cases hvic
  cases hr : x.value with
  | index w =>
    rw [hr] at hiv hplain
    cases hiv
    exact (plain_of_owner hplain hq).1
  | active w | pending w | vote n | result r =>
    rw [hr] at hiv
    cases hiv

theorem IndexedAt.found (h : s.IndexedAt name p) (hp : Plain p) :
    ⟨p, name⟩ ∈ remove s.store p ∧ ⟨p, name⟩ ∈ removeNode s.store p.node := by
  have hvic : victimOf (.index { pid := p.string, name }) = some ⟨p, name⟩ := by simp [victimOf, decodeIndex, hp.parses]
  obtain ⟨⟨x, hx, hxv⟩, ⟨y, hy, hyv⟩⟩ := h
  refine ⟨mem_reap.mpr ⟨_, x, hx, ?_, hxv ▸ hvic⟩, mem_reap.mpr ⟨_, y, hy, ?_, hyv ▸ hvic⟩⟩
  · exact isPrefixOf_iff_prefix.mpr (prefix_append _ _)
  · rw [nodeIndexKey, append_assoc, append_assoc]
    exact isPrefixOf_iff_prefix.mpr (prefix_append _ _)

theorem indexes_empty : Indexes {} where
  plain k x h := by
    obtain ⟨a, ha, hx⟩ := h
    rw [mem_singleton.mp ha] at hx
    cases hx
  current := mem_singleton_self _
  victims v h := by cases h
  indexed n p h := by cases h

theorem seen_handle (h : (s.handle e).Seen k x) :
    s.Seen k x ∨ s.store.get k = some x ∨ ∃ ops, Submits s e ops ∧ (k, x.value) ∈ TxnOp.puts ops := by
  obtain ⟨a, ha, hx⟩ := h
  unfold handle at ha
  cases hsub : s.submitted e with
  | none =>
    rw [hsub] at ha
    exact Or.inl ⟨a, ha, hx⟩
  | some ops =>
    rw [hsub] at ha
    rcases mem_append.mp ha with ha | ha
    · exact Or.inl ⟨a, ha, hx⟩
    rw [mem_singleton.mp ha] at hx
    rcases TxnStore.get_txn_cases hx with hx | ⟨hput, -⟩
    · exact Or.inr (Or.inl hx)
    · exact Or.inr (Or.inr ⟨ops, submits hsub, hput⟩)

theorem current_handle (h : s.store ∈ s.published) : (s.handle e).store ∈ (s.handle e).published := by
  unfold handle
  cases s.submitted e with
  | none => exact h
  | some ops => exact mem_append_right _ (mem_singleton_self _)

theorem Indexes.handle (hs : Indexes s) (hreg : ∀ q, registrant e = some q → Plain q) (hg : s.Guarded e) :
    Indexes (s.handle e) where
  plain k x h := by
    rcases seen_handle h with h | h | ⟨ops, hsub, hput⟩
    · exact hs.plain k x h
    · exact hs.plain k x ⟨s.store, hs.current, h⟩
    · exact hsub.plain hs hreg hput
  current := current_handle hs.current
  victims v hv := by
    cases e with
    | remove q snap => exact (mem_append.mp hv).elim (hs.victims v) hs.plain_reap
    | removeNode node snap => exact (mem_append.mp hv).elim (hs.victims v) hs.plain_reap
    | deleteBinding i j => exact hs.victims v (mem_of_mem_eraseIdx hv)
    | register | assignObservers | attest | leaderDrive | promoteConflict | unreserve | registerConsistent
    | resolveConflict | unregisterScope => exact hs.victims v hv
  indexed := by
    rcases handle_cases s e with ⟨hget, -⟩ | ⟨ops, hsub, hc⟩
    · intro n p hp
      rw [ownerAt_congr (hget _)] at hp
      have hi := hs.indexed n p hp
      exact ⟨hget _ ▸ hi.pid, hget _ ▸ hi.node⟩
    · exact Committed.indexed hs hreg hg hsub hc

theorem guarded_of_kept
    (h : ∀ n p, (s.handle e).ownerAt n = some p → ((s.handle e).store.get (pidIndexKey p n)).isSome) :
    s.Guarded e := by
  cases e with
  | deleteBinding i j =>
    intro v hv howner
    obtain ⟨hv, hnone⟩ := filter_eq_some_iff.mp hv
    have hunguarded := isNone_iff_eq_none.mp hnone
    have hsub : s.submitted (.deleteBinding i j) =
        some [.delete .any (pidIndexKey v.p v.name), .delete .any (nodeIndexKey v.p v.name)] := by
      simp [submitted, hv, deleteBinding, hunguarded]
    have hok : (s.store.txn [.delete .any (pidIndexKey v.p v.name), .delete .any (nodeIndexKey v.p v.name)]).2 =
      true := by
      refine TxnStore.txn_committed.mpr fun op hop => ?_
      simp only [mem_cons, not_mem_nil, or_false] at hop
      rcases hop with rfl | rfl <;> rfl
    have hstore : (s.handle (.deleteBinding i j)).store = (s.store.txn
        [.delete .any (pidIndexKey v.p v.name), .delete .any (nodeIndexKey v.p v.name)]).1 := by
      unfold handle
      rw [hsub]
      rfl
    have hsame : (s.handle (.deleteBinding i j)).ownerAt v.name = some v.p := by
      rw [ownerAt_congr (s := s), howner]
      rw [hstore, TxnStore.get_txn_kept hok (by simp [key_ne])]
    have hgone : (s.handle (.deleteBinding i j)).store.get (pidIndexKey v.p v.name) = none := by
      rw [hstore, TxnStore.get_txn_gone hok (by simp [key_ne])]
    have hsome := h v.name v.p hsame
    rw [hgone] at hsome
    cases hsome
  | register | assignObservers | attest | leaderDrive | promoteConflict | unreserve | registerConsistent
  | resolveConflict | unregisterScope | remove | removeNode =>
    intro v hv
    cases hv

/-- The index keys of every active binding exist, and the removals of its process and of its node find it. -/
def BindingsIndexed (s : Cluster) : Prop :=
  ∀ name p, s.ownerAt name = some p →
    (s.store.get (pidIndexKey p name)).isSome ∧ (s.store.get (nodeIndexKey p name)).isSome ∧
      ⟨p, name⟩ ∈ remove s.store p ∧ ⟨p, name⟩ ∈ removeNode s.store p.node

theorem Indexes.bindingsIndexed (hs : Indexes s) : s.BindingsIndexed := by
  intro name p hp
  have hi := hs.indexed name p hp
  obtain ⟨x, hx, -⟩ := hi.pid
  obtain ⟨y, hy, -⟩ := hi.node
  obtain ⟨hrem, hnode⟩ := hi.found (hs.plain_owner hp)
  exact ⟨by rw [hx]; rfl, by rw [hy]; rfl, hrem, hnode⟩

/-- In runs that register plain processes, bindings keep their index keys in every state exactly if every removal is
    guarded. -/
theorem bindings_indexed_iff (es : List Event) (hreg : ∀ e ∈ es, ∀ q, registrant e = some q → Plain q) :
    Along handle Guarded {} es ↔ ∀ pre, pre <+: es → (run {} pre).BindingsIndexed :=
  along_iff_prefixes_of (fun e => ∀ q, registrant e = some q → Plain q) (fun _ hs => hs.bindingsIndexed)
    (fun _ _ he hs hg => hs.handle he hg)
      (fun _ _ _ _ hq => guarded_of_kept fun n p hp => (hq n p hp).1) indexes_empty es hreg

/-- A process. -/
def processOne : PID := { node := [110], host := [104], uniqID := [49] }

/-- It registers the names `a` and `b`, a removal of it has scanned before `b` was registered, `a` is unregistered, and
    the removal deletes what it found. -/
def removedRun : List Event :=
  [.registerConsistent [97] processOne, .registerConsistent [98] processOne, .remove processOne 1,
    .unregisterScope [97] 2, .deleteBinding 0 3]

theorem removedRun_indexed :
    (run {} removedRun).ownerAt [98] = some processOne ∧ (run {} removedRun).BindingsIndexed := by
  refine ⟨by decide +kernel, (bindings_indexed_iff removedRun fun e he q hq => ?_).mp (by decide +kernel) removedRun
    prefix_rfl⟩
  simp only [removedRun, mem_cons, not_mem_nil, or_false] at he
  rcases he with rfl | rfl | rfl | rfl | rfl <;> cases hq <;> decide

/-- It registers the name `a`, a removal of it scans, the name is unregistered, and it registers the name again
    before the removal deletes what it found. -/
def strandedRun : List Event :=
  [.registerConsistent [97] processOne, .remove processOne 1, .unregisterScope [97] 1,
    .registerConsistent [97] processOne, .deleteBinding 0 2]

theorem stranded_binding : ¬ ∀ es, Along handle Fresh {} es → (∀ e ∈ es, ∀ q, registrant e = some q → Plain q) →
    ∀ name p, (run {} es).ownerAt name = some p →
      ((run {} es).store.get (pidIndexKey p name)).isSome ∧ ((run {} es).store.get (nodeIndexKey p name)).isSome := by
  intro h
  have hplain : ∀ e ∈ strandedRun, ∀ q, registrant e = some q → Plain q := by
    intro e he q hq
    simp only [strandedRun, mem_cons, not_mem_nil, or_false] at he
    rcases he with rfl | rfl | rfl | rfl | rfl <;> cases hq <;> decide
  have hkeys := h strandedRun (by decide +kernel) hplain [97] processOne (by decide +kernel)
  revert hkeys
  decide +kernel

end Cluster
end Wippy.Kvbacked
