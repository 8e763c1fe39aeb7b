import Wippy.Kv.Leases
import Wippy.Lib.Reach
import Wippy.Theorems.Kv.Raft.Ownership

/-! When a sweep revokes a lease too early: it goes by the deadlines of its own engine, which only the engine's own
    calls move. -/

namespace Wippy.Kv.Raft
open Lib List Option Function Map

variable {id : LeaseID} {renewing' : LeaseID → Prop} {node : Bytes} {leases : Map LeaseID Int64} {c : Command}
  {x : Int64} {e : LeaseEngine}

/-- The lease whose expiry a command sets, and the expiry. -/
def Command.expiry? (c : Command) : Option (LeaseID × Int64) :=
  match c.op with
  | .opLeaseGrant | .opLeaseRenew => some (c.leaseID, c.expiresAtMs)
  | _ => none

namespace Table
variable (t : Table)

/-- The expiry of a lease in the table. -/
def expiry (id : LeaseID) : Option Int64 := (t.leases id).map Lease.expiresAtMs

@[simp] theorem expiry_set (index : UInt64) (key value : Bytes) (leaseID id : LeaseID) :
    (t.set index key value leaseID).expiry id = t.expiry id := by
  simp only [expiry, set, rebind, Option.map_map]
  rfl

@[simp] theorem expiry_remove (ks : Set Bytes) (id : LeaseID) : (t.remove ks).expiry id = t.expiry id := by
  simp only [expiry, remove, rebind, Option.map_map]
  rfl

theorem expiry_forgetLease (leaseID : LeaseID) (h : (t.forgetLease leaseID).expiry id = some x) :
    t.expiry id = some x := by
  simp only [expiry, forgetLease, update_apply] at h ⊢
  split at h
  · cases h
  · exact h

theorem expiry_applyCommand {index : UInt64} (h : (t.applyCommand index c).1.expiry id = some x) :
    t.expiry id = some x ∨ c.expiry? = some (id, x) := by
  rcases t.applyCommand_cases index c with ⟨hop, heq⟩ | ⟨hop, heq⟩ | ⟨-, -, heffect⟩
  · simp only [heq, expiry, addLease, update_apply] at h
    split at h
    next hid => exact .inr (by simpa [Command.expiry?, hop, hid] using h)
    next => exact .inl h
  · rw [heq, removeLease] at h
    refine .inl (t.expiry_forgetLease c.leaseID ?_)
    split at h <;> exact ((t.forgetLease c.leaseID).expiry_remove _ id).symm.trans h
  · generalize (t.applyCommand index c).1 = t' at h heffect
    cases heffect with
    | same => exact .inl h
    | set leaseID => exact .inl ((t.expiry_set _ _ _ leaseID id).symm.trans h)
    | remove ks => exact .inl ((t.expiry_remove ks id).symm.trans h)
    | renew hop =>
      simp only [expiry, renewLease, update_apply] at h
      split at h
      next hid =>
        obtain ⟨ls, hls, hx⟩ := map_eq_some_iff.mp h
        obtain ⟨ls', -, rfl⟩ := map_eq_some_iff.mp hls
        simp [Command.expiry?, hop, hid, ← hx]
      next => exact .inl h

end Table

/-- The sweeper is not on its way to the lease. -/
def Sweeper.Spares (w : Sweeper) (id : LeaseID) : Prop :=
  match w with
  | .idle => True
  | .rearming _ | .rearmed => False
  | .sweeping ids | .revoking _ ids => id ∉ ids

theorem not_mem_iff_forall_ne {ids : List LeaseID} : (∀ x ∈ ids, x ≠ id) ↔ id ∉ ids :=
  ⟨fun h hid => h id hid rfl, fun h _ hx heq => h (heq ▸ hx)⟩

instance (w : Sweeper) (id : LeaseID) : Decidable (w.Spares id) :=
  match w with
  | .idle => .isTrue trivial
  | .rearming _ | .rearmed => .isFalse not_false
  | .sweeping _ | .revoking _ _ => decidable_of_iff _ not_mem_iff_forall_ne

namespace LeaseEngine

theorem expiresAtMs_eq (e : LeaseEngine) (id : LeaseID) : e.expiresAtMs id = e.fsm.table.expiry id := by
  unfold expiresAtMs RaftFSM.leaseSnapshot Table.expiry
  rw [lookup_mapVal, RaftFSM.table_leases, Option.map_map]
  rfl

theorem expiresAtMs_apply {order : List Bytes} (h : (e.apply c order).expiresAtMs id = some x) :
    e.expiresAtMs id = some x ∨ c.expiry? = some (id, x) := by
  rw [expiresAtMs_eq] at h ⊢
  simp only [apply, (RaftFSM.applyCommand_table _ c order).1] at h
  exact e.fsm.table.expiry_applyCommand h

/-- No deadline is before the expiry that the state machine has. -/
def Timely (e : LeaseEngine) : Prop :=
  ∀ id d x, e.deadlines.lookup id = some d → e.expiresAtMs id = some x → instantOfMilli x ≤ d

/-- What the sweeper has read is still so. -/
def Sweeping (now : Int) (e : LeaseEngine) : Prop :=
  match e.sweeper with
  | .idle => True
  | .rearming leases => e.Timely ∧ ∀ id x y, leases.lookup id = some x → e.expiresAtMs id = some y → y = x
  | .rearmed => e.Timely
  | .sweeping ids | .revoking _ ids => ∀ id ∈ ids, ∀ x, e.expiresAtMs id = some x → instantOfMilli x ≤ now

/-- A sweep relies on the expiries of the leases that it does not spare, and while it spares none on the table. -/
theorem Sweeping.of {now now' : Int} {e e' : LeaseEngine} (h : e.Sweeping now) (hsweeper : e'.sweeper = e.sweeper)
    (hnow : now ≤ now') (htimely : (∀ id, ¬ e.sweeper.Spares id) → e.Timely → e'.Timely)
    (hkept : ∀ id x, ¬ e.sweeper.Spares id → e'.expiresAtMs id = some x → e.expiresAtMs id = some x) :
    e'.Sweeping now' := by
  unfold Sweeping at h ⊢
  rw [hsweeper]
  generalize e.sweeper = w at h htimely hkept
  cases w with
  | idle => trivial
  | rearming leases =>
    exact ⟨htimely (fun _ => not_false) h.1, fun id x y hx hy => h.2 id x y hx (hkept id y not_false hy)⟩
  | rearmed => exact htimely (fun _ => not_false) h
  | sweeping ids => exact fun id hid x hx => (h id hid x (hkept id x (not_not.mpr hid) hx)).trans hnow
  | revoking _ ids => exact fun id hid x hx => (h id hid x (hkept id x (not_not.mpr hid) hx)).trans hnow

/-- The table is timely except for leases that a call of this engine is about to track. -/
structure Sound (renewing : LeaseID → Prop) (now : Int) (e : LeaseEngine) : Prop where
  timely : ∀ id d x, e.deadlines.lookup id = some d → e.expiresAtMs id = some x → instantOfMilli x ≤ d ∨ renewing id
  sweeping : e.Sweeping now

namespace Sound
variable {renewing : LeaseID → Prop} {now : Int} {e : LeaseEngine}

section
variable (h : e.Sound renewing now)
include h

theorem mono {now' : Int} (hren : ∀ id, renewing id → renewing' id) (hnow : now ≤ now') : e.Sound renewing' now' where
  timely id d x hd hx := (h.timely id d x hd hx).imp_right (hren id)
  sweeping := h.sweeping.of rfl hnow (fun _ ht => ht) fun _ _ _ hx => hx

theorem trackLease {d : Int} (hren : ∀ id', id' ≠ id → renewing id' → renewing' id')
    (hd : ∀ x, e.expiresAtMs id = some x → instantOfMilli x ≤ d) (handles : List (LeaseID × Int64)) :
    { e.trackLease id d with handles }.Sound renewing' now := by
  have hlookup : ∀ id' d', (e.trackLease id d).deadlines.lookup id' = some d' →
      (id' = id ∧ d' = d) ∨ (id' ≠ id ∧ e.deadlines.lookup id' = some d') := by
    intro id' d' hl
    exact lookup_insert_some hl
  refine ⟨fun id' d' x hl hx => ?_, h.sweeping.of rfl (Int.le_refl _) (fun _ ht id' d' x hl hx => ?_)
    fun _ _ _ hx => hx⟩
  · rcases hlookup id' d' hl with ⟨rfl, rfl⟩ | ⟨hne, hl⟩
    · exact .inl (hd x hx)
    · exact (h.timely id' d' x hl hx).imp_right (hren id' hne)
  · rcases hlookup id' d' hl with ⟨rfl, rfl⟩ | ⟨-, hl⟩
    · exact hd x hx
    · exact ht id' d' x hl hx

theorem forgetLease (id : LeaseID) : (e.forgetLease id).Sound renewing now := by
  have hlookup : ∀ id' d', (e.forgetLease id).deadlines.lookup id' = some d' → e.deadlines.lookup id' = some d' := by
    intro id' d' hl
    exact (lookup_erase_some.mp hl).1
  exact ⟨fun id' d' x hl hx => h.timely id' d' x (hlookup id' d' hl) hx,
    h.sweeping.of rfl (Int.le_refl _) (fun _ ht id' d' x hl hx => ht id' d' x (hlookup id' d' hl) hx)
      fun _ _ _ hx => hx⟩

theorem nextExpired : e.nextExpired.Sound renewing now := by
  have hs := h.sweeping
  unfold LeaseEngine.nextExpired
  split
  next heq =>
    refine ⟨h.timely, ?_⟩
    simp only [Sweeping, heq] at hs ⊢
    exact hs
  · exact h

/-- If the command sets an expiry, the sweeper is not on its way to that lease, and the table has no earlier deadline
    unless the engine is about to track it. -/
theorem apply (order : List Bytes) (hc : ∀ id x, c.expiry? = some (id, x) → e.sweeper.Spares id ∧
      ((∀ d, e.deadlines.lookup id = some d → instantOfMilli x ≤ d) ∨ renewing id)) :
    (e.apply c order).Sound renewing now := by
  refine ⟨fun id d x hd hx => ?_, ?_⟩
  · rcases expiresAtMs_apply hx with hx | hx
    · exact h.timely id d x hd hx
    · exact (hc id x hx).2.imp_left fun hle => hle d hd
  · -- an expiry that the command sets is not one that the sweep relies on
    have hkept : ∀ id x, ¬ e.sweeper.Spares id → (e.apply c order).expiresAtMs id = some x →
        e.expiresAtMs id = some x := by
      intro id x hspares hx
      rcases expiresAtMs_apply hx with hx | hx
      · exact hx
      · exact absurd (hc id x hx).1 hspares
    exact h.sweeping.of rfl (Int.le_refl _)
      (fun hnone ht id d x hd hx => ht id d x hd (hkept id x (hnone id) hx)) hkept

theorem tick (hren : ∀ id, ¬ renewing id) :
    { e with sweeper := .rearming e.fsm.leaseSnapshot }.Sound renewing now where
  timely := h.timely
  sweeping := by
    refine ⟨fun id d x hd hx => (h.timely id d x hd hx).resolve_right (hren id), fun id x y hx hy => ?_⟩
    exact Option.some.inj (hy.symm.trans hx)

end

/-- What `rearmFromState` leaves in the table: what was there, and replicated expiries. -/
theorem lookup_rearm {d : Int} (hl : (e.rearm leases).deadlines.lookup id = some d) :
    e.deadlines.lookup id = some d ∨ ∃ x, leases.lookup id = some x ∧ d = instantOfMilli x := by
  refine List.foldlRecOn (motive := fun m : Map LeaseID Int => ∀ id d, m.lookup id = some d →
    e.deadlines.lookup id = some d ∨ ∃ x, leases.lookup id = some x ∧ d = instantOfMilli x) leases.entries _
    (fun id d hl => .inl hl) (fun m hm y hy id d hl => ?_) id d hl
  split at hl
  · exact hm id d hl
  · rcases lookup_insert_some hl with ⟨rfl, rfl⟩ | ⟨-, hl⟩
    · exact .inr ⟨y.2, mem_entries.mp hy, rfl⟩
    · exact hm id d hl

section
variable (h : e.Sound renewing now)
include h

theorem rearm (hw : e.sweeper = .rearming leases) :
    { e.rearm leases with sweeper := .rearmed }.Sound renewing now := by
  have hs := h.sweeping
  simp only [Sweeping, hw] at hs
  have htimely : ({ e.rearm leases with sweeper := .rearmed }).Timely := by
    intro id d x hd hx
    rcases lookup_rearm hd with hd | ⟨y, hy, rfl⟩
    · exact hs.1 id d x hd hx
    · rw [hs.2 id y x hy hx]
  exact ⟨fun id d x hd hx => .inl (htimely id d x hd hx), htimely⟩

theorem collect (hw : e.sweeper = .rearmed) (order : List LeaseID) :
    { e with sweeper := .sweeping (e.expired now order) }.Sound renewing now where
  timely := h.timely
  sweeping := by
    have hs := h.sweeping
    simp only [Sweeping, hw] at hs
    intro id hid x hx
    obtain ⟨-, hany⟩ := mem_filter.mp hid
    obtain ⟨d, hd, hdue⟩ := (Option.any_eq_true _ _).mp hany
    exact (hs id d x hd hx).trans (of_decide_eq_true hdue)

theorem idle : { e with sweeper := .idle }.Sound renewing now := ⟨h.timely, trivial⟩

theorem revoking {rest : List LeaseID} (hw : e.sweeper = .sweeping (id :: rest)) :
    { e with sweeper := .revoking id rest }.Sound renewing now ∧ ∀ x, e.expiresAtMs id = some x →
    instantOfMilli x ≤ now := by
  have hs := h.sweeping
  simp only [Sweeping, hw] at hs
  exact ⟨⟨h.timely, fun id' hid' => hs id' (mem_cons_of_mem _ hid')⟩, hs id mem_cons_self⟩

end
end Sound
end LeaseEngine

/-- The deadline that a call is to track. -/
def Call.deadline? (c : Call) : Option Int :=
  match c.kind with
  | .grant _ expiresAt => some expiresAt
  | .keepAlive _ renewed => some renewed
  | .revoke | .sweep => none

namespace Leases

/-- A call on the node is to track a deadline of the lease. -/
def Renewing (s : Leases) (node : Bytes) (id : LeaseID) : Prop :=
  ∃ c ∈ s.calls, c.node = node ∧ c.id = id ∧ c.committed = true ∧ c.deadline?.isSome = true

/-- An expiry reaches a node while its sweeper is not on its way to that lease, and through its own call or not after
    its deadline there. A call tracks a deadline if the state machine has no later one, and no sweep starts while one is
    to be tracked. -/
def Allowed (s : Leases) : Event → Prop
  | .apply node _ => ∀ c ∈ s.log[(s.engines node).applied]?, ∀ y ∈ c.expiry?,
      (s.engines node).sweeper.Spares y.1 ∧
        ((∀ d ∈ (s.engines node).deadlines.lookup y.1, instantOfMilli y.2 ≤ d) ∨ s.Renewing node y.1)
  | .finish i true => ∀ c ∈ s.calls[i]?, ∀ d ∈ c.deadline?,
      ∀ x ∈ (s.engines c.node).expiresAtMs c.id, instantOfMilli x ≤ d
  | .finish i false => ∀ c ∈ s.calls[i]?, c.deadline?.isSome = true → c.committed = false
  | .sweep node _ => match (s.engines node).sweeper with
    | .idle => ∀ c ∈ s.calls, ¬ (c.node = node ∧ c.committed = true ∧ c.deadline?.isSome = true)
    | _ => True
  | _ => True

instance (s : Leases) (node : Bytes) (id : LeaseID) : Decidable (s.Renewing node id) :=
  inferInstanceAs (Decidable (∃ c ∈ s.calls, _))

-- named, so that no search tries all the expiries there can be
instance (o : Option Int64) (d : Int) : Decidable (∀ x ∈ o, instantOfMilli x ≤ d) := Option.decidableForallMem o

instance (s : Leases) : (e : Event) → Decidable (s.Allowed e)
  | .apply _ _ => inferInstanceAs (Decidable (∀ c ∈ _, _))
  | .finish _ true => inferInstanceAs (Decidable (∀ c ∈ _, _))
  | .finish _ false => inferInstanceAs (Decidable (∀ c ∈ _, _))
  | .sweep node _ => by unfold Allowed; dsimp only; split <;> infer_instance
  | .elapse _ | .elect _ | .grantLease _ _ | .keepAlive _ _ | .revoke _ _ | .commit _ => .isTrue trivial

/-- No sweep has proposed to revoke a lease before its expiry. -/
def NotEarly (s : Leases) : Prop := ∀ p ∈ s.proposals, ∀ x, p.expiresAtMs = some x → instantOfMilli x ≤ p.now

/-- The invariant of all engines. -/
structure Inv (s : Leases) : Prop where
  engines : ∀ node, (s.engines node).Sound (s.Renewing node) s.now
  notEarly : s.NotEarly

variable {s : Leases}

theorem engines_setEngine (s : Leases) (node node' : Bytes) (e : LeaseEngine) :
    (s.setEngine node e).engines node' = if node' = node then e else s.engines node' := rfl

theorem Inv.setEngine (h : s.Inv) (calls : List Call)
    (hother : ∀ node' id, node' ≠ node → s.Renewing node' id → { s with calls }.Renewing node' id)
    (he : e.Sound ({ s with calls }.Renewing node) s.now) : ({ s with calls }.setEngine node e).Inv where
  engines node' := by
    rw [engines_setEngine]
    split
    next heq => exact heq ▸ he
    next hne => exact (h.engines node').mono (hother node' · hne) (Int.le_refl _)
  notEarly := h.notEarly

theorem Renewing.append (h : s.Renewing node id) (c : Call) : (s.propose c).Renewing node id := by
  obtain ⟨c', hc', hrest⟩ := h
  exact ⟨c', mem_append_left _ hc', hrest⟩

theorem Inv.propose (h : s.Inv) (c : Call) : (s.propose c).Inv :=
  ⟨fun node => (h.engines node).mono (fun _ hr => hr.append c) (Int.le_refl _), h.notEarly⟩

theorem Inv.commit (h : s.Inv) (i : Nat) : (s.commit i).Inv := by
  unfold Leases.commit
  split
  next c hc =>
    split
    · exact h
    rename_i hnot
    refine ⟨fun node => (h.engines node).mono (fun id hr => ?_) (Int.le_refl _), h.notEarly⟩
    obtain ⟨c', hc', hnode, hid, hcom, hd⟩ := hr
    obtain ⟨j, hj⟩ := getElem?_of_mem hc'
    have hne : i ≠ j := by
      rintro rfl
      obtain rfl := Option.some.inj (hc.symm.trans hj)
      exact hnot hcom
    exact ⟨c', mem_of_getElem? ((getElem?_set_ne hne).trans hj), hnode, hid, hcom, hd⟩
  · exact h

theorem Renewing.eraseIdx (h : s.Renewing node id) {i : Nat} {c : Call} (hc : s.calls[i]? = some c)
    (hne : c.node ≠ node ∨ c.id ≠ id ∨ c.committed = false ∨ c.deadline?.isSome = false) :
    { s with calls := s.calls.eraseIdx i }.Renewing node id := by
  obtain ⟨c', hc', hnode, hid, hcom, hd⟩ := h
  obtain ⟨j, hj⟩ := getElem?_of_mem hc'
  have hij : j ≠ i := by
    rintro rfl
    obtain rfl := Option.some.inj (hc.symm.trans hj)
    rcases hne with hne | hne | hne | hne
    · exact hne hnode
    · exact hne hid
    · cases hcom.symm.trans hne
    · cases hd.symm.trans hne
  exact ⟨c', mem_eraseIdx_iff_getElem?.mpr ⟨j, hij, hj⟩, hnode, hid, hcom, hd⟩

theorem Inv.finish (h : s.Inv) (i : Nat) (ok : Bool) (hok : s.Allowed (.finish i ok)) : (s.finish i ok).Inv := by
  unfold Leases.finish
  split
  next c hc =>
    have he := h.engines c.node
    have hother : ∀ node id, node ≠ c.node → s.Renewing node id →
        { s with calls := s.calls.eraseIdx i }.Renewing node id :=
      fun node id hne hr => hr.eraseIdx hc (.inl (Ne.symm hne))
    -- a call without a deadline leaves what is about to be tracked as it is
    have hnone : c.deadline?.isSome = false → ∀ id, s.Renewing c.node id →
        { s with calls := s.calls.eraseIdx i }.Renewing c.node id :=
      fun hd id hr => hr.eraseIdx hc (.inr (.inr (.inr hd)))
    have hothers : ∀ id, id ≠ c.id → s.Renewing c.node id → { s with calls := s.calls.eraseIdx i }.Renewing c.node id :=
      fun id hne hr => hr.eraseIdx hc (.inr (.inl (Ne.symm hne)))
    cases ok with
    | true =>
      rw [if_pos rfl]
      split
      · refine h.setEngine _ hother ?_
        unfold succeeded
        split
        next ttl expiresAt hkind =>
          exact he.trackLease hothers (hok c hc expiresAt (by simp [Call.deadline?, hkind])) _
        next ttl renewed hkind =>
          exact he.trackLease hothers (hok c hc renewed (by simp [Call.deadline?, hkind])) _
        next hkind => exact (he.forgetLease c.id).mono (hnone (by simp [Call.deadline?, hkind])) (Int.le_refl _)
        next hkind =>
          exact (he.forgetLease c.id).nextExpired.mono (hnone (by simp [Call.deadline?, hkind])) (Int.le_refl _)
      · exact h
    | false =>
      refine h.setEngine _ hother ?_
      have hkeep : ∀ id, s.Renewing c.node id → { s with calls := s.calls.eraseIdx i }.Renewing c.node id := by
        intro id hr
        cases hd : c.deadline?.isSome with
        | false => exact hnone hd id hr
        | true => exact hr.eraseIdx hc (.inr (.inr (.inl (hok c hc hd))))
      unfold failed
      split
      · exact he.mono hkeep (Int.le_refl _)
      · exact he.mono hkeep (Int.le_refl _)
      · exact (he.forgetLease c.id).mono hkeep (Int.le_refl _)
      · exact he.nextExpired.mono hkeep (Int.le_refl _)
  · exact h

theorem Inv.sweep (h : s.Inv) (node : Bytes) (order : List LeaseID) (hok : s.Allowed (.sweep node order)) :
    (s.sweep node order).Inv := by
  have he := h.engines node
  have hset : ∀ e, e.Sound (s.Renewing node) s.now → (s.setEngine node e).Inv :=
    fun e he => h.setEngine s.calls (fun _ _ _ hr => hr) he
  simp only [Allowed] at hok
  unfold Leases.sweep
  dsimp only
  split
  next hw =>
    rw [hw] at hok
    split
    · exact hset _ (he.tick fun id ⟨c, hc, hnode, _, hcom, hd⟩ => hok c hc ⟨hnode, hcom, hd⟩)
    · exact h
  next leases hw => exact hset _ (he.rearm hw)
  next hw => exact hset _ (he.collect hw order)
  next => exact hset _ he.idle
  next id rest hw =>
    obtain ⟨he', hdue⟩ := he.revoking hw
    refine Inv.propose ?_ _
    refine ⟨(hset _ he').engines, fun p hp x hx => ?_⟩
    rcases mem_append.mp hp with hp | hp
    · exact h.notEarly p hp x hx
    · obtain rfl := mem_singleton.mp hp
      exact hdue x hx
  next => exact h

theorem Inv.handle (h : s.Inv) (ev : Event) (hok : s.Allowed ev) : (s.handle ev).Inv := by
  cases ev with
  | elapse d => exact ⟨fun node =>
      (h.engines node).mono (fun _ hr => hr) (Int.le_add_of_nonneg_right (Int.natCast_nonneg d)), h.notEarly⟩
  | elect leader => exact { h with }
  | grantLease node ttl =>
    refine Inv.propose (h.setEngine s.calls (fun _ _ _ hr => hr) ?_) _
    exact ⟨(h.engines node).timely, (h.engines node).sweeping⟩
  | keepAlive node i =>
    simp only [Leases.handle, Leases.keepAlive]
    split
    · exact h.propose _
    · exact h
  | revoke node i =>
    simp only [Leases.handle, Leases.revoke]
    split
    · exact h.propose _
    · exact h
  | commit i => exact h.commit i
  | finish i ok => exact h.finish i ok hok
  | apply node order =>
    simp only [Leases.handle, Leases.apply]
    split
    next c hc =>
      exact h.setEngine s.calls (fun _ _ _ hr => hr)
        ((h.engines node).apply order fun id x hx => hok c hc (id, x) hx)
    · exact h
  | sweep node order => exact h.sweep node order hok

theorem inv_start : ({} : Leases).Inv :=
  ⟨fun _ => ⟨fun _ _ _ hd => by simp at hd, trivial⟩, fun _ hp => absurd hp not_mem_nil⟩

/-- In every run whose renewals do not go past a node's deadlines, no sweep revokes a lease early. -/
theorem sweep_not_early (es : List Event) (h : Along handle Allowed {} es) : (({} : Leases).run es).NotEarly :=
  (Reach.of_along h).invariant inv_start (fun _ e he hinv => hinv.handle e he) |>.notEarly

/-- A lease granted and renewed through the leader, and revoked by its sweep once it has expired. -/
def ownLease : List Event :=
  [.elect (some [97]), .grantLease [97] 10000000000, .commit 0, .apply [97] [], .finish 0 true, .elapse 5000000000,
    .keepAlive [97] 0, .commit 0, .apply [97] [], .finish 0 true, .elapse 10000000000,
    .sweep [97] [], .sweep [97] [], .sweep [97] [], .sweep [97] []]

theorem ownLease_not_early : (({} : Leases).run ownLease).proposals.map Proposal.expiresAtMs = [some 15000] ∧
    (({} : Leases).run ownLease).NotEarly :=
  ⟨by decide +kernel, sweep_not_early ownLease (by decide +kernel)⟩

/-- Node `b` grants a lease for ten seconds, and the leader `a` schedules it. After five seconds `b` renews it; two
    seconds past the first deadline `a` sweeps. -/
def bypassed : List Event :=
  [.elect (some [97]), .grantLease [98] 10000000000, .commit 0, .apply [97] [], .apply [98] [], .finish 0 true,
    .sweep [97] [], .sweep [97] [], .sweep [97] [], .sweep [97] [], .elapse 5000000000,
    .keepAlive [98] 0, .commit 0, .apply [97] [], .apply [98] [], .finish 0 true, .elapse 7000000000,
    .sweep [97] [], .sweep [97] [], .sweep [97] [], .sweep [97] []]

theorem bypassed_early : ¬ ∀ es : List Event, (({} : Leases).run es).NotEarly := by
  intro h
  have hmem : (⟨[97], leaseName [98] 1, some 15000, 12000000000⟩) ∈ (({} : Leases).run bypassed).proposals := by
    decide +kernel
  exact absurd (h bypassed _ hmem 15000 rfl) (by decide)

end Leases
end Wippy.Kv.Raft
