import Wippy.Theorems.Kvbacked.Steps

/-! Strong registration is safe under every interleaving of the services of all nodes, if no identity of an attempt is
    drawn twice. -/

namespace Wippy.Kvbacked.Cluster
open Lib List Option

variable {l : List (Bytes × Record)} {pe : Entry} {x : Bytes × Record} {a : Bytes}

/-- The invariant of strong registration. -/
structure Inv (s : Cluster) : Prop where
  versions : TxnStore.Versions s.published s.store
  exclusive : ∀ n, s.pendingAt n = none ∨ s.activeAt n = none
  voted : ∀ n a m, s.ackAt n a m ≠ none → (ackKey n a m, .vote m) ∈ s.puts
  listed : ∀ n a m, s.ackAt n a m ≠ none → ∃ hdr, s.pending n = some hdr ∧ hdr.attemptID = a ∧ m ∈ hdr.requiredNodes
  live : ∀ n hdr, s.pending n = some hdr → hdr.attemptID ∈ s.attempts ∧ s.outcomes hdr.attemptID = []
  cohort : ∀ n hdr, s.pending n = some hdr → ∀ k h, (k, .pending h) ∈ s.puts → h.attemptID = hdr.attemptID →
    h.requiredNodes = [] ∨ h.requiredNodes = hdr.requiredNodes
  alone : ∀ n n' hdr hdr', s.pending n = some hdr → s.pending n' = some hdr' → hdr.attemptID = hdr'.attemptID → n = n'
  once : ∀ a, (s.outcomes a).length ≤ 1
  known : ∀ a, s.outcomes a ≠ [] → a ∈ s.attempts

variable {s t : Cluster} {e : Event} {name : Bytes}

theorem pending_eq {hdr : PendingHeader} (h : s.pendingAt name = some pe) (hv : pe.value = .pending hdr) :
    s.pending name = some hdr := by
  unfold pending
  rw [show s.store.get (pendingKey name) = some pe from h, bind_some, hv]

theorem pending_none (h : s.pendingAt name = none) : s.pending name = none := by
  unfold pending
  rw [show s.store.get (pendingKey name) = none from h, bind_none]

theorem pending_congr (h : t.pendingAt name = s.pendingAt name) : t.pending name = s.pending name := by
  unfold pending
  rw [show t.store.get (pendingKey name) = s.store.get (pendingKey name) from h]

theorem mem_attempts : a ∈ s.attempts ↔ ∃ k h, (k, .pending h) ∈ s.puts ∧ h.attemptID = a := by
  unfold attempts
  rw [mem_filterMap]
  constructor
  · rintro ⟨⟨k, r⟩, hx, hr⟩
    cases r with
    | pending h => exact ⟨k, h, hx, Option.some.inj hr⟩
    | active v | index v | vote n | result r => cases hr
  · rintro ⟨k, h, hx, rfl⟩
    exact ⟨_, hx, rfl⟩

section Puts
variable {l : List (Bytes × Record)} (h : t.puts = s.puts ++ l)
include h

theorem puts_mono (hx : x ∈ s.puts) : x ∈ t.puts := h ▸ mem_append_left l hx

theorem attempts_mono (ha : a ∈ s.attempts) : a ∈ t.attempts := by
  obtain ⟨k, hdr, hx, heq⟩ := mem_attempts.mp ha
  exact mem_attempts.mpr ⟨k, hdr, puts_mono h hx, heq⟩

theorem outcomes_append (a : Bytes) : t.outcomes a = s.outcomes a ++ l.filter fun x => outcomeOf x.2 == some a := by
  unfold outcomes
  rw [h, filter_append]

end Puts

/-! ### Moves keep the invariant -/

theorem inv_empty : Inv {} where
  versions := TxnStore.versions_empty
  exclusive _ := Or.inl rfl
  voted _ _ _ h := absurd rfl h
  listed _ _ _ h := absurd rfl h
  live _ _ h := by cases h
  cohort _ _ h := by cases h
  alone _ _ _ _ h := by cases h
  once _ := Nat.zero_le 1
  known _ h := absurd rfl h

/-- The step from `s` to `t` puts `l` and is about `name`. A header pending there afterwards was pending before, perhaps
    without its cohort, or is new; an attempt that ends is pending before and not after. -/
structure Advances (s t : Cluster) (l : List (Bytes × Record)) (name : Bytes) : Prop where
  puts : t.puts = s.puts ++ l
  pending : ∀ n, n ≠ name → t.pendingAt n = s.pendingAt n
  active : ∀ n, n ≠ name → t.activeAt n = s.activeAt n
  exclusive : t.pendingAt name = none ∨ t.activeAt name = none
  acks : ∀ n a m, t.ackAt n a m ≠ none → s.ackAt n a m ≠ none ∨ n = name ∧ (ackKey n a m, .vote m) ∈ l
  listed : ∀ a m, t.ackAt name a m ≠ none → ∃ hdr, t.pending name = some hdr ∧ hdr.attemptID = a ∧ m ∈ hdr.requiredNodes
  header : ∀ g, t.pending name = some g →
    (∃ g₀, s.pending name = some g₀ ∧ g₀.attemptID = g.attemptID ∧ (g₀ = g ∨ g₀.requiredNodes = [])) ∨
      g.attemptID ∉ s.attempts ∧ ∃ k, (k, .pending g) ∈ l
  published : ∀ k g, (k, .pending g) ∈ l → t.pending name = some g
  ended : ∀ a, l.filter (fun x => outcomeOf x.2 == some a) = [] ∨
    (l.filter fun x => outcomeOf x.2 == some a).length ≤ 1 ∧ (∃ hdr, s.pending name = some hdr ∧ hdr.attemptID = a) ∧
      t.pending name = none

section Advances
variable (hs : Inv s)
include hs

theorem Inv.advance (ht : TxnStore.Versions t.published t.store) (h : Advances s t l name) : Inv t := by
  have hother : ∀ n, n ≠ name → t.pending n = s.pending n := fun n hn => pending_congr (h.pending n hn)
  have hheader : ∀ n g, t.pending n = some g →
      (∃ g₀, s.pending n = some g₀ ∧ g₀.attemptID = g.attemptID ∧ (g₀ = g ∨ g₀.requiredNodes = [])) ∨
        n = name ∧ g.attemptID ∉ s.attempts ∧ ∃ k, (k, .pending g) ∈ l := by
    intro n g hg
    by_cases hn : n = name
    · subst hn
      exact (h.header g hg).imp_right fun hnew => ⟨rfl, hnew⟩
    · exact .inl ⟨g, hother n hn ▸ hg, rfl, .inl rfl⟩
  have halone : ∀ n n' g g', t.pending n = some g → t.pending n' = some g' → g.attemptID = g'.attemptID → n = n' := by
    intro n n' g g' hg hg' heq
    rcases hheader n g hg with ⟨g₀, hg₀, hid, -⟩ | ⟨hn, hnew, -⟩ <;>
      rcases hheader n' g' hg' with ⟨g₀', hg₀', hid', -⟩ | ⟨hn', hnew', -⟩
    · exact hs.alone n n' g₀ g₀' hg₀ hg₀' (hid.trans (heq.trans hid'.symm))
    · exact absurd (hid.trans heq ▸ (hs.live n g₀ hg₀).1) hnew'
    · exact absurd (hid'.trans heq.symm ▸ (hs.live n' g₀' hg₀').1) hnew
    · rw [hn, hn']
  have houtcomes := outcomes_append h.puts
  refine ⟨ht, fun n => ?_, fun n a m hack => ?_, fun n a m hack => ?_, fun n g hg => ?_, fun n g hg k f hf heq => ?_,
    halone,
    fun a => ?_, fun a hne => ?_⟩
  · by_cases hn : n = name
    · rw [hn]
      exact h.exclusive
    · rw [h.pending n hn, h.active n hn]
      exact hs.exclusive n
  · rcases h.acks n a m hack with hack | ⟨-, hput⟩
    · exact puts_mono h.puts (hs.voted n a m hack)
    · exact h.puts ▸ mem_append_right _ hput
  · by_cases hn : n = name
    · subst hn
      exact h.listed a m hack
    · rw [hother n hn]
      exact hs.listed n a m ((h.acks n a m hack).resolve_right fun hnew => hn hnew.1)
  · have hnone : l.filter (fun x => outcomeOf x.2 == some g.attemptID) = [] := by
      refine (h.ended g.attemptID).resolve_right fun ⟨_, ⟨hdr, hcur, hid⟩, hgone⟩ => ?_
      have hn : n ≠ name := by
        rintro rfl
        rw [hgone] at hg
        cases hg
      exact hn (hs.alone n name g hdr (hother n hn ▸ hg) hcur hid.symm)
    rw [houtcomes, hnone, append_nil]
    rcases hheader n g hg with ⟨g₀, hg₀, hid, -⟩ | ⟨-, hnew, k, hput⟩
    · obtain ⟨hmem, hnil⟩ := hs.live n g₀ hg₀
      exact ⟨attempts_mono h.puts (hid ▸ hmem), hid ▸ hnil⟩
    · exact ⟨mem_attempts.mpr ⟨k, g, h.puts ▸ mem_append_right _ hput, rfl⟩,
        by_contra fun hne => hnew (hs.known _ hne)⟩
  · rcases mem_append.mp (h.puts ▸ hf) with hf | hf
    · rcases hheader n g hg with ⟨g₀, hg₀, hid, hsame⟩ | ⟨-, hnew, -⟩
      · rcases hs.cohort n g₀ hg₀ k f hf (heq.trans hid.symm) with hnil | hreq
        · exact .inl hnil
        · exact hsame.elim (fun heq => .inr (heq ▸ hreq)) fun hnil => .inl (hreq.trans hnil)
      · exact absurd (mem_attempts.mpr ⟨k, f, hf, heq⟩) hnew
    · have hname := h.published k f hf
      obtain rfl := halone n name g f hg hname heq.symm
      rw [hname] at hg
      cases hg
      exact .inr rfl
  · rw [houtcomes]
    rcases h.ended a with hnone | ⟨hone, ⟨hdr, hcur, rfl⟩, -⟩
    · rw [hnone, append_nil]
      exact hs.once a
    · rw [(hs.live name hdr hcur).2]
      exact hone
  · rw [houtcomes] at hne
    rcases h.ended a with hnone | ⟨-, ⟨hdr, hcur, rfl⟩, -⟩
    · rw [hnone, append_nil] at hne
      exact attempts_mono h.puts (hs.known a hne)
    · exact attempts_mono h.puts (hs.live name hdr hcur).1

theorem Advances.still (hputs : t.puts = s.puts ++ l) (hpend : ∀ n, t.pendingAt n = s.pendingAt n)
    (hact : ∀ n, n ≠ name → t.activeAt n = s.activeAt n) (hexcl : s.pendingAt name = none ∨ t.activeAt name = none)
    (hack : ∀ n a m, t.ackAt n a m ≠ none → s.ackAt n a m ≠ none ∨ n = name ∧ (ackKey n a m, .vote m) ∈ l ∧
      ∃ hdr, s.pending name = some hdr ∧ hdr.attemptID = a ∧ m ∈ hdr.requiredNodes)
    (hl : ∀ x ∈ l, outcomeOf x.2 = none ∧ ∀ g, x.2 ≠ .pending g) : Advances s t l name where
  puts := hputs
  pending n _ := hpend n
  active := hact
  exclusive := by
    rw [hpend]
    exact hexcl
  acks n a m h := (hack n a m h).imp_right fun ⟨hn, hput, _⟩ => ⟨hn, hput⟩
  listed a m h := by
    rw [pending_congr (hpend name)]
    rcases hack name a m h with h | ⟨-, -, h⟩
    · exact hs.listed name a m h
    · exact h
  header g hg := .inl ⟨g, pending_congr (hpend name) ▸ hg, rfl, .inl rfl⟩
  published k g hg := absurd rfl ((hl _ hg).2 g)
  ended a := .inl (filter_eq_nil_iff.mpr fun x hx => by simp [(hl x hx).1])

/-- The pending attempt of a name ends, with its acknowledgements. -/
theorem Advances.ends {hdr : PendingHeader} (hcur : s.pending name = some hdr) (hputs : t.puts = s.puts ++ l)
    (hgone : t.pendingAt name = none) (hpend : ∀ n, n ≠ name → t.pendingAt n = s.pendingAt n)
    (hact : ∀ n, n ≠ name → t.activeAt n = s.activeAt n)
    (hack : (∀ n a m, t.ackAt n a m = s.ackAt n a m ∨ t.ackAt n a m = none) ∧
      ∀ m ∈ hdr.requiredNodes, t.ackAt name hdr.attemptID m = none)
    (hnew : ∀ x ∈ l, ∀ g, x.2 ≠ .pending g)
    (hout : ∀ a, l.filter (fun x => outcomeOf x.2 == some a) = [] ∨
      (l.filter fun x => outcomeOf x.2 == some a).length ≤ 1 ∧ hdr.attemptID = a) : Advances s t l name where
  puts := hputs
  pending := hpend
  active := hact
  exclusive := .inl hgone
  acks n a m h := .inl ((hack.1 n a m).resolve_right h ▸ h)
  listed a m h := by
    obtain ⟨g, hg, ha, hm⟩ := hs.listed name a m ((hack.1 name a m).resolve_right h ▸ h)
    rw [hcur] at hg
    cases hg
    exact absurd (ha ▸ hack.2 m hm) h
  header g hg := by
    rw [pending_none hgone] at hg
    cases hg
  published k g hg := absurd rfl (hnew _ hg g)
  ended a := (hout a).imp_right fun ⟨hone, ha⟩ => ⟨hone, ⟨hdr, hcur, ha⟩, pending_none hgone⟩

/-! ### Committed transactions -/

variable {ops : Txn}

theorem Advances.publish {selfNode attemptID : Bytes} {p : PID} {deadline now : Int} (hfresh : attemptID ∉ s.attempts)
    (h : Committed s t (register selfNode name p attemptID deadline now)) :
    Advances s t (TxnOp.puts (register selfNode name p attemptID deadline now)) name := by
  have hfree : s.activeAt name = none := Cond.holds_absent.mp (h.holds mem_cons_self)
  have hempty : s.pendingAt name = none := Cond.holds_absent.mp (h.holds (mem_cons_of_mem _ mem_cons_self))
  obtain ⟨pe, hget, hpe⟩ := h.wrote (k := pendingKey name) (by simp [register]; rfl)
  have hp := pending_eq hget hpe
  have hact : ∀ n, t.activeAt n = s.activeAt n := fun n => h.kept (by simp [register, key_ne])
  have hack : ∀ n a m, t.ackAt n a m = s.ackAt n a m := fun n a m => h.kept (by simp [register, key_ne])
  refine ⟨h.puts, fun n hn => h.kept (by simp [register, Ne.symm hn]), fun n _ => hact n,
    .inr ((hact name).trans hfree),
    fun n a m hne => .inl (hack n a m ▸ hne), fun a m hne => ?_, fun g hg => .inr ?_, fun k g hg => ?_,
      fun a => .inl rfl⟩
  · obtain ⟨g, hg, -⟩ := hs.listed name a m (hack name a m ▸ hne)
    rw [pending_none hempty] at hg
    cases hg
  · rw [hp] at hg
    cases hg
    exact ⟨hfresh, _, mem_singleton_self _⟩
  · cases mem_singleton.mp hg
    exact hp

section Pending
variable {pe : Entry} {hdr : PendingHeader} (hseen : s.SeenPending name pe hdr)
include hseen

theorem Advances.stamp {nodes : List Bytes} (hnone : hdr.requiredNodes = [])
    (h : Committed s t [.put (.version pe.version) (pendingKey name) (.pending { hdr with requiredNodes := nodes })]) :
    Advances s t [(pendingKey name, .pending { hdr with requiredNodes := nodes })] name := by
  have hcur := hseen.current hs.versions (h.holds mem_cons_self)
  obtain ⟨new, hget, hnew⟩ := h.wrote (k := pendingKey name) (by simp; rfl)
  have hp := pending_eq hget hnew
  have hact : ∀ n, t.activeAt n = s.activeAt n := fun n => h.kept (by simp [key_ne])
  have hack : ∀ n a m, t.ackAt n a m = s.ackAt n a m := fun n a m => h.kept (by simp [key_ne])
  refine ⟨h.puts, fun n hn => h.kept (by simp [Ne.symm hn]), fun n _ => hact n, .inr ?_,
    fun n a m hne => .inl (hack n a m ▸ hne), fun a m hne => ?_,
      fun g hg => .inl ⟨hdr, pending_eq hcur hseen.2, ?_, .inr hnone⟩,
    fun k g hg => ?_, fun a => .inl rfl⟩
  · rw [hact]
    exact (hs.exclusive name).resolve_left fun hempty => some_ne_none pe (hcur.symm.trans hempty)
  · obtain ⟨g, hg, -, hm⟩ := hs.listed name a m (hack name a m ▸ hne)
    rw [pending_eq hcur hseen.2] at hg
    cases hg
    rw [hnone] at hm
    cases hm
  · rw [hp] at hg
    cases hg
    rfl
  · cases mem_singleton.mp hg
    exact hp

theorem Advances.vote {node : Bytes} (hnode : node ∈ hdr.requiredNodes)
    (h : Committed s t (writeVote name pe.version (ackKey name hdr.attemptID node) node)) :
    Advances s t [(ackKey name hdr.attemptID node, .vote node)] name := by
  have hcur := pending_eq (hseen.current hs.versions (h.holds mem_cons_self)) hseen.2
  have hact : ∀ n, t.activeAt n = s.activeAt n := fun n => h.kept (by simp [writeVote, key_ne])
  refine .still hs h.puts (fun n => h.kept (by simp [writeVote, key_ne])) (fun n _ => hact n)
    (hact name ▸ hs.exclusive name) (fun n a m hne => ?_) (by simp [outcomeOf])
  by_cases hkey : ackKey name hdr.attemptID node = ackKey n a m
  · obtain ⟨rfl, rfl, rfl⟩ := ackKey_inj hkey
    exact .inr ⟨rfl, mem_singleton_self _, hdr, hcur, rfl, hnode⟩
  · have hsame : t.ackAt n a m = s.ackAt n a m := h.kept (by simp [writeVote, hkey])
    exact .inl (hsame ▸ hne)

theorem Advances.promote {p : PID} (h : Committed s t (promoteOps name pe.version hdr p)) :
    Advances s t (TxnOp.puts (promoteOps name pe.version hdr p)) name := by
  have hgroups := promote_groups name hdr
  refine .ends hs (pending_eq (hseen.current hs.versions (h.holds mem_cons_self)) hseen.2) h.puts (h.gone ?_)
    (fun n hn => h.kept ?_)
    (fun n hn => h.kept ?_) (h.acks hgroups (append_nil _).symm (fun n a m => by simp [key_ne]) fun n a m => rfl) ?_
      fun a => ?_
  · simp [promoteOps, hgroups.other, key_ne]
  · simp [promoteOps, hgroups.other, key_ne, Ne.symm hn]
  · simp [promoteOps, hgroups.other, key_ne, Ne.symm hn]
  · simp
  · by_cases ha : hdr.attemptID = a
    · exact .inr ⟨by simp [outcomeOf, ha], ha⟩
    · exact .inl (by simp [outcomeOf, ha])

theorem Advances.expire {read : Bytes → Option Entry} {epoch : Nat} {reason : Reason}
    (h : Committed s t (expireOps read name epoch pe.version hdr reason)) :
    Advances s t (TxnOp.puts (expireOps read name epoch pe.version hdr reason)) name := by
  have hgroups := expire_groups name hdr read reason
  refine .ends hs (pending_eq (hseen.current hs.versions (h.holds mem_cons_self)) hseen.2) h.puts (h.gone ?_)
    (fun n hn => h.kept ?_)
    (fun n hn => h.kept ?_) (h.acks hgroups rfl (fun n a m => by simp [key_ne]) fun n a m => by simp [key_ne]) ?_
      fun a => ?_
  · simp [expireOps, hgroups.other, key_ne]
  · simp [expireOps, hgroups.other, key_ne, Ne.symm hn]
  · simp [expireOps, hgroups.other, key_ne]
  · simp
  · by_cases ha : hdr.attemptID = a
    · exact .inr ⟨by simp [outcomeOf, ha], ha⟩
    · exact .inl (by simp [outcomeOf, ha])

end Pending

/-- A transaction that writes no pending or acknowledgement record. -/
theorem Advances.aside (h : Committed s t ops) (hpend : ∀ n, TxnOp.lastWrite (pendingKey n) ops = none)
    (hact : ∀ n, n ≠ name → TxnOp.lastWrite (activeKey n) ops = none)
    (hexcl : s.pendingAt name = none ∨ t.activeAt name = none)
    (hack : ∀ n a m, TxnOp.lastWrite (ackKey n a m) ops = none)
    (hl : ∀ x ∈ TxnOp.puts ops, outcomeOf x.2 = none ∧ ∀ g, x.2 ≠ .pending g) : Advances s t (TxnOp.puts ops) name := by
  refine .still hs h.puts (fun n => h.kept (hpend n)) (fun n hn => h.kept (hact n hn)) hexcl
    (fun n a m hne => .inl ?_) hl
  have hsame : t.ackAt n a m = s.ackAt n a m := h.kept (hack n a m)
  exact hsame ▸ hne

theorem Committed.advances (hfresh : s.Fresh e) (hsub : Submits s e ops) (h : Committed s t ops) :
    ∃ name, Advances s t (TxnOp.puts ops) name := by
  cases hsub with
  | publish hdrawn _ => exact ⟨_, .publish hs (fun hmem => hfresh _ hmem hdrawn) h⟩
  | stamp hseen hnone => exact ⟨_, .stamp hs hseen hnone h⟩
  | vote hseen hnode => exact ⟨_, .vote hs hseen hnode h⟩
  | promote hseen _ _ => exact ⟨_, .promote hs hseen h⟩
  | expire hseen => exact ⟨_, .expire hs hseen h⟩
  | @bind name p _ =>
    refine ⟨name, .aside hs h (fun n => ?_) (fun n hn => ?_) (.inl (Cond.holds_absent.mp (h.holds mem_cons_self)))
      (fun n a m => ?_) (by simp [registerConsistent, outcomeOf])⟩
    · simp [registerConsistent, key_ne]
    · simp [registerConsistent, key_ne, Ne.symm hn]
    · simp [registerConsistent, key_ne]
  | @swap name x av old p _ _ _ _ =>
    obtain ⟨x, hx, -⟩ := Cond.holds_version.mp (h.holds mem_cons_self)
    have hact : s.activeAt name ≠ none := fun hnone => some_ne_none x (hx.symm.trans hnone)
    refine ⟨name, .aside hs h (fun n => ?_) (fun n hn => ?_) (.inl ((hs.exclusive name).resolve_right hact))
      (fun n a m => ?_) (by simp [swapOwner, outcomeOf])⟩
    · simp [swapOwner, key_ne]
    · simp [swapOwner, key_ne, Ne.symm hn]
    · simp [swapOwner, key_ne]
  | @unbind name x av owner _ _ _ =>
    exact ⟨name, .aside hs h (fun n => by simp [key_ne]) (fun n hn => by simp [key_ne, Ne.symm hn])
      (.inr (h.gone (by simp [key_ne]))) (fun n a m => by simp [key_ne]) (by simp)⟩
  | @delete i j v _ _ =>
    refine ⟨v.name, ?_⟩
    generalize (s.snapshot j).get (activeKey v.name) = active at h
    unfold deleteBinding at h ⊢
    split at h
    · exact .aside hs h (fun n => by simp [key_ne]) (fun n hn => by simp [key_ne, Ne.symm hn])
        (.inr (h.gone (by simp))) (fun n a m => by simp [key_ne]) (by simp)
    · refine .aside hs h (fun n => by simp [key_ne]) (fun n _ => by simp [key_ne]) ?_ (fun n a m => by simp [key_ne])
        (by simp)
      have hsame : t.activeAt v.name = s.activeAt v.name := h.kept (by simp [key_ne])
      exact hsame ▸ hs.exclusive v.name

end Advances

theorem Inv.handle (hs : Inv s) (hfresh : s.Fresh e) : Inv (s.handle e) := by
  have ht := versions_handle hs.versions e
  rcases handle_cases s e with ⟨hget, hputs⟩ | ⟨ops, hsub, hc⟩
  · have hact : ∀ n, (s.handle e).activeAt n = s.activeAt n := fun n => hget _
    have hack : ∀ n a m, (s.handle e).ackAt n a m = s.ackAt n a m := fun n a m => hget _
    have hstill : Advances s (s.handle e) [] [] := .still hs (hputs.trans (append_nil _).symm) (fun n => hget _)
      (fun n _ => hact n) (hact [] ▸ hs.exclusive []) (fun n a m hne => .inl (hack n a m ▸ hne)) (by simp)
    exact hs.advance ht hstill
  · obtain ⟨name, hadvances⟩ := hc.advances hs hfresh hsub
    exact hs.advance ht hadvances

theorem inv_run {es : List Event} (h : Along handle Fresh {} es) : Inv (run {} es) :=
  (Reach.of_along h).invariant inv_empty fun _ _ hfresh hs => hs.handle hfresh

theorem Committed.written {ops : Txn} (h : Committed s (s.handle e) ops) : s.written e = TxnOp.puts ops := by
  unfold Cluster.written
  rw [h.puts, drop_left]

/-- A Strong active record is only written by the promotion of the pending attempt, all of whose cohort has acknowledged
    it. The cohort was stamped once. -/
theorem Inv.promoted (hs : Inv s) {v : ActiveValue} (hmem : (activeKey name, .active v) ∈ s.written e)
    (hstrong : v.strong = true) :
    ∃ hdr, s.pending name = some hdr ∧ hdr.attemptID = v.attemptID ∧ hdr.requiredNodes ≠ [] ∧
      (∀ k h, (k, .pending h) ∈ s.puts → h.attemptID = v.attemptID →
        h.requiredNodes = [] ∨ h.requiredNodes = hdr.requiredNodes) ∧
      ∀ m ∈ hdr.requiredNodes, (s.store.get (ackKey name v.attemptID m)).isSome ∧
        (ackKey name v.attemptID m, .vote m) ∈ s.puts := by
  rcases handle_cases s e with ⟨-, hputs⟩ | ⟨ops, hsub, hc⟩
  · rw [written, hputs, drop_length] at hmem
    cases hmem
  rw [hc.written] at hmem
  cases hsub with
  | publish _ _ => simp [register] at hmem
  | stamp _ _ => simp at hmem
  | vote _ _ => simp [writeVote] at hmem
  | expire _ => simp at hmem
  | bind _ =>
    obtain ⟨-, rfl⟩ : _ ∧ v = _ := by simpa [registerConsistent] using hmem
    cases hstrong
  | swap _ _ _ _ =>
    obtain ⟨-, rfl⟩ : _ ∧ v = _ := by simpa [swapOwner] using hmem
    cases hstrong
  | unbind _ _ _ => simp at hmem
  | delete _ _ =>
    unfold deleteBinding at hmem
    split at hmem <;> simp at hmem
  | promote hseen hne _ =>
    have hacked : ∀ m ∈ _, s.ackAt _ _ m ≠ none := fun m hm hnone => by
      obtain ⟨x, hx⟩ := Cond.holds_present.mp (hc.holds (mem_append_right _ (mem_flatMap.mpr ⟨m, hm, mem_cons_self⟩)))
      exact some_ne_none x (hx.symm.trans hnone)
    have hcur := pending_eq (hseen.current hs.versions (hc.holds mem_cons_self)) hseen.2
    obtain ⟨rfl, rfl⟩ : _ = name ∧ v = _ := by simpa [eq_comm] using hmem
    exact ⟨_, hcur, rfl, hne, hs.cohort _ _ hcur,
      fun m hm => ⟨isSome_iff_ne_none.mpr (hacked m hm), hs.voted _ _ m (hacked m hm)⟩⟩

/-- If no identity of an attempt is drawn twice, a Strong active record is written only for the pending attempt of the
    name when all of the stamped cohort has acknowledged it, and no attempt has two outcomes. -/
theorem strong_registration_safe (es : List Event) (h : Along handle Fresh {} es) :
    (∀ name, (run {} es).store.get (pendingKey name) = none ∨ (run {} es).store.get (activeKey name) = none) ∧
    (∀ e name v, (activeKey name, .active v) ∈ (run {} es).written e → v.strong = true →
      ∃ hdr, (run {} es).pending name = some hdr ∧ hdr.attemptID = v.attemptID ∧ hdr.requiredNodes ≠ [] ∧
        (∀ k h, (k, .pending h) ∈ (run {} es).puts → h.attemptID = v.attemptID →
          h.requiredNodes = [] ∨ h.requiredNodes = hdr.requiredNodes) ∧
        ∀ m ∈ hdr.requiredNodes, ((run {} es).store.get (ackKey name v.attemptID m)).isSome ∧
          (ackKey name v.attemptID m, .vote m) ∈ (run {} es).puts) ∧
    (∀ a, ((run {} es).outcomes a).length ≤ 1) ∧
    (∀ name a m, ((run {} es).store.get (ackKey name a m)).isSome →
      ∃ hdr, (run {} es).pending name = some hdr ∧ hdr.attemptID = a ∧ m ∈ hdr.requiredNodes) := by
  have hs := inv_run h
  exact ⟨hs.exclusive, fun e name v hmem hstrong => hs.promoted hmem hstrong, hs.once,
    fun name a m hack => hs.listed name a m (isSome_iff_ne_none.mp hack)⟩

/-- Node `n` registers `{n@h|1}` under the name `a`, leads, acknowledges and promotes. -/
def promotedRun : List Event :=
  [.register [110] [97] { node := [110], host := [104], uniqID := [49] } (Vector.replicate 16 7) 10 0,
    .assignObservers [110] [97] true [[110]] 1,
    .attest [110] [97] 2 2,
    .leaderDrive [97] 3 (fun _ => 3) (fun _ => 3) (fun _ => 3) 5 true]

theorem promotedRun_safe :
    ((run {} promotedRun).outcomes (newStrongAttempt (Vector.replicate 16 7))).length = 1 ∧
      ((run {} promotedRun).store.get (pendingKey [97]) = none ∨
        (run {} promotedRun).store.get (activeKey [97]) = none) := by
  have hfresh : Along handle Fresh {} promotedRun := by decide +kernel
  exact ⟨by decide +kernel, (strong_registration_safe promotedRun hfresh).1 [97]⟩

end Wippy.Kvbacked.Cluster
