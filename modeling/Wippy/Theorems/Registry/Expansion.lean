import Wippy.Registry.Expansion
import Wippy.Theorems.Registry.Reg

/-! The effects that an expansion hands on are those that its directives have returned, each once; and a failed
    expansion has rolled them back. -/

namespace Wippy.Registry.Expansion
open Lib Wippy.Registry.Topology List

variable {kind : Bytes} {op : Operation} {res : DirectiveResult} {effects : List Effect} {batch : Batch}

namespace EffectStep

/-- The effect that a step rolls back. -/
def undone : EffectStep → Option Effect
  | .rollback eff => some eff
  | _ => none

/-- The effect that a step commits. -/
def done : EffectStep → Option Effect
  | .commit eff => if eff.commitFails then none else some eff
  | _ => none

/-- The effect that a step finalizes. -/
def ended : EffectStep → Option Effect
  | .finalize eff => some eff
  | _ => none

variable {f : EffectStep → Option Effect} {g : Effect → EffectStep} {effects : List Effect}

theorem filterMap_map_none (h : ∀ eff, f (g eff) = none) (effects : List Effect) :
    (effects.map g).filterMap f = [] := by
  rw [filterMap_map]
  exact filterMap_eq_nil_iff.mpr fun eff _ => h eff

theorem filterMap_map_some (h : ∀ eff ∈ effects, f (g eff) = some eff) : (effects.map g).filterMap f = effects := by
  rw [filterMap_map]
  exact (filterMap_congr h).trans filterMap_some

end EffectStep

namespace Staging
variable {st : Staging} {effects prepared : List Effect}

/-- The effects rolled back. -/
def rolledBack (st : Staging) : List Effect := st.steps.filterMap EffectStep.undone

/-- The effects committed. -/
def committed (st : Staging) : List Effect := st.steps.filterMap EffectStep.done

/-- The effects finalized. -/
def finalized (st : Staging) : List Effect := st.steps.filterMap EffectStep.ended

theorem foldl_step (f : Effect → EffectStep) (effects : List Effect) (st : Staging) :
    effects.foldl (fun st eff => st.step (f eff)) st = { st with steps := st.steps ++ effects.map f } := by
  induction effects generalizing st with
  | nil => simp
  | cons eff effects ih =>
    rw [foldl_cons, ih]
    simp [step]

section
variable (st) (effects)

theorem rollbackEffects_eq :
    st.rollbackEffects effects = { st with steps := st.steps ++ effects.reverse.map .rollback } := foldl_step _ _ st

theorem finalizeEffects_eq :
    st.finalizeEffects effects = { st with steps := st.steps ++ (effects.filter Effect.finalizing).map .finalize } :=
  foldl_step _ _ st

end

theorem prepareEffects_cases (st : Staging) (prepared effects : List Effect) :
    ((∀ eff ∈ effects, eff.prepareFails = false) ∧ st.prepareEffects prepared effects =
      ((prepared ++ effects, true), { st with steps := st.steps ++ effects.map .prepare })) ∨
    ∃ before eff after, effects = before ++ eff :: after ∧ eff.prepareFails = true ∧
      st.prepareEffects prepared effects =
      ((prepared ++ before, false), { st with steps := st.steps ++ (before ++ [eff]).map .prepare }) := by
  induction effects generalizing st prepared with
  | nil => exact .inl ⟨by simp, by simp [prepareEffects]⟩
  | cons eff effects ih =>
    unfold prepareEffects
    cases hfails : eff.prepareFails with
    | true =>
      refine .inr ⟨[], eff, effects, rfl, hfails, ?_⟩
      simp [step]
    | false =>
      rcases ih (st.step (.prepare eff)) (prepared ++ [eff]) with ⟨hall, heq⟩ | ⟨before, bad, after, rfl, hbad, heq⟩
      · refine .inl ⟨by simpa [hfails] using hall, ?_⟩
        rw [heq]
        simp [step]
      · refine .inr ⟨eff :: before, bad, after, rfl, hbad, ?_⟩
        rw [heq]
        simp [step]

theorem commitEffects_cases (st : Staging) (effects : List Effect) :
    ((∀ eff ∈ effects, eff.commitFails = false) ∧
      st.commitEffects effects = (true, { st with steps := st.steps ++ effects.map .commit })) ∨
    ∃ tried : List Effect, st.commitEffects effects = (false, { st with steps := st.steps ++ tried.map .commit }) := by
  induction effects generalizing st with
  | nil => exact .inl ⟨by simp, by simp [commitEffects]⟩
  | cons eff effects ih =>
    unfold commitEffects
    cases hfails : eff.commitFails with
    | true => exact .inr ⟨[eff], by simp [step]⟩
    | false =>
      rcases ih (st.step (.commit eff)) with ⟨hall, heq⟩ | ⟨tried, heq⟩
      · refine .inl ⟨by simpa [hfails] using hall, ?_⟩
        rw [heq]
        simp [step]
      · refine .inr ⟨eff :: tried, ?_⟩
        rw [heq]
        simp [step]

/-- All effects returned are held, and at most prepared. -/
structure Holding (st : Staging) (held : List Effect) : Prop where
  returned : held.Perm st.returned
  steps : ∃ prepared : List Effect, st.steps = prepared.map .prepare

/-- All effects returned are held or rolled back, and none is finalized. -/
structure Owing (st : Staging) (held : List Effect) : Prop where
  returned : (st.rolledBack ++ held).Perm st.returned
  finalized : st.finalized = []

variable {held : List Effect}

theorem holding_start : Holding {} [] := ⟨.nil, [], rfl⟩

theorem Holding.nothing (h : st.Holding held) : st.rolledBack = [] ∧ st.committed = [] ∧ st.finalized = [] := by
  obtain ⟨prepared, hsteps⟩ := h.steps
  rw [rolledBack, committed, finalized, hsteps]
  exact ⟨EffectStep.filterMap_map_none (fun _ => rfl) prepared, EffectStep.filterMap_map_none (fun _ => rfl) prepared,
    EffectStep.filterMap_map_none (fun _ => rfl) prepared⟩

theorem Holding.owing (h : st.Holding held) : st.Owing held := by
  obtain ⟨hrolled, -, hfinalized⟩ := h.nothing
  refine ⟨?_, hfinalized⟩
  rw [hrolled]
  exact h.returned

theorem Holding.prepare (h : st.Holding held) (effects : List Effect) :
    Holding { st with steps := st.steps ++ effects.map .prepare } held := by
  obtain ⟨prepared, hsteps⟩ := h.steps
  refine ⟨h.returned, prepared ++ effects, ?_⟩
  rw [hsteps, map_append]

theorem rolledBack_rollbackEffects (st : Staging) (effects : List Effect) :
    (st.rollbackEffects effects).rolledBack = st.rolledBack ++ effects.reverse := by
  rw [rollbackEffects_eq, rolledBack, filterMap_append, EffectStep.filterMap_map_some fun _ _ => rfl]
  rfl

theorem Owing.perm {held' : List Effect} (h : st.Owing held) (hperm : held'.Perm held) : st.Owing held' :=
  ⟨(hperm.append_left st.rolledBack).trans h.returned, h.finalized⟩

theorem Owing.rollback (h : st.Owing (effects ++ held)) : (st.rollbackEffects effects).Owing held := by
  refine ⟨?_, ?_⟩
  · rw [rolledBack_rollbackEffects, append_assoc]
    refine (((reverse_perm effects).append_right held).append_left st.rolledBack).trans ?_
    rw [rollbackEffects_eq]
    exact h.returned
  · rw [rollbackEffects_eq, Staging.finalized, filterMap_append, EffectStep.filterMap_map_none fun _ => rfl, append_nil]
    exact h.finalized

theorem Owing.release (h : st.Owing held) : (st.rollbackEffects held).Owing [] := (h.perm (by simp)).rollback

/-- Everything that was returned is committed, and finalized if it can be; nothing was rolled back. -/
structure Completed (st : Staging) : Prop where
  rolledBack : st.rolledBack = []
  committed : st.committed.Perm st.returned
  finalized : st.finalized.Perm (st.returned.filter Effect.finalizing)

theorem Owing.commit (h : st.Owing held) (tried : List Effect) :
    Owing { st with steps := st.steps ++ tried.map .commit } held := by
  refine ⟨?_, ?_⟩
  · rw [rolledBack, filterMap_append, EffectStep.filterMap_map_none fun _ => rfl, append_nil]
    exact h.returned
  · rw [Staging.finalized, filterMap_append, EffectStep.filterMap_map_none fun _ => rfl, append_nil]
    exact h.finalized

theorem Holding.complete (h : st.Holding held) (hall : ∀ eff ∈ held, eff.commitFails = false) :
    Completed (finalizeEffects { st with steps := st.steps ++ held.map .commit } held) := by
  obtain ⟨hrolled, hcommitted, hfinalized⟩ := h.nothing
  rw [rolledBack] at hrolled
  rw [committed] at hcommitted
  rw [finalized] at hfinalized
  have hdone : ∀ eff ∈ held, EffectStep.done (.commit eff) = some eff :=
    fun eff heff => by simp [EffectStep.done, hall eff heff]
  rw [finalizeEffects_eq]
  refine ⟨?_, ?_, ?_⟩
  · rw [rolledBack, filterMap_append, filterMap_append, hrolled, EffectStep.filterMap_map_none fun _ => rfl,
      EffectStep.filterMap_map_none fun _ => rfl]
    rfl
  · rw [committed, filterMap_append, filterMap_append, hcommitted, EffectStep.filterMap_map_some hdone,
      EffectStep.filterMap_map_none fun _ => rfl, append_nil]
    exact h.returned
  · rw [finalized, filterMap_append, filterMap_append, hfinalized, EffectStep.filterMap_map_none fun _ => rfl,
      EffectStep.filterMap_map_some fun _ _ => rfl]
    exact h.returned.filter _

end Staging

section Batches
variable {planner : Planner} {answers : Answers} {snapshot : State} {changes : ChangeSet}
  {batches batches' : List Batch}
  {st st' : Staging}

/-- A directive has returned `effects`. -/
structure Asked (st st' : Staging) (effects : List Effect) : Prop where
  owned : st'.owned = st.owned ++ effects
  returned : st'.returned = st.returned ++ effects
  steps : st'.steps = st.steps

theorem Asked.refl (st : Staging) : Asked st st [] := ⟨by simp, by simp, rfl⟩

theorem Asked.trans {st'' : Staging} {effects effects' : List Effect} (h : Asked st st' effects)
    (h' : Asked st' st'' effects') :
    Asked st st'' (effects ++ effects') :=
  ⟨by rw [h'.owned, h.owned, append_assoc], by rw [h'.returned, h.returned, append_assoc], h'.steps.trans h.steps⟩

theorem Staging.Holding.asked {held effects : List Effect} (h : st.Holding held) (hasked : Asked st st' effects) :
    st'.Holding (held ++ effects) := by
  refine ⟨?_, hasked.steps ▸ h.steps⟩
  rw [hasked.returned]
  exact h.returned.append_right effects

theorem ask_cases (st : Staging) (answers : Answers) :
    (∃ st', st.ask answers = (none, st') ∧ Asked st st' []) ∨
      ∃ res st', st.ask answers = (some res, st') ∧ Asked st st' res.effects := by
  unfold Staging.ask
  split
  · exact .inl ⟨_, rfl, by simp, by simp, rfl⟩
  · exact .inr ⟨_, _, rfl, rfl, rfl, rfl⟩

theorem DirectiveResult.effects_of_not_carries (h : res.carries = false) : res.effects = [] := by
  simp only [carries, Bool.or_eq_false_iff, Bool.not_eq_false', List.isEmpty_iff] at h
  exact h.1.2

/-- The effects of some batches. -/
def batchEffects (batches : List Batch) : List Effect := batches.flatMap fun batch => batch.result.effects

/-- Batches belong to directives of their kind, each directive has at most one, and they start at an operation of the
    kind. -/
structure Batched (planner : Planner) (snapshot : State) (changes : ChangeSet) (batches : List Batch) : Prop where
  distinct : (batches.map fun batch => (batch.kind, batch.directiveIndex)).Nodup
  directive : ∀ batch ∈ batches, batch.directiveIndex < ((planner.directivesByKind.lookup batch.kind).getD []).length
  first : ∀ batch ∈ batches, ∃ op, changes[batch.firstIndex]? = some op ∧ opKind snapshot op = batch.kind

theorem Batched.nil : Batched planner snapshot changes [] := ⟨by simp, by simp, by simp⟩

theorem Batched.concat (h : Batched planner snapshot changes batches)
    (hfresh : ∀ other ∈ batches, other.kind = batch.kind → other.directiveIndex < batch.directiveIndex)
    (hdirective : batch.directiveIndex < ((planner.directivesByKind.lookup batch.kind).getD []).length)
    (hop : changes[batch.firstIndex]? = some op) (hkind : opKind snapshot op = batch.kind) :
    Batched planner snapshot changes (batches ++ [batch]) := by
  refine ⟨?_, ?_, ?_⟩
  · rw [map_append, nodup_append]
    refine ⟨h.distinct, by simp, ?_⟩
    intro key hkey key' hkey' heq
    obtain ⟨other, hother, rfl⟩ := List.mem_map.mp hkey
    rw [map_singleton, mem_singleton] at hkey'
    subst hkey'
    obtain ⟨hk, hidx⟩ := Prod.mk.inj heq
    exact absurd hidx (Nat.ne_of_lt (hfresh other hother hk))
  · intro other hother
    rcases mem_append.mp hother with hother | hother
    · exact h.directive other hother
    · rw [mem_singleton.mp hother]
      exact hdirective
  · intro other hother
    rcases mem_append.mp hother with hother | hother
    · exact h.first other hother
    · rw [mem_singleton.mp hother]
      exact ⟨op, hop, hkind⟩

/-- Questions about batches have been asked, and what was returned is in the batches. -/
structure AskedBatches (planner : Planner) (snapshot : State) (changes : ChangeSet) (batches : List Batch)
    (st : Staging)
    (out : Except ExpandError (List Batch) × Staging) (effects : List Effect) : Prop where
  asked : Asked st out.2 effects
  batched : ∀ batches', out.1 = .ok batches' → Batched planner snapshot changes batches'
  effects : ∀ batches', out.1 = .ok batches' → batchEffects batches' = batchEffects batches ++ effects

theorem AskedBatches.failed {err : ExpandError} (h : Asked st st' effects) :
    AskedBatches planner snapshot changes batches st (.error err, st') effects :=
  ⟨h, by rintro _ ⟨⟩, by rintro _ ⟨⟩⟩

/-- The directives of a kind from the `k`-th on, when those before have been asked. -/
theorem batchKind_spec (answers : Answers) (firstID : ID) {firstIndex k : Nat} {directives : List Directive}
    (hop : changes[firstIndex]? = some op) (hkind : opKind snapshot op = kind)
    (hlength : ((planner.directivesByKind.lookup kind).getD []).length = k + directives.length)
    (h : Batched planner snapshot changes batches)
    (hfresh : ∀ batch ∈ batches, batch.kind = kind → batch.directiveIndex < k) (st : Staging) :
    ∃ effects, AskedBatches planner snapshot changes batches st
        (batchKind answers kind firstID firstIndex (directives.zipIdx k) batches st) effects ∧
      ∀ batches', (batchKind answers kind firstID firstIndex (directives.zipIdx k) batches st).1 = .ok batches' →
        ∀ batch ∈ batches', batch ∈ batches ∨ batch.kind = kind := by
  induction directives generalizing k batches st with
  | nil =>
    refine ⟨[], ⟨.refl st, fun batches' hok => ?_, fun batches' hok => ?_⟩, fun batches' hok => ?_⟩ <;> cases hok
    · exact h
    · simp
    · exact fun _ hb => .inl hb
  | cons directive directives ih =>
    have hlength' : ((planner.directivesByKind.lookup kind).getD []).length = k + 1 + directives.length := by
      rw [hlength, length_cons]
      omega
    have hfresh' : ∀ batch ∈ batches, batch.kind = kind → batch.directiveIndex < k + 1 :=
      fun batch hb hk => Nat.lt_succ_of_lt (hfresh batch hb hk)
    rw [zipIdx_cons]
    unfold batchKind
    split
    · exact ih hlength' h hfresh' st
    rcases ask_cases st answers with ⟨st', hask, hasked⟩ | ⟨res, st', hask, hasked⟩
    · rw [hask]
      exact ⟨[], .failed hasked, fun _ hok => by cases hok⟩
    rw [hask]
    dsimp only
    split
    · -- A directive that is not configured for batches has returned nothing.
      rename_i hnothing
      have hcarries : res.carries = false := by
        simp only [Bool.and_eq_true, Bool.not_eq_true'] at hnothing
        exact hnothing.2
      rw [DirectiveResult.effects_of_not_carries hcarries] at hasked
      obtain ⟨effects, hrest, hkinds⟩ := ih hlength' h hfresh' st'
      exact ⟨effects, ⟨by simpa using hasked.trans hrest.asked, hrest.batched, hrest.effects⟩, hkinds⟩
    split
    · exact ⟨_, .failed hasked, fun _ hok => by cases hok⟩
    have hnext : Batched planner snapshot changes (batches ++ [⟨kind, k, res, firstIndex⟩]) :=
      h.concat hfresh (by dsimp only; rw [hlength]; omega) hop hkind
    have hfresh'' : ∀ batch ∈ batches ++ [⟨kind, k, res, firstIndex⟩], batch.kind = kind →
      batch.directiveIndex < k + 1 := by
      intro batch hb hk
      rcases mem_append.mp hb with hb | hb
      · exact hfresh' batch hb hk
      · rw [mem_singleton.mp hb]
        exact Nat.lt_succ_self k
    obtain ⟨effects, hrest, hkinds⟩ := ih hlength' hnext hfresh'' st'
    refine ⟨_, ⟨hasked.trans hrest.asked, hrest.batched, fun batches' heq => ?_⟩, fun batches' heq batch hb => ?_⟩
    · rw [hrest.effects batches' heq]
      simp [batchEffects]
    · rcases hkinds batches' heq batch hb with hb | hb
      · rcases mem_append.mp hb with hb | hb
        · exact .inl hb
        · exact .inr (by rw [mem_singleton.mp hb])
      · exact .inr hb

theorem getElem?_of_mem_opsOfKind {i : Nat} (h : (op, i) ∈ opsOfKind snapshot changes kind) :
    changes[i]? = some op ∧ opKind snapshot op = kind := by
  obtain ⟨hmem, hkind⟩ := mem_filter.mp h
  exact ⟨mem_zipIdx_iff_getElem?.mp hmem, of_decide_eq_true hkind⟩

theorem batchAll_spec (answers : Answers) {kinds : List (Sigma fun _ : Bytes => List Directive)}
    (hkeys : kinds.NodupKeys)
    (hlookup : ∀ pair ∈ kinds, planner.directivesByKind.lookup pair.1 = some pair.2)
    (h : Batched planner snapshot changes batches) (hfresh : ∀ batch ∈ batches, batch.kind ∉ kinds.keys)
    (st : Staging) :
    ∃ effects, AskedBatches planner snapshot changes batches st
      (batchAll answers snapshot changes kinds batches st) effects := by
  induction kinds generalizing batches st with
  | nil =>
    refine ⟨[], .refl st, fun batches' hok => ?_, fun batches' hok => ?_⟩ <;> cases hok
    · exact h
    · simp
  | cons pair kinds ih =>
    obtain ⟨kind, directives⟩ := pair
    obtain ⟨hnotin, hkeys'⟩ := nodupKeys_cons.mp hkeys
    have hlookup' : ∀ pair ∈ kinds, planner.directivesByKind.lookup pair.1 = some pair.2 :=
      fun pair hpair => hlookup pair (mem_cons_of_mem _ hpair)
    have hfresh' : ∀ batch ∈ batches, batch.kind ∉ kinds.keys :=
      fun batch hb hmem => hfresh batch hb (mem_cons_of_mem _ hmem)
    unfold batchAll
    split
    next first firstIndex _ _ hops =>
      have hfirst := getElem?_of_mem_opsOfKind (hops ▸ mem_cons_self)
      have hlength : ((planner.directivesByKind.lookup kind).getD []).length = 0 + directives.length := by
        rw [hlookup _ mem_cons_self]
        simp
      have hnone : ∀ batch ∈ batches, batch.kind = kind → batch.directiveIndex < 0 :=
        fun batch hb hk => absurd (hk ▸ mem_cons_self) (hfresh batch hb)
      obtain ⟨effects, hstep, hkinds⟩ := batchKind_spec answers first.id hfirst.1 hfirst.2 hlength h hnone st
      cases hout : batchKind answers kind first.id firstIndex directives.zipIdx batches st with
      | mk result st' =>
        rw [hout] at hstep hkinds
        cases result with
        | error err => exact ⟨effects, .failed hstep.asked⟩
        | ok batches' =>
          obtain ⟨effects', hrest⟩ := ih hkeys' hlookup' (hstep.batched _ rfl) (by
            intro batch hb
            rcases hkinds _ rfl batch hb with hb | hk
            · exact hfresh' batch hb
            · rw [hk]
              exact hnotin) st'
          refine ⟨_, hstep.asked.trans hrest.asked, hrest.batched, fun batches'' hok => ?_⟩
          rw [hrest.effects _ hok, hstep.effects _ rfl, append_assoc]
    · exact ih hkeys' hlookup' h hfresh' st

end Batches

section Operations
variable {planner : Planner} {answers : Answers} {snapshot : State} {changes : ChangeSet} {originalIDs : List ID}
  {batches : List Batch} {d d' : Draft} {st st' : Staging}

theorem addOps_frame {additional : List ScopedOp} (h : addOps originalIDs additional d = .ok d') :
    d'.effects = d.effects ∧ d'.expanded = d.expanded := by
  fun_induction addOps originalIDs additional d with
  | case1 =>
    cases h
    exact ⟨rfl, rfl⟩
  | case2 _ _ _ _ ih => exact ih h
  | case3 => cases h
  | case4 _ _ _ _ _ ih => exact ih h

theorem takeUp_spec {id : ID} {i : Nat} (h : takeUp planner originalIDs id kind i res d = .ok d') :
    d'.effects = d.effects ++ res.effects ∧ (d'.expanded = false → d' = d) := by
  unfold takeUp at h
  split at h
  · split at h
    · cases h
    next hcarries =>
      cases h
      rw [DirectiveResult.effects_of_not_carries (Bool.eq_false_iff.mpr hcarries), append_nil]
      exact ⟨rfl, fun _ => rfl⟩
  split at h
  · cases h
  obtain ⟨added, hadd, rfl⟩ := exists_of_map_eq_ok h
  obtain ⟨heffects, hexpanded⟩ := addOps_frame hadd
  exact ⟨by simp [heffects], fun hnot => by simp [hexpanded] at hnot⟩

/-- The batches that have not been taken up before the operation at `i` asks its directive `j`. -/
def pending (batches : List Batch) (i j : Nat) : List Batch :=
  batches.filter fun batch =>
    decide (i < batch.firstIndex) || (decide (batch.firstIndex = i) && decide (j ≤ batch.directiveIndex))

/-- The effects in the draft and those of pending batches are what the expansion owns. -/
structure Keeping (batches : List Batch) (i j : Nat) (d : Draft) (st : Staging) : Prop where
  owned : (d.effects ++ batchEffects (pending batches i j)).Perm st.owned
  unexpanded : d.expanded = false → d.effects = []

section Pending
variable {op : Operation} {batch : Batch} {i j : Nat}

theorem mem_pending : batch ∈ pending batches i j ↔
    batch ∈ batches ∧ (i < batch.firstIndex ∨ batch.firstIndex = i ∧ j ≤ batch.directiveIndex) := by
  simp [pending]

theorem pending_zero (batches : List Batch) : pending batches 0 0 = batches := by
  refine filter_eq_self.mpr fun batch _ => ?_
  rcases Nat.eq_zero_or_pos batch.firstIndex with h | h <;> simp [h]

section
variable (h : Batched planner snapshot changes batches)
include h

theorem Batched.pending_length (hi : changes.length ≤ i) : pending batches i j = [] := by
  refine eq_nil_iff_forall_not_mem.mpr fun batch hb => ?_
  obtain ⟨hmem, hleft⟩ := mem_pending.mp hb
  obtain ⟨op, hop, -⟩ := h.first batch hmem
  have := (List.getElem?_eq_some_iff.mp hop).1
  omega

theorem Batched.kind_of_first (hop : changes[i]? = some op) (hb : batch ∈ batches) (hi : batch.firstIndex = i) :
    batch.kind = opKind snapshot op := by
  obtain ⟨op', hop', hkind⟩ := h.first batch hb
  rw [hi, hop] at hop'
  cases hop'
  exact hkind.symm

theorem Batched.pending_succ (hop : changes[i]? = some op) :
    pending batches i ((planner.directivesByKind.lookup (opKind snapshot op)).getD []).length = pending batches
      (i + 1) 0 := by
  refine filter_congr fun batch hb => ?_
  have hdirective := h.directive batch hb
  rw [Bool.eq_iff_iff]
  simp only [Bool.or_eq_true, Bool.and_eq_true, decide_eq_true_eq]
  constructor
  · rintro (hlt | ⟨hi, hj⟩)
    · omega
    · rw [h.kind_of_first hop hb hi] at hdirective
      omega
  · omega

theorem Batched.eq_of_key {other : Batch} (hb : batch ∈ batches) (hother : other ∈ batches)
    (hkind : other.kind = batch.kind) (hj : other.directiveIndex = batch.directiveIndex) : other = batch :=
  inj_on_of_nodup_map h.distinct hother hb (by rw [hkind, hj])

end

theorem findBatch_eq_some (h : findBatch batches kind j = some batch) :
    batch ∈ batches ∧ batch.kind = kind ∧ batch.directiveIndex = j := by
  have hkey := find?_some h
  simp only [Bool.and_eq_true, decide_eq_true_eq] at hkey
  exact ⟨mem_of_find?_eq_some h, hkey⟩

section
variable (h : Batched planner snapshot changes batches) (hop : changes[i]? = some op)
include h hop

theorem Batched.pending_skip
    (hskip : ∀ batch ∈ batches, batch.kind = opKind snapshot op → batch.directiveIndex = j → batch.firstIndex ≠ i) :
    pending batches i j = pending batches i (j + 1) := by
  refine filter_congr fun batch hb => ?_
  rw [Bool.eq_iff_iff]
  simp only [Bool.or_eq_true, Bool.and_eq_true, decide_eq_true_eq]
  constructor
  · rintro (hlt | ⟨hi, hj⟩)
    · exact .inl hlt
    · have hne : batch.directiveIndex ≠ j := fun hj => hskip batch hb (h.kind_of_first hop hb hi) hj hi
      omega
  · omega

theorem Batched.pending_take (hb : batch ∈ batches) (hj : batch.directiveIndex = j) (hi : batch.firstIndex = i) :
    (pending batches i j).Perm (batch :: pending batches i (j + 1)) := by
  have hnodup (j : Nat) : (pending batches i j).Nodup := (h.distinct.of_map _).filter _
  refine (perm_ext_iff_of_nodup (hnodup j) ?_).mpr fun other => ?_
  · refine nodup_cons.mpr ⟨fun hmem => ?_, hnodup (j + 1)⟩
    obtain ⟨-, hleft⟩ := mem_pending.mp hmem
    omega
  rw [mem_cons, mem_pending, mem_pending]
  constructor
  · rintro ⟨hother, hlt | ⟨hi', hj'⟩⟩
    · exact .inr ⟨hother, .inl hlt⟩
    rcases Nat.lt_or_eq_of_le hj' with hlt | heq
    · exact .inr ⟨hother, .inr ⟨hi', hlt⟩⟩
    -- The same operation and directive: it is the batch itself.
    exact .inl (h.eq_of_key hb hother ((h.kind_of_first hop hother hi').trans (h.kind_of_first hop hb hi).symm)
      (heq.symm.trans hj.symm))
  · rintro (rfl | ⟨hother, hleft⟩)
    · exact ⟨hb, .inr ⟨hi, Nat.le_of_eq hj.symm⟩⟩
    · exact ⟨hother, by omega⟩

end
end Pending

theorem findBatch_eq_none {j : Nat} (h : findBatch batches kind j = none) (hb : batch ∈ batches)
    (hkind : batch.kind = kind) : batch.directiveIndex ≠ j := by
  intro hj
  have hnot := find?_eq_none.mp h batch hb
  simp [hkind, hj] at hnot

section Keeping
variable {op : Operation} {i j : Nat} {id : ID} {kind : Bytes} {res : DirectiveResult}

theorem Keeping.takeUp {j' : Nat} (h : Keeping batches i j d st)
    (htake : takeUp planner originalIDs id kind i res d = .ok d') (hasked : Asked st st' effects)
    (hpending : (res.effects ++ batchEffects (pending batches i j')).Perm
      (batchEffects (pending batches i j) ++ effects)) :
    Keeping batches i j' d' st' := by
  obtain ⟨heffects, hunexpanded⟩ := takeUp_spec htake
  refine ⟨?_, fun hnot => ?_⟩
  · rw [heffects, hasked.owned, append_assoc]
    refine (hpending.append_left d.effects).trans ?_
    rw [← append_assoc]
    exact h.owned.append_right effects
  · have heq := hunexpanded hnot
    rw [heq] at hnot ⊢
    exact h.unexpanded hnot

section
variable (planner) (answers) (originalIDs)

theorem expandOp_spec (directives : List Directive)
    (hbatched : Batched planner snapshot changes batches) (hop : changes[i]? = some op) (h : Keeping batches i j d st) :
    ∃ effects, Asked st (expandOp planner answers originalIDs batches op.id (opKind snapshot op) i
      (directives.zipIdx j) d st).2
        effects ∧
      ∀ d', (expandOp planner answers originalIDs batches op.id (opKind snapshot op) i
        (directives.zipIdx j) d st).1 = .ok d' →
        Keeping batches i (j + directives.length) d'
          (expandOp planner answers originalIDs batches op.id (opKind snapshot op) i (directives.zipIdx j) d st).2 := by
  induction directives generalizing j d st with
  | nil =>
    refine ⟨[], .refl st, fun d' hok => ?_⟩
    cases hok
    exact h
  | cons directive directives ih =>
    rw [zipIdx_cons, length_cons, Nat.add_comm directives.length, ← Nat.add_assoc]
    unfold expandOp
    cases hfind : findBatch batches (opKind snapshot op) j with
    | some batch =>
      obtain ⟨hb, hkind, hj⟩ := findBatch_eq_some hfind
      dsimp only
      split
      next hne =>
        have hskip := hbatched.pending_skip (j := j) hop fun other hother hkind' hj' hi => hne <| by
          rw [← hbatched.eq_of_key hb hother (hkind'.trans hkind.symm) (hj'.trans hj.symm), hi]
        exact ih ⟨hskip ▸ h.owned, h.unexpanded⟩
      rename_i heq
      cases htake : Expansion.takeUp planner originalIDs op.id (opKind snapshot op) i batch.result d with
      | error err => exact ⟨[], .refl st, fun _ hok => by cases hok⟩
      | ok d' =>
        refine ih (h.takeUp htake (.refl st) ?_)
        rw [append_nil]
        have htaken := (hbatched.pending_take hop hb hj (not_not.mp heq).symm).flatMap_right fun batch =>
          batch.result.effects
        exact htaken.symm
    | none =>
      have hskip := hbatched.pending_skip (j := j) hop fun other hother hkind hj =>
        absurd hj (findBatch_eq_none hfind hother hkind)
      rcases ask_cases st answers with ⟨st', hask, hasked⟩ | ⟨res, st', hask, hasked⟩
      · rw [hask]
        exact ⟨[], hasked, fun _ hok => by cases hok⟩
      rw [hask]
      dsimp only
      cases htake : Expansion.takeUp planner originalIDs op.id (opKind snapshot op) i res d with
      | error err => exact ⟨_, hasked, fun _ hok => by cases hok⟩
      | ok d' =>
        have hnext : Keeping batches i (j + 1) d' st' := h.takeUp htake hasked (by rw [hskip]; exact perm_append_comm)
        obtain ⟨effects, hrest, hok⟩ := ih hnext
        exact ⟨_, hasked.trans hrest, hok⟩

theorem expandOps_spec {ops : ChangeSet}
    (hbatched : Batched planner snapshot changes batches) (hops : changes.drop i = ops) (h : Keeping batches i 0 d st) :
    ∃ effects, Asked st (expandOps planner answers snapshot originalIDs batches (ops.zipIdx i) d st).2 effects ∧
      ∀ d', (expandOps planner answers snapshot originalIDs batches (ops.zipIdx i) d st).1 = .ok d' →
        Keeping [] 0 0 d' (expandOps planner answers snapshot originalIDs batches (ops.zipIdx i) d st).2 := by
  induction ops generalizing i d st with
  | nil =>
    refine ⟨[], .refl st, fun d' hok => ?_⟩
    cases hok
    have howned := h.owned
    rw [hbatched.pending_length (drop_eq_nil_iff.mp hops)] at howned
    exact ⟨howned, h.unexpanded⟩
  | cons op ops ih =>
    have hop : changes[i]? = some op := by rw [← head?_drop, hops, head?_cons]
    have hops' : changes.drop (i + 1) = ops := by rw [← tail_drop, hops, tail_cons]
    rw [zipIdx_cons]
    unfold expandOps
    obtain ⟨effects, hasked, hkeep⟩ := expandOp_spec planner answers originalIDs
      ((planner.directivesByKind.lookup (opKind snapshot op)).getD []) hbatched hop h
    cases hout : expandOp planner answers originalIDs batches op.id (opKind snapshot op) i
        ((planner.directivesByKind.lookup (opKind snapshot op)).getD []).zipIdx d st with
    | mk result st' =>
      rw [hout] at hasked hkeep
      cases result with
      | error err => exact ⟨effects, hasked, fun _ hok => by cases hok⟩
      | ok d' =>
        have hnext := hkeep d' rfl
        rw [Nat.zero_add] at hnext
        obtain ⟨effects', hrest, hok⟩ := ih hops' ⟨hbatched.pending_succ hop ▸ hnext.owned, hnext.unexpanded⟩
        exact ⟨_, hasked.trans hrest, hok⟩

end
end Keeping
end Operations

section Expand
variable {planner : Planner} {answers : Answers} {snapshot : State} {changes : ChangeSet} {st : Staging}

theorem expandAll_spec (planner : Planner) (answers : Answers) (changes : ChangeSet) (snapshot : State) (st : Staging)
    (hnone : st.owned = []) :
    ∃ effects, Asked st (expandAll planner answers changes snapshot st).2 effects ∧
      ∀ d, (expandAll planner answers changes snapshot st).1 = .ok d →
        d.effects.Perm effects ∧ (d.expanded = false → d.effects = []) := by
  have hnil : Batched planner snapshot changes [] := .nil
  obtain ⟨effects, hbatches⟩ := batchAll_spec answers planner.directivesByKind.nodupKeys
    (fun pair hpair => planner.directivesByKind.mem_lookup_iff.mpr hpair) hnil (by simp) st
  unfold expandAll
  cases hout : batchAll answers snapshot changes planner.directivesByKind.entries [] st with
  | mk result st' =>
    rw [hout] at hbatches
    cases result with
    | error err => exact ⟨effects, hbatches.asked, fun _ hok => by cases hok⟩
    | ok batches =>
      have hstart : Keeping batches 0 0 { ops := changes.map fun op => ⟨op, .history⟩ } st' := by
        refine ⟨?_, fun _ => rfl⟩
        rw [pending_zero, hbatches.effects _ rfl, hbatches.asked.owned, hnone]
        exact .refl _
      obtain ⟨effects', hasked, hkeep⟩ :=
        expandOps_spec planner answers (changes.map Operation.id) (hbatches.batched _ rfl)
        drop_zero hstart
      have hall := hbatches.asked.trans hasked
      refine ⟨_, hall, fun d hok => ?_⟩
      obtain ⟨howned, hunexpanded⟩ := hkeep d hok
      have heq := hall.owned
      rw [hnone] at heq
      rw [heq] at howned
      exact ⟨by simpa [batchEffects, pending] using howned, hunexpanded⟩

theorem expand_cases (planner : Planner) (answers : Answers) (changes : ChangeSet) (snapshot : State)
    {held : List Effect}
    (h : st.Holding held) :
    (∃ err st', expand planner answers changes snapshot st = (.error err, st') ∧ st'.Owing held) ∨
    ∃ plan st', expand planner answers changes snapshot st = (.ok plan, st') ∧ st'.Holding (held ++ plan.effects) ∧
      (plan.expanded = false → plan.effects = []) := by
  unfold expand
  split
  · exact .inr ⟨_, _, rfl, by simpa using h, fun _ => rfl⟩
  split
  · exact .inr ⟨_, _, rfl, by simpa using h, fun _ => rfl⟩
  have hstart : Staging.Holding { st with owned := [] } held := { h with }
  obtain ⟨effects, hasked, hkeep⟩ := expandAll_spec planner answers changes snapshot { st with owned := [] } rfl
  cases hout : expandAll planner answers changes snapshot { st with owned := [] } with
  | mk result st' =>
    rw [hout] at hasked hkeep
    have howned : st'.owned = effects := hasked.owned
    have hheld : st'.Holding (held ++ effects) := hstart.asked hasked
    cases result with
    | error err =>
      refine .inl ⟨err, _, rfl, ?_⟩
      rw [howned]
      exact (hheld.owing.perm perm_append_comm).rollback
    | ok d =>
      obtain ⟨hperm, hunexpanded⟩ := hkeep d rfl
      exact .inr ⟨_, _, rfl, ⟨(hperm.append_left held).trans hheld.returned, hheld.steps⟩, hunexpanded⟩

end Expand
end Wippy.Registry.Expansion
