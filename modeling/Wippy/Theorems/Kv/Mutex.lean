import Wippy.Theorems.Kv.Locks

/-! Mutual exclusion: a lock that was taken is held until it is freed from its holder. -/

namespace Wippy.Kv.Raft
open Lib List Option Function

theorem Table.applyCommand_elsewhere {t : Table} (hs : t.Sound) (index : UInt64) {c : Command} {k : Bytes}
    (hk : k ≠ c.key)
    (hfree : ∀ e, t.entries k = some e → e.leaseID = []) : (t.applyCommand index c).1.entries k = t.entries k := by
  have hset : ∀ leaseID, (t.set index c.key c.value leaseID).entries k = t.entries k := fun _ => update_of_ne hk ..
  have hremove : (t.remove {c.key}).entries k = t.entries k := if_neg hk
  have hrevoke : (t.removeLease c.leaseID).entries k = t.entries k := removeLease_kept fun hmem => by
    obtain ⟨hne, e, he, hid⟩ := hs.bound _ _ hmem
    exact hne (hid.symm.trans (hfree e he))
  unfold applyCommand setIfAbsent
  split <;> (try dsimp only) <;> (repeat' split) <;> first | rfl | exact hset _ | exact hremove | exact hrevoke

namespace Locks
variable {shard : Bytes → Fin snapshotShards} {s : Locks}

/-- Other clients of the kv keep off the keys of locks. -/
def KeepsOff : Event → Prop
  | .other c => lockPrefix.isPrefixOf c.key = false
  | _ => True

/-- A lock that was written is there or was freed, and has no lease. -/
structure Held (s : Locks) : Prop where
  kept : ∀ e ∈ s.written, lockPrefix.isPrefixOf e.key = true →
    s.fsm.state.get e.key = some e ∨ ∃ cause, (cause, e) ∈ s.freed
  unleased : ∀ k e, lockPrefix.isPrefixOf k = true → s.fsm.state.get k = some e → e.leaseID = []

theorem Held.commit (h : s.Held) (hs : s.fsm.table.Sound) {c : Command} {freed : List (Cause × Entry)}
    (hfreed : s.freed ⊆ freed)
    (hstored : ∀ k e, (s.commit shard c).1.fsm.state.get k = some e → e ∈ (s.commit shard c).1.written ∧ e.key = k)
    (hkey : lockPrefix.isPrefixOf c.key = true → ∀ e,
      let entries := (s.fsm.table.applyCommand (s.fsm.state.applyIndex + 1) c).1.entries
      (s.fsm.table.entries c.key = some e → entries c.key = some e ∨ ∃ cause, (cause, e) ∈ freed) ∧
        (entries c.key = some e → s.fsm.table.entries c.key = some e ∨ e.leaseID = [])) :
    Held { (s.commit shard c).1 with freed } := by
  have hentries := congrArg Table.entries (s.commit_table shard c).1
  have hall : ∀ k e, lockPrefix.isPrefixOf k = true →
      (s.fsm.table.entries k = some e → (s.commit shard c).1.fsm.table.entries k = some e ∨
        ∃ cause, (cause, e) ∈ freed) ∧
        ((s.commit shard c).1.fsm.table.entries k = some e → s.fsm.table.entries k = some e ∨ e.leaseID = []) := by
    intro k e hlock
    rw [hentries]
    by_cases hk : k = c.key
    · subst hk
      exact hkey hlock e
    · rw [Table.applyCommand_elsewhere hs _ hk fun e => h.unleased k e hlock]
      exact ⟨.inl, .inl⟩
  refine ⟨fun e he hlock => ?_, fun k e hlock he => ((hall k e hlock).2 he).elim (h.unleased k e hlock) id⟩
  rcases mem_append.mp he with he | he
  · exact (h.kept e he hlock).elim (hall e.key e hlock).1 fun ⟨cause, hmem⟩ => .inr ⟨cause, hfreed hmem⟩
  split at he
  · have hget := mem_toList.mp he
    exact .inl ((hstored _ e hget).2.symm ▸ hget)
  · cases he

theorem Held.handle (h : s.Held) (hinv : s.Inv) {e : Event} (he : s.Allowed e) (hoff : KeepsOff e) :
    (s.handle shard e).Held := by
  have hstored := Inv.stored (s := s.handle shard e) (hinv.handle e he)
  cases e with
  | acquire name holder =>
    refine h.commit hinv.sound (Subset.refl _) hstored fun _ e => ?_
    simp only [Table.applyCommand, Table.setIfAbsent]
    split
    · exact ⟨.inl, .inl⟩
    next hnone =>
      rw [hnone]
      refine ⟨fun hk => absurd hk (some_ne_none e).symm, fun hk => .inr ?_⟩
      simp only [Table.set, update_self, Option.some.injEq] at hk
      exact hk ▸ rfl
  | release i name holder =>
    simp only [Locks.handle]
    cases s.published[i]? with
    | none => exact h
    | some p =>
      simp only [Option.elim, Locks.release]
      split
      · exact h
      split
      · exact h
      · exact { h with }
  | reapPID i p =>
    simp only [Locks.handle]
    cases s.published[i]? <;> exact { h with }
  | reapNode i node =>
    simp only [Locks.handle]
    cases s.published[i]? <;> exact { h with }
  | delete i =>
    simp only [Locks.handle] at hstored ⊢
    cases hi : s.victims[i]? with
    | none => exact h
    | some x =>
      obtain ⟨cause, v⟩ := x
      rw [hi] at hstored
      have hd : Held { s with victims := s.victims.eraseIdx i } := { h with }
      refine hd.commit hinv.sound (fun x hx => ?_) hstored fun _ e => ?_
      · split
        · exact mem_append_left _ hx
        · exact hx
      rw [(commit_table shard _ _).2]
      simp only [Table.applyCommand]
      split
      · refine ⟨fun hk => .inr ⟨cause, ?_⟩, fun hk => ?_⟩
        · rw [if_pos rfl]
          exact mem_append_right _ (mem_map.mpr ⟨e, mem_toList.mpr hk, rfl⟩)
        · simp [Table.remove] at hk
      · exact ⟨.inl, .inl⟩
  | restore entryOrder leaseOrder =>
    have htable := congrFun
      (congrArg Table.entries (RaftFSM.restore_table shard hinv.sound entryOrder leaseOrder s.fsm))
    exact ⟨fun e he hlock => (h.kept e he hlock).imp_left (htable e.key).trans,
      fun k e hlock hget => h.unleased k e hlock ((htable k).symm.trans hget)⟩
  | other c =>
    exact h.commit hinv.sound (Subset.refl _) hstored fun hlock =>
      absurd (hoff.symm.trans hlock) Bool.false_ne_true

/-- Every lock ever taken is held or was freed from its holder. So a lock is taken only when all who took it before have
    been freed from it. -/
theorem lock_held_or_freed (shard : Bytes → Fin snapshotShards) (es : List Event)
    (h : Along (handle shard) (fun s e => s.Allowed e ∧ KeepsOff e) (newLocks shard) es) :
    let s := (newLocks shard).run shard es
    (∀ e ∈ s.written, lockPrefix.isPrefixOf e.key = true →
      s.fsm.state.get e.key = some e ∨ ∃ cause, (cause, e) ∈ s.freed ∧ cause.Frees e.value) ∧
    ∀ name holder, (s.acquire shard name holder).2 = true → ∀ e ∈ s.written, e.key = lockKey name →
      ∃ cause, (cause, e) ∈ s.freed ∧ cause.Frees e.value := by
  intro s
  obtain ⟨hinv, hheld⟩ : s.Inv ∧ s.Held :=
    (Reach.of_along h).invariant (P := fun s => s.Inv ∧ s.Held) ⟨inv_newLocks, nofun, nofun⟩
      fun _ e he hs => ⟨hs.1.handle e he.1, hs.2.handle hs.1 he.1 he.2⟩
  have hkept : ∀ e ∈ s.written, lockPrefix.isPrefixOf e.key = true →
      s.fsm.state.get e.key = some e ∨ ∃ cause, (cause, e) ∈ s.freed ∧ cause.Frees e.value := fun e he hlock =>
    (hheld.kept e he hlock).imp_right fun ⟨cause, hmem⟩ => ⟨cause, hmem, hinv.safe.holder _ hmem⟩
  refine ⟨hkept, fun name holder hok e he hkey => (hkept e he ?_).resolve_left fun hget => ?_⟩
  · rw [hkey]
    exact isPrefixOf_iff_prefix.mpr (prefix_append ..)
  · simp only [acquire, (s.commit_table shard _).2, Table.applyCommand, Table.setIfAbsent, RaftFSM.table_entries,
      ← hkey, hget] at hok
    cases hok

theorem lock_held_or_freed_released :
    let e : Entry := { key := lockKey [108], value := unpiped.string, version := 1, epoch := 1 }
    ∃ cause, (cause, e) ∈ ((newLocks lengthShard).run lengthShard released).freed ∧ cause.Frees e.value :=
  (lock_held_or_freed lengthShard released
    ⟨⟨by decide +kernel, trivial⟩, ⟨by decide +kernel, trivial⟩, ⟨trivial, trivial⟩, ⟨trivial, trivial⟩, trivial⟩).2
    [108] {} (by decide +kernel) _ (by decide +kernel) rfl

end Locks
end Wippy.Kv.Raft
