import Wippy.Kv.Locks
import Wippy.Theorems.Kv.Raft.Watch
import Wippy.Theorems.Pid

/-! A lock is freed from its own holder only: a deletion under the version that a stale read saw removes the very entry
    that was read, if the reader knew the holder. -/

namespace Wippy.Kv.Raft
open Lib List Option Function Map

variable {i : Fin snapshotShards} {p : StateSnapshot} {cause : Cause} {t : Table}

/-- The cause is one for which a lock of that value may be freed. -/
def Cause.Frees : Cause → Bytes → Prop
  | .release _ holder, value => value = holder.string
  | .reapPID p, value => value = p.string
  | .reapNode node, value => ∃ p : PID, p.node = node ∧ value = p.string

/-- The value is the text of the process that is read from it, if one is. -/
def Legible (value : Bytes) : Bool :=
  match parsePID value with
  | .ok p => decide (p.string = value)
  | .error _ => true

theorem Legible.string_eq {value : Bytes} {p : PID} (h : Legible value = true) (hp : parsePID value = .ok p) :
    p.string = value := by
  simpa [Legible, hp] using h

namespace Table

theorem applyCommand_writes (t : Table) (index : UInt64) (c : Command) :
    ((t.applyCommand index c).1.version = t.version ∧
        ∀ k e, (t.applyCommand index c).1.entries k = some e → t.entries k = some e) ∨
      (c.Writes = true ∧ (t.applyCommand index c).1.version = t.version + 1 ∧
        ∃ e : Entry, e.key = c.key ∧ e.value = c.value ∧ e.version = t.version + 1 ∧
          (t.applyCommand index c).1.entries = Function.update t.entries c.key (some e)) := by
  rcases t.applyCommand_cases index c with ⟨-, heq⟩ | ⟨-, heq⟩ | ⟨-, -, heffect⟩
  · rw [heq]
    exact .inl ⟨rfl, fun _ _ h => h⟩
  · rw [heq]
    refine .inl ⟨?_, fun k e h => ?_⟩
    · unfold removeLease
      split <;> rfl
    · by_cases hk : k ∈ t.leaseKeys c.leaseID
      · rw [removeLease_dropped hk] at h
        cases h
      · rwa [removeLease_kept hk] at h
  · generalize (t.applyCommand index c).1 = t' at heffect ⊢
    cases heffect with
    | same => exact .inl ⟨rfl, fun _ _ h => h⟩
    | set leaseID hop => exact .inr ⟨hop, rfl, _, rfl, rfl, rfl, rfl⟩
    | remove ks =>
      refine .inl ⟨rfl, fun k e h => ?_⟩
      simp only [remove] at h
      split at h
      · cases h
      · exact h
    | renew => exact .inl ⟨rfl, fun _ _ h => h⟩

theorem Sound.applyCommand (hs : t.Sound) (index : UInt64) (c : Command) : (t.applyCommand index c).1.Sound := by
  rcases t.applyCommand_cases index c with ⟨-, h⟩ | ⟨-, h⟩ | ⟨-, -, h⟩
  · rw [h]
    exact hs.addLease _ _
  · rw [h]
    exact hs.removeLease
  · exact hs.changes h.changes

theorem Sound.rebuilt (hs : t.Sound) : t.rebuilt.Sound where
  keyed := hs.keyed
  bound id k h := by
    obtain ⟨ls, hls, hk⟩ := h
    simp only [Table.rebuilt, map_eq_some_iff] at hls
    obtain ⟨ls', -, rfl⟩ := hls
    exact hk
  handles id := by simp [Table.rebuilt]
  scheduled id := by simp [Table.rebuilt]

end Table

/-! ### Published entries -/

theorem State.snapshot_shows (shard : Bytes → Fin snapshotShards) {s : State} {P : Bytes → Entry → Prop}
    (hlast : ∀ p, s.published = some p → ∀ i k e, (p.shards i).lookup k = some e → P k e)
    (hentries : ∀ k e, s.get k = some e → P k e) {k : Bytes} {e : Entry}
    (h : ((s.snapshot shard).2.shards i).lookup k = some e) : P k e := by
  have hrefresh : ∀ (ks : List Bytes) (shards : Fin snapshotShards → Map Bytes Entry),
      (∀ i k e, (shards i).lookup k = some e → P k e) →
      ∀ i k e, (ks.foldl (refreshKey shard s.entries) shards i).lookup k = some e → P k e := by
    intro ks shards hshards
    refine List.foldlRecOn (motive := fun shards : Fin snapshotShards → Map Bytes Entry =>
      ∀ i k e, (shards i).lookup k = some e → P k e) ks _ hshards fun shards hshards key _ i k e h => ?_
    unfold refreshKey at h
    rw [update_apply] at h
    split at h
    · split at h
      next e' he' =>
        rcases lookup_insert_some h with ⟨rfl, rfl⟩ | ⟨-, h⟩
        · exact hentries _ _ he'
        · exact hshards _ k e h
      · exact hshards _ k e (lookup_erase_some.mp h).1
    · exact hshards i k e h
  unfold State.snapshot at h
  cases hpub : s.published with
  | some p =>
    rw [hpub] at h
    exact hrefresh _ _ (hlast p hpub) i k e h
  | none =>
    rw [hpub] at h
    exact hrefresh _ _ (fun i k e h => by simp at h) i k e h

namespace Locks

/-- Holders are legible, and the version does not wrap. -/
def Allowed (s : Locks) : Event → Prop
  | .acquire _ holder => Legible holder.string = true ∧ s.fsm.state.version.toNat + 1 < 2 ^ 64
  | .other c => c.Writes = true →
      (lockPrefix.isPrefixOf c.key = true → Legible c.value = true) ∧ s.fsm.state.version.toNat + 1 < 2 ^ 64
  | _ => True

instance (s : Locks) (e : Event) : Decidable (s.Allowed e) := by
  cases e <;> unfold Allowed <;> infer_instance

/-- Every deletion was one of the holder's own lock, and no two entries ever had one version. -/
structure Safe (s : Locks) : Prop where
  holder : ∀ x ∈ s.freed, x.1.Frees x.2.value
  versions : (s.written.map Entry.version).Nodup

/-- The invariant: what is seen was written, and what is to be deleted was written by its victim. -/
structure Inv (s : Locks) : Prop where
  sound : s.fsm.table.Sound
  stored : ∀ k e, s.fsm.state.get k = some e → e ∈ s.written ∧ e.key = k
  shown : ∀ p ∈ s.published, ∀ i k e, (p.shards i).lookup k = some e → e ∈ s.written ∧ e.key = k
  last : ∀ p, s.fsm.state.published = some p → p ∈ s.published
  bound : ∀ e ∈ s.written, e.version ≤ s.fsm.state.version
  legible : ∀ e ∈ s.written, lockPrefix.isPrefixOf e.key = true → Legible e.value = true
  victims : ∀ x ∈ s.victims, ∃ e ∈ s.written, e.key = x.2.key ∧ e.version = x.2.version ∧ x.1.Frees e.value
  safe : s.Safe

variable {shard : Bytes → Fin snapshotShards} {s : Locks}

theorem Inv.eq_of_version (h : s.Inv) {e e' : Entry} (he : e ∈ s.written) (he' : e' ∈ s.written)
    (hv : e.version = e'.version) : e = e' :=
  inj_on_of_nodup_map h.safe.versions he he' hv

theorem commit_table (shard : Bytes → Fin snapshotShards) (s : Locks) (c : Command) :
    (s.commit shard c).1.fsm.table = (s.fsm.table.applyCommand (s.fsm.state.applyIndex + 1) c).1 ∧
      (s.commit shard c).2 = (s.fsm.table.applyCommand (s.fsm.state.applyIndex + 1) c).2 :=
  (s.fsm.beginLog (s.fsm.state.applyIndex + 1)).applyCommand_table c []

section
variable (h : s.Inv)
include h

theorem Inv.publish (st : State) (new : List Entry) {f : RaftFSM} (hstate : f.state = (st.snapshot shard).1)
    (hsnap : f.snap = (st.snapshot shard).2) (hsound : f.table.Sound)
    (hlast : ∀ p, st.published = some p → p ∈ s.published)
    (hstored : ∀ k e, st.get k = some e → e ∈ s.written ++ new ∧ e.key = k)
    (hbound : ∀ e ∈ s.written ++ new, e.version ≤ st.version)
    (hlegible : ∀ e ∈ new, lockPrefix.isPrefixOf e.key = true → Legible e.value = true)
    (hversions : ((s.written ++ new).map Entry.version).Nodup) :
    { s with fsm := f, published := s.published ++ [f.snap], written := s.written ++ new }.Inv where
  sound := hsound
  stored := by
    rw [hstate]
    exact hstored
  shown p hp i k e hl := by
    rcases mem_append.mp hp with hp | hp
    · obtain ⟨hmem, hkey⟩ := h.shown p hp i k e hl
      exact ⟨mem_append_left _ hmem, hkey⟩
    rw [mem_singleton.mp hp, hsnap] at hl
    refine State.snapshot_shows shard (P := fun k e => e ∈ s.written ++ new ∧ e.key = k) (fun q hq i k e hl => ?_)
      hstored hl
    obtain ⟨hmem, hkey⟩ := h.shown q (hlast q hq) i k e hl
    exact ⟨mem_append_left _ hmem, hkey⟩
  last p hp := by
    rw [hstate] at hp
    obtain rfl := Option.some.inj hp
    exact mem_append_right _ (mem_singleton.mpr hsnap.symm)
  bound := by
    rw [hstate]
    exact hbound
  legible e he := by
    rcases mem_append.mp he with he | he
    · exact h.legible e he
    · exact hlegible e he
  victims x hx := by
    obtain ⟨e, he, hrest⟩ := h.victims x hx
    exact ⟨e, mem_append_left _ he, hrest⟩
  safe := ⟨h.safe.holder, hversions⟩

theorem Inv.commit (shard : Bytes → Fin snapshotShards) (c : Command) (hc : c.Writes = true →
    (lockPrefix.isPrefixOf c.key = true → Legible c.value = true) ∧ s.fsm.state.version.toNat + 1 < 2 ^ 64) :
    (s.commit shard c).1.Inv := by
  obtain ⟨htable, -⟩ := s.commit_table shard c
  have hsound : (s.commit shard c).1.fsm.table.Sound := by
    rw [htable]
    exact h.sound.applyCommand _ c
  have hversion := congrArg Table.version htable
  have hentries := congrFun (congrArg Table.entries htable)
  have hlast : ∀ p, ((s.fsm.beginLog (s.fsm.state.applyIndex + 1)).applyCommand c []).1.state.published = some p →
      p ∈ s.published := by
    intro p hp
    rw [(RaftFSM.edits_applyCommand _ _).published] at hp
    exact h.last p hp
  rcases s.fsm.table.applyCommand_writes (s.fsm.state.applyIndex + 1) c with ⟨hv, hsub⟩ |
    ⟨hw, hv, entry, hkey, hvalue, hnew, hupd⟩
  · -- nothing is written, and every version is as it was
    rw [hv] at hversion
    have hnew : (s.commit shard c).1.written = s.written ++ [] :=
      congrArg (s.written ++ ·) (if_neg fun hne => hne hversion)
    have hinv := h.publish _ [] rfl rfl hsound hlast (fun k e hk => ?_) (fun e he => ?_) (by simp) (by
      rw [append_nil]
      exact h.safe.versions)
    · rw [← hnew] at hinv
      exact hinv
    · rw [append_nil]
      exact h.stored k e (hsub k e ((hentries k).symm.trans hk))
    · rw [append_nil] at he
      exact (h.bound e he).trans_eq hversion.symm
  · -- the new entry has the first version that no entry has
    obtain ⟨hlegible, hroom⟩ := hc hw
    have hlt : s.fsm.state.version < s.fsm.state.version + 1 := by
      rw [UInt64.lt_iff_toNat_lt, UInt64.toNat_add]
      simp only [UInt64.toNat_one]
      omega
    rw [hv] at hversion
    have hfresh : ∀ e ∈ s.written, e.version < entry.version := by
      intro e he
      rw [hnew]
      exact UInt64.lt_of_le_of_lt (h.bound e he) hlt
    have hget : ∀ k, (s.commit shard c).1.fsm.state.get k = Function.update s.fsm.table.entries c.key (some entry) k :=
      fun k => (hentries k).trans (congrFun hupd k)
    have hwritten : (s.commit shard c).1.written = s.written ++ [entry] := by
      refine congrArg (s.written ++ ·) ((if_pos fun heq => ?_).trans ?_)
      · exact UInt64.ne_of_lt hlt (hversion.symm.trans heq).symm
      · refine (congrArg Option.toList (hget c.key)).trans ?_
        rw [update_self]
        rfl
    have hinv := h.publish _ [entry] rfl rfl hsound hlast (fun k e hk => ?_) (fun e he => ?_) (fun e he hlock => ?_) ?_
    · rw [← hwritten] at hinv
      exact hinv
    · have hk := (hget k).symm.trans hk
      rw [update_apply] at hk
      split at hk
      next heq =>
        obtain rfl := Option.some.inj hk
        exact ⟨mem_append_right _ mem_cons_self, hkey.trans heq.symm⟩
      · obtain ⟨hmem, hkey⟩ := h.stored k e hk
        exact ⟨mem_append_left _ hmem, hkey⟩
    · refine le_of_le_of_eq ?_ hversion.symm
      rcases mem_append.mp he with he | he
      · exact UInt64.le_trans (h.bound e he) (UInt64.le_of_lt hlt)
      · rw [mem_singleton.mp he, hnew]
        exact UInt64.le_refl _
    · obtain rfl := mem_singleton.mp he
      rw [hkey] at hlock
      rw [hvalue]
      exact hlegible hlock
    · rw [map_append, nodup_append]
      refine ⟨h.safe.versions, nodup_singleton _, fun v hv w hw heq => ?_⟩
      obtain ⟨e, he, rfl⟩ := List.mem_map.mp hv
      rw [map_singleton, mem_singleton] at hw
      exact UInt64.ne_of_lt (hfresh e he) (heq.trans hw)

/-! ### Reads and deletions -/

theorem Inv.add_victims (xs : List (Cause × Victim))
    (hxs : ∀ x ∈ xs, ∃ e ∈ s.written, e.key = x.2.key ∧ e.version = x.2.version ∧ x.1.Frees e.value) :
    { s with victims := s.victims ++ xs }.Inv :=
  { h with
    victims := fun x hx => (mem_append.mp hx).elim (h.victims x) (hxs x)
    safe := ⟨h.safe.holder, h.safe.versions⟩ }

theorem Inv.release (hp : p ∈ s.published) (name : Bytes) (holder : PID) : (s.release shard p name holder).Inv := by
  unfold Locks.release
  split
  · exact h
  rename_i e he
  split
  · exact h
  rename_i hvalue
  obtain ⟨hmem, hkey⟩ := h.shown p hp _ _ e he
  refine h.add_victims _ fun x hx => ?_
  obtain rfl := mem_singleton.mp hx
  exact ⟨e, hmem, hkey, rfl, not_not.mp hvalue⟩

theorem Inv.reap (hp : p ∈ s.published) {isHolder : PID → Bool}
    (hcause : ∀ q : PID, isHolder q = true → cause.Frees q.string) : (s.reap p cause isHolder).Inv := by
  refine h.add_victims _ fun x hx => ?_
  obtain ⟨e, he, hx⟩ := mem_filterMap.mp hx
  obtain ⟨i, -, he⟩ := mem_flatMap.mp he
  obtain ⟨⟨k, e'⟩, hentry, he⟩ := mem_filterMap.mp he
  split at he
  next hlock =>
    obtain rfl := Option.some.inj he
    obtain ⟨hmem, hkey⟩ := h.shown p hp i k e' (mem_entries.mp hentry)
    split at hx
    next q hparse =>
      split at hx
      next hq =>
        obtain rfl := Option.some.inj hx
        have hlegible := h.legible e' hmem (hkey ▸ hlock)
        exact ⟨e', hmem, rfl, rfl, Legible.string_eq hlegible hparse ▸ hcause q hq⟩
      next => cases hx
    next => cases hx
  next => cases he

theorem Inv.delete {v : Victim} (hv : ∃ e ∈ s.written, e.key = v.key ∧ e.version = v.version ∧ cause.Frees e.value) :
    (s.delete shard cause v).Inv := by
  have hinv := h.commit shard { op := .opCompareAndDelete, key := v.key, expect := v.version }
    fun hw => absurd hw (by simp [Command.Writes])
  refine { hinv with safe := ⟨fun x hx => ?_, hinv.safe.versions⟩ }
  unfold Locks.delete at hx
  dsimp only at hx
  split at hx
  next hok =>
    rcases mem_append.mp hx with hx | hx
    · exact h.safe.holder x hx
    obtain ⟨e, he, rfl⟩ := List.mem_map.mp hx
    have he : s.fsm.state.get v.key = some e := by simpa using he
    -- the deletion found the version that was read, so it found the entry that was read
    have hversion : e.version = v.version := by
      rw [(s.commit_table shard _).2] at hok
      simp only [Table.applyCommand, RaftFSM.table_entries, he, map_some, Option.some.injEq] at hok
      split at hok
      · assumption
      · cases hok
    obtain ⟨e', he', -, hv', hfrees⟩ := hv
    obtain rfl := h.eq_of_version (h.stored _ e he).1 he' (hversion.trans hv'.symm)
    exact hfrees
  next => exact h.safe.holder x hx

theorem Inv.restore (entryOrder : List Bytes) (leaseOrder : List LeaseID) :
    (s.restore shard entryOrder leaseOrder).Inv := by
  have htable := RaftFSM.restore_table shard h.sound entryOrder leaseOrder s.fsm
  have hsound : (s.fsm.restore shard (s.fsm.snapshot entryOrder leaseOrder)).table.Sound := by
    rw [htable]
    exact h.sound.rebuilt
  have hversion := congrArg Table.version htable
  have hinv := h.publish (RaftFSM.restoreState (s.fsm.snapshot entryOrder leaseOrder)).1 [] rfl rfl hsound
    (fun p hp => ?_) (fun k e hk => ?_) (fun e he => ?_) (by simp) (by
      rw [append_nil]
      exact h.safe.versions)
  · rw [append_nil] at hinv
    exact hinv
  · rw [RaftFSM.published_restoreState] at hp
    cases hp
  · rw [append_nil]
    exact h.stored k e ((congrFun (congrArg Table.entries htable) k).symm.trans hk)
  · rw [append_nil] at he
    exact (h.bound e he).trans_eq hversion.symm

theorem Inv.handle (e : Event) (he : s.Allowed e) : (s.handle shard e).Inv := by
  cases e with
  | acquire name holder => exact h.commit shard _ fun _ => ⟨fun _ => he.1, he.2⟩
  | release i name holder =>
    simp only [Locks.handle]
    cases hi : s.published[i]? with
    | none => exact h
    | some p => exact h.release (mem_of_getElem? hi) name holder
  | reapPID i p =>
    simp only [Locks.handle]
    cases hi : s.published[i]? with
    | none => exact h
    | some snap => exact h.reap (mem_of_getElem? hi) fun q hq => (of_decide_eq_true hq : q.string = p.string)
  | reapNode i node =>
    simp only [Locks.handle]
    cases hi : s.published[i]? with
    | none => exact h
    | some snap => exact h.reap (mem_of_getElem? hi) fun q hq => ⟨q, of_decide_eq_true hq, rfl⟩
  | delete i =>
    simp only [Locks.handle]
    split
    next cause v hi =>
      have hx := h.victims _ (mem_of_getElem? hi)
      have herase : { s with victims := s.victims.eraseIdx i }.Inv :=
        { h with
          victims := fun x hx => h.victims x (mem_of_mem_eraseIdx hx)
          safe := ⟨h.safe.holder, h.safe.versions⟩ }
      exact herase.delete hx
    · exact h
  | restore entryOrder leaseOrder => exact h.restore entryOrder leaseOrder
  | other c => exact h.commit shard c he

end

theorem inv_newLocks : (newLocks shard).Inv where
  sound := RaftFSM.sound_newRaftFSM shard
  stored k e h := by cases h
  shown p hp i k e hl := by
    obtain rfl := mem_singleton.mp hp
    refine State.snapshot_shows shard (s := State.newState) (P := fun _ _ => _) (fun q hq => ?_) (fun k e hk => ?_) hl
    · cases hq
    · cases hk
  last p hp := mem_singleton.mpr (Option.some.inj hp).symm
  bound e he := absurd he not_mem_nil
  legible e he := absurd he not_mem_nil
  victims x hx := absurd hx not_mem_nil
  safe := ⟨fun x hx => absurd hx not_mem_nil, nodup_nil⟩

/-- The holder `{n@h|x|y}`, whose identifier parses as `{n@h|y}`. -/
def piped : PID := { node := [110], host := [104], uniqID := [120, 124, 121] }

/-- The process that the text of `piped` is read as. -/
def unpiped : PID := { node := [110], host := [104], uniqID := [121] }

/-- In every run that writes legible holders, and as many as there are versions, locks are freed from their holders
    only and no version is used twice. -/
theorem freed_from_holder (snapshotShard : Bytes → Fin snapshotShards) (es : List Event)
    (h : Along (handle snapshotShard) Allowed (newLocks snapshotShard) es) :
    ((newLocks snapshotShard).run snapshotShard es).Safe :=
  (Reach.of_along h).invariant inv_newLocks (fun _ e he hinv => hinv.handle e he) |>.safe

/-- Shards by the length of the key. -/
def lengthShard (key : Bytes) : Fin snapshotShards := ⟨key.length % snapshotShards, Nat.mod_lt _ (by decide)⟩

/-- A holder takes a lock, another fails to, and the first one's release is committed. -/
def released : List Event := [.acquire [108] unpiped, .acquire [108] {}, .release 1 [108] unpiped, .delete 0]

theorem released_allowed : Along (handle lengthShard) Allowed (newLocks lengthShard) released :=
  ⟨by decide +kernel, by decide +kernel, trivial, trivial, trivial⟩

theorem freed_from_holder_released :
    ((newLocks lengthShard).run lengthShard released).freed.map Prod.fst = [.release [108] unpiped] ∧
      ((newLocks lengthShard).run lengthShard released).Safe :=
  ⟨by decide +kernel, freed_from_holder lengthShard released released_allowed⟩

/-! ### A holder that a reap misreads -/

theorem scan_single {snap : StateSnapshot} {m : Map Bytes Entry} (h : snap.shards = Function.update (fun _ => ∅) i m)
    (pfx : Bytes) : snap.scan pfx = m.entries.filterMap fun x => if pfx.isPrefixOf x.1 then some x.2 else none := by
  obtain ⟨l, r, hlr⟩ := append_of_mem (mem_finRange i)
  have hnd := nodup_finRange snapshotShards
  rw [hlr, nodup_append] at hnd
  obtain ⟨-, hr, hl⟩ := hnd
  have hnil : ∀ j, j ≠ i → (snap.shards j).entries = [] := by
    intro j hj
    rw [h, update_of_ne hj]
    rfl
  have hleft : ∀ j ∈ l, (snap.shards j).entries = [] := fun j hj => hnil j (hl j hj i mem_cons_self)
  have hright : ∀ j ∈ r, (snap.shards j).entries = [] := by
    intro j hj
    refine hnil j ?_
    rintro rfl
    exact (nodup_cons.mp hr).1 hj
  have hself : (snap.shards i).entries = m.entries := by rw [h, update_self]
  unfold StateSnapshot.scan
  rw [hlr, flatMap_append, flatMap_cons, hself, flatMap_eq_nil_iff.mpr, flatMap_eq_nil_iff.mpr,
    nil_append, append_nil]
  · intro j hj
    rw [hright j hj]
    rfl
  · intro j hj
    rw [hleft j hj]
    rfl

/-- `{n@h|x|y}` takes the lock `l`, a reap of `{n@h|y}` reads the lock, and its deletion is committed. -/
def misread : List Event := [.acquire [108] piped, .reapPID 1 unpiped, .delete 0]

theorem misread_freed (shard : Bytes → Fin snapshotShards) :
    ((newLocks shard).run shard misread).freed =
      [(.reapPID unpiped, { key := lockKey [108], value := piped.string, version := 1, epoch := 1 })] := by
  generalize hentry : ({ key := lockKey [108], value := piped.string, version := 1, epoch := 1 } : Entry) = entry
  generalize hlocked : (newLocks shard).handle shard (.acquire [108] piped) = s
  have hscan : s.fsm.snap.scan lockPrefix = [entry] := by
    rw [scan_single (i := shard (lockKey [108])) (m := AList.insert (lockKey [108]) entry ∅) ?_]
    · rfl
    · rw [← hlocked, ← hentry]
      rfl
  have hvictims : (s.reapPID s.fsm.snap unpiped).victims =
      [(.reapPID unpiped, { key := lockKey [108], version := 1 })] := by
    show s.victims ++ (s.fsm.snap.scan lockPrefix).filterMap _ = _
    rw [hscan, ← hlocked, ← hentry]
    rfl
  have hread : s.handle shard (.reapPID 1 unpiped) = s.reapPID s.fsm.snap unpiped := by
    rw [← hlocked]
    rfl
  show ((((newLocks shard).handle shard (.acquire [108] piped)).handle shard
    (.reapPID 1 unpiped)).handle shard (.delete 0)).freed = _
  rw [hlocked, hread, Locks.handle, hvictims, ← hlocked, ← hentry]
  rfl

theorem misread_not_safe : ¬ ∃ snapshotShard : Bytes → Fin snapshotShards, ∀ es : List Event,
    ((newLocks snapshotShard).run snapshotShard es).Safe := by
  rintro ⟨snapshotShard, h⟩
  have hfrees := (h misread).holder _ (misread_freed snapshotShard ▸ mem_cons_self)
  exact absurd hfrees (by decide : ¬ piped.string = unpiped.string)

end Locks
end Wippy.Kv.Raft
