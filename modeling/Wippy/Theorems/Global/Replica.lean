import Wippy.Theorems.Global.Agreement

/-! Replicas of the global name registry agree with the one that applies the log alone, as long as no limited removal
    stops inside a shard and every process is registered on its node. -/

namespace Wippy.Global
open Lib List Option Map

namespace ShardedState
variable {s : ShardedState} {home : Bytes → Bytes} {cmd : Command} {log : Log}

section
variable (hs : s.Sound) (order : SnapshotOrder)
include hs

theorem mem_snapshot (x : SnapshotEntry) : x ∈ (s.snapshot order).entries ↔ s.entry x.name = some x.entry := by
  simp only [snapshot, mem_flatMap, mem_finRange, true_and, mem_filterMap, mem_keysIn,
    map_eq_some_iff]
  constructor
  · rintro ⟨i, name, -, e, he, rfl⟩
    obtain rfl := hs.indexed.placed i name e he
    exact he
  · intro he
    exact ⟨shardFor x.name, x.name, AList.lookup_isSome.mp (isSome_of_eq_some he), x.entry, he, rfl⟩

theorem snapshot_names_nodup : ((s.snapshot order).entries.map SnapshotEntry.name).Nodup := by
  simp only [snapshot, map_flatMap]
  refine nodup_flatMap.mpr ⟨fun i _ => ?_, (nodup_finRange shardCount).imp fun {i j} hne name hi hj => hne ?_⟩
  · refine nodup_map_filterMap (fun name x hx => ?_) ((s.shards i).names.keysIn_nodup (order.names i))
    obtain ⟨e, -, rfl⟩ := map_eq_some_iff.mp hx
    rfl
  · -- a name is in one shard
    have hshard : ∀ k, name ∈ (((s.shards k).names.keysIn (order.names k)).filterMap fun name =>
        ((s.shards k).names.lookup name).map fun entry => (⟨name, entry⟩)).map SnapshotEntry.name →
        shardFor name = k := by
      intro k hk
      obtain ⟨x, hx, rfl⟩ := List.mem_map.mp hk
      obtain ⟨n, -, hn⟩ := mem_filterMap.mp hx
      obtain ⟨e, he, rfl⟩ := map_eq_some_iff.mp hn
      exact hs.indexed.placed k n e he
    exact (hshard i hi).symm.trans (hshard j hj)

theorem lookup_restored_pending (name : Bytes) :
    ((s.snapshot order).pending.foldl (fun pending p => pending.insert p.name p)
      (∅ : Map Bytes PendingEntry)).lookup name =
      s.pending.lookup name := by
  have hnodup : ((s.snapshot order).pending.map PendingEntry.name).Nodup :=
    nodup_map_filterMap hs.named (s.pending.keysIn_nodup order.pending)
  have hmem : ∀ e, e ∈ (s.snapshot order).pending ↔ s.pending.lookup e.name = some e := by
    intro e
    simp only [snapshot, mem_filterMap, mem_keysIn]
    constructor
    · rintro ⟨n, -, hn⟩
      rwa [hs.named n e hn]
    · intro he
      exact ⟨e.name, AList.lookup_isSome.mp (isSome_of_eq_some he), he⟩
  cases he : s.pending.lookup name with
  | some e =>
    obtain rfl := hs.named name e he
    exact lookup_foldl_insert_mem PendingEntry.name id hnodup ∅ ((hmem e).mpr he)
  | none =>
    refine (lookup_foldl_insert_notMem PendingEntry.name id _ ∅ fun hname => ?_).trans rfl
    obtain ⟨e, he', rfl⟩ := List.mem_map.mp hname
    cases he.symm.trans ((hmem e).mp he')

end

theorem foldl_bindName_pending (entries : List SnapshotEntry) (s : ShardedState) (pending : Map Bytes PendingEntry) :
    { entries.foldl (fun s e => s.bindName e.name e.entry) s with pending } =
      entries.foldl (fun s e => s.bindName e.name e.entry) { s with pending } := by
  induction entries generalizing s with
  | nil => rfl
  | cons x entries ih => exact ih (s.bindName x.name x.entry)

theorem foldl_bindName (hs : s.Sound ∧ s.Homed home) {entries : List SnapshotEntry}
    (hnodup : (entries.map SnapshotEntry.name).Nodup)
    (hfree : ∀ x ∈ entries, s.entry x.name = none ∧ s.pending.lookup x.name = none ∧
      x.entry.nodeID = home x.entry.pid.string) :
    ((entries.foldl (fun s e => s.bindName e.name e.entry) s).Sound ∧
      (entries.foldl (fun s e => s.bindName e.name e.entry) s).Homed home) ∧
    (entries.foldl (fun s e => s.bindName e.name e.entry) s).pending = s.pending ∧
    ∀ name e, (entries.foldl (fun s e => s.bindName e.name e.entry) s).entry name = some e ↔
      s.entry name = some e ∨ (⟨name, e⟩ : SnapshotEntry) ∈ entries := by
  induction entries generalizing s with
  | nil => exact ⟨hs, rfl, fun name e => by simp⟩
  | cons x entries ih =>
    obtain ⟨hx, hnodup⟩ := nodup_cons.mp hnodup
    obtain ⟨hentry, hpending, hhome⟩ := hfree x mem_cons_self
    have hbound : (s.bindName x.name x.entry).Sound ∧ (s.bindName x.name x.entry).Homed home :=
      ⟨hs.1.bindName hpending hentry x.entry, hs.2.bindName hhome x.name⟩
    obtain ⟨hsound, hpend, hmem⟩ := ih hbound hnodup fun y hy => by
      obtain ⟨hentry', hpending', hhome'⟩ := hfree y (mem_cons_of_mem _ hy)
      have hne : y.name ≠ x.name := fun heq => hx (heq ▸ List.mem_map_of_mem hy)
      refine ⟨?_, hpending', hhome'⟩
      rw [entry_bindName, if_neg hne]
      exact hentry'
    refine ⟨hsound, hpend, fun name e => ?_⟩
    rw [foldl_cons, hmem, entry_bindName, mem_cons]
    by_cases hname : name = x.name
    · subst hname
      have hnot : (⟨x.name, e⟩) ∉ entries := fun hmem => hx (List.mem_map.mpr ⟨_, hmem, rfl⟩)
      rw [if_pos rfl, hentry]
      constructor
      · rintro (he | he)
        · exact .inr (.inl (by rw [← Option.some.inj he]))
        · exact absurd he hnot
      · rintro (he | he | he)
        · cases he
        · exact .inl (by rw [← he])
        · exact absurd he hnot
    · rw [if_neg hname]
      have hne : (⟨name, e⟩) ≠ x := fun heq => hname (congrArg SnapshotEntry.name heq)
      simp [hne]

theorem restore_snapshot (hs : s.Sound ∧ s.Homed home) (order : SnapshotOrder) (t : ShardedState) :
    ((t.restore (s.snapshot order)).Sound ∧ (t.restore (s.snapshot order)).Homed home) ∧
      (t.restore (s.snapshot order)).Agrees s := by
  let pending : Map Bytes PendingEntry := (s.snapshot order).pending.foldl (fun pending p => pending.insert p.name p) ∅
  have hpending : ∀ name, pending.lookup name = s.pending.lookup name := lookup_restored_pending hs.1 order
  let base : ShardedState := { t with shards := fun _ => {}, nodeIndex := ∅, pending }
  have heq : t.restore (s.snapshot order) =
      (s.snapshot order).entries.foldl (fun s e => s.bindName e.name e.entry) base :=
    foldl_bindName_pending _ _ _
  have hempty : ∀ name, base.entry name = none := fun _ => rfl
  have hbase : base.Sound ∧ base.Homed home := by
    refine ⟨⟨indexed_new, fun name => .inr (hempty name), fun name e he => ?_⟩, fun name e he => ?_,
      fun name e he => ?_,
      fun _ _ _ hpids => by cases hpids⟩
    · exact hs.1.named name e ((hpending name).symm.trans he)
    · cases he
    · exact hs.2.pending name e ((hpending name).symm.trans he)
  obtain ⟨hsound, hpend, hmem⟩ := foldl_bindName hbase (snapshot_names_nodup hs.1 order) fun x hx => by
    have hx' := (mem_snapshot hs.1 order x).mp hx
    have hnone := (hs.1.exclusive x.name).resolve_right (by simp [hx'])
    exact ⟨rfl, (hpending x.name).trans hnone, hs.2.active x.name x.entry hx'⟩
  rw [heq]
  refine ⟨hsound, fun name => Option.ext fun e => ?_, fun name => ?_⟩
  · rw [hmem, hempty, mem_snapshot hs.1 order]
    simp
  · rw [hpend]
    exact hpending name

section
variable (resolve : Bytes → PID → PID → PID)

/-- Apply an entry of the log, in the maps' own orders. -/
def replay (s : ShardedState) (log : Log) : ShardedState := (s.apply resolve log {}).1

/-- A log entry that registers processes on the nodes that `home` gives for them, and whose removal of a node, if it has
    a limit, does not stop inside a shard. -/
def Allowed (home : Bytes → Bytes) (s : ShardedState) (log : Log) : Prop :=
  match log.data with
  | .error _ => True
  | .ok cmd =>
    match cmd.type with
    | .cmdRegister | .cmdRegisterPending => cmd.node = home cmd.pid.string
    | .cmdRemoveNode => s.Uncut cmd.nodeID cmd.limit
    | _ => True

theorem Allowed.homed (h : s.Allowed home log) (hdata : log.data = .ok cmd)
    (htype : cmd.type = .cmdRegister ∨ cmd.type = .cmdRegisterPending) : cmd.node = home cmd.pid.string := by
  unfold Allowed at h
  rw [hdata] at h
  rcases htype with htype | htype
  · simpa only [htype] using h
  · simpa only [htype] using h

theorem Allowed.uncut (h : s.Allowed home log) (hdata : log.data = .ok cmd) (htype : cmd.type = .cmdRemoveNode) :
    s.Uncut cmd.nodeID cmd.limit := by
  unfold Allowed at h
  rw [hdata] at h
  simpa only [htype] using h

theorem Replica.agrees {logs : List Log} (h : Replica resolve logs s)
    (hlogs : Along (replay resolve) (Allowed home) newShardedState logs) :
    (s.Sound ∧ s.Homed home) ∧ (logs.foldl (replay resolve) newShardedState).Sound ∧
      (logs.foldl (replay resolve) newShardedState).Homed home ∧
      s.Agrees (logs.foldl (replay resolve) newShardedState) := by
  induction h with
  | new => exact ⟨⟨sound_new, .new home⟩, sound_new, .new home, .refl _⟩
  | apply _ log site ih =>
    obtain ⟨hlogs, hlog⟩ := along_concat.mp hlogs
    obtain ⟨hs, hsound, hhomed, hagree⟩ := ih hlogs
    have hok := fun cmd (hdata : log.data = .ok cmd) htype => hlog.homed hdata htype
    have hs' := (homed_tabled home).apply resolve hs log site hok
    obtain ⟨hsound', hhomed'⟩ := (homed_tabled home).apply resolve ⟨hsound, hhomed⟩ log {} hok
    rw [foldl_concat]
    refine ⟨hs', hsound', hhomed', ?_⟩
    exact (hagree.apply resolve hs ⟨hsound, hhomed⟩ log site {}).2 fun cmd hdata htype => hlog.uncut hdata htype
  | restore _ order t ih =>
    obtain ⟨hs, hsound, hhomed, hagree⟩ := ih hlogs
    obtain ⟨hs', hagree'⟩ := restore_snapshot hs order t
    exact ⟨hs', hsound, hhomed, hagree'.trans hagree⟩

/-- Replicas of a log whose entries are all allowed have the same active names and reservations, and give the same
    response to the next command. -/
theorem replicas_agree (home : Bytes → Bytes) (logs : List Log)
    (hlogs : Along (replay resolve) (Allowed home) newShardedState logs) {s t : ShardedState}
    (hs : Replica resolve logs s)
    (ht : Replica resolve logs t) :
    s.Agrees t ∧ ∀ log site site', (s.apply resolve log site).2 = (t.apply resolve log site').2 := by
  obtain ⟨hs', -, -, hagree⟩ := hs.agrees resolve hlogs
  obtain ⟨ht', -, -, hagree'⟩ := ht.agrees resolve hlogs
  have h := hagree.trans hagree'.symm
  exact ⟨h, fun log site site' => (h.apply resolve hs' ht' log site site').1⟩

end

instance (s : ShardedState) (node : Bytes) (limit : Int) : Decidable (s.Uncut node limit) := Option.decidableForallMem _

instance (home : Bytes → Bytes) (s : ShardedState) : (log : Log) → Decidable (s.Allowed home log)
  | ⟨_, .error _⟩ => .isTrue trivial
  | ⟨_, .ok cmd⟩ => by unfold Allowed; dsimp only; split <;> infer_instance

/-- A registration on one node. -/
def registration (index : UInt64) (name uniqID : Bytes) : Log :=
  { index, data := .ok { type := .cmdRegister, name, pid := { node := [110], uniqID } } }

/-- A removal of that node's names, one at a time. -/
def removal (index : UInt64) : Log := { index, data := .ok { type := .cmdRemoveNode, nodeID := [110], limit := 1 } }

/-- The rule by which the holder wins. -/
def defaultResolve (_ : Bytes) (existing _ : PID) : PID := existing

/-- The names `a` and `q` are in one shard, `e` is in an earlier one: the removal takes `e` and stops between shards. -/
def betweenShards : List Log :=
  [registration 1 [97] [49], registration 2 [113] [50], registration 3 [101] [51], removal 4]

/-- What a replica that applies the log alone holds. -/
def replayed : ShardedState := betweenShards.foldl (replay defaultResolve) newShardedState

/-- A replica that is restored before the removal, with the names of a shard in another order. -/
def restored : ShardedState :=
  (newShardedState.restore (((betweenShards.take 3).foldl (replay defaultResolve) newShardedState).snapshot
    { names := fun _ => [[113], [97]] })).replay defaultResolve (removal 4)

theorem restored_agrees_replayed : replayed.lookup [101] = none ∧
    replayed.lookup [97] = some { node := [110], uniqID := [49] } ∧ restored.Agrees replayed := by
  have hr : Replica defaultResolve (betweenShards.take 3) _ := ((Replica.new.apply _ {}).apply _ {}).apply _ {}
  have hs : Replica defaultResolve betweenShards restored := (hr.restore _ newShardedState).apply (removal 4) {}
  have ht : Replica defaultResolve betweenShards replayed := hr.apply (removal 4) {}
  have hallowed : Along (replay defaultResolve) (Allowed fun _ => [110]) newShardedState betweenShards :=
    by decide +kernel
  exact ⟨by decide +kernel, by decide +kernel,
    (replicas_agree defaultResolve (fun _ => [110]) betweenShards hallowed hs ht).1⟩

/-! ### A removal that stops inside a shard -/

/-- A removal that stops inside a shard. -/
def insideShard : List Log := [registration 1 [97] [49], registration 2 [113] [50], removal 3]

theorem insideShard_diverge : ¬ ∀ (resolve : Bytes → PID → PID → PID) (logs : List Log) (s t : ShardedState),
    Replica resolve logs s → Replica resolve logs t →
      s.Agrees t ∧ ∀ log site site', (s.apply resolve log site).2 = (t.apply resolve log site').2 := by
  intro h
  let r := (insideShard.take 2).foldl (replay defaultResolve) newShardedState
  let keys : List Bytes := [PID.string { node := [110], uniqID := [49] }, PID.string { node := [110], uniqID := [50] }]
  have hr : Replica defaultResolve (insideShard.take 2) r := (Replica.new.apply _ {}).apply _ {}
  have hs := hr.apply (removal 3) { pidKeys := keys }
  have ht := hr.apply (removal 3) { pidKeys := keys.reverse }
  have hentry := (h _ _ _ _ hs ht).1.entry [97]
  revert hentry
  decide +kernel

end ShardedState
end Wippy.Global
