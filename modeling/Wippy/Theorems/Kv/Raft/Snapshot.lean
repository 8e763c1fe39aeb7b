import Wippy.Theorems.Kv.Raft.Ownership

/-! Snapshots of the kv state machine. A restore rebuilds the keys of the leases from the entries, so it gives the table
    back exactly when ownership is exact. -/

namespace Wippy.Kv.Raft
open Lib List Map

variable {t : Table}

namespace Table

/-- The tables that a restore makes of a snapshot. -/
def rebuilt (t : Table) : Table :=
  { t with
    leases := fun id => (t.leases id).map fun ls => { ls with keys := {k | t.Bound k id} }
    handles := {id | (t.leases id).isSome}
    scheduled := {id | (t.leases id).isSome} }

theorem rebuilt_eq_self (hs : t.Sound) (hx : t.Exact) : t.rebuilt = t := by
  ext1
  · rfl
  · funext id
    simp only [rebuilt]
    cases h : t.leases id with
    | none => rfl
    | some ls =>
      have hkeys : {k | t.Bound k id} = ls.keys := by
        ext k
        constructor
        · intro hb
          obtain ⟨ls', hls', hk⟩ := hx k id hb
          rw [h] at hls'
          cases hls'
          exact hk
        · exact fun hk => hs.bound id k ⟨ls, h, hk⟩
      rw [Option.map_some, hkeys]
  · rfl
  · ext id
    exact (hs.handles id).symm
  · ext id
    exact (hs.scheduled id).symm

theorem named_apply (hs : t.Sound) (hx : t.Exact) (log : Log) {k : Bytes} {id : LeaseID}
    (hb : (t.apply log).1.Bound k id) : ((t.apply log).1.leases id).isSome := by
  have named : ∀ {t : Table}, t.Exact → t.Bound k id → (t.leases id).isSome := by
    intro t hx hb
    obtain ⟨ls, hls, -⟩ := hx k id hb
    exact Option.isSome_of_eq_some hls
  rcases t.apply_cases log with ⟨id', ttl, expiresAtMs, -, -, h⟩ | ⟨id', -, -, h⟩ | ⟨-, -, h⟩
  · rw [h] at hb ⊢
    have hold : (t.leases id).isSome := named hx hb
    by_cases hid : id = id' <;> simp [addLease, hid, hold]
  · rw [h] at hb ⊢
    exact named (hx.removeLease hs) hb
  · exact named (hx.changes hs h) hb

/-- Apply a log. -/
noncomputable def run (t : Table) : List Log → Table × List ApplyResult
  | [] => (t, [])
  | log :: logs =>
    let (t, res) := t.apply log
    let (t, results) := run t logs
    (t, res :: results)

theorem exact_of_rebuilt (h : t.rebuilt.leases = t.leases) (hnamed : ∀ k id, t.Bound k id → (t.leases id).isSome) :
    t.Exact := by
  intro k id hb
  obtain ⟨ls, hls⟩ := Option.isSome_iff_exists.mp (hnamed k id hb)
  have hid := congrFun h id
  simp only [rebuilt, hls, Option.map_some, Option.some.injEq] at hid
  refine ⟨ls, hls, ?_⟩
  rw [← hid]
  exact hb

end Table

namespace RaftFSM
variable (shard : Bytes → Fin snapshotShards) (f : RaftFSM) (entryOrder : List Bytes)
  (leaseOrder : List LeaseID) (as : List Applied) (es : List Entry)

theorem foldl_restoreEntry_kept (s : State) :
    (es.foldl restoreEntry s).entries = es.foldl (fun m e => m.insert e.key e) s.entries ∧
      (es.foldl restoreEntry s).version = s.version ∧ (es.foldl restoreEntry s).published = s.published := by
  induction es generalizing s with
  | nil => exact ⟨rfl, rfl, rfl⟩
  | cons e es ih =>
    obtain ⟨leases, heq, -⟩ : State.Altered _ (restoreEntry s e) _ := State.altered_bind _ e.leaseID e.key
    simp only [foldl_cons, ih, heq, and_self]

theorem foldl_restoreEntry_leases (s : State) (id : LeaseID) :
    ((es.foldl restoreEntry s).leases.lookup id).map LeaseState.lease =
      ((s.leases.lookup id).map LeaseState.lease).map fun ls =>
        { ls with keys := ls.keys ∪ {k | id ≠ [] ∧ ∃ e ∈ es, e.leaseID = id ∧ e.key = k} } := by
  induction es generalizing s with
  | nil =>
    have hkeys : ∀ ls : Lease,
      ls.keys ∪ {k | id ≠ [] ∧ ∃ e ∈ ([] : List Entry), e.leaseID = id ∧ e.key = k} = ls.keys := by
      simp
    simp only [foldl_nil, hkeys]
    exact Option.map_id'.symm
  | cons e es ih =>
    obtain ⟨leases, heq, hlookup⟩ : State.Altered _ (restoreEntry s e) _ := State.altered_bind _ e.leaseID e.key
    rw [foldl_cons, ih, heq, hlookup]
    cases s.leases.lookup id with
    | none => rfl
    | some ls =>
      simp only [Option.map_some, Option.some.injEq]
      by_cases h : id ≠ [] ∧ id = e.leaseID
      · rw [if_pos h, LeaseState.lease_add]
        ext1 <;> try rfl
        ext k
        grind
      · grind

theorem foldl_restoreLease (ls : List SnapLease) (s : State) (m : LeaseManager) :
    (ls.foldl restoreLease (s, m)).1.leases =
        ls.foldl (fun x l => x.insert l.id { id := l.id, ttl := l.ttlMs, expiresAtMs := l.expiresAtMs }) s.leases ∧
      (ls.foldl restoreLease (s, m)).1.entries = s.entries ∧ (ls.foldl restoreLease (s, m)).1.version = s.version ∧
      (ls.foldl restoreLease (s, m)).1.published = s.published ∧
      (∀ id, id ∈ (ls.foldl restoreLease (s, m)).2.handles ↔ id ∈ m.handles ∨ id ∈ ls.map SnapLease.id) ∧
      ∀ id, id ∈ (ls.foldl restoreLease (s, m)).2.entries ↔ id ∈ m.entries ∨ id ∈ ls.map SnapLease.id := by
  induction ls generalizing s m with
  | nil => simp
  | cons l ls ih =>
    obtain ⟨h1, h2, h3, h4, h5, h6⟩ := ih (s.addLease l.id l.ttlMs l.expiresAtMs) (m.grant l.id)
    refine ⟨h1, h2, h3, h4, fun id => (h5 id).trans ?_, fun id => (h6 id).trans ?_⟩
    · simp [LeaseManager.grant, or_assoc, or_left_comm]
    · simp [LeaseManager.grant, or_assoc, or_left_comm]

theorem published_restoreState (st : FsmState) : (restoreState st).1.published = none := by
  unfold restoreState
  rw [(foldl_restoreEntry_kept _ _).2.2, (foldl_restoreLease _ _ _).2.2.2.1]

/-! ### A restored snapshot -/

theorem mem_snapshot_entries (e : Entry) :
    e ∈ (f.snapshot entryOrder leaseOrder).entries ↔ ∃ k, f.state.get k = some e := by
  simp only [snapshot, mem_filterMap, mem_keysIn]
  constructor
  · rintro ⟨k, -, h⟩
    exact ⟨k, h⟩
  · rintro ⟨k, h⟩
    exact ⟨k, AList.lookup_isSome.mp (Option.isSome_of_eq_some h), h⟩

theorem snapshot_keys_nodup {f : RaftFSM} (hs : f.table.Sound) (entryOrder : List Bytes) (leaseOrder : List LeaseID) :
    ((f.snapshot entryOrder leaseOrder).entries.map Entry.key).Nodup := by
  exact nodup_map_filterMap hs.keyed (f.state.entries.keysIn_nodup entryOrder)

theorem mem_snapshot_leases (l : SnapLease) :
    l ∈ (f.snapshot entryOrder leaseOrder).leases ↔
      ∃ ls, f.state.leases.lookup l.id = some ls ∧
        l = { id := l.id, ttlMs := ls.ttl, expiresAtMs := ls.expiresAtMs, keys := ls.keys.keys } := by
  simp only [snapshot, mem_filterMap, mem_keysIn, Option.map_eq_some_iff]
  constructor
  · rintro ⟨id, -, ls, hls, rfl⟩
    exact ⟨ls, hls, rfl⟩
  · rintro ⟨ls, hls, hl⟩
    exact ⟨l.id, AList.lookup_isSome.mp (Option.isSome_of_eq_some hls), ls, hls, hl.symm⟩

theorem snapshot_lease_ids_nodup : ((f.snapshot entryOrder leaseOrder).leases.map SnapLease.id).Nodup := by
  refine nodup_map_filterMap (fun id l hl => ?_) (f.state.leases.keysIn_nodup leaseOrder)
  obtain ⟨ls, -, rfl⟩ := Option.map_eq_some_iff.mp hl
  rfl

theorem mem_snapshot_lease_ids (id : LeaseID) :
    id ∈ (f.snapshot entryOrder leaseOrder).leases.map SnapLease.id ↔ (f.table.leases id).isSome := by
  rw [table_leases, Option.isSome_map, List.mem_map]
  constructor
  · rintro ⟨l, hl, rfl⟩
    obtain ⟨ls, hls, -⟩ := (f.mem_snapshot_leases entryOrder leaseOrder l).mp hl
    exact Option.isSome_of_eq_some hls
  · intro h
    obtain ⟨ls, hls⟩ := Option.isSome_iff_exists.mp h
    exact ⟨_, (f.mem_snapshot_leases entryOrder leaseOrder ⟨id, ls.keys.keys, ls.ttl, ls.expiresAtMs⟩).mpr
      ⟨ls, hls, rfl⟩, rfl⟩

section
variable {f : RaftFSM} (hs : f.table.Sound) (entryOrder : List Bytes) (leaseOrder : List LeaseID)
include hs

theorem restoreState_get (k : Bytes) : (restoreState (f.snapshot entryOrder leaseOrder)).1.get k = f.state.get k := by
  have hentry := f.mem_snapshot_entries entryOrder leaseOrder
  unfold restoreState State.get
  rw [(foldl_restoreEntry_kept _ _).1, (foldl_restoreLease _ _ _).2.1]
  cases hk : f.state.get k with
  | none =>
    rw [lookup_foldl_insert_notMem Entry.key (fun e => e)]
    · exact hk.symm
    · intro hmem
      obtain ⟨e, he, rfl⟩ := List.mem_map.mp hmem
      obtain ⟨k', hk'⟩ := (hentry e).mp he
      rw [hs.keyed k' e hk', hk'] at hk
      cases hk
  | some e =>
    have hfound := lookup_foldl_insert_mem Entry.key (fun e => e) (snapshot_keys_nodup hs entryOrder leaseOrder)
      (∅) ((hentry e).mpr ⟨k, hk⟩)
    rw [hs.keyed k e hk] at hfound
    exact hfound.trans hk.symm

theorem restoreState_leases (id : LeaseID) :
    ((restoreState (f.snapshot entryOrder leaseOrder)).1.leases.lookup id).map LeaseState.lease =
      f.table.rebuilt.leases id := by
  have hids := f.mem_snapshot_lease_ids entryOrder leaseOrder id
  unfold restoreState
  rw [foldl_restoreEntry_leases, (foldl_restoreLease _ _ _).1]
  simp only [Table.rebuilt, table_leases] at hids ⊢
  cases hid : f.state.leases.lookup id with
  | none =>
    rw [hid] at hids
    rw [lookup_foldl_insert_notMem SnapLease.id _ _ _ (fun h => by simpa using hids.mp h)]
    rfl
  | some ls =>
    have hfound := lookup_foldl_insert_mem SnapLease.id
      (fun l => ({ id := l.id, ttl := l.ttlMs, expiresAtMs := l.expiresAtMs } : LeaseState))
      (f.snapshot_lease_ids_nodup entryOrder leaseOrder) (∅)
      ((f.mem_snapshot_leases entryOrder leaseOrder ⟨id, ls.keys.keys, ls.ttl, ls.expiresAtMs⟩).mpr ⟨ls, hid, rfl⟩)
    rw [hfound]
    simp only [Option.map_some, Option.some.injEq]
    ext1 <;> try rfl
    ext k
    simp only [LeaseState.lease, Set.mem_union, Set.mem_ofPred_eq, AList.notMem_empty, false_or, Table.Bound]
    refine and_congr_right fun _ => ?_
    -- The keys gathered from the snapshot are those of the entries bound to the lease.
    constructor
    · rintro ⟨e, he, hl, rfl⟩
      obtain ⟨k', hk'⟩ := (f.mem_snapshot_entries entryOrder leaseOrder e).mp he
      rw [hs.keyed k' e hk']
      exact ⟨e, hk', hl⟩
    · rintro ⟨e, he, hl⟩
      exact ⟨e, (f.mem_snapshot_entries entryOrder leaseOrder e).mpr ⟨k, he⟩, hl, hs.keyed k e he⟩

theorem restore_table (g : RaftFSM) : (g.restore shard (f.snapshot entryOrder leaseOrder)).table = f.table.rebuilt := by
  have hids := f.mem_snapshot_lease_ids entryOrder leaseOrder
  obtain ⟨-, -, hversion, -, hhandles, hscheduled⟩ := foldl_restoreLease (f.snapshot entryOrder leaseOrder).leases
    { version := f.state.version, revision := f.state.version, applyIndex := f.state.applyIndex } {}
  ext1
  · funext k
    exact restoreState_get hs entryOrder leaseOrder k
  · funext id
    exact restoreState_leases hs entryOrder leaseOrder id
  · exact (foldl_restoreEntry_kept _ _).2.1.trans hversion
  · ext id
    exact (hhandles id).trans (by simp [hids, Table.rebuilt])
  · ext id
    exact (hscheduled id).trans (by simp [hids, Table.rebuilt])

end

/-! ### Snapshot against replay -/

theorem run_table :
    (f.run shard as).1.table = (f.table.run (as.map Applied.log)).1 ∧
      (f.run shard as).2 = (f.table.run (as.map Applied.log)).2 := by
  induction as generalizing f with
  | nil => exact ⟨rfl, rfl⟩
  | cons a as ih =>
    obtain ⟨htable, hres⟩ := f.apply_table shard a.log a.order
    obtain ⟨iht, ihr⟩ := ih (f.apply shard a.log a.order).1
    rw [htable] at iht ihr
    exact ⟨iht, congrArg₂ List.cons hres ihr⟩

theorem run_append (as bs : List Applied) :
    f.run shard (as ++ bs) =
      (((f.run shard as).1.run shard bs).1,
        (f.run shard as).2 ++ ((f.run shard as).1.run shard bs).2) := by
  induction as generalizing f with
  | nil => rfl
  | cons a as ih =>
    have hcons : ∀ cs, f.run shard (a :: cs) =
        (((f.step shard a).run shard cs).1,
          (f.apply shard a.log a.order).2.1 :: ((f.step shard a).run shard cs).2) := fun _ => rfl
    rw [cons_append, hcons, ih]
    rfl

theorem length_run : (f.run shard as).2.length = as.length := by
  induction as generalizing f with
  | nil => rfl
  | cons a as ih => exact congrArg (· + 1) (ih _)

/-- Two replicas hold the same entries, the same version counter, and the same leases with the same keys. -/
structure Agree (f g : RaftFSM) : Prop where
  entries : ∀ k, f.state.get k = g.state.get k
  version : f.state.version = g.state.version
  leases : ∀ id, (f.state.leases.lookup id).map LeaseState.lease = (g.state.leases.lookup id).map LeaseState.lease

theorem Agree.of_table {f g : RaftFSM} (h : f.table = g.table) : Agree f g where
  entries k := congrFun (congrArg Table.entries h) k
  version := congrArg Table.version h
  leases id := congrFun (congrArg Table.leases h) id

/-- Wherever in the log a replica restores a snapshot, in orders of its own, it gives the responses of one that replayed
    the log, and agrees with it, at every later point. -/
def SnapshotAgrees (as : List Applied) : Prop :=
  ∀ pre suf suf', pre ++ suf <+: as → suf'.map Applied.log = suf.map Applied.log →
    ∀ (g : RaftFSM) entryOrder leaseOrder,
    let f := ((newRaftFSM shard).run shard pre).1
    let whole := (newRaftFSM shard).run shard (pre ++ suf)
    let restored := (g.restore shard (f.snapshot entryOrder leaseOrder)).run shard suf'
    restored.2 = whole.2.drop pre.length ∧ Agree restored.1 whole.1

theorem Owned.restored {f : RaftFSM} (h : f.Owned) {suf suf' : List Applied}
    (hsuf : suf'.map Applied.log = suf.map Applied.log) (g : RaftFSM) (entryOrder : List Bytes)
    (leaseOrder : List LeaseID) :
    ((g.restore shard (f.snapshot entryOrder leaseOrder)).run shard suf').2 = (f.run shard suf).2 ∧
      Agree ((g.restore shard (f.snapshot entryOrder leaseOrder)).run shard suf').1
        (f.run shard suf).1 := by
  have htable := restore_table shard h.1 entryOrder leaseOrder g
  rw [Table.rebuilt_eq_self h.1 h.2] at htable
  obtain ⟨ht, hr⟩ := run_table shard (g.restore shard (f.snapshot entryOrder leaseOrder)) suf'
  obtain ⟨ht', hr'⟩ := run_table shard f suf
  rw [htable, hsuf] at ht hr
  exact ⟨hr.trans hr'.symm, Agree.of_table (ht.trans ht'.symm)⟩

/-- Snapshot and replay agree at every split of a log exactly when no entry of the log grants a lease that entries
    are still bound to. -/
theorem snapshot_agrees_iff :
    SnapshotAgrees shard as ↔ Along (step shard) GrantsUnbound (newRaftFSM shard) as := by
  constructor
  · intro h
    refine (along_iff_prefixes (P := Owned) (Q := fun f => f.table.rebuilt.leases = f.table.leases) ?_ ?_ ?_
      (owned_newRaftFSM shard) as).mpr ?_
    · intro f hf
      rw [Table.rebuilt_eq_self hf.1 hf.2]
    · exact fun f a hf ha => hf.step shard ha
    · intro f a hf hq
      rw [step_table] at hq
      rw [grantsUnbound_iff, Table.exact_apply_iff hf.1 hf.2]
      exact Table.exact_of_rebuilt hq fun k id hb => Table.named_apply hf.1 hf.2 a.log hb
    · -- A snapshot taken and restored at the end of a prefix shows the rebuilt leases there.
      intro pre hpre
      obtain ⟨-, hagree⟩ := h pre [] [] (by rwa [append_nil]) rfl (newRaftFSM shard) [] []
      have hsound : (pre.foldl (step shard) (newRaftFSM shard)).table.Sound := sound_run shard pre
      rw [← run_fst] at hsound ⊢
      have htable := restore_table shard hsound [] [] (newRaftFSM shard)
      funext id
      rw [← htable]
      rw [append_nil] at hagree
      exact hagree.leases id
  · intro h pre suf suf' hpre hsuf g entryOrder leaseOrder
    have hpre' : Along (step shard) GrantsUnbound (newRaftFSM shard) pre :=
      h.initial ((prefix_append pre suf).trans hpre)
    have howned : ((newRaftFSM shard).run shard pre).1.Owned := by
      rw [run_fst]
      exact (Reach.of_along hpre').invariant (owned_newRaftFSM shard) fun f a ha hf => hf.step shard ha
    obtain ⟨hr, ha⟩ := howned.restored shard hsuf g entryOrder leaseOrder
    rw [run_append]
    refine ⟨?_, ha⟩
    rw [drop_left' (length_run shard _ pre)]
    exact hr

/-- A revocation of the lease. -/
def revokeRegranted : Applied := { log := ⟨4, encodeCommand { op := .opLeaseRevoke, leaseID := [108] }⟩ }

theorem run_get_eq (shard shard' : Bytes → Fin snapshotShards) (f g : RaftFSM) (h : f.table = g.table)
    (as : List Applied) (k : Bytes) : (f.run shard as).1.state.get k = (g.run shard' as).1.state.get k := by
  have hf := (run_table shard f as).1
  have hg := (run_table shard' g as).1
  rw [h] at hf
  exact congrFun (congrArg Table.entries (hf.trans hg.symm)) k

/-- A replica that restored after the second grant deletes the key on the revoke; one that replayed keeps it. -/
theorem regranted_snapshot_disagrees :
    ¬ ∃ shard : Bytes → Fin snapshotShards, ∀ as : List Applied, SnapshotAgrees shard as := by
  rintro ⟨shard, h⟩
  let shard0 : Bytes → Fin snapshotShards := fun _ => ⟨0, by decide⟩
  obtain ⟨-, hagree⟩ := h (regranted ++ [revokeRegranted]) regranted [revokeRegranted] [revokeRegranted]
    prefix_rfl rfl (newRaftFSM shard) [] []
  have hreplayed : (((newRaftFSM shard0).run shard0 (regranted ++ [revokeRegranted])).1.state.get [107]).isSome =
    true := by
    decide +kernel
  have hrestored : (((newRaftFSM shard0).restore shard0
      (((newRaftFSM shard0).run shard0 regranted).1.snapshot [] [])).run shard0
      [revokeRegranted]).1.state.get [107] = none := by
    decide +kernel
  have htable : ((newRaftFSM shard).run shard regranted).1.table =
      ((newRaftFSM shard0).run shard0 regranted).1.table :=
    (run_table shard _ regranted).1.trans (run_table shard0 (newRaftFSM shard0) regranted).1.symm
  have hsound := sound_run shard regranted
  have hsound0 := sound_run shard0 regranted
  rw [← run_fst] at hsound hsound0
  have hrestore : ((newRaftFSM shard).restore shard
      (((newRaftFSM shard).run shard regranted).1.snapshot [] [])).table =
      ((newRaftFSM shard0).restore shard0 (((newRaftFSM shard0).run shard0 regranted).1.snapshot [] [])).table := by
    rw [restore_table shard hsound, restore_table shard0 hsound0, htable]
  have hentries := hagree.entries [107]
  rw [run_get_eq shard shard0 _ _ hrestore, hrestored,
    run_get_eq shard shard0 (newRaftFSM shard) (newRaftFSM shard0) rfl] at hentries
  rw [← hentries] at hreplayed
  cases hreplayed

end RaftFSM
end Wippy.Kv.Raft
