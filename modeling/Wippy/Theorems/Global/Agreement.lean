import Wippy.Theorems.Global.Invariant

/-! What two replicas of the global name registry have in common: the active names and the reservations, but not the
    order of the reverse indexes or processes without names. -/

namespace Wippy.Global
open Lib List Option Map

variable {p : PID} {nodeID node : Bytes}

namespace ShardedState

/-- Every process of a state is on the node that `home` gives for it. -/
structure Homed (home : Bytes → Bytes) (s : ShardedState) : Prop where
  active : ∀ name e, s.entry name = some e → e.nodeID = home e.pid.string
  pending : ∀ name e, s.pending.lookup name = some e → e.nodeID = home e.pid.string
  index : ∀ node pids key, s.nodeIndex.lookup node = some pids → key ∈ pids → node = home key

variable {s t u : ShardedState} {name : Bytes} {home : Bytes → Bytes}

/-! ### Processes and their nodes -/

namespace Homed

theorem new (home : Bytes → Bytes) : newShardedState.Homed home where
  active _ _ he := by cases he
  pending _ _ he := by cases he
  index _ _ _ hpids := by cases hpids

section
variable (h : s.Homed home)
include h

theorem insertPending {e : PendingEntry} (he : e.nodeID = home e.pid.string) (name : Bytes) :
    { s with pending := s.pending.insert name e }.Homed home where
  active := h.active
  pending n e' he' := by
    rcases lookup_insert_some he' with ⟨-, rfl⟩ | ⟨-, he'⟩
    · exact he
    · exact h.pending n e' he'
  index := h.index

theorem of_sub (hentry : ∀ n e, t.entry n = some e → s.entry n = some e)
    (hpending : ∀ n e, t.pending.lookup n = some e → s.pending.lookup n = some e)
    (hindex : IndexSub t.nodeIndex s.nodeIndex) :
    t.Homed home where
  active n e he := h.active n e (hentry n e he)
  pending n e he := h.pending n e (hpending n e he)
  index node pids key hpids hkey := by
    obtain ⟨pids', hpids', hsub⟩ := hindex node pids hpids
    exact h.index node pids' key hpids' (hsub key hkey)

theorem erasePending (name : Bytes) : { s with pending := s.pending.erase name }.Homed home := by
  refine h.of_sub (fun _ _ he => he) (fun n e he => ?_) fun _ pids hpids => ⟨pids, hpids, fun _ hk => hk⟩
  exact (lookup_erase_some.mp he).1

theorem recordExpired (r : ExpiredRecord) : (s.recordExpired r).Homed home := by
  unfold ShardedState.recordExpired
  split <;> exact { h with }

theorem loses {shards : Fin shardCount → Shard} {nodeIndex : Map Bytes (KeySet Bytes)} {d : List Bytes}
    (hl : s.Loses shards nodeIndex d) : { s with shards, nodeIndex }.Homed home :=
  h.of_sub (fun n e he => (((hl.drops _).names n e).mp he).1) (fun _ _ he => he) hl.sub

theorem bindName {e : NameEntry} (he : e.nodeID = home e.pid.string) (name : Bytes) :
    (s.bindName name e).Homed home where
  active n e' he' := by
    rw [entry_bindName] at he'
    split at he'
    · cases he'
      exact he
    · exact h.active n e' he'
  pending := h.pending
  index node pids key hpids hkey := by
    change ((s.setShard _ _).addToNodeIndex _ _).nodeIndex.lookup node = some pids at hpids
    rw [lookup_addToNodeIndex] at hpids
    split at hpids
    next hnode =>
      cases hpids
      rcases KeySet.mem_add.mp hkey with rfl | hkey
      · exact hnode.trans he
      cases hpids : s.nodeIndex.lookup e.nodeID with
      | none =>
        change key ∈ (s.nodeIndex.lookup e.nodeID).getD ∅ at hkey
        rw [hpids] at hkey
        exact absurd hkey (KeySet.notMem_empty key)
      | some pids =>
        change key ∈ (s.nodeIndex.lookup e.nodeID).getD ∅ at hkey
        rw [hpids] at hkey
        exact hnode ▸ h.index e.nodeID pids key hpids hkey
    · exact h.index node pids key hpids hkey

end
end Homed

theorem homed_tabled (home : Bytes → Bytes) :
    Tabled (fun p node => node = home p.string) fun s => s.Sound ∧ s.Homed home where
  sound hs := hs.1
  pending hs he := hs.2.pending _ _ he
  insertPending hs hname hentry hok := ⟨hs.1.insertPending hname hentry, hs.2.insertPending hok _⟩
  erasePending name hs := ⟨hs.1.erasePending name, hs.2.erasePending name⟩
  recordExpired r hs := ⟨hs.1.recordExpired r, hs.2.recordExpired r⟩
  bindName hs hpending hentry hok := ⟨hs.1.bindName hpending hentry _, hs.2.bindName hok _⟩
  loses hs hl := ⟨hs.1.loses hl, hs.2.loses hl⟩

/-- The names of a node in a shard. -/
def ownedNames (s : ShardedState) (node : Bytes) (i : Fin shardCount) : List Bytes :=
  ((s.shards i).names.keep fun _ e => decide (e.nodeID = node)).keys

/-- A removal of the names of a node with this limit takes all of them, or stops between two shards. -/
def Uncut (s : ShardedState) (node : Bytes) (limit : Int) : Prop :=
  ∀ c ∈ capOf limit, ((List.finRange shardCount).flatMap (s.ownedNames node)).length ≤ c ∨
    ∃ m < shardCount, (((List.finRange shardCount).take m).flatMap (s.ownedNames node)).length = c

theorem mem_ownedNames (hs : s.Sound) {i : Fin shardCount} :
    name ∈ s.ownedNames node i ↔ shardFor name = i ∧ ∃ e, s.entry name = some e ∧ e.nodeID = node := by
  unfold ownedNames
  rw [← AList.mem_keys, ← AList.lookup_isSome, isSome_iff_exists, lookup_keep]
  simp only [filter_eq_some_iff, decide_eq_true_iff]
  constructor
  · rintro ⟨e, he, hnode⟩
    obtain rfl := hs.indexed.placed i name e he
    exact ⟨rfl, e, he, hnode⟩
  · rintro ⟨rfl, e, he, hnode⟩
    exact ⟨e, he, hnode⟩

theorem nodup_ownedNames (s : ShardedState) (node : Bytes) (i : Fin shardCount) : (s.ownedNames node i).Nodup :=
  AList.keys_nodup _

theorem Agrees.ownedNames (h : s.Agrees t) (hs : s.Sound) (ht : t.Sound) (node : Bytes) (i : Fin shardCount) :
    (s.ownedNames node i).Perm (t.ownedNames node i) :=
  (perm_ext_iff_of_nodup (s.nodup_ownedNames node i) (t.nodup_ownedNames node i)).mpr fun n => by
    rw [mem_ownedNames hs, mem_ownedNames ht, h.entry]

theorem perm_ownedNames (hs : s.Sound) (hh : s.Homed home) {pids : KeySet Bytes}
    (hpids : s.nodeIndex.lookup node = some pids) (order : List Bytes) (i : Fin shardCount) :
    ((pids.keysIn order).flatMap (s.shards i).namesOf).Perm (s.ownedNames node i) := by
  have hkeys : (pids.keysIn order).Nodup := pids.keysIn_nodup order
  have hnodup : (walked s.shards (pids.keysIn order) [i]).Nodup := nodup_walked hs.indexed hkeys (nodup_singleton i)
  have hwalked : walked s.shards (pids.keysIn order) [i] = (pids.keysIn order).flatMap (s.shards i).namesOf :=
    flatMap_singleton _ _
  refine (perm_ext_iff_of_nodup (hwalked ▸ hnodup) (s.nodup_ownedNames node i)).mpr fun n => ?_
  rw [mem_ownedNames hs, mem_flatMap]
  constructor
  · rintro ⟨key, hkey, hmem⟩
    obtain ⟨e, he, rfl⟩ := ((hs.indexed.listed i).mem key n).mp hmem
    obtain rfl := hs.indexed.placed i n e he
    exact ⟨rfl, e, he, (hh.active n e he).trans (hh.index node pids _ hpids (mem_keysIn.mp hkey)).symm⟩
  · rintro ⟨rfl, e, he, rfl⟩
    obtain ⟨pids', hpids', hkey⟩ := hs.indexed.indexed _ n e he
    cases hpids.symm.trans hpids'
    exact ⟨e.pid.string, mem_keysIn.mpr hkey, ((hs.indexed.listed _).mem _ n).mpr ⟨e, he, rfl⟩⟩

theorem removeNode_walk (hs : s.Sound) (hh : s.Homed home) (node : Bytes) (limit : Int) (order : List Bytes) :
    ∃ shards nodeIndex removed left, ∃ names : Fin shardCount → List Bytes,
      s.removeNodeWithNames node limit order = ({ s with shards, nodeIndex }, removed, !left.isEmpty) ∧
      s.Loses shards nodeIndex (Shard.removedNames removed) ∧
      Shard.Walk (capOf limit) [] removed ((List.finRange shardCount).flatMap names) (Shard.removedNames removed) left ∧
      ∀ i, (names i).Perm (s.ownedNames node i) := by
  cases hpids : s.nodeIndex.lookup node with
  | some pids =>
    obtain ⟨shards, nodeIndex, removed, left, heq, hl, hwalk⟩ := removeNodeWithNames_spec hs.indexed hpids limit order
    exact ⟨shards, nodeIndex, removed, left, _, heq, hl, hwalk, perm_ownedNames hs hh hpids order⟩
  | none =>
    -- no process of the node is known, so it has no names
    have hnone : ∀ i, s.ownedNames node i = [] := fun i => eq_nil_iff_forall_not_mem.mpr fun n hn => by
      obtain ⟨rfl, e, he, rfl⟩ := (mem_ownedNames hs).mp hn
      obtain ⟨pids, hpids', -⟩ := hs.indexed.indexed _ n e he
      cases hpids.symm.trans hpids'
    refine ⟨s.shards, s.nodeIndex, [], [], fun _ => [], ?_, Indexed.loses hs.indexed fun i =>
      (hs.indexed.listed i).drops_absent fun _ hn => absurd hn not_mem_nil, ?_, fun i => by rw [hnone]⟩
    · unfold removeNodeWithNames
      rw [hpids]
      rfl
    · exact Shard.Walk.nil fun c _ => Nat.zero_le c

section Walks
variable {cap : Option Nat} {r r' : List RemovedNameEntry} {l l' taken taken' left left' : List Bytes}

theorem length_taken (h : Shard.Walk cap [] r l taken left) : r.length = taken.length := by
  have hlength := congrArg List.length h.removed
  simpa [Shard.removedNames] using hlength

theorem walks_length (h : Shard.Walk cap [] r l taken left) (h' : Shard.Walk cap [] r' l' taken' left')
    (hlength : l.length = l'.length) : r.length = r'.length ∧ left.length = left'.length := by
  have ht := length_taken h
  have ht' := length_taken h'
  have hl : l.length = taken.length + left.length := by rw [h.names, length_append]
  have hl' : l'.length = taken'.length + left'.length := by rw [h'.names, length_append]
  by_cases hleft : left = []
  · by_cases hleft' : left' = []
    · rw [hleft, length_nil] at hl ⊢
      rw [hleft', length_nil] at hl' ⊢
      omega
    · have hle := h.within _ (h'.full hleft')
      have hpos := length_pos_of_ne_nil hleft'
      rw [hleft, length_nil] at hl
      omega
  · have hpos := length_pos_of_ne_nil hleft
    by_cases hleft' : left' = []
    · have hle := h'.within _ (h.full hleft)
      rw [hleft', length_nil] at hl'
      omega
    · have heq : r.length = r'.length := Option.some.inj ((h.full hleft).symm.trans (h'.full hleft'))
      omega

theorem walks_perm {ι : Type} {is : List ι} {f g : ι → List Bytes} (h : Shard.Walk cap [] r (is.flatMap f) taken left)
    (h' : Shard.Walk cap [] r' (is.flatMap g) taken' left') (hfg : ∀ i, (f i).Perm (g i))
    (huncut : ∀ c ∈ cap, (is.flatMap f).length ≤ c ∨ ∃ m, ((is.take m).flatMap f).length = c) : taken.Perm taken' := by
  have hperm : ∀ l : List ι, (l.flatMap f).Perm (l.flatMap g) := fun l => List.Perm.flatMap_left l fun i _ => hfg i
  obtain ⟨hr, hleft'⟩ := walks_length h h' (hperm is).length_eq
  have ht := length_taken h
  have ht' := length_taken h'
  by_cases hleft : left = []
  · obtain rfl : left' = [] := length_eq_zero_iff.mp (by rw [← hleft', hleft, length_nil])
    have hall := h.names
    have hall' := h'.names
    rw [hleft, append_nil] at hall
    rw [append_nil] at hall'
    exact hall ▸ hall' ▸ hperm is
  · have hl : (is.flatMap f).length = taken.length + left.length := by rw [h.names, length_append]
    have hpos := length_pos_of_ne_nil hleft
    obtain ⟨m, hm⟩ := (huncut r.length (h.full hleft)).resolve_left (by omega)
    -- what was taken is the initial part of its length
    have hpart : ∀ {k : ι → List Bytes} {t d : List Bytes}, is.flatMap k = t ++ d →
      ((is.take m).flatMap k).length = t.length →
        t = (is.take m).flatMap k := by
      intro k t d hk hlen
      have hpre : (is.take m).flatMap k <+: is.flatMap k := by
        refine ⟨(is.drop m).flatMap k, ?_⟩
        rw [← flatMap_append, take_append_drop]
      exact (prefix_of_prefix_length_le ⟨d, hk.symm⟩ hpre hlen.ge).eq_of_length hlen.symm
    have hm' : ((is.take m).flatMap g).length = taken'.length := by
      rw [← (hperm (is.take m)).length_eq]
      omega
    rw [hpart h.names (by omega), hpart h'.names hm']
    exact hperm (is.take m)

end Walks

section
variable (h : s.Agrees t) (hs : s.Sound) (ht : t.Sound) (hhs : s.Homed home) (hht : t.Homed home)
include h hs ht hhs hht

theorem Agrees.applyRemoveNode (cmd : Command) (site site' : Site) :
    (s.applyRemoveNode cmd site).2 = (t.applyRemoveNode cmd site').2 ∧
      (t.Uncut cmd.nodeID cmd.limit → (s.applyRemoveNode cmd site).1.Agrees (t.applyRemoveNode cmd site').1) := by
  obtain ⟨shards, nodeIndex, removed, left, names, heq, hl, hwalk, hnames⟩ :=
    removeNode_walk hs hhs cmd.nodeID cmd.limit site.pidKeys
  obtain ⟨shards', nodeIndex', removed', left', names', heq', hl', hwalk', hnames'⟩ :=
    removeNode_walk ht hht cmd.nodeID cmd.limit site'.pidKeys
  have howned : ∀ i, (names i).Perm (t.ownedNames cmd.nodeID i) := fun i =>
    (hnames i).trans (h.ownedNames hs ht cmd.nodeID i)
  have hperm : ∀ i, (names i).Perm (names' i) := fun i => (howned i).trans (hnames' i).symm
  unfold ShardedState.applyRemoveNode
  rw [heq, heq']
  refine ⟨?_, fun huncut => ?_⟩
  · obtain ⟨hcount, hleft⟩ := walks_length hwalk hwalk' (List.Perm.flatMap_left _ fun i _ => hperm i).length_eq
    have hempty : left.isEmpty = left'.isEmpty := by
      cases left <;> cases left' <;> simp_all
    dsimp only
    rw [hcount, hempty]
  · have htaken := walks_perm hwalk hwalk' hperm fun c hc => by
      have hlen : ∀ is : List (Fin shardCount),
        (is.flatMap names).length = (is.flatMap (t.ownedNames cmd.nodeID)).length :=
        fun is => (List.Perm.flatMap_left is fun i _ => howned i).length_eq
      rcases huncut c hc with hall | ⟨m, -, hm⟩
      · exact .inl ((hlen _).trans_le hall)
      · exact .inr ⟨m, (hlen _).trans hm⟩
    exact h.loses hl hl' fun n => htaken.mem_iff

end

theorem Agrees.apply (resolve : Bytes → PID → PID → PID) (h : s.Agrees t) (hs : s.Sound ∧ s.Homed home)
    (ht : t.Sound ∧ t.Homed home) (log : Log) (site site' : Site) :
    (s.apply resolve log site).2 = (t.apply resolve log site').2 ∧
      ((∀ cmd, log.data = .ok cmd → cmd.type = .cmdRemoveNode → t.Uncut cmd.nodeID cmd.limit) →
        (s.apply resolve log site).1.Agrees (t.apply resolve log site').1) := by
  unfold ShardedState.apply
  split
  · exact ⟨rfl, fun _ => h⟩
  rename_i cmd hdata
  by_cases htype : cmd.type = .cmdRemoveNode
  · obtain ⟨hresponse, hagree⟩ := h.applyRemoveNode hs.1 ht.1 hs.2 ht.2 cmd site site'
    simp only [applyCommand, htype]
    exact ⟨hresponse, fun huncut => hagree (huncut cmd hdata htype)⟩
  · obtain ⟨hrelated, hresponse⟩ := Related.applyCommand resolve sound_tabled ⟨h, hs.1, ht.1⟩ (fun _ => trivial) htype
      log.index site site'
    exact ⟨hresponse, fun _ => hrelated.toAgrees⟩

end ShardedState
end Wippy.Global
