import Wippy.Global.Fsm
import Wippy.Lib.Reach

/-! The indexes of the global name registry. A removal is described by the names it drops. -/

namespace Wippy.Global
open Lib List Option Function Map

variable {cap : Option Nat} {removed : List RemovedNameEntry} {keys : List Bytes} {name nodeID : Bytes}
  {pids : KeySet Bytes} {is : List (Fin shardCount)} {i : Fin shardCount} {e : NameEntry}

namespace Shard

/-- The reverse index of a shard is exact. -/
structure Listed (sh : Shard) : Prop where
  nodup : ∀ key, (sh.namesOf key).Nodup
  mem : ∀ key name, name ∈ sh.namesOf key ↔ ∃ e, sh.names.lookup name = some e ∧ e.pid.string = key

/-- The shard loses the names `dropped`, and the index follows. -/
structure Drops (sh sh' : Shard) (dropped : List Bytes) : Prop where
  names : ∀ name e, sh'.names.lookup name = some e ↔ sh.names.lookup name = some e ∧ name ∉ dropped
  sublist : ∀ key, (sh'.namesOf key).Sublist (sh.namesOf key)
  mem : ∀ key name, name ∈ sh'.namesOf key ↔ name ∈ sh.namesOf key ∧ name ∉ dropped

variable {sh sh' sh'' : Shard}

theorem listed_new : Listed {} where
  nodup _ := nodup_nil
  mem key name := by
    constructor
    · intro h
      cases h
    · rintro ⟨e, he, -⟩
      cases he

theorem Listed.drops (h : sh.Listed) {dropped : List Bytes} (hd : sh.Drops sh' dropped) : sh'.Listed where
  nodup key := (h.nodup key).sublist (hd.sublist key)
  mem key name := by
    rw [hd.mem, h.mem]
    constructor
    · rintro ⟨⟨e, he, hkey⟩, hname⟩
      exact ⟨e, (hd.names name e).mpr ⟨he, hname⟩, hkey⟩
    · rintro ⟨e, he, hkey⟩
      obtain ⟨he, hname⟩ := (hd.names name e).mp he
      exact ⟨⟨e, he, hkey⟩, hname⟩

theorem Drops.trans {d d' : List Bytes} (h : sh.Drops sh' d) (h' : sh'.Drops sh'' d') : sh.Drops sh'' (d ++ d') where
  names name e := by
    rw [h'.names, h.names, mem_append, not_or, and_assoc]
  sublist key := (h'.sublist key).trans (h.sublist key)
  mem key name := by
    rw [h'.mem, h.mem, mem_append, not_or, and_assoc]

section
variable (h : sh.Listed)
include h

theorem Listed.notMem (hname : sh.names.lookup name = none) (key : Bytes) : name ∉ sh.namesOf key := by
  intro hmem
  obtain ⟨e, he, -⟩ := (h.mem key name).mp hmem
  cases hname.symm.trans he

/-- A name has one owner. -/
theorem Listed.owner {key key' : Bytes} (hmem : name ∈ sh.namesOf key) (hmem' : name ∈ sh.namesOf key') :
    key = key' := by
  obtain ⟨e, he, rfl⟩ := (h.mem key name).mp hmem
  obtain ⟨e', he', rfl⟩ := (h.mem key' name).mp hmem'
  cases he.symm.trans he'
  rfl

/-- The process `key` is left with the names `l`. -/
theorem Listed.drops_of {key : Bytes} {d l : List Bytes}
    (hnames : ∀ name e, sh'.names.lookup name = some e ↔ sh.names.lookup name = some e ∧ name ∉ d)
    (hd : ∀ name ∈ d, name ∈ sh.namesOf key) (hsub : l.Sublist (sh.namesOf key))
    (hmem : ∀ name, name ∈ l ↔ name ∈ sh.namesOf key ∧ name ∉ d)
    (hof : ∀ k, sh'.namesOf k = if k = key then l else sh.namesOf k) : sh.Drops sh' d := by
  refine ⟨hnames, fun k => ?_, fun k name => ?_⟩ <;> rw [hof] <;> split
  next hk => exact hk ▸ hsub
  · exact List.Sublist.refl _
  next hk => exact hk ▸ hmem name
  next hk => exact ⟨fun hn => ⟨hn, fun hnd => hk (h.owner hn (hd name hnd))⟩, And.left⟩

end

theorem Listed.drops_absent (h : sh.Listed) {d : List Bytes} (hd : ∀ name ∈ d, sh.names.lookup name = none) :
    sh.Drops sh d where
  names name e := by
    refine ⟨fun he => ⟨he, fun hname => ?_⟩, And.left⟩
    cases (hd name hname).symm.trans he
  sublist _ := List.Sublist.refl _
  mem key name := by
    exact ⟨fun hmem => ⟨hmem, fun hname => h.notMem (hd name hname) key hmem⟩, And.left⟩

section
variable (sh) (names : Map Bytes NameEntry)

theorem namesOf_insert (key : Bytes) (l : List Bytes) (k : Bytes) :
    namesOf { names, pidNames := sh.pidNames.insert key l } k = if k = key then l else sh.namesOf k := by
  unfold namesOf
  rw [lookup_insert_eq]
  split <;> rfl

theorem namesOf_erase (key k : Bytes) :
    namesOf { names, pidNames := sh.pidNames.erase key } k = if k = key then [] else sh.namesOf k := by
  unfold namesOf
  rw [lookup_erase_eq]
  split <;> rfl

end

theorem namesOf_removePIDName (sh : Shard) (key name k : Bytes) :
    (sh.removePIDName key name).namesOf k = if k = key then (sh.namesOf key).erase name else sh.namesOf k := by
  unfold removePIDName
  dsimp only
  split
  next hempty => rw [namesOf_erase, List.isEmpty_iff.mp hempty]
  · rw [namesOf_insert]

theorem Listed.bind (h : sh.Listed) (hname : sh.names.lookup name = none) (e : NameEntry) :
    Listed { names := sh.names.insert name e
             pidNames := sh.pidNames.insert e.pid.string (sh.namesOf e.pid.string ++ [name]) } where
  nodup key := by
    rw [namesOf_insert]
    split
    · refine nodup_append.mpr ⟨h.nodup _, nodup_singleton _, fun n hn m hm heq => ?_⟩
      rw [heq, mem_singleton.mp hm] at hn
      exact h.notMem hname _ hn
    · exact h.nodup key
  mem key n := by
    rw [namesOf_insert]
    by_cases hn : n = name
    · subst hn
      by_cases hkey : key = e.pid.string
      · simp [hkey]
      · simp [hkey, h.notMem hname, Ne.symm hkey]
    · by_cases hkey : key = e.pid.string
      · simp [hkey, hn, h.mem]
      · simp [hkey, hn, h.mem]

theorem Listed.drops_name (h : sh.Listed) (he : sh.names.lookup name = some e) :
    sh.Drops (removePIDName { sh with names := sh.names.erase name } e.pid.string name) [name] := by
  have hown : name ∈ sh.namesOf e.pid.string := (h.mem _ name).mpr ⟨e, he, rfl⟩
  refine h.drops_of (fun n e' => ?_) (fun n hn => ?_) erase_sublist (fun n => ?_)
    (namesOf_removePIDName { sh with names := sh.names.erase name } e.pid.string name)
  · rw [mem_singleton]
    exact lookup_erase_some
  · exact mem_singleton.mp hn ▸ hown
  · rw [(h.nodup _).mem_erase_iff, mem_singleton, and_comm]

/-- The names in a report of removals. -/
def removedNames (removed : List RemovedNameEntry) : List Bytes := removed.map RemovedNameEntry.name

/-- A walk over names under a cap on all removals: it took the first names and left the others, and left some only
    when the cap was reached. -/
structure Walk (cap : Option Nat) (before after : List RemovedNameEntry) (names taken left : List Bytes) : Prop where
  names : names = taken ++ left
  removed : removedNames after = removedNames before ++ taken
  within : ∀ c, cap = some c → after.length ≤ c
  full : left ≠ [] → cap = some after.length

theorem Walk.nil (h : ∀ c, cap = some c → removed.length ≤ c) : Walk cap removed removed [] [] [] :=
  ⟨rfl, (append_nil _).symm, h, fun hne => absurd rfl hne⟩

theorem Walk.append {a b c : List RemovedNameEntry} {l l' taken taken' left : List Bytes}
    (h : Walk cap a b l taken []) (h' : Walk cap b c l' taken' left) :
    Walk cap a c (l ++ l') (taken ++ taken') left where
  names := by rw [h.names, h'.names, append_nil, append_assoc]
  removed := by rw [h'.removed, h.removed, append_assoc]
  within := h'.within
  full := h'.full

theorem Walk.stop {a b : List RemovedNameEntry} {l taken left : List Bytes} (h : Walk cap a b l taken left)
    (hleft : left ≠ []) (l' : List Bytes) : Walk cap a b (l ++ l') taken (left ++ l') where
  names := by rw [h.names, append_assoc]
  removed := h.removed
  within := h.within
  full _ := h.full hleft

theorem removeNames_spec (sh : Shard) (hcap : ∀ c, cap = some c → removed.length ≤ c) {names : List Bytes}
    (hnodup : names.Nodup) (hmem : ∀ name ∈ names, ∃ e, sh.names.lookup name = some e) :
    ∃ sh' removed' taken left, removeNames cap sh removed names = (sh', removed', left) ∧
      Walk cap removed removed' names taken left ∧ sh'.pidNames = sh.pidNames ∧
      ∀ name e, sh'.names.lookup name = some e ↔ sh.names.lookup name = some e ∧ name ∉ taken := by
  induction names generalizing sh removed with
  | nil => exact ⟨sh, removed, [], [], rfl, Walk.nil hcap, rfl, fun name e => by simp⟩
  | cons name names ih =>
    obtain ⟨hname, hnodup⟩ := nodup_cons.mp hnodup
    by_cases hfull : cap.any (· ≤ removed.length) = true
    · -- the cap is reached
      obtain ⟨c, rfl, hc⟩ : ∃ c, cap = some c ∧ c ≤ removed.length := by
        cases cap with
        | none => cases hfull
        | some c => exact ⟨c, rfl, of_decide_eq_true hfull⟩
      have heq : c = removed.length := Nat.le_antisymm hc (hcap c rfl)
      refine ⟨sh, removed, [], name :: names, ?_, ⟨rfl, (append_nil _).symm, hcap, fun _ => congrArg some heq⟩, rfl,
        fun name e => by simp⟩
      rw [removeNames, if_pos hfull]
    · obtain ⟨e, he⟩ := hmem name mem_cons_self
      have hdrop : sh.dropNameLocked name = ({ sh with names := sh.names.erase name }, some e) := by
        unfold dropNameLocked
        rw [he]
      have hcap' : ∀ c, cap = some c → (removed ++ [(⟨name, e.pid⟩ : RemovedNameEntry)]).length ≤ c := by
        rintro c rfl
        rw [length_append, length_singleton]
        by_contra hlt
        exact hfull (decide_eq_true (by omega))
      obtain ⟨sh', removed', taken, left, heq, hwalk, hpid, hnames⟩ :=
        ih { sh with names := sh.names.erase name } hcap' hnodup fun n hn => by
          obtain ⟨e', he'⟩ := hmem n (mem_cons_of_mem _ hn)
          exact ⟨e', lookup_erase_some.mpr ⟨he', fun heq => hname (heq ▸ hn)⟩⟩
      refine ⟨sh', removed', name :: taken, left, ?_, ⟨?_, ?_, hwalk.within, hwalk.full⟩, hpid, fun n e' => ?_⟩
      · rw [removeNames, if_neg hfull, hdrop]
        exact heq
      · rw [hwalk.names, cons_append]
      · rw [hwalk.removed, removedNames, map_append, append_assoc]
        rfl
      · rw [hnames, lookup_erase_some, mem_cons, not_or, and_assoc]

theorem Listed.drops_first (h : sh.Listed) {key : Bytes} {taken left : List Bytes}
    (hof : sh.namesOf key = taken ++ left)
    (hnames : ∀ name e, sh'.names.lookup name = some e ↔ sh.names.lookup name = some e ∧ name ∉ taken)
    (hof' : ∀ k, sh'.namesOf k = if k = key then left else sh.namesOf k) : sh.Drops sh' taken := by
  have hnodup := h.nodup key
  rw [hof] at hnodup
  refine h.drops_of hnames (fun name hname => ?_) ?_ (fun name => ?_) hof'
  · exact hof ▸ mem_append_left _ hname
  · exact hof ▸ sublist_append_right _ _
  · rw [hof, mem_append]
    constructor
    · exact fun hleft => ⟨.inr hleft, fun htaken => disjoint_of_nodup_append hnodup htaken hleft⟩
    · rintro ⟨htaken | hleft, hnot⟩
      · exact absurd htaken hnot
      · exact hleft

theorem removeKeys_spec (h : sh.Listed) (hcap : ∀ c, cap = some c → removed.length ≤ c) (hkeys : keys.Nodup) :
    ∃ sh' removed' taken left, removeKeys cap sh removed keys = (sh', removed', !left.isEmpty) ∧
      Walk cap removed removed' (keys.flatMap sh.namesOf) taken left ∧ sh.Drops sh' taken := by
  induction keys generalizing sh removed with
  | nil => exact ⟨sh, removed, [], [], rfl, Walk.nil hcap, h.drops_absent (by simp)⟩
  | cons key keys ih =>
    obtain ⟨hkey, hkeys⟩ := nodup_cons.mp hkeys
    rw [flatMap_cons]
    cases hl : sh.pidNames.lookup key with
    | none =>
      have hnil : sh.namesOf key = [] := by rw [namesOf, hl, getD_none]
      obtain ⟨sh', removed', taken, left, heq, hwalk, hdrops⟩ := ih h hcap hkeys
      refine ⟨sh', removed', taken, left, ?_, by rwa [hnil], hdrops⟩
      rw [removeKeys, hl]
      exact heq
    | some names =>
      have hnames : sh.namesOf key = names := by rw [namesOf, hl, getD_some]
      obtain ⟨sh₁, removed₁, taken₁, left₁, heq₁, hwalk₁, hpid₁, hnames₁⟩ :=
        removeNames_spec sh hcap (hnames ▸ h.nodup key) fun name hname => by
          obtain ⟨e, he, -⟩ := (h.mem key name).mp (hnames ▸ hname)
          exact ⟨e, he⟩
      have hof₁ : ∀ k, sh₁.namesOf k = sh.namesOf k := fun k => by rw [namesOf, namesOf, hpid₁]
      rw [hnames]
      by_cases hleft : left₁ = []
      · subst hleft
        -- all names of this process are gone, and the walk goes on
        let sh₂ : Shard := { sh₁ with pidNames := sh₁.pidNames.erase key }
        have hof₂ : ∀ k, sh₂.namesOf k = if k = key then [] else sh.namesOf k := fun k => by
          rw [namesOf_erase, hof₁]
        have hdrops : sh.Drops sh₂ taken₁ := h.drops_first (hnames.trans hwalk₁.names) hnames₁ hof₂
        have hflat : keys.flatMap sh₂.namesOf = keys.flatMap sh.namesOf :=
          flatMap_congr fun k hk => by
            have hne : k ≠ key := fun heq => hkey (heq ▸ hk)
            rw [hof₂, if_neg hne]
        obtain ⟨sh', removed', taken, left, heq, hwalk, hdrops'⟩ := ih (h.drops hdrops) hwalk₁.within hkeys
        refine ⟨sh', removed', taken₁ ++ taken, left, ?_, hwalk₁.append (hflat ▸ hwalk), hdrops.trans hdrops'⟩
        rw [removeKeys, hl]
        dsimp only
        rw [heq₁]
        exact heq
      · let sh₂ : Shard := { sh₁ with pidNames := sh₁.pidNames.insert key left₁ }
        have hof₂ : ∀ k, sh₂.namesOf k = if k = key then left₁ else sh.namesOf k := fun k => by
          rw [namesOf_insert, hof₁]
        refine ⟨sh₂, removed₁, taken₁, left₁ ++ keys.flatMap sh.namesOf, ?_, hwalk₁.stop hleft _,
          h.drops_first (hnames.trans hwalk₁.names) hnames₁ hof₂⟩
        rw [removeKeys, hl]
        dsimp only
        rw [heq₁]
        obtain ⟨name, left, rfl⟩ := exists_cons_of_ne_nil hleft
        rfl

end Shard

/-- Every shard is exact, and the node index has the process of every name. -/
structure Indexed (shards : Fin shardCount → Shard) (nodeIndex : Map Bytes (KeySet Bytes)) : Prop where
  listed : ∀ i, (shards i).Listed
  placed : ∀ i name e, (shards i).names.lookup name = some e → shardFor name = i
  indexed : ∀ i name e, (shards i).names.lookup name = some e →
    ∃ pids, nodeIndex.lookup e.nodeID = some pids ∧ e.pid.string ∈ pids

/-- Every shard loses the names `dropped`. -/
def Drops (shards shards' : Fin shardCount → Shard) (dropped : List Bytes) : Prop :=
  ∀ i, (shards i).Drops (shards' i) dropped

theorem indexed_new : Indexed (fun _ => {}) ∅ where
  listed _ := Shard.listed_new
  placed _ _ _ he := by cases he
  indexed _ _ _ he := by cases he

variable {shards shards' : Fin shardCount → Shard} {nodeIndex nodeIndex' : Map Bytes (KeySet Bytes)}
  {dropped : List Bytes}

section
variable (h : Indexed shards nodeIndex)
include h

theorem Indexed.drops (hd : Drops shards shards' dropped)
    (hindex : ∀ i name e, (shards' i).names.lookup name = some e → ∀ pids, nodeIndex.lookup e.nodeID = some pids →
      e.pid.string ∈ pids → ∃ pids, nodeIndex'.lookup e.nodeID = some pids ∧ e.pid.string ∈ pids) :
    Indexed shards' nodeIndex' where
  listed i := (h.listed i).drops (hd i)
  placed i name e he := h.placed i name e (((hd i).names name e).mp he).1
  indexed i name e he := by
    obtain ⟨pids, hpids, hkey⟩ := h.indexed i name e (((hd i).names name e).mp he).1
    exact hindex i name e he pids hpids hkey

theorem Indexed.drops_update {sh : Shard} (hd : (shards i).Drops sh dropped)
    (hown : ∀ name ∈ dropped, shardFor name = i) : Drops shards (Function.update shards i sh) dropped := by
  refine (forall_update_iff shards fun j sh' => (shards j).Drops sh' dropped).mpr ⟨hd, fun j hj => ?_⟩
  refine (h.listed j).drops_absent fun name hname => eq_none_iff_forall_ne_some.mpr fun e he => hj ?_
  exact (h.placed j name e he).symm.trans (hown name hname)

theorem Indexed.shardFor_of_mem {key name : Bytes} (hmem : name ∈ (shards i).namesOf key) : shardFor name = i := by
  obtain ⟨e, he, -⟩ := ((h.listed i).mem key name).mp hmem
  exact h.placed i name e he

end

namespace ShardedState
variable {s : ShardedState}

/-- The names that the processes `keys` have in the shards `is`. -/
def walked (shards : Fin shardCount → Shard) (keys : List Bytes) (is : List (Fin shardCount)) : List Bytes :=
  is.flatMap fun i => keys.flatMap (shards i).namesOf

theorem removeShards_spec (h : Indexed s.shards s.nodeIndex) (cap : Option Nat) (removed : List RemovedNameEntry)
    (hcap : ∀ c, cap = some c → removed.length ≤ c) (hkeys : keys.Nodup) (his : is.Nodup) :
    ∃ shards removed' taken left,
      removeShards cap keys s removed is = ({ s with shards }, removed', !left.isEmpty) ∧
      Shard.Walk cap removed removed' (walked s.shards keys is) taken left ∧ Drops s.shards shards taken := by
  induction is generalizing s removed with
  | nil =>
    exact ⟨s.shards, removed, [], [], rfl, Shard.Walk.nil hcap, fun i => (h.listed i).drops_absent (by simp)⟩
  | cons i is ih =>
    obtain ⟨hi, his⟩ := nodup_cons.mp his
    obtain ⟨sh, removed₁, taken₁, left₁, heq₁, hwalk₁, hdrops₁⟩ := Shard.removeKeys_spec (h.listed i) hcap hkeys
    have hown : ∀ name ∈ taken₁, shardFor name = i := by
      intro name hname
      have hmem : name ∈ keys.flatMap (s.shards i).namesOf := by
        rw [hwalk₁.names]
        exact mem_append_left _ hname
      obtain ⟨key, -, hkey⟩ := mem_flatMap.mp hmem
      exact h.shardFor_of_mem hkey
    have hdrops := h.drops_update hdrops₁ hown
    have hother : walked (Function.update s.shards i sh) keys is = walked s.shards keys is :=
      flatMap_congr fun j hj => by
        have hne : j ≠ i := fun heq => hi (heq ▸ hj)
        rw [update_of_ne hne]
    have hcons : walked s.shards keys (i :: is) = keys.flatMap (s.shards i).namesOf ++ walked s.shards keys is :=
      flatMap_cons
    rw [hcons]
    by_cases hleft : left₁ = []
    · subst hleft
      obtain ⟨shards, removed', taken, left, heq, hwalk, hdrops'⟩ :=
        ih (s := s.setShard i sh)
          (h.drops hdrops fun _ _ _ _ pids hpids hkey => ⟨pids, hpids, hkey⟩) _ hwalk₁.within his
      refine ⟨shards, removed', taken₁ ++ taken, left, ?_, hwalk₁.append (hother ▸ hwalk),
        fun j => (hdrops j).trans (hdrops' j)⟩
      rw [removeShards, heq₁]
      exact heq
    · refine ⟨Function.update s.shards i sh, removed₁, taken₁, left₁ ++ walked s.shards keys is, ?_,
        hwalk₁.stop hleft _,
        hdrops⟩
      rw [removeShards, heq₁]
      obtain ⟨name, left, rfl⟩ := exists_cons_of_ne_nil hleft
      rfl

theorem entry_bindName (s : ShardedState) (name : Bytes) (e : NameEntry) (n : Bytes) :
    (s.bindName name e).entry n = if n = name then some e else s.entry n := by
  simp only [entry, bindName, addToNodeIndex, setShard]
  by_cases hshard : shardFor n = shardFor name
  · rw [hshard, update_self, lookup_insert_eq]
  · have hne : n ≠ name := fun heq => hshard (congrArg shardFor heq)
    rw [update_of_ne hshard, if_neg hne]

theorem lookup_addToNodeIndex (s : ShardedState) (nodeID key n : Bytes) :
    (s.addToNodeIndex nodeID key).nodeIndex.lookup n =
      if n = nodeID then some (KeySet.add ((s.nodeIndex.lookup nodeID).getD ∅) key) else s.nodeIndex.lookup n :=
  lookup_insert_eq _ _ _ _

theorem mem_addToNodeIndex {nodeID key n k : Bytes} (hpids : s.nodeIndex.lookup n = some pids) (hk : k ∈ pids) :
    ∃ pids, (s.addToNodeIndex nodeID key).nodeIndex.lookup n = some pids ∧ k ∈ pids := by
  rw [lookup_addToNodeIndex]
  split
  next hn =>
    subst hn
    refine ⟨_, rfl, KeySet.mem_add.mpr (.inr ?_)⟩
    rw [hpids]
    exact hk
  · exact ⟨pids, hpids, hk⟩

theorem Indexed.bindName (h : Indexed s.shards s.nodeIndex) (hname : s.entry name = none) (e : NameEntry) :
    Indexed (s.bindName name e).shards (s.bindName name e).nodeIndex := by
  have hcases : ∀ i n e', ((s.bindName name e).shards i).names.lookup n = some e' →
      (n = name ∧ e' = e ∧ shardFor n = i) ∨ (s.shards i).names.lookup n = some e' := by
    intro i n e' he'
    simp only [ShardedState.bindName, addToNodeIndex, setShard] at he'
    by_cases hi : i = shardFor name
    · subst hi
      rw [update_self] at he'
      rcases lookup_insert_some he' with ⟨rfl, rfl⟩ | ⟨-, he'⟩
      · exact .inl ⟨rfl, rfl, rfl⟩
      · exact .inr he'
    · rw [update_of_ne hi] at he'
      exact .inr he'
  refine ⟨?_, fun i n e' he' => ?_, fun i n e' he' => ?_⟩
  · exact (forall_update_iff s.shards fun _ sh => sh.Listed).mpr ⟨(h.listed _).bind hname e, fun i _ => h.listed i⟩
  · rcases hcases i n e' he' with ⟨-, -, hi⟩ | he'
    · exact hi
    · exact h.placed i n e' he'
  · rcases hcases i n e' he' with ⟨-, rfl, -⟩ | he'
    · refine ⟨_, (lookup_addToNodeIndex _ _ _ _).trans (if_pos rfl), KeySet.mem_add.mpr (.inl rfl)⟩
    · obtain ⟨pids, hpids, hkey⟩ := h.indexed i n e' he'
      exact mem_addToNodeIndex hpids hkey

/-- The second node index has all of the first. -/
def IndexSub (nodeIndex nodeIndex' : Map Bytes (KeySet Bytes)) : Prop :=
  ∀ n pids, nodeIndex.lookup n = some pids → ∃ pids', nodeIndex'.lookup n = some pids' ∧ ∀ k ∈ pids, k ∈ pids'

/-- The tables are those of the state without the names `dropped`. -/
structure Loses (s : ShardedState) (shards : Fin shardCount → Shard) (nodeIndex : Map Bytes (KeySet Bytes))
    (dropped : List Bytes) : Prop where
  indexed : Indexed shards nodeIndex
  sub : IndexSub nodeIndex s.nodeIndex
  drops : Drops s.shards shards dropped

theorem Loses.entry (hl : s.Loses shards nodeIndex dropped) (name : Bytes) :
    ({ s with shards, nodeIndex }).entry name = if name ∈ dropped then none else s.entry name := by
  refine Option.ext fun e => ((hl.drops (shardFor name)).names name e).trans ?_
  by_cases hname : name ∈ dropped <;> simp [hname, ShardedState.entry]

section
variable (h : Indexed s.shards s.nodeIndex)
include h

theorem Indexed.loses (hd : Drops s.shards shards dropped) : s.Loses shards s.nodeIndex dropped where
  indexed := h.drops hd fun _ _ _ _ pids hpids hkey => ⟨pids, hpids, hkey⟩
  sub _ pids hpids := ⟨pids, hpids, fun _ hk => hk⟩
  drops := hd

theorem unregisterEntry_spec (he : s.entry name = some e) :
    ∃ shards, s.unregisterEntry name = ({ s with shards }, some e) ∧ s.Loses shards s.nodeIndex [name] := by
  have hd := h.drops_update ((h.listed (shardFor name)).drops_name he) fun n hn =>
    congrArg shardFor (mem_singleton.mp hn)
  refine ⟨_, ?_, Indexed.loses h hd⟩
  unfold unregisterEntry
  rw [he]
  rfl

theorem mem_walked (keys : List Bytes) (name : Bytes) :
    name ∈ walked s.shards keys (List.finRange shardCount) ↔ ∃ e, s.entry name = some e ∧ e.pid.string ∈ keys := by
  unfold walked
  simp only [mem_flatMap, mem_finRange, true_and]
  constructor
  · rintro ⟨i, key, hkey, hmem⟩
    obtain ⟨e, he, rfl⟩ := ((h.listed i).mem key name).mp hmem
    obtain rfl := h.placed i name e he
    exact ⟨e, he, hkey⟩
  · rintro ⟨e, he, hkey⟩
    exact ⟨shardFor name, e.pid.string, hkey, ((h.listed _).mem _ name).mpr ⟨e, he, rfl⟩⟩

theorem nodup_walked (hkeys : keys.Nodup) (his : is.Nodup) : (walked s.shards keys is).Nodup := by
  refine nodup_flatMap.mpr ⟨fun i _ => nodup_flatMap.mpr ⟨fun key _ => (h.listed i).nodup key, ?_⟩, ?_⟩
  · exact hkeys.imp fun hne name hmem hmem' => hne ((h.listed i).owner hmem hmem')
  · refine his.imp fun hne name hmem hmem' => hne ?_
    obtain ⟨key, -, hkey⟩ := mem_flatMap.mp hmem
    obtain ⟨key', -, hkey'⟩ := mem_flatMap.mp hmem'
    exact (h.shardFor_of_mem hkey).symm.trans (h.shardFor_of_mem hkey')

end

/-- The node index without a process. -/
def dropKey (nodeIndex : Map Bytes (KeySet Bytes)) (key : Bytes) : Map Bytes (KeySet Bytes) :=
  (nodeIndex.mapVal fun _ pids => pids.erase key).keep fun _ pids => !pids.keys.isEmpty

theorem lookup_dropKey (nodeIndex : Map Bytes (KeySet Bytes)) (key n : Bytes) :
    (dropKey nodeIndex key).lookup n =
      ((nodeIndex.lookup n).map fun pids => pids.erase key).filter fun pids => !pids.keys.isEmpty := by
  rw [dropKey, lookup_keep, lookup_mapVal]

theorem removePIDWithNames_spec (h : Indexed s.shards s.nodeIndex) (p : PID) :
    ∃ shards nodeIndex removed, s.removePIDWithNames p = ({ s with shards, nodeIndex }, removed) ∧
      s.Loses shards nodeIndex (Shard.removedNames removed) ∧
      Shard.removedNames removed = walked s.shards [p.string] (List.finRange shardCount) := by
  obtain ⟨shards, removed, taken, left, heq, hwalk, hdrops⟩ :=
    removeShards_spec h none [] (fun c _ => Nat.zero_le c) (nodup_singleton p.string) (nodup_finRange shardCount)
  obtain rfl : left = [] := by
    by_contra hleft
    cases hwalk.full hleft
  have htaken : Shard.removedNames removed = taken := hwalk.removed
  have hall : taken = walked s.shards [p.string] (List.finRange shardCount) := by rw [hwalk.names, append_nil]
  refine ⟨shards, dropKey s.nodeIndex p.string, removed, ?_, ⟨?_, ?_, htaken ▸ hdrops⟩, htaken.trans hall⟩
  · unfold removePIDWithNames
    dsimp only
    rw [heq]
    rfl
  · refine h.drops hdrops fun i name e he pids hpids hkey => ?_
    have hne : e.pid.string ≠ p.string := by
      intro heq
      obtain ⟨he, hname⟩ := ((hdrops i).names name e).mp he
      obtain rfl := h.placed i name e he
      refine hname (hall ▸ (mem_walked h _ name).mpr ⟨e, he, ?_⟩)
      rw [heq]
      exact mem_singleton_self _
    have hmem : e.pid.string ∈ pids.erase p.string := AList.mem_erase.mpr ⟨hne, hkey⟩
    refine ⟨pids.erase p.string, ?_, hmem⟩
    rw [lookup_dropKey, hpids, map_some, filter_some]
    cases hkeys : (pids.erase p.string).keys with
    | nil => exact absurd hkeys (ne_nil_of_mem hmem)
    | cons _ _ => rfl
  · intro n pids hpids
    rw [lookup_dropKey, filter_eq_some_iff, map_eq_some_iff] at hpids
    obtain ⟨⟨pids', hpids', rfl⟩, -⟩ := hpids
    exact ⟨pids', hpids', fun k hk => (AList.mem_erase.mp hk).2⟩

theorem mem_of_mem_foldl_erase {k : Bytes} (h : k ∈ keys.foldl (fun pids k => pids.erase k) pids) : k ∈ pids := by
  induction keys generalizing pids with
  | nil => exact h
  | cons key keys ih => exact (AList.mem_erase.mp (ih h)).2

/-- The node index with other processes for a node, or without the node if there are none. -/
def cleaned (nodeIndex : Map Bytes (KeySet Bytes)) (nodeID : Bytes) (pids : KeySet Bytes) : Map Bytes (KeySet Bytes) :=
  if pids.keys.isEmpty then nodeIndex.erase nodeID else nodeIndex.insert nodeID pids

theorem lookup_cleaned_ne (nodeIndex : Map Bytes (KeySet Bytes)) {nodeID n : Bytes} (pids : KeySet Bytes)
    (hn : n ≠ nodeID) :
    (cleaned nodeIndex nodeID pids).lookup n = nodeIndex.lookup n := by
  unfold cleaned
  split
  · rw [lookup_erase_eq, if_neg hn]
  · rw [lookup_insert_eq, if_neg hn]

theorem cleaned_self {pids pids' : KeySet Bytes} (h : (cleaned nodeIndex nodeID pids).lookup nodeID = some pids') :
    pids' = pids := by
  unfold cleaned at h
  split at h
  · rw [AList.lookup_erase] at h
    cases h
  · rw [AList.lookup_insert] at h
    exact (Option.some.inj h).symm

/-- The limit of a removal, if it has one. -/
def capOf (limit : Int) : Option Nat := if limit ≤ 0 then none else some limit.toNat

theorem removeNodeWithNames_spec (h : Indexed s.shards s.nodeIndex) (hpids : s.nodeIndex.lookup nodeID = some pids)
    (limit : Int) (order : List Bytes) :
    ∃ shards nodeIndex removed left,
      s.removeNodeWithNames nodeID limit order = ({ s with shards, nodeIndex }, removed, !left.isEmpty) ∧
      s.Loses shards nodeIndex (Shard.removedNames removed) ∧
      Shard.Walk (capOf limit) [] removed (walked s.shards (pids.keysIn order) (List.finRange shardCount))
        (Shard.removedNames removed) left := by
  have hkeys : (pids.keysIn order).Nodup := pids.keysIn_nodup order
  obtain ⟨shards, removed, taken, left, heq, hwalk, hdrops⟩ :=
    removeShards_spec h (capOf limit) [] (fun c _ => Nat.zero_le c) hkeys (nodup_finRange shardCount)
  obtain rfl : Shard.removedNames removed = taken := hwalk.removed
  have heq' : removeShards (if limit ≤ 0 then none else some limit.toNat) (pids.keysIn order) s []
      (List.finRange shardCount) = ({ s with shards }, removed, !left.isEmpty) := heq
  by_cases hleft : left = []
  · subst hleft
    refine ⟨shards, cleaned s.nodeIndex nodeID ((pids.keysIn order).foldl (fun pids k => pids.erase k) pids),
      removed, [], ?_, ⟨?_, ?_, hdrops⟩, hwalk⟩
    · unfold removeNodeWithNames
      rw [hpids]
      dsimp only
      rw [heq']
      rfl
    · refine h.drops hdrops fun i name e he pids' hpids' hkey => ?_
      -- a name of the node is gone, so the name at hand is another node's
      have hne : e.nodeID ≠ nodeID := by
        intro heq
        obtain ⟨he, hname⟩ := ((hdrops i).names name e).mp he
        obtain rfl := h.placed i name e he
        rw [heq, hpids] at hpids'
        cases hpids'
        refine hname ?_
        have hmem := (mem_walked h (pids.keysIn order) name).mpr ⟨e, he, mem_keysIn.mpr hkey⟩
        rw [hwalk.names, append_nil] at hmem
        exact hmem
      exact ⟨pids', (lookup_cleaned_ne _ _ hne).trans hpids', hkey⟩
    · intro n pids' hpids'
      by_cases hn : n = nodeID
      · subst hn
        obtain rfl := cleaned_self hpids'
        exact ⟨pids, hpids, fun _ hk => mem_of_mem_foldl_erase hk⟩
      · exact ⟨pids', (lookup_cleaned_ne _ _ hn).symm.trans hpids', fun _ hk => hk⟩
  · refine ⟨shards, s.nodeIndex, removed, left, ?_, Indexed.loses h hdrops, hwalk⟩
    obtain ⟨name, left, rfl⟩ := exists_cons_of_ne_nil hleft
    unfold removeNodeWithNames
    rw [hpids]
    dsimp only
    rw [heq']
    rfl

end ShardedState
end Wippy.Global
