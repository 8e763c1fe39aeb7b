import Wippy.Crdt.State
import Wippy.Lib.Contest

/-! What the operations of a replica read and write: the intern table only grows and stays a bijection, and
    a merge is a contest between the held and the received entry (`supersedes`). -/

namespace Wippy.Crdt
open Lib List Option Map

/-! ### The intern table -/

/-- Strings and ids are inverse to each other, and every held entry has an interned origin. -/
structure State.Interned (s : State) : Prop where
  inverse : ∀ node id, s.nodeIDs.lookup node = some id ↔ s.stringIDs[id]? = some node
  held : ∀ key e, s.entries.lookup key = some e → e.node < s.stringIDs.length
  keyed : ∀ key e, s.entries.lookup key = some e → e.key = key
  own : s.localNode < s.stringIDs.length

namespace State
variable {s : State} {node node' : Bytes} {id id' : Nat} {e cur : Entry} {d : Delta} {key : Bytes}

theorem nodeString_of_getElem? (h : s.stringIDs[id]? = some node) : s.nodeString id = node := by
  simp [nodeString, h]

section
variable (s) (node)

theorem internNode_cases :
    (s.nodeIDs.lookup node = some (s.internNode node).2 ∧ (s.internNode node).1 = s) ∨
      (s.nodeIDs.lookup node = none ∧ (s.internNode node).2 = s.stringIDs.length ∧
        (s.internNode node).1 = { s with
          nodeIDs := s.nodeIDs.insert node s.stringIDs.length
          stringIDs := s.stringIDs ++ [node]
          cv := grow s.cv s.stringIDs.length }) := by
  unfold internNode
  split
  next id h =>
    exact Or.inl ⟨h, rfl⟩
  next h =>
    exact Or.inr ⟨h, rfl, rfl⟩

@[simp] theorem internNode_entries : (s.internNode node).1.entries = s.entries := by
  rcases internNode_cases s node with ⟨-, h⟩ | ⟨-, -, h⟩ <;> rw [h]

@[simp] theorem internNode_localNode : (s.internNode node).1.localNode = s.localNode := by
  rcases internNode_cases s node with ⟨-, h⟩ | ⟨-, -, h⟩ <;> rw [h]

@[simp] theorem internNode_localCounter : (s.internNode node).1.localCounter = s.localCounter := by
  rcases internNode_cases s node with ⟨-, h⟩ | ⟨-, -, h⟩ <;> rw [h]

@[simp] theorem internNode_history : (s.internNode node).1.history = s.history := by
  rcases internNode_cases s node with ⟨-, h⟩ | ⟨-, -, h⟩ <;> rw [h]

theorem internNode_kept (h : s.stringIDs[id]? = some node') : (s.internNode node).1.stringIDs[id]? = some node' := by
  rcases internNode_cases s node with ⟨-, hs⟩ | ⟨-, -, hs⟩
  · rw [hs]
    exact h
  · rw [hs]
    have hlt : id < s.stringIDs.length := (List.getElem?_eq_some_iff.mp h).1
    rw [getElem?_append_left hlt]
    exact h

end

theorem Interned.internNode (hs : s.Interned) (node : Bytes) : (s.internNode node).1.Interned := by
  rcases internNode_cases s node with ⟨-, h⟩ | ⟨hnone, -, h⟩
  · rw [h]
    exact hs
  rw [h]
  refine ⟨fun n i => ?_, fun key e he => ?_, hs.keyed, ?_⟩
  · rw [lookup_insert_eq, getElem?_append]
    by_cases hn : n = node
    · -- The new string was not in the table, so no earlier id has it.
      subst hn
      have hout : ∀ i, s.stringIDs[i]? ≠ some n := fun i hi => by
        rw [← hs.inverse, hnone] at hi
        cases hi
      rw [if_pos rfl, Option.some.injEq]
      split
      next hlt =>
        exact ⟨fun h => absurd h (by omega), fun h => absurd h (hout i)⟩
      constructor
      · rintro rfl
        simp
      · intro h
        have := (List.getElem?_eq_some_iff.mp h).1
        simp only [length_singleton] at this
        omega
    · rw [if_neg hn, hs.inverse]
      split
      · exact Iff.rfl
      rename_i hge
      constructor
      · intro h
        exact absurd (List.getElem?_eq_some_iff.mp h).1 hge
      · intro h
        have := mem_of_getElem? h
        exact absurd (mem_singleton.mp this) hn
  · have := hs.held key e he
    simp only [length_append, length_singleton]
    omega
  · have := hs.own
    simp only [length_append, length_singleton]
    omega

theorem Interned.internNode_id (hs : s.Interned) (node : Bytes) :
    (s.internNode node).1.stringIDs[(s.internNode node).2]? = some node := by
  rcases internNode_cases s node with ⟨hid, h⟩ | ⟨-, hid, h⟩
  · rw [h]
    exact (hs.inverse _ _).mp hid
  · rw [h, hid]
    simp

theorem Interned.newState (node : Bytes) : (newState node).Interned := by
  refine ⟨fun n i => ?_, fun _ _ he => (nomatch he), fun _ _ he => (nomatch he), ?_⟩
  · show (AList.insert node 0 ∅ : Map Bytes Nat).lookup n = some i ↔ ([node])[i]? = some n
    rw [lookup_insert_eq]
    by_cases hn : n = node
    · subst hn
      cases i <;> simp
    rw [if_neg hn]
    constructor
    · intro h
      cases h
    · intro h
      exact absurd (mem_singleton.mp (mem_of_getElem? h)) hn
  · show 0 < ([node]).length
    simp

theorem Interned.nodeString_inj (hs : s.Interned) (h : id < s.stringIDs.length) (h' : id' < s.stringIDs.length) :
    s.nodeString id = s.nodeString id' ↔ id = id' := by
  refine ⟨fun heq => ?_, fun heq => heq ▸ rfl⟩
  have hget : s.stringIDs[id]? = some (s.nodeString id) := by simp [nodeString, h]
  have hget' : s.stringIDs[id']? = some (s.nodeString id') := by simp [nodeString, h']
  rw [← hs.inverse] at hget hget'
  rw [heq, hget'] at hget
  exact (Option.some.inj hget).symm

end State

/-- Whether a received `d` takes the place of `cur`, in terms of origin strings. -/
def Delta.supersedes (d cur : Delta) : Bool :=
  if d.origin = cur.origin ∧ d.counter ≠ cur.counter then decide (cur.counter < d.counter)
  else if d.wall ≠ cur.wall then decide (cur.wall < d.wall)
  else if d.deleted != cur.deleted then d.deleted
  else decide (cur.origin < d.origin)

namespace State
variable {s : State} {e cur : Entry} {d : Delta} {n : Nat}

/-- `s` after it installed a received entry, with new counts. -/
def merged (s : State) (e : Entry) (live tombstone : Int) : State :=
  { s with
    entries := s.entries.insert e.key e
    history := s.history ++ [Write.merged e]
    live
    tombstone }.bumpCV e.node e.counter

theorem apply_cases (s : State) (e : Entry) :
    ((s.apply e).1 = s ∧ (s.apply e).2.1 = .noop) ∨
      ((s.apply e).2.1 ≠ .noop ∧ (s.apply e).2.2 = e ∧
        ∃ live tombstone, (s.apply e).1 = s.merged e live tombstone) := by
  have swapped : ∀ cur, ∃ live tombstone, s.swap cur e = s.merged e live tombstone := fun cur => ⟨_, _, rfl⟩
  unfold apply
  split
  · exact Or.inr ⟨by simp, rfl, _, _, rfl⟩
  rename_i cur _
  split
  · exact Or.inl ⟨rfl, rfl⟩
  split
  · exact Or.inr ⟨by simp, rfl, swapped cur⟩
  split
  · exact Or.inr ⟨by simp, rfl, swapped cur⟩
  split
  · exact Or.inl ⟨rfl, rfl⟩
  split
  · split
    · exact Or.inr ⟨by simp, rfl, swapped cur⟩
    · exact Or.inl ⟨rfl, rfl⟩
  · dsimp only
    split
    · exact Or.inr ⟨by simp, rfl, swapped cur⟩
    · exact Or.inl ⟨rfl, rfl⟩

/-- A merge refuses an entry exactly when the held one is not superseded by it. The compact ids agree with
    the origin strings because both are interned. -/
theorem apply_noop_iff (hs : s.Interned) (hcur : s.entries.lookup e.key = some cur) (he : e.node < s.stringIDs.length) :
    (s.apply e).2.1 = .noop ↔ (s.delta e).supersedes (s.delta cur) = false := by
  have hnode : s.nodeString e.node = s.nodeString cur.node ↔ e.node = cur.node :=
    hs.nodeString_inj he (hs.held _ _ hcur)
  unfold apply Delta.supersedes compareDots delta Entry.withOrigin
  grind

theorem apply_of_none (hnone : s.entries.lookup e.key = none) : (s.apply e).2.1 = .applied := by
  simp [apply, hnone]

section
variable (s) (e)

theorem apply_table : (s.apply e).1.stringIDs = s.stringIDs ∧ (s.apply e).1.nodeIDs = s.nodeIDs ∧
    (s.apply e).1.localNode = s.localNode ∧ (s.apply e).1.localCounter = s.localCounter := by
  rcases apply_cases s e with ⟨h, -⟩ | ⟨-, -, live, tombstone, h⟩ <;> rw [h] <;> exact ⟨rfl, rfl, rfl, rfl⟩

theorem apply_entries :
    (s.apply e).1.entries = if (s.apply e).2.1 = .noop then s.entries else s.entries.insert e.key e := by
  rcases apply_cases s e with ⟨h, hno⟩ | ⟨hno, -, live, tombstone, h⟩
  · rw [h, if_pos hno]
  · rw [h, if_neg hno]
    rfl

end

theorem Interned.of_entries {t : State} (hs : s.Interned) (hids : t.nodeIDs = s.nodeIDs)
    (hstrings : t.stringIDs = s.stringIDs) (hlocal : t.localNode = s.localNode)
    (hentries : ∀ key x, t.entries.lookup key = some x →
      s.entries.lookup key = some x ∨ x.node < s.stringIDs.length ∧ x.key = key) : t.Interned := by
  have held : ∀ key x, t.entries.lookup key = some x → x.node < s.stringIDs.length ∧ x.key = key := fun key x hx =>
    (hentries key x hx).elim (fun hx => ⟨hs.held key x hx, hs.keyed key x hx⟩) id
  refine ⟨?_, fun key x hx => ?_, fun key x hx => (held key x hx).2, ?_⟩
  · rw [hids, hstrings]
    exact hs.inverse
  · rw [hstrings]
    exact (held key x hx).1
  · rw [hlocal, hstrings]
    exact hs.own

theorem lookup_installed {x : Entry} (he : e.node < s.stringIDs.length)
    (hx : (s.entries.insert e.key e).lookup key = some x) :
    s.entries.lookup key = some x ∨ x.node < s.stringIDs.length ∧ x.key = key := by
  rcases lookup_insert_some hx with ⟨rfl, rfl⟩ | ⟨-, hx⟩
  · exact .inr ⟨he, rfl⟩
  · exact .inl hx

theorem Interned.apply (hs : s.Interned) (he : e.node < s.stringIDs.length) : (s.apply e).1.Interned := by
  obtain ⟨hstrings, hids, hlocal, -⟩ := apply_table s e
  refine hs.of_entries hids hstrings hlocal fun key x hx => ?_
  rw [apply_entries] at hx
  split at hx
  · exact .inl hx
  · exact lookup_installed he hx

theorem delta_apply (s : State) (e x : Entry) : (s.apply e).1.delta x = s.delta x := by
  simp [delta, nodeString, (apply_table s e).1]

theorem view_apply (hs : s.Interned) (he : e.node < s.stringIDs.length) (key : Bytes) :
    (s.apply e).1.view key = if key = e.key then offer Delta.supersedes (s.view key) (s.delta e) else s.view key := by
  have hview : (s.apply e).1.view key = ((s.apply e).1.entries.lookup key).map s.delta := by
    unfold view
    rw [show (s.apply e).1.delta = s.delta from funext (delta_apply s e)]
  rw [hview, apply_entries]
  by_cases hk : key = e.key
  · subst hk
    cases hcur : s.entries.lookup e.key with
    | none => simp [apply_of_none hcur, view, hcur, offer]
    | some cur =>
      by_cases hno : (s.apply e).2.1 = .noop
      · have := (apply_noop_iff hs hcur he).mp hno
        simp [hno, view, hcur, offer, this]
      · have : (s.delta e).supersedes (s.delta cur) = true := by
          rw [apply_noop_iff hs hcur he] at hno
          simpa using hno
        simp [hno, view, hcur, offer, this]
  · split
    · rfl
    · rw [lookup_insert_eq, if_neg hk]
      rfl

theorem delta_entry (h : s.stringIDs[n]? = some d.origin) : s.delta (d.entry n) = d := by
  simp [delta, Entry.withOrigin, Delta.entry, nodeString, h]

theorem view_internNode (hs : s.Interned) (node key : Bytes) : (s.internNode node).1.view key = s.view key := by
  unfold view
  rw [internNode_entries]
  cases he : s.entries.lookup key with
  | none => rfl
  | some e =>
    have hlt := hs.held key e he
    have hget : s.stringIDs[e.node]? = some (s.nodeString e.node) := by simp [nodeString, hlt]
    have := internNode_kept s node hget
    simp [delta, nodeString_of_getElem? this]

theorem receive_eq (s : State) (d : Delta) :
    s.receive d = (s.internNode d.origin).1.apply (d.entry (s.internNode d.origin).2) := rfl

theorem Interned.receive (hs : s.Interned) (d : Delta) : (s.receive d).1.Interned :=
  (hs.internNode d.origin).apply (List.getElem?_eq_some_iff.mp (hs.internNode_id d.origin)).1

section
variable (s) (d)

theorem receive_kept (h : s.stringIDs[n]? = some node) : (s.receive d).1.stringIDs[n]? = some node := by
  rw [receive_eq, (apply_table _ _).1]
  exact internNode_kept s d.origin h

theorem delta_receive (h : e.node < s.stringIDs.length) : (s.receive d).1.delta e = s.delta e := by
  have hget : s.stringIDs[e.node]? = some (s.nodeString e.node) := by simp [nodeString, h]
  rw [delta, delta, nodeString_of_getElem? (receive_kept s d hget)]

theorem receive_localCounter : (s.receive d).1.localCounter = s.localCounter :=
  (apply_table _ _).2.2.2.trans (internNode_localCounter s d.origin)

theorem receive_localNode : (s.receive d).1.localNode = s.localNode :=
  (apply_table _ _).2.2.1.trans (internNode_localNode s d.origin)

end

/-- `t` is `s` after it installed a received delta `d` as `e`. -/
structure Installed (s t : State) (d : Delta) (e : Entry) : Prop where
  counter : e.counter = d.counter
  delta : t.delta e = d
  node : e.node < t.stringIDs.length
  entries : t.entries = s.entries.insert e.key e
  history : t.history = s.history ++ [.merged e]

theorem receive_cases (hs : s.Interned) (d : Delta) :
    ((s.receive d).2.1 = .noop ∧ (s.receive d).1.entries = s.entries ∧ (s.receive d).1.history = s.history) ∨
      ((s.receive d).2.1 ≠ .noop ∧ Installed s (s.receive d).1 d (s.receive d).2.2) := by
  have hid := hs.internNode_id d.origin
  have hstrings : (s.receive d).1.stringIDs = (s.internNode d.origin).1.stringIDs := (apply_table _ _).1
  rcases apply_cases (s.internNode d.origin).1 (d.entry (s.internNode d.origin).2) with
    ⟨h, hno⟩ | ⟨hno, he, live, tombstone, h⟩
  · refine Or.inl ⟨hno, ?_, ?_⟩
    · rw [receive_eq, h, internNode_entries]
    · rw [receive_eq, h, internNode_history]
  refine Or.inr ⟨hno, ?_⟩
  rw [← receive_eq] at h he
  rw [he]
  refine ⟨rfl, ?_, ?_, ?_, ?_⟩
  · exact delta_entry (hstrings ▸ hid)
  · rw [hstrings]
    exact (List.getElem?_eq_some_iff.mp hid).1
  · rw [h]
    exact congrArg (fun m : Map Bytes Entry => m.insert _ _) (internNode_entries s d.origin)
  · rw [h]
    exact congrArg (· ++ _) (internNode_history s d.origin)

theorem view_receive (hs : s.Interned) (d : Delta) (key : Bytes) :
    (s.receive d).1.view key = if key = d.key then offer Delta.supersedes (s.view key) d else s.view key := by
  have hid := hs.internNode_id d.origin
  rw [receive_eq, view_apply (hs.internNode d.origin) (List.getElem?_eq_some_iff.mp hid).1, view_internNode hs,
    delta_entry hid]
  rfl

/-- `t` is `s` after a local write that minted `e`: the next counter, stored under the key. A tombstone has no
    value. -/
structure Minted (s t : State) (e : Entry) : Prop where
  node : e.node = s.localNode
  counter : e.counter = s.localCounter + 1
  bare : e.deleted = true → e.value = []
  localCounter : t.localCounter = s.localCounter + 1
  entries : t.entries = s.entries.insert e.key e
  history : t.history = s.history ++ [.minted e]
  nodeIDs : t.nodeIDs = s.nodeIDs
  stringIDs : t.stringIDs = s.stringIDs
  localNode : t.localNode = s.localNode

theorem overwrite_minted (s : State) (key value : Bytes) (wallMs : Int64) :
    Minted s (s.overwrite key value wallMs).1 (s.overwrite key value wallMs).2 :=
  ⟨rfl, rfl, fun h => (nomatch h), rfl, rfl, rfl, rfl, rfl, rfl⟩

/-- `Unregister` does nothing to a key that is not live and otherwise mints a tombstone. -/
theorem unregister_cases (s : State) (key : Bytes) (wallMs : Int64) : s.unregister key wallMs = (s, none) ∨
      ∃ t e, s.unregister key wallMs = (t, some e) ∧ Minted s t e := by
  unfold unregister
  split
  · exact Or.inl rfl
  · split
    · exact Or.inl rfl
    · exact Or.inr ⟨_, _, rfl, rfl, rfl, fun _ => rfl, rfl, rfl, rfl, rfl, rfl, rfl⟩

theorem Minted.interned {t : State} (h : Minted s t e) (hs : s.Interned) : t.Interned :=
  hs.of_entries h.nodeIDs h.stringIDs h.localNode fun _ _ hx => lookup_installed (h.node ▸ hs.own) (h.entries ▸ hx)

theorem Interned.reap (hs : s.Interned) (canReap : Option (Entry → Bool)) (now floor : Int64) :
    (s.reapTombstonesWhere canReap now floor).1.Interned := by
  refine hs.of_entries rfl rfl rfl fun key x hx => .inl ?_
  simp only [reapTombstonesWhere, lookup_keep, filter_eq_some_iff] at hx
  exact hx.1

theorem receive_newer {old : Delta} (hs : s.Interned) (hold : s.view d.key = some old) (ho : old.origin = d.origin)
    (hc : old.counter < d.counter) : (s.receive d).2.1 = .applied ∧ (s.receive d).1.view d.key = some d := by
  have hid := hs.internNode_id d.origin
  have hi := hs.internNode d.origin
  have hview : (s.internNode d.origin).1.view d.key = some old := by rw [view_internNode hs, hold]
  obtain ⟨cur, hcur, hdelta⟩ := map_eq_some_iff.mp hview
  have hcur' : (s.internNode d.origin).1.entries.lookup (d.entry (s.internNode d.origin).2).key = some cur := hcur
  -- The held entry has the id of the origin, because the strings agree.
  have hnode : cur.node = (s.internNode d.origin).2 := by
    refine (hi.nodeString_inj (hi.held _ _ hcur) (List.getElem?_eq_some_iff.mp hid).1).mp ?_
    have : (s.internNode d.origin).1.nodeString cur.node = old.origin := congrArg Delta.origin hdelta
    rw [nodeString_of_getElem? hid, this, ho]
  have hcount : cur.counter < d.counter := by
    have : cur.counter = old.counter := congrArg Delta.counter hdelta
    rw [this]
    exact hc
  constructor
  · rw [receive_eq]
    unfold apply
    rw [hcur']
    have hneg : ¬compareDots cur (d.entry (s.internNode d.origin).2) > 0 := by
      simp only [compareDots, Delta.entry, hnode]
      grind
    have hlt : compareDots cur (d.entry (s.internNode d.origin).2) < 0 := by
      simp only [compareDots, Delta.entry, hnode]
      grind
    simp [hneg, hlt]
  · rw [view_receive hs, hold]
    have hsup : d.supersedes old = true := by
      unfold Delta.supersedes
      grind
    simp [offer, hsup]

end State
end Wippy.Crdt
