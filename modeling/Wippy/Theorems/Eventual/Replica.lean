import Wippy.Eventual.State

/-! What the operations of an eventual replica read and write: which parts of the state each of them leaves alone,
    and the dot under a name and an origin after it. -/

namespace Wippy.Eventual
open Lib List Option Map

namespace State
variable {s t : State} {e : Entry} {name node : Bytes} {id : Nat} {counter : UInt64}

/-! ### Parts that an operation leaves alone -/

/-- The intern table is the same. -/
structure SameTable (s t : State) : Prop where
  nodeIDs : t.nodeIDs = s.nodeIDs
  stringIDs : t.stringIDs = s.stringIDs
  freeIDs : t.freeIDs = s.freeIDs
  localNode : t.localNode = s.localNode

theorem SameTable.refl (s : State) : SameTable s s := ⟨rfl, rfl, rfl, rfl⟩

theorem SameTable.nodeString (h : SameTable s t) (id : Nat) : t.nodeString id = s.nodeString id := by
  unfold State.nodeString
  rw [h.stringIDs]

theorem SameTable.delta (h : SameTable s t) (e : Entry) : t.delta e = s.delta e := by
  rw [State.delta, State.delta, h.nodeString]

theorem dot_of_entries (h : t.entries = s.entries) (name : Bytes) (id : Nat) : t.dot name id = s.dot name id := by
  unfold dot dots
  rw [h]

section
variable (s)

theorem slot_retain (id j : Nat) :
    slot (s.retain id).nodeRefs j = if j = id then slot s.nodeRefs j + 1 else slot s.nodeRefs j := by
  show slot ((grow s.nodeRefs id).set id _) j = _
  rw [slot_set (lt_length_grow _ _), slot_grow, slot_grow]
  split
  next h =>
    rw [h]
  · rfl

theorem slot_bumpCV (node : Nat) (counter : UInt64) (j : Nat) :
    slot (s.bumpCV node counter).cv j = if j = node ∧ slot s.cv j < counter then counter else slot s.cv j := by
  unfold bumpCV
  dsimp only
  rw [slot_grow]
  split
  next hgt =>
    rw [slot_set (lt_length_grow _ _), slot_grow]
    by_cases hj : j = node
    · subst hj
      rw [if_pos rfl, if_pos ⟨rfl, hgt⟩]
    · rw [if_neg hj, if_neg fun h => hj h.1]
  next hle =>
    rw [slot_grow, if_neg]
    rintro ⟨rfl, hlt⟩
    exact hle hlt

theorem le_slot_bumpCV (node : Nat) (counter : UInt64) (j : Nat) : slot s.cv j ≤ slot (s.bumpCV node counter).cv j := by
  rw [slot_bumpCV]
  split
  next h =>
    exact UInt64.le_of_lt h.2
  · exact UInt64.le_refl _

theorem setDot_table (e : Entry) : SameTable s (s.setDot e) := by
  unfold setDot
  dsimp only
  split <;> exact ⟨rfl, rfl, rfl, rfl⟩

theorem setDot_entries (e : Entry) :
    (s.setDot e).entries = s.entries.insert e.name ((s.dots e.name).insert e.node e) := by
  unfold setDot
  dsimp only
  split <;> rfl

theorem dot_setDot (e : Entry) (name : Bytes) (id : Nat) :
    (s.setDot e).dot name id = if name = e.name ∧ id = e.node then some e else s.dot name id := by
  unfold dot dots
  rw [setDot_entries, lookup_insert_eq]
  by_cases hn : name = e.name
  · subst hn
    rw [if_pos rfl, getD_some, lookup_insert_eq]
    by_cases hi : id = e.node
    · simp [hi]
    · rw [if_neg hi, if_neg fun h => hi h.2]
      rfl
  · rw [if_neg hn, if_neg fun h => hn h.1]

theorem slot_setDot (e : Entry) (j : Nat) : slot (s.setDot e).nodeRefs j =
    if j = e.node ∧ s.dot e.name e.node = none then slot s.nodeRefs j + 1 else slot s.nodeRefs j := by
  unfold setDot
  cases hdot : (s.dots e.name).lookup e.node with
  | none =>
    rw [if_neg (by simp), slot_retain]
    simp [dot, hdot]
  | some cur => simp [dot, hdot]

end

/-- `t` is `s` with the dot `e` stored: its counter is seen and its origin referenced. -/
structure Stored (s t : State) (e : Entry) : Prop where
  table : SameTable s t
  entries : t.entries = s.entries.insert e.name ((s.dots e.name).insert e.node e)
  cv : ∀ j, slot t.cv j = if j = e.node ∧ slot s.cv j < e.counter then e.counter else slot s.cv j
  refs : ∀ j, slot t.nodeRefs j =
    if j = e.node ∧ s.dot e.name e.node = none then slot s.nodeRefs j + 1 else slot s.nodeRefs j

section
variable (s) (e)

theorem setDot_other :
    (s.setDot e).cv = s.cv ∧ (s.setDot e).localCounter = s.localCounter ∧ (s.setDot e).claims = s.claims := by
  unfold setDot
  dsimp only
  split <;> exact ⟨rfl, rfl, rfl⟩

theorem install_stored : Stored s (s.install e) e := by
  have ht := setDot_table s e
  refine ⟨{ ht with }, setDot_entries s e, fun j => ?_, slot_setDot s e⟩
  rw [← (setDot_other s e).1]
  exact slot_bumpCV (s.setDot e) e.node e.counter j

theorem install_localCounter : (s.install e).localCounter = s.localCounter := (setDot_other s e).2.1
theorem install_claims (s : State) (e : Entry) : (s.install e).claims = s.claims := (setDot_other s e).2.2

end

theorem Stored.dot (h : Stored s t e) (name : Bytes) (id : Nat) :
    t.dot name id = if name = e.name ∧ id = e.node then some e else s.dot name id := by
  rw [← dot_setDot]
  exact dot_of_entries (h.entries.trans (setDot_entries s e).symm) name id

/-- The counter of the next local dot. -/
def fresh (s : State) : UInt64 := s.nextCounter.2

/-- `t` is `s` after it stored the freshly minted local dot `e`. -/
structure Minted (s t : State) (e : Entry) : Prop extends Stored s t e where
  node : e.node = s.localNode
  counter : e.counter = s.fresh
  localCounter : t.localCounter = s.fresh

theorem install_minted (s : State) (hn : e.node = s.localNode) (hc : e.counter = s.fresh) :
    Minted s (s.nextCounter.1.install e) e := by
  have h := install_stored s.nextCounter.1 e
  exact ⟨{ h with table := { h.table with } }, hn, hc,
    install_localCounter s.nextCounter.1 e⟩

/-- The dot that a registration writes. -/
def registered (s : State) (name : Bytes) (p : PID) (wallMs : Int64) (priority : UInt32) : Entry :=
  { pid := p, name, node := s.localNode, counter := s.fresh, wall := wallMs, priority }

section
variable (s) (name)

/-- `Register` refuses the name to a second pid of the node and otherwise mints a live dot. -/
theorem register_cases (p : PID) (wallMs : Int64) (priority : UInt32) :
    (∃ cur, s.dot name s.localNode = some cur ∧ cur.deleted = false ∧ cur.pid ≠ p ∧
        s.register name p wallMs priority = (s, { entry := cur, winner := s.winner name })) ∨
      ∃ t r, s.register name p wallMs priority = (t, r) ∧ r.entry = s.registered name p wallMs priority ∧
        Minted s t r.entry ∧ t.claims = s.claims ++ [(name, p)] ∧ r.won = (t.winner name == some r.entry) ∧
        r.lost.isSome = !r.won ∧ ∀ cur, s.dot name s.localNode = some cur → cur.deleted = false → cur.pid = p := by
  unfold register
  split
  next cur hcur =>
    rw [filter_eq_some_iff] at hcur
    have hp : cur.deleted = false ∧ cur.pid ≠ p := by simpa using hcur.2
    exact Or.inl ⟨cur, hcur.1, hp.1, hp.2, rfl⟩
  rename_i hfree
  have h : Minted s (s.nextCounter.1.install (s.registered name p wallMs priority)) _ := install_minted s rfl rfl
  refine Or.inr ⟨_, _, rfl, rfl, ?_, congrArg (· ++ [(name, p)]) (install_claims s.nextCounter.1 _), rfl, ?_,
    fun cur hcur hlive => ?_⟩
  · exact ⟨{ h with table := { h.table with } }, rfl, rfl,
      h.localCounter⟩
  · have hlost : ∀ (won : Bool) (x : LostBinding), (if won then none else some x).isSome = !won := fun won _ => by
      cases won <;> rfl
    exact hlost _ _
  · have hlookup : (s.dots name).lookup s.localNode = some cur := hcur
    simpa [hlookup, hlive] using hfree

/-- `Unregister` does nothing to a name without a live local dot and otherwise mints a tombstone. -/
theorem unregister_cases (wallMs : Int64) :
    ((∀ cur, s.dot name s.localNode = some cur → cur.deleted = true) ∧ s.unregister name wallMs = (s, none)) ∨
      ∃ t e, s.unregister name wallMs = (t, some e) ∧ e.name = name ∧ e.deleted = true ∧ Minted s t e ∧
        t.claims = s.claims ∧ e.pid = {} := by
  unfold unregister
  split
  next hnone =>
    refine Or.inl ⟨fun cur hcur => ?_, rfl⟩
    have hlookup : (s.dots name).lookup s.localNode = some cur := hcur
    simpa [hlookup] using hnone
  · exact Or.inr ⟨_, _, rfl, rfl, rfl, install_minted s rfl rfl, install_claims s.nextCounter.1 _, rfl⟩

theorem register_table (p : PID) (wallMs : Int64) (priority : UInt32) :
    SameTable s (s.register name p wallMs priority).1 := by
  rcases register_cases s name p wallMs priority with ⟨cur, -, -, -, heq⟩ | ⟨t, r, heq, -, hm, -⟩ <;> rw [heq]
  · exact .refl s
  · exact hm.table

theorem unregister_table (wallMs : Int64) : SameTable s (s.unregister name wallMs).1 := by
  rcases unregister_cases s name wallMs with ⟨-, heq⟩ | ⟨t, e, heq, -, -, hm, -⟩ <;> rw [heq]
  · exact .refl s
  · exact hm.table

end

/-- The state that has seen the counter of `e` as its own. -/
def warned (s : State) (e : Entry) : State := s.bumpCV s.localNode e.counter

/-- A local dot that this run has not written. -/
def Foreign (s : State) (e : Entry) : Prop :=
  e.node = s.localNode ∧ priorIncarnation (s.dot e.name s.localNode) e = true

/-- The dot that supersedes one of an earlier run: the held dot or a tombstone, under the next counter. -/
def superseding (s : State) (e : Entry) : Entry :=
  match s.dot e.name s.localNode with
  | some cur => { cur with counter := (s.warned e).fresh }
  | none =>
    { name := e.name, node := s.localNode, counter := (s.warned e).fresh, wall := e.wall, priority := e.priority,
      deleted := true }

theorem apply_cases (s : State) (e : Entry) :
    (s.Foreign e ∧ ∃ t, s.apply e = (t, .superseded, some (s.superseding e), none) ∧
        t = (s.warned e).nextCounter.1.install (s.superseding e)) ∨
      (¬s.Foreign e ∧ mergeOutcome (s.dot e.name e.node) e = .noop ∧ s.apply e = (s, .noop, none, none)) ∨
      (¬s.Foreign e ∧ mergeOutcome (s.dot e.name e.node) e ≠ .noop ∧ (s.apply e).1 = s.install e ∧
        (s.apply e).2.1 ≠ .noop ∧ (s.apply e).2.1 ≠ .superseded ∧ (s.apply e).2.2.1 = some e) := by
  unfold apply
  split
  next hf =>
    exact Or.inl ⟨hf, _, rfl, rfl⟩
  rename_i hf
  refine Or.inr ?_
  dsimp only
  split
  next hno =>
    exact Or.inl ⟨hf, hno, rfl⟩
  rename_i hno
  refine Or.inr ⟨hf, hno, rfl, ?_, ?_, rfl⟩
  · split
    · simp
    · exact hno
  · split
    · simp
    · unfold mergeOutcome
      repeat' split
      all_goals simp

theorem apply_table (s : State) (e : Entry) : SameTable s (s.apply e).1 := by
  rcases apply_cases s e with ⟨-, t, heq, rfl⟩ | ⟨-, -, heq⟩ | ⟨-, -, heq, -⟩
  · have h := (install_stored (s.warned e).nextCounter.1 (s.superseding e)).table
    rw [heq]
    exact { h with }
  · rw [heq]
    exact .refl s
  · rw [heq]
    exact (install_stored s e).table

/-! ### Departed nodes and collection -/

theorem foldl_adjustCounts (s : State) (rs : List NameRecord) (f : NameRecord → Option Entry × Option Entry) :
    ∃ live tombstone, rs.foldl (fun t r => t.adjustCounts (f r).1 (f r).2) s = { s with live, tombstone } := by
  induction rs generalizing s with
  | nil => exact ⟨s.live, s.tombstone, rfl⟩
  | cons r rs ih =>
    obtain ⟨live, tombstone, h⟩ := ih (s.adjustCounts (f r).1 (f r).2)
    exact ⟨live, tombstone, h⟩

theorem updateRecords_eq (s : State) (f : NameRecord → NameRecord) :
    ∃ live tombstone, s.updateRecords f = { s with live, tombstone, entries := s.entries.mapVal fun _ => f } := by
  obtain ⟨live, tombstone, h⟩ :=
    foldl_adjustCounts s s.entries.values fun r => (s.winnerOf r.values, s.winnerOf (f r).values)
  refine ⟨live, tombstone, ?_⟩
  unfold updateRecords
  rw [h]

theorem dot_eq_some : s.dot name id = some e ↔ ∃ r : NameRecord, s.entries.lookup name = some r ∧
    r.lookup id = some e := by
  unfold dot dots
  cases s.entries.lookup name with
  | none => simp
  | some r => simp

theorem mem_allDots (h : e ∈ s.allDots) : ∃ name id, s.dot name id = some e := by
  simp only [allDots, mem_flatMap, mem_values, dot_eq_some] at h ⊢
  obtain ⟨r, ⟨name, hr⟩, id, he⟩ := h
  exact ⟨name, id, r, hr, he⟩

section
variable (s)

/-- `ReapNode` buries dots in place and changes nothing else but the gauges. -/
theorem reapNode_eq (departed : Bytes) : ∃ live tombstone, (s.reapNode departed).1 =
    { s with live, tombstone, entries := s.entries.mapVal fun _ r => r.mapVal fun _ e => reaped departed e } :=
  updateRecords_eq s _

theorem reapNode_table (departed : Bytes) : SameTable s (s.reapNode departed).1 := by
  obtain ⟨live, tombstone, heq⟩ := reapNode_eq s departed
  rw [heq]
  exact ⟨rfl, rfl, rfl, rfl⟩

theorem reapNode_other (departed : Bytes) : (s.reapNode departed).1.cv = s.cv ∧
    (s.reapNode departed).1.localCounter = s.localCounter ∧ (s.reapNode departed).1.claims = s.claims := by
  obtain ⟨live, tombstone, heq⟩ := reapNode_eq s departed
  rw [heq]
  exact ⟨rfl, rfl, rfl⟩

theorem dot_reapNode (departed name : Bytes) (id : Nat) :
    (s.reapNode departed).1.dot name id = (s.dot name id).map (reaped departed) := by
  obtain ⟨live, tombstone, h⟩ := reapNode_eq s departed
  rw [h]
  unfold dot dots
  rw [lookup_mapVal]
  cases s.entries.lookup name with
  | none => rfl
  | some r =>
    rw [map_some, getD_some]
    exact lookup_mapVal r _ id

theorem releaseAll_eq (es : List Entry) : s.releaseAll es = { s with nodeRefs := (s.releaseAll es).nodeRefs } := by
  induction es generalizing s with
  | nil => rfl
  | cons e es ih => exact ih (s.release e.node)

/-- `ReapTombstones` drops dots and their references, and the records that become empty. -/
theorem reapTombstones_eq (safe : List UInt64) (nowMs floor : Int64) :
    ∃ live tombstone, (s.reapTombstones safe nowMs floor).1 =
      { s with
        live
        tombstone
        nodeRefs := (s.releaseAll (s.allDots.filter (reapable safe nowMs floor))).nodeRefs
        entries := Map.keep (s.entries.mapVal fun _ r => r.keep fun _ e => !reapable safe nowMs floor e)
          fun _ r => !r.entries.isEmpty } := by
  obtain ⟨live, tombstone, h⟩ :=
    updateRecords_eq (s.releaseAll (s.allDots.filter (reapable safe nowMs floor)))
      fun r => r.keep fun _ e => !reapable safe nowMs floor e
  refine ⟨live, tombstone, ?_⟩
  unfold reapTombstones
  dsimp only
  rw [h, releaseAll_eq]

theorem reapTombstones_table (safe : List UInt64) (nowMs floor : Int64) :
    SameTable s (s.reapTombstones safe nowMs floor).1 := by
  obtain ⟨live, tombstone, heq⟩ := reapTombstones_eq s safe nowMs floor
  rw [heq]
  exact ⟨rfl, rfl, rfl, rfl⟩

theorem reapTombstones_other (safe : List UInt64) (nowMs floor : Int64) :
    (s.reapTombstones safe nowMs floor).1.cv = s.cv ∧
      (s.reapTombstones safe nowMs floor).1.localCounter = s.localCounter ∧
      (s.reapTombstones safe nowMs floor).1.claims = s.claims := by
  obtain ⟨live, tombstone, heq⟩ := reapTombstones_eq s safe nowMs floor
  rw [heq]
  exact ⟨rfl, rfl, rfl⟩

theorem dot_reapTombstones (safe : List UInt64) (nowMs floor : Int64) (name : Bytes) (id : Nat) :
    (s.reapTombstones safe nowMs floor).1.dot name id =
      (s.dot name id).filter fun e => !reapable safe nowMs floor e := by
  obtain ⟨live, tombstone, h⟩ := reapTombstones_eq s safe nowMs floor
  rw [h]
  unfold dot dots
  rw [lookup_keep, lookup_mapVal]
  cases hr : s.entries.lookup name with
  | none => rfl
  | some r =>
    rw [map_some, getD_some, filter_some]
    split
    · rw [getD_some]
      exact lookup_keep r _ id
    rename_i hempty
    -- An empty record goes, and it had no dot to read.
    have hnil : (r.keep fun _ e => !reapable safe nowMs floor e).entries = [] := by simpa using hempty
    have hkeep := lookup_keep r (fun _ e => !reapable safe nowMs floor e) id
    rw [← hkeep]
    show none = List.dlookup id (r.keep _).entries
    rw [hnil]
    rfl

end

/-- A dot is under its name and its id. -/
def Keyed (s : State) : Prop := ∀ name id e, s.dot name id = some e → e.name = name ∧ e.node = id

section
variable (h : s.Keyed)
include h

theorem Keyed.of_entries (he : t.entries = s.entries) : t.Keyed := fun name id e hd =>
  h name id e (dot_of_entries he name id ▸ hd)

theorem Keyed.stored (hst : Stored s t e) : t.Keyed := by
  intro name id x hx
  rw [hst.dot] at hx
  split at hx
  next hk =>
    cases hx
    exact ⟨hk.1.symm, hk.2.symm⟩
  · exact h name id x hx

theorem Keyed.reapNode (departed : Bytes) : (s.reapNode departed).1.Keyed := by
  intro name id x hx
  rw [dot_reapNode] at hx
  obtain ⟨e, he, rfl⟩ := map_eq_some_iff.mp hx
  unfold reaped
  split <;> exact h name id e he

theorem Keyed.reapTombstones (safe : List UInt64) (nowMs floor : Int64) :
    (s.reapTombstones safe nowMs floor).1.Keyed := by
  intro name id x hx
  rw [dot_reapTombstones] at hx
  exact h name id x (filter_eq_some_iff.mp hx).1

theorem Keyed.superseding (e : Entry) : (s.superseding e).name = e.name ∧ (s.superseding e).node = s.localNode := by
  unfold State.superseding
  split
  next cur hcur =>
    exact h _ _ cur hcur
  · exact ⟨rfl, rfl⟩

end

theorem superseding_counter (s : State) (e : Entry) : (s.superseding e).counter = (s.warned e).fresh := by
  unfold superseding
  split <;> rfl

theorem Keyed.supersede (h : s.Keyed) (e : Entry) :
    Minted (s.warned e) ((s.warned e).nextCounter.1.install (s.superseding e)) (s.superseding e) :=
  install_minted (s.warned e) (h.superseding e).2 (superseding_counter s e)

theorem Keyed.apply (h : s.Keyed) (e : Entry) : (s.apply e).1.Keyed := by
  rcases apply_cases s e with ⟨-, t, heq, rfl⟩ | ⟨-, -, heq⟩ | ⟨-, -, heq, -⟩
  · rw [heq]
    exact Keyed.stored (s := s.warned e) h (h.supersede e).toStored
  · rw [heq]
    exact h
  · rw [heq]
    exact h.stored (install_stored s e)

end State
end Wippy.Eventual
