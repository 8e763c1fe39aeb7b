import Wippy.Theorems.Global.Indexes

/-! The tables of the global name registry fit together in every run.

    The operations are gone through once, in two states that show the same names: they keep that and what holds of both,
    and give the same results. The two may be one state. -/

namespace Wippy.Global
open Lib List Option Map

variable {e : PendingEntry} {cmd : Command}

namespace ShardedState

/-- What holds of the tables in every run: a name is not both reserved and active, the reverse index of each shard is
    exact, and the node index has the process of every active name. -/
structure Sound (s : ShardedState) : Prop where
  indexed : Indexed s.shards s.nodeIndex
  exclusive : ∀ name, s.pending.lookup name = none ∨ s.entry name = none
  named : ∀ name e, s.pending.lookup name = some e → e.name = name

variable {s : ShardedState} {name : Bytes}

theorem sound_new : newShardedState.Sound where
  indexed := indexed_new
  exclusive _ := .inl rfl
  named _ _ he := by cases he

namespace Sound

section
variable (h : s.Sound)
include h

theorem entry_none (he : s.pending.lookup name = some e) : s.entry name = none :=
  (h.exclusive name).resolve_left (by simp [he])

theorem insertPending (hname : e.name = name) (hentry : s.entry name = none) :
    { s with pending := s.pending.insert name e }.Sound where
  indexed := h.indexed
  exclusive n := by
    rw [lookup_insert_eq]
    split
    next hn => exact .inr (hn ▸ hentry)
    · exact h.exclusive n
  named n e' he' := by
    rcases lookup_insert_some he' with ⟨rfl, rfl⟩ | ⟨-, he'⟩
    · exact hname
    · exact h.named n e' he'

theorem erasePending (name : Bytes) : { s with pending := s.pending.erase name }.Sound where
  indexed := h.indexed
  exclusive n := by
    rw [lookup_erase_eq]
    split
    · exact .inl rfl
    · exact h.exclusive n
  named n e he := by
    exact h.named n e (lookup_erase_some.mp he).1

theorem recordExpired (r : ExpiredRecord) : (s.recordExpired r).Sound := by
  unfold ShardedState.recordExpired
  split
  · exact { h with }
  · exact { h with }

theorem bindName (hpending : s.pending.lookup name = none) (hentry : s.entry name = none) (e : NameEntry) :
    (s.bindName name e).Sound where
  indexed := Indexed.bindName h.indexed hentry e
  exclusive n := by
    rw [entry_bindName]
    split
    next hn => exact .inl (hn ▸ hpending)
    · exact h.exclusive n
  named := h.named

theorem loses {shards : Fin shardCount → Shard} {nodeIndex : Map Bytes (KeySet Bytes)} {dropped : List Bytes}
    (hl : s.Loses shards nodeIndex dropped) : { s with shards, nodeIndex }.Sound where
  indexed := hl.indexed
  exclusive n := by
    refine (h.exclusive n).imp_right fun hn => ?_
    rw [hl.entry, hn, ite_self]
  named := h.named

end
end Sound

theorem reservation_eq_some {epoch : UInt64} :
    s.reservation name epoch = some e ↔ s.pending.lookup name = some e ∧ e.epoch = epoch := by
  unfold reservation
  rw [filter_eq_some_iff, decide_eq_true_iff]

theorem register_cases (s : ShardedState) (name : Bytes) (p : PID) (nodeID : Bytes) (index : UInt64) :
    (∃ e, s.pending.lookup name = some e ∧ s.register name p nodeID index =
      (s, e.pid, e.epoch, if e.pid = p then .dedupe else .conflict)) ∨
    (s.pending.lookup name = none ∧ ∃ e, s.entry name = some e ∧ s.register name p nodeID index =
      (s, e.pid, e.appliedAt, if e.pid = p then .dedupe else .conflict)) ∨
    (s.pending.lookup name = none ∧ s.entry name = none ∧ s.register name p nodeID index =
      (s.bindName name { pid := p, nodeID, appliedAt := index }, p, index, .inserted)) := by
  unfold register
  cases hpending : s.pending.lookup name with
  | some e =>
    by_cases hp : e.pid = p <;> simp [hp]
  | none =>
    cases hentry : s.entry name with
    | some e =>
      by_cases hp : e.pid = p <;> simp [hp]
    | none => exact .inr (.inr ⟨rfl, rfl, rfl⟩)

variable (resolve : Bytes → PID → PID → PID)

/-- What a registration command does: it is refused, it meets a reservation of its own or wins against one and changes
    nothing, or it has the name in the end. -/
theorem applyRegister_cases (h : s.Sound) (cmd : Command) (index : UInt64) :
    ((s.applyRegister resolve cmd index).2.err ≠ none ∧
      ∀ e, s.pending.lookup cmd.name = some e → resolve cmd.name e.pid cmd.pid ≠ cmd.pid) ∨
    ((s.applyRegister resolve cmd index).1 = s ∧ (s.applyRegister resolve cmd index).2.err = none ∧
      ∃ e, s.pending.lookup cmd.name = some e ∧ (e.pid ≠ cmd.pid → resolve cmd.name e.pid cmd.pid = cmd.pid)) ∨
    (s.pending.lookup cmd.name = none ∧ (s.applyRegister resolve cmd index).1.lookup cmd.name = some cmd.pid) := by
  rcases register_cases s cmd.name cmd.pid cmd.node index with ⟨e, hpending, hreg⟩ | ⟨hpending, e, hentry, hreg⟩ |
    ⟨hpending, hentry, hreg⟩
  · -- the name is reserved
    by_cases hp : e.pid = cmd.pid
    · rw [if_pos hp] at hreg
      refine .inr (.inl ⟨?_, ?_, e, hpending, fun hne => absurd hp hne⟩) <;> simp [applyRegister, hreg]
    rw [if_neg hp] at hreg
    by_cases hwin : resolve cmd.name e.pid cmd.pid = cmd.pid
    · have hunregister : (s.unregister cmd.name).1 = s := by
        simp [unregister, unregisterEntry, h.entry_none hpending]
      refine .inr (.inl ⟨?_, ?_, e, hpending, fun _ => hwin⟩) <;> simp [applyRegister, hreg, hwin, hunregister]
    · refine .inl ⟨?_, fun e' he' => Option.some.inj (hpending.symm.trans he') ▸ hwin⟩
      simp [applyRegister, hreg, hwin]
  · -- the name is active
    by_cases hp : e.pid = cmd.pid
    · refine .inr (.inr ⟨hpending, ?_⟩)
      simp [applyRegister, hreg, lookup, hentry, hp]
    rw [if_neg hp] at hreg
    by_cases hwin : resolve cmd.name e.pid cmd.pid = cmd.pid
    · refine .inr (.inr ⟨hpending, ?_⟩)
      obtain ⟨shards, heq, hl⟩ := unregisterEntry_spec h.indexed hentry
      have hunregister : (s.unregister cmd.name).1 = { s with shards } := by simp [unregister, heq]
      have hfree : ({ s with shards }).entry cmd.name = none := (hl.entry _).trans (if_pos (mem_singleton_self _))
      rcases register_cases { s with shards } cmd.name cmd.pid cmd.node index with ⟨e', he', -⟩ | ⟨-, e', he', -⟩ |
        ⟨-, -, hreg'⟩
      · cases hpending.symm.trans he'
      · cases hfree.symm.trans he'
      · simp [applyRegister, hreg, hwin, hunregister, hreg', lookup, entry_bindName]
    · refine .inl ⟨?_, fun e' he' => absurd (hpending.symm.trans he') (by simp)⟩
      simp [applyRegister, hreg, hwin]
  · -- the name is free
    refine .inr (.inr ⟨hpending, ?_⟩)
    simp [applyRegister, hreg, lookup, entry_bindName]

/-- The two states show the same names. -/
structure Agrees (s t : ShardedState) : Prop where
  entry : ∀ name, s.entry name = t.entry name
  pending : ∀ name, s.pending.lookup name = t.pending.lookup name

variable {t u : ShardedState}

namespace Agrees

theorem refl (s : ShardedState) : s.Agrees s := ⟨fun _ => rfl, fun _ => rfl⟩

theorem symm (h : s.Agrees t) : t.Agrees s := ⟨fun n => (h.entry n).symm, fun n => (h.pending n).symm⟩

theorem trans (h : s.Agrees t) (h' : t.Agrees u) : s.Agrees u :=
  ⟨fun n => (h.entry n).trans (h'.entry n), fun n => (h.pending n).trans (h'.pending n)⟩

theorem recordExpired (h : s.Agrees t) (r r' : ExpiredRecord) : (s.recordExpired r).Agrees (t.recordExpired r') := by
  unfold ShardedState.recordExpired
  split <;> split <;> exact { h with }

theorem loses {shards shards' : Fin shardCount → Shard} {nodeIndex nodeIndex' : Map Bytes (KeySet Bytes)}
    {d d' : List Bytes} (h : s.Agrees t) (hl : s.Loses shards nodeIndex d) (hl' : t.Loses shards' nodeIndex' d')
    (hmem : ∀ n, n ∈ d ↔ n ∈ d') :
    Agrees { s with shards, nodeIndex } { t with shards := shards', nodeIndex := nodeIndex' } where
  entry n := by simp only [hl.entry, hl'.entry, h.entry, hmem]
  pending := h.pending

end Agrees

/-- A property of states that each update of the tables keeps; those that bring a process in, if `ok` holds of it and
    its node. -/
structure Tabled (ok : PID → Bytes → Prop) (P : ShardedState → Prop) : Prop where
  sound : ∀ {s}, P s → s.Sound
  pending : ∀ {s name e}, P s → s.pending.lookup name = some e → ok e.pid e.nodeID
  insertPending : ∀ {s name} {e : PendingEntry}, P s → e.name = name → s.entry name = none → ok e.pid e.nodeID →
    P { s with pending := s.pending.insert name e }
  erasePending : ∀ {s} name, P s → P { s with pending := s.pending.erase name }
  recordExpired : ∀ {s} r, P s → P (s.recordExpired r)
  bindName : ∀ {s name} {e : NameEntry}, P s → s.pending.lookup name = none → s.entry name = none → ok e.pid e.nodeID →
    P (s.bindName name e)
  loses : ∀ {s : ShardedState} {shards nodeIndex dropped}, P s → s.Loses shards nodeIndex dropped →
    P { s with shards, nodeIndex }

theorem sound_tabled : Tabled (fun _ _ => True) Sound where
  sound hs := hs
  pending _ _ := trivial
  insertPending hs hname hentry _ := hs.insertPending hname hentry
  erasePending name hs := hs.erasePending name
  recordExpired r hs := hs.recordExpired r
  bindName hs hpending hentry _ := hs.bindName hpending hentry _
  loses hs hl := hs.loses hl

/-- The states show the same names, and both have the property. -/
structure Related (P : ShardedState → Prop) (s t : ShardedState) : Prop extends Agrees s t where
  left : P s
  right : P t

/-- The states are related and the results are the same. -/
abbrev Alike {β : Type} (P : ShardedState → Prop) (x y : ShardedState × β) : Prop := Related P x.1 y.1 ∧ x.2 = y.2

variable {p : PID}

theorem mem_lookupPendingByPID {order : List Bytes} :
    name ∈ s.lookupPendingByPID p order ↔ ∃ e, s.pending.lookup name = some e ∧ e.pid = p := by
  unfold lookupPendingByPID
  rw [mem_filter, mem_keysIn, Option.any_eq_true]
  constructor
  · rintro ⟨-, e, he, hp⟩
    exact ⟨e, he, of_decide_eq_true hp⟩
  · rintro ⟨e, he, hp⟩
    exact ⟨AList.lookup_isSome.mp (by simp [he]), e, he, decide_eq_true hp⟩

theorem nodup_lookupPendingByPID (s : ShardedState) (p : PID) (order : List Bytes) :
    (s.lookupPendingByPID p order).Nodup :=
  (s.pending.keysIn_nodup order).filter _

theorem foldl_unreservePending {names : List Bytes} (hnodup : names.Nodup)
    (hnames : ∀ n ∈ names, ∃ e, s.pending.lookup n = some e ∧ e.pid = p) :
    ∃ pending, names.foldl (fun s n => (s.unreservePending n p).1) s = { s with pending } ∧
      ∀ n e, pending.lookup n = some e ↔ s.pending.lookup n = some e ∧ n ∉ names := by
  induction names generalizing s with
  | nil => exact ⟨s.pending, rfl, fun n e => by simp⟩
  | cons name names ih =>
    obtain ⟨hname, hnodup⟩ := nodup_cons.mp hnodup
    obtain ⟨e, he, hp⟩ := hnames name mem_cons_self
    have hstep : (s.unreservePending name p).1 = { s with pending := s.pending.erase name } := by
      simp [unreservePending, he, hp]
    obtain ⟨pending, heq, hpending⟩ := ih (s := { s with pending := s.pending.erase name }) hnodup fun n hn => by
      obtain ⟨e', he', hp'⟩ := hnames n (mem_cons_of_mem _ hn)
      exact ⟨e', lookup_erase_some.mpr ⟨he', fun heq => hname (heq ▸ hn)⟩, hp'⟩
    refine ⟨pending, ?_, fun n e' => ?_⟩
    · rw [foldl_cons, hstep]
      exact heq
    · rw [hpending, lookup_erase_some, mem_cons, not_or, and_assoc]

theorem length_eq_of_mem_iff {l l' : List Bytes} (hl : l.Nodup) (hl' : l'.Nodup) (h : ∀ n, n ∈ l ↔ n ∈ l') :
    l.length = l'.length :=
  ((perm_ext_iff_of_nodup hl hl').mpr h).length_eq

variable {ok : PID → Bytes → Prop} {P : ShardedState → Prop}

theorem Alike.exists {β : Type} {x y : ShardedState × β} (h : Alike P x y) :
    ∃ s t r, x = (s, r) ∧ y = (t, r) ∧ Related P s t :=
  ⟨x.1, y.1, x.2, rfl, Prod.ext rfl h.2.symm, h.1⟩

section
variable (tab : Tabled ok P)
include tab

theorem Tabled.reserved {epoch : UInt64} (hs : P s) (he : s.reservation name epoch = some e) :
    e.name = name ∧ s.entry name = none ∧ ok e.pid e.nodeID := by
  have he' := (reservation_eq_some.mp he).1
  exact ⟨(tab.sound hs).named name e he', (tab.sound hs).entry_none he', tab.pending hs he'⟩

namespace Related

omit tab in
theorem refl (hs : P s) : Related P s s := ⟨.refl s, hs, hs⟩

variable (h : Related P s t)
include h

omit tab in
theorem reservation (name : Bytes) (epoch : UInt64) : s.reservation name epoch = t.reservation name epoch := by
  unfold ShardedState.reservation
  rw [h.pending]

theorem insertPending (hname : e.name = name) (hentry : t.entry name = none) (hok : ok e.pid e.nodeID) :
    Related P { s with pending := s.pending.insert name e } { t with pending := t.pending.insert name e } where
  entry := h.entry
  pending n := by rw [lookup_insert_eq, lookup_insert_eq, h.pending]
  left := tab.insertPending h.left hname ((h.entry name).trans hentry) hok
  right := tab.insertPending h.right hname hentry hok

theorem erasePending (name : Bytes) :
    Related P { s with pending := s.pending.erase name } { t with pending := t.pending.erase name } where
  entry := h.entry
  pending n := by rw [lookup_erase_eq, lookup_erase_eq, h.pending]
  left := tab.erasePending name h.left
  right := tab.erasePending name h.right

theorem bindName {e : NameEntry} (hpending : t.pending.lookup name = none) (hentry : t.entry name = none)
    (hok : ok e.pid e.nodeID) : Related P (s.bindName name e) (t.bindName name e) where
  entry n := by rw [entry_bindName, entry_bindName, h.entry]
  pending := h.pending
  left := tab.bindName h.left ((h.pending name).trans hpending) ((h.entry name).trans hentry) hok
  right := tab.bindName h.right hpending hentry hok

theorem unregisterEntry (name : Bytes) : Alike P (s.unregisterEntry name) (t.unregisterEntry name) := by
  cases he : t.entry name with
  | none =>
    unfold ShardedState.unregisterEntry
    rw [h.entry, he]
    exact ⟨h, rfl⟩
  | some e =>
    obtain ⟨shards, heq, hl⟩ := unregisterEntry_spec (tab.sound h.left).indexed ((h.entry name).trans he)
    obtain ⟨shards', heq', hl'⟩ := unregisterEntry_spec (tab.sound h.right).indexed he
    rw [heq, heq']
    exact ⟨⟨h.toAgrees.loses hl hl' fun _ => Iff.rfl, tab.loses h.left hl, tab.loses h.right hl'⟩, rfl⟩

theorem rejectPending (name : Bytes) (epoch : UInt64) (rejecter reason : Bytes) (now now' : Int64) :
    Alike P (s.rejectPending name epoch rejecter reason now) (t.rejectPending name epoch rejecter reason now') := by
  unfold ShardedState.rejectPending
  rw [h.reservation]
  cases t.reservation name epoch with
  | none => exact ⟨h, rfl⟩
  | some e =>
    have herase := h.erasePending tab name
    exact ⟨⟨herase.toAgrees.recordExpired _ _, tab.recordExpired _ herase.left, tab.recordExpired _ herase.right⟩, rfl⟩

theorem unreservePending (name : Bytes) (p : PID) :
    Alike P (s.unreservePending name p) (t.unreservePending name p) := by
  unfold ShardedState.unreservePending
  rw [h.pending]
  cases t.pending.lookup name with
  | none => exact ⟨h, rfl⟩
  | some e =>
    dsimp only
    split
    · exact ⟨h, rfl⟩
    · exact ⟨h.erasePending tab name, rfl⟩

theorem promotePending (name : Bytes) (epoch index : UInt64) :
    Alike P (s.promotePending name epoch index) (t.promotePending name epoch index) := by
  unfold ShardedState.promotePending
  rw [h.reservation]
  cases he : t.reservation name epoch with
  | none => exact ⟨h, rfl⟩
  | some e =>
    obtain ⟨-, hentry, hok⟩ := tab.reserved h.right he
    exact ⟨(h.erasePending tab name).bindName tab (AList.lookup_erase _ _) hentry hok, rfl⟩

theorem register (hok : ok cmd.pid cmd.node) (index : UInt64) :
    Alike P (s.register cmd.name cmd.pid cmd.node index) (t.register cmd.name cmd.pid cmd.node index) := by
  unfold ShardedState.register
  rw [h.entry, h.pending]
  cases hpending : t.pending.lookup cmd.name with
  | some e => by_cases hp : e.pid = cmd.pid <;> simp [Alike, hp, h]
  | none =>
    cases hentry : t.entry cmd.name with
    | some e => by_cases hp : e.pid = cmd.pid <;> simp [Alike, hp, h]
    | none => exact ⟨h.bindName tab hpending hentry hok, rfl⟩

theorem applyUnregister (cmd : Command) : Alike P (s.applyUnregister cmd) (t.applyUnregister cmd) := by
  obtain ⟨s', t', removed, hs', ht', h'⟩ := (h.unregisterEntry tab cmd.name).exists
  unfold ShardedState.applyUnregister
  rw [hs', ht']
  exact ⟨h', rfl⟩

theorem applyRemovePID (cmd : Command) (site site' : Site) :
    Alike P (s.applyRemovePID cmd site) (t.applyRemovePID cmd site') := by
  have hs := tab.sound h.left
  have ht := tab.sound h.right
  have hmem : ∀ n, n ∈ s.lookupPendingByPID cmd.pid site.pending ↔ n ∈ t.lookupPendingByPID cmd.pid site'.pending :=
    fun n => by rw [mem_lookupPendingByPID, mem_lookupPendingByPID, h.pending]
  have hkept : ∀ {s}, P s → ∀ names : List Bytes, P (names.foldl (fun s n => (s.unreservePending n cmd.pid).1) s) :=
    fun hs names => List.foldlRecOn names _ hs fun _ hs n _ => ((refl hs).unreservePending tab n cmd.pid).1.right
  have hleft := hkept h.left (s.lookupPendingByPID cmd.pid site.pending)
  have hright := hkept h.right (t.lookupPendingByPID cmd.pid site'.pending)
  have hnodup := s.nodup_lookupPendingByPID cmd.pid site.pending
  have hnodup' := t.nodup_lookupPendingByPID cmd.pid site'.pending
  obtain ⟨pending, heq, hpending⟩ := foldl_unreservePending hnodup fun n => mem_lookupPendingByPID.mp
  obtain ⟨pending', heq', hpending'⟩ := foldl_unreservePending hnodup' fun n => mem_lookupPendingByPID.mp
  obtain ⟨shards, nodeIndex, removed, hrem, hl, hall⟩ :=
    removePIDWithNames_spec (s := { s with pending }) hs.indexed cmd.pid
  obtain ⟨shards', nodeIndex', removed', hrem', hl', hall'⟩ :=
    removePIDWithNames_spec (s := { t with pending := pending' }) ht.indexed cmd.pid
  have hagree : Agrees { s with pending } { t with pending := pending' } := by
    refine ⟨h.entry, fun n => Option.ext fun e => ?_⟩
    rw [hpending, hpending', h.pending, hmem]
  have hremoved : ∀ n, n ∈ Shard.removedNames removed ↔ n ∈ Shard.removedNames removed' := fun n => by
    rw [hall, hall', mem_walked hs.indexed, mem_walked ht.indexed, h.entry]
  have hsingle := nodup_singleton cmd.pid.string
  have hcount : removed.length = removed'.length := by
    have hlength := length_eq_of_mem_iff (hall ▸ nodup_walked hs.indexed hsingle (nodup_finRange _))
      (hall' ▸ nodup_walked ht.indexed hsingle (nodup_finRange _)) hremoved
    simpa [Shard.removedNames] using hlength
  unfold ShardedState.applyRemovePID
  dsimp only
  rw [heq] at hleft ⊢
  rw [heq'] at hright ⊢
  rw [hrem, hrem', hcount, length_eq_of_mem_iff hnodup hnodup' hmem]
  exact ⟨⟨hagree.loses hl hl' hremoved, tab.loses hleft hl, tab.loses hright hl'⟩, rfl⟩

theorem applyRegisterPending (hok : ok cmd.pid cmd.node) (index : UInt64) :
    Alike P (s.applyRegisterPending cmd index) (t.applyRegisterPending cmd index) := by
  have hreserve : ∀ epoch, Alike P
      (s.registerPending cmd.name cmd.pid cmd.node epoch cmd.requiredNodes cmd.deadlineUnixNano index.toInt64)
      (t.registerPending cmd.name cmd.pid cmd.node epoch cmd.requiredNodes cmd.deadlineUnixNano index.toInt64) := by
    intro epoch
    unfold ShardedState.registerPending
    rw [h.entry, h.pending]
    cases hentry : t.entry cmd.name with
    | some e => by_cases hp : e.pid = cmd.pid <;> simp [Alike, hp, h]
    | none =>
      cases t.pending.lookup cmd.name with
      | some e => by_cases hp : e.pid = cmd.pid ∧ e.epoch = epoch <;> simp [Alike, hp, h]
      | none => exact ⟨h.insertPending tab rfl hentry hok, rfl⟩
  obtain ⟨s', t', ⟨existing, outcome⟩, hs', ht', h'⟩ := (hreserve (if cmd.epoch = 0 then index else cmd.epoch)).exists
  unfold ShardedState.applyRegisterPending
  dsimp only
  rw [hs', ht']
  cases outcome <;> exact ⟨h', rfl⟩

theorem applyRegisterAck (cmd : Command) (index : UInt64) :
    Alike P (s.applyRegisterAck cmd index) (t.applyRegisterAck cmd index) := by
  have hack : Alike P (s.recordAck cmd.name cmd.epoch cmd.ackerNode)
      (t.recordAck cmd.name cmd.epoch cmd.ackerNode) := by
    unfold ShardedState.recordAck
    rw [h.reservation]
    cases he : t.reservation cmd.name cmd.epoch with
    | none => exact ⟨h, rfl⟩
    | some e =>
      obtain ⟨hname, hentry, hok⟩ := tab.reserved h.right he
      dsimp only
      split
      · exact ⟨h, rfl⟩
      · exact ⟨h.insertPending tab hname hentry hok, rfl⟩
  obtain ⟨s', t', ack, hs', ht', h'⟩ := hack.exists
  obtain ⟨s'', t'', promoted, hs'', ht'', h''⟩ := (h'.promotePending tab cmd.name cmd.epoch index).exists
  unfold ShardedState.applyRegisterAck
  rw [hs', ht']
  rcases ack with _ | ⟨e, fresh, _ | _⟩
  · exact ⟨h', rfl⟩
  · exact ⟨h', rfl⟩
  · dsimp only
    rw [hs'', ht'']
    exact ⟨h'', rfl⟩

theorem applyDropRequired (cmd : Command) (index : UInt64) :
    Alike P (s.applyDropRequired cmd index) (t.applyDropRequired cmd index) := by
  have hdrop : Alike P (s.dropRequired cmd.name cmd.epoch cmd.nodeID)
      (t.dropRequired cmd.name cmd.epoch cmd.nodeID) := by
    unfold ShardedState.dropRequired
    rw [h.reservation]
    cases he : t.reservation cmd.name cmd.epoch with
    | none => exact ⟨h, rfl⟩
    | some e =>
      obtain ⟨hname, hentry, hok⟩ := tab.reserved h.right he
      dsimp only
      split
      · exact ⟨h.insertPending tab hname hentry hok, rfl⟩
      · exact ⟨h, rfl⟩
  obtain ⟨s', t', drop, hs', ht', h'⟩ := hdrop.exists
  obtain ⟨s'', t'', promoted, hs'', ht'', h''⟩ := (h'.promotePending tab cmd.name cmd.epoch index).exists
  unfold ShardedState.applyDropRequired
  rw [hs', ht']
  rcases drop with _ | ⟨e, dropped, _ | _⟩
  · exact ⟨h', rfl⟩
  · exact ⟨h', rfl⟩
  · dsimp only
    rw [hs'', ht'']
    exact ⟨h'', rfl⟩

theorem applyRegisterExpired (cmd : Command) (site site' : Site) :
    Alike P (s.applyRegisterExpired cmd site) (t.applyRegisterExpired cmd site') := by
  obtain ⟨s', t', e, hs', ht', h'⟩ :=
    (h.rejectPending tab cmd.name cmd.epoch [] cmd.reason site.now site'.now).exists
  unfold ShardedState.applyRegisterExpired expirePending
  rw [hs', ht']
  cases e <;> exact ⟨h', rfl⟩

theorem applyRegisterReject (cmd : Command) (site site' : Site) :
    Alike P (s.applyRegisterReject cmd site) (t.applyRegisterReject cmd site') := by
  obtain ⟨s', t', e, hs', ht', h'⟩ := (h.rejectPending tab cmd.name cmd.epoch cmd.ackerNode
    (if cmd.reason = [] then strongRejectReason else cmd.reason) site.now site'.now).exists
  unfold ShardedState.applyRegisterReject
  dsimp only
  rw [hs', ht']
  cases e <;> exact ⟨h', rfl⟩

theorem applyRegisterUnreserve (cmd : Command) :
    Alike P (s.applyRegisterUnreserve cmd) (t.applyRegisterUnreserve cmd) := by
  obtain ⟨s', t', ⟨e, found⟩, hs', ht', h'⟩ := (h.unreservePending tab cmd.name cmd.pid).exists
  unfold ShardedState.applyRegisterUnreserve
  rw [hs', ht']
  cases found with
  | true => exact ⟨h', rfl⟩
  | false => exact h'.applyUnregister tab cmd

theorem applyRegister (hok : ok cmd.pid cmd.node) (index : UInt64) :
    Alike P (s.applyRegister resolve cmd index) (t.applyRegister resolve cmd index) := by
  obtain ⟨s', t', ⟨existing, established, outcome⟩, hs', ht', h'⟩ := (h.register tab hok index).exists
  unfold ShardedState.applyRegister
  rw [hs', ht']
  cases outcome with
  | inserted => exact ⟨h', rfl⟩
  | dedupe => exact ⟨h', rfl⟩
  | conflict =>
    dsimp only
    split
    · exact ⟨((h'.unregisterEntry tab cmd.name).1.register tab hok index).1, rfl⟩
    · exact ⟨h', rfl⟩

/-- Every command but the removal of a node, which may stop at different names. -/
theorem applyCommand (hok : cmd.type = .cmdRegister ∨ cmd.type = .cmdRegisterPending → ok cmd.pid cmd.node)
    (htype : cmd.type ≠ .cmdRemoveNode) (index : UInt64) (site site' : Site) :
    Alike P (s.applyCommand resolve cmd index site) (t.applyCommand resolve cmd index site') := by
  unfold ShardedState.applyCommand
  split
  next hreg =>
    obtain ⟨h', heq⟩ := h.applyRegister resolve tab (hok (.inl hreg)) index
    exact ⟨h', congrArg Response.register heq⟩
  · exact h.applyUnregister tab cmd
  · exact h.applyRemovePID tab cmd site site'
  next hremove => exact absurd hremove htype
  next hreg =>
    obtain ⟨h', heq⟩ := h.applyRegisterPending tab (hok (.inr hreg)) index
    exact ⟨h', congrArg Response.register heq⟩
  · exact h.applyRegisterAck tab cmd index
  · exact h.applyRegisterExpired tab cmd site site'
  · exact h.applyRegisterUnreserve tab cmd
  · exact h.applyDropRequired tab cmd index
  · exact h.applyRegisterReject tab cmd site site'
  · exact ⟨h, rfl⟩

end Related

theorem Tabled.apply (hs : P s) (log : Log) (site : Site)
    (hok : ∀ cmd, log.data = .ok cmd → cmd.type = .cmdRegister ∨ cmd.type = .cmdRegisterPending →
      ok cmd.pid cmd.node) : P (s.apply resolve log site).1 := by
  unfold ShardedState.apply
  split
  · exact hs
  rename_i cmd hdata
  by_cases htype : cmd.type = .cmdRemoveNode
  · simp only [ShardedState.applyCommand, htype, applyRemoveNode]
    cases hpids : s.nodeIndex.lookup cmd.nodeID with
    | none =>
      unfold removeNodeWithNames
      rwa [hpids]
    | some pids =>
      obtain ⟨shards, nodeIndex, removed, left, heq, hl, -⟩ :=
        removeNodeWithNames_spec (tab.sound hs).indexed hpids cmd.limit site.pidKeys
      rw [heq]
      exact tab.loses hs hl
  · exact ((Related.refl hs).applyCommand resolve tab (hok cmd hdata) htype log.index site site).1.right

end

theorem Sound.apply (h : s.Sound) (log : Log) (site : Site) : (s.apply resolve log site).1.Sound :=
  sound_tabled.apply resolve h log site fun _ _ _ => trivial

/-- A registration that is answered without an error leaves the name bound to the process, or reserved for it. -/
def Answers (s : ShardedState) (a : Applied) : Prop :=
  ∀ cmd r, a.log.data = .ok cmd → cmd.type = .cmdRegister → (s.apply resolve a.log a.site).2 = .register r →
    r.err = none →
    (s.step resolve a).lookup cmd.name = some cmd.pid ∨
      ∃ e, (s.step resolve a).pending.lookup cmd.name = some e ∧ e.pid = cmd.pid

/-- No conflict of a registration with the reservation of another process is decided for the registration. -/
def Yields (s : ShardedState) (a : Applied) : Prop :=
  ∀ cmd e, a.log.data = .ok cmd → cmd.type = .cmdRegister → s.pending.lookup cmd.name = some e → e.pid ≠ cmd.pid →
    resolve cmd.name e.pid cmd.pid ≠ cmd.pid

theorem apply_register {a : Applied} (hdata : a.log.data = .ok cmd) (htype : cmd.type = .cmdRegister) :
    s.apply resolve a.log a.site =
      ((s.applyRegister resolve cmd a.log.index).1, .register (s.applyRegister resolve cmd a.log.index).2) := by
  unfold apply
  rw [hdata]
  simp only [applyCommand, htype]

theorem answers_iff_yields (h : s.Sound) (a : Applied) : s.Answers resolve a ↔ s.Yields resolve a := by
  constructor
  · intro hanswers cmd e hdata htype hpending hne hwin
    have happly := apply_register resolve (s := s) hdata htype
    have hanswer := hanswers cmd _ hdata htype (congrArg Prod.snd happly)
    rw [step, happly] at hanswer
    rcases applyRegister_cases resolve h cmd a.log.index with ⟨-, hlose⟩ | ⟨heq, herr, -⟩ | ⟨hnone, -⟩
    · exact hlose e hpending hwin
    · -- the reservation of the other process is still there
      rw [heq] at hanswer
      rcases hanswer herr with hlookup | ⟨e', he', hpid⟩
      · rw [lookup, h.entry_none hpending] at hlookup
        cases hlookup
      · cases hpending.symm.trans he'
        exact hne hpid
    · cases hnone.symm.trans hpending
  · intro hyields cmd r hdata htype hres herr
    have happly := apply_register resolve (s := s) hdata htype
    rw [happly] at hres
    cases hres
    rw [step, happly]
    rcases applyRegister_cases resolve h cmd a.log.index with ⟨hne, -⟩ | ⟨heq, -, e, he, hwin⟩ | ⟨-, hlookup⟩
    · exact absurd herr hne
    · rw [heq]
      refine .inr ⟨e, he, ?_⟩
      by_contra hpid
      exact hyields cmd e hdata htype he hpid (hwin hpid)
    · exact .inl hlookup

/-- In a run from an empty registry, exactly when no registration is decided against a reservation. -/
theorem table_invariant_iff (es : List Applied) :
    Along (step resolve) (fun s a => (s.step resolve a).Sound ∧ s.Answers resolve a) newShardedState es ↔
      Along (step resolve) (Yields resolve) newShardedState es :=
  along_congr (P := Sound) (fun _ a hs => hs.apply resolve a.log a.site)
    (fun _ a hs => ⟨fun hkept => (answers_iff_yields resolve hs a).mp hkept.2,
      fun hyields => ⟨hs.apply resolve a.log a.site, (answers_iff_yields resolve hs a).mpr hyields⟩⟩)
    sound_new es

/-- The rule by which the newcomer wins. -/
def lastWins (_ : Bytes) (_ incoming : PID) : PID := incoming

/-- Process `1` reserves the name `n`, and process `2` registers it. -/
def overruled : List Applied :=
  [{ log :=
      { index := 1
        data := .ok
          { type := .cmdRegisterPending, name := [110], pid := { uniqID := [1] }, requiredNodes := [[97]] } } },
    { log := { index := 2, data := .ok { type := .cmdRegister, name := [110], pid := { uniqID := [2] } } } }]

theorem overruled_not_bound : ¬ ∀ (resolve : Bytes → PID → PID → PID) (es : List Applied),
    Along (step resolve) (fun s a => (s.step resolve a).Sound ∧ s.Answers resolve a) newShardedState es := by
  intro h
  have hanswers := (h lastWins overruled).2.1.2
  have := hanswers _ { pid := { uniqID := [2] }, resolvedPID := { uniqID := [1] }, fenceToken := 2 } rfl rfl
    (by decide +kernel) rfl
  revert this
  decide +kernel

end ShardedState
end Wippy.Global
