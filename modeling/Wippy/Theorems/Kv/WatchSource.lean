import Mathlib.Data.List.Infix
import Wippy.Kv.WatchSource
import Wippy.Lib.MapSum

/-! The watch source delivers without gaps and accounts for every byte. In the loop over the subscriptions an event has
    reached only some of them, so the invariant gives each a log of its own. -/

namespace Wippy.Kv.Raft
open Lib List Option Function

variable {sub sub' : Subscription} {event : WatchRecord} {id : Nat} {w : Worker} {item : WatchItem} {size : Int}

namespace Subscription

/-- The bytes that a subscription accounts for: its prefix, the queued items and the one in flight. -/
def held (sub : Subscription) : Int :=
  sub.prefixBytes + (sub.queue.contents.map WatchItem.bytes).sum + sub.flight.elim 0 WatchItem.bytes

/-- The items queued or in flight. -/
def load (sub : Subscription) : Nat := sub.queue.count + boolInt sub.flight.isSome

/-- What a subscription adds to the count of active ones. -/
def share (sub : Subscription) : Int := if sub.active then 1 else 0

/-- The events of a log that a subscription has to hand out: the matching ones since its registration. -/
def owed (sub : Subscription) (log : List WatchRecord) : List WatchRecord :=
  (log.drop sub.since).filter fun event => watchEventMatches event sub.pfx

/-- The event that the worker has taken and not handed out. -/
def inHand (sub : Subscription) : List WatchRecord :=
  match sub.worker with
  | .sent => []
  | _ => sub.flight.toList.map WatchItem.event

/-- The events that wait. -/
def queued (sub : Subscription) : List WatchRecord := sub.queue.contents.map WatchItem.event

/-- Where the worker is, an item is in flight or not, and an ended subscription cannot become active again. -/
def Placed (sub : Subscription) : Prop :=
  match sub.worker with
  | .top | .waiting | .cancelIdle => sub.flight = none
  | .checking item | .sending item => sub.flight = some item
  | .sent | .cancelHeld => sub.flight.isSome
  | .dropping => sub.flight.isSome ∧ sub.active = false
  | .exiting => sub.flight = none ∧ sub.active = false

/-- The worker can move to `w`, with the event that it has taken. -/
def Moves (sub : Subscription) (w : Worker) : Prop :=
  { sub with worker := w }.Placed ∧ { sub with worker := w }.inHand = sub.inHand

/-- `taken` is the beginning of what the subscription is owed, and all of it while it is active. -/
def Follows (sub : Subscription) (log taken : List WatchRecord) : Prop :=
  taken <+: sub.owed log ∧ (sub.active = true → taken = sub.owed log)

/-- The invariant of a subscription that has seen `log`. -/
structure Sound (maxEvents : Nat) (log : List WatchRecord) (sub : Subscription) : Prop where
  ring : sub.queue.Valid
  size : sub.active = true → sub.queue.cells.length = maxEvents
  emptied : sub.active = false → sub.queue = {}
  room : sub.load ≤ maxEvents
  prefix_nonneg : 0 ≤ sub.prefixBytes
  queue_nonneg : ∀ item ∈ sub.queue.contents, 0 ≤ item.bytes
  flight_nonneg : ∀ item ∈ sub.flight, 0 ≤ item.bytes
  placed : sub.Placed
  since_le : sub.since ≤ log.length
  stream : sub.Follows log (sub.handed ++ sub.inHand ++ sub.queued)

theorem owed_append {log : List WatchRecord} (h : sub.since ≤ log.length) (event : WatchRecord) :
    sub.owed (log ++ [event]) = sub.owed log ++ if watchEventMatches event sub.pfx then [event] else [] := by
  unfold owed
  rw [drop_append_of_le_length h, filter_append, filter_singleton]
  cases watchEventMatches event sub.pfx <;> rfl

theorem owed_mono (sub : Subscription) {log log' : List WatchRecord} (h : log <+: log') :
    sub.owed log <+: sub.owed log' :=
  (List.IsPrefix.drop h sub.since).filter _

theorem share_nonneg (sub : Subscription) : 0 ≤ sub.share := by
  unfold share
  split <;> decide

namespace Sound
variable {maxEvents : Nat} {log : List WatchRecord} {sub : Subscription}

section
variable (h : sub.Sound maxEvents log)
include h

theorem queue_sum_nonneg : 0 ≤ (sub.queue.contents.map WatchItem.bytes).sum :=
  sum_nonneg fun x hx => by
    obtain ⟨item, hitem, rfl⟩ := List.mem_map.mp hx
    exact h.queue_nonneg item hitem

theorem flight_elim_nonneg : 0 ≤ sub.flight.elim 0 WatchItem.bytes := by
  cases hf : sub.flight with
  | none => exact Int.le_refl 0
  | some item => exact h.flight_nonneg item (by simp [hf])

theorem held_nonneg : 0 ≤ sub.held := by
  have hp := h.prefix_nonneg
  have hq := h.queue_sum_nonneg
  have hf := h.flight_elim_nonneg
  unfold held
  omega

theorem placedAt (hw : sub.worker = w) : { sub with worker := w }.Placed := by
  subst hw
  exact h.placed

theorem handed : sub.handed <+: sub.owed log := by
  have hstream := h.stream.1
  rw [append_assoc] at hstream
  exact (prefix_append _ _).trans hstream

/-! ### Operations on one subscription -/

theorem unaffected (hskip : sub.active = false ∨ watchEventMatches event sub.pfx = false) :
    sub.Sound maxEvents (log ++ [event]) where
  __ := h
  since_le := by
    rw [length_append]
    exact Nat.le_add_right_of_le h.since_le
  stream := by
    refine ⟨h.stream.1.trans (sub.owed_mono (prefix_append _ _)), fun hact => ?_⟩
    have hmatch : watchEventMatches event sub.pfx = false := by simpa [hact] using hskip
    rw [owed_append h.since_le, hmatch, h.stream.2 hact]
    simp

theorem pushed (hact : sub.active = true) (hmatch : watchEventMatches event sub.pfx = true)
    (hroom : sub.load < maxEvents) (hsize : 0 ≤ size) :
    { sub with queue := sub.queue.push { event, bytes := size }, notify := true }.Sound maxEvents
      (log ++ [event]) := by
  have hcount : sub.queue.count < sub.queue.cells.length := by
    rw [h.size hact]
    exact Nat.lt_of_le_of_lt (Nat.le_add_right _ _) hroom
  have hcontents := RingBuffer.contents_push h.ring hcount { event, bytes := size }
  have hall : sub.handed ++ sub.inHand ++ (sub.queued ++ [event]) = sub.owed (log ++ [event]) := by
    rw [owed_append h.since_le, hmatch, ← h.stream.2 hact]
    simp
  have hqueued : ({ sub with queue := sub.queue.push { event, bytes := size }, notify := true }).queued
      = sub.queued ++ [event] := by
    simp only [queued, hcontents, map_append, map_cons, map_nil]
  refine { h with
    ring := h.ring.push hcount _, size := ?_, emptied := ?_, room := ?_, queue_nonneg := ?_, since_le := ?_,
    stream := ?_ }
  · intro _
    exact (RingBuffer.length_cells_push _).trans (h.size hact)
  · intro hinact
    cases hact.symm.trans hinact
  · unfold load at hroom ⊢
    simp only [RingBuffer.push]
    omega
  · intro item hitem
    rw [hcontents, mem_append, mem_singleton] at hitem
    rcases hitem with hitem | rfl
    · exact h.queue_nonneg item hitem
    · exact hsize
  · rw [length_append]
    exact Nat.le_add_right_of_le h.since_le
  · rw [hqueued]
    exact ⟨hall ▸ prefix_rfl, fun _ => hall⟩

theorem invalidated (reason : WatchErr) :
    { sub with active := false, err := some reason, queue := {} }.Sound maxEvents log where
  __ := h
  ring := RingBuffer.valid_empty
  size hact := absurd hact Bool.false_ne_true
  emptied _ := rfl
  room := by
    have := h.room
    unfold load at this ⊢
    simp only
    omega
  queue_nonneg := by simp
  placed := by
    have := h.placed
    unfold Placed at this ⊢
    cases hw : sub.worker <;> simp_all
  stream := by
    have hqueued : ({ sub with active := false, err := some reason, queue := {} }).queued = [] := rfl
    rw [hqueued, append_nil]
    exact ⟨(prefix_append _ _).trans h.stream.1, fun hact => absurd hact Bool.false_ne_true⟩

end

theorem held_invalidated (sub : Subscription) (reason : WatchErr) :
    ({ sub with active := false, err := some reason, queue := {} } : Subscription).held
      = sub.held - (sub.queue.contents.map WatchItem.bytes).sum := by
  unfold held
  simp only [RingBuffer.contents_empty, map_nil, sum_nil]
  omega

section
variable (h : sub.Sound maxEvents log)
include h

theorem taken (hact : sub.active = true) (hcount : 0 < sub.queue.count) (htop : sub.worker = .top) :
    { sub with queue := sub.queue.pop, flight := some sub.queue.front, worker := .checking sub.queue.front }.Sound
      maxEvents log := by
  have hcontents := RingBuffer.contents_pop h.ring hcount
  have hflight : sub.flight = none := h.placedAt htop
  have hsame : sub.handed ++ [sub.queue.front.event] ++ sub.queue.pop.contents.map WatchItem.event
      = sub.handed ++ sub.inHand ++ sub.queued := by
    simp [inHand, queued, htop, hflight, hcontents]
  refine { h with
    ring := h.ring.pop hcount, size := ?_, emptied := ?_, room := ?_, queue_nonneg := ?_, flight_nonneg := ?_,
    placed := rfl, stream := hsame ▸ h.stream }
  · intro _
    exact RingBuffer.length_cells_pop.trans (h.size hact)
  · intro hinact
    cases hact.symm.trans hinact
  · have := h.room
    unfold load at this ⊢
    simp only [RingBuffer.pop, boolInt, isSome_some, if_true]
    omega
  · intro item hitem
    exact h.queue_nonneg item (hcontents ▸ mem_cons_of_mem _ hitem)
  · intro item hitem
    obtain rfl : sub.queue.front = item := by simpa using hitem
    exact h.queue_nonneg _ (hcontents ▸ mem_cons_self)

theorem held_taken (hcount : 0 < sub.queue.count) (hflight : sub.flight = none) (w : Worker) :
    ({ sub with queue := sub.queue.pop, flight := some sub.queue.front, worker := w } : Subscription).held =
      sub.held := by
  unfold held
  simp only [RingBuffer.contents_pop h.ring hcount, map_cons, sum_cons, hflight, elim_some, elim_none]
  omega

theorem delivered (hw : sub.worker = .sending item) :
    { sub with handed := sub.handed ++ [item.event], worker := .sent }.Sound maxEvents log := by
  have hflight : sub.flight = some item := h.placedAt hw
  have hsame : sub.handed ++ [item.event] ++ [] ++ sub.queued = sub.handed ++ sub.inHand ++ sub.queued := by
    simp [inHand, hw, hflight]
  exact { h with
    placed := by simp [Placed, hflight]
    stream := hsame ▸ h.stream }

theorem moved (notify ctxDone : Bool) (hmoves : sub.Moves w) :
    { sub with worker := w, notify, ctxDone }.Sound maxEvents log where
  __ := h
  placed := hmoves.1
  stream := by
    show sub.Follows log (sub.handed ++ { sub with worker := w }.inHand ++ sub.queued)
    rw [hmoves.2]
    exact h.stream

theorem finished (hplaced : { sub with flight := none, worker := w }.Placed)
    (hsent : sub.worker = .sent ∨ sub.active = false) :
    { sub with flight := none, worker := w }.Sound maxEvents log := by
  have hnone : ({ sub with flight := none, worker := w }).inHand = [] := by
    cases w <;> rfl
  refine { h with room := ?_, flight_nonneg := by simp, placed := hplaced, stream := ?_ }
  · have := h.room
    exact Nat.le_trans (Nat.add_le_add_left (Nat.zero_le _) _) this
  · rw [hnone, append_nil]
    rcases hsent with hsent | hinact
    · have hstream := h.stream
      simp only [inHand, hsent, append_nil] at hstream
      exact hstream
    · have hqueued : sub.queued = [] := by simp [queued, h.emptied hinact]
      show sub.Follows log (sub.handed ++ sub.queued)
      rw [hqueued, append_nil]
      exact ⟨h.handed, fun hact => by cases hact.symm.trans hinact⟩

end
end Sound
end Subscription

theorem watchEventBytes_nonneg (h : watchEventBytes event = some size) : 0 ≤ size := by
  -- the running total is kept non-negative by every length that is added
  refine List.foldlRecOn (motive := fun total : Option Int => ∀ x ∈ total, 0 ≤ x) _ addSize ?_ ?_ size h
  · simp
  · intro total htotal n _ x hx
    obtain ⟨t, ht, hx⟩ := bind_eq_some_iff.mp hx
    have := htotal t ht
    split at hx
    · cases hx
    · obtain rfl := Option.some.inj hx
      omega

theorem foldl_bytes (items : List WatchItem) (bytes : Int) :
    items.foldl (fun bytes item => bytes - item.bytes) bytes = bytes - (items.map WatchItem.bytes).sum := by
  induction items generalizing bytes with
  | nil => simp
  | cons item items ih =>
    rw [foldl_cons, ih, map_cons, sum_cons]
    omega

namespace WatchSource
variable (s : WatchSource) {limits : WatchLimits}

/-- The invariant of a source whose subscription `id` has seen `log id`. -/
structure Sound (log : Nat → List WatchRecord) (s : WatchSource) : Prop where
  subs : ∀ id sub, s.watches.lookup id = some sub → sub.Sound s.limits.maxEvents (log id)
  fresh : ∀ id, s.nextSub ≤ id → s.watches.lookup id = none
  bytes_eq : s.bytes = s.watches.sum Subscription.held
  bytes_le : s.bytes ≤ s.limits.maxBytes
  active_eq : s.active = s.watches.sum Subscription.share
  retired : ∀ sub ∈ s.retired, sub.handed <+: sub.owed s.published

@[simp] theorem lookup_put (id id' : Nat) (sub : Subscription) :
    (s.put id sub).watches.lookup id' = if id' = id then some sub else s.watches.lookup id' :=
  Map.lookup_insert_eq _ _ _ _

/-- No subscription is active. -/
def Idle (s : WatchSource) : Prop := ∀ id sub, s.watches.lookup id = some sub → sub.active = false

/-- What every step other than a registration keeps, apart from the log: each registered subscription was one
    before, and it is active only if it was. -/
structure Kept (s t : WatchSource) : Prop where
  published : t.published = s.published
  closed : t.closed = s.closed
  continues : ∀ id sub', t.watches.lookup id = some sub' →
    ∃ sub, s.watches.lookup id = some sub ∧ (sub'.active = true → sub.active = true)

namespace Kept
variable {s t u : WatchSource}

protected theorem refl (s : WatchSource) : Kept s s := ⟨rfl, rfl, fun _ sub h => ⟨sub, h, fun hact => hact⟩⟩

protected theorem trans (h : Kept s t) (h' : Kept t u) : Kept s u where
  published := h'.published.trans h.published
  closed := h'.closed.trans h.closed
  continues id sub'' hl := by
    obtain ⟨sub', hl', hact'⟩ := h'.continues id sub'' hl
    obtain ⟨sub, hl, hact⟩ := h.continues id sub' hl'
    exact ⟨sub, hl, fun h => hact (hact' h)⟩

theorem put (hl : s.watches.lookup id = some sub) (sub' : Subscription)
    (hact : sub'.active = true → sub.active = true) (bytes active : Int) :
    Kept s ({ s with bytes, active }.put id sub') := by
  refine ⟨rfl, rfl, fun id' x hx => ?_⟩
  rw [lookup_put] at hx
  split at hx
  next heq =>
    obtain rfl := Option.some.inj hx
    exact ⟨sub, heq ▸ hl, hact⟩
  · exact ⟨x, hx, fun h => h⟩

theorem invalidateLocked (s : WatchSource) (id : Nat) (reason : WatchErr) :
    Kept s (s.invalidateLocked id reason) := by
  unfold WatchSource.invalidateLocked
  split
  · exact .refl s
  rename_i sub hl
  split
  · exact .refl s
  · exact put hl _ (fun h => absurd h Bool.false_ne_true) _ _

theorem publishTo (event : WatchRecord) (s : WatchSource) (id : Nat) : Kept s (publishTo event s id) := by
  unfold WatchSource.publishTo
  split
  · exact .refl s
  rename_i sub hl
  split
  · exact .refl s
  split
  · exact invalidateLocked s id _
  split
  · exact invalidateLocked s id _
  split
  · exact invalidateLocked s id _
  · exact put hl { sub with queue := _, notify := true } (fun h => h) _ _

theorem foldl {α : Type} {f : WatchSource → α → WatchSource} (hf : ∀ s a, Kept s (f s a)) (l : List α)
    (s : WatchSource) : Kept s (l.foldl f s) :=
  List.foldlRecOn (motive := Kept s) l f (.refl s) fun t h a _ => h.trans (hf t a)

theorem quiet (h : Kept s t) (hs : s.closed = true → s.Idle) (hclosed : t.closed = true) : t.Idle := by
  intro id sub' hl
  obtain ⟨sub, hl, hact⟩ := h.continues id sub' hl
  have hinact := hs (h.closed ▸ hclosed) id sub hl
  rw [Bool.eq_false_iff] at hinact ⊢
  exact fun hact' => hinact (hact hact')

end Kept

namespace Sound
variable {log : Nat → List WatchRecord} {s : WatchSource} {id : Nat} {sub : Subscription}

section
variable (h : s.Sound log)
include h

theorem congr {log' : Nat → List WatchRecord} (hlog : ∀ id sub, s.watches.lookup id = some sub → log id = log' id) :
    s.Sound log' :=
  { h with subs := fun id sub hl => hlog id sub hl ▸ h.subs id sub hl }

theorem relog {l : List WatchRecord}
    (hsub : ∀ sub, s.watches.lookup id = some sub → sub.Sound s.limits.maxEvents l) :
    s.Sound (Function.update log id l) where
  __ := h
  subs id' x hx := by
    by_cases heq : id' = id
    · subst heq
      rw [update_self]
      exact hsub x hx
    · rw [update_of_ne heq]
      exact h.subs id' x hx

theorem replace (hl : s.watches.lookup id = some sub) {l : List WatchRecord} (hsub : sub'.Sound s.limits.maxEvents l)
    (bytes active : Int) (hb : bytes = s.bytes - sub.held + sub'.held) (hle : bytes ≤ s.limits.maxBytes)
    (ha : active = s.active - sub.share + sub'.share) :
    ({ s with bytes, active }.put id sub').Sound (Function.update log id l) where
  subs id' x hx := by
    rw [lookup_put] at hx
    split at hx
    next heq =>
      subst heq
      obtain rfl := Option.some.inj hx
      rw [update_self]
      exact hsub
    next hne =>
      rw [update_of_ne hne]
      exact h.subs id' x hx
  fresh id' hid' := by
    have hne : id' ≠ id := by
      rintro rfl
      exact absurd (h.fresh id' hid') (by simp [hl])
    rw [lookup_put, if_neg hne]
    exact h.fresh id' hid'
  bytes_eq := by
    have hsum := Map.sum_insert s.watches Subscription.held id sub'
    rw [hl, elim_some, ← h.bytes_eq] at hsum
    show bytes = Map.sum (s.watches.insert id sub') _
    omega
  bytes_le := hle
  active_eq := by
    have hsum := Map.sum_insert s.watches Subscription.share id sub'
    rw [hl, elim_some, ← h.active_eq] at hsum
    show active = Map.sum (s.watches.insert id sub') _
    omega
  retired := h.retired

theorem revise (hl : s.watches.lookup id = some sub) (hsub : sub'.Sound s.limits.maxEvents (log id))
    (hheld : sub'.held = sub.held) (hact : sub'.active = sub.active) : (s.put id sub').Sound log := by
  have hshare : sub'.share = sub.share := by
    unfold Subscription.share
    rw [hact]
  have := h.replace hl hsub s.bytes s.active (by omega) h.bytes_le (by omega)
  rwa [update_eq_self] at this

theorem nonneg : 0 ≤ s.bytes := by
  rw [h.bytes_eq]
  exact Map.sum_nonneg _ _ fun id sub hl => (h.subs id sub hl).held_nonneg

theorem inactive (hzero : s.active = 0) (hl : s.watches.lookup id = some sub) : sub.active = false := by
  have hsum := Map.sum_erase s.watches Subscription.share id
  rw [hl, elim_some, ← h.active_eq] at hsum
  have hrest : 0 ≤ Map.sum (s.watches.erase id) Subscription.share :=
    Map.sum_nonneg _ _ fun _ x _ => x.share_nonneg
  unfold Subscription.share at hsum
  cases hact : sub.active with
  | false => rfl
  | true =>
    rw [hact, if_pos rfl] at hsum
    exact absurd hsum (by unfold Subscription.share at hrest; omega)

/-! ### Ending subscriptions -/

theorem invalidateLocked (id : Nat) (reason : WatchErr) : (s.invalidateLocked id reason).Sound log := by
  unfold WatchSource.invalidateLocked
  split
  · exact h
  rename_i sub hl
  split
  · exact h
  rename_i hact
  have hact : sub.active = true := by simpa using hact
  have hsub := h.subs id sub hl
  have hbytes := foldl_bytes sub.queue.contents s.bytes
  have := h.replace hl (hsub.invalidated reason)
    (sub.queue.contents.foldl (fun bytes item => bytes - item.bytes) s.bytes) (s.active - 1)
    (by rw [Subscription.Sound.held_invalidated]; omega)
    (by have := h.bytes_le; have := hsub.queue_sum_nonneg; omega)
    (by simp [Subscription.share, hact])
  rwa [update_eq_self] at this

end

theorem lookup_invalidateLocked {reason : WatchErr}
    (hl : (s.invalidateLocked id reason).watches.lookup id = some sub') :
    sub'.active = false ∧
      ∃ sub, s.watches.lookup id = some sub ∧ sub'.worker = sub.worker ∧ sub'.flight = sub.flight := by
  unfold WatchSource.invalidateLocked at hl
  split at hl
  next hnone => cases hnone.symm.trans hl
  rename_i sub hsome
  split at hl
  next hact =>
    obtain rfl := Option.some.inj (hsome.symm.trans hl)
    exact ⟨by simpa using hact, sub, hsome, rfl, rfl⟩
  next =>
    rw [lookup_put, if_pos rfl] at hl
    obtain rfl := Option.some.inj hl
    exact ⟨rfl, sub, hsome, rfl, rfl⟩

theorem invalidateAll (h : s.Sound log) (which : Subscription → Bool) (reason : WatchErr) :
    (s.invalidateAll which reason).Sound log := by
  refine List.foldlRecOn (motive := fun s : WatchSource => s.Sound log) s.watches.keys _ h fun s h id _ => ?_
  split
  · exact h.invalidateLocked id reason
  · exact h

theorem publishTo (h : s.Sound log) (event : WatchRecord) (id : Nat) :
    (publishTo event s id).Sound (Function.update log id (log id ++ [event])) := by
  -- a subscription that ends in the middle of the loop is one that the event does not reach
  have hover : (s.invalidateLocked id .overflow).Sound (Function.update log id (log id ++ [event])) := by
    have hinv := h.invalidateLocked id .overflow
    exact hinv.relog fun x hx => (hinv.subs id x hx).unaffected (.inl (lookup_invalidateLocked hx).1)
  unfold WatchSource.publishTo
  split
  next hl => exact h.relog fun sub hl' => by cases hl.symm.trans hl'
  rename_i sub hl
  have hsub := h.subs id sub hl
  split
  next hskip =>
    refine h.relog fun x hx => ?_
    obtain rfl := Option.some.inj (hl.symm.trans hx)
    exact hsub.unaffected (by simpa using hskip)
  rename_i hskip
  obtain ⟨hact, hmatch⟩ : sub.active = true ∧ watchEventMatches event sub.pfx = true := by simpa using hskip
  split
  · exact hover
  rename_i hroom
  split
  · exact hover
  rename_i size hsize
  split
  · exact hover
  have hcount : sub.queue.count < sub.queue.cells.length := by
    rw [hsub.size hact]
    omega
  refine h.replace hl (hsub.pushed hact hmatch (Nat.lt_of_not_ge hroom) (watchEventBytes_nonneg hsize))
    (s.bytes + size) s.active ?_ (by omega) ?_
  · simp only [Subscription.held, RingBuffer.contents_push hsub.ring hcount, map_append, map_cons,
      map_nil, sum_append, sum_cons, sum_nil]
    omega
  · simp [Subscription.share]

theorem publishAll (event : WatchRecord) :
    ∀ (ids : List Nat), ids.Nodup → ∀ {log : Nat → List WatchRecord} {s : WatchSource}, s.Sound log →
      (ids.foldl (WatchSource.publishTo event) s).Sound fun id => if id ∈ ids then log id ++ [event] else log id
  | [], _, _, _, h => by simpa using h
  | id :: ids, hnd, log, s, h => by
    obtain ⟨hid, hnd⟩ := nodup_cons.mp hnd
    refine (publishAll event ids hnd (h.publishTo event id)).congr fun id' _ _ => ?_
    by_cases heq : id' = id
    · subst heq
      simp [hid]
    · simp [heq]

end Sound

/-- The invariant between steps: every subscription has seen the whole log, and a closed source has no active one. -/
structure Inv (log : List WatchRecord) (s : WatchSource) : Prop where
  sound : s.Sound fun _ => log
  published : s.published = log
  quiet : s.closed = true → s.Idle

namespace Inv
variable {s : WatchSource} {log : List WatchRecord}

section
variable (h : s.Inv log)
include h

theorem of_kept {t : WatchSource} (hsound : t.Sound fun _ => log) (hkept : Kept s t) : t.Inv log :=
  ⟨hsound, hkept.published.trans h.published, hkept.quiet h.quiet⟩

theorem note (hskip : ∀ id sub, s.watches.lookup id = some sub →
      sub.active = false ∨ watchEventMatches event sub.pfx = false) :
    (s.note event).Inv (log ++ [event]) where
  sound := { h.sound with
    subs := fun id sub hl => (h.sound.subs id sub hl).unaffected (hskip id sub hl)
    retired := fun sub hsub => (h.sound.retired sub hsub).trans (sub.owed_mono (prefix_append _ _)) }
  published := congrArg (· ++ [event]) h.published
  quiet := h.quiet

theorem publishEventLocked (event : WatchRecord) (order : List Nat) :
    (s.publishEventLocked event order).Inv (log ++ [event]) := by
  have hnd : (s.watches.keysIn order).Nodup := s.watches.keysIn_nodup order
  have hkept := Kept.foldl (Kept.publishTo event) (s.watches.keysIn order) s
  have hsound := h.sound.publishAll event _ hnd
  refine ⟨{ hsound with subs := fun id sub' hl => ?_, retired := fun sub hsub => ?_ },
    congrArg (· ++ [event]) (hkept.published.trans h.published), hkept.quiet h.quiet⟩
  · obtain ⟨sub, hl', -⟩ := hkept.continues id sub' hl
    have hmem : id ∈ s.watches.keysIn order := Map.mem_keysIn.mpr (AList.lookup_isSome.mp (by simp [hl']))
    have := hsound.subs id sub' hl
    rwa [if_pos hmem] at this
  · exact (hsound.retired sub hsub).trans (sub.owed_mono (prefix_append _ _))

omit h in
/-- What each event extends along with the log holds after all events. -/
theorem foldl_log {P : List WatchRecord → WatchSource → Prop}
    {f : WatchSource → WatchRecord × List Nat → WatchSource}
    (hf : ∀ log s e, P log s → P (log ++ [e.1]) (f s e)) (events : List (WatchRecord × List Nat)) (h : P log s) :
    P (log ++ events.map Prod.fst) (events.foldl f s) := by
  induction events generalizing log s with
  | nil => simpa using h
  | cons e events ih => simpa using ih (hf log s e h)

theorem notes (hidle : s.Idle) (events : List (WatchRecord × List Nat)) :
    (events.foldl (fun s e => s.note e.1) s).Inv (log ++ events.map Prod.fst) :=
  (foldl_log (P := fun log s => s.Inv log ∧ s.Idle)
    (fun _ _ _ h => ⟨h.1.note fun id sub hl => .inl (h.2 id sub hl), h.2⟩) events ⟨h, hidle⟩).1

theorem idle (hoff : s.closed ∨ s.active = 0) : s.Idle := by
  rcases hoff with hclosed | hzero
  · exact h.quiet hclosed
  · exact fun _ _ hl => h.sound.inactive hzero hl

theorem publish (events : List (WatchRecord × List Nat)) : (s.publish events).Inv (log ++ events.map Prod.fst) := by
  unfold WatchSource.publish
  split
  next hoff => exact h.notes (h.idle hoff) events
  · exact foldl_log (fun _ _ e h => h.publishEventLocked e.1 e.2) events h

end

theorem matches_key {pfx : Bytes} (h : watchEventMatches event pfx = true) :
    pfx.isPrefixOf ((eventKey event).getD []) = true := by
  unfold watchEventMatches at h
  split at h
  next hnil => simp [hnil]
  cases hkey : eventKey event with
  | none => simp [hkey] at h
  | some key => simpa [hkey] using h

theorem unobserved {record : WatchRecord} (hobs : ¬ s.observed record = true) (id : Nat) (sub : Subscription)
    (hl : s.watches.lookup id = some sub) : sub.active = false ∨ watchEventMatches record sub.pfx = false := by
  by_contra hcon
  obtain ⟨hact, hmatch⟩ : sub.active = true ∧ watchEventMatches record sub.pfx = true := by simpa using hcon
  refine hobs (List.any_eq_true.mpr ⟨sub, Map.mem_values.mpr ⟨id, hl⟩, ?_⟩)
  rw [hact, matches_key hmatch]
  rfl

theorem publishRecords (h : s.Inv log) (records : List (WatchRecord × List Nat)) :
    (s.publishRecords records).Inv (log ++ records.map Prod.fst) := by
  unfold WatchSource.publishRecords
  split
  next hoff => exact h.notes (h.idle hoff) records
  refine foldl_log (fun log s r h => ?_) records h
  split
  next => exact h.publishEventLocked r.1 r.2
  next hobs => exact h.note (unobserved hobs)

theorem invalidateLocked (h : s.Inv log) (id : Nat) (reason : WatchErr) : (s.invalidateLocked id reason).Inv log :=
  h.of_kept (h.sound.invalidateLocked id reason) (.invalidateLocked s id reason)

theorem kept_invalidateAll (s : WatchSource) (which : Subscription → Bool) (reason : WatchErr) :
    Kept s (s.invalidateAll which reason) := by
  refine Kept.foldl (fun s id => ?_) _ s
  split
  · exact .invalidateLocked s id reason
  · exact .refl s

theorem invalidateAll (h : s.Inv log) (which : Subscription → Bool) (reason : WatchErr) :
    (s.invalidateAll which reason).Inv log :=
  h.of_kept (h.sound.invalidateAll which reason) (kept_invalidateAll s which reason)

theorem invalidate_walk (reason : WatchErr) : ∀ (ids : List Nat) (s : WatchSource),
    (∀ id sub, s.watches.lookup id = some sub → sub.active = true → id ∈ ids) →
    ∀ id sub, (ids.foldl (fun s id =>
      if (s.watches.lookup id).any Subscription.active then s.invalidateLocked id reason else s) s).watches.lookup id
        = some sub → sub.active = false
  | [], s, hall, id, sub, hl => by
    rw [Bool.eq_false_iff]
    exact fun hact => absurd (hall id sub hl hact) not_mem_nil
  | i :: ids, s, hall, id, sub, hl => by
    refine invalidate_walk reason ids _ (fun id' sub' hl' hact' => ?_) id sub hl
    simp only at hl'
    split at hl'
    next =>
      obtain ⟨x, hx, hact⟩ := (Kept.invalidateLocked s i reason).continues id' sub' hl'
      rcases mem_cons.mp (hall id' x hx (hact hact')) with rfl | hmem
      · cases (Sound.lookup_invalidateLocked hl').1.symm.trans hact'
      · exact hmem
    next hinact =>
      rcases mem_cons.mp (hall id' sub' hl' hact') with rfl | hmem
      · simp [hl', hact'] at hinact
      · exact hmem

theorem close (h : s.Inv log) : s.close.Inv log := by
  unfold WatchSource.close
  split
  · exact h
  have hsound : ({ s with closed := true }).Sound fun _ => log := { h.sound with }
  have hkept := kept_invalidateAll { s with closed := true } Subscription.active .kvClosed
  refine ⟨hsound.invalidateAll _ _, hkept.published.trans h.published, fun _ => ?_⟩
  exact invalidate_walk .kvClosed _ _ fun id sub hl _ => AList.lookup_isSome.mp (by simp [hl])

theorem stopOwner (h : s.Inv log) (owner : Nat) : (s.stopOwner owner).Inv log := by
  have hstop : ∀ stopped, ({ s with stopped }).Inv log := fun _ => ⟨{ h.sound with }, h.published, h.quiet⟩
  exact (hstop _).invalidateAll _ _

theorem sound_newSubscription (hlog : s.published = log) (pfx : Bytes) (owner : Option Nat) :
    (s.newSubscription pfx owner).Sound s.limits.maxEvents log where
  ring := RingBuffer.valid_ofSize _
  size _ := length_replicate
  emptied hact := absurd hact (by simp [newSubscription])
  room := Nat.zero_le _
  prefix_nonneg := Int.natCast_nonneg _
  queue_nonneg := by simp [newSubscription]
  flight_nonneg := by simp [newSubscription]
  placed := rfl
  since_le := (congrArg length hlog).le
  stream := by
    simp [newSubscription, Subscription.Follows, Subscription.inHand, Subscription.queued, Subscription.owed, hlog]

section
variable (h : s.Inv log)
include h

theorem watch (pfx : Bytes) (owner : Option Nat) (ctxDone : Bool) : (s.watch pfx owner ctxDone).1.Inv log := by
  have hnone := h.sound.fresh s.nextSub (Nat.le_refl _)
  unfold WatchSource.watch
  dsimp only
  split
  · exact h
  split
  · exact h
  rename_i hopen
  split
  · exact h
  split
  · exact h
  split
  · exact h
  refine ⟨{ h.sound with
    subs := fun id sub hl => ?_, fresh := fun id hid => ?_, bytes_eq := ?_, bytes_le := ?_, active_eq := ?_ },
    h.published, fun hclosed => absurd hclosed hopen⟩
  · rcases Map.lookup_insert_some hl with ⟨rfl, rfl⟩ | ⟨-, hl⟩
    · exact sound_newSubscription h.published pfx owner
    · exact h.sound.subs id sub hl
  · simp only [Map.lookup_insert_eq]
    rw [if_neg (Nat.ne_of_gt hid)]
    exact h.sound.fresh id (Nat.le_of_succ_le hid)
  · have hsum := Map.sum_insert s.watches Subscription.held s.nextSub (s.newSubscription pfx owner)
    rw [hnone, elim_none, ← h.sound.bytes_eq, Int.add_zero] at hsum
    rw [hsum]
    simp [Subscription.held, newSubscription]
  · show s.bytes + (pfx.length) ≤ s.limits.maxBytes
    omega
  · have hsum := Map.sum_insert s.watches Subscription.share s.nextSub (s.newSubscription pfx owner)
    rw [hnone, elim_none, ← h.sound.active_eq, Int.add_zero] at hsum
    rw [hsum]
    rfl

theorem setLimits (limits : WatchLimits) : (s.setLimits limits).1.Inv log := by
  unfold WatchSource.setLimits
  split
  · exact h
  rename_i hvalid
  split
  · exact h
  split
  · exact h
  rename_i hnone
  have hkeys : s.watches.keys = [] := by simpa using hnone
  have hempty : s.watches.entries = [] := map_eq_nil_iff.mp hkeys
  refine ⟨{ h.sound with subs := fun id sub hl => ?_, bytes_le := ?_ }, h.published, h.quiet⟩
  · rw [← Map.mem_entries, hempty] at hl
    cases hl
  · have hbytes : s.bytes = 0 := by simp [h.sound.bytes_eq, Map.sum, hempty]
    have hpos : limits.maxBytes > 0 := by simp [validWatchLimits] at hvalid; exact hvalid.2
    show s.bytes ≤ limits.maxBytes
    omega

section
variable (hl : s.watches.lookup id = some sub)
include hl

theorem put (hsub : sub'.Sound s.limits.maxEvents log) (hheld : sub'.held = sub.held)
    (hact : sub'.active = sub.active) : (s.put id sub').Inv log :=
  h.of_kept (h.sound.revise hl hsub hheld hact) (.put hl sub' (fun h => hact ▸ h) s.bytes s.active)

theorem moved (notify ctxDone : Bool) (hmoves : sub.Moves w) :
    (s.put id { sub with worker := w, notify, ctxDone }).Inv log :=
  h.put hl ((h.sound.subs id sub hl).moved notify ctxDone hmoves) rfl rfl

theorem take (htop : sub.worker = .top) : (s.take id sub).Inv log := by
  have hsub := h.sound.subs id sub hl
  have hflight : sub.flight = none := hsub.placedAt htop
  unfold WatchSource.take
  split
  · exact h.moved hl sub.notify sub.ctxDone ⟨hflight, by simp [Subscription.inHand, htop]⟩
  rename_i hready
  obtain ⟨hact, hcount⟩ : sub.active = true ∧ sub.queue.count ≠ 0 := by simpa using hready
  have hcount := Nat.pos_of_ne_zero hcount
  exact h.put hl (hsub.taken hact hcount htop) (hsub.held_taken hcount hflight _) rfl

theorem finishFlight (hflight : sub.flight.isSome) (hplaced : { sub with flight := none, worker := w }.Placed)
    (hsent : sub.worker = .sent ∨ sub.active = false) :
    (s.finishFlight id sub w).Inv log := by
  have hsub := h.sound.subs id sub hl
  obtain ⟨item, hitem⟩ := isSome_iff_exists.mp hflight
  have hbytes := hsub.flight_nonneg item hitem
  have hle := h.sound.bytes_le
  unfold WatchSource.finishFlight
  rw [hitem]
  have hsound := h.sound.replace hl (hsub.finished hplaced hsent) (s.bytes - item.bytes) s.active
    (by simp only [Subscription.held, hitem, elim_some, elim_none]; omega)
    (by omega) (by simp [Subscription.share])
  rw [update_eq_self (f := fun _ => log)] at hsound
  exact h.of_kept hsound (.put hl { sub with flight := none, worker := w } (fun h => h) _ _)

end

theorem moveOn
    (hgo : ∀ sub sub' : Subscription, s.watches.lookup id = some sub → sub'.worker = sub.worker →
      sub'.flight = sub.flight → sub'.active = false → sub'.Moves w) :
    (s.moveOn id w).Inv log := by
  have hinv := h.invalidateLocked id .ctxDone
  unfold WatchSource.moveOn
  dsimp only
  split
  · exact hinv
  rename_i sub' hl'
  obtain ⟨hinact, sub, hl, hworker, hflight⟩ := Sound.lookup_invalidateLocked hl'
  exact hinv.moved hl' sub'.notify sub'.ctxDone (hgo sub sub' hl hworker hflight hinact)

theorem leave (hl : s.watches.lookup id = some sub) (hw : sub.worker = .exiting) : (s.leave id sub).Inv log := by
  have hsub := h.sound.subs id sub hl
  obtain ⟨hflight, hinact⟩ : sub.flight = none ∧ sub.active = false := hsub.placedAt hw
  have hlookup : ∀ {id' x}, (s.watches.erase id).lookup id' = some x → s.watches.lookup id' = some x := by
    intro id' x hx
    exact (Map.lookup_erase_some.mp hx).1
  have hheld := Map.sum_erase s.watches Subscription.held id
  have hshare := Map.sum_erase s.watches Subscription.share id
  rw [hl, elim_some, ← h.sound.bytes_eq] at hheld
  rw [hl, elim_some, ← h.sound.active_eq] at hshare
  have hle := h.sound.bytes_le
  have hpos := hsub.prefix_nonneg
  refine ⟨⟨fun id' x hx => h.sound.subs id' x (hlookup hx), fun id' hid' => ?_, ?_, ?_, ?_, fun x hx => ?_⟩,
    h.published, fun hclosed id' x hx => h.quiet hclosed id' x (hlookup hx)⟩
  · show (s.watches.erase id).lookup id' = none
    rw [Map.lookup_erase_eq, h.sound.fresh id' hid', ite_self]
  · show s.bytes - sub.prefixBytes = Map.sum (s.watches.erase id) Subscription.held
    simp only [Subscription.held, hflight, hsub.emptied hinact, RingBuffer.contents_empty, map_nil, sum_nil,
      elim_none] at hheld ⊢
    omega
  · show s.bytes - sub.prefixBytes ≤ s.limits.maxBytes
    omega
  · show s.active = Map.sum (s.watches.erase id) Subscription.share
    simp only [Subscription.share, hinact] at hshare ⊢
    simpa using hshare.symm
  · rcases mem_cons.mp hx with rfl | hx
    · exact h.published.symm ▸ hsub.handed
    · exact h.sound.retired x hx

end

/-- A select that its `done` or its context ends, or that is not ready. -/
theorem moves_ended {onDone onCtx : Worker} (select : Case) (hstay : sub.Placed)
    (hdone : sub.active = false → sub.Moves onDone) (hctx : sub.Moves onCtx) :
    sub.Moves ((ended sub onDone onCtx select).getD sub.worker) := by
  have hstay : sub.Moves sub.worker := ⟨hstay, rfl⟩
  cases select <;> simp only [ended]
  case done =>
    split
    · exact hstay
    next hact => exact hdone (by simpa using hact)
  case ctx =>
    split
    · exact hctx
    · exact hstay
  case own => exact hstay

theorem selected (h : s.Inv log) (hl : s.watches.lookup id = some sub)
    (hw : sub.worker = .checking item ∨ sub.worker = .sending item) (select : Case) :
    (s.put id { sub with worker := (ended sub .dropping .cancelHeld select).getD sub.worker }).Inv log := by
  have hsub := h.sound.subs id sub hl
  have hflight : sub.flight = some item := by
    rcases hw with hw | hw
    · exact hsub.placedAt (w := .checking item) hw
    · exact hsub.placedAt hw
  have hhand : sub.inHand = [item.event] := by
    rcases hw with hw | hw <;> simp [Subscription.inHand, hw, hflight]
  refine h.moved hl sub.notify sub.ctxDone (moves_ended select hsub.placed
    (fun hinact => ⟨⟨by simp [hflight], hinact⟩, ?_⟩) ⟨by simp [Subscription.Placed, hflight], ?_⟩) <;>
    rw [hhand] <;> simp [Subscription.inHand, hflight]

theorem work (h : s.Inv log) (id : Nat) (select : Case) : (s.work id select).Inv log := by
  unfold WatchSource.work
  split
  · exact h
  rename_i sub hl
  have hsub := h.sound.subs id sub hl
  split
  next hw => exact h.take hl hw
  next hw =>
    have hplaced : sub.flight = none := hsub.placedAt hw
    split
    next =>
      split
      · exact h.moved hl false sub.ctxDone ⟨hplaced, by simp [Subscription.inHand, hw]⟩
      · exact h
    next =>
      refine h.moved hl sub.notify sub.ctxDone (moves_ended select hsub.placed
        (fun hinact => ⟨⟨hplaced, hinact⟩, ?_⟩) ⟨hplaced, ?_⟩) <;> simp [Subscription.inHand, hw]
  next item hw =>
    split
    next =>
      split
      · exact h.moved hl sub.notify sub.ctxDone
          ⟨hsub.placedAt (w := .checking item) hw, by simp [Subscription.inHand, hw]⟩
      · exact h
    next => exact h.selected hl (.inl hw) select
  next item hw =>
    split
    next => exact h.put hl (hsub.delivered hw) rfl rfl
    next => exact h.selected hl (.inr hw) select
  next hw => exact h.finishFlight hl (hsub.placedAt hw) rfl (.inl hw)
  next hw =>
    refine h.moveOn fun sub₀ sub' hl₀ hworker hflight hinact => ?_
    obtain rfl := Option.some.inj (hl.symm.trans hl₀)
    exact ⟨⟨hflight.trans (hsub.placedAt hw), hinact⟩, by simp [Subscription.inHand, hworker, hw]⟩
  next hw =>
    refine h.moveOn fun sub₀ sub' hl₀ hworker hflight hinact => ?_
    obtain rfl := Option.some.inj (hl.symm.trans hl₀)
    exact ⟨⟨by rw [hflight]; exact hsub.placedAt hw, hinact⟩, by simp [Subscription.inHand, hworker, hw]⟩
  next hw =>
    have hplaced : sub.flight.isSome ∧ sub.active = false := hsub.placedAt hw
    exact h.finishFlight hl hplaced.1 ⟨rfl, hplaced.2⟩ (.inr hplaced.2)
  next hw => exact h.leave hl hw

end Inv

/-- The records that an event publishes. -/
def Event.published : Event → List WatchRecord
  | .publish events => events.map Prod.fst
  | .publishRecords records => records.map Prod.fst
  | _ => []

namespace Inv
variable {s : WatchSource} {log : List WatchRecord}

theorem silent (h : s.Inv log) : s.Inv (log ++ []) := by
  rwa [append_nil]

theorem handle (h : s.Inv log) (e : Event) : (s.handle e).Inv (log ++ e.published) := by
  cases e with
  | publish events => exact h.publish events
  | publishRecords records => exact h.publishRecords records
  | watch pfx owner ctxDone => exact (h.watch pfx owner ctxDone).silent
  | invalidate id reason => exact (h.invalidateLocked id reason).silent
  | reset => exact (h.invalidateAll _ _).silent
  | close => exact h.close.silent
  | stopOwner owner => exact (h.stopOwner owner).silent
  | setLimits limits => exact (h.setLimits limits).silent
  | cancel id =>
    simp only [WatchSource.handle]
    split
    · exact h.silent
    next sub hl => exact (h.moved hl sub.notify true ⟨(h.sound.subs id sub hl).placed, rfl⟩).silent
  | work id select => exact (h.work id select).silent

theorem run (h : s.Inv log) (es : List Event) : (s.run es).Inv (log ++ es.flatMap Event.published) := by
  induction es generalizing s log with
  | nil => simpa [WatchSource.run] using h
  | cons e es ih => simpa [WatchSource.run] using ih (h.handle e)

end Inv

theorem inv_newWatchSource {s : WatchSource} (h : newWatchSource limits = .ok s) : s.Inv [] := by
  unfold newWatchSource at h
  split at h
  next hvalid =>
    obtain rfl := Except.ok.inj h
    have hpos : limits.maxBytes > 0 := by simp [validWatchLimits] at hvalid; exact hvalid.2
    refine ⟨⟨fun id sub hl => ?_, fun _ _ => AList.lookup_empty _, rfl, Int.le_of_lt hpos, rfl,
      fun sub hsub => absurd hsub not_mem_nil⟩, rfl, fun hclosed => absurd hclosed Bool.false_ne_true⟩
    cases hl
  next => cases h

/-- A subscription that is or was registered. -/
def Known (s : WatchSource) (sub : Subscription) : Prop := (∃ id, s.watches.lookup id = some sub) ∨ sub ∈ s.retired

/-- Each subscription handed out matching events of a log since its registration, in order and without gaps. -/
def GapFree (s : WatchSource) (log : List WatchRecord) : Prop := ∀ sub, s.Known sub → sub.handed <+: sub.owed log

/-- The bytes held are counted exactly, and neither they nor the items of a subscription exceed the limits. -/
structure Accounted (s : WatchSource) : Prop where
  bytes_eq : s.bytes = s.watches.sum Subscription.held
  bytes_nonneg : 0 ≤ s.bytes
  bytes_le : s.bytes ≤ s.limits.maxBytes
  load_le : ∀ id sub, s.watches.lookup id = some sub → sub.load ≤ s.limits.maxEvents

/-- In every interleaving, every subscription is gap-free and the source accounts exactly. -/
theorem gapFree_and_accounted {s : WatchSource} (h : newWatchSource limits = .ok s)
    (es : List Event) : (s.run es).GapFree (es.flatMap Event.published) ∧ (s.run es).Accounted := by
  have hinv := (inv_newWatchSource h).run es
  rw [nil_append] at hinv
  constructor
  · rintro sub (⟨id, hl⟩ | hretired)
    · exact (hinv.sound.subs id sub hl).handed
    · exact hinv.published ▸ hinv.sound.retired sub hretired
  · exact ⟨hinv.sound.bytes_eq, hinv.sound.nonneg, hinv.sound.bytes_le,
      fun id sub hl => (hinv.sound.subs id sub hl).room⟩

theorem gapFree_and_accounted_default :
    let s : WatchSource := { limits := defaultWatchLimits }
    let event (key : Bytes) : WatchRecord := { typ := .put, current := some { key }, index := 1 }
    let es : List Event := [.watch [97] none false,
      .publish [(event [98], [0]), (event [97, 98], [0]), (event [97], [0])],
      .work 0 .own, .work 0 .own, .work 0 .own, .work 0 .own]
    (s.run es).watches.values.map Subscription.handed = [[event [97, 98]]] ∧
      (s.run es).GapFree (es.flatMap Event.published) ∧ (s.run es).Accounted :=
  ⟨by decide +kernel, gapFree_and_accounted (show newWatchSource defaultWatchLimits = .ok _ from rfl) _⟩

end WatchSource
end Wippy.Kv.Raft
