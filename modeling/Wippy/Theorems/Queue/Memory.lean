import Wippy.Lib.Reach
import Wippy.Lib.Replace
import Wippy.Queue.Memory

/-! What becomes of published messages: one goes missing in exactly the steps that `Meets` leaves out. -/

namespace Wippy.Memory
open Lib List Option

variable {M : Type} {c : Consumer M} {d : Delivery M} {j : Nat} {f : Consumer M → Queue M} {q q' : Queue M}

namespace Consumer

/-- The message that the forwarder holds. -/
def hand (c : Consumer M) : List M := match c.forwarder with | .holding msg => [msg] | _ => []

/-- Neither the consumer nor its workers are canceled. -/
def live (c : Consumer M) : Bool := !c.canceled && !c.workerCanceled

/-- The messages of deliveries that are not settled. -/
def unsettled (c : Consumer M) : List M := c.busy.flatMap fun d => if d.settled then [] else [d.msg]

/-- The messages that the consumer will process: those workers have, and while it is not stopped those that wait for
    one. -/
def kept (c : Consumer M) : List M := (if c.live then c.hand ++ c.deliveries else []) ++ c.unsettled

/-- A consumer that is canceled has handed back what waited. -/
def Cleared (c : Consumer M) : Prop := c.live = false → c.hand = [] ∧ c.deliveries = []

end Consumer

namespace Queue

/-- Every message is queued, kept by a consumer, or acknowledged. -/
def Accounted (q : Queue M) : Prop := q.published.Perm (q.messages ++ q.consumers.flatMap Consumer.kept ++ q.acked)

/-- The invariant of a queue. -/
structure Sound (q : Queue M) : Prop where
  accounted : q.Accounted
  cleared : ∀ c ∈ q.consumers, c.Cleared

/-- A consumer is stopped while nothing waits for its workers, no stopped consumer takes a message, and a delivery is
    given back while there is room and the send is chosen. -/
def Meets (q : Queue M) : Event M → Prop
  | .cancel i | .workerCancel i => ∀ c ∈ q.consumers[i]?, c.live = true → c.hand = [] ∧ c.deliveries = []
  | .take i => ∀ c ∈ q.consumers[i]?, c.forwarder = .waiting → q.messages ≠ [] → c.live = true
  | .nack i j ctxDone sent => ∀ c ∈ q.consumers[i]?, ∀ d ∈ c.busy[j]?, d.settled = false →
      (q.full || (ctxDone && !sent)) = false
  | _ => True

theorem kept_of_stopped (h : c.live = false) : c.kept = c.unsettled := by
  simp [Consumer.kept, h]

section
variable [DecidableEq M]

theorem count_kept (h : c.live = true) (a : M) :
    c.kept.count a = c.hand.count a + c.deliveries.count a + c.unsettled.count a := by
  simp only [Consumer.kept, h, if_true, count_append]

/-- Whether the messages are accounted for after a step at one consumer depends on the counts there. -/
theorem accounted_put_iff (hq : q.Accounted) {i : Nat} (hc : q.consumers[i]? = some c) (c' : Consumer M)
    (hset : q'.consumers = q.consumers.set i c') : q'.Accounted ↔ ∀ a,
      q'.published.count a + (q.messages.count a + c.kept.count a + q.acked.count a) =
        q.published.count a + (q'.messages.count a + c'.kept.count a + q'.acked.count a) := by
  unfold Accounted at *
  rw [perm_iff_count] at *
  refine forall_congr' fun a => ?_
  have hold := hq a
  have hflat := (perm_flatMap_set Consumer.kept hc c').count_eq a
  simp only [hset, count_append] at hold hflat ⊢
  omega

theorem sound_put (hq : q.Sound) {i : Nat} (hc : q.consumers[i]? = some c) (c' : Consumer M)
    (hset : q'.consumers = q.consumers.set i c') (hclear : c'.Cleared)
    (hcount : ∀ a, q'.published.count a + (q.messages.count a + c.kept.count a + q.acked.count a) =
      q.published.count a + (q'.messages.count a + c'.kept.count a + q'.acked.count a)) : q'.Sound := by
  refine ⟨(accounted_put_iff hq.accounted hc c' hset).mpr hcount, fun x hx => ?_⟩
  rw [hset] at hx
  rcases mem_or_eq_of_mem_set hx with hx | rfl
  · exact hq.cleared x hx
  · exact hclear

end

section
variable {q : Queue M} {i : Nat} {c : Consumer M}

theorem cleared_of_live (h : c.live = true) : c.Cleared := fun hstopped => by rw [h] at hstopped; cases hstopped

theorem live_of_waiting (h : c.Cleared) (hwaiting : c.hand ≠ [] ∨ c.deliveries ≠ []) : c.live = true := by
  by_contra hstopped
  have hnil := h (Bool.eq_false_iff.mpr hstopped)
  rcases hwaiting with hne | hne
  · exact hne hnil.1
  · exact hne hnil.2

section
variable (hq : q.Sound)
include hq

theorem sound_publish (msg : M) : (q.step (.publish msg)).Sound := by
  classical
  simp only [step]
  split
  · exact hq
  refine ⟨perm_iff_count.mpr fun a => ?_, hq.cleared⟩
  have hold := perm_iff_count.mp hq.accounted a
  simp only [count_append] at hold ⊢
  omega

theorem sound_attach (prefetch concurrency : Nat) : (q.step (.attach prefetch concurrency)).Sound := by
  refine ⟨?_, fun c hc => ?_⟩
  · have hnone : Consumer.kept ({ prefetch, concurrency } : Consumer M) = [] := rfl
    simpa [Accounted, step, hnone] using hq.accounted
  · rcases mem_append.mp hc with hc | hc
    · exact hq.cleared c hc
    · rw [mem_singleton.mp hc]
      exact cleared_of_live rfl

section
variable (hc : q.consumers[i]? = some c)
include hc

theorem exact_stop (c' : Consumer M) (hstopped : c'.live = false) (hhand : c'.hand = c.hand)
    (hdeliveries : c'.deliveries = c.deliveries) (hbusy : c'.unsettled = c.unsettled) :
    ((c.live = true → c.hand = [] ∧ c.deliveries = []) → (q.put i c').Sound) ∧
      ((q.put i c').Accounted → c.live = true → c.hand = [] ∧ c.deliveries = []) := by
  classical
  constructor
  · intro hmeets
    have hkept : c'.kept = c.kept ∧ c.hand = [] ∧ c.deliveries = [] := by
      rw [kept_of_stopped hstopped, hbusy]
      cases h : c.live with
      | true => simp [Consumer.kept, hmeets h]
      | false => exact ⟨(kept_of_stopped h).symm, hq.cleared c (mem_of_getElem? hc) h⟩
    refine sound_put hq hc c' rfl (fun _ => by rw [hhand, hdeliveries]; exact hkept.2) fun a => ?_
    rw [hkept.1]
    rfl
  · intro haccounted h
    have hcount := (accounted_put_iff hq.accounted hc c' rfl).mp haccounted
    have hnone : ∀ a, a ∉ c.hand ++ c.deliveries := by
      intro a ha
      have hpos := count_pos_iff.mpr ha
      have heq := hcount a
      rw [count_kept h, kept_of_stopped hstopped, hbusy] at heq
      rw [count_append] at hpos
      dsimp only [put] at heq
      omega
    exact append_eq_nil_iff.mp (eq_nil_iff_forall_not_mem.mpr hnone)

theorem exact_take :
    ((c.forwarder = .waiting → q.messages ≠ [] → c.live = true) → (q.take i c).Sound) ∧
      ((q.take i c).Accounted → c.forwarder = .waiting → q.messages ≠ [] → c.live = true) := by
  classical
  unfold take
  split
  next msg messages hwaiting hmessages =>
    have hhand : c.hand = [] := by simp [Consumer.hand, hwaiting]
    have hhand' : Consumer.hand { c with forwarder := .holding msg } = [msg] := rfl
    have hbusy : Consumer.unsettled { c with forwarder := .holding msg } = c.unsettled := rfl
    constructor
    · intro hmeets
      have hlive := hmeets hwaiting (by simp [hmessages])
      have hlive' : Consumer.live { c with forwarder := .holding msg } = true := hlive
      refine sound_put hq hc { c with forwarder := .holding msg } rfl (cleared_of_live hlive') fun a => ?_
      rw [count_kept hlive, count_kept hlive', hmessages, hhand, hhand', hbusy]
      simp only [put, count_cons, count_nil]
      omega
    · intro haccounted _ _
      by_contra hstopped
      rw [Bool.not_eq_true] at hstopped
      have hstopped' : Consumer.live { c with forwarder := .holding msg } = false := hstopped
      have hcount := (accounted_put_iff hq.accounted hc { c with forwarder := .holding msg } rfl).mp haccounted msg
      rw [kept_of_stopped hstopped, kept_of_stopped hstopped', hmessages, hbusy, count_cons_self] at hcount
      dsimp only [put] at hcount
      omega
  next hnone =>
    refine ⟨fun _ => hq, fun _ hwaiting hne => ?_⟩
    obtain ⟨msg, messages, hmessages⟩ := exists_cons_of_ne_nil hne
    exact (hnone msg messages hwaiting hmessages).elim

theorem sound_exit (hcanceled : c.canceled = true) :
    (q.put i { c with forwarder := .gone }).Sound := by
  classical
  have hstopped : c.live = false := by simp [Consumer.live, hcanceled]
  have hstopped' : Consumer.live { c with forwarder := .gone } = false := hstopped
  have hnil := hq.cleared c (mem_of_getElem? hc) hstopped
  refine sound_put hq hc _ rfl (fun _ => ⟨rfl, hnil.2⟩) fun a => ?_
  rw [kept_of_stopped hstopped, kept_of_stopped hstopped']
  rfl

theorem sound_forward : (q.forward i c).Sound := by
  classical
  unfold forward
  split
  next msg hholding =>
    split
    · have hhand : c.hand = [msg] := by simp [Consumer.hand, hholding]
      have hlive := live_of_waiting (hq.cleared c (mem_of_getElem? hc)) (.inl (by simp [hhand]))
      have hlive' : Consumer.live { c with forwarder := .waiting, deliveries := c.deliveries ++ [msg] } = true := hlive
      refine sound_put hq hc _ rfl (cleared_of_live hlive') fun a => ?_
      rw [count_kept hlive, count_kept hlive', hhand]
      simp only [put, count_append, Consumer.hand, Consumer.unsettled, count_nil]
      omega
    · exact hq
  · exact hq

theorem sound_receive : (q.receive i c).Sound := by
  classical
  unfold receive
  split
  next msg deliveries hdeliveries =>
    split
    · have hlive := live_of_waiting (hq.cleared c (mem_of_getElem? hc)) (.inr (by simp [hdeliveries]))
      have hlive' : Consumer.live { c with deliveries, busy := c.busy ++ [{ msg }] } = true := hlive
      refine sound_put hq hc _ rfl (cleared_of_live hlive') fun a => ?_
      rw [count_kept hlive, count_kept hlive', hdeliveries]
      simp only [put, Consumer.hand, Consumer.unsettled, flatMap_append, flatMap_singleton, count_append,
        count_cons, count_nil, Bool.false_eq_true, if_false]
      omega
    · exact hq
  · exact hq

end
end

theorem count_busy [DecidableEq M] (busy : List (Delivery M)) {d : List M} (a : M)
    (h : (Consumer.unsettled { c with busy }).count a + d.count a = c.unsettled.count a) :
    (Consumer.kept { c with busy }).count a + d.count a = c.kept.count a := by
  unfold Consumer.kept
  simp only [count_append]
  have hsame : Consumer.live { c with busy } = c.live ∧ Consumer.hand { c with busy } = c.hand := ⟨rfl, rfl⟩
  rw [hsame.1, hsame.2]
  omega

theorem count_settled [DecidableEq M] (hd : c.busy[j]? = some d) (hopen : d.settled = false) (a : M) :
    (Consumer.kept { c with busy := c.busy.set j { d with settled := true } }).count a + [d.msg].count a =
      c.kept.count a := by
  have hset := (perm_flatMap_set (fun d : Delivery M => if d.settled then []
    else [d.msg]) hd { d with settled := true }).count_eq a
  simp only [hopen, Bool.false_eq_true, if_false, if_true, count_append, count_nil] at hset
  exact count_busy _ a hset

section
variable (hq : q.Sound)
include hq

section
variable (hc : q.consumers[i]? = some c) (hd : c.busy[j]? = some d)
include hc hd

theorem sound_ack (hopen : d.settled = false) :
    Sound { q.put i { c with busy := c.busy.set j { d with settled := true } } with acked := q.acked ++ [d.msg] } := by
  classical
  refine sound_put hq hc _ rfl (hq.cleared c (mem_of_getElem? hc)) fun a => ?_
  have hcount := count_settled hd hopen a
  simp only [put, count_append]
  omega

theorem exact_nack (hopen : d.settled = false) (ctxDone sent : Bool)
    (hq' : q' = (q.put i { c with busy := c.busy.set j { d with settled := true } }).requeue d.msg ctxDone sent) :
    ((q.full || (ctxDone && !sent)) = false → q'.Sound) ∧ (q'.Accounted → (q.full || (ctxDone && !sent)) = false) := by
  classical
  have hcount := count_settled hd hopen
  have hfull : full (q.put i { c with busy := c.busy.set j { d with settled := true } }) = q.full := rfl
  unfold requeue at hq'
  rw [hfull] at hq'
  constructor
  · intro hmeets
    rw [hmeets, if_neg Bool.false_ne_true] at hq'
    subst hq'
    refine sound_put hq hc _ rfl (hq.cleared c (mem_of_getElem? hc)) fun a => ?_
    have hcount := hcount a
    simp only [put, count_append]
    omega
  · intro haccounted
    by_contra hlost
    rw [Bool.not_eq_false] at hlost
    rw [hlost, if_pos rfl] at hq'
    subst hq'
    have hsame := (accounted_put_iff hq.accounted hc _ rfl).mp haccounted d.msg
    have hcount := hcount d.msg
    rw [count_singleton_self] at hcount
    dsimp only [put] at hsame
    omega

theorem sound_finish (hsettled : d.settled = true) : (q.put i { c with busy := c.busy.eraseIdx j }).Sound := by
  classical
  refine sound_put hq hc _ rfl (hq.cleared c (mem_of_getElem? hc)) fun a => ?_
  have herase := (perm_flatMap_eraseIdx (fun d : Delivery M => if d.settled then [] else [d.msg]) hd).count_eq a
  simp only [hsettled, if_true, count_append] at herase
  have hcount := count_busy _ a herase
  simp only [put, count_nil] at hcount ⊢
  omega

end

theorem exact_withConsumer {meets : Consumer M → Prop}
    (h : ∀ c, q.consumers[i]? = some c → (meets c → (f c).Sound) ∧ ((f c).Accounted → meets c)) :
    ((∀ c ∈ q.consumers[i]?, meets c) → (q.withConsumer i f).Sound) ∧
      ((q.withConsumer i f).Accounted → ∀ c ∈ q.consumers[i]?, meets c) := by
  unfold withConsumer
  cases hc : q.consumers[i]? with
  | none => exact ⟨fun _ => hq, fun _ c hc => by cases hc⟩
  | some c =>
    refine ⟨fun hmeets => (h c hc).1 (hmeets c rfl), fun haccounted c' hc' => ?_⟩
    cases hc'
    exact (h c hc).2 haccounted

theorem sound_withConsumer (h : ∀ c, q.consumers[i]? = some c → (f c).Sound) : (q.withConsumer i f).Sound := by
  unfold withConsumer
  cases hc : q.consumers[i]? with
  | none => exact hq
  | some c => exact h c hc

theorem Sound.exact_step (e : Event M) : (q.Meets e → (q.step e).Sound) ∧ ((q.step e).Accounted → q.Meets e) := by
  cases e with
  | publish msg => exact ⟨fun _ => sound_publish hq msg, fun _ => trivial⟩
  | attach prefetch concurrency => exact ⟨fun _ => sound_attach hq prefetch concurrency, fun _ => trivial⟩
  | cancel i => exact exact_withConsumer hq fun c hc => exact_stop hq hc _ (by simp [Consumer.live]) rfl rfl rfl
  | workerCancel i => exact exact_withConsumer hq fun c hc => exact_stop hq hc _ (by simp [Consumer.live]) rfl rfl rfl
  | take i => exact exact_withConsumer hq fun c hc => exact_take hq hc
  | exit i =>
    refine ⟨fun _ => sound_withConsumer hq fun c hc => ?_, fun _ => trivial⟩
    split
    next hcanceled =>
      exact sound_exit hq hc hcanceled
    · exact hq
  | forward i => exact ⟨fun _ => sound_withConsumer hq fun c hc => sound_forward hq hc, fun _ => trivial⟩
  | receive i => exact ⟨fun _ => sound_withConsumer hq fun c hc => sound_receive hq hc, fun _ => trivial⟩
  | workerReturn i =>
    classical
    refine ⟨fun _ => sound_withConsumer hq fun c hc => ?_, fun _ => trivial⟩
    split
    · exact sound_put hq hc _ rfl (hq.cleared c (mem_of_getElem? hc)) fun a => rfl
    · exact hq
  | ack i j =>
    refine ⟨fun _ => sound_withConsumer hq fun c hc => ?_, fun _ => trivial⟩
    cases hd : c.busy[j]? with
    | none => exact hq
    | some d =>
      cases hopen : d.settled with
      | false =>
        rw [elim_some, hopen]
        exact sound_ack hq hc hd hopen
      | true => simpa [hopen] using hq
  | nack i j ctxDone sent =>
    refine exact_withConsumer hq fun c hc => ?_
    cases hd : c.busy[j]? with
    | none => exact ⟨fun _ => hq, fun _ d hd => by cases hd⟩
    | some d =>
      cases hopen : d.settled with
      | false =>
        have hexact := exact_nack hq hc hd hopen ctxDone sent rfl
        refine ⟨fun h => ?_, fun h d' hd' _ => ?_⟩
        · simpa [hopen] using hexact.1 (h d rfl hopen)
        · exact hexact.2 (by simpa [hopen] using h)
      | true =>
        refine ⟨fun _ => by simpa [hopen] using hq, fun _ d' hd' hopen' => ?_⟩
        cases hd'
        rw [hopen] at hopen'
        cases hopen'
  | finish i j =>
    refine ⟨fun _ => sound_withConsumer hq fun c hc => ?_, fun _ => trivial⟩
    cases hd : c.busy[j]? with
    | none => exact hq
    | some d =>
      cases hsettled : d.settled with
      | false => simpa [hsettled] using hq
      | true => simpa [hsettled] using sound_finish hq hc hd hsettled

end
end
end Queue

namespace Driver

/-- Every queue accounts for its messages. -/
def Accounted (d : Driver M) : Prop := ∀ queueID, ∀ q ∈ d.lookup queueID, q.Accounted

def Meets (d : Driver M) : Call M → Prop
  | .declareQueue _ _ => True
  | .on queueID e => ∀ q ∈ d.lookup queueID, q.Meets e

/-- Exactly the runs whose steps all meet the condition account for every message in every state. -/
theorem accounted_iff (calls : List (Call M)) :
    (∀ pre, pre <+: calls → Accounted (pre.foldl step ∅)) ↔ Along step Meets (∅ : Driver M) calls := by
  refine (along_iff_prefixes (P := fun d : Driver M => ∀ queueID, ∀ q ∈ d.lookup queueID, q.Sound)
    (fun d h queueID q hq => (h queueID q hq).accounted) ?_ ?_ ?_ calls).symm
  · rintro d (⟨queueID, maxLength⟩ | ⟨queueID, e⟩) h hmeets id q hq
    · simp only [step] at hq
      split at hq
      · exact h id q hq
      · rcases Map.lookup_insert_some hq with ⟨-, rfl⟩ | ⟨-, hq⟩
        · exact ⟨List.Perm.refl _, fun c hc => by cases hc⟩
        · exact h id q hq
    · simp only [step] at hq
      cases hlookup : d.lookup queueID with
      | none =>
        rw [hlookup] at hq
        exact h id q hq
      | some q₀ =>
        rw [hlookup] at hq
        rcases Map.lookup_insert_some hq with ⟨-, rfl⟩ | ⟨-, hq⟩
        · exact ((h queueID q₀ hlookup).exact_step e).1 (hmeets q₀ hlookup)
        · exact h id q hq
  · rintro d (⟨queueID, maxLength⟩ | ⟨queueID, e⟩) h haccounted
    · trivial
    · intro q hq
      refine ((h queueID q hq).exact_step e).2 (haccounted queueID _ ?_)
      simp only [step, mem_def.mp hq, elim_some]
      exact AList.lookup_insert _
  · intro queueID q hq
    cases hq

/-- A message is published, taken and delivered, and the consumer is stopped before a worker takes it. -/
def stopped : List (Call Nat) :=
  [.declareQueue ⟨[], [113]⟩ 1, .on ⟨[], [113]⟩ (.publish 5), .on ⟨[], [113]⟩ (.attach 1 1), .on ⟨[], [113]⟩ (.take 0),
    .on ⟨[], [113]⟩ (.forward 0), .on ⟨[], [113]⟩ (.cancel 0)]

theorem stopped_lost : ¬ ∀ calls : List (Call Nat), Accounted (calls.foldl step ∅) := by
  intro h
  have hperm := h stopped ⟨[], [113]⟩ _ rfl
  exact absurd hperm.length_eq (by decide)

end Driver
end Wippy.Memory
