import Wippy.Cdc.Replication
import Wippy.Theorems.Cdc.Decoder

/-! No checkpoint skips a change: after the position of a start come the reports published, those on the way and those
    still to be sent (`Decodes`). -/

namespace Wippy.Cdc
open Lib List Option

variable {s' : Source} {m : LSN × Message} {r : Run} {x : LSN × Step} {position : LSN} {s : Sender}

/-- The source, and the server with what it has on the way and what is left to send since the last start. A stop or a
    crash falls between two messages, never inside the loop that emits the rows of one. -/
structure Feed where
  source : Source
  sender : Sender
  inbox : List (LSN × Message) := []
  pending : List (List RowChange × LSN) := []
  since : LSN := 0

/-- What happens to a feed. -/
inductive Input
  | start (since : LSN)
  | send (x : LSN × Step)
  | receive (flushed : Bool)
  | status (reply : Reply)
  | keepalive (serverWALEnd : LSN) (reply : Option Reply)
  | stop (flushed : Bool)

namespace Feed

/-- The transactions that commit after a position. -/
def after (history : List (List RowChange × LSN)) (since : LSN) : List (List RowChange × LSN) :=
  history.filter fun t => since < t.2

/-- Go on with the run, if there is one. -/
def withRun (w : Feed) (f : Run → Feed) : Feed := w.source.run.elim w f

/-- One step of the feed: of the sender, the source, or what is between them. -/
def step (limits : DecoderLimits) (history : List (List RowChange × LSN)) (w : Feed) : Input → Feed
  | .start since =>
    { source := w.source.start limits w.sender.streaming, sender := { streaming := w.sender.streaming }, since
      pending := after history since }
  | .send x =>
    { w with
      sender := w.sender.step x
      inbox := w.inbox ++ (w.sender.messages x).map (x.1, ·)
      pending := w.pending.drop (w.sender.commits x).length }
  | .receive flushed => w.withRun fun r =>
    match w.inbox with
    | [] => w
    | m :: inbox => { w with source := w.source.xlogData r m.1 m.2 flushed, inbox }
  | .status reply => w.withRun fun r => { w with source := w.source.sendStatus r reply }
  | .keepalive serverWALEnd reply => w.withRun fun r => { w with source := w.source.keepalive r serverWALEnd reply }
  | .stop flushed => w.withRun fun r => { w with source := w.source.finish r flushed }

/-- A start resends what ends after the position asked for and nothing that ends before the acknowledged one; a step of
    the server keeps to `may`. -/
def allowed (may : Sender → LSN × Step → Prop) (w : Feed) : Input → Prop
  | .start since => w.source.run = none ∧ w.source.confirmed ≤ since ∧ since ≤ w.source.resumeAt
  | .send x => w.source.run.isSome ∧ may w.sender x ∧ w.sender.commits x <+: w.pending
  | _ => True

end Feed

/-- All transactions up to a position are published. -/
def Covered (history : List (List RowChange × LSN)) (published : List RowChange) (position : LSN) : Prop :=
  ∀ t ∈ history, t.2 ≤ position → t.1 <:+: published

/-- What is saved and acknowledged is covered, and a run publishes what was committed after its start, in order, and
    all of it once nothing is on the way. -/
structure Delivers (history : List (List RowChange × LSN)) (w : Feed) : Prop where
  saved : ∀ position ∈ w.source.checkpoint, Covered history w.source.published position
  acknowledged : Covered history w.source.published w.source.confirmed
  running : w.source.run.isSome → ∃ before done, w.source.published = before ++ done.flatMap Prod.fst ∧
    Covered history before w.since ∧ done <+: Feed.after history w.since ∧
    (w.inbox = [] → w.pending = [] → done = Feed.after history w.since)

/-- What the source keeps only moves forward, and a message ends no run. -/
structure Forward (w w' : Feed) (input : Input) : Prop where
  saved : ∀ position ∈ w.source.checkpoint, ∃ position' ∈ w'.source.checkpoint, position ≤ position'
  acknowledged : w.source.confirmed ≤ w'.source.confirmed
  runs : ∀ flushed, input = .receive flushed → w.source.run.isSome → w'.source.run.isSome

section
variable {s : Source} {r : Run}

theorem save_eq (h : s.resumeAt < position) : s.save position = { s with checkpoint := some position } := by
  unfold Source.save Source.resumeAt at *
  cases hc : s.checkpoint with
  | none => rfl
  | some p =>
    rw [hc] at h
    exact if_pos (decide_eq_true h)

/-- What a status update, with its checkpoint, may change. -/
structure Settles (s s' : Source) (r : Run) : Prop where
  published : s'.published = s.published
  checkpoint : s'.checkpoint = s.checkpoint ∨ s'.checkpoint = some r.safePos
  confirmed : s'.confirmed = s.confirmed ∨ s'.confirmed = r.safePos ∧ s'.resumeAt = r.safePos
  runs : ∀ r', s'.run = some r' → r'.dec = r.dec ∧ r'.safePos = r.safePos ∧ r'.lastSaved = s'.resumeAt

variable (hsaved : r.lastSaved = s.resumeAt) (hle : r.lastSaved ≤ r.safePos)

include hsaved in
theorem settles_finish (flushed : Bool) : Settles s (s.finish r flushed) r := by
  unfold Source.finish
  split
  · exact ⟨rfl, .inl rfl, .inl rfl, fun _ h => by cases h⟩
  rename_i h
  simp only [Bool.or_eq_true, decide_eq_true_eq, not_or, UInt64.not_le] at h
  rw [save_eq (hsaved ▸ h.1)]
  exact ⟨rfl, .inr rfl, .inl rfl, fun _ h => by cases h⟩

include hsaved hle in
theorem saveSafe_some {r' : Run} {saved : Bool} (h : s.saveSafe r saved = some (s', r')) :
    (s' = s ∨ s' = { s with checkpoint := some r.safePos }) ∧ s'.resumeAt = r.safePos ∧
      r' = { r with lastSaved := r.safePos } := by
  unfold Source.saveSafe at h
  split at h
  next hge =>
    cases h
    have heq := UInt64.le_antisymm hle hge
    refine ⟨.inl rfl, hsaved.symm.trans heq, ?_⟩
    cases r
    cases heq
    rfl
  next hlt =>
    split at h
    · cases h
      rw [save_eq (hsaved ▸ UInt64.not_le.mp hlt)]
      exact ⟨.inr rfl, rfl, rfl⟩
    · cases h

theorem resumeAt_confirmed (h : s.resumeAt = position) :
    Source.resumeAt { s with confirmed := position } = position := by
  unfold Source.resumeAt at *
  cases hc : s.checkpoint with
  | none => rfl
  | some p => rw [← h, hc]; rfl

include hsaved hle in
theorem settles_sendStatus (reply : Reply) : Settles s (s.sendStatus r reply) r := by
  unfold Source.sendStatus
  split
  · exact settles_finish hsaved _
  rename_i s' r' hsave
  obtain ⟨hs', hresume, rfl⟩ := saveSafe_some hsaved hle hsave
  have hpublished : s'.published = s.published := by rcases hs' with rfl | rfl <;> rfl
  have hcheckpoint : s'.checkpoint = s.checkpoint ∨ s'.checkpoint = some r.safePos := by
    rcases hs' with rfl | rfl
    · exact .inl rfl
    · exact .inr rfl
  have hconfirmed : s'.confirmed = s.confirmed := by rcases hs' with rfl | rfl <;> rfl
  have hacked := resumeAt_confirmed hresume
  -- Nothing is left to flush when the run ends here.
  have hfinish : ∀ s'' : Source,
    s''.finish { r with lastSaved := r.safePos } reply.flushed = { s'' with run := none } :=
    fun _ => if_pos (by simp)
  dsimp only
  rw [hfinish]
  cases reply.received <;> cases reply.sent
  · exact ⟨hpublished, hcheckpoint, .inl hconfirmed, fun _ h => by cases h⟩
  · exact ⟨hpublished, hcheckpoint, .inl hconfirmed, fun _ h => by cases h; exact ⟨rfl, rfl, hresume.symm⟩⟩
  · exact ⟨hpublished, hcheckpoint, .inr ⟨rfl, hacked⟩, fun _ h => by cases h⟩
  · exact ⟨hpublished, hcheckpoint, .inr ⟨rfl, hacked⟩, fun _ h => by cases h; exact ⟨rfl, rfl, hacked.symm⟩⟩

theorem dec_advanceStreamPosition (position : LSN) : (Source.advanceStreamPosition r position).dec = r.dec ∧
    (Source.advanceStreamPosition r position).safePos = r.safePos ∧
    (Source.advanceStreamPosition r position).lastSaved = r.lastSaved := by
  unfold Source.advanceStreamPosition
  split <;> exact ⟨rfl, rfl, rfl⟩

include hsaved hle in
theorem settles_keepalive (serverWALEnd : LSN) (reply : Option Reply) :
    Settles s (s.keepalive r serverWALEnd reply) r := by
  obtain ⟨hdec, hpos, hlast⟩ := dec_advanceStreamPosition (r := r) serverWALEnd
  cases reply with
  | none => exact ⟨rfl, .inl rfl, .inl rfl, fun _ h => by cases h; exact ⟨hdec, hpos, hlast.trans hsaved⟩⟩
  | some reply =>
    have h := settles_sendStatus (hlast.trans hsaved) (by rw [hlast, hpos]; exact hle) reply
    obtain ⟨hp, hc, hf, hr⟩ := h
    rw [hpos] at hc hf hr
    rw [hdec] at hr
    exact ⟨hp, hc, hf, hr⟩

theorem Settles.resumeAt (h : Settles s s' r) : s'.resumeAt = s.resumeAt ∨ s'.resumeAt = r.safePos := by
  rcases h.checkpoint with hc | hc
  · rcases h.confirmed with hf | hf
    · refine .inl ?_
      unfold Source.resumeAt
      rw [hc, hf]
    · exact .inr hf.2
  · refine .inr ?_
    unfold Source.resumeAt
    rw [hc]
    rfl

end

section
variable {limits : DecoderLimits} {history : List (List RowChange × LSN)} {w : Feed} {input : Input}
  {before published : List RowChange}

theorem Covered.mono {published published' : List RowChange} {position position' : LSN}
    (h : Covered history published position)
    (hp : published <+: published') (hle : position' ≤ position) : Covered history published' position' :=
  fun t ht hend => (h t ht (UInt64.le_trans hend hle)).trans hp.isInfix

/-- A run has published the first transactions after its start; the next ones are on the way. -/
structure Running (limits : DecoderLimits) (history : List (List RowChange × LSN)) (w : Feed) (r : Run) : Prop where
  lastSaved : r.lastSaved = w.source.resumeAt
  le : r.lastSaved ≤ r.safePos
  covered : Covered history w.source.published r.safePos
  stream : ∃ before done reports, w.source.published = before ++ done.flatMap Prod.fst ∧
    Covered history before w.since ∧
    Feed.after history w.since = done ++ (reports.filter (fun t => t.2 ≠ 0) ++ w.pending) ∧
    (∀ t ∈ reports, t.2 = 0 → t.1 = []) ∧ Decodes limits r.dec w.inbox reports w.sender

/-- The invariant of a feed. -/
structure Sound (limits : DecoderLimits) (history : List (List RowChange × LSN)) (w : Feed) : Prop where
  confirmed : w.source.confirmed ≤ w.source.resumeAt
  covered : Covered history w.source.published w.source.resumeAt
  running : ∀ r, w.source.run = some r → Running limits history w r

theorem Sound.settles (h : Sound limits history w) (hr : w.source.run = some r) (hs : Settles w.source s' r) :
    Sound limits history { w with source := s' } := by
  have hrun := h.running r hr
  have hresume : w.source.resumeAt ≤ s'.resumeAt ∧ s'.resumeAt ≤ r.safePos := by
    have hle := hrun.lastSaved ▸ hrun.le
    rcases hs.resumeAt with heq | heq
    · exact ⟨UInt64.le_of_eq heq.symm, heq ▸ hle⟩
    · exact ⟨heq ▸ hle, UInt64.le_of_eq heq⟩
  have hpublished : w.source.published <+: s'.published := hs.published ▸ prefix_refl _
  refine ⟨?_, hrun.covered.mono hpublished hresume.2, fun r' hr' => ?_⟩
  · rcases hs.confirmed with heq | heq
    · exact heq ▸ UInt64.le_trans h.confirmed hresume.1
    · exact UInt64.le_of_eq (heq.1.trans heq.2.symm)
  · obtain ⟨hdec, hpos, hlast⟩ := hs.runs r' hr'
    obtain ⟨before, done, reports, hp, hrest⟩ := hrun.stream
    refine ⟨hlast, ?_, ?_, before, done, reports, hs.published.trans hp, ?_⟩
    · rw [hlast, hpos]
      exact hresume.2
    · rw [hpos]
      exact hrun.covered.mono hpublished (UInt64.le_refl _)
    · rw [hdec]
      exact hrest

theorem Decodes.cons {d : Decoder} {msgs : List (LSN × Message)} {reports : List (List RowChange × LSN)}
    (h : Decodes limits d (m :: msgs) reports s) :
    ∃ r d' reports', d.applyResult m.1 m.2 = .ok (r, d') ∧ reports = (r.changes, r.position) :: reports' ∧
      Decodes limits d' msgs reports' s := by
  obtain ⟨results, d'', hall, rfl, htracks⟩ := h
  rw [Decoder.decodeAll] at hall
  split at hall
  · cases hall
  rename_i r d' happly
  cases hrest : d'.decodeAll msgs with
  | error e => simp [hrest, Except.map] at hall
  | ok x =>
    rw [hrest] at hall
    cases hall
    exact ⟨r, d', _, happly, rfl, x.1, x.2, hrest, rfl, htracks⟩

theorem Sound.start (h : Sound limits history w) {since : LSN} (hsince : since ≤ w.source.resumeAt) :
    Sound limits history (w.step limits history (.start since)) := by
  refine ⟨h.confirmed, h.covered, fun r hr => ?_⟩
  cases hr
  refine ⟨rfl, UInt64.le_refl _, h.covered, w.source.published, [], [], ?_, ?_, rfl, ?_, ?_⟩
  · exact (append_nil _).symm
  · exact h.covered.mono (prefix_refl _) hsince
  · exact fun _ ht => by cases ht
  · exact ⟨[], _, rfl, rfl, tracks_start limits _⟩

theorem filter_reports (h : ∀ t ∈ s.commits x, t.2 ≠ 0) :
    (s.reports x).filter (fun t => t.2 ≠ 0) = s.commits x ∧ ∀ t ∈ s.reports x, t.2 = 0 → t.1 = [] := by
  obtain ⟨lsn, step⟩ := x
  cases step with
  | commit endLSN | streamCommit xid commitLSN endLSN =>
    exact ⟨filter_eq_self.mpr fun t ht => decide_eq_true (h t ht), fun t ht h0 => absurd h0 (h t ht)⟩
  | _ =>
    constructor
    · exact filter_eq_nil_iff.mpr fun t ht => by
        obtain ⟨_, _, rfl⟩ := List.mem_map.mp ht
        simp
    · intro t ht _
      obtain ⟨_, _, rfl⟩ := List.mem_map.mp ht
      rfl

theorem Sound.send (h : Sound limits history w) (hx : Allowed limits w.sender x)
    (hcommits : w.sender.commits x <+: w.pending) : Sound limits history (w.step limits history (.send x)) := by
  refine ⟨h.confirmed, h.covered, fun r hr => ?_⟩
  have hrun := h.running r hr
  obtain ⟨before, done, reports, hp, hbefore, hafter, hzero, hdecodes⟩ := hrun.stream
  obtain ⟨rest, hrest⟩ := hcommits
  have hpos : ∀ t ∈ w.sender.commits x, t.2 ≠ 0 := by
    intro t ht h0
    have hmem : t ∈ Feed.after history w.since := by
      rw [hafter, ← hrest]
      simp [ht]
    have hlt := of_decide_eq_true (mem_filter.mp hmem).2
    rw [h0] at hlt
    exact UInt64.not_lt_zero hlt
  obtain ⟨hfilter, hzero'⟩ := filter_reports hpos
  refine ⟨hrun.lastSaved, hrun.le, hrun.covered, before, done, reports ++ w.sender.reports x, hp, hbefore, ?_, ?_,
    hdecodes.append fun d' h' => h'.step hx⟩
  · simp only [Feed.step, filter_append, hfilter, hafter, ← hrest, drop_left, append_assoc]
  · intro t ht h0
    rcases mem_append.mp ht with ht | ht
    · exact hzero t ht h0
    · exact hzero' t ht h0

theorem covered_of_done {done rest : List (List RowChange × LSN)} {since position : LSN}
    (hp : published = before ++ done.flatMap Prod.fst) (hbefore : Covered history before since)
    (hafter : Feed.after history since = done ++ rest) (hrest : ∀ t ∈ rest, position < t.2) :
    Covered history published position := by
  intro t ht hend
  rw [hp]
  by_cases hsince : t.2 ≤ since
  · exact (hbefore t ht hsince).trans (prefix_append _ _).isInfix
  have hmem : t ∈ Feed.after history since := mem_filter.mpr ⟨ht, decide_eq_true (UInt64.not_le.mp hsince)⟩
  rw [hafter] at hmem
  rcases mem_append.mp hmem with hdone | hnew
  · obtain ⟨l, l', rfl⟩ := append_of_mem hdone
    exact ⟨before ++ l.flatMap Prod.fst, l'.flatMap Prod.fst, by simp⟩
  · exact absurd (hrest t hnew) (UInt64.not_lt.mpr hend)

theorem exists_done (hsorted : history.Pairwise fun t t' => t.2 < t'.2)
    {done reports pending : List (List RowChange × LSN)} {since safePos : LSN} {result : DecodeResult}
    (hp : published = before ++ done.flatMap Prod.fst) (hbefore : Covered history before since)
    (hcovered : Covered history published safePos) (hzero : result.position = 0 → result.changes = [])
    (hafter : Feed.after history since =
      done ++ (((result.changes, result.position) :: reports).filter (fun t => t.2 ≠ 0) ++ pending)) :
    ∃ done', published ++ result.changes = before ++ done'.flatMap Prod.fst ∧
      Feed.after history since = done' ++ (reports.filter (fun t => t.2 ≠ 0) ++ pending) ∧
      Covered history (published ++ result.changes)
        (if result.safe && result.position > safePos then result.position else safePos) := by
  by_cases h0 : result.position = 0
  · refine ⟨done, ?_, ?_, ?_⟩
    · rw [hzero h0, append_nil, hp]
    · simpa [h0] using hafter
    · simpa [h0, hzero h0] using hcovered
  · have hp' : published ++ result.changes = before ++
      (done ++ [(result.changes, result.position)]).flatMap Prod.fst := by
      simp [hp]
    have hafter' : Feed.after history since = (done ++ [(result.changes, result.position)]) ++
        (reports.filter (fun t => t.2 ≠ 0) ++ pending) := by
      simpa [h0] using hafter
    refine ⟨_, hp', hafter', ?_⟩
    split
    · have hlater := hsorted.filter (fun t => decide (since < t.2))
      rw [← Feed.after, hafter'] at hlater
      exact covered_of_done hp' hbefore hafter' fun t ht =>
        (pairwise_append.mp hlater).2.2 (result.changes, result.position) (by simp) t ht
    · exact hcovered.mono (prefix_append _ _) (UInt64.le_refl _)

theorem Sound.receive (h : Sound limits history w) (hsorted : history.Pairwise fun t t' => t.2 < t'.2)
    (hr : w.source.run = some r) {inbox : List (LSN × Message)} (hinbox : w.inbox = m :: inbox) (flushed : Bool) :
    Sound limits history { w with source := w.source.xlogData r m.1 m.2 flushed, inbox } ∧
      ∃ result dec, r.dec.applyResult m.1 m.2 = .ok (result, dec) := by
  have hrun := h.running r hr
  obtain ⟨before, done, reports, hp, hbefore, hafter, hzero, hdecodes⟩ := hrun.stream
  rw [hinbox] at hdecodes
  obtain ⟨result, dec, reports, happly, rfl, hrest⟩ := hdecodes.cons
  obtain ⟨done', hp', hafter', hcovered⟩ :=
    exists_done hsorted hp hbefore hrun.covered (hzero _ mem_cons_self) hafter
  refine ⟨?_, result, dec, happly⟩
  simp only [Source.xlogData, happly]
  refine ⟨h.confirmed, h.covered.mono (prefix_append _ _) (UInt64.le_refl _), fun r' hr' => ?_⟩
  cases hr'
  obtain ⟨hdec, hpos, hlast⟩ := dec_advanceStreamPosition (r := { r with
    dec, safePos := if result.safe && result.position > r.safePos then result.position else r.safePos }) m.1
  refine ⟨hlast.trans hrun.lastSaved, ?_, ?_, before, done', reports, hp', hbefore, hafter',
    fun t ht => hzero t (.tail _ ht), ?_⟩
  · rw [hlast, hpos]
    split
    next hgt =>
      exact UInt64.le_trans hrun.le (UInt64.le_of_lt (of_decide_eq_true (Bool.and_eq_true_iff.mp hgt).2))
    · exact hrun.le
  · rw [hpos]
    exact hcovered
  · rw [hdec]
    exact hrest

theorem Sound.delivers (h : Sound limits history w) : Delivers history w := by
  refine ⟨fun position hposition => ?_, h.covered.mono (prefix_refl _) h.confirmed, fun hr => ?_⟩
  · have hresume : w.source.resumeAt = position := by
      unfold Source.resumeAt
      rw [hposition]
      rfl
    exact hresume ▸ h.covered
  · obtain ⟨r, hr⟩ := isSome_iff_exists.mp hr
    obtain ⟨before, done, reports, hp, hbefore, hafter, _, hdecodes⟩ := (h.running r hr).stream
    refine ⟨before, done, hp, hbefore, ⟨_, hafter.symm⟩, fun hinbox hpending => ?_⟩
    rw [hinbox] at hdecodes
    obtain ⟨results, d, hall, rfl, _⟩ := hdecodes
    cases hall
    rw [hafter, hpending]
    simp

theorem Forward.of_source {w' : Feed} (hc : w'.source.checkpoint = w.source.checkpoint)
    (hf : w'.source.confirmed = w.source.confirmed) (hr : w.source.run.isSome → w'.source.run.isSome) :
    Forward w w' input :=
  ⟨fun position hposition => ⟨position, hc.trans hposition, UInt64.le_refl _⟩, UInt64.le_of_eq hf.symm, fun _ _ => hr⟩

section
variable (h : Sound limits history w)
include h

theorem Sound.forward (hr : w.source.run = some r) (hs : Settles w.source s' r)
    (hinput : ∀ flushed, input ≠ .receive flushed) : Forward w { w with source := s' } input := by
  have hrun := h.running r hr
  have hle := hrun.lastSaved ▸ hrun.le
  refine ⟨fun position hposition => ?_, ?_, fun flushed heq => absurd heq (hinput flushed)⟩
  · rcases hs.checkpoint with heq | heq
    · exact ⟨position, heq.trans hposition, UInt64.le_refl _⟩
    · refine ⟨r.safePos, heq, ?_⟩
      unfold Source.resumeAt at hle
      rw [hposition] at hle
      exact hle
  · rcases hs.confirmed with heq | heq
    · exact UInt64.le_of_eq heq.symm
    · exact heq.1 ▸ UInt64.le_trans h.confirmed hle

theorem Sound.withRun {f : Run → Source}
    (hf : ∀ r, Running limits history w r → Settles w.source (f r) r) (hinput : ∀ flushed, input ≠ .receive flushed) :
    Sound limits history (w.withRun fun r => { w with source := f r }) ∧
      Forward w (w.withRun fun r => { w with source := f r }) input := by
  unfold Feed.withRun
  cases hr : w.source.run with
  | none => exact ⟨h, .of_source rfl rfl id⟩
  | some r => exact ⟨h.settles hr (hf r (h.running r hr)), h.forward hr (hf r (h.running r hr)) hinput⟩

theorem Sound.step (hsorted : history.Pairwise fun t t' => t.2 < t'.2) (hinput : w.allowed (Allowed limits) input) :
    Sound limits history (w.step limits history input) ∧ Forward w (w.step limits history input) input := by
  cases input with
  | start since => exact ⟨h.start hinput.2.2, .of_source rfl rfl fun _ => rfl⟩
  | send x => exact ⟨h.send hinput.2.1 hinput.2.2, .of_source rfl rfl id⟩
  | receive flushed =>
    simp only [Feed.step, Feed.withRun]
    cases hr : w.source.run with
    | none => exact ⟨h, .of_source rfl rfl id⟩
    | some r =>
      cases hinbox : w.inbox with
      | nil => exact ⟨h, .of_source rfl rfl id⟩
      | cons m inbox =>
        obtain ⟨hsound, result, dec, happly⟩ := h.receive hsorted hr hinbox flushed
        refine ⟨hsound, ?_⟩
        simp only [elim_some, Source.xlogData, happly]
        exact .of_source rfl rfl fun _ => rfl
  | status reply => exact h.withRun (fun r hr => settles_sendStatus hr.lastSaved hr.le reply) fun _ heq => by cases heq
  | keepalive serverWALEnd reply =>
    exact h.withRun (fun r hr => settles_keepalive hr.lastSaved hr.le serverWALEnd reply) fun _ heq => by cases heq
  | stop flushed => exact h.withRun (fun r hr => settles_finish hr.lastSaved flushed) fun _ heq => by cases heq

end
end

/-- A source on a slot created at a position before every transaction never skips a change, if the server's steps
    keep to `may`. -/
def Reliable (limits : DecoderLimits) (may : Sender → LSN × Step → Prop) : Prop :=
  ∀ (history : List (List RowChange × LSN)) (streaming : Bool) (created : LSN) (w : Feed),
    (history.Pairwise fun t t' => t.2 < t'.2) → (∀ t ∈ history, created < t.2) →
    Reach (Feed.step limits history) (Feed.allowed may)
      { source := { confirmed := created }, sender := { streaming } } w →
    Delivers history w ∧ ∀ input, w.allowed may input → Forward w (w.step limits history input) input

/-- A source never skips a change while the server keeps within the limits and takes back no first row. -/
theorem checkpoint_never_skips (limits : DecoderLimits) : Reliable limits (Allowed limits) := by
  intro history streaming created w hsorted hcreated hreach
  have hsound : Sound limits history w := by
    refine Reach.invariant ⟨UInt64.le_refl _, fun t ht hend => ?_, fun _ h => by cases h⟩
      (fun _ _ hinput h => (h.step hsorted hinput).1) hreach
    exact absurd hend (UInt64.not_le.mpr (hcreated t ht))
  exact ⟨hsound.delivers, fun _ hinput => (hsound.step hsorted hinput).2⟩

/-- A transaction is received, saved and acknowledged, and the source is stopped and started again. -/
def restarted : List Input :=
  [.start 0, .send (1, .relation { id := 7, ns := [], name := [], columns := [] }), .send (2, .begin 50 30),
    .send (insertAt 0), .send (3, .commit 51)] ++ List.replicate 4 (.receive true) ++
  [.status { saved := true, received := true, sent := true, flushed := true }, .stop true, .start 51]

/-- The one row of the transaction that is sent. -/
def inserted : List RowChange :=
  [{ op := .insert, schema := [], table := [], lsn := 100, commitLSN := some 50, xid := 30 }]

theorem checkpoint_never_skips_restarted : Delivers [(inserted, 51)] (restarted.foldl
    (Feed.step tenChanges [(inserted, 51)]) { source := { confirmed := 0 }, sender := { streaming := true } }) :=
  (checkpoint_never_skips tenChanges [(inserted, 51)] true 0 _ (pairwise_singleton _ _) (by simp)
    (@Reach.of_along _ _ _ _ _ restarted
      ⟨⟨rfl, by decide, by decide⟩, ⟨rfl, by decide, _, rfl⟩, ⟨rfl, by decide, _, rfl⟩, ⟨rfl, by decide, _, rfl⟩,
        ⟨rfl, by decide, _, rfl⟩, trivial, trivial, trivial, trivial, trivial, trivial, ⟨rfl, by decide, by decide⟩,
        trivial⟩)).1

/-- The emptied transaction is received up to its commit. -/
def stopped : List Input := .start 0 :: emptied.map .send ++ List.replicate 5 (.receive true)

/-- The stream of a transaction whose rows are all rolled back stops the source, and again at every start. -/
theorem emptied_stops : ¬ ∀ limits, Reliable limits fun s x => s.conforms x := by
  intro h
  have hreach := @Reach.of_along _ _ (Feed.step tenChanges [([], 61)]) (Feed.allowed fun s x => s.conforms x)
    { source := { confirmed := 0 }, sender := { streaming := true } } stopped
    ⟨⟨rfl, by decide, by decide⟩, ⟨rfl, by decide, _, rfl⟩, ⟨rfl, by decide, _, rfl⟩, ⟨rfl, by decide, _, rfl⟩,
      ⟨rfl, by decide, _, rfl⟩, ⟨rfl, by decide, _, rfl⟩, ⟨rfl, by decide, _, rfl⟩, trivial, trivial, trivial, trivial,
      trivial, trivial⟩
  have hruns := ((h tenChanges [([], 61)] true 0 _ (pairwise_singleton _ _) (by simp) hreach).2 (.receive true)
    trivial).runs true rfl rfl
  cases hruns

end Wippy.Cdc
