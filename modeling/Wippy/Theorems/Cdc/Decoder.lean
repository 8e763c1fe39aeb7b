import Mathlib.Data.List.TakeWhile
import Wippy.Cdc.Sender
import Wippy.Lib.Except
import Wippy.Lib.Reach

/-! The decoder reports what a conforming sender commits, if no rollback takes back the first row of its transaction. -/

namespace Wippy.Cdc
open Lib List Option Map

variable {rows new : List BufferedChange} {xid key top : XID} {d d' : Decoder} {limits : DecoderLimits} {lsn : LSN}
  {subs : List XID} {body : Body}

theorem bytesOf_append (l l' : List BufferedChange) : bytesOf (l ++ l') = bytesOf l + bytesOf l' := by
  induction l with
  | nil => simp [bytesOf]
  | cons bc l ih => rw [cons_append, bytesOf, bytesOf, ih, Nat.add_assoc]

/-- The counters are what is buffered. -/
structure Counted (d : Decoder) : Prop where
  usage : ∀ key, d.usageAt key = bytesOf (d.rowsAt key)
  changes : d.inflightChanges = d.buffer.sum fun rows => (rows.length : Int)
  bytes : d.inflightBytes = d.buffer.sum fun rows => (bytesOf rows : Int)

theorem elim_rowsAt (d : Decoder) (key : XID) (f : List BufferedChange → Int) (hf : f [] = 0) :
    (d.buffer.lookup key).elim 0 f = f (d.rowsAt key) := by
  unfold Decoder.rowsAt
  cases d.buffer.lookup key with
  | none => exact hf.symm
  | some rows => rfl

theorem Counted.insert (h : Counted d)
    (hbuffer : ∀ k, d'.buffer.lookup k = if k = key then some rows else d.buffer.lookup k)
    (husage : ∀ k, d'.usageAt k = if k = key then (bytesOf rows : Int) else d.usageAt k)
    (hchanges : d'.inflightChanges = d.inflightChanges - (d.rowsAt key).length + rows.length)
    (hbytes : d'.inflightBytes = d.inflightBytes - d.usageAt key + bytesOf rows) : Counted d' := by
  have hsum : ∀ f : List BufferedChange → Int, f [] = 0 →
      d'.buffer.sum f = d.buffer.sum f - f (d.rowsAt key) + f rows := by
    intro f hf
    have hinsert := sum_insert d.buffer f key rows
    rw [elim_rowsAt d key f hf] at hinsert
    rw [sum_congr (fun k => (hbuffer k).trans (lookup_insert_eq d.buffer key k rows).symm) f]
    omega
  refine ⟨fun k => ?_, ?_, ?_⟩
  · rw [husage]
    unfold Decoder.rowsAt
    rw [hbuffer]
    split
    · rfl
    · exact h.usage k
  · rw [hchanges, h.changes, hsum (fun rows => (rows.length)) rfl]
  · rw [hbytes, h.bytes, h.usage, hsum (fun rows => (bytesOf rows)) rfl]

theorem Counted.releaseBuffer (h : Counted d) (key : XID) : Counted (d.releaseBuffer key) := by
  unfold Decoder.releaseBuffer
  cases hrows : d.buffer.lookup key with
  | none => exact h
  | some rows =>
    have hsum : ∀ f : List BufferedChange → Int, Map.sum (d.buffer.erase key) f = d.buffer.sum f - f rows := by
      intro f
      have herase := sum_erase d.buffer f key
      rw [hrows, elim_some] at herase
      omega
    have hat : d.rowsAt key = rows := by
      unfold Decoder.rowsAt
      rw [hrows]
      rfl
    refine ⟨fun k => ?_, ?_, ?_⟩
    · simp only [Decoder.usageAt, Decoder.rowsAt, lookup_erase_eq]
      split
      · rfl
      · exact h.usage k
    · exact (congrArg (· - (rows.length : Int)) h.changes).trans (hsum fun rows => (rows.length)).symm
    · rw [hsum fun rows => (bytesOf rows), ← h.bytes, h.usage, hat]

/-! ### The decoder beside the sender -/

/-- What the decoder takes the sender to be in the middle of. Key 0 is in use exactly inside an ordinary transaction. -/
inductive Shows (d : Decoder) : Current → Prop
  | idle (ht : d.txActive = false) (hs : d.inStream = false) (h0 : (d.buffer.lookup 0).isSome = false) : Shows d .idle
  | ordinary (ht : d.txActive = true) (hs : d.inStream = false) (h0 : (d.buffer.lookup 0).isSome = true) :
    Shows d (.ordinary d.xid d.commitLSN)
  | segment (ht : d.txActive = false) (hs : d.inStream = true) (h0 : (d.buffer.lookup 0).isSome = false)
    (htop : (d.buffer.lookup d.curTopXid).isSome = true) (hstream : d.streaming = true) : Shows d (.segment d.curTopXid)

/-- The decoder has what the sender's steps have given it. -/
structure Tracks (limits : DecoderLimits) (s : Sender) (d : Decoder) : Prop where
  rels : d.rels = s.rels
  streaming : d.streaming = s.streaming
  limits : d.limits = limits
  shows : Shows d s.current
  rows : ∀ key, d.buffer.lookup key = s.rows.lookup key
  counted : Counted d

/-- Decoding gives the reports and leaves the decoder beside the sender's next state. -/
def Decodes (limits : DecoderLimits) (d : Decoder) (msgs : List (LSN × Message)) (reports : List (List RowChange × LSN))
    (s : Sender) : Prop :=
  ∃ results d', d.decodeAll msgs = .ok (results, d') ∧ (results.map fun r => (r.changes, r.position)) = reports ∧
    Tracks limits s d'

theorem decodeAll_append {msgs : List (LSN × Message)} {results : List DecodeResult}
    (h : d.decodeAll msgs = .ok (results, d')) (msgs' : List (LSN × Message)) :
    d.decodeAll (msgs ++ msgs') = (d'.decodeAll msgs').map fun x => (results ++ x.1, x.2) := by
  induction msgs generalizing d results with
  | nil =>
    cases h
    rw [nil_append]
    cases d'.decodeAll msgs' <;> rfl
  | cons m msgs ih =>
    rw [Decoder.decodeAll] at h
    rw [cons_append, Decoder.decodeAll]
    cases happly : d.applyResult m.1 m.2 with
    | error e => simp [happly] at h
    | ok x =>
      rw [happly] at h
      obtain ⟨y, hrest, heq⟩ := exists_of_map_eq_ok h
      cases heq
      dsimp only
      rw [ih hrest]
      cases y.2.decodeAll msgs' <;> rfl

theorem Decodes.append {s s' : Sender} {msgs msgs' : List (LSN × Message)}
    {reports reports' : List (List RowChange × LSN)} (h : Decodes limits d msgs reports s)
    (h' : ∀ d', Tracks limits s d' → Decodes limits d' msgs' reports' s') :
    Decodes limits d (msgs ++ msgs') (reports ++ reports') s' := by
  obtain ⟨results, d', hall, rfl, htracks⟩ := h
  obtain ⟨results', d'', hall', rfl, htracks'⟩ := h' d' htracks
  refine ⟨results ++ results', d'', ?_, map_append, htracks'⟩
  rw [decodeAll_append hall, hall']
  rfl

theorem Decodes.one {s : Sender} {msg : Message} {r : DecodeResult} (h : d.applyResult lsn msg = .ok (r, d'))
    (htracks : Tracks limits s d') : Decodes limits d [(lsn, msg)] [(r.changes, r.position)] s := by
  refine ⟨[r], d', ?_, rfl, htracks⟩
  rw [Decoder.decodeAll, h]
  rfl

section
variable {limits : DecoderLimits} {s : Sender} {d : Decoder}

theorem Tracks.rowsAt (h : Tracks limits s d) (key : XID) : d.rowsAt key = s.rowsAt key := by
  unfold Decoder.rowsAt Sender.rowsAt
  rw [h.rows]

theorem Tracks.reserve (h : Tracks limits s d) (hroom : s.room limits (key, new)) :
    d.reserve key new.length (bytesOf new) = .ok { d with
      usage := d.usage.insert key (d.usageAt key + bytesOf new)
      inflightChanges := d.inflightChanges + new.length
      inflightBytes := d.inflightBytes + bytesOf new } := by
  have hc := h.counted.changes
  have hy := h.counted.bytes
  rw [sum_congr h.rows] at hc hy
  have hu := h.counted.usage key
  rw [h.rowsAt] at hu
  simp only [Sender.room, Bool.and_eq_true, decide_eq_true_eq] at hroom
  unfold Decoder.reserve
  rw [h.rowsAt, h.limits, if_neg]
  simp only [Bool.or_eq_true, decide_eq_true_eq]
  omega

theorem Shows.congr {c : Current} (h : Shows d c) (ht : d'.txActive = d.txActive) (hs : d'.inStream = d.inStream)
    (hx : d'.xid = d.xid) (hl : d'.commitLSN = d.commitLSN) (hc : d'.curTopXid = d.curTopXid)
    (hm : d'.streaming = d.streaming)
    (hb : ∀ k, (d'.buffer.lookup k).isSome = (d.buffer.lookup k).isSome) : Shows d' c := by
  cases h with
  | idle ht' hs' h0 => exact .idle (ht.trans ht') (hs.trans hs') ((hb 0).trans h0)
  | ordinary ht' hs' h0 =>
    rw [← hx, ← hl]
    exact .ordinary (ht.trans ht') (hs.trans hs') ((hb 0).trans h0)
  | segment ht' hs' h0 htop hstream =>
    rw [← hc]
    exact .segment (ht.trans ht') (hs.trans hs') ((hb 0).trans h0) (hc ▸ (hb _).trans htop) (hm.trans hstream)

section
variable (h : Tracks limits s d)
include h

theorem Tracks.bufferChanges (hkey : (d.buffer.lookup key).isSome = true) (hroom : s.room limits (key, new)) :
    ∃ d', d.bufferChanges key (some new) = .ok d' ∧
      Tracks limits { s with rows := s.rows.insert key (s.rowsAt key ++ new) } d' := by
  rw [Decoder.bufferChanges, h.reserve hroom]
  refine ⟨_, rfl, ?_⟩
  -- A truncation of no relation writes nothing; the transaction has its buffer already.
  have hbuffer : ∀ k, (if new.isEmpty then d.buffer else d.buffer.insert key (d.rowsAt key ++ new)).lookup k =
      if k = key then some (d.rowsAt key ++ new) else d.buffer.lookup k := by
    intro k
    split
    next hnil =>
      rw [List.isEmpty_iff.mp hnil]
      split
      next heq =>
        subst heq
        obtain ⟨rows, hrows⟩ := isSome_iff_exists.mp hkey
        simp [Decoder.rowsAt, hrows]
      · rfl
    · exact lookup_insert_eq _ _ _ _
  refine ⟨h.rels, h.streaming, h.limits, h.shows.congr rfl rfl rfl rfl rfl rfl fun k => ?_, fun k => ?_,
    h.counted.insert hbuffer (fun k => ?_) ?_ ?_⟩
  · refine (congrArg Option.isSome (hbuffer k)).trans ?_
    split
    next heq =>
      rw [heq, hkey]
      rfl
    · rfl
  · refine (hbuffer k).trans ?_
    rw [lookup_insert_eq, h.rowsAt, h.rows]
  · simp only [Decoder.usageAt, lookup_insert_eq]
    split
    · have hu := h.counted.usage key
      unfold Decoder.usageAt at hu
      simp [hu, bytesOf_append]
    · rfl
  · simp only [length_append]
    omega
  · have hu := h.counted.usage key
    simp only [hu, bytesOf_append]
    omega

theorem Tracks.applyResult_change {tag key : XID} (hwritten : s.written lsn tag body = some (key, new)) :
    (d.buffer.lookup key).isSome = true ∧
      d.applyResult lsn (.change (if s.streaming then some tag else none) body) =
        (d.bufferChanges key (some new)).map fun d' => ({}, d') := by
  have hshows := h.shows
  unfold Sender.written at hwritten
  generalize s.current = c at hshows hwritten
  cases hshows with
  | idle _ _ _ => cases hwritten
  | ordinary ht hs h0 =>
    obtain ⟨changes, hchanges, heq⟩ := map_eq_some_iff.mp hwritten
    cases heq
    rw [← h.rels] at hchanges
    refine ⟨h0, ?_⟩
    cases s.streaming <;> simp [Decoder.applyResult, Decoder.one, hs, ht, hchanges]
  | segment ht hs h0 htop hstream =>
    obtain ⟨changes, hchanges, heq⟩ := map_eq_some_iff.mp hwritten
    cases heq
    rw [← h.rels] at hchanges
    refine ⟨htop, ?_⟩
    rw [← h.streaming, hstream]
    simp [Decoder.applyResult, Decoder.bufferOne, hs, hchanges]

theorem Tracks.change {tag key : XID} (hwritten : s.written lsn tag body = some (key, new))
    (hroom : s.room limits (key, new)) :
    Decodes limits d [(lsn, .change (if s.streaming then some tag else none) body)] [([], 0)]
      { s with rows := s.rows.insert key (s.rowsAt key ++ new) } := by
  obtain ⟨hkey, happly⟩ := h.applyResult_change hwritten
  obtain ⟨d', hd', htracks⟩ := h.bufferChanges hkey hroom
  rw [hd'] at happly
  exact Decodes.one happly htracks

/-! ### Steps that open and close transactions -/

theorem Tracks.idle (hcur : s.current = .idle) :
    d.txActive = false ∧ d.inStream = false ∧ (d.buffer.lookup 0).isSome = false := by
  have hshows := h.shows
  rw [hcur] at hshows
  cases hshows with
  | idle ht hs h0 => exact ⟨ht, hs, h0⟩

end

theorem rowsAt_of_lookup (hrows : d.buffer.lookup key = some rows) : d.rowsAt key = rows := by
  unfold Decoder.rowsAt
  rw [hrows]
  rfl

theorem releaseBuffer_eq (hrows : d.buffer.lookup key = some rows) :
    d.releaseBuffer key = { d with
      inflightChanges := d.inflightChanges - rows.length, inflightBytes := d.inflightBytes - d.usageAt key
      buffer := d.buffer.erase key, usage := d.usage.erase key } := by
  rw [Decoder.releaseBuffer, hrows]

section
variable (h : Tracks limits s d)
include h

theorem Tracks.begin (hcur : s.current = .idle) (lsn finalLSN : LSN) (xid : XID) :
    Decodes limits d [(lsn, .begin finalLSN xid)] [([], 0)]
      { s with current := .ordinary xid finalLSN, rows := s.rows.insert 0 [] } := by
  obtain ⟨ht, hs, h0⟩ := h.idle hcur
  have hnone : d.rowsAt 0 = [] := by
    unfold Decoder.rowsAt
    rw [isSome_eq_false_iff.mp h0 |> isNone_iff_eq_none.mp]
    rfl
  have husage := h.counted.usage 0
  rw [hnone] at husage
  have happly : d.applyResult lsn (.begin finalLSN xid) =
      .ok ({}, { d with commitLSN := finalLSN, xid, txActive := true, buffer := d.buffer.insert 0 [] }) := by
    simp [Decoder.applyResult, ht, hs]
  refine Decodes.one happly ⟨h.rels, h.streaming, h.limits, .ordinary rfl hs (by simp), fun k => ?_,
    h.counted.insert (fun k => lookup_insert_eq d.buffer 0 k []) (fun k => ?_) ?_ ?_⟩
  · rw [lookup_insert_eq, lookup_insert_eq, h.rows]
  · split
    next heq =>
      rw [heq]
      exact husage
    · rfl
  · simp [hnone]
  · simp [husage, bytesOf]

theorem Tracks.commit {finalLSN : LSN} (hcur : s.current = .ordinary xid finalLSN) (lsn endLSN : LSN) :
    Decodes limits d [(lsn, .commit finalLSN endLSN)] [(Decoder.stamp finalLSN (s.rowsAt 0), endLSN)]
      { s with current := .idle, rows := s.rows.erase 0 } := by
  have hshows := h.shows
  rw [hcur] at hshows
  cases hshows with
  | ordinary ht hs h0 =>
    obtain ⟨rows, hrows⟩ := isSome_iff_exists.mp h0
    have hcount := h.counted.releaseBuffer 0
    have happly : d.applyResult lsn (.commit d.commitLSN endLSN) = .ok ({
        changes := (d.flushTransaction d.commitLSN).1, position := endLSN
        safe := (d.flushTransaction d.commitLSN).2.isEmpty }, (d.flushTransaction d.commitLSN).2) := by
      simp [Decoder.applyResult, ht]
    rw [Decoder.flushTransaction, releaseBuffer_eq hrows, ite_self, h.rowsAt] at happly
    rw [releaseBuffer_eq hrows] at hcount
    refine Decodes.one happly ⟨h.rels, h.streaming, h.limits, .idle rfl hs (by simp), fun k => ?_,
      { hcount with }⟩
    rw [lookup_erase_eq, lookup_erase_eq, h.rows]

theorem Tracks.streamStart (hcur : s.current = .idle) (hstream : s.streaming = true) (hxid : xid ≠ 0) (lsn : LSN) :
    Decodes limits d [(lsn, .streamStart xid)] [([], 0)]
      { s with current := .segment xid, rows := s.rows.insert xid (s.rowsAt xid) } := by
  obtain ⟨ht, hs, h0⟩ := h.idle hcur
  have hmode := h.streaming.trans hstream
  have hbuffer : ∀ k, (if (d.buffer.lookup xid).isSome then d.buffer else d.buffer.insert xid []).lookup k =
      if k = xid then some (d.rowsAt xid) else d.buffer.lookup k := by
    intro k
    unfold Decoder.rowsAt
    cases hrows : d.buffer.lookup xid with
    | none => exact lookup_insert_eq d.buffer xid k []
    | some rows =>
      by_cases hk : k = xid
      · rw [if_pos hk, hk]
        exact hrows
      · rw [if_neg hk]
        rfl
  have happly : d.applyResult lsn (.streamStart xid) = .ok ({}, { d with
      inStream := true, curTopXid := xid
      buffer := if (d.buffer.lookup xid).isSome then d.buffer else d.buffer.insert xid [] }) := by
    simp [Decoder.applyResult, ht, hs, hmode]
  refine Decodes.one happly
    ⟨h.rels, h.streaming, h.limits, .segment ht rfl ?_ ?_ hmode, fun k => ?_,
      h.counted.insert hbuffer (fun k => ?_) ?_ ?_⟩
  · refine (congrArg Option.isSome (hbuffer 0)).trans ?_
    rw [if_neg (Ne.symm hxid), h0]
  · refine (congrArg Option.isSome (hbuffer xid)).trans ?_
    rw [if_pos rfl]
    rfl
  · refine (hbuffer k).trans ?_
    rw [lookup_insert_eq, h.rowsAt, h.rows]
  · by_cases hk : k = xid
    · rw [if_pos hk, hk]
      exact h.counted.usage xid
    · rw [if_neg hk]
      rfl
  · exact (Int.sub_add_cancel _ _).symm
  · rw [← h.counted.usage]
    exact (Int.sub_add_cancel _ _).symm

theorem Tracks.streamStop (hcur : s.current = .segment xid) (lsn : LSN) :
    Decodes limits d [(lsn, .streamStop)] [([], 0)] { s with current := .idle } := by
  have hshows := h.shows
  rw [hcur] at hshows
  cases hshows with
  | segment ht hs h0 htop hstream =>
    have happly : d.applyResult lsn .streamStop = .ok ({}, { d with inStream := false }) := by
      simp [Decoder.applyResult, hs]
    exact Decodes.one happly
      { h with shows := .idle ht rfl h0, counted := { h.counted with } }

theorem Tracks.release (hcur : s.current = .idle) (hrows : d.buffer.lookup xid = some rows) :
    Tracks limits { s with rows := s.rows.erase xid }
      { d.releaseBuffer xid with inStream := false, curTopXid := 0 } := by
  obtain ⟨ht, hs, h0⟩ := h.idle hcur
  have hcount := h.counted.releaseBuffer xid
  rw [releaseBuffer_eq hrows] at hcount ⊢
  refine ⟨h.rels, h.streaming, h.limits, ?_, fun k => ?_, { hcount with }⟩
  · rw [hcur]
    refine .idle ht rfl ?_
    rw [lookup_erase_eq]
    split
    · rfl
    · exact h0
  · rw [lookup_erase_eq, lookup_erase_eq, h.rows]

theorem Tracks.streamCommit (hcur : s.current = .idle) (hrows : s.rows.lookup xid = some rows)
    (lsn commitLSN endLSN : LSN) :
    Decodes limits d [(lsn, .streamCommit xid commitLSN endLSN)] [(Decoder.stamp commitLSN (s.rowsAt xid), endLSN)]
      { s with rows := s.rows.erase xid } := by
  obtain ⟨ht, hs, h0⟩ := h.idle hcur
  rw [← h.rows] at hrows
  have happly : d.applyResult lsn (.streamCommit xid commitLSN endLSN) = .ok ({
      changes := (d.flushStream xid commitLSN).1, position := endLSN
      safe := (d.flushStream xid commitLSN).2.isEmpty }, (d.flushStream xid commitLSN).2) := by
    simp [Decoder.applyResult, hs, hrows]
  rw [← h.rowsAt]
  exact Decodes.one happly (h.release hcur hrows)

end

theorem Tracks.congr {s' : Sender} (h : Tracks limits s d) (hrels : s.rels = s'.rels)
    (hmode : s.streaming = s'.streaming) (hcur : s.current = s'.current)
    (hrows : ∀ k, s.rows.lookup k = s'.rows.lookup k) :
    Tracks limits s' d :=
  ⟨h.rels.trans hrels, h.streaming.trans hmode, h.limits, hcur ▸ h.shows, fun k => (h.rows k).trans (hrows k),
    h.counted⟩

theorem Tracks.cut (h : Tracks limits s d) (hcur : s.current = .idle) {top sub : XID}
    (hrows : s.rows.lookup top = some rows) (hne : top ≠ sub) (hclear : ∀ bc ∈ rows.head?, bc.subxid ≠ sub)
    (lsn : LSN) :
    Decodes limits d [(lsn, .streamAbort top sub)] [([], 0)]
      { s with rows := s.rows.insert top (rows.takeWhile fun bc => bc.subxid ≠ sub) } := by
  obtain ⟨ht, hs, h0⟩ := h.idle hcur
  rw [← h.rows] at hrows
  have hat := rowsAt_of_lookup hrows
  have happly : d.applyResult lsn (.streamAbort top sub) =
      .ok ({ safe := (d.abortStream top sub).isEmpty }, d.abortStream top sub) := by
    simp [Decoder.applyResult, hs, hrows]
  refine Decodes.one happly ?_
  have hat' : Decoder.rowsAt { d with inStream := false, curTopXid := 0 } top = rows := hat
  simp only [Decoder.abortStream, if_neg hne, hat']
  split
  next hall =>
    have hkeep : (rows.takeWhile fun bc => bc.subxid ≠ sub) = rows :=
      takeWhile_eq_self_iff.mpr (List.all_eq_true.mp hall)
    rw [hkeep]
    refine Tracks.congr (s := s) { h with shows := ?_, counted := { h.counted with } } rfl rfl rfl fun k => ?_
    · rw [hcur]
      exact .idle ht rfl h0
    · rw [lookup_insert_eq]
      split
      next heq =>
        rw [heq, ← h.rows, hrows]
      · rfl
  next hall =>
    have hcut : (rows.takeWhile fun bc => bc.subxid ≠ sub) ≠ [] := by
      cases rows with
      | nil => exact absurd rfl hall
      | cons bc rows => simp [hclear bc rfl]
    rw [if_neg hcut]
    refine ⟨h.rels, h.streaming, h.limits, ?_, fun k => ?_,
      h.counted.insert (fun k => lookup_insert_eq d.buffer top k _) (fun k => ?_) ?_ rfl⟩
    · rw [hcur]
      refine .idle ht rfl ?_
      rw [lookup_insert_eq]
      split
      next heq =>
        rw [heq, hrows] at h0
        cases h0
      · exact h0
    · rw [lookup_insert_eq, lookup_insert_eq, h.rows]
    · simp only [Decoder.usageAt, lookup_insert_eq]
      split <;> rfl
    · rw [hat]

theorem Tracks.cuts (h : Tracks limits s d) (hcur : s.current = .idle) (hrows : s.rows.lookup top = some rows)
    (hne : top ∉ subs) (hclear : ∀ bc ∈ rows.head?, bc.subxid ∉ subs) (lsn : LSN) :
    Decodes limits d (subs.map fun sub => (lsn, .streamAbort top sub)) (subs.map fun _ => ([], 0))
      { s with rows := s.rows.insert top (rows.takeWhile fun bc => bc.subxid ∉ subs) } := by
  induction subs generalizing s d rows with
  | nil =>
    have hkeep : (rows.takeWhile fun bc => bc.subxid ∉ []) = rows := takeWhile_eq_self_iff.mpr (by simp)
    refine ⟨[], d, rfl, rfl, h.congr rfl rfl rfl fun k => ?_⟩
    rw [hkeep, lookup_insert_eq]
    split
    next heq =>
      rw [heq, hrows]
    · rfl
  | cons sub subs ih =>
    rw [mem_cons, not_or] at hne
    have hhead : ∀ bc ∈ rows.head?, bc.subxid ≠ sub ∧ bc.subxid ∉ subs := by
      intro bc hbc
      have := hclear bc hbc
      rw [mem_cons, not_or] at this
      exact this
    have hrest : ∀ bc ∈ (rows.takeWhile fun bc => bc.subxid ≠ sub).head?, bc.subxid ∉ subs := by
      intro bc hbc
      rw [head?_takeWhile] at hbc
      exact (hhead bc (Option.filter_eq_some_iff.mp hbc).1).2
    have htwice : (rows.takeWhile fun bc => bc.subxid ∉ sub :: subs) =
        (rows.takeWhile fun bc => bc.subxid ≠ sub).takeWhile fun bc => bc.subxid ∉ subs := by
      rw [takeWhile_takeWhile]
      simp [and_comm]
    have hall := (h.cut hcur hrows hne.1 (fun bc hbc => (hhead bc hbc).1) lsn).append fun d' h' =>
      ih h' hcur (AList.lookup_insert _) hne.2 hrest
    rw [AList.insert_insert, ← htwice] at hall
    exact hall

theorem filter_eq_takeWhile {α : Type} {p : α → Bool} {l : List α} (h : ∀ x ∈ l.dropWhile p, ¬ p x) :
    l.filter p = l.takeWhile p := by
  calc l.filter p = (l.takeWhile p ++ l.dropWhile p).filter p := by rw [takeWhile_append_dropWhile]
    _ = l.takeWhile p := by
      rw [filter_append, filter_eq_nil_iff.mpr h, append_nil,
        filter_eq_self.mpr fun x hx => mem_takeWhile_imp hx]

theorem Tracks.abort (h : Tracks limits s d) (hcur : s.current = .idle) (hrows : s.rows.lookup top = some rows)
    (hne : top ∉ subs) (hclear : ∀ bc ∈ rows.head?, bc.subxid ∉ subs) (lsn : LSN) :
    Decodes limits d ((subs.map fun sub => (lsn, .streamAbort top sub)) ++ [(lsn, .streamAbort top top)])
      ((subs.map fun _ => ([], 0)) ++ [([], 0)]) { s with rows := s.rows.erase top } := by
  refine (h.cuts hcur hrows hne hclear lsn).append fun d' h' => ?_
  obtain ⟨ht, hs, h0⟩ := h'.idle hcur
  have hrows' := (h'.rows top).trans (AList.lookup_insert _)
  have happly : d'.applyResult lsn (.streamAbort top top) =
      .ok ({ safe := (d'.abortStream top top).isEmpty }, d'.abortStream top top) := by
    simp [Decoder.applyResult, hs, hrows']
  have habort : d'.abortStream top top = { d'.releaseBuffer top with inStream := false, curTopXid := 0 } := by
    rw [Decoder.abortStream, releaseBuffer_eq hrows', Decoder.releaseBuffer]
    simp only [hrows']
    rfl
  refine Decodes.one happly ?_
  rw [habort]
  refine (h'.release hcur hrows').congr rfl rfl rfl fun k => ?_
  simp only [lookup_erase_eq, lookup_insert_eq]
  split <;> rfl

/-- What a sender may do: a step of the protocol, within the limits, that takes back no first row. -/
abbrev Allowed (limits : DecoderLimits) (s : Sender) (x : LSN × Step) : Prop :=
  s.conforms x ∧ s.fits limits x ∧ s.clear x

theorem isOpen_iff : s.isOpen xid = true ↔ s.current = .idle ∧ xid ≠ 0 ∧ ∃ rows, s.rows.lookup xid = some rows := by
  simp [Sender.isOpen, isSome_iff_exists, and_assoc]

theorem Tracks.step (h : Tracks limits s d) {x : LSN × Step} (hx : Allowed limits s x) :
    Decodes limits d ((s.messages x).map (x.1, ·)) (s.reports x) (s.step x) := by
  obtain ⟨hconf, hfits, hclear⟩ := hx
  obtain ⟨lsn, step⟩ := x
  cases step with
  | relation rel =>
    exact Decodes.one (r := { safe := !d.inTransaction }) rfl ⟨congrArg (AList.insert rel.id rel) h.rels, h.streaming,
      h.limits, h.shows.congr rfl rfl rfl rfl rfl rfl fun _ => rfl, h.rows, { h.counted with }⟩
  | metadata => exact Decodes.one (r := { safe := !d.inTransaction }) rfl h
  | begin finalLSN xid => exact h.begin (of_decide_eq_true hconf) lsn finalLSN xid
  | commit endLSN =>
    simp only [Sender.conforms] at hconf
    split at hconf
    next xid finalLSN hcur =>
      have hfinal : s.finalLSN = finalLSN := by simp [Sender.finalLSN, hcur]
      simp only [Sender.messages, Sender.reports, hfinal]
      exact h.commit hcur lsn endLSN
    · cases hconf
  | change xid body =>
    obtain ⟨⟨key, new⟩, hwritten⟩ := isSome_iff_exists.mp hconf
    simp only [Sender.fits, hwritten, all_some] at hfits
    simp only [Sender.step, hwritten]
    exact h.change hwritten hfits
  | streamStart xid =>
    simp only [Sender.conforms, Bool.and_eq_true, decide_eq_true_eq] at hconf
    exact h.streamStart hconf.1.2 hconf.1.1 hconf.2 lsn
  | streamStop =>
    simp only [Sender.conforms] at hconf
    split at hconf
    next xid hcur =>
      exact h.streamStop hcur lsn
    · cases hconf
  | streamCommit xid commitLSN endLSN =>
    obtain ⟨hcur, _, rows, hrows⟩ := isOpen_iff.mp hconf
    exact h.streamCommit hcur hrows lsn commitLSN endLSN
  | rollback xid subs =>
    simp only [Sender.conforms, Bool.and_eq_true, decide_eq_true_eq] at hconf
    obtain ⟨⟨hopen, hne⟩, hlast⟩ := hconf
    obtain ⟨hcur, _, rows, hrows⟩ := isOpen_iff.mp hopen
    have hat : s.rowsAt xid = rows := by simp [Sender.rowsAt, hrows]
    simp only [Sender.clear, hat] at hclear
    simp only [hat, List.all_eq_true, decide_eq_true_eq] at hlast
    have hfilter : (rows.filter fun bc => bc.subxid ∉ subs) = rows.takeWhile fun bc => bc.subxid ∉ subs :=
      filter_eq_takeWhile fun bc hbc => by simp [hlast bc hbc]
    simp only [Sender.step, Sender.messages, Sender.reports, hat, hfilter, List.map_map, Function.comp_def]
    exact h.cuts hcur hrows hne (fun bc hbc => of_decide_eq_true (Option.all_eq_true _ _ |>.mp hclear bc hbc)) lsn
  | abort xid subs =>
    simp only [Sender.conforms, Bool.and_eq_true, decide_eq_true_eq] at hconf
    obtain ⟨hcur, _, rows, hrows⟩ := isOpen_iff.mp hconf.1
    have hat : s.rowsAt xid = rows := by simp [Sender.rowsAt, hrows]
    simp only [Sender.clear, hat] at hclear
    simp only [Sender.messages, Sender.reports, map_append, List.map_map, Function.comp_def]
    exact h.abort hcur hrows hconf.2 (fun bc hbc => of_decide_eq_true (Option.all_eq_true _ _ |>.mp hclear bc hbc)) lsn

theorem Tracks.run (h : Tracks limits s d) {steps : List (LSN × Step)}
    (hall : Along Sender.step (Allowed limits) s steps) :
    ∃ s', Decodes limits d (s.sent steps) (s.expected steps) s' := by
  induction steps generalizing s d with
  | nil => exact ⟨s, [], d, rfl, rfl, h⟩
  | cons x steps ih =>
    obtain ⟨results, d', hdecode, hresults, h'⟩ := h.step hall.1
    obtain ⟨s', results', d'', hdecode', hresults', h''⟩ := ih h' hall.2
    refine ⟨s', results ++ results', d'', ?_, ?_, h''⟩
    · rw [Sender.sent, decodeAll_append hdecode, hdecode']
      rfl
    · rw [map_append, hresults, hresults', Sender.expected]

end

theorem tracks_start (limits : DecoderLimits) (streaming : Bool) : Tracks limits { streaming } { limits, streaming } :=
  ⟨rfl, rfl, rfl, .idle rfl rfl rfl, fun _ => rfl, fun _ => rfl, rfl, rfl⟩

/-- Whether every message of a run is decoded, each to what the sender means by it, and the counters are right. -/
def Exact (limits : DecoderLimits) (streaming : Bool) (steps : List (LSN × Step)) : Prop :=
  ∃ results d, Decoder.decodeAll { limits, streaming } (Sender.sent { streaming } steps) = .ok (results, d) ∧
    (results.map fun r => (r.changes, r.position)) = Sender.expected { streaming } steps ∧ Counted d

/-- A run in which no rollback takes back the first row of its transaction is reported exactly. -/
theorem decode_exact (limits : DecoderLimits) (streaming : Bool) (steps : List (LSN × Step))
    (h : Along Sender.step (Allowed limits) { streaming } steps) : Exact limits streaming steps := by
  obtain ⟨_, results, d, hdecode, hresults, htracks⟩ := (tracks_start limits streaming).run h
  exact ⟨results, d, hdecode, hresults, htracks.counted⟩

/-- Limits of ten changes. -/
def tenChanges : DecoderLimits :=
  { maxChanges := 10, maxBytes := 10000, maxInflightChanges := 10, maxInflightBytes := 10000 }

/-- A row inserted by the (sub)transaction `xid`. -/
def insertAt (xid : XID) : LSN × Step := (100, .change xid (.row .insert 7 none none))

/-- Two streamed transactions whose segments are interleaved with an ordinary one and with a rollback. -/
def interleaved : List (LSN × Step) :=
  [(1, .relation { id := 7, ns := [], name := [], columns := [] }), (2, .streamStart 10), insertAt 10, insertAt 11,
    (3, .streamStop), (4, .streamStart 20), insertAt 20, (5, .streamStop), (6, .rollback 10 [11]), (7, .begin 50 30),
    insertAt 0, (8, .commit 51), (9, .abort 20 []), (10, .streamCommit 10 60 61)]

theorem decode_exact_interleaved : Exact tenChanges true interleaved :=
  decode_exact tenChanges true interleaved (by decide +kernel)

/-- A streamed transaction whose only row is rolled back. -/
def emptied : List (LSN × Step) :=
  [(1, .relation { id := 7, ns := [], name := [], columns := [] }), (2, .streamStart 10), insertAt 11, (3, .streamStop),
    (4, .rollback 10 [11]), (5, .streamCommit 10 60 61)]

/-- The buffer of the transaction is gone with its rows, and the commit is refused. -/
theorem emptied_refused : ¬ ∀ (limits : DecoderLimits) (streaming : Bool) (steps : List (LSN × Step)),
    Along Sender.step (fun s x => s.conforms x ∧ s.fits limits x) { streaming } steps →
      Exact limits streaming steps := by
  intro h
  obtain ⟨results, d, hdecode, _⟩ := h tenChanges true emptied (by decide +kernel)
  cases hdecode

end Wippy.Cdc
