import Wippy.Crdt.Delta
import Wippy.Theorems.Gossip.Packing

/-! The wire format is read back as it was written: one delta, and a frame of them. -/

namespace Wippy.Crdt
open Lib Lib.Wire List

variable {e : Entry} {d : Delta} {origin bs : Bytes}

theorem encodeDelta_eq_ok (h : encodeDelta e origin = .ok bs) :
    e.key.length < 2 ^ 16 ∧ origin.length < 2 ^ 8 ∧ e.value.length < 2 ^ 32 ∧
      bs = [if e.deleted then opTombstone else opPut] ++ (le 2 e.key.length ++ (e.key ++ ([UInt8.ofNat origin.length] ++
        (origin ++ (le 8 e.counter.toNat ++ (le 8 e.wall.toUInt64.toNat ++
          if e.deleted then le 4 0 else le 4 e.value.length ++ e.value)))))) := by
  unfold encodeDelta at h
  split at h
  · cases h
  split at h
  · cases h
  split at h
  · cases h
  · cases h
    refine ⟨by omega, by omega, by omega, ?_⟩
    simp only [append_assoc]

theorem reads_value (value : Bytes) (h : value.length < 2 ^ 32) (f : Bytes → Delta) :
    Reads (do let n ← u32; let v ← take n.toNat; return f v) (le 4 value.length ++ value) (f value) :=
  (reads_u32_ofNat h).bind ((reads_take_of (UInt32.toNat_ofNat_of_lt' h)).map f)

/-- What a reader gets of a delta: a tombstone has no value. -/
def Delta.read (d : Delta) : Delta := if d.deleted then { d with value := [] } else d

theorem Delta.read_eq (h : d.deleted = true → d.value = []) : d.read = d := by
  unfold read
  split
  next hdel => rw [← h hdel]
  · rfl

theorem reads_encodeDelta (h : encodeDelta e origin = .ok bs) : Reads readDelta bs (e.withOrigin origin).read := by
  obtain ⟨hkey, horigin, hvalue, rfl⟩ := encodeDelta_eq_ok h
  refine (reads_byte _).bind ?_
  refine (reads_u16_ofNat hkey).bind ?_
  refine (reads_take_of (UInt16.toNat_ofNat_of_lt' hkey)).bind ?_
  refine (reads_byte _).bind ?_
  refine (reads_take_of (UInt8.toNat_ofNat_of_lt' horigin)).bind ?_
  refine (reads_u64 e.counter).bind ?_
  refine (reads_u64 e.wall.toUInt64).bind ?_
  cases hdel : e.deleted with
  | true =>
    have hread := reads_value [] (by simp) fun _ => (e.withOrigin origin).read
    simpa [hdel, Delta.read, Entry.withOrigin] using hread
  | false =>
    have hread := reads_value e.value hvalue fun value => { e.withOrigin origin with value }
    simpa [hdel, Delta.read, Entry.withOrigin, opTombstone, opPut] using hread

theorem decodes_of_reads (h : Reads readDelta bs d) : Gossip.Decodes decodeDelta bs d := by
  refine ⟨?_, fun rest => by simp [decodeDelta, h rest]⟩
  rintro rfl
  have : readDelta [] = some (d, []) := h []
  cases this

theorem decodeFrame_flatten {records : List Bytes} {ds : List Delta} (h : List.Forall₂ (Reads readDelta) records ds) :
    decodeFrame records.flatten = (ds, none) :=
  Gossip.unpack_flatten (h.imp fun _ _ => decodes_of_reads)

namespace BroadcastQueue
variable {q : BroadcastQueue} {overhead : Int}

/-- The bytes of an entry of the queue. -/
abbrev encode (q : BroadcastQueue) (e : Entry) : Option Bytes := (encodeDelta e q.originNodeStr).toOption

/-- Entries are read back under the origin of the queue, and tombstones without a value. -/
def Packed (q : BroadcastQueue) (overhead budget : Int) : Prop :=
  ∃ groups skipped, Gossip.Packed [] q.encode decodeDelta (fun e => (e.withOrigin q.originNodeStr).read) q.pending
    overhead budget (q.drain overhead budget).2 (q.drain overhead budget).1.pending
    groups skipped

/-- What the last call of `flushFrame` returns. -/
def flushed (q : BroadcastQueue) (overhead budget : Int) : Bool :=
  let lim := Gossip.limits [] overhead budget
  (Gossip.flushFrame lim (Gossip.pack lim q.encode 0 q.pending { frame := [] })).2

/-- A frame has no bytes but those of its entries, so each is within the limit, and the open one within the budget. -/
theorem drain_packs (ho : overhead ≤ Gossip.maxFrameBytes - 64) (budget : Int) :
    q.Packed overhead budget ∧ q.flushed overhead budget = true := by
  constructor
  · exact Gossip.drain_packed ho (by simp)
      (fun e _ buf hbuf => decodes_of_reads (reads_encodeDelta (eq_ok_of_toOption hbuf)))
      (fun e _ buf _ hle => by simpa using hle) budget
  · obtain ⟨lim, hlim, hhead, -, hlimit, -⟩ := Gossip.exists_limits ho [] budget
    have hb : Gossip.Bounded lim q.encode q.pending lim.perFrameLimit := by
      refine ⟨by omega, Int.le_refl _, ?_, fun e _ buf _ hle => ?_⟩ <;> rw [hhead, length_nil] <;> omega
    obtain ⟨p, j, hpack, hp, -, -⟩ := Gossip.drain_filed hlim hb
    unfold flushed
    rw [hlim]
    dsimp only
    rw [hpack]
    rcases Gossip.flushFrame_cases lim p with ⟨-, heq⟩ | ⟨hlong, hover, heq⟩ | ⟨-, -, heq⟩ <;> rw [heq]
    rcases hp.room hhead with hnil | hfits
    · rw [hnil] at hlong
      exact absurd hlong (Nat.not_lt_zero _)
    · omega

/-- Three entries go into two frames, and the fourth is too long for any. -/
theorem drain_packs_one :
    let q : BroadcastQueue :=
      { originNodeStr := [1], cap := 4
        pending := [1, 8, 2, 90].map fun n =>
          { key := [107], value := replicate n 1, counter := 1, wall := 0, node := 0 } }
    q.Packed 1336 4000 ∧ (q.drain 1336 4000).2.length = 2 :=
  ⟨(drain_packs (by decide) 4000).1, by decide +kernel⟩

end BroadcastQueue
end Wippy.Crdt
