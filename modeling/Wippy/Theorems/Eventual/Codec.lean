import Wippy.Eventual.Delta
import Wippy.Theorems.Gossip.Packing

/-! The wire format of the eventual registry is read back as it was written, but for the pid of a tombstone. -/

namespace Wippy.Eventual
open Lib Lib.Wire List

variable {e : Entry} {d : Delta} {origin bs : Bytes}

/-- What a reader gets of a delta: a tombstone has no process. -/
def Delta.read (d : Delta) : Delta := if d.deleted then { d with pid := {} } else d

theorem encodeDelta_eq_ok (h : encodeDelta e origin = .ok bs) :
    (e.name.length < 2 ^ 16 ∧ origin.length < 2 ^ 8 ∧ e.pid.node.length < 2 ^ 8 ∧ e.pid.host.length < 2 ^ 8 ∧
      e.pid.uniqID.length < 2 ^ 16) ∧
    bs = [if e.deleted then opUnregister else opRegister] ++ (le 2 e.name.length ++ (e.name ++
      ([UInt8.ofNat origin.length] ++ (origin ++ (le 8 e.counter.toNat ++ (le 8 e.wall.toUInt64.toNat ++
        (le 4 e.priority.toNat ++ ([UInt8.ofNat e.pid.node.length] ++ (e.pid.node ++ ([UInt8.ofNat e.pid.host.length] ++
          (e.pid.host ++ (le 2 e.pid.uniqID.length ++ e.pid.uniqID)))))))))))) := by
  unfold encodeDelta at h
  split at h
  · cases h
  split at h
  · cases h
  split at h
  · cases h
  cases h
  refine ⟨⟨by omega, by omega, by omega, by omega, by omega⟩, ?_⟩
  simp only [append_assoc]

theorem reads_encodeDelta (h : encodeDelta e origin = .ok bs) : Reads readDelta bs (e.withOrigin origin).read := by
  obtain ⟨⟨hname, horigin, hnode, hhost, huniq⟩, rfl⟩ := encodeDelta_eq_ok h
  refine (reads_byte _).bind ?_
  refine (reads_u16_ofNat hname).bind ?_
  refine (reads_take_of (UInt16.toNat_ofNat_of_lt' hname)).bind ?_
  refine (reads_byte _).bind ?_
  refine (reads_take_of (UInt8.toNat_ofNat_of_lt' horigin)).bind ?_
  refine (reads_u64 e.counter).bind ?_
  refine (reads_u64 e.wall.toUInt64).bind ?_
  refine (reads_u32 e.priority).bind ?_
  refine (reads_byte _).bind ?_
  refine (reads_take_of (UInt8.toNat_ofNat_of_lt' hnode)).bind ?_
  refine (reads_byte _).bind ?_
  refine (reads_take_of (UInt8.toNat_ofNat_of_lt' hhost)).bind ?_
  refine (reads_u16_ofNat huniq).bind ?_
  have hlast := reads_take_of (UInt16.toNat_ofNat_of_lt' huniq)
  cases hdel : e.deleted with
  | true =>
    have hread := hlast.map fun _ => (e.withOrigin origin).read
    simpa [hdel, Delta.read, Entry.withOrigin] using hread
  | false =>
    have hread := hlast.map fun uniqID => { e.withOrigin origin with pid := { e.pid with uniqID } }
    simpa [hdel, Delta.read, Entry.withOrigin, opUnregister, opRegister] using hread

theorem decodes_of_reads (h : Reads readDelta bs d) : Gossip.Decodes decodeDelta bs d := by
  refine ⟨?_, fun rest => by simp [decodeDelta, h rest]⟩
  rintro rfl
  have : readDelta [] = some (d, []) := h []
  cases this

theorem decodeFrame_flatMap {α : Type} (entry : α → Entry) {originOf : α → Bytes} {bytes : α → Bytes} {records : List α}
    (h : ∀ x ∈ records, encodeDelta (entry x) (originOf x) = .ok (bytes x)) :
    decodeFrame (records.flatMap bytes) = (records.map fun x => ((entry x).withOrigin (originOf x)).read, none) := by
  rw [decodeFrame, flatMap_def, Gossip.unpack_flatten]
  rw [forall₂_map_left_iff, forall₂_map_right_iff, forall₂_same]
  exact fun x hx => decodes_of_reads (reads_encodeDelta (h x hx))

/-- What is read out of a frame that `Drain` packed are the packed entries. -/
theorem decodeFrame_framed {α : Type} (entry : α → Entry) {originOf : α → Bytes} {Q : List α} {frame : Bytes}
    (h : Gossip.Framed [frameTypeDelta] (fun x => (encodeDelta (entry x) (originOf x)).toOption) Q frame) :
    ∃ body, frame = frameTypeDelta :: body ∧
      ∀ d ∈ (decodeFrame body).1, ∃ x ∈ Q, d = ((entry x).withOrigin (originOf x)).read := by
  obtain ⟨records, hrec, rfl⟩ := h
  refine ⟨(records.map Prod.snd).flatten, rfl, fun d hd => ?_⟩
  rw [← flatMap_def, decodeFrame_flatMap (fun r => entry r.1) fun r hr => eq_ok_of_toOption (hrec r hr).2] at hd
  obtain ⟨r, hr, rfl⟩ := List.mem_map.mp hd
  exact ⟨r.1, (hrec r hr).1, rfl⟩

end Wippy.Eventual
