import Wippy.Theorems.Eventual.Acks

/-! The push/pull payload is read back as it was written: the digest, the pairs and the sender. -/

namespace Wippy.Eventual
open Lib Lib.Wire State List Option

namespace Digest

/-- The hashes of a digest, numbered from `k`. -/
def encodeHashes (hashes : List UInt64) (k : Nat) : Bytes :=
  (hashes.zipIdx k).flatMap fun x => le 2 x.2 ++ le 8 x.1.toNat

theorem length_encodeHashes (hashes : List UInt64) (k : Nat) : (encodeHashes hashes k).length = hashes.length * 10 := by
  induction hashes generalizing k with
  | nil => rfl
  | cons h hashes ih =>
    have hrest := ih (k + 1)
    unfold encodeHashes at hrest ⊢
    rw [zipIdx_cons, flatMap_cons, length_append, length_append, length_le, length_le,
      length_cons]
    omega

theorem length_encode (d : Digest) : d.encode.length = digestSize := by
  have hbody := length_encodeHashes d.toList 0
  unfold encodeHashes at hbody
  unfold encode
  rw [length_append, hbody, Vector.length_toList]
  rfl

theorem decodeHashes_encodeHashes (hashes : List UInt64) {k : Nat} (hk : k + hashes.length ≤ shardCount) (d : Digest) :
    ∃ d', decodeHashes hashes.length (encodeHashes hashes k) d = .ok d' ∧
      ∀ i (hi : i < shardCount), d'[i] = if k ≤ i then hashes.getD (i - k) d[i] else d[i] := by
  induction hashes generalizing k d with
  | nil => exact ⟨d, rfl, fun i hi => by simp⟩
  | cons h hashes ih =>
    rw [length_cons] at hk
    have hlt : k < shardCount := by omega
    obtain ⟨d', hdec, hget⟩ := ih (k := k + 1) (by omega) (d.set k h hlt)
    have hid : ofLE (le 2 k) = k := by
      have hsmall : shardCount = 64 := rfl
      rw [ofLE_le, Nat.mod_eq_of_lt (by omega)]
    have hhash : UInt64.ofNat (ofLE (le 8 h.toNat)) = h := by
      rw [ofLE_le, Nat.mod_eq_of_lt (by simpa using h.toNat_lt), UInt64.ofNat_toNat]
    have hbytes : encodeHashes (h :: hashes) k = le 2 k ++ (le 8 h.toNat ++ encodeHashes hashes (k + 1)) := by
      unfold encodeHashes
      rw [zipIdx_cons, flatMap_cons, append_assoc]
    refine ⟨d', ?_, fun i hi => ?_⟩
    · rw [length_cons, decodeHashes, hbytes, take_left' (length_le 2 k), drop_left' (length_le 2 k),
        take_left' (length_le 8 h.toNat), hhash]
      simp only [hid]
      rw [dif_pos hlt]
      exact hdec
    · rw [hget i hi, Vector.getElem_set]
      rcases Nat.lt_trichotomy i k with hlt | heq | hgt
      · rw [if_neg (by omega), if_neg (by omega), if_neg (by omega)]
      · subst heq
        simp
      · rw [if_pos (by omega), if_neg (by omega), if_pos (by omega), show i - k = (i - (k + 1)) + 1 by omega,
          getD_cons_succ]

theorem decode_encode (d : Digest) : decode d.encode = .ok d := by
  obtain ⟨d', hdec, hget⟩ := decodeHashes_encodeHashes d.toList (k := 0) (by simp) (Vector.replicate shardCount 0)
  have hsame : d' = d := by
    refine Vector.ext fun i hi => ?_
    have hlen : i < d.toList.length := by rwa [Vector.length_toList]
    rw [hget i hi, if_pos (Nat.zero_le i), Nat.sub_zero, getD_eq_getElem?_getD, getElem?_eq_getElem hlen,
      getD_some, Vector.getElem_toList]
  have hlen := d.length_encode
  have hhead : d.encode = digestVersion :: 64 :: 0 :: encodeHashes d.toList 0 := rfl
  rw [hsame, Vector.length_toList] at hdec
  rw [hhead] at hlen ⊢
  unfold decode
  dsimp only
  rw [if_neg (by decide), if_neg (by decide), if_neg (by omega)]
  exact hdec

end Digest

namespace Service
variable {pairs : List (Bytes × UInt64)} {sender : Bytes}

theorem shortName_eq {name : Bytes} (h : name.length ≤ 255) : shortName name = [UInt8.ofNat name.length] ++ name := by
  unfold shortName
  rw [take_of_length_le h]

theorem reads_encodePair {p : Bytes × UInt64} (h : p.1.length ≤ 255) : Reads readPair (encodePair p) p := by
  unfold encodePair
  rw [shortName_eq h]
  refine (reads_byte _).bind ?_
  refine (reads_take_of (UInt8.toNat_ofNat_of_lt' (Nat.lt_succ_of_le h))).bind ?_
  have hlast := (reads_u64 p.2).map fun counter => (p.1, counter)
  exact hlast

theorem readPairs_flatMap (h : ∀ p ∈ pairs, p.1.length ≤ 255) (rest : Bytes) :
    readPairs pairs.length (pairs.flatMap encodePair ++ rest) = (pairs, some rest) := by
  induction pairs with
  | nil => rfl
  | cons p pairs ih =>
    rw [flatMap_cons, append_assoc, length_cons, readPairs, reads_encodePair (h p (by simp))]
    dsimp only
    rw [ih fun q hq => h q (by simp [hq])]

theorem readSender_shortName (h : sender.length ≤ 255) : readSender (shortName sender) = some sender := by
  have hlen : (UInt8.ofNat sender.length).toNat = sender.length := UInt8.toNat_ofNat_of_lt' (Nat.lt_succ_of_le h)
  rw [shortName_eq h]
  show (if (UInt8.ofNat sender.length).toNat ≤ sender.length then
    some (sender.take (UInt8.ofNat sender.length).toNat) else none) = _
  rw [hlen, if_pos (Nat.le_refl _), take_length]

/-- The bytes that `LocalState` sends. -/
def payload (digest : Digest) (pairs : List (Bytes × UInt64)) (sender : Bytes) : Bytes :=
  digest.encode ++ le 2 pairs.length ++ pairs.flatMap encodePair ++ shortName sender

theorem readHead_payload (digest : Digest) (hlen : pairs.length < 2 ^ 16) (sender : Bytes) :
    readHead (payload digest pairs sender) =
      some (digest, UInt16.ofNat pairs.length, pairs.flatMap encodePair ++ shortName sender) := by
  unfold readHead payload
  rw [append_assoc, append_assoc, take_left' digest.length_encode, drop_left' digest.length_encode,
    digest.decode_encode, length_append, digest.length_encode, if_neg (by omega)]
  rw [reads_u16_ofNat hlen]
  rfl

theorem mergeRemoteState_payload (s : Service) (localDigest digest : Digest) (hlen : pairs.length < 2 ^ 16)
    (hpairs : ∀ p ∈ pairs, p.1.length ≤ 255) (hsender : sender.length ≤ 255) :
    let m := pairs.foldl Merging.pair { state := s.state, peerCV := List.replicate pairs.length 0 }
    (s.mergeRemoteState localDigest (payload digest pairs sender)).1 =
      { s with state := m.state, tracker := s.tracker.recordAck sender m.peerCV } := by
  unfold mergeRemoteState
  rw [readHead_payload digest hlen]
  dsimp only
  rw [UInt16.toNat_ofNat_of_lt' hlen, readPairs_flatMap hpairs]
  dsimp only
  rw [readSender_shortName hsender]
  rfl

end Service
end Wippy.Eventual
