import Mathlib.Algebra.Order.BigOperators.Group.List
import Mathlib.Data.Nat.Cast.Basic
import Wippy.Theorems.Eventual.Codec

/-! What `Drain` makes of the queue. It compares the frame limit with the encoding of an entry alone, without the type
    byte of the frame. -/

namespace Wippy.Eventual
open Lib Lib.Wire List Gossip

namespace BroadcastQueue
variable {q : BroadcastQueue} {originOf : Nat → Bytes} {overhead : Int}

/-- The bytes of an entry, with the origin that its id denotes. -/
abbrev encode (q : BroadcastQueue) (originOf : Nat → Bytes) (e : Entry) : Option Bytes :=
  (encodeDelta e (q.originFor originOf e)).toOption

/-- `Drain` packs what waits. -/
def Packed (q : BroadcastQueue) (originOf : Nat → Bytes) (overhead budget : Int) : Prop :=
  ∃ groups skipped, Gossip.Packed [frameTypeDelta] (q.encode originOf) decodeDelta
    (fun e => (e.withOrigin (q.originFor originOf e)).read) q.pending overhead budget
    (q.drain originOf overhead budget).2 (q.drain originOf overhead budget).1.pending groups skipped

theorem decodes_encode {e : Entry} {bs : Bytes} (h : bs ∈ q.encode originOf e) :
    Decodes decodeDelta bs (e.withOrigin (q.originFor originOf e)).read :=
  decodes_of_reads (reads_encodeDelta (eq_ok_of_toOption h))

variable (ho : overhead ≤ maxFrameBytes - 64)
include ho

theorem ne_of_packed (h : ∀ budget, q.Packed originOf overhead budget) {e : Entry} (he : e ∈ q.pending)
    {bs : Bytes} (hbs : q.encode originOf e = some bs) : (bs.length : Int) ≠ maxFrameBytes - overhead := by
  -- a budget for more frames than there are entries
  obtain ⟨lim, hlim, hhead, hover, hlimit, hbudget⟩ :=
    exists_limits ho [frameTypeDelta] ((q.pending.length + 1) * (maxFrameBytes + 1))
  obtain ⟨groups, skipped, hpacked⟩ := h ((q.pending.length + 1) * (maxFrameBytes + 1))
  have hb : Bounded lim (q.encode originOf) q.pending (maxFrameBytes - overhead + 1) := by
    refine ⟨by omega, by omega, ?_, fun e he buf hbuf hle => ?_⟩ <;> rw [hhead, length_singleton] <;> omega
  obtain ⟨p, j, -, hp, hend, heq⟩ := drain_filed hlim hb
  have hcount : p.frames.length ≤ q.pending.length := by
    have hnodup : p.commitIdx.Nodup := (pairwise_append.mp hp.sorted).1.imp Nat.ne_of_lt
    have hsub : p.commitIdx ⊆ range q.pending.length := fun k hk => by
      obtain ⟨-, e, -, hget, -⟩ := hp.taken k (mem_append_left _ hk)
      exact mem_range.mpr (List.getElem?_eq_some_iff.mp hget).1
    have := (subperm_of_subset hnodup hsub).length_le
    rw [length_range] at this
    exact Nat.le_trans hp.count this
  have hcost : p.bytesEmitted ≤ q.pending.length * (maxFrameBytes + 1) := by
    have hle : p.bytesEmitted ≤ p.frames.length • (maxFrameBytes + 1) := by
      rw [hp.cost, ← length_map]
      refine sum_le_card_nsmul _ _ fun x hx => ?_
      obtain ⟨f, hf, rfl⟩ := List.mem_map.mp hx
      have := hp.size f (mem_append_left _ hf)
      omega
    rw [nsmul_eq_mul] at hle
    unfold maxFrameBytes at *
    omega
  have hroom : p.bytesEmitted + lim.headerOverhead + (maxFrameBytes - overhead + 1) ≤ lim.byteBudget := by
    rw [hbudget, if_neg (by unfold maxFrameBytes; omega), Int.add_mul]
    omega
  obtain ⟨k, hget⟩ := mem_iff_getElem?.mp he
  have hk := (List.getElem?_eq_some_iff.mp hget).1
  have hflush := hp.flushFrame hb
  obtain hsent | hskip := hp.filed (fun _ _ _ h => (decodes_encode h).1) (show k < j by omega) fun _ => hroom
  · obtain ⟨groups, hflat, hframes⟩ := hflush.frames
    rw [← hflat] at hsent
    obtain ⟨g, hg, hkg⟩ := mem_flatten.mp hsent
    have hsize := hpacked.size (frameOf lim.head _ (g.filterMap (q.pending[·]?))) (by
      unfold BroadcastQueue.drain
      rw [heq, hframes]
      exact mem_map_of_mem hg)
    have hmem : e ∈ g.filterMap (q.pending[·]?) := mem_filterMap.mpr ⟨k, hkg, hget⟩
    have hlong := le_length_frameOf lim.head hmem hbs
    rw [hhead] at hsize hlong
    rw [length_singleton] at hlong
    omega
  · have := hflush.skipped k hskip e hget bs hbs
    omega

/-- Under every budget `Drain` packs a queue, if and only if none of its entries encodes to just the limit. -/
theorem packed_iff : (∀ budget, q.Packed originOf overhead budget) ↔
    ∀ e ∈ q.pending, ∀ bs ∈ q.encode originOf e, (bs.length : Int) ≠ maxFrameBytes - overhead := by
  refine ⟨fun h e he bs hbs => ne_of_packed ho h he hbs, fun h budget => ?_⟩
  refine drain_packed ho (by simp) (fun e _ buf hbuf => decodes_encode hbuf) (fun e he buf hbuf hle => ?_) budget
  have := h e he buf hbuf
  rw [length_singleton]
  omega

omit ho

/-- Entries with names of these lengths wait; one is on the wire 29 bytes longer than its name. -/
def waiting (names : List Nat) : BroadcastQueue where
  originNodeStr := [1]
  pending := names.map fun n => { name := replicate n 0, counter := 1, wall := 0, node := 0, priority := 0 }
  cap := names.length

/-- Three entries go into two frames, and the fourth is too long for any. -/
theorem packed_iff_short :
    let q := waiting [1, 2, 34, 40]
    q.Packed (fun _ => []) 1336 4000 ∧ (q.drain (fun _ => []) 1336 4000).2.length = 2 :=
  ⟨(packed_iff (by decide)).mpr (by decide +kernel) 4000, by decide +kernel⟩

/-- The entry is not sent and not discarded, however often the queue is drained. -/
theorem lone_not_packed : ¬ ∀ (q : BroadcastQueue) (originOf : Nat → Bytes) (overhead budget : Int),
    overhead ≤ maxFrameBytes - 64 → q.Packed originOf overhead budget := by
  intro h
  obtain ⟨groups, skipped, hpacked⟩ := h (waiting [35]) (fun _ => []) 1336 1400 (by decide)
  exact absurd (hpacked.shrinks (by decide) (by decide)) (by decide +kernel)

end BroadcastQueue
end Wippy.Eventual
