import Mathlib.Algebra.Ring.Int.Defs
import Wippy.Gossip.Packing

/-! What the packing loop emits: every frame is the head and the encodings of entries of the queue, and what
    stays queued was queued. -/

namespace Wippy.Gossip
open List

variable {α β : Type} {lim : Limits} {encode encode' : α → Option Bytes} {Q : List α} {p : Packing} {i : Nat} {e : α}
  {buf : Bytes}

/-- A frame made of the head and the encodings of entries of `Q`. -/
def Framed (head : Bytes) (encode : α → Option Bytes) (Q : List α) (frame : Bytes) : Prop :=
  ∃ records : List (α × Bytes), (∀ r ∈ records, r.1 ∈ Q ∧ encode r.1 = some r.2) ∧
    frame = head ++ (records.map Prod.snd).flatten

/-- The frame of some entries: the head and their encodings. -/
def frameOf (head : Bytes) (encode : α → Option Bytes) (es : List α) : Bytes :=
  head ++ es.flatMap fun e => (encode e).getD []

theorem le_length_frameOf (head : Bytes) {es : List α} (he : e ∈ es) (hbuf : encode e = some buf) :
    head.length + buf.length ≤ (frameOf head encode es).length := by
  have hmem : buf ∈ es.map fun e => (encode e).getD [] := List.mem_map.mpr ⟨e, he, by simp [hbuf]⟩
  have hle := (sublist_flatten_of_mem hmem).length_le
  rw [← flatMap_def] at hle
  rw [frameOf, length_append]
  omega

/-- After the first `i` entries each is in a frame, in the open frame or skipped. The frames are of groups of indexes,
    no longer than `b`, and within the budget. -/
structure Packing.Filed (p : Packing) (lim : Limits) (encode : α → Option Bytes) (Q : List α) (b : Int) (i : Nat) :
    Prop where
  frames : ∃ groups : List (List Nat), groups.flatten = p.commitIdx ∧
    p.frames = groups.map fun g => frameOf lim.head encode (g.filterMap (Q[·]?))
  frame : p.frame = frameOf lim.head encode (p.pendingIdx.filterMap (Q[·]?))
  sorted : (p.commitIdx ++ p.pendingIdx).Pairwise (· < ·)
  taken : ∀ j ∈ p.commitIdx ++ p.pendingIdx, j < i ∧ ∃ e buf, Q[j]? = some e ∧ encode e = some buf
  skipped : ∀ j ∈ p.skipIdx, ∀ e ∈ Q[j]?, ∀ buf ∈ encode e, lim.perFrameLimit < buf.length
  visited : ∀ j < i, j ∈ p.commitIdx ∨ j ∈ p.pendingIdx ∨ j ∈ p.skipIdx
  size : ∀ f ∈ p.frames ++ [p.frame], (f.length : Int) ≤ b
  cost : p.bytesEmitted = (p.frames.map fun f => f.length + lim.headerOverhead).sum
  budget : p.bytesEmitted ≤ lim.byteBudget
  room : lim.head = [] → p.frame = [] ∨ p.bytesEmitted + (p.frame.length + lim.headerOverhead) ≤ lim.byteBudget
  count : p.frames.length ≤ p.commitIdx.length

/-- No frame with an encoding within the limit is longer than `b`. -/
structure Bounded (lim : Limits) (encode : α → Option Bytes) (Q : List α) (b : Int) : Prop where
  pos : 0 < lim.perFrameLimit
  limit : lim.perFrameLimit ≤ b
  head : lim.head.length ≤ b
  room : ∀ e ∈ Q, ∀ buf ∈ encode e, buf.length ≤ lim.perFrameLimit → lim.head.length + buf.length ≤ b

theorem flushFrame_cases (lim : Limits) (p : Packing) :
    p.frame.length ≤ lim.head.length ∧ flushFrame lim p = (p, true) ∨
    lim.head.length < p.frame.length ∧ lim.byteBudget < p.bytesEmitted + (p.frame.length + lim.headerOverhead) ∧
      flushFrame lim p = (p, false) ∨
    lim.head.length < p.frame.length ∧ p.bytesEmitted + (p.frame.length + lim.headerOverhead) ≤ lim.byteBudget ∧
      flushFrame lim p = ({ p with
        frames := p.frames ++ [p.frame]
        bytesEmitted := p.bytesEmitted + (p.frame.length + lim.headerOverhead)
        commitIdx := p.commitIdx ++ p.pendingIdx
        pendingIdx := []
        frame := lim.head }, true) := by
  unfold flushFrame
  split
  next hshort => exact .inl ⟨hshort, rfl⟩
  dsimp only
  split
  next hover => exact .inr (.inl ⟨by omega, hover, rfl⟩)
  next hfits => exact .inr (.inr ⟨by omega, by omega, rfl⟩)

namespace Packing.Filed
variable {b : Int} (h : p.Filed lim encode Q b i) (hb : Bounded lim encode Q b)
include h

theorem skip (he : Q[i]? = some e) (hlong : ∀ buf ∈ encode e, lim.perFrameLimit < buf.length) :
    (p.skip i).Filed lim encode Q b (i + 1) where
  __ := h
  taken j hj := ⟨Nat.lt_succ_of_lt (h.taken j hj).1, (h.taken j hj).2⟩
  skipped j hj x hx := by
    obtain hj | hj := mem_append.mp hj
    · exact h.skipped j hj x hx
    · cases mem_singleton.mp hj
      cases he.symm.trans hx
      exact hlong
  visited j hj := by
    obtain hj | rfl := Nat.lt_succ_iff_lt_or_eq.mp hj
    · exact (h.visited j hj).imp_right (.imp_right (mem_append_left _))
    · exact .inr (.inr (mem_append_right _ (mem_singleton_self _)))

theorem add (he : Q[i]? = some e) (hbuf : encode e = some buf) (hfits : ((p.frame ++ buf).length : Int) ≤ b)
    (hroom : lim.head = [] → p.bytesEmitted + ((p.frame ++ buf).length + lim.headerOverhead) ≤ lim.byteBudget) :
    (p.add i buf).Filed lim encode Q b (i + 1) where
  __ := h
  room hnil := .inr (hroom hnil)
  frame := by simp [Packing.add, h.frame, frameOf, he, hbuf]
  sorted := by
    simp only [Packing.add, ← append_assoc]
    exact pairwise_append.mpr ⟨h.sorted, pairwise_singleton _ _,
      fun j hj k hk => mem_singleton.mp hk ▸ (h.taken j hj).1⟩
  taken j hj := by
    simp only [Packing.add, ← append_assoc] at hj
    obtain hj | hj := mem_append.mp hj
    · exact ⟨Nat.lt_succ_of_lt (h.taken j hj).1, (h.taken j hj).2⟩
    · rw [mem_singleton.mp hj]
      exact ⟨Nat.lt_succ_self i, e, buf, he, hbuf⟩
  visited j hj := by
    obtain hj | rfl := Nat.lt_succ_iff_lt_or_eq.mp hj
    · exact (h.visited j hj).imp_right (.imp_left (mem_append_left _))
    · exact .inr (.inl (mem_append_right _ (mem_singleton_self _)))
  size f hf := by
    obtain hf | hf := mem_append.mp hf
    · exact h.size f (mem_append_left _ hf)
    · rw [mem_singleton.mp hf]
      exact hfits

theorem encoded {groups : List (List Nat)} (hflat : groups.flatten = p.commitIdx) {g : List Nat} (hg : g ∈ groups)
    (he : e ∈ g.filterMap (Q[·]?)) : e ∈ Q ∧ ∃ buf, encode e = some buf := by
  obtain ⟨k, hk, hget⟩ := mem_filterMap.mp he
  obtain ⟨-, e', buf, he', hbuf⟩ := h.taken k (mem_append_left _ (hflat ▸ mem_flatten_of_mem hg hk))
  cases hget.symm.trans he'
  exact ⟨mem_of_getElem? hget, buf, hbuf⟩

include hb

theorem flushFrame : (flushFrame lim p).1.Filed lim encode Q b i := by
  rcases flushFrame_cases lim p with ⟨-, heq⟩ | ⟨-, -, heq⟩ | ⟨hlong, hcost, heq⟩ <;> rw [heq]
  · exact h
  · exact h
  have hne : p.pendingIdx ≠ [] := by
    intro hnil
    rw [h.frame, hnil, frameOf, filterMap_nil, flatMap_nil, append_nil] at hlong
    exact Nat.lt_irrefl _ hlong
  have hpos := length_pos_iff.mpr hne
  have hcount := h.count
  obtain ⟨groups, hflat, hframes⟩ := h.frames
  refine { h with
    frames := ⟨groups ++ [p.pendingIdx], by simp [hflat], by simp [hframes, h.frame]⟩
    frame := by simp [frameOf]
    sorted := by simpa using h.sorted
    taken := by simpa using h.taken
    visited := by simpa [or_assoc] using h.visited
    size := fun f hf => ?_
    cost := by simp [h.cost]
    budget := hcost
    room := .inl
    count := by rw [length_append, length_append, length_singleton]; omega }
  obtain hf | hf := mem_append.mp hf
  · exact h.size f hf
  · rw [mem_singleton.mp hf]
    exact hb.head

/-- Where the loop ends before the last entry, another frame may be beyond the budget. -/
theorem pack {rest : List α} (hrest : Q.drop i = rest) :
    ∃ j, (pack lim encode i rest p).Filed lim encode Q b j ∧
      (Q.length ≤ j ∨ lim.byteBudget < (Gossip.pack lim encode i rest p).bytesEmitted + lim.headerOverhead + b) := by
  have hcap (p : Packing) : activeFrameCap lim p ≤ lim.perFrameLimit ∧
      (activeFrameCap lim p < lim.perFrameLimit → lim.byteBudget < p.bytesEmitted + lim.headerOverhead + b) ∧
      (0 < activeFrameCap lim p → p.bytesEmitted + (activeFrameCap lim p + lim.headerOverhead) ≤ lim.byteBudget) := by
    have := hb.pos
    have := hb.limit
    unfold activeFrameCap
    dsimp only
    split
    · omega
    · split <;> omega
  induction rest generalizing i p with
  | nil => exact ⟨i, h, .inl (drop_eq_nil_iff.mp hrest)⟩
  | cons e rest ih =>
    have he : Q[i]? = some e := by rw [← head?_drop, hrest]; rfl
    have hnext : Q.drop (i + 1) = rest := by rw [← tail_drop, hrest]; rfl
    have hcap' := hcap p
    have hpos := hb.pos
    simp only [Gossip.pack]
    split
    · exact ⟨i, h, .inr (hcap'.2.1 (by omega))⟩
    cases hbuf : encode e with
    | none => exact ih (h.skip he (by simp [hbuf])) hnext
    | some buf =>
      dsimp only
      split
      · exact ih (h.skip he (by simpa [hbuf])) hnext
      have hroom := hb.room e (mem_of_getElem? he) buf hbuf (by omega)
      have hlimit := hb.limit
      split
      · have hflush := h.flushFrame hb
        have hsize := h.size p.frame (by simp)
        have hcap' := hcap (Gossip.flushFrame lim p).1
        split
        next hfails =>
          rcases flushFrame_cases lim p with ⟨-, heq⟩ | ⟨-, hover, heq⟩ | ⟨-, -, heq⟩ <;> rw [heq] at hfails ⊢
          · cases hfails
          · exact ⟨i, h, .inr (show lim.byteBudget < p.bytesEmitted + lim.headerOverhead + b by omega)⟩
          · cases hfails
        next hok =>
          have hshort : (Gossip.flushFrame lim p).1.frame.length ≤ lim.head.length := by
            rcases flushFrame_cases lim p with ⟨hshort, heq⟩ | ⟨-, -, heq⟩ | ⟨-, -, heq⟩ <;> rw [heq] at hok ⊢
            · exact hshort
            · exact absurd rfl hok
          split
          · exact ⟨i, hflush, .inr (hcap'.2.1 (by omega))⟩
          refine ih (hflush.add he hbuf (by rw [length_append]; omega) fun hnil => ?_) hnext
          rw [hnil, length_nil] at hshort
          rw [length_append]
          omega
      · exact ih (h.add he hbuf (by rw [length_append]; omega) fun _ => by rw [length_append]; omega) hnext

omit hb

/-- With room for another frame the last flush files what the loop has visited. -/
theorem filed (hne : ∀ e ∈ Q, ∀ buf ∈ encode e, buf ≠ []) {k : Nat} (hk : k < i)
    (hroom : k ∈ p.pendingIdx → p.bytesEmitted + lim.headerOverhead + b ≤ lim.byteBudget) :
    k ∈ (Gossip.flushFrame lim p).1.commitIdx ∨ k ∈ (Gossip.flushFrame lim p).1.skipIdx := by
  have hsize := h.size p.frame (by simp)
  have hk := h.visited k hk
  rcases flushFrame_cases lim p with ⟨hshort, heq⟩ | ⟨-, hover, heq⟩ | ⟨-, -, heq⟩ <;> rw [heq]
  · refine hk.imp_right fun hk => hk.resolve_left fun hk => ?_
    obtain ⟨-, e, buf, he, hbuf⟩ := h.taken k (mem_append_right _ hk)
    have hmem : e ∈ p.pendingIdx.filterMap (Q[·]?) := mem_filterMap.mpr ⟨k, hk, he⟩
    have hlong := le_length_frameOf lim.head hmem hbuf
    have hpos := length_pos_iff.mpr (hne e (mem_of_getElem? he) buf hbuf)
    rw [← h.frame] at hlong
    omega
  · exact hk.imp_right fun hk => hk.resolve_left fun hk => by have := hroom hk; omega
  · simpa [or_assoc] using hk

end Packing.Filed

variable {head : Bytes} {pending : List α} {overhead budget : Int}

theorem limits_pos (head : Bytes) (overhead budget : Int) :
    0 < (limits head overhead budget).perFrameLimit ∧ 0 < (limits head overhead budget).byteBudget := by
  unfold limits maxFrameBytes
  dsimp only
  constructor <;> split <;> omega

theorem drain_filed {b : Int} (hlim : limits head overhead budget = lim) (hb : Bounded lim encode pending b) :
    ∃ p j, pack lim encode 0 pending { frame := head } = p ∧ p.Filed lim encode pending b j ∧
      (pending.length ≤ j ∨ lim.byteBudget < p.bytesEmitted + lim.headerOverhead + b) ∧
      drain head encode pending overhead budget = ((flushFrame lim p).1.frames,
        (pending.zipIdx.filter fun x =>
          !((flushFrame lim p).1.commitIdx ++ (flushFrame lim p).1.skipIdx).contains x.2).map (·.1)) := by
  subst hlim
  have hstart : ({ frame := head } : Packing).Filed (limits head overhead budget) encode pending b 0 :=
    { frames := ⟨[], rfl, rfl⟩, frame := by simp [frameOf, limits], sorted := .nil, taken := nofun, skipped := nofun
      visited := nofun, size := by simpa [limits] using hb.head, cost := rfl
      budget := Int.le_of_lt (limits_pos head overhead budget).2, room := .inl, count := Nat.le_refl 0 }
  obtain ⟨j, hfiled, hend⟩ := hstart.pack hb rfl
  refine ⟨_, j, rfl, hfiled, hend, ?_⟩
  unfold drain
  split
  next hnil =>
    subst hnil
    simp [flushFrame, pack, limits]
  · rfl

theorem drain_framed {frame : Bytes} (h : frame ∈ (drain head encode pending overhead budget).1) :
    Framed head encode pending frame := by
  have hpos := limits_pos head overhead budget
  have hb : Bounded (limits head overhead budget) encode pending
      ((limits head overhead budget).perFrameLimit + head.length) :=
    ⟨hpos.1, by omega, by simp only [limits] at *; omega, fun _ _ _ _ hle => by simp only [limits] at *; omega⟩
  obtain ⟨p, j, -, hp, -, heq⟩ := drain_filed rfl hb
  have hflush := hp.flushFrame hb
  obtain ⟨groups, hflat, hframes⟩ := hflush.frames
  rw [heq, hframes] at h
  obtain ⟨g, hg, rfl⟩ := List.mem_map.mp h
  refine ⟨(g.filterMap (pending[·]?)).map fun e => (e, (encode e).getD []), fun r hr => ?_, ?_⟩
  · obtain ⟨e, he, rfl⟩ := List.mem_map.mp hr
    obtain ⟨he, buf, hbuf⟩ := hflush.encoded hflat hg he
    exact ⟨he, by simp [hbuf]⟩
  · simp [frameOf, flatMap_def, limits, Function.comp_def]

theorem drain_kept (h : e ∈ (drain head encode pending overhead budget).2) : e ∈ pending := by
  unfold drain at h
  split at h
  · exact h
  · obtain ⟨x, hx, rfl⟩ := List.mem_map.mp h
    exact fst_mem_of_mem_zipIdx (mem_filter.mp hx).1

/-! ### Entries under other names

Packing looks at an entry only through its encoding. -/

theorem pack_map (f : β → α) (l : List β) : pack lim encode i (l.map f) p = pack lim (encode ∘ f) i l p := by
  induction l generalizing i p with
  | nil => rfl
  | cons e l ih => simp only [map_cons, pack, ih, Function.comp_apply]

theorem drain_map (f : β → α) (l : List β) :
    drain head encode (l.map f) overhead budget =
      ((drain head (encode ∘ f) l overhead budget).1, (drain head (encode ∘ f) l overhead budget).2.map f) := by
  unfold drain
  by_cases hl : l = []
  · simp [hl]
  rw [if_neg (by simpa using hl), if_neg hl]
  dsimp only
  rw [pack_map, zipIdx_map, List.filter_map, List.map_map, List.map_map]
  rfl

theorem pack_congr {l : List α} (h : ∀ e ∈ l, encode e = encode' e) :
    pack lim encode i l p = pack lim encode' i l p := by
  induction l generalizing i p with
  | nil => rfl
  | cons e l ih =>
    have hrest : ∀ i p, pack lim encode i l p = pack lim encode' i l p := fun i p => ih fun x hx => h x (by simp [hx])
    simp only [pack, h e (by simp), hrest]

theorem drain_congr (h : ∀ e ∈ pending, encode e = encode' e) :
    drain head encode pending overhead budget = drain head encode' pending overhead budget := by
  unfold drain
  dsimp only
  rw [pack_congr h]

/-- `decode` reads the bytes `bs` as `d`, whatever follows them. -/
def Decodes (decode : Bytes → Except String (α × Nat)) (bs : Bytes) (d : α) : Prop :=
  bs ≠ [] ∧ ∀ rest, decode (bs ++ rest) = .ok (d, bs.length)

variable {decode : Bytes → Except String (α × Nat)} {records : List Bytes} {ds : List α}

theorem unpackLoop_flatten (h : List.Forall₂ (Decodes decode) records ds) {fuel : Nat}
    (hfuel : records.flatten.length ≤ fuel) : unpackLoop decode fuel records.flatten = (ds, none) := by
  induction h generalizing fuel with
  | nil => cases fuel <;> rfl
  | @cons bs d records ds hd _ ih =>
    have hpos : 0 < bs.length := length_pos_iff.mpr hd.1
    rw [flatten_cons, length_append] at hfuel
    cases fuel with
    | zero => omega
    | succ fuel =>
      have hne : bs ++ records.flatten ≠ [] := fun h => hd.1 (append_eq_nil_iff.mp h).1
      rw [flatten_cons, unpackLoop, if_neg hne, hd.2]
      simp [ih (by omega : records.flatten.length ≤ fuel)]

theorem unpack_flatten (h : List.Forall₂ (Decodes decode) records ds) : unpack decode records.flatten = (ds, none) :=
  unpackLoop_flatten h (Nat.le_refl _)

/-! ### What a queue is drained to -/

/-- What `Drain` has made of a queue: the entries at the indexes of `groups` are in its frames, group by group, those at
    `skipped` are discarded, and the others are kept. -/
structure Packed {δ : Type} (head : Bytes) (encode : α → Option Bytes) (decode : Bytes → Except String (δ × Nat))
    (read : α → δ) (pending : List α) (overhead budget : Int) (frames : List Bytes) (keep : List α)
    (groups : List (List Nat)) (skipped : List Nat) : Prop where
  sent : groups.flatten.Pairwise (· < ·)
  decoded : Forall₂ (fun g frame => ∃ body, frame = head ++ body ∧
    unpack decode body = ((g.filterMap (pending[·]?)).map read, none)) groups frames
  kept : keep = (pending.zipIdx.filter fun x => !(groups.flatten ++ skipped).contains x.2).map (·.1)
  discarded : ∀ j ∈ skipped, ∀ e ∈ pending[j]?, ∀ buf ∈ encode e, maxFrameBytes - overhead < head.length + buf.length
  size : ∀ frame ∈ frames, (frame.length : Int) ≤ maxFrameBytes - overhead
  cost : (frames.map fun frame => frame.length + overhead).sum ≤ if budget ≤ 0 then maxFrameBytes else budget
  shrinks : maxFrameBytes ≤ budget → pending ≠ [] → keep.length < pending.length

variable (ho : overhead ≤ maxFrameBytes - 64)
include ho

theorem exists_limits (head : Bytes) (budget : Int) : ∃ lim, limits head overhead budget = lim ∧
    lim.head = head ∧ lim.headerOverhead = overhead ∧ lim.perFrameLimit = maxFrameBytes - overhead ∧
    lim.byteBudget = if budget ≤ 0 then maxFrameBytes else budget :=
  ⟨_, rfl, rfl, rfl, if_neg (by omega), rfl⟩

theorem drain_packed {δ : Type} {decode : Bytes → Except String (δ × Nat)} {read : α → δ} (hhead : head.length ≤ 1)
    (hread : ∀ e ∈ pending, ∀ buf ∈ encode e, Decodes decode buf (read e))
    (hroom : ∀ e ∈ pending, ∀ buf ∈ encode e, (buf.length : Int) ≤ maxFrameBytes - overhead →
      head.length + buf.length ≤ maxFrameBytes - overhead) (budget : Int) :
    ∃ groups skipped, Packed head encode decode read pending overhead budget
      (drain head encode pending overhead budget).1 (drain head encode pending overhead budget).2
      groups skipped := by
  obtain ⟨lim, hlim, rfl, rfl, hlimit, hbudget⟩ := exists_limits ho head budget
  have hb : Bounded lim encode pending (maxFrameBytes - lim.headerOverhead) :=
    ⟨by omega, by omega, by omega, fun e he buf hbuf hle => hroom e he buf hbuf (hlimit ▸ hle)⟩
  obtain ⟨p, j, -, hp, hend, heq⟩ := drain_filed hlim hb
  have hflush := hp.flushFrame hb
  obtain ⟨groups, hflat, hframes⟩ := hflush.frames
  rw [heq, ← hflat]
  refine ⟨groups, (flushFrame lim p).1.skipIdx, ?_, ?_, rfl, fun k hk e he buf hbuf => ?_, fun frame hframe =>
    hflush.size frame (mem_append_left _ hframe), ?_, fun hlarge hne => ?_⟩
  · rw [hflat]
    exact (pairwise_append.mp hflush.sorted).1
  · rw [hframes, forall₂_map_right_iff, forall₂_same]
    refine fun g hg => ⟨_, rfl, ?_⟩
    refine unpack_flatten ?_
    rw [forall₂_map_left_iff, forall₂_map_right_iff, forall₂_same]
    intro e he
    obtain ⟨hmem, buf, hbuf⟩ := hflush.encoded hflat hg he
    rw [hbuf]
    exact hread e hmem buf hbuf
  · have := hflush.skipped k hk e he buf hbuf
    omega
  · rw [← hflush.cost, ← hbudget]
    exact hflush.budget
  · -- nothing is emitted before the first entry is filed
    have hroom : (∀ k ∈ p.commitIdx, k < 0) →
      p.bytesEmitted + lim.headerOverhead + (maxFrameBytes - lim.headerOverhead) ≤
        lim.byteBudget := by
      intro hnone
      have hcount := hp.count
      rw [eq_nil_iff_forall_not_mem.mpr fun k hk => Nat.not_lt_zero k (hnone k hk)] at hcount
      have hcost := hp.cost
      rw [length_eq_zero_iff.mp (Nat.le_zero.mp hcount), map_nil, sum_nil] at hcost
      omega
    have hpos := length_pos_iff.mpr hne
    have hj : 0 < j := Nat.pos_of_ne_zero fun hj => by
      subst hj
      have := hroom fun k hk => (hp.taken k (mem_append_left _ hk)).1
      omega
    have hfiled := hp.filed (fun e he buf hbuf => (hread e he buf hbuf).1) hj fun hopen =>
      hroom fun k hk => (pairwise_append.mp hp.sorted).2.2 k hk 0 hopen
    rw [length_map]
    calc _ < pending.zipIdx.length := length_filter_lt_length_iff_exists.mpr
          ⟨(pending[0], 0), mem_zipIdx_iff_getElem?.mpr (getElem?_eq_getElem hpos), by simp [hflat, hfiled]⟩
      _ = _ := length_zipIdx

end Wippy.Gossip
