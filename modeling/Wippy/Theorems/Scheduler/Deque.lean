import Mathlib.Data.List.Perm.Subperm
import Mathlib.Data.List.ReduceOption
import Mathlib.Logic.Function.Iterate
import Wippy.Lib.Reach
import Wippy.Scheduler.Deque

/-! The deque hands out each processor once as long as no thief takes a batch of which the owner has popped a part. -/

namespace Wippy.Scheduler
open Lib List Function

namespace Buffer
variable {P : Type} {buf : Buffer P} {i j : Nat} {item : Option P}

theorem load_store_self : (buf.store i item).load i = item := by simp [load, store]

theorem load_store_of_lt (hij : i < j) (hnear : j < i + buf.length) : (buf.store j item).load i = buf.load i := by
  have hne : i % buf.length ≠ j % buf.length := by
    intro heq
    have hdvd := Nat.dvd_of_mod_eq_zero (Nat.sub_mod_eq_zero_of_mod_eq heq.symm)
    have hle := Nat.le_of_dvd (by omega) hdvd
    omega
  simp [load, store, update_of_ne hne]

end Buffer

namespace Deque
variable {P : Type} {d d' : Deque P} {bottom : Int} {thief : Thief P} {copied : List (Option P)} {i buf : Nat}
  {owner : Owner P} {item : Option P} {p : P}

/-! ### What the deque holds -/

/-- The end of the items that are not the owner's: an owner that has lowered the bottom but not yet compared it with
    the top may still lose the item there. -/
def limit (d : Deque P) : Int :=
  match d.owner with
  | .popLoadTop .. | .popLoadLast .. | .popCompareAndSwap .. | .popWon .. | .popLost .. | .popEmpty .. => d.bottom + 1
  | _ => d.bottom

/-- The item that the owner has taken and not returned. -/
def inFlight (d : Deque P) : List (Option P) :=
  match d.owner with
  | .popLoadItem bottom buf => [(d.buffers buf).load bottom.toNat]
  | .popWon _ item => [item]
  | _ => []

/-- The items in `count` slots from `start`. -/
def items (d : Deque P) (start count : Nat) : List (Option P) := (List.range' start count).map d.current.load

/-- The items in the deque. -/
def held (d : Deque P) : List (Option P) := d.items d.top (d.limit - d.top).toNat

/-- What was pushed was returned, is on its way, or is held. -/
def Balanced (d : Deque P) : Prop := (d.returned.map some ++ d.inFlight ++ d.held).Perm (d.pushed.map some)

/-- What the owner has read is right where it is. -/
def OwnerRight (d : Deque P) : Prop :=
  match d.owner with
  | .idle | .loadBottom _ | .popLoadBottom => True
  | .loadTop _ bottom => bottom = d.bottom
  | .loadBuffer _ bottom top => bottom = d.bottom ∧ top ≤ d.top ∧ (top : Int) ≤ bottom ∧ bottom - top < d.current.length
  | .grow _ bottom old new i =>
    bottom = d.bottom ∧ old = d.buffer ∧ new.length = d.current.length * 2 ∧ (i : Int) ≤ bottom ∧
      ∃ top ≤ d.top, top ≤ i ∧ bottom - top < d.current.length ∧ ∀ j, top ≤ j → j < i → new.load j = d.current.load j
  | .storeItem _ bottom buf => bottom = d.bottom ∧ buf = d.buffer ∧ bottom + 1 - d.top < d.current.length
  | .storeBottom p bottom =>
    bottom = d.bottom ∧ bottom + 1 - d.top < d.current.length ∧ d.current.load bottom.toNat = some p
  | .popLoadBuffer bottom => bottom = d.bottom - 1
  | .popStoreBottom bottom buf => bottom = d.bottom - 1 ∧ buf = d.buffer
  | .popLoadTop bottom buf => bottom = d.bottom ∧ buf = d.buffer
  | .popLoadItem bottom buf => bottom = d.bottom ∧ buf = d.buffer
  | .popLoadLast bottom buf => bottom = d.bottom ∧ buf = d.buffer ∧ bottom ≤ d.top ∧ 0 ≤ bottom
  | .popCompareAndSwap bottom item =>
    bottom = d.bottom ∧ bottom ≤ d.top ∧ ((d.top : Int) = bottom → item = d.current.load d.top)
  | .popWon bottom _ | .popLost bottom => bottom = d.bottom ∧ (d.top : Int) = bottom + 1
  | .popEmpty top => top = d.top ∧ (d.top : Int) = d.bottom + 1

/-- As long as the top has not moved, the first item of a thief is still there and is what the thief has seen. -/
def ThiefRight (d : Deque P) : Thief P → Prop
  | .idle | .loadTop _ => True
  | .loadBottom _ top => top ≤ d.top
  | .loadBuffer top _ => top ≤ d.top ∧ (d.top = top → (top : Int) < d.limit)
  | .copy top count buf copied =>
    top ≤ d.top ∧ buf ≤ d.buffer ∧ copied.length ≤ count ∧
      (d.top = top → (top : Int) < d.limit ∧ (d.buffers buf).load top = d.current.load top ∧
        (copied = [] ∨ copied.head? = some (d.current.load top)))

/-- The invariant of the deque. -/
structure Inv (d : Deque P) : Prop where
  balanced : d.Balanced
  top_le : (d.top : Int) ≤ d.limit
  room : d.limit - d.top < d.current.length
  owner : d.OwnerRight
  thieves : ∀ i, d.ThiefRight (d.thieves i)

/-- What a step keeps for the thieves. -/
structure Keeps (d d' : Deque P) : Prop where
  top : d.top ≤ d'.top
  buffer : d.buffer ≤ d'.buffer
  limit : d'.top = d.top → (d.top : Int) < d.limit → (d.top : Int) < d'.limit
  load : d'.top = d.top → (d.top : Int) < d.limit → d'.current.load d.top = d.current.load d.top
  old : ∀ k ≤ d.buffer, d'.top = d.top → (d.top : Int) < d.limit → (d.buffers k).load d.top = d.current.load d.top →
    (d'.buffers k).load d.top = d'.current.load d.top

theorem ThiefRight.keep (h : d.ThiefRight thief) (hkeeps : Keeps d d') : d'.ThiefRight thief := by
  cases thief with
  | idle => trivial
  | loadTop taking => trivial
  | loadBottom taking top => exact Nat.le_trans h hkeeps.top
  | loadBuffer top count =>
    obtain ⟨htop, hlimit⟩ := h
    refine ⟨Nat.le_trans htop hkeeps.top, fun heq => ?_⟩
    have hsame : d.top = top := Nat.le_antisymm (heq ▸ hkeeps.top) htop
    subst hsame
    exact hkeeps.limit heq (hlimit rfl)
  | copy top count buf copied =>
    obtain ⟨htop, hbuf, hlength, hstill⟩ := h
    refine ⟨Nat.le_trans htop hkeeps.top, Nat.le_trans hbuf hkeeps.buffer, hlength, fun heq => ?_⟩
    have hsame : d.top = top := Nat.le_antisymm (heq ▸ hkeeps.top) htop
    subst hsame
    obtain ⟨hlimit, hload, hfirst⟩ := hstill rfl
    refine ⟨hkeeps.limit heq hlimit, hkeeps.old buf hbuf heq hlimit hload, ?_⟩
    rw [hkeeps.load heq hlimit]
    exact hfirst

theorem Keeps.of_same (hbuffers : d'.buffers = d.buffers) (hbuffer : d'.buffer = d.buffer) (htop : d'.top = d.top)
    (hlimit : (d.top : Int) < d.limit → (d.top : Int) < d'.limit) : Keeps d d' where
  top := Nat.le_of_eq htop.symm
  buffer := Nat.le_of_eq hbuffer.symm
  limit _ := hlimit
  load _ _ := by rw [current, current, hbuffers, hbuffer]
  old k _ _ _ h := by rw [current, hbuffers, hbuffer]; exact h

/-! ### Steps of the owner -/

theorem items_congr {start count : Nat}
    (h : ∀ i, start ≤ i → i < start + count → d'.current.load i = d.current.load i) :
    d'.items start count = d.items start count := by
  refine map_congr_left fun i hi => ?_
  obtain ⟨hle, hlt⟩ := mem_range'_1.mp hi
  exact h i hle hlt

theorem items_append (d : Deque P) (start count count' : Nat) :
    d.items start (count + count') = d.items start count ++ d.items (start + count) count' := by
  unfold items
  rw [← range'_append_1, map_append]

section
variable (h : Inv d)
include h

/-- A step that leaves the top and the end, and the items between them, where they are. -/
theorem Inv.stay (htop : d'.top = d.top) (hthieves : d'.thieves = d.thieves) (hlimit : d'.limit = d.limit)
    (hout : d'.returned.map some ++ d'.inFlight = d.returned.map some ++ d.inFlight) (hpushed : d'.pushed = d.pushed)
    (hbuffer : d.buffer ≤ d'.buffer) {buffers : Nat → Buffer P} {new : Buffer P}
    (hnew : buffers d'.buffer = new) (hbuffers : d'.buffers = buffers)
    (hload : ∀ i, d.top ≤ i → (i : Int) < d.limit → new.load i = d.current.load i)
    (hold : ∀ k ≤ d.buffer, (d.top : Int) < d.limit → (buffers k).load d.top = (d.buffers k).load d.top)
    (hroom : d.limit - d.top < new.length) (howner : d'.OwnerRight) : Inv d' := by
  subst hbuffers hnew
  have hkeeps : Keeps d d' := by
    refine ⟨Nat.le_of_eq htop.symm, hbuffer, fun _ hlt => by rw [hlimit]; exact hlt,
      fun _ hlt => hload _ (Nat.le_refl _) hlt, ?_⟩
    intro k hk _ hlt heq
    exact (hold k hk hlt).trans (heq.trans (hload _ (Nat.le_refl _) hlt).symm)
  refine ⟨?_, by rw [htop, hlimit]; exact h.top_le, by rw [htop, hlimit]; exact hroom, howner, fun i => ?_⟩
  · have hheld : d'.held = d.held := by
      rw [held, htop, hlimit]
      refine items_congr fun i hle hlt => hload i hle ?_
      omega
    rw [Balanced, hout, hheld, hpushed]
    exact h.balanced
  · rw [hthieves]
    exact (h.thieves i).keep hkeeps

theorem Inv.move {old : Owner P} (ho : d.owner = old)
    (hlimit : limit { d with owner, bottom } = limit { d with owner := old })
    (hflight : inFlight { d with owner, bottom } = inFlight { d with owner := old })
    (howner : OwnerRight { d with owner, bottom }) : Inv { d with owner, bottom } := by
  subst ho
  exact h.stay rfl rfl hlimit (congrArg _ hflight) rfl (Nat.le_refl _) rfl rfl (fun _ _ _ => rfl)
    (fun _ _ _ => rfl) h.room
    howner

theorem Inv.give (hflight : d.inFlight = [item]) (hlimit : limit { d with owner := .idle, bottom } = d.limit) :
    Inv { d with owner := .idle, bottom, returned := d.returned ++ item.toList } := by
  have hbalanced := h.balanced
  rw [Balanced, hflight] at hbalanced
  obtain ⟨p, -, rfl⟩ : ∃ p, p ∈ d.pushed ∧ some p = item :=
    List.mem_map.mp (hbalanced.subset (by simp))
  refine h.stay rfl rfl hlimit ?_ rfl (Nat.le_refl _) rfl rfl (fun _ _ _ => rfl) (fun _ _ _ => rfl) h.room trivial
  rw [hflight]
  simp [inFlight]

theorem Inv.publish {new : Buffer P} (howner : d.owner = .grow p bottom d.buffer new i) (hdone : bottom ≤ i) :
    Inv { d with
      buffers := d.setBuffer (d.buffer + 1) new, buffer := d.buffer + 1
      owner := .storeItem p bottom (d.buffer + 1) } := by
  have hright := h.owner
  rw [OwnerRight, howner] at hright
  obtain ⟨hbottom, -, hlength, hi, top, htop, htopi, hnear, hcopied⟩ := hright
  have hlimit : d.limit = bottom := by simp [limit, howner, hbottom]
  have hnew : d.setBuffer (d.buffer + 1) new (d.buffer + 1) = new := update_self ..
  refine h.stay rfl rfl (by simp [limit, howner]) (by simp [inFlight, howner]) rfl (Nat.le_succ _) hnew rfl ?_ ?_ ?_
    ⟨hbottom, rfl, ?_⟩
  · intro j hj hlt
    exact hcopied j (Nat.le_trans htop hj) (by omega)
  · intro k hk _
    rw [setBuffer, update_of_ne (by omega)]
  · omega
  · show bottom + 1 - d.top < (d.setBuffer (d.buffer + 1) new (d.buffer + 1)).length
    rw [hnew]
    omega

theorem Inv.storeItem (howner : d.owner = .storeItem p bottom buf) :
    Inv { d with
      buffers := d.setBuffer buf ((d.buffers buf).store bottom.toNat (some p)), owner := .storeBottom p bottom } := by
  have hright := h.owner
  rw [OwnerRight, howner] at hright
  obtain ⟨hbottom, rfl, hroom⟩ := hright
  have hlimit : d.limit = bottom := by simp [limit, howner, hbottom]
  have hnew : d.setBuffer d.buffer ((d.buffers d.buffer).store bottom.toNat (some p)) d.buffer =
      d.current.store bottom.toNat (some p) := update_self ..
  have hload : ∀ i, d.top ≤ i → i < d.limit →
      (d.current.store bottom.toNat (some p)).load i = d.current.load i := by
    intro i hi hlt
    exact Buffer.load_store_of_lt (by omega) (by omega)
  refine h.stay rfl rfl (by simp [limit, howner])
    (by simp [inFlight, howner]) rfl (Nat.le_refl _) hnew rfl hload ?_ h.room
    ⟨hbottom, ?_, ?_⟩
  · intro k hk hlt
    by_cases hkeq : k = d.buffer
    · subst hkeq
      rw [hnew]
      exact hload _ (Nat.le_refl _) hlt
    · rw [setBuffer, update_of_ne hkeq]
  · show bottom + 1 - d.top < (d.setBuffer d.buffer ((d.buffers d.buffer).store bottom.toNat (some p)) d.buffer).length
    rw [hnew]
    exact hroom
  · show (d.setBuffer d.buffer ((d.buffers d.buffer).store bottom.toNat (some p)) d.buffer).load bottom.toNat = some p
    rw [hnew]
    exact Buffer.load_store_self

theorem Inv.storeBottom (howner : d.owner = .storeBottom p bottom) :
    Inv { d with bottom := bottom + 1, owner := .idle, pushed := d.pushed ++ [p] } := by
  have hright := h.owner
  rw [OwnerRight, howner] at hright
  obtain ⟨hbottom, hroom, hload⟩ := hright
  have hlimit : d.limit = bottom := by simp [limit, howner, hbottom]
  have htop := h.top_le
  have hkeeps : Keeps d { d with bottom := bottom + 1, owner := .idle, pushed := d.pushed ++ [p] } :=
    .of_same rfl rfl rfl fun hlt => by simp only [limit]; omega
  refine ⟨?_, by simp only [limit]; omega, hroom, trivial, fun i => (h.thieves i).keep hkeeps⟩
  have hcount : (bottom + 1 - d.top).toNat = (bottom - d.top).toNat + 1 := by omega
  have hindex : d.top + (bottom - d.top).toNat = bottom.toNat := by omega
  have hheld : held { d with bottom := bottom + 1, owner := .idle, pushed := d.pushed ++ [p] } = d.held ++
    [some p] := by
    show d.items d.top (bottom + 1 - d.top).toNat = d.items d.top (d.limit - d.top).toNat ++ [some p]
    rw [hcount, items_append, hlimit, hindex]
    simp [items, hload]
  have hbalanced := h.balanced
  rw [Balanced, show d.inFlight = [] by simp [inFlight, howner], append_nil] at hbalanced
  rw [Balanced, hheld]
  simp only [inFlight, append_nil, ← append_assoc, map_append]
  exact hbalanced.append_right _

theorem Inv.compare (howner : d.owner = .popLoadTop bottom buf) :
    Inv (if (d.top : Int) < bottom then { d with owner := .popLoadItem bottom buf }
      else if bottom = d.top then { d with owner := .popLoadLast bottom buf }
        else { d with owner := .popEmpty d.top }) := by
  have hright := h.owner
  rw [OwnerRight, howner] at hright
  obtain ⟨hbottom, rfl⟩ := hright
  have hlimit : d.limit = bottom + 1 := by simp [limit, howner, hbottom]
  have htop := h.top_le
  have hroom := h.room
  split
  · -- The item is the owner's: no thief can have seen it as the first, and come to it before the bottom was lowered.
    rename_i hlt
    have hless : limit { d with owner := .popLoadItem bottom d.buffer } = bottom := hbottom.symm
    have hkeeps : Keeps d { d with owner := .popLoadItem bottom d.buffer } :=
      .of_same rfl rfl rfl fun _ => by rw [hless]; exact hlt
    refine ⟨?_, by rw [hless]; exact Int.le_of_lt hlt, by rw [hless]; show bottom - d.top < d.current.length; omega,
      ⟨hbottom, rfl⟩,
      fun i => (h.thieves i).keep hkeeps⟩
    have hcount : (bottom + 1 - d.top).toNat = (bottom - d.top).toNat + 1 := by omega
    have hindex : d.top + (bottom - d.top).toNat = bottom.toNat := by omega
    have hheld : d.held = d.items d.top (bottom - d.top).toNat ++ [d.current.load bottom.toNat] := by
      rw [held, hlimit, hcount, items_append, hindex]
      rfl
    have hbalanced := h.balanced
    rw [Balanced, hheld, show d.inFlight = [] by simp [inFlight, howner], append_nil] at hbalanced
    rw [Balanced, held, hless]
    refine List.Perm.trans ?_ hbalanced
    rw [append_assoc]
    exact perm_append_comm.append_left _
  split
  next heq =>
    refine h.move howner rfl rfl ⟨hbottom, rfl, Int.le_of_eq heq, ?_⟩
    omega
  · refine h.move howner rfl rfl ⟨rfl, ?_⟩
    show (d.top) = d.bottom + 1
    omega

theorem Inv.compareAndSwap (howner : d.owner = .popCompareAndSwap bottom item) :
    Inv (if (d.top : Int) = bottom then { d with top := d.top + 1, owner := .popWon bottom item }
      else { d with owner := .popLost bottom }) := by
  have hright := h.owner
  rw [OwnerRight, howner] at hright
  obtain ⟨hbottom, hle, hitem⟩ := hright
  have hlimit : d.limit = bottom + 1 := by simp [limit, howner, hbottom]
  have htop := h.top_le
  have hroom := h.room
  split
  next heq =>
    have hsame : limit { d with top := d.top + 1, owner := .popWon bottom item } = bottom + 1 :=
      by simp [limit, hbottom]
    have hkeeps : Keeps d { d with top := d.top + 1, owner := .popWon bottom item } :=
      ⟨Nat.le_succ _, Nat.le_refl _, fun hne => absurd hne (Nat.succ_ne_self _),
        fun hne => absurd hne (Nat.succ_ne_self _),
        fun _ _ hne => absurd hne (Nat.succ_ne_self _)⟩
    refine ⟨?_, ?_, ?_, ⟨hbottom, ?_⟩, fun i => (h.thieves i).keep hkeeps⟩
    · have hone : (bottom + 1 - d.top).toNat = 1 := by omega
      have hnone : (bottom + 1 - ((d.top + 1 : Nat))).toNat = 0 := by omega
      have hbalanced := h.balanced
      rw [Balanced, held, hlimit, hone, show d.inFlight = [] by simp [inFlight, howner]] at hbalanced
      rw [Balanced, held, hsame, hnone]
      simpa [inFlight, items, ← hitem heq] using hbalanced
    · rw [hsame]
      show ((d.top + 1)) ≤ bottom + 1
      omega
    · rw [hsame]
      show bottom + 1 - ((d.top + 1)) < d.current.length
      omega
    · show ((d.top + 1)) = bottom + 1
      omega
  next hne =>
    refine h.move howner rfl rfl ⟨hbottom, ?_⟩
    show (d.top) = bottom + 1
    omega

theorem Inv.stepOwner : Inv d.stepOwner := by
  have hright := h.owner
  have htop := h.top_le
  have hroom := h.room
  unfold Deque.stepOwner
  unfold OwnerRight at hright
  revert hright
  cases howner : d.owner with
  | idle => exact fun _ => h
  | loadBottom p => exact fun _ => h.move howner rfl rfl rfl
  | loadTop p bottom =>
    intro hright
    have hlimit : d.limit = d.bottom := by simp [limit, howner]
    refine h.move howner rfl rfl ⟨hright, Nat.le_refl _, ?_, ?_⟩
    · omega
    · show bottom - d.top < d.current.length
      omega
  | loadBuffer p bottom top =>
    rintro ⟨hbottom, htop, hle, hnear⟩
    dsimp only
    split
    · refine h.move howner rfl rfl ⟨hbottom, rfl, rfl, hle, top, htop, Nat.le_refl _, hnear, fun j hj hlt => ?_⟩
      omega
    · refine h.move howner rfl rfl ⟨hbottom, rfl, ?_⟩
      show bottom + 1 - d.top < d.current.length
      omega
  | grow p bottom old new i =>
    rintro ⟨hbottom, rfl, hlength, hi, top, htop, htopi, hnear, hcopied⟩
    dsimp only
    split
    next hlt =>
      refine h.move howner rfl rfl
        ⟨hbottom, rfl, hlength, hlt, top, htop, Nat.le_succ_of_le htopi, hnear, ?_⟩
      intro j hj hji
      rcases Nat.lt_succ_iff_lt_or_eq.mp hji with hji | rfl
      · rw [Buffer.load_store_of_lt hji]
        · exact hcopied j hj hji
        · omega
      · exact Buffer.load_store_self
    next hdone =>
      exact h.publish howner (Int.not_lt.mp hdone)
  | storeItem p bottom buf => exact fun _ => h.storeItem howner
  | storeBottom p bottom => exact fun _ => h.storeBottom howner
  | popLoadBottom => exact fun _ => h.move howner rfl rfl rfl
  | popLoadBuffer bottom =>
    exact fun hright => h.move howner rfl rfl ⟨hright, rfl⟩
  | popStoreBottom bottom buf =>
    exact fun hright => h.move howner (by simp [limit, hright.1]) rfl ⟨rfl, hright.2⟩
  | popLoadTop bottom buf => exact fun _ => h.compare howner
  | popLoadItem bottom buf =>
    exact fun _ => h.give (by simp [inFlight, howner]) (by simp [limit, howner])
  | popLoadLast bottom buf =>
    rintro ⟨hbottom, rfl, hle, hpos⟩
    refine h.move howner rfl rfl ⟨hbottom, hle, fun heq => ?_⟩
    rw [← heq]
    rfl
  | popCompareAndSwap bottom item => exact fun _ => h.compareAndSwap howner
  | popWon bottom item =>
    exact fun hright => h.give (by simp [inFlight, howner]) (by simp [limit, howner, hright.1])
  | popLost bottom =>
    exact fun hright => h.move howner (by simp [limit, hright.1]) rfl trivial
  | popEmpty top =>
    exact fun hright => h.move howner (by simp [limit, hright.1, hright.2]) rfl trivial

end

/-! ### Steps of thieves -/

theorem ThiefRight.setThief (h : ∀ j, d.ThiefRight (d.thieves j)) (hright : d.ThiefRight thief) (i j : Nat) :
    d.ThiefRight (d.setThief i thief j) := by
  unfold Deque.setThief
  by_cases hij : j = i
  · rw [hij, update_self]
    exact hright
  · rw [update_of_ne hij]
    exact h j

theorem Inv.moveThief (h : Inv d) (hright : d.ThiefRight thief) : Inv { d with thieves := d.setThief i thief } :=
  { h with thieves := ThiefRight.setThief h.thieves hright i }

/-- A thief that has copied two or more items and finds the top where it was takes what is still there. -/
def Fresh (d : Deque P) (e : DequeEvent P) : Prop :=
  match e with
  | .thief i =>
    match d.thieves i with
    | .copy top count _ copied => copied.length = count → d.top = top → 2 ≤ count →
        ((top + count : Nat) : Int) ≤ d.limit ∧ copied.Perm (d.items top count)
    | _ => True
  | _ => True

instance [DecidableEq P] (d : Deque P) (e : DequeEvent P) : Decidable (d.Fresh e) := by
  unfold Fresh
  split
  · split <;> infer_instance
  · infer_instance

theorem Inv.fresh_of_copied (h : Inv d) {i top count buf : Nat} (hfresh : d.Fresh (.thief i))
    (hthief : d.thieves i = .copy top count buf copied) (hlength : copied.length = count) (htop : d.top = top) :
    ((top + count : Nat) : Int) ≤ d.limit ∧ copied.Perm (d.items top count) := by
  have hright := h.thieves i
  rw [hthief] at hright
  obtain ⟨-, -, -, hstill⟩ := hright
  obtain ⟨hlimit, -, hfirst⟩ := hstill htop
  match count, copied, hlength with
  | 0, [], _ => exact ⟨by omega, by simp [items]⟩
  | 1, [item], _ =>
    refine ⟨by omega, ?_⟩
    rcases hfirst with hnil | hhead
    · cases hnil
    · rw [Option.some.inj hhead]
      simp [items]
  | count + 2, copied, hlength =>
    simp only [Fresh, hthief] at hfresh
    exact hfresh hlength htop (by omega)

theorem map_some_reduceOption {l : List (Option P)} {l' : List P} (h : ∀ item ∈ l, item ∈ l'.map some) :
    l.reduceOption.map some = l := by
  induction l with
  | nil => rfl
  | cons item l ih =>
    obtain ⟨p, -, rfl⟩ := List.mem_map.mp (h item mem_cons_self)
    rw [reduceOption_cons_of_some, map_cons, ih fun item hitem => h item (mem_cons_of_mem _ hitem)]

theorem Inv.ownerRight_take (h : Inv d) {count : Nat} (hlimit : ((d.top + count : Nat) : Int) ≤ d.limit)
    (howner : d'.owner = d.owner) (hbuffers : d'.buffers = d.buffers) (hbuffer : d'.buffer = d.buffer)
    (hbottom : d'.bottom = d.bottom) (htop : d'.top = d.top + count) : d'.OwnerRight := by
  have hright := h.owner
  have hcurrent : d'.current = d.current := by rw [current, current, hbuffers, hbuffer]
  unfold OwnerRight at hright ⊢
  unfold limit at hlimit
  rw [howner, hbuffer, hbottom, htop, hcurrent]
  generalize d.owner = owner at hright hlimit ⊢
  cases owner with
  | idle | loadBottom | loadTop | popLoadBottom | popLoadBuffer | popStoreBottom | popLoadTop | popLoadItem =>
    exact hright
  | loadBuffer p bottom top =>
    obtain ⟨hbottom, htop, hrest⟩ := hright
    exact ⟨hbottom, Nat.le_add_right_of_le htop, hrest⟩
  | grow p bottom old new i =>
    obtain ⟨hbottom, hold, hlength, hi, top, htop, hrest⟩ := hright
    exact ⟨hbottom, hold, hlength, hi, top, Nat.le_add_right_of_le htop, hrest⟩
  | storeItem p bottom buf =>
    obtain ⟨hbottom, hbuf, hroom⟩ := hright
    exact ⟨hbottom, hbuf, by omega⟩
  | storeBottom p bottom =>
    obtain ⟨hbottom, hroom, hload⟩ := hright
    exact ⟨hbottom, by omega, hload⟩
  | popLoadLast bottom buf =>
    obtain ⟨hbottom, hbuf, hle, hpos⟩ := hright
    exact ⟨hbottom, hbuf, by omega, hpos⟩
  | popCompareAndSwap bottom item =>
    obtain ⟨hbottom, hle, hitem⟩ := hright
    refine ⟨hbottom, by omega, fun heq => ?_⟩
    have hcount : count = 0 := by omega
    subst hcount
    exact hitem (by omega)
  | popWon bottom | popLost bottom =>
    dsimp only at hlimit
    exact ⟨hright.1, by omega⟩
  | popEmpty top =>
    dsimp only at hlimit
    exact ⟨by omega, by omega⟩

theorem Inv.take (h : Inv d) {i count : Nat} (hlimit : ((d.top + count : Nat) : Int) ≤ d.limit)
    (hcopied : copied.Perm (d.items d.top count)) :
    Inv { d with
      top := d.top + count, thieves := d.setThief i .idle, returned := d.returned ++ copied.reduceOption } := by
  have hroom := h.room
  have hcount : (d.limit - d.top).toNat = count + (d.limit - ((d.top + count))).toNat := by omega
  have hbalanced := h.balanced
  rw [Balanced, held, hcount, items_append] at hbalanced
  have hsome : copied.reduceOption.map some = copied := by
    refine map_some_reduceOption fun item hitem => hbalanced.subset ?_
    exact mem_append_right _ (mem_append_left _ (hcopied.subset hitem))
  refine ⟨?_, hlimit, ?_, h.ownerRight_take hlimit rfl rfl rfl rfl rfl, fun j => ?_⟩
  · refine List.Perm.trans ?_ hbalanced
    rw [map_append, hsome, ← append_assoc]
    refine List.Perm.append_right _ ?_
    rw [append_assoc, append_assoc]
    exact (perm_append_comm.trans (hcopied.append_left _)).append_left _
  · show d.limit - ((d.top + count)) < d.current.length
    omega
  · have hkeeps : Keeps d { d with
        top := d.top + count, thieves := d.setThief i .idle, returned := d.returned ++ copied.reduceOption } :=
      ⟨Nat.le_add_right _ _, Nat.le_refl _, fun _ hlt => hlt, fun _ _ => rfl, fun _ _ _ _ heq => heq⟩
    exact (ThiefRight.setThief h.thieves (show d.ThiefRight .idle from trivial) i j).keep hkeeps

theorem Inv.stepThief (h : Inv d) (hfresh : d.Fresh (.thief i)) : Inv (d.stepThief i) := by
  have hright := h.thieves i
  unfold Deque.stepThief
  cases hthief : d.thieves i with
  | idle => exact h
  | loadTop taking => exact h.moveThief (Nat.le_refl _)
  | loadBottom taking top =>
    rw [hthief] at hright
    dsimp only
    split
    · exact h.moveThief trivial
    refine h.moveThief ⟨hright, fun _ => ?_⟩
    have hbottom : d.bottom ≤ d.limit := by
      unfold limit
      split <;> omega
    omega
  | loadBuffer top count =>
    rw [hthief] at hright
    exact h.moveThief ⟨hright.1, Nat.le_refl _, Nat.zero_le _, fun htop => ⟨hright.2 htop, rfl, .inl rfl⟩⟩
  | copy top count buf copied =>
    rw [hthief] at hright
    obtain ⟨hle, hbuf, hlength, hstill⟩ := hright
    dsimp only
    split
    next hmore =>
      refine h.moveThief ⟨hle, hbuf, by rw [length_append]; exact hmore, fun htop => ?_⟩
      obtain ⟨hlimit, hload, hfirst⟩ := hstill htop
      refine ⟨hlimit, hload, .inr ?_⟩
      rcases hfirst with rfl | hhead
      · exact congrArg some hload
      · rw [head?_append, hhead]
        rfl
    split
    next hdone htop =>
      have hcount : copied.length = count := by omega
      obtain ⟨hlimit, hcopied⟩ := h.fresh_of_copied hfresh hthief hcount htop
      subst htop
      exact h.take hlimit hcopied
    · exact h.moveThief trivial

theorem Inv.step (h : Inv d) {e : DequeEvent P} (hfresh : d.Fresh e) : Inv (d.step e) := by
  cases e with
  | push p =>
    dsimp only [Deque.step]
    split
    next howner =>
      exact h.move howner rfl rfl trivial
    · exact h
  | pop =>
    dsimp only [Deque.step]
    split
    next howner =>
      exact h.move howner rfl rfl trivial
    · exact h
  | take i taking =>
    dsimp only [Deque.step]
    split
    · exact h.moveThief trivial
    · exact h
  | owner => exact h.stepOwner
  | thief i => exact h.stepThief hfresh

theorem one_le_roundUp {fuel capacity actual : Nat} (h : 1 ≤ actual) : 1 ≤ roundUp fuel capacity actual := by
  induction fuel generalizing actual with
  | zero => exact h
  | succ fuel ih =>
    unfold roundUp
    split
    · exact ih (by omega)
    · exact h

theorem inv_newDeque (capacity : Nat) : Inv (newDeque capacity : Deque P) := by
  have hlength : 1 ≤ roundUp capacity capacity 1 := one_le_roundUp (Nat.le_refl 1)
  refine ⟨.refl _, Int.le_refl 0, ?_, trivial, fun _ => trivial⟩
  show (0 : Int) - (0) < (roundUp capacity capacity 1)
  omega

/-- Nobody is inside an operation. -/
def Quiescent (d : Deque P) : Prop := d.owner = .idle ∧ ∀ i, d.thieves i = .idle

/-- A whole `Pop`. -/
def popWhole (d : Deque P) : Deque P := (List.replicate 7 DequeEvent.owner).foldl step (d.step .pop)

/-- No processor is returned more often than it was pushed; and when all operations are finished, pops return what
    was pushed and not returned. -/
def HandsOutOnce (d : Deque P) : Prop :=
  d.returned.Subperm d.pushed ∧ (d.Quiescent → ∀ k, d.pushed.length ≤ k → (popWhole^[k] d).returned.Perm d.pushed)

theorem Inv.popWhole (h : Inv d) : Inv d.popWhole := by
  have hall : ∀ n (d : Deque P), Inv d → Inv ((List.replicate n DequeEvent.owner).foldl Deque.step d) := by
    intro n
    induction n with
    | zero => exact fun _ h => h
    | succ n ih => exact fun d h => ih _ (h.step trivial)
  exact hall 7 _ (h.step trivial)

theorem popWhole_spec (howner : d.owner = .idle) (hle : (d.top : Int) ≤ d.bottom) :
    d.popWhole.owner = .idle ∧ d.popWhole.pushed = d.pushed ∧ (d.popWhole.top : Int) ≤ d.popWhole.bottom ∧
      (d.popWhole.bottom - d.popWhole.top).toNat = (d.bottom - d.top).toNat - 1 := by
  rcases Int.lt_trichotomy d.top (d.bottom - 1) with hlt | heq | hgt
  · simp only [Deque.popWhole, step, stepOwner, howner, List.replicate, foldl_cons, foldl_nil, if_pos hlt, true_and]
    omega
  · have hone : (d.bottom - (d.bottom - 1)).toNat = 1 := by omega
    simp [Deque.popWhole, step, stepOwner, howner, List.replicate, heq, hone]
  · have hnot : ¬ (d.top) < d.bottom - 1 := by omega
    have hne : d.bottom - 1 ≠ d.top := by omega
    simp only [Deque.popWhole, step, stepOwner, howner, List.replicate, foldl_cons, foldl_nil, if_neg hnot, if_neg hne,
      true_and]
    omega

theorem Inv.perm_of_idle (h : Inv d) (howner : d.owner = .idle) :
    (d.returned.map some ++ d.items d.top (d.bottom - d.top).toNat).Perm (d.pushed.map some) := by
  have hbalanced := h.balanced
  rwa [Balanced, held, show d.limit = d.bottom by simp [limit, howner], show d.inFlight = [] by simp [inFlight, howner],
    append_nil] at hbalanced

theorem Inv.drained (h : Inv d) (howner : d.owner = .idle) {k : Nat} (hk : (d.bottom - d.top).toNat ≤ k) :
    (Deque.popWhole^[k] d).returned.Perm d.pushed := by
  induction k generalizing d with
  | zero =>
    have hperm := h.perm_of_idle howner
    rw [Nat.le_zero.mp hk] at hperm
    exact (map_perm_map_iff fun _ _ => Option.some.inj).mp (by simpa [items] using hperm)
  | succ k ih =>
    have hle : (d.top) ≤ d.bottom := by
      have htop := h.top_le
      rwa [show d.limit = d.bottom by simp [limit, howner]] at htop
    obtain ⟨hidle, hpushed, -, hsize⟩ := popWhole_spec howner hle
    rw [← hpushed]
    exact ih h.popWhole hidle (by omega)

theorem Inv.handsOutOnce (h : Inv d) : d.HandsOutOnce := by
  constructor
  · have hbalanced := h.balanced
    rw [Balanced, append_assoc] at hbalanced
    have hsub : (d.returned.map some).Subperm (d.pushed.map some) :=
      (sublist_append_left _ _).subperm.trans hbalanced.subperm
    exact (map_subperm_map_iff fun _ _ => Option.some.inj).mp hsub
  · rintro ⟨howner, -⟩ k hk
    refine h.drained howner (Nat.le_trans ?_ hk)
    have hlength := (h.perm_of_idle howner).length_eq
    simp only [items, length_append, length_map, length_range'] at hlength
    omega

/-- In every run in which every batch is fresh, processors are handed out once. -/
theorem handed_out_once {capacity : Nat} (h : Reach step Fresh (newDeque capacity) d) : d.HandsOutOnce :=
  (h.invariant (inv_newDeque capacity) fun _ _ hfresh hinv => hinv.step hfresh).handsOutOnce

/-- Four pushes, and a thief that has copied two items. -/
def pushesAndCopy : List (DequeEvent Nat) :=
  [1, 2, 3, 4].flatMap (fun p => .push p :: List.replicate 5 .owner) ++
    .take 0 (.stealHalfInto 8) :: List.replicate 5 (.thief 0)

theorem handed_out_once_to_both :
    (List.foldl step (newDeque 8) (pushesAndCopy ++ [.thief 0])).HandsOutOnce ∧
      (List.foldl step (newDeque 8) (pushesAndCopy ++ [.thief 0])).returned = [1, 2] :=
  ⟨handed_out_once (.of_along (show Along step Fresh (newDeque 8) (pushesAndCopy ++ [.thief 0]) by decide +kernel)),
    by decide +kernel⟩

/-- The owner pops the second of the items that the thief has copied: both return it. -/
theorem popped_item_stolen :
    ¬ ∀ (P : Type) (capacity : Nat) (events : List (DequeEvent P)),
      (List.foldl step (newDeque capacity) events).HandsOutOnce := by
  intro h
  obtain ⟨hsub, -⟩ := h Nat 8
    (pushesAndCopy ++ (List.replicate 3 (.pop :: List.replicate 7 .owner)).flatten ++ [.thief 0])
  have hcount := hsub.count_le 2
  revert hcount
  decide +kernel

end Deque
end Wippy.Scheduler
