import Wippy.Lib.Reach
import Wippy.Lib.Replace
import Wippy.Resource.Table

/-! A resource table is a map from handles to values. This fails for handles whose index is negative as an `int`, after
    a `Clear`, and when a borrow count wraps. -/

namespace Wippy.Resource
open Lib List Option Function

variable {V : Type} {dropper : V → Bool}

/-- What a live handle stands for. -/
structure Held (V : Type) where
  value : V
  typeID : UInt32
  borrows : Nat

/-- The table as a map. -/
structure MapTable (V : Type) where
  live : Handle → Option (Held V)
  closed : Bool

/-- The operations on a map, with the handle that an insertion takes. -/
def MapTable.apply (m : MapTable V) (fresh : Handle) : Table.Op V → MapTable V × Result V
  | .insert typeID value =>
    if m.closed then (m, .handle 0)
    else ({ m with live := update m.live fresh (some { value, typeID, borrows := 0 }) }, .handle fresh)
  | .get handle => (m, .value ((m.live handle).map Held.value))
  | .getTyped handle typeID => (m, .value (((m.live handle).filter fun x => x.typeID = typeID).map Held.value))
  | .typeID handle => (m, .typeID ((m.live handle).map Held.typeID))
  | .remove handle =>
    match (m.live handle).filter fun x => x.borrows = 0 with
    | none => (m, .value none)
    | some x => ({ m with live := update m.live handle none }, .value (some x.value))
  | .borrow handle =>
    match m.live handle with
    | none => (m, .ok false)
    | some x => ({ m with live := update m.live handle (some { x with borrows := x.borrows + 1 }) }, .ok true)
  | .returnBorrow handle =>
    match (m.live handle).filter fun x => x.borrows ≠ 0 with
    | none => (m, .ok false)
    | some x => ({ m with live := update m.live handle (some { x with borrows := x.borrows - 1 }) }, .ok true)
  | .clear => ({ m with live := fun _ => none }, .done)
  | .reset => ({ live := fun _ => none, closed := false }, .done)
  | .close => ({ live := fun _ => none, closed := true }, .done)

/-- What an entry holds. -/
def Entry.held (e : Entry V) : Option (Held V) :=
  if e.valid then e.value.map fun value => { value, typeID := e.typeID, borrows := e.borrowCount.toNat } else none

namespace Table
variable {t t' : Table V} {h : Handle} {e e' : Entry V} {value : V} {op : Op V} {r : Result V}

/-- What a handle stands for. -/
def live (t : Table V) (handle : Handle) : Option (Held V) :=
  if handle = 0 then none else (t.entries[(handle - 1).toNat]?).bind Entry.held

/-- The abstract table. -/
def view (t : Table V) : MapTable V := { live := t.live, closed := t.closed }

/-- The handle that the next insertion gives. -/
def fresh (t : Table V) : Handle := t.freeList.getLast?.getD (.ofNat (t.entries.length + 1))

/-- The handle that an operation is given. -/
def Op.handle? : Op V → Option Handle
  | .get handle | .getTyped handle _ | .typeID handle | .remove handle | .borrow handle | .returnBorrow handle =>
    some handle
  | .insert _ _ | .clear | .reset | .close => none

/-- Handles are not beyond the signed range, nothing is cleared that has slots, and no borrow count wraps. That there
    are fewer slots than signed numbers is so of every slice. -/
def Meets (t : Table V) (op : Op V) : Prop :=
  (∀ h ∈ op.handle?, h.toNat ≤ 9223372036854775808) ∧
    match op with
    | .insert _ _ => t.entries.length < 9223372036854775807
    | .borrow handle => ∀ x ∈ t.live handle, x.borrows < 4294967295
    | .clear => t.entries = []
    | _ => True

/-- An invalid slot is free, once; there are no more slots than values were live together; and the values that were
    accepted are those that are live and those that were dropped. -/
structure Sound (dropper : V → Bool) (t : Table V) : Prop where
  filled : ∀ e ∈ t.entries, e.valid = e.value.isSome
  slots : ∀ i e, t.entries[i]? = some e → (e.valid = false ↔ .ofNat (i + 1) ∈ t.freeList)
  free : ∀ h ∈ t.freeList, h ≠ 0 ∧ (h - 1).toNat < t.entries.length
  nodup : t.freeList.Nodup
  length : t.entries.length ≤ 9223372036854775807
  peak : t.entries.length ≤ t.peak
  dropped : (t.accepted.filter dropper).Perm (t.values.filter dropper ++ t.dropped)
  closed : t.closed = true → t.entries = []

/-- An operation does to the map what the table stands for, and nothing where its handle is not live. -/
structure Follows (dropper : V → Bool) (t : Table V) (op : Op V) : Prop where
  sound : (t.step dropper op).Sound dropper
  fresh : t.fresh ≠ 0 ∧ t.live t.fresh = none
  map : ((t.apply dropper op).1.view, (t.apply dropper op).2) = t.view.apply t.fresh op
  dead : ∀ h ∈ op.handle?, t.live h = none → (t.apply dropper op).1 = t

/-! ### Handles and slots -/

theorem toNat_pred (hne : h ≠ 0) : (h - 1).toNat + 1 = h.toNat := by
  have hpos : h.toNat ≠ 0 := fun heq => hne (UInt64.toNat.inj heq)
  have hle : 1 ≤ h := UInt64.le_iff_toNat_le.mpr (Nat.one_le_iff_ne_zero.mpr hpos)
  have hone : (1 : UInt64).toNat = 1 := rfl
  rw [UInt64.toNat_sub_of_le _ _ hle]
  omega

theorem handle_of_index (hne : h ≠ 0) : UInt64.ofNat ((h - 1).toNat + 1) = h := by
  rw [toNat_pred hne, UInt64.ofNat_toNat]

theorem index_of_handle {i : Nat} (hi : i ≤ 9223372036854775807) :
    UInt64.ofNat (i + 1) ≠ 0 ∧ (UInt64.ofNat (i + 1) - 1).toNat = i := by
  have hto : (UInt64.ofNat (i + 1)).toNat = i + 1 := UInt64.toNat_ofNat_of_lt' (by simp only [UInt64.size]; omega)
  have hne : UInt64.ofNat (i + 1) ≠ 0 := fun h => by
    rw [h] at hto
    cases hto
  have := toNat_pred hne
  exact ⟨hne, by omega⟩

theorem live_of_index (hne : h ≠ 0) : t.live h = (t.entries[(h - 1).toNat]?).bind Entry.held := if_neg hne

/-- The handle is that of the valid entry `e`, which has the value. -/
structure At (t : Table V) (handle : Handle) (e : Entry V) (value : V) : Prop where
  ne : handle ≠ 0
  entry : t.entries[(handle - 1).toNat]? = some e
  valid : e.valid = true
  value : e.value = some value

theorem At.live (ha : t.At h e value) :
    t.live h = some { value, typeID := e.typeID, borrows := e.borrowCount.toNat } := by
  rw [live_of_index ha.ne, ha.entry, bind_some, Entry.held, ha.valid, ha.value]
  rfl

theorem live_set (hne : h ≠ 0) (hlt : (h - 1).toNat < t.entries.length) (e : Entry V) (t' : Table V)
    (ht' : t'.entries = t.entries.set (h - 1).toNat e) : t'.live = update t.live h e.held := by
  funext h'
  rw [update_apply]
  by_cases hzero : h' = 0
  · rw [if_neg fun heq : h' = h => hne (heq ▸ hzero), Table.live, Table.live, if_pos hzero, if_pos hzero]
  rw [live_of_index hzero, ht', List.getElem?_set]
  split
  next hsame =>
    have heq : h' = h := by rw [← handle_of_index hzero, ← hsame, handle_of_index hne]
    rw [if_pos heq]
    rfl
  next hother =>
    rw [if_neg fun heq => hother (by rw [heq]), live_of_index hzero]

theorem live_append (hlt : t.entries.length < 9223372036854775807) (e : Entry V) (t' : Table V)
    (ht' : t'.entries = t.entries ++ [e]) : t'.live = update t.live (.ofNat (t.entries.length + 1)) e.held := by
  obtain ⟨hne, hidx⟩ := index_of_handle (Nat.le_of_lt hlt)
  funext h
  rw [update_apply]
  split
  next heq => rw [heq, live_of_index hne, hidx, ht', getElem?_concat_length, bind_some]
  rename_i hother
  unfold live
  split
  · rfl
  rename_i hzero
  have hlen : (h - 1).toNat ≠ t.entries.length := fun heq => hother (by rw [← heq, handle_of_index hzero])
  rw [ht', getElem?_append]
  split
  · rfl
  · rw [getElem?_eq_none_iff.mpr (by rw [length_singleton]; omega), getElem?_eq_none_iff.mpr (by omega)]

theorem onValid_cases (hs : t.Sound dropper) (hh : h.toNat ≤ 9223372036854775808) :
    (t.live h = none ∧ ∀ fails f, t.onValid h fails f = (t, fails)) ∨
      ∃ e value, t.At h e value ∧ ∀ fails f, t.onValid h fails f = f (h - 1).toNat e := by
  unfold onValid
  by_cases hzero : h = 0
  · exact .inl ⟨if_pos hzero, fun _ _ => if_pos hzero⟩
  have hpred := toNat_pred hzero
  have hsigned : signed (h - 1) = (h - 1).toNat := if_pos (by omega)
  rw [live_of_index hzero]
  simp only [if_neg hzero, hsigned]
  cases he : t.entries[(h - 1).toNat]? with
  | none =>
    rw [getElem?_eq_none_iff] at he
    exact .inl ⟨rfl, fun _ _ => if_pos (by omega)⟩
  | some e =>
    have hlt := (List.getElem?_eq_some_iff.mp he).1
    simp only [if_neg (show ¬ ((h - 1).toNat : Int) ≥ t.entries.length by omega)]
    cases hvalid : e.valid with
    | false => exact .inl ⟨by simp [Entry.held, hvalid], fun _ _ => rfl⟩
    | true =>
      have hsome := hs.filled e (mem_of_getElem? he)
      obtain ⟨value, hvalue⟩ := isSome_iff_exists.mp (hsome.symm.trans hvalid)
      exact .inr ⟨e, value, ⟨hzero, he, hvalid, hvalue⟩, fun _ _ => rfl⟩

section
variable (hs : t.Sound dropper)
include hs

theorem Sound.last_free (hlast : t.freeList.getLast? = some h) :
    h ≠ 0 ∧ ∃ e, t.entries[(h - 1).toNat]? = some e ∧ e.value = none := by
  have hmem := mem_of_getLast? hlast
  obtain ⟨hne, hlt⟩ := hs.free h hmem
  have he := getElem?_eq_getElem hlt
  have hinvalid := (hs.slots _ _ he).mpr ((handle_of_index hne).symm ▸ hmem)
  rw [hs.filled _ (getElem_mem hlt), isSome_eq_false_iff, isNone_iff_eq_none] at hinvalid
  exact ⟨hne, _, he, hinvalid⟩

theorem Sound.fresh_free : t.fresh ≠ 0 ∧ t.live t.fresh = none := by
  unfold fresh
  cases hlast : t.freeList.getLast? with
  | none =>
    obtain ⟨hne, hidx⟩ := index_of_handle hs.length
    rw [getD_none, live_of_index hne, hidx, getElem?_eq_none_iff.mpr (Nat.le_refl _)]
    exact ⟨hne, rfl⟩
  | some h =>
    obtain ⟨hne, e, he, hnone⟩ := hs.last_free hlast
    rw [getD_some, live_of_index hne, he, bind_some, Entry.held, hnone]
    exact ⟨hne, ite_self _⟩

theorem Sound.set (added gone : List V) (hne : h ≠ 0)
    (he : t.entries[(h - 1).toNat]? = some e) (hentries : t'.entries = t.entries.set (h - 1).toNat e')
    (hfilled : e'.valid = e'.value.isSome) (hslot : e'.valid = false ↔ h ∈ t'.freeList)
    (hother : ∀ h' ≠ h, h' ∈ t'.freeList ↔ h' ∈ t.freeList) (hnodup : t'.freeList.Nodup) (hpeak : t.peak ≤ t'.peak)
    (hclosed : t'.closed = t.closed) (haccepted : t'.accepted = t.accepted ++ added)
    (hdropped : t'.dropped = t.dropped ++ gone.filter dropper)
    (hvalues : e.value.toList ++ added = e'.value.toList ++ gone) : t'.Sound dropper := by
  have hlen : t'.entries.length = t.entries.length := by rw [hentries, length_set]
  have hlt := (List.getElem?_eq_some_iff.mp he).1
  have hlength := hs.length
  have hpeak' := hs.peak
  have hlisted {e : Entry V} (h : e.valid = e.value.isSome) :
    (if e.valid then e.value.toList else []) = e.value.toList := by
    cases hv : e.value <;> simp [h, hv]
  refine ⟨?filled, ?slots, ?free, hnodup, by omega, by omega, ?dropped, ?closed⟩
  case filled =>
    intro x hx
    rw [hentries] at hx
    obtain hx | rfl := mem_or_eq_of_mem_set hx
    · exact hs.filled x hx
    · exact hfilled
  case slots =>
    intro i x hx
    rw [hentries, List.getElem?_set] at hx
    split at hx
    next hi =>
      cases hx
      rw [← hi, handle_of_index hne]
      exact hslot
    next hi =>
      have hlt := (List.getElem?_eq_some_iff.mp hx).1
      obtain ⟨hine, hidx⟩ := index_of_handle (i := i) (by omega)
      rw [hother _ fun heq => hi (by rw [← heq, hidx])]
      exact hs.slots i x hx
  case free =>
    intro h' hmem
    rw [hlen]
    by_cases heq : h' = h
    · exact heq ▸ ⟨hne, hlt⟩
    · exact hs.free h' ((hother h' heq).mp hmem)
  case dropped =>
    classical
    rw [perm_iff_count]
    intro a
    have hbefore := hs.dropped.count_eq a
    have hset := ((perm_flatMap_set (fun e => if e.valid then e.value.toList else []) he e').filter dropper).count_eq a
    have hmoved := congrArg (fun l => count a (filter dropper l)) hvalues
    rw [hlisted hfilled, hlisted (hs.filled e (mem_of_getElem? he))] at hset
    simp only [filter_append, count_append, haccepted, hdropped, values, hentries] at *
    omega
  case closed =>
    intro h
    rw [hclosed] at h
    rw [hentries, hs.closed h, set_nil]

theorem Sound.live_values (hfree : t.freeList = []) : t.values.length = t.entries.length := by
  have hone : ∀ e ∈ t.entries, (if e.valid then e.value.toList else []).length = 1 := fun e he => by
    obtain ⟨i, hi⟩ := mem_iff_getElem?.mp he
    have hslot := hs.slots i e hi
    have hfilled := hs.filled e he
    cases hv : e.value <;> simp_all
  rw [values, length_flatMap, map_congr_left hone, map_const', sum_replicate_nat, Nat.mul_one]

theorem Sound.append (hfree : t.freeList = []) (hclosed : t.closed = false)
    (hlt : t.entries.length < 9223372036854775807) (typeID : UInt32) (value : V) :
    { t with
      entries := t.entries ++ [{ typeID, value := some value, valid := true }]
      accepted := t.accepted ++ [value]
      peak := max t.peak (t.values ++ [value]).length : Table V }.Sound dropper := by
  have hvalues := hs.live_values hfree
  refine ⟨?filled, ?slots, ?free, hs.nodup, ?length, ?peak, ?dropped, fun h => ?closed⟩
  case filled => exact forall_mem_append.mpr ⟨hs.filled, forall_mem_singleton.mpr rfl⟩
  case slots =>
    intro i e he
    rw [getElem?_append] at he
    split at he
    · exact hs.slots i e he
    · have := mem_of_getElem? he
      simp_all
  case free => simp [hfree]
  case length => exact Nat.le_trans (Nat.le_of_eq length_append) hlt
  case peak =>
    rw [length_append, length_append, hvalues]
    exact Nat.le_max_right _ _
  case dropped =>
    simp only [values, filter_append, flatMap_append]
    refine (hs.dropped.append_right _).trans ?_
    simpa [values] using Perm.append_left _ perm_append_comm
  case closed => cases hclosed.symm.trans h

theorem Sound.kept (happ : t.apply dropper op = (t, r))
    (hmap : t.view.apply t.fresh op = (t.view, r)) : t.Follows dropper op := by
  have hle : t.entries.length ≤ max t.peak t.values.length := Nat.le_trans hs.peak (Nat.le_max_left _ _)
  refine ⟨?_, hs.fresh_free, by rw [happ, hmap], fun _ _ _ => by rw [happ]⟩
  rw [step, happ]
  exact { hs with peak := hle }

theorem Sound.replaced (ha : t.At h e value) (hop : op.handle? = some h) (happ : t.apply dropper op = (t', r))
    (hsound : { t' with peak := max t'.peak t'.values.length : Table V }.Sound dropper)
    (hentries : t'.entries = t.entries.set (h - 1).toNat e') (hclosed : t'.closed = t.closed)
    (hmap : t.view.apply t.fresh op = ({ t.view with live := update t.live h e'.held }, r)) : t.Follows dropper op := by
  have hlive := live_set ha.ne (List.getElem?_eq_some_iff.mp ha.entry).1 e' t' hentries
  refine ⟨?_, hs.fresh_free, ?_, fun h' hh' hdead => ?_⟩
  · rw [step, happ]
    exact hsound
  · rw [happ, hmap, view, hlive, hclosed]
    rfl
  · cases hop.symm.trans hh'
    cases hdead.symm.trans ha.live

theorem Sound.emptied (hop : op.handle? = none)
    (happ : t.apply dropper op = (t', .done)) (hentries : t'.entries = []) (hfree : t'.freeList = [])
    (haccepted : t'.accepted = t.accepted) (hdropped : t'.dropped = t.dropped ++ t.values.filter dropper)
    (hmap : t.view.apply t.fresh op = ({ live := fun _ => none, closed := t'.closed }, .done)) :
    t.Follows dropper op := by
  have hlive : t'.live = fun _ => none := by
    funext h
    simp [live, hentries]
  refine ⟨?_, hs.fresh_free, by rw [happ, hmap, view, hlive], fun h hh => by cases hop.symm.trans hh⟩
  have hall : (t.accepted.filter dropper).Perm (t.dropped ++ t.values.filter dropper) :=
    hs.dropped.trans perm_append_comm
  rw [step, happ]
  constructor <;> simp [hentries, hfree, haccepted, hdropped, values]
  exact hall

theorem Sound.insert (typeID : UInt32) (value : V) (hlt : t.entries.length < 9223372036854775807) :
    t.Follows dropper (.insert typeID value) := by
  cases hclosed : t.closed with
  | true => exact hs.kept (if_pos hclosed) (if_pos hclosed)
  | false =>
  have hopen : ¬ t.closed = true := by simp [hclosed]
  let e : Entry V := { typeID, value := some value, valid := true }
  have hmap (t' : Table V) (hlive : t'.live = update t.live t.fresh e.held) (hsame : t'.closed = t.closed) :
      (t'.view, Result.handle t.fresh) = t.view.apply t.fresh (.insert typeID value) := by
    rw [view, hlive, hsame]
    exact (if_neg hopen).symm
  cases hlast : t.freeList.getLast? with
  | none =>
    have hfree := getLast?_eq_none_iff.mp hlast
    have happ : t.apply dropper (.insert typeID value) =
        ({ t with entries := t.entries ++ [e], accepted := t.accepted ++ [value] }, .handle t.fresh) := by
      rw [apply, Table.insert, if_neg hopen, fresh, hlast]
      rfl
    refine ⟨?_, hs.fresh_free, ?_, nofun⟩
    · rw [step, happ]
      simpa [values, e] using hs.append hfree hclosed hlt typeID value
    · rw [happ]
      refine hmap _ ?_ rfl
      rw [fresh, hlast]
      exact live_append hlt e _ rfl
  | some h =>
    obtain ⟨hne, free, he, hnone⟩ := hs.last_free hlast
    have hidx := (List.getElem?_eq_some_iff.mp he).1
    have happ : t.apply dropper (.insert typeID value) = ({ t with
        freeList := t.freeList.dropLast, entries := t.entries.set (h - 1).toNat e
        accepted := t.accepted ++ [value] }, .handle t.fresh) := by
      rw [apply, Table.insert, if_neg hopen, fresh, hlast]
      exact if_pos hidx
    have hsplit := dropLast_append_getLast? h hlast
    have hnodup := hs.nodup
    rw [← hsplit, (perm_append_singleton _ _).nodup_iff, nodup_cons] at hnodup
    refine ⟨?_, hs.fresh_free, ?_, nofun⟩
    · rw [step, happ]
      refine hs.set [value] [] hne he rfl rfl ?_ ?_ hnodup.2 (Nat.le_max_left _ _) rfl rfl
        (append_nil _).symm ?_
      · simpa [e] using hnodup.1
      · intro h' hother
        rw [← hsplit]
        simp [hother]
      · rw [hnone]
        rfl
    · rw [happ]
      refine hmap _ ?_ rfl
      rw [fresh, hlast]
      exact live_set hne hidx e _ rfl

theorem Sound.onHandle {fails : Result V} {f : Nat → Entry V → Table V × Result V}
    (hh : h.toNat ≤ 9223372036854775808) (hop : t.apply dropper op = t.onValid h fails f)
    (hdead : t.live h = none → t.view.apply t.fresh op = (t.view, fails))
    (hlive : ∀ e value, t.At h e value → t.apply dropper op = f (h - 1).toNat e → t.Follows dropper op) :
    t.Follows dropper op := by
  obtain ⟨hnone, hret⟩ | ⟨e, value, ha, hret⟩ := onValid_cases hs hh
  · exact hs.kept (hop.trans (hret _ _)) (hdead hnone)
  · exact hlive e value ha (hop.trans (hret _ _))

theorem Sound.recounted (n : UInt32)
    (ha : t.At h e value) (hop : op.handle? = some h)
    (happ : t.apply dropper op =
      ({ t with entries := t.entries.set (h - 1).toNat { e with borrowCount := n } }, .ok true))
    (hmap : t.view.apply t.fresh op =
      ({ t.view with live := update t.live h (some { value, typeID := e.typeID, borrows := n.toNat }) }, .ok true)) :
    t.Follows dropper op := by
  have hslot := hs.slots _ _ ha.entry
  rw [handle_of_index ha.ne] at hslot
  refine hs.replaced ha hop happ ?_ rfl rfl ?_
  · exact hs.set [] [] ha.ne ha.entry rfl (hs.filled e (mem_of_getElem? ha.entry)) hslot (fun _ _ => Iff.rfl) hs.nodup
      (Nat.le_max_left _ _) rfl (append_nil _).symm (append_nil _).symm rfl
  · rw [hmap, ha.valid, ha.value]
    rfl

theorem Sound.remove (hh : h.toNat ≤ 9223372036854775808) : t.Follows dropper (.remove h) := by
  refine hs.onHandle hh (by rw [apply, Table.remove]) (fun hdead => by simp [MapTable.apply, view, hdead])
    fun e value ha happ => ?_
  by_cases hborrowed : e.borrowCount > 0
  · have hpos : e.borrowCount.toNat ≠ 0 := Nat.ne_of_gt hborrowed
    exact hs.kept (happ.trans (if_pos hborrowed)) (by simp [MapTable.apply, view, ha.live, Option.filter, hpos])
  have hzero : e.borrowCount.toNat = 0 := Nat.eq_zero_of_not_pos hborrowed
  have hslot := (hs.slots _ _ ha.entry).not.mp (by rw [ha.valid]; decide)
  rw [handle_of_index ha.ne] at hslot
  refine hs.replaced ha rfl (happ.trans (if_neg hborrowed)) ?_ rfl rfl ?_
  · refine hs.set [] [value] ha.ne ha.entry rfl rfl ?_ ?_ ?_ (Nat.le_max_left _ _) rfl (append_nil _).symm ?_ ?_
    · simp
    · simp +contextual
    · exact (perm_append_singleton _ _).nodup_iff.mpr (nodup_cons.mpr ⟨hslot, hs.nodup⟩)
    · simp [ha.value]
    · simp [ha.value]
  · simp [MapTable.apply, view, ha.live, Option.filter, hzero, ha.value, Entry.held]

theorem Sound.close : t.Follows dropper .close := by
  by_cases hclosed : t.closed = true
  · have hlive : t.live = fun _ => none := funext fun h => by simp [live, hs.closed hclosed]
    refine hs.kept (congrArg (·, Result.done) (if_pos hclosed)) ?_
    rw [view, hlive, hclosed]
    rfl
  · exact hs.emptied rfl (congrArg (·, Result.done) (if_neg hclosed)) rfl rfl rfl rfl rfl

theorem Sound.follows (op : Op V) (hmeets : t.Meets op) : t.Follows dropper op := by
  obtain ⟨hhandle, hop⟩ := hmeets
  cases op with
  | insert typeID value => exact hs.insert typeID value hop
  | get h =>
    refine hs.onHandle (hhandle h rfl) (by rw [apply, get]) (fun hdead => ?dead) fun e value ha happ => ?_
    case dead => simp [MapTable.apply, view, hdead]
    exact hs.kept happ (by simp [MapTable.apply, view, ha.live, ha.value])
  | getTyped h typeID =>
    refine hs.onHandle (hhandle h rfl) (by rw [apply, getTyped]) (fun hdead => ?dead) fun e value ha happ => ?_
    case dead => simp [MapTable.apply, view, hdead]
    refine hs.kept happ ?_
    by_cases htype : e.typeID = typeID <;> simp [MapTable.apply, view, ha.live, ha.value, htype]
  | typeID h =>
    refine hs.onHandle (hhandle h rfl) (by rw [apply, Table.typeID]) (fun hdead => ?dead) fun e value ha happ => ?_
    case dead => simp [MapTable.apply, view, hdead]
    exact hs.kept happ (by simp [MapTable.apply, view, ha.live])
  | remove h => exact hs.remove (hhandle h rfl)
  | borrow h =>
    refine hs.onHandle (hhandle h rfl) (by rw [apply, borrow]) (fun hdead => ?dead) fun e value ha happ => ?_
    case dead => simp [MapTable.apply, view, hdead]
    have hlt : e.borrowCount.toNat < 4294967295 := hop _ ha.live
    have hadd : (e.borrowCount + 1).toNat = e.borrowCount.toNat + 1 := by
      exact Nat.mod_eq_of_lt (Nat.succ_lt_succ hlt)
    exact hs.recounted _ ha rfl happ (by simp [MapTable.apply, view, ha.live, hadd])
  | returnBorrow h =>
    refine hs.onHandle (hhandle h rfl) (by rw [apply, returnBorrow]) (fun hdead => ?dead) fun e value ha happ => ?_
    case dead => simp [MapTable.apply, view, hdead]
    by_cases hzero : e.borrowCount = 0
    · exact hs.kept (happ.trans (if_pos hzero)) (by simp [MapTable.apply, view, ha.live, Option.filter, hzero])
    have hpos : e.borrowCount.toNat ≠ 0 := fun heq => hzero (UInt32.toNat.inj heq)
    have hsub : (e.borrowCount - 1).toNat = e.borrowCount.toNat - 1 :=
      UInt32.toNat_sub_of_le _ _ (UInt32.le_iff_toNat_le.mpr (Nat.one_le_iff_ne_zero.mpr hpos))
    refine hs.recounted _ ha rfl (happ.trans (if_neg hzero)) ?_
    simp [MapTable.apply, view, ha.live, Option.filter, hsub, hpos]
  | clear => exact hs.emptied rfl rfl (congrArg (map _) hop) rfl rfl rfl rfl
  | reset => exact hs.emptied rfl rfl rfl rfl rfl rfl rfl
  | close => exact hs.close

end

/-- In every run whose operations meet the condition, every further one that meets it does what it does to a map. -/
theorem table_is_map (h : Reach (step dropper) Meets {} t) :
    t.Sound dropper ∧ ∀ op, t.Meets op → t.Follows dropper op := by
  have hsound : t.Sound dropper := by
    refine h.invariant ?_ fun t op hop hs => (hs.follows op hop).sound
    constructor <;> simp [values]
  exact ⟨hsound, hsound.follows⟩

/-- A handle is removed and given to a third value, the other one is borrowed, and a removal of it is refused. -/
theorem table_is_map_removed :
    let t := [Op.insert 7 5, .insert 8 6, .remove 1, .insert 9 4, .borrow 2].foldl (step fun _ : Nat => true) {}
    t.live 1 = some ⟨4, 9, 0⟩ ∧ t.live 2 = some ⟨6, 8, 1⟩ ∧ (t.apply (fun _ => true) (.remove 2)).2 = .value none ∧
      t.Sound (fun _ => true) ∧ t.Follows (fun _ => true) (.remove 2) := by
  intro t
  have hinsert : ∀ h ∈ (none : Option Handle), h.toNat ≤ 9223372036854775808 := fun _ hh => by cases hh
  have hremove : ∀ h ∈ some (1 : Handle), h.toNat ≤ 9223372036854775808 := fun _ hh => by cases hh; decide
  have hborrow : ∀ h ∈ some (2 : Handle), h.toNat ≤ 9223372036854775808 := fun _ hh => by cases hh; decide
  have hmap := table_is_map (t := t) (.of_along ⟨⟨hinsert, by decide⟩, ⟨hinsert, by decide⟩, ⟨hremove, trivial⟩,
    ⟨hinsert, by decide⟩, ⟨hborrow, fun x hx => by cases hx; decide⟩, trivial⟩)
  exact ⟨rfl, rfl, rfl, hmap.1, hmap.2 _ ⟨hborrow, trivial⟩⟩

/-- The slot that was cleared is neither live nor free, and the handle whose index is negative is not found missing. -/
theorem table_not_map :
    ¬ ([Op.insert 7 5, .clear].foldl (step fun _ : Nat => true) {}).Sound (fun _ => true) ∧
      ¬ ([Op.insert 7 5].foldl (step fun _ : Nat => true) {}).Follows (fun _ => true) (.get 9223372036854775809) := by
  constructor
  · intro hs
    cases (hs.slots 0 _ rfl).mp rfl
  · intro hf
    cases congrArg Prod.snd hf.map

end Table
end Wippy.Resource
