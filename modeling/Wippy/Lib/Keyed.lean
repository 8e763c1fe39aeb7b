import Mathlib.Data.List.Nodup
import Mathlib.Data.List.Perm.Basic

/-! Finite maps whose values carry their own key: a list of records no two of which have the same key. -/

namespace Lib
open List

structure Keyed {κ α : Type} (key : α → κ) where
  entries : List α
  distinct : (entries.map key).Nodup

namespace Keyed
variable {κ α : Type} {key : α → κ} {m : Keyed key} {k : κ} {a : α} {l : List α}

theorem distinct_filter (m : Keyed key) (p : α → Bool) : ((m.entries.filter p).map key).Nodup :=
  m.distinct.sublist (filter_sublist.map key)

variable [DecidableEq κ]

def empty : Keyed key := ⟨[], nodup_nil⟩

def get (m : Keyed key) (k : κ) : Option α := m.entries.find? fun a => decide (key a = k)

def del (m : Keyed key) (k : κ) : Keyed key :=
  ⟨m.entries.filter fun a => decide (key a ≠ k), m.distinct_filter _⟩

theorem distinct_put (m : Keyed key) (a : α) :
    (((m.entries.filter fun b => decide (key b ≠ key a)) ++ [a]).map key).Nodup := by
  rw [map_append, nodup_append]
  refine ⟨m.distinct_filter _, by simp, ?_⟩
  rintro x hx y hy rfl
  obtain ⟨b, hb, rfl⟩ := mem_map.mp hx
  have hne : key b ≠ key a := by simpa using (mem_filter.mp hb).2
  exact hne (by simpa using hy)

def put (m : Keyed key) (a : α) : Keyed key := ⟨_, m.distinct_put a⟩

def ofList (l : List α) : Keyed key := l.foldl put empty

theorem get_eq_some : m.get k = some a ↔ a ∈ m.entries ∧ key a = k := by
  unfold get
  constructor
  · intro h
    exact ⟨mem_of_find?_eq_some h, by simpa using find?_some h⟩
  · rintro ⟨ha, rfl⟩
    cases hf : m.entries.find? fun b => decide (key b = key a) with
    | none => exact absurd (find?_eq_none.mp hf a ha) (by simp)
    | some b =>
      have hkey : key b = key a := by simpa using find?_some hf
      exact congrArg some (inj_on_of_nodup_map m.distinct (mem_of_find?_eq_some hf) ha hkey)

theorem get_eq_none : m.get k = none ↔ ∀ a ∈ m.entries, key a ≠ k := by
  unfold get
  simp

theorem key_of_get (h : m.get k = some a) : key a = k := (get_eq_some.mp h).2

theorem get_of_mem (h : a ∈ m.entries) : m.get (key a) = some a := get_eq_some.mpr ⟨h, rfl⟩

@[simp] theorem get_empty (k : κ) : (empty : Keyed key).get k = none := rfl

theorem get_del (m : Keyed key) (k k' : κ) : (m.del k).get k' = if k' = k then none else m.get k' := by
  by_cases h : k' = k
  · subst h
    rw [if_pos rfl, get_eq_none]
    intro a ha
    simpa using (mem_filter.mp ha).2
  · rw [if_neg h]
    apply Option.ext
    intro a
    rw [get_eq_some, get_eq_some, del, mem_filter]
    constructor
    · rintro ⟨⟨ha, -⟩, hk⟩
      exact ⟨ha, hk⟩
    · rintro ⟨ha, hk⟩
      exact ⟨⟨ha, by simpa [hk] using h⟩, hk⟩

theorem get_put (m : Keyed key) (a : α) (k : κ) : (m.put a).get k = if k = key a then some a else m.get k := by
  by_cases h : k = key a
  · rw [if_pos h, get_eq_some]
    exact ⟨by simp [put], h.symm⟩
  rw [if_neg h]
  apply Option.ext
  intro b
  rw [get_eq_some, get_eq_some, put, mem_append, mem_filter, mem_singleton]
  constructor
  · rintro ⟨⟨hb, -⟩ | rfl, hk⟩
    · exact ⟨hb, hk⟩
    · exact absurd hk.symm h
  · rintro ⟨hb, hk⟩
    exact ⟨.inl ⟨hb, by simpa [hk] using h⟩, hk⟩

theorem get_foldl_put (l : List α) (m : Keyed key) (k : κ) :
    (l.foldl put m).get k = (l.reverse.find? fun a => decide (key a = k)).or (m.get k) := by
  induction l generalizing m with
  | nil => rfl
  | cons a l ih =>
    rw [foldl_cons, ih, get_put, reverse_cons, find?_append, Option.or_assoc]
    by_cases h : key a = k
    · rw [if_pos h.symm, find?_cons_of_pos (by simpa using h), Option.some_or]
    · rw [if_neg (Ne.symm h), find?_cons_of_neg (by simpa using h), find?_nil, Option.none_or]

theorem get_ofList_eq (l : List α) (k : κ) :
    (ofList l : Keyed key).get k = l.reverse.find? fun a => decide (key a = k) := by
  rw [ofList, get_foldl_put, get_empty, Option.or_none]

theorem get_ofList_cons (a : α) (l : List α) (k : κ) : (ofList (a :: l) : Keyed key).get k =
    ((ofList l : Keyed key).get k).or (if key a = k then some a else none) := by
  rw [get_ofList_eq, get_ofList_eq, reverse_cons, find?_append]
  by_cases h : key a = k <;> simp [h]

theorem mem_of_get_ofList (h : (ofList l : Keyed key).get k = some a) : a ∈ l ∧ key a = k := by
  rw [get_ofList_eq] at h
  exact ⟨mem_reverse.mp (mem_of_find?_eq_some h), by simpa using find?_some h⟩

theorem get_ofList (h : (l.map key).Nodup) : (ofList l : Keyed key).get k = some a ↔ a ∈ l ∧ key a = k := by
  have hrev : (l.reverse.map key).Nodup := by
    rw [map_reverse]
    exact nodup_reverse.mpr h
  have hget := get_eq_some (m := ⟨l.reverse, hrev⟩) (k := k) (a := a)
  rw [mem_reverse] at hget
  rw [get_ofList_eq]
  exact hget

theorem entries_ofList_perm (h : (l.map key).Nodup) : (ofList l : Keyed key).entries.Perm l := by
  rw [perm_ext_iff_of_nodup (ofList l : Keyed key).distinct.of_map h.of_map]
  intro a
  have hget : (ofList l : Keyed key).get (key a) = some a ↔ _ := get_ofList h
  rw [get_eq_some] at hget
  simpa using hget

theorem get_foldl_del (ks : List κ) (m : Keyed key) (k : κ) :
    (ks.foldl del m).get k = if ks.contains k then none else m.get k := by
  induction ks generalizing m with
  | nil => rfl
  | cons k' ks ih =>
    rw [foldl_cons, ih, get_del]
    by_cases h : k = k'
    · simp [h]
    · simp [h]

theorem perm_of_get {m m' : Keyed key} (h : ∀ k, m.get k = m'.get k) : m.entries.Perm m'.entries := by
  rw [perm_ext_iff_of_nodup m.distinct.of_map m'.distinct.of_map]
  intro a
  constructor <;> intro ha
  · exact (get_eq_some.mp (h (key a) ▸ get_of_mem ha)).1
  · exact (get_eq_some.mp ((h (key a)).symm ▸ get_of_mem ha)).1

end Keyed
end Lib
