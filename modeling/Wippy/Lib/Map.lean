import Mathlib.Data.List.AList

/-! Finite maps: Mathlib's association lists with distinct keys, at a constant value type. -/

namespace Lib
open List

abbrev Map (κ α : Type) := AList fun _ : κ => α

namespace Map
variable {κ α β ι : Type} [DecidableEq κ] (m : Map κ α) (p : κ → α → Bool) (k : κ) (f : κ → α → β)
  (l : List (Sigma fun _ : κ => α))

theorem lookup_insert_eq (k k' : κ) (v : α) : (m.insert k v).lookup k' = if k' = k then some v else m.lookup k' := by
  by_cases h : k' = k
  · subst h
    simp
  · rw [if_neg h, AList.lookup_insert_ne h]

theorem lookup_erase_eq (k k' : κ) : (m.erase k).lookup k' = if k' = k then none else m.lookup k' := by
  by_cases h : k' = k
  · subst h
    simp
  · rw [if_neg h, AList.lookup_erase_ne h]

section
variable {m : Map κ α} {k k' : κ} {v w : α}

theorem lookup_insert_some (h : (m.insert k v).lookup k' = some w) :
    k' = k ∧ w = v ∨ k' ≠ k ∧ m.lookup k' = some w := by
  rw [lookup_insert_eq] at h
  split at h
  next hk => exact .inl ⟨hk, (Option.some.inj h).symm⟩
  next hk => exact .inr ⟨hk, h⟩

theorem lookup_erase_some : (m.erase k).lookup k' = some w ↔ m.lookup k' = some w ∧ k' ≠ k := by
  rw [lookup_erase_eq]
  by_cases hk : k' = k <;> simp [hk]

theorem mem_entries : (⟨k, v⟩ : Sigma fun _ : κ => α) ∈ m.entries ↔ m.lookup k = some v :=
  AList.mem_lookup_iff.symm

theorem lookup_of_isEmpty (h : m.entries.isEmpty = true) (k : κ) : m.lookup k = none := by
  refine Option.eq_none_iff_forall_ne_some.mpr fun v hv => ?_
  have hmem := mem_entries.mpr hv
  rw [List.isEmpty_iff.mp h] at hmem
  cases hmem

def values (m : Map κ α) : List α := m.entries.map (·.2)

theorem mem_values : v ∈ m.values ↔ ∃ k, m.lookup k = some v := by
  unfold values
  rw [mem_map]
  constructor
  · rintro ⟨⟨k, w⟩, hx, rfl⟩
    exact ⟨k, mem_entries.mp hx⟩
  · rintro ⟨k, hk⟩
    exact ⟨⟨k, v⟩, mem_entries.mpr hk, rfl⟩

end

theorem isSome_lookup_and_ne_nil : ((m.lookup k).isSome && !m.entries.isEmpty) = (m.lookup k).isSome := by
  cases h : m.lookup k with
  | none => rfl
  | some v =>
    have hne : m.entries ≠ [] := ne_nil_of_mem (mem_entries.mpr h)
    simp [hne]

/-- The keys of a map in the order `order`, or in its own order when `order` does not list them. -/
def keysIn (m : Map κ α) (order : List κ) : List κ := if order.isPerm m.keys then order else m.keys

theorem keysIn_perm (order : List κ) : (m.keysIn order).Perm m.keys := by
  unfold keysIn
  split
  next h =>
    exact isPerm_iff.mp h
  · exact List.Perm.refl _

theorem mem_keysIn {m : Map κ α} {order : List κ} {k : κ} : k ∈ m.keysIn order ↔ k ∈ m :=
  (m.keysIn_perm order).mem_iff

theorem keysIn_nodup (order : List κ) : (m.keysIn order).Nodup :=
  (m.keysIn_perm order).nodup_iff.mpr m.keys_nodup

omit [DecidableEq κ] in
theorem nodup_map_filterMap {f : κ → Option β} {key : β → κ} (h : ∀ k b, f k = some b → key b = k) {l : List κ}
    (hl : l.Nodup) : ((l.filterMap f).map key).Nodup := by
  rw [map_filterMap]
  refine hl.filterMap fun k k' x hx hx' => ?_
  obtain ⟨b, hb, rfl⟩ := Option.map_eq_some_iff.mp hx
  obtain ⟨b', hb', heq⟩ := Option.map_eq_some_iff.mp hx'
  rw [← h k b hb, ← h k' b' hb', heq]

/-! ### Images and restrictions -/

omit [DecidableEq κ] in
theorem keys_map_entries : (l.map fun x => (⟨x.1, f x.1 x.2⟩ : Sigma fun _ : κ => β)).keys = l.keys := by
  simp [keys, Function.comp_def]

def mapVal (m : Map κ α) (f : κ → α → β) : Map κ β where
  entries := m.entries.map fun x => ⟨x.1, f x.1 x.2⟩
  nodupKeys := by
    unfold List.NodupKeys
    rw [keys_map_entries]
    exact m.nodupKeys

theorem lookup_mapVal (k : κ) : (m.mapVal f).lookup k = (m.lookup k).map (f k) := by
  have iff : ∀ w, (m.mapVal f).lookup k = some w ↔ (m.lookup k).map (f k) = some w := by
    intro w
    rw [← mem_entries, Option.map_eq_some_iff]
    unfold mapVal
    rw [mem_map]
    constructor
    · rintro ⟨⟨k', v⟩, hx, heq⟩
      cases heq
      exact ⟨v, mem_entries.mp hx, rfl⟩
    · rintro ⟨v, hv, rfl⟩
      exact ⟨⟨k, v⟩, mem_entries.mpr hv, rfl⟩
  exact Option.ext iff

def keep (m : Map κ α) (p : κ → α → Bool) : Map κ α where
  entries := m.entries.filter fun x => p x.1 x.2
  nodupKeys := m.nodupKeys.sublist filter_sublist

theorem lookup_keep : (m.keep p).lookup k = (m.lookup k).filter (p k) := by
  have iff : ∀ w, (m.keep p).lookup k = some w ↔ (m.lookup k).filter (p k) = some w := by
    intro w
    rw [← mem_entries, Option.filter_eq_some_iff, ← mem_entries]
    exact mem_filter
  exact Option.ext iff

theorem lookup_keep_of_forall {m : Map κ α} {p : κ → α → Bool} {k : κ} (h : ∀ v, m.lookup k = some v → p k v = true) :
    (m.keep p).lookup k = m.lookup k := by
  rw [lookup_keep]
  cases hk : m.lookup k with
  | none => rfl
  | some v => rw [Option.filter_some, if_pos (h v hk)]

/-! ### Writing a list of items under their keys -/

theorem lookup_foldl_insert_notMem (key : ι → κ) (val : ι → α) (l : List ι) (m : Map κ α) {k : κ} (hk : k ∉ l.map key) :
    (l.foldl (fun m x => m.insert (key x) (val x)) m).lookup k = m.lookup k := by
  induction l generalizing m with
  | nil => rfl
  | cons x l ih =>
    rw [map_cons, mem_cons, not_or] at hk
    rw [foldl_cons, ih _ hk.2, lookup_insert_eq, if_neg hk.1]

theorem lookup_foldl_insert_mem (key : ι → κ) (val : ι → α) {l : List ι} (hl : (l.map key).Nodup) (m : Map κ α)
    {x : ι} (hx : x ∈ l) : (l.foldl (fun m x => m.insert (key x) (val x)) m).lookup (key x) = some (val x) := by
  induction l generalizing m with
  | nil => cases hx
  | cons y l ih =>
    obtain ⟨hy, hl⟩ := nodup_cons.mp hl
    rw [foldl_cons]
    rcases mem_cons.mp hx with rfl | hx
    · rw [lookup_foldl_insert_notMem key val l _ hy, AList.lookup_insert]
    · exact ih hl _ hx

theorem lookup_foldl_insert_const (ks : List κ) (v : α) (m : Map κ α) (k : κ) :
    (ks.foldl (fun m k => m.insert k v) m).lookup k = if k ∈ ks then some v else m.lookup k := by
  induction ks generalizing m with
  | nil => rfl
  | cons x ks ih =>
    rw [foldl_cons, ih, lookup_insert_eq]
    by_cases h : k = x <;> simp [h]

theorem lookup_foldl_erase (key : ι → κ) (l : List ι) (m : Map κ α) (k : κ) :
    (l.foldl (fun m x => m.erase (key x)) m).lookup k = if k ∈ l.map key then none else m.lookup k := by
  induction l generalizing m with
  | nil => rfl
  | cons x l ih =>
    rw [foldl_cons, ih, lookup_erase_eq]
    by_cases h : k = key x <;> simp [h]

def count (m : Map κ α) (p : κ → α → Bool) : Nat := m.entries.countP fun x => p x.1 x.2

theorem countP_kerase :
    (l.kerase k).countP (fun x => p x.1 x.2) + (if (l.dlookup k).any (p k) then 1 else 0) =
      l.countP fun x => p x.1 x.2 := by
  induction l with
  | nil => rfl
  | cons x l ih =>
    obtain ⟨k', v⟩ := x
    by_cases hk : k = k'
    · subst hk
      have herase : (⟨k, v⟩ :: l).kerase k = l := kerase_cons_eq rfl
      rw [herase, dlookup_cons_eq, countP_cons, Option.any_some]
    · rw [kerase_cons_ne hk, dlookup_cons_ne _ _ hk, countP_cons, countP_cons]
      omega

theorem count_insert (v : α) :
    count (m.insert k v) p + (if (m.lookup k).any (p k) then 1 else 0) = m.count p + (if p k v then 1 else 0) := by
  have herase := countP_kerase p k m.entries
  unfold count
  rw [AList.entries_insert, countP_cons]
  unfold AList.lookup
  dsimp only
  omega

omit [DecidableEq κ] in
theorem count_mapVal (p : κ → β → Bool) : (m.mapVal f).count p = m.count fun k v => p k (f k v) := by
  unfold count mapVal
  rw [countP_map]
  rfl

omit [DecidableEq κ] in
theorem count_keep (p q : κ → α → Bool) : (m.keep q).count p = m.count fun k v => p k v && q k v := by
  unfold count keep
  rw [countP_filter]

theorem count_congr {m : Map κ α} {p q : κ → α → Bool} (h : ∀ k v, m.lookup k = some v → p k v = q k v) :
    m.count p = m.count q :=
  countP_congr fun x hx => by rw [h x.1 x.2 (mem_entries.mp hx)]

omit [DecidableEq κ] in
theorem count_split (p q : κ → α → Bool) :
    m.count p = m.count (fun k v => p k v && q k v) + m.count fun k v => p k v && !q k v := by
  unfold count
  induction m.entries with
  | nil => rfl
  | cons x l ih =>
    simp only [countP_cons]
    rw [ih]
    cases p x.1 x.2 <;> cases q x.1 x.2 <;> simp <;> omega

theorem count_key (p : α → Bool) :
    m.count (fun k' v => p v && decide (k' = k)) = if (m.lookup k).any p then 1 else 0 := by
  have herase := countP_kerase (fun k' v => p v && decide (k' = k)) k m.entries
  have hnone : (m.entries.kerase k).countP (fun x => p x.2 && decide (x.1 = k)) = 0 := by
    refine countP_eq_zero.mpr fun x hx => ?_
    have hkey : x.1 ∈ (m.entries.kerase k).keys := mem_keys_of_mem hx
    have hne : x.1 ≠ k := fun heq => notMem_keys_kerase k m.nodupKeys (heq ▸ hkey)
    simp [hne]
  rw [hnone] at herase
  simp only [decide_true, Bool.and_true, Nat.zero_add] at herase
  exact herase.symm

/-- Elements listed from the values, where each value contributes at most one with the property. -/
theorem countP_flatMap_values {m : Map κ β} {f : β → List α} {p : α → Bool} {q : κ → β → Bool}
    (h : ∀ k v, m.lookup k = some v → (f v).countP p = if q k v then 1 else 0) :
    (m.values.flatMap f).countP p = m.count q := by
  have hentries : ∀ x ∈ m.entries, (f x.2).countP p = if q x.1 x.2 then 1 else 0 := fun x hx =>
    h x.1 x.2 (mem_entries.mp hx)
  unfold values count
  generalize m.entries = l at hentries
  induction l with
  | nil => rfl
  | cons x l ih =>
    rw [map_cons, flatMap_cons, countP_append, countP_cons, hentries x (by simp),
      ih fun y hy => hentries y (by simp [hy])]
    omega

end Map

abbrev KeySet (κ : Type) := Map κ Unit

namespace KeySet
variable {κ : Type} [DecidableEq κ]

def add (m : KeySet κ) (k : κ) : KeySet κ := m.insert k ()

@[simp] theorem mem_add {m : KeySet κ} {k k' : κ} : k' ∈ m.add k ↔ k' = k ∨ k' ∈ m := AList.mem_insert m

omit [DecidableEq κ] in
@[simp] theorem notMem_empty (k : κ) : k ∉ (∅ : KeySet κ) := AList.notMem_empty k

end KeySet
end Lib
