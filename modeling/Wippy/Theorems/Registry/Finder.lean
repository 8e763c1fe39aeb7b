import Wippy.Registry.Finder

/-! The cache of the finder is transparent as far as the keys of its results tell queries apart: hashes of keys and
    values without marks between them. -/

namespace Wippy.Registry.Finder
open Lib List Option

variable {O R : Type} {go : Foreign O R} {entries : List (Entry O)} {query : Query O}

/-- An entry meets a criterion. One that `Find` drops (a key or a value that it cannot use, or a pattern that does
    not compile) counts as met. -/
def satisfies (go : Foreign O R) (entry : Entry O) (key : Bytes) (value : Value O) : Bool :=
  match parseKey key, value with
  | some (.root, field), value => matchRoot entry field value
  | some (.regex, field), .str pattern => (go.compile pattern).elim true (matchRegex go entry field)
  | some (.contains, field), .str s => matchContains (entry.metadata.lookup field) s
  | some (.startsWith, field), .str s => matchAffix List.isPrefixOf entry field s
  | some (.endsWith, field), .str s => matchAffix List.isSuffixOf entry field s
  | some (.standard, field), value => decide (matchStandard go entry field value = some true)
  | _, _ => true

/-- The entries that meet all criteria. -/
def matching (go : Foreign O R) (query : Query O) (entries : List (Entry O)) : List (Entry O) :=
  entries.filter fun entry => query.entries.all fun c => satisfies go entry c.1 c.2

/-- The cached patterns are compiled. -/
def RegexSound (go : Foreign O R) (cache : Lru Bytes R) : Prop := ∀ item ∈ cache.items, go.compile item.1 = some item.2

/-- An entry passes all matchers. -/
def meets (go : Foreign O R) (entry : Entry O) (m : Matchers O R) : Bool :=
  (m.rootMatchers.all fun c => matchRoot entry c.1 c.2) && (m.regexMatchers.all fun c => matchRegex go entry c.1 c.2) &&
    (m.containsMatchers.all fun c => matchContains (entry.metadata.lookup c.1) c.2) &&
    (m.prefixMatchers.all fun c => matchAffix List.isPrefixOf entry c.1 c.2) &&
    (m.suffixMatchers.all fun c => matchAffix List.isSuffixOf entry c.1 c.2) &&
    m.standardMeta.all fun c => decide (matchStandard go entry c.1 c.2 = some true)

section Matchers
variable {entry : Entry O} {key : Bytes} {value : Value O} {m : Matchers O R} {cache cache' : Lru Bytes R}

theorem regexSound_new (go : Foreign O R) (capacity : Nat) : RegexSound go (.new capacity) :=
  by simp [RegexSound, Lru.new]

theorem compileCached_eq (h : RegexSound go cache) (pattern : Bytes) :
    ∃ left, compileCached go cache pattern = (go.compile pattern, left) ∧ RegexSound go left := by
  unfold compileCached
  have hget : RegexSound go (cache.get pattern).2 := fun item hitem => h item (Lru.mem_items_get hitem)
  cases hcached : cache.get pattern with
  | mk found left =>
    rw [hcached] at hget
    cases found with
    | some regex =>
      have hmem : (pattern, regex) ∈ cache.items := Lru.mem_of_get (by rw [hcached])
      exact ⟨left, by rw [h _ hmem], hget⟩
    | none =>
      cases hcompile : go.compile pattern with
      | none => exact ⟨left, rfl, hget⟩
      | some regex =>
        refine ⟨_, rfl, fun item hitem => ?_⟩
        rcases Lru.mem_items_set hitem with rfl | hitem
        · exact hcompile
        · exact hget item hitem

theorem addCriterion_spec (h : RegexSound go cache) (h' : RegexSound go cache') (key : Bytes) (value : Value O)
    (m : Matchers O R) :
    RegexSound go (addCriterion go key value m cache).2 ∧
    (addCriterion go key value m cache).1 = (addCriterion go key value m cache').1 ∧
    ∀ entry, meets go entry (addCriterion go key value m cache).1 =
      (meets go entry m && satisfies go entry key value) := by
  unfold addCriterion satisfies
  obtain hkey | ⟨op, field, hkey⟩ : parseKey key = none ∨ ∃ op field, parseKey key = some (op, field) := by
    cases parseKey key with
    | none => exact .inl rfl
    | some pair => exact .inr ⟨pair.1, pair.2, rfl⟩
  · simp [hkey, h]
  rw [hkey]
  cases op with
  | root => exact ⟨h, rfl, fun entry => by simp [meets]; ac_rfl⟩
  | standard => exact ⟨h, rfl, fun entry => by simp [meets]; ac_rfl⟩
  | regex =>
    cases value with
    | str pattern =>
      obtain ⟨left, hout, hsound⟩ := compileCached_eq h pattern
      obtain ⟨left', hout', -⟩ := compileCached_eq h' pattern
      dsimp only
      rw [hout, hout']
      cases go.compile pattern with
      | none => exact ⟨hsound, rfl, fun entry => by simp⟩
      | some regex => exact ⟨hsound, rfl, fun entry => by simp [meets]; ac_rfl⟩
    | _ => exact ⟨h, rfl, fun entry => by simp⟩
  | _ =>
    cases value with
    | str s => exact ⟨h, rfl, fun entry => by simp [meets]; ac_rfl⟩
    | _ => exact ⟨h, rfl, fun entry => by simp⟩

theorem addCriteria_spec (criteria : List (Sigma fun _ : Bytes => Value O)) (h : RegexSound go cache)
    (h' : RegexSound go cache') (m : Matchers O R) :
    RegexSound go (addCriteria go criteria m cache).2 ∧
    (addCriteria go criteria m cache).1 = (addCriteria go criteria m cache').1 ∧
    ∀ entry, meets go entry (addCriteria go criteria m cache).1 =
      (meets go entry m && criteria.all fun c => satisfies go entry c.1 c.2) := by
  induction criteria generalizing m cache cache' with
  | nil => exact ⟨h, rfl, fun entry => by simp [addCriteria]⟩
  | cons c criteria ih =>
    obtain ⟨hsound, hsame, hmeets⟩ := addCriterion_spec h h' c.1 c.2 m
    obtain ⟨hsound', -, -⟩ := addCriterion_spec h' h c.1 c.2 m
    obtain ⟨hrest, hsameRest, hmeetsRest⟩ := ih hsound hsound' (addCriterion go c.1 c.2 m cache).1
    refine ⟨hrest, ?_, fun entry => ?_⟩
    · unfold addCriteria
      rw [hsameRest, hsame]
    · unfold addCriteria
      rw [hmeetsRest, hmeets, all_cons, Bool.and_assoc]

theorem matchesStandardMeta_eq_some {standard : List (Bytes × Value O)} {b : Bool}
    (h : matchesStandardMeta go entry standard = some b) :
    b = standard.all fun c => decide (matchStandard go entry c.1 c.2 = some true) := by
  induction standard with
  | nil => exact (Option.some.inj h).symm
  | cons c standard ih =>
    unfold matchesStandardMeta at h
    split at h
    next hmatch =>
      rw [ih h, all_cons, hmatch]
      simp
    rename_i hmatch
    rw [h] at hmatch
    cases b with
    | true => exact absurd rfl hmatch
    | false => simp [h]

theorem matchesAllCriteria_eq_some {b : Bool} (h : matchesAllCriteria go entry m = some b) : b = meets go entry m := by
  unfold matchesAllCriteria at h
  unfold meets
  split at h
  · simp_all
  split at h
  · simp_all
  split at h
  · simp_all
  split at h
  · simp_all
  split at h
  · simp_all
  rw [← matchesStandardMeta_eq_some h]
  simp_all

theorem filterEntries_eq_some {entries result : List (Entry O)} (h : filterEntries go m entries = some result) :
    result = entries.filter fun entry => meets go entry m := by
  induction entries generalizing result with
  | nil => exact (Option.some.inj h).symm
  | cons entry entries ih =>
    unfold filterEntries at h
    split at h
    · cases h
    next hmatch =>
      obtain ⟨rest, hrest, rfl⟩ := map_eq_some_iff.mp h
      rw [filter_cons, ← matchesAllCriteria_eq_some hmatch, if_pos rfl, ih hrest]
    next hmatch =>
      rw [filter_cons, ← matchesAllCriteria_eq_some hmatch, if_neg (by simp), ih h]

end Matchers

/-- A search panics: it compares two values that cannot be compared. The criteria are taken in the order of the
    query; Go ranges over them in any order, so that a call may panic in one run and not in another. -/
def Panics (go : Foreign O R) (query : Query O) (entries : List (Entry O)) : Prop :=
  filterEntries go (addCriteria go query.entries {} (.new 0)).1 entries = none

open Classical in
theorem filterEntries_addCriteria {cache : Lru Bytes R} (h : RegexSound go cache) (query : Query O)
    (entries : List (Entry O)) : filterEntries go (addCriteria go query.entries {} cache).1 entries =
      if Panics go query entries then none else some (matching go query entries) := by
  obtain ⟨-, hsame, hmeets⟩ := addCriteria_spec query.entries h (regexSound_new go 0) {}
  unfold Panics
  rw [← hsame]
  cases hfilter : filterEntries go (addCriteria go query.entries {} cache).1 entries with
  | none => rw [if_pos rfl]
  | some result =>
    rw [filterEntries_eq_some hfilter, if_neg (some_ne_none _), matching]
    congr 2
    funext entry
    rw [hmeets]
    simp [meets]

/-- The registry changes, or is searched. -/
inductive Event (O : Type)
  | change (entries : List (Entry O))
  | find (query : Query O)

/-- An answer, with the state and the query that it is for. -/
structure Answer (O : Type) where
  entries : List (Entry O)
  query : Query O
  result : Option (List (Entry O))

/-- The finder, the registry that it reads, and the answers given. -/
structure System (O R : Type) where
  reader : Reader O
  finder : MemoryFinder O R
  answers : List (Answer O) := []

/-- One event. -/
def System.step (go : Foreign O R) (s : System O R) : Event O → System O R
  | .change entries => { s with reader := ⟨s.reader.revision + 1, entries⟩ }
  | .find query =>
    let out := find go s.finder s.reader query
    { s with finder := out.2, answers := ⟨s.reader.entries, query, out.1⟩ :: s.answers }

/-- Every answer is what a scan gives. -/
def System.Transparent (go : Foreign O R) (s : System O R) : Prop :=
  ∀ a ∈ s.answers, a.result = some (matching go a.query a.entries)

/-- The event is about one of the states and queries. -/
def Event.Drawn (states : List (Entry O) → Prop) (queries : Query O → Prop) : Event O → Prop
  | .change entries => states entries
  | .find query => queries query

/-- Queries with one encoding match the same entries, and no search panics. -/
def ToldApart (go : Foreign O R) (states : List (Entry O) → Prop) (queries : Query O → Prop) : Prop :=
  ∀ entries, states entries → ∀ query, queries query → ¬ Panics go query entries ∧
    ∀ query', queries query' → encode go query = encode go query' →
      matching go query entries = matching go query' entries

section Runs
variable {states : List (Entry O) → Prop} {queries : Query O → Prop} {s : System O R} {event : Event O}

/-- The invariant of the caches. -/
structure Sound (go : Foreign O R) (states : List (Entry O) → Prop) (queries : Query O → Prop) (s : System O R) :
    Prop where
  state : states s.reader.entries
  regex : RegexSound go s.finder.regexCache
  past : ∀ item ∈ s.finder.queryCache.items, item.1.1 ≤ s.reader.revision
  cached : ∀ item ∈ s.finder.queryCache.items, item.1.1 = s.reader.revision → ∃ query, queries query ∧
    item.1.2 = hashMetadata go query ∧ item.2 = matching go query s.reader.entries
  transparent : s.Transparent go

theorem invalidate_frame (f : MemoryFinder O R) (revision : Nat) :
    (invalidate f revision).regexCache = f.regexCache ∧
      ∀ item ∈ (invalidate f revision).queryCache.items, item ∈ f.queryCache.items := by
  unfold invalidate
  split
  · split
    · exact ⟨rfl, fun item hitem => by simp [Lru.new] at hitem⟩
    · exact ⟨rfl, fun item hitem => hitem⟩
  · exact ⟨rfl, fun item hitem => hitem⟩

/-- The hash tells the encodings apart. -/
def Collisionless (go : Foreign O R) (queries : Query O → Prop) : Prop :=
  ∀ query query', queries query → queries query' → hashMetadata go query = hashMetadata go query' →
    encode go query = encode go query'

section
variable (h : Sound go states queries s) (happart : ToldApart go states queries) (hcollision : Collisionless go queries)
include h happart hcollision

theorem Sound.find_spec
    (hquery : queries query) :
    ∃ f, find go s.finder s.reader query = (some (matching go query s.reader.entries), f) ∧ RegexSound go f.regexCache ∧
      ∀ item ∈ f.queryCache.items, item ∈ s.finder.queryCache.items ∨
        item = ((s.reader.revision, hashMetadata go query), matching go query s.reader.entries) := by
  obtain ⟨hregex, hitems⟩ := invalidate_frame s.finder s.reader.revision
  unfold find
  dsimp only
  have hleft : ∀ item ∈ ((invalidate s.finder s.reader.revision).queryCache.get
      (s.reader.revision, hashMetadata go query)).2.items, item ∈ s.finder.queryCache.items :=
    fun item hitem => hitems item (Lru.mem_items_get hitem)
  cases hget : (invalidate s.finder s.reader.revision).queryCache.get (s.reader.revision, hashMetadata go query) with
  | mk found cache =>
    rw [hget] at hleft
    cases found with
    | some entries =>
      -- A hit: the item was stored for a query with the same hash, so with the same encoding.
      have hmem := hitems _ (Lru.mem_of_get (c := (invalidate s.finder s.reader.revision).queryCache)
        (k := (s.reader.revision, hashMetadata go query)) (v := entries) (by rw [hget]))
      obtain ⟨query', hquery', hhash, rfl⟩ := h.cached _ hmem rfl
      have hencoded := hcollision query query' hquery hquery' hhash
      refine ⟨{ invalidate s.finder s.reader.revision with queryCache := cache }, ?_, hregex ▸ h.regex,
        fun item hitem => .inl (hleft item hitem)⟩
      rw [(happart _ h.state query hquery).2 query' hquery' hencoded]
    | none =>
      have hsound : RegexSound go (invalidate s.finder s.reader.revision).regexCache := hregex ▸ h.regex
      unfold search
      dsimp only
      rw [filterEntries_addCriteria hsound, if_neg (happart _ h.state query hquery).1]
      refine ⟨_, rfl, (addCriteria_spec query.entries hsound hsound {}).1, fun item hitem => ?_⟩
      rcases Lru.mem_items_set hitem with rfl | hitem
      · exact .inr rfl
      · exact .inl (hleft item hitem)

theorem Sound.step (hdrawn : event.Drawn states queries) : Sound go states queries (s.step go event) := by
  cases event with
  | change entries =>
    refine ⟨hdrawn, h.regex, fun item hitem => Nat.le_succ_of_le (h.past item hitem), fun item hitem heq => ?_,
      h.transparent⟩
    exact absurd heq (Nat.ne_of_lt (Nat.lt_succ_of_le (h.past item hitem)))
  | find query =>
    obtain ⟨f, hfind, hregex, hitems⟩ := h.find_spec happart hcollision hdrawn
    unfold System.step
    dsimp only
    rw [hfind]
    refine ⟨h.state, hregex, fun item hitem => ?_, fun item hitem heq => ?_, fun a ha => ?_⟩
    · rcases hitems item hitem with hitem | rfl
      · exact h.past item hitem
      · exact Nat.le_refl _
    · rcases hitems item hitem with hitem | rfl
      · exact h.cached item hitem heq
      · exact ⟨query, hdrawn, rfl, rfl⟩
    · rcases mem_cons.mp ha with rfl | ha
      · rfl
      · exact h.transparent a ha

end

/-- The start, with two empty caches. -/
def System.start (revision : Nat) (entries : List (Entry O)) (qSize rSize : Nat) : System O R where
  reader := ⟨revision, entries⟩
  finder := newFinder qSize rSize

theorem sound_start {revision qSize rSize : Nat} (h : states entries) :
    Sound go states queries (System.start revision entries qSize rSize) :=
  ⟨h, regexSound_new go _, by simp [System.start, newFinder, Lru.new], by simp [System.start, newFinder, Lru.new],
    by simp [System.Transparent, System.start]⟩

theorem find_newFinder (revision qSize rSize : Nat) (hpanics : ¬ Panics go query entries) :
    ∃ (f : MemoryFinder O R) (c : Lru (Nat × UInt64) (List (Entry O))),
      find go (newFinder qSize rSize) ⟨revision, entries⟩ query =
        (some (matching go query entries), f) ∧ invalidate f revision = f ∧ 1 ≤ c.capacity ∧
      f.queryCache = c.set (revision, hashMetadata go query) (matching go query entries) := by
  have hstart : ∃ last, invalidate (newFinder qSize rSize : MemoryFinder O R) revision =
      { newFinder qSize rSize with lastRevision := last } ∧ (revision = last ∨ revision = 0) := by
    unfold invalidate
    split
    · exact ⟨revision, rfl, .inl rfl⟩
    next hnot =>
      exact ⟨0, rfl, .inr (by simpa [newFinder] using hnot)⟩
  obtain ⟨last, heq, hlast⟩ := hstart
  have hregex : RegexSound go (newFinder qSize rSize : MemoryFinder O R).regexCache := regexSound_new go _
  unfold find
  rw [heq]
  unfold search
  dsimp only [newFinder, Lru.new, Lru.get, find?_nil] at hregex ⊢
  rw [filterEntries_addCriteria hregex, if_neg hpanics]
  refine ⟨_, .new qSize, rfl, ?_, Nat.le_max_left 1 qSize, rfl⟩
  unfold invalidate
  rw [if_neg]
  dsimp only
  omega

theorem find_newFinder_of_panics (revision qSize rSize : Nat) (hpanics : Panics go query entries) :
    (find go (newFinder qSize rSize) ⟨revision, entries⟩ query).1 = none := by
  obtain ⟨hregex, hitems⟩ := invalidate_frame (newFinder qSize rSize) revision
  have hempty : (invalidate (newFinder qSize rSize : MemoryFinder O R) revision).queryCache.items = [] :=
    eq_nil_iff_forall_not_mem.mpr fun item hitem => by simpa [newFinder, Lru.new] using hitems item hitem
  have hsound : RegexSound go (invalidate (newFinder qSize rSize : MemoryFinder O R) revision).regexCache :=
    hregex ▸ regexSound_new go _
  unfold find
  dsimp only [Lru.get]
  rw [hempty]
  dsimp only [find?_nil]
  unfold search
  dsimp only
  rw [filterEntries_addCriteria hsound, if_pos hpanics]

/-- Two queries asked one after the other of a new finder: the second gets the first's result when they have one
    hash. -/
theorem find_twice (entries : List (Entry O)) (revision qSize rSize : Nat) {query query' : Query O}
    (hpanics : ¬ Panics go query entries) (hhash : hashMetadata go query = hashMetadata go query') :
    Answer.mk entries query' (some (matching go query entries)) ∈
      ([Event.find query, .find query'].foldl (System.step go)
      (.start revision entries qSize rSize) : System O R).answers := by
  obtain ⟨f, c, hfind, hsame, hcapacity, hcache⟩ := find_newFinder revision qSize rSize hpanics
  have hstep : (System.start revision entries qSize rSize).step go (.find query) =
      ⟨⟨revision, entries⟩, f, [⟨entries, query, some (matching go query entries)⟩]⟩ := by
    unfold System.step System.start
    dsimp only
    rw [hfind]
  rw [foldl_cons, hstep]
  have hhit := Lru.get_set_self (k := (revision, hashMetadata go query)) (v := matching go query entries) hcapacity
  have hfound : (find go f ⟨revision, entries⟩ query').1 = some (matching go query entries) := by
    unfold find
    dsimp only
    rw [hsame, hcache, ← hhash]
    cases hget : (c.set (revision, hashMetadata go query) (matching go query entries)).get
      (revision, hashMetadata go query) with
    | mk found cache =>
      rw [hget] at hhit
      cases hhit
      rfl
  refine mem_cons.mpr (.inl ?_)
  rw [hfound]

end Runs

/-- Every answer of every run is what a scan gives. -/
def AlwaysTransparent (go : Foreign O R) (states : List (Entry O) → Prop) (queries : Query O → Prop)
    (qSize rSize : Nat) : Prop :=
  ∀ (revision : Nat) (entries : List (Entry O)) (events : List (Event O)), states entries →
    (∀ event ∈ events, event.Drawn states queries) →
    (events.foldl (System.step go) (.start revision entries qSize rSize)).Transparent go

/-- If and only if queries that are encoded alike ask for the same entries of each state, and no search panics. -/
theorem cache_transparent_iff (go : Foreign O R) (states : List (Entry O) → Prop) (queries : Query O → Prop)
    (queryCacheSize regexCacheSize : Nat) (hcollision : Collisionless go queries) :
    AlwaysTransparent go states queries queryCacheSize regexCacheSize ↔ ToldApart go states queries := by
  constructor
  · intro h entries hentries query hquery
    have hpanics : ¬ Panics go query entries := by
      intro hpanics
      have hrun : (find go (newFinder queryCacheSize regexCacheSize) ⟨0, entries⟩ query).1 =
        some (matching go query entries) :=
        h 0 entries [.find query] hentries (by simpa [Event.Drawn] using hquery) _ mem_cons_self
      rw [find_newFinder_of_panics 0 queryCacheSize regexCacheSize hpanics] at hrun
      cases hrun
    refine ⟨hpanics, fun query' hquery' hencoded => ?_⟩
    have hhash : hashMetadata go query = hashMetadata go query' := by rw [hashMetadata, hashMetadata, hencoded]
    have hanswer := find_twice entries 0 queryCacheSize regexCacheSize hpanics hhash
    have hrun := h 0 entries [.find query, .find query'] hentries (by simp [Event.Drawn, hquery, hquery']) _ hanswer
    exact Option.some.inj hrun
  · intro happart revision entries events hentries hdrawn
    exact (foldlRecOn events _ (sound_start hentries) fun _ hs event hmem =>
      hs.step happart hcollision (hdrawn event hmem)).transparent

/-- No pattern compiles. -/
def plainGo : Foreign Unit Unit where
  equal _ _ := some true
  print _ := []
  compile _ := none
  matchString _ _ := false

/-- The key of the kind. -/
def dotKind : Bytes := 46 :: kindField
/-- The key of the name. -/
def dotName : Bytes := 46 :: nameField

/-- An entry of kind `x` and name `y`. -/
def entryXY : Entry Unit := { id := ⟨[97], [121]⟩, kind := [120] }

/-- A query by kind and name. -/
def kindAndName : Query Unit := (AList.singleton dotName (.str [121])).insert dotKind (.str [120])

/-- A query by a kind, with the encoding of `kindAndName`. -/
def longKind : Query Unit := AList.singleton dotKind (.str ([120] ++ dotName ++ [58, 121]))

/-- A query by name. -/
def nameOnly : Query Unit := AList.singleton dotName (.str [121])

instance (query : Query Unit) (entries : List (Entry Unit)) : Decidable (Panics plainGo query entries) :=
  inferInstanceAs (Decidable (_ = none))

theorem cache_transparent_for_two :
    AlwaysTransparent plainGo (· = [entryXY]) (fun q => q = kindAndName ∨ q = nameOnly) 10 10 := by
  refine (cache_transparent_iff plainGo (· = [entryXY]) (fun q => q = kindAndName ∨ q = nameOnly) 10 10 ?_).mpr ?_
  · rintro query query' (rfl | rfl) (rfl | rfl) h
    · rfl
    · exact absurd h (by decide +kernel)
    · exact absurd h (by decide +kernel)
    · rfl
  · rintro _ rfl query (rfl | rfl)
    · refine ⟨by decide +kernel, ?_⟩
      rintro query' (rfl | rfl) h
      · rfl
      · exact absurd h (by decide +kernel)
    · refine ⟨by decide +kernel, ?_⟩
      rintro query' (rfl | rfl) h
      · exact absurd h (by decide +kernel)
      · rfl

/-- The query for kind `x.name:y` gets the entry of kind `x` and name `y` that another query has cached. -/
theorem longKind_gets_cached_result :
    ¬ ∀ (O R : Type) (go : Foreign O R) (queries : Query O → Prop) (queryCacheSize regexCacheSize : Nat),
      Collisionless go queries → AlwaysTransparent go (fun _ => True) queries queryCacheSize regexCacheSize := by
  intro h
  have hencoded : encode plainGo kindAndName = encode plainGo longKind := by decide +kernel
  have hrun := h Unit Unit plainGo (fun q => q = kindAndName ∨ q = longKind) 1000 100 (by
    rintro query query' (rfl | rfl) (rfl | rfl) -
    · rfl
    · exact hencoded
    · exact hencoded.symm
    · rfl)
  have hhash : hashMetadata plainGo kindAndName = hashMetadata plainGo longKind := congrArg fnv64a hencoded
  have hanswer := find_twice [entryXY] 1 1000 100
    (show ¬ Panics plainGo kindAndName [entryXY] by decide +kernel) hhash
  have hwrong := hrun 1 [entryXY] [.find kindAndName, .find longKind] trivial (by simp [Event.Drawn]) _ hanswer
  revert hwrong
  decide +kernel

end Wippy.Registry.Finder
