import Wippy.Theorems.Eventual.Intern
import Mathlib.Data.Finset.Basic

/-! Convergence of the eventual registry: what a replica holds is the maximum of two orders over what it received. -/

namespace Wippy.Eventual
open Lib State List Option Map

variable {s : State} {node : Bytes} {d : Delta}

/-- What a replica does: learn the name of a node, or merge a dot. -/
inductive Event
  | intern (node : Bytes)
  | receive (d : Delta)

/-- One event. -/
def exec (s : State) : Event → State
  | .intern node => (s.internNode node).1
  | .receive d => (s.receive d).1

/-- The dots that were merged. -/
def delivered (es : List Event) : List Delta :=
  es.filterMap fun
    | .intern _ => none
    | .receive d => some d

/-- A dot takes the place of the one held of its name and origin. -/
def Delta.newer (d cur : Delta) : Bool :=
  decide (cur.counter < d.counter) || (decide (d.counter = cur.counter) && d.deleted && !cur.deleted)

theorem mergeOutcome_noop_iff (cur : Option Entry) (e : Entry) (o : Bytes) :
    mergeOutcome cur e = .noop ↔ ∃ c, cur = some c ∧ (e.withOrigin o).newer (c.withOrigin o) = false := by
  cases cur with
  | none => simp [mergeOutcome]
  | some c =>
    simp only [mergeOutcome, Delta.newer, Entry.withOrigin, Option.some.injEq, exists_eq_left']
    grind

/-- The replica of `node` in the midst of a run: its own slot is known. -/
structure Running (node : Bytes) (s : State) : Prop extends Sourced s where
  local_id : s.nodeIDs.lookup node = some s.localNode

theorem Running.newState (node : Bytes) : Running node (newState node) where
  toSourced := Sourced.newState node
  local_id := by
    show (AList.insert node 0 ∅).lookup node = some 0
    rw [lookup_insert_eq, if_pos rfl]

theorem Running.internNode (h : Running node s) (n : Bytes) : Running node (s.internNode n).1 where
  toSourced := h.toSourced.internNode n
  local_id := by
    rw [(internNode_other s n).2.1]
    exact h.table.lookup_internNode n h.local_id

theorem Running.receive (h : Running node s) (hd : d.origin ≠ node) :
    Running node (s.receive d).1 ∧ ∀ name origin, (s.receive d).1.held name origin =
      if name = d.name ∧ origin = d.origin then offer Delta.newer (s.held name origin) d else s.held name origin := by
  have h₁ := h.internNode d.origin
  have hid := (h.table.internNode d.origin).2
  have hheld := h.toSourced.held_internNode d.origin
  generalize hs₁ : (s.internNode d.origin).1 = s₁ at *
  generalize hi : (s.internNode d.origin).2 = id at *
  have hrecv : s.receive d = s₁.apply (d.entry id) := by rw [← hs₁, ← hi]; rfl
  have hlocal : id ≠ s₁.localNode := fun heq => hd (h₁.table.inj (heq ▸ hid) h₁.local_id)
  have hdelta : s₁.delta (d.entry id) = d := by
    rw [delta, show (d.entry id).node = id from rfl, h₁.table.nodeString hid]
    rfl
  -- What the register held, in the terms of the merge.
  have hreg : s.held d.name d.origin = (s₁.dot d.name id).map s₁.delta := by
    rw [← hheld, held_of_lookup hid]
  have hnoop : ∀ c, s₁.dot d.name id = some c →
      (mergeOutcome (some c) (d.entry id) = .noop ↔ d.newer (s₁.delta c) = false) := by
    intro c hc
    rw [mergeOutcome_noop_iff _ _ d.origin]
    simp only [Option.some.injEq, exists_eq_left']
    rfl
  rw [hrecv]
  rcases apply_cases s₁ (d.entry id) with ⟨hf, -⟩ | ⟨-, hno, heq⟩ | ⟨-, hno, heq, -⟩
  · exact absurd hf.1 hlocal
  · rw [heq]
    refine ⟨h₁, fun name origin => ?_⟩
    rw [hheld]
    split
    next hk =>
      obtain ⟨rfl, rfl⟩ := hk
      cases hc : s₁.dot d.name id with
      | none =>
        have : mergeOutcome none (d.entry id) = .noop := hc ▸ hno
        cases this
      | some c =>
        have hkeep := (hnoop c hc).mp (hc ▸ hno)
        rw [hreg, hc, map_some, offer, hkeep]
        rfl
    · rfl
  · rw [heq]
    have hst := install_stored s₁ (d.entry id)
    have hid' : s₁.nodeIDs.lookup d.origin = some (d.entry id).node := hid
    refine ⟨⟨h₁.toSourced.stored hst hid', ?_⟩, fun name origin => ?_⟩
    · rw [hst.table.nodeIDs, hst.table.localNode]
      exact h₁.local_id
    · rw [h₁.toSourced.held_stored hst hid', hdelta, hheld]
      show (if name = d.name ∧ origin = d.origin then some d else _) = _
      split
      next hk =>
        obtain ⟨rfl, rfl⟩ := hk
        cases hc : s₁.dot d.name id with
        | none => rw [hreg, hc]; rfl
        | some c =>
          have htake : d.newer (s₁.delta c) = true := by
            have : ¬mergeOutcome (some c) (d.entry id) = .noop := hc ▸ hno
            rw [hnoop c hc] at this
            simpa using this
          rw [hreg, hc, map_some, offer, htake]
          rfl
      · rfl

theorem held_run (node : Bytes) (es : List Event) (hes : ∀ d ∈ delivered es, d.origin ≠ node) :
    Running node (es.foldl exec (newState node)) ∧ ∀ name origin, (es.foldl exec (newState node)).held name origin =
      contest Delta.newer ((delivered es).filter fun d => d.name = name ∧ d.origin = origin) := by
  induction es using List.reverseRecOn with
  | nil =>
    refine ⟨Running.newState node, fun name origin => ?_⟩
    show (newState node).held name origin = none
    unfold held
    cases (newState node).nodeIDs.lookup origin with
    | none => rfl
    | some id => rfl
  | append_singleton es ev ih =>
    have hold : ∀ d ∈ delivered es, d.origin ≠ node := fun d hd => hes d (by
      unfold delivered at hd ⊢
      rw [filterMap_append]
      exact mem_append_left _ hd)
    obtain ⟨hrun, hheld⟩ := ih hold
    rw [foldl_append]
    cases ev with
    | intern n =>
      have hsame : delivered (es ++ [.intern n]) = delivered es := by simp [delivered]
      refine ⟨hrun.internNode n, fun name origin => ?_⟩
      rw [hsame, ← hheld]
      exact hrun.toSourced.held_internNode n name origin
    | receive d =>
      have hnew : delivered (es ++ [.receive d]) = delivered es ++ [d] := by simp [delivered]
      obtain ⟨hrun', hheld'⟩ := hrun.receive (hes d (by simp [hnew]))
      refine ⟨hrun', fun name origin => ?_⟩
      show ((es.foldl exec (newState node)).receive d).1.held name origin = _
      rw [hheld', hheld, hnew]
      by_cases hk : d.name = name ∧ d.origin = origin
      · obtain ⟨rfl, rfl⟩ := hk
        simp [contest_append]
      · have hk' : ¬(name = d.name ∧ origin = d.origin) := fun h => hk ⟨h.1.symm, h.2.symm⟩
        simp [hk, hk']

/-- The loop of `winnerOf` is a contest among the live dots and one among the tombstones. -/
theorem foldl_winnerStep (s : State) (l : List Entry) : l.foldl s.winnerStep (none, none) =
    (contest s.outranks (l.filter fun e => !e.deleted), contest s.outranks (l.filter fun e => e.deleted)) := by
  induction l using List.reverseRecOn with
  | nil => rfl
  | append_singleton l e ih =>
    rw [foldl_append, foldl_cons, ih, winnerStep]
    cases he : e.deleted <;> simp [he, contest_append]

theorem lookupIn_eq (s : State) (l : List Entry) :
    s.lookupIn l = (contest s.outranks (l.filter fun e => !e.deleted)).map (·.pid) := by
  have hlive : ∀ w, contest s.outranks (l.filter fun e => !e.deleted) = some w → w.deleted = false := fun w hw => by
    have := mem_filter.mp (contest_mem _ w hw)
    simpa using this.2
  have htomb : ∀ w, contest s.outranks (l.filter fun e => e.deleted) = some w → w.deleted = true := fun w hw =>
    (mem_filter.mp (contest_mem _ w hw)).2
  unfold lookupIn winnerOf
  rw [foldl_winnerStep]
  cases hl : contest s.outranks (l.filter fun e => !e.deleted) with
  | some w => simp [hlive w hl]
  | none =>
    cases ht : contest s.outranks (l.filter fun e => e.deleted) with
    | some w => simp [htomb w ht]
    | none => rfl

/-- A live dot wins against one of another origin. -/
def Delta.outranks (d d' : Delta) : Bool :=
  decide (concurrentKeyCmp ⟨d.priority, fnv64a (d.name ++ d.origin)⟩ ⟨d'.priority, fnv64a (d'.name ++ d'.origin)⟩ > 0)

theorem delta_outranks (s : State) (e e' : Entry) : (s.delta e).outranks (s.delta e') = s.outranks e e' := rfl

theorem State.Sourced.mem_dots (h : s.Sourced) (name : Bytes) (d : Delta) :
    (∃ e ∈ (s.dots name).values, s.delta e = d) ↔ ∃ origin, s.held name origin = some d := by
  constructor
  · rintro ⟨e, he, rfl⟩
    obtain ⟨id, hid⟩ := mem_values.mp he
    obtain ⟨node, hnode⟩ := h.known name id e hid
    refine ⟨node, ?_⟩
    have hdot : s.dot name id = some e := hid
    rw [held_of_lookup hnode, hdot, map_some]
  · rintro ⟨origin, ho⟩
    obtain ⟨id, -, hmap⟩ := bind_eq_some_iff.mp ho
    obtain ⟨e, he, heq⟩ := map_eq_some_iff.mp hmap
    exact ⟨e, mem_values.mpr ⟨id, he⟩, heq⟩

/-- A name, origin, counter and kind make one dot. -/
def DotsUnique (S : Finset Delta) : Prop :=
  ∀ d ∈ S, ∀ d' ∈ S, d.name = d'.name ∧ d.origin = d'.origin ∧ d.counter = d'.counter ∧ d.deleted = d'.deleted → d = d'

/-- No two origins of a name have one hash. -/
def HashesApart (S : Finset Delta) : Prop :=
  ∀ d ∈ S, ∀ d' ∈ S, d.name = d'.name → fnv64a (d.name ++ d.origin) = fnv64a (d'.name ++ d'.origin) →
    d.origin = d'.origin

instance (S : Finset Delta) : Decidable (DotsUnique S) := inferInstanceAs (Decidable (∀ d ∈ S, _))
instance (S : Finset Delta) : Decidable (HashesApart S) := inferInstanceAs (Decidable (∀ d ∈ S, _))

/-- The live dots that compete for a name. -/
def contenders (s : State) (name : Bytes) : Set Delta :=
  { d | (∃ origin, s.held name origin = some d) ∧ d.deleted = false }

/-- Any two replicas, neither of them an origin of `S`, that apply all of `S`, in any orders, with any repetitions and
    any interning, hold the same dots, the newest ones, and give the same answers, the process of the highest ranked. -/
def Converges (S : Finset Delta) : Prop :=
  ∀ (node₁ node₂ : Bytes) (es₁ es₂ : List Event), (∀ d ∈ S, d.origin ≠ node₁ ∧ d.origin ≠ node₂) →
    (∀ d, d ∈ delivered es₁ ↔ d ∈ S) → (∀ d, d ∈ delivered es₂ ↔ d ∈ S) →
    let s₁ := es₁.foldl exec (newState node₁)
    let s₂ := es₂.foldl exec (newState node₂)
    (∀ name origin, s₁.held name origin = s₂.held name origin ∧ ∀ d, s₁.held name origin = some d ↔
        Champion Delta.newer { d | d ∈ S ∧ d.name = name ∧ d.origin = origin } d) ∧
      ∀ name l₁ l₂, l₁.Perm (s₁.dots name).values → l₂.Perm (s₂.dots name).values →
        s₁.lookupIn l₁ = s₂.lookupIn l₂ ∧
          ∀ p, s₁.lookupIn l₁ = some p ↔ ∃ d, Champion Delta.outranks (contenders s₁ name) d ∧ d.pid = p

variable {S : Finset Delta}

theorem newer_ranks (hdot : DotsUnique S) (name origin : Bytes) :
    Ranks Delta.newer { d | d ∈ S ∧ d.name = name ∧ d.origin = origin } where
  asymm := fun x _ y _ h => by
    unfold Delta.newer at h ⊢
    grind
  trans := fun x _ y _ z _ h h' => by
    unfold Delta.newer at h h' ⊢
    grind
  total := fun x hx y hy hne => by
    have hxy : ¬(x.counter = y.counter ∧ x.deleted = y.deleted) := fun h =>
      hne (hdot x hx.1 y hy.1 ⟨hx.2.1.trans hy.2.1.symm, hx.2.2.trans hy.2.2.symm, h⟩)
    unfold Delta.newer
    cases hxd : x.deleted <;> cases hyd : y.deleted <;> grind

theorem outranks_ranks {T : Set Delta} (hash : HashesApart S) (hT : ∀ d ∈ T, d ∈ S)
    (hname : ∀ d ∈ T, ∀ d' ∈ T, d.name = d'.name) (horigin : ∀ d ∈ T, ∀ d' ∈ T, d.origin = d'.origin → d = d') :
    Ranks Delta.outranks T where
  asymm := fun x _ y _ h => by
    unfold Delta.outranks concurrentKeyCmp at h ⊢
    grind
  trans := fun x _ y _ z _ h h' => by
    unfold Delta.outranks concurrentKeyCmp at h h' ⊢
    grind
  total := fun x hx y hy hne => by
    have hhash := hash x (hT x hx) y (hT y hy) (hname x hx y hy)
    unfold Delta.outranks concurrentKeyCmp
    grind

section
variable {es : List Event} (hnode : ∀ d ∈ S, d.origin ≠ node) (hes : ∀ d, d ∈ delivered es ↔ d ∈ S)
  (hdot : DotsUnique S)
include hnode hes hdot

theorem held_eq_some_iff (name origin : Bytes) (d : Delta) : (es.foldl exec (newState node)).held name origin = some d ↔
    Champion Delta.newer { d | d ∈ S ∧ d.name = name ∧ d.origin = origin } d := by
  rw [(held_run node es fun d hd => hnode d ((hes d).mp hd)).2]
  refine (newer_ranks hdot name origin).contest_eq_some_iff fun d => ?_
  rw [mem_filter, hes, decide_eq_true_iff]
  rfl

theorem contenders_ranks (hash : HashesApart S) (name : Bytes) :
    Ranks Delta.outranks (contenders (es.foldl exec (newState node)) name) := by
  have hmem : ∀ {origin d}, (es.foldl exec (newState node)).held name origin = some d →
      d ∈ S ∧ d.name = name ∧ d.origin = origin := fun h => ((held_eq_some_iff hnode hes hdot _ _ _).mp h).mem
  refine outranks_ranks hash ?_ ?_ ?_
  · rintro d ⟨⟨origin, ho⟩, -⟩
    exact (hmem ho).1
  · rintro d ⟨⟨origin, ho⟩, -⟩ d' ⟨⟨origin', ho'⟩, -⟩
    rw [(hmem ho).2.1, (hmem ho').2.1]
  · rintro d ⟨⟨origin, ho⟩, -⟩ d' ⟨⟨origin', ho'⟩, -⟩ hdd
    rw [(hmem ho).2.2, (hmem ho').2.2] at hdd
    rw [← hdd, ho] at ho'
    exact Option.some.inj ho'

theorem lookupIn_eq_some_iff (hash : HashesApart S) {name : Bytes} {l : List Entry}
    (hp : l.Perm ((es.foldl exec (newState node)).dots name).values) (p : PID) :
    (es.foldl exec (newState node)).lookupIn l = some p ↔
      ∃ d, Champion Delta.outranks (contenders (es.foldl exec (newState node)) name) d ∧ d.pid = p := by
  have hranks := contenders_ranks hnode hes hdot hash name
  have hs := (held_run node es fun d hd => hnode d ((hes d).mp hd)).1.toSourced
  generalize es.foldl exec (newState node) = s at *
  -- the live dots of the record, as deltas
  have hlive : ∀ d, d ∈ (l.filter fun e => !e.deleted).map s.delta ↔ d ∈ contenders s name := by
    intro d
    rw [List.mem_map]
    show _ ↔ (∃ origin, s.held name origin = some d) ∧ d.deleted = false
    rw [← hs.mem_dots]
    constructor
    · rintro ⟨e, he, rfl⟩
      obtain ⟨hmem, hd⟩ := mem_filter.mp he
      have hd' : e.deleted = false := by simpa using hd
      exact ⟨⟨e, hp.mem_iff.mp hmem, rfl⟩, hd'⟩
    · rintro ⟨⟨e, he, rfl⟩, hd⟩
      have hd' : e.deleted = false := hd
      exact ⟨e, mem_filter.mpr ⟨hp.mem_iff.mpr he, by simp [hd']⟩, rfl⟩
  have hwinner : s.lookupIn l = (contest Delta.outranks ((l.filter fun e => !e.deleted).map s.delta)).map (·.pid) := by
    rw [lookupIn_eq, contest_map s.delta fun x _ y _ => delta_outranks s x y, Option.map_map]
    rfl
  rw [hwinner, map_eq_some_iff]
  exact exists_congr fun d => and_congr_left fun _ => hranks.contest_eq_some_iff hlive

end

theorem apply_converges (hdot : DotsUnique S) (hash : HashesApart S) : Converges S := by
  intro node₁ node₂ es₁ es₂ hnode h₁ h₂ s₁ s₂
  have hnode₁ : ∀ d ∈ S, d.origin ≠ node₁ := fun d hd => (hnode d hd).1
  have hnode₂ : ∀ d ∈ S, d.origin ≠ node₂ := fun d hd => (hnode d hd).2
  have hheld₁ := held_eq_some_iff hnode₁ h₁ hdot
  have hheld₂ := held_eq_some_iff hnode₂ h₂ hdot
  have heq : ∀ name origin, s₁.held name origin = s₂.held name origin := fun name origin =>
    Option.ext fun d => (hheld₁ name origin d).trans (hheld₂ name origin d).symm
  refine ⟨fun name origin => ⟨heq name origin, hheld₁ name origin⟩, fun name l₁ l₂ hp₁ hp₂ => ?_⟩
  have hanswer₁ := lookupIn_eq_some_iff hnode₁ h₁ hdot hash hp₁
  have hanswer₂ := lookupIn_eq_some_iff hnode₂ h₂ hdot hash hp₂
  have hsame : contenders s₁ name = contenders s₂ name := by
    unfold contenders
    simp only [heq]
  exact ⟨Option.ext fun p => (hanswer₁ p).trans ((hsame ▸ hanswer₂ p).symm), hanswer₁⟩

/-- Three origins claim a name; the tombstone that `ReapNode` makes of one claim has the claim's counter. -/
def contested : Finset Delta :=
  { { pid := { uniqID := [1] }, name := [110], origin := [97], counter := 2, wall := 1, priority := 5 },
    { name := [110], origin := [97], counter := 2, wall := 1, priority := 5, deleted := true },
    { pid := { uniqID := [2] }, name := [110], origin := [98], counter := 1, wall := 9, priority := 0 },
    { pid := { uniqID := [3] }, name := [110], origin := [99], counter := 7, wall := 3, priority := 0 } }

theorem apply_converges_contested : DotsUnique contested ∧ HashesApart contested ∧ Converges contested :=
  ⟨by decide, by decide, apply_converges (by decide) (by decide)⟩

end Wippy.Eventual
