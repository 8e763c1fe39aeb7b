import Wippy.Eventual.Cluster
import Wippy.Theorems.Eventual.Incarnation
import Wippy.Theorems.Eventual.Seen

/-! Members of a cluster. A member holds dots of `D`, those written so far, and has applied every tombstone that is not
    above what it has seen. -/

namespace Wippy.Eventual
open Lib State List Option

variable {M : List Bytes} {D D' : List Delta} {node name origin : Bytes} {s t u : State} {d : Delta} {e : Entry}
  {id : Nat}

/-- The invariant of a replica of `node` among the members `M`, with `D` all dots written. -/
structure Member (M : List Bytes) (D : List Delta) (node : Bytes) (s : State) : Prop extends Running node s where
  blank : s.Blank
  names : ∀ origin id, s.nodeIDs.lookup origin = some id → origin ∈ M
  counter : s.localCounter ≤ s.seen node
  holds : ∀ name origin d, s.held name origin = some d → d ∈ D ∧ d.counter ≤ s.seen origin
  saw : ∀ origin, s.seen origin ≠ 0 → ∃ d ∈ D, d.origin = origin ∧ d.counter = s.seen origin
  own : ∀ d ∈ D, d.origin = node → d.counter ≤ s.seen node
  buried : ∀ tomb ∈ D, tomb.deleted = true → tomb.counter ≤ s.seen tomb.origin →
    ∀ d, s.held tomb.name tomb.origin = some d → d.deleted = false → tomb.counter < d.counter

/-- No origin uses a counter twice. -/
def CountersUnique (D : List Delta) : Prop :=
  ∀ d ∈ D, ∀ d' ∈ D, d.origin = d'.origin → d.counter = d'.counter → d = d'

/-- No tombstone of the name and origin that the replica has seen is as high as the dot. -/
def Unburied (D : List Delta) (s : State) (d : Delta) : Prop :=
  ∀ tomb ∈ D, tomb.deleted = true → tomb.name = d.name → tomb.origin = d.origin → tomb.counter ≤ s.seen d.origin →
    tomb.counter < d.counter

instance (D : List Delta) (s : State) (d : Delta) : Decidable (Unburied D s d) :=
  inferInstanceAs (Decidable (∀ tomb ∈ D, _))

theorem Member.congr (h : Member M D node s) (hD : ∀ x, x ∈ D' ↔ x ∈ D) : Member M D' node s where
  __ := h
  holds := fun name origin d hd => ⟨(hD d).mpr (h.holds name origin d hd).1, (h.holds name origin d hd).2⟩
  saw := fun origin hne => by
    obtain ⟨d, hd, hrest⟩ := h.saw origin hne
    exact ⟨d, (hD d).mpr hd, hrest⟩
  own := fun d hd => h.own d ((hD d).mp hd)
  buried := fun tomb htomb => h.buried tomb ((hD tomb).mp htomb)

theorem Member.newState (hnode : node ∈ M) : Member M [] node (newState node) := by
  have hslot : ∀ id, slot (State.newState node).cv id = 0 := slot_grow [] 0
  have hseen : ∀ origin, (State.newState node).seen origin = 0 := fun origin => by
    unfold seen
    split
    · exact hslot _
    · rfl
  have hheld : ∀ name origin, (State.newState node).held name origin = none := fun name origin => by
    unfold held
    cases (State.newState node).nodeIDs.lookup origin <;> rfl
  refine ⟨Running.newState node, fun id hne => absurd (hslot id) hne, fun origin id hid => ?_, UInt64.zero_le,
    fun name origin d hd => ?_, fun origin hne => absurd (hseen origin) hne, fun d hd => absurd hd not_mem_nil,
    fun tomb htomb => absurd htomb not_mem_nil⟩
  · have hids : (AList.insert node 0 ∅ : Map Bytes Nat).lookup origin = some id := hid
    rcases Map.lookup_insert_some hids with ⟨rfl, -⟩ | ⟨-, hids⟩
    · exact hnode
    · cases hids
  · rw [hheld] at hd
    cases hd

/-- `t` is a later state of the replica `s`: ids stay and what was seen stays seen. -/
structure Later (s t : State) : Prop where
  ids : ∀ origin id, s.nodeIDs.lookup origin = some id → t.nodeIDs.lookup origin = some id
  seen : ∀ origin, s.seen origin ≤ t.seen origin

theorem Later.refl (s : State) : Later s s := ⟨fun _ _ h => h, fun _ => UInt64.le_refl _⟩

theorem Later.trans (h : Later s t) (h' : Later t u) : Later s u :=
  ⟨fun o id hid => h'.ids o id (h.ids o id hid), fun o => UInt64.le_trans (h.seen o) (h'.seen o)⟩

theorem Member.internNode (h : Member M D node s) (hn : origin ∈ M) :
    Member M D node (s.internNode origin).1 ∧ Later s (s.internNode origin).1 := by
  have hheld := h.toSourced.held_internNode origin
  have hseen := h.blank.seen_internNode h.table origin
  refine ⟨⟨h.toRunning.internNode origin, h.blank.internNode h.table origin, fun o id hid => ?_, ?_,
    fun name o d hd => ?_,
    fun o hne => ?_, fun d hd ho => ?_, fun tomb htomb hdel hle d hd => ?_⟩, ?_⟩
  · rcases h.table.internNode_cases origin with ⟨id', -, heq⟩ | hslot
    · rw [heq] at hid
      exact h.names o id hid
    · rw [hslot.nodeIDs] at hid
      rcases Map.lookup_insert_some hid with ⟨rfl, -⟩ | ⟨-, hid⟩
      · exact hn
      · exact h.names o id hid
  · rw [(internNode_other s origin).2.2.1, hseen]
    exact h.counter
  · rw [hheld] at hd
    rw [hseen]
    exact h.holds name o d hd
  · rw [hseen] at hne ⊢
    exact h.saw o hne
  · rw [hseen]
    exact h.own d hd ho
  · rw [hseen] at hle
    rw [hheld] at hd
    exact h.buried tomb htomb hdel hle d hd
  · exact ⟨fun o id hid => h.table.lookup_internNode origin hid, fun o => by rw [hseen]; exact UInt64.le_refl _⟩

section
variable (h : Member M D node s) (hst : Stored s t e) (hid : s.nodeIDs.lookup origin = some e.node)
include h hst hid

theorem Member.later_stored : Later s t ∧ e.counter ≤ t.seen origin := by
  have hseen := h.table.seen_stored hst hid
  refine ⟨⟨fun o id hlook => hst.table.nodeIDs ▸ hlook, fun o => ?_⟩, ?_⟩
  · rw [hseen]
    split
    next hk =>
      exact hk.1 ▸ UInt64.le_of_lt hk.2
    · exact UInt64.le_refl _
  · rw [hseen]
    split
    · exact UInt64.le_refl _
    next hk =>
      exact UInt64.not_lt.mp fun hlt => hk ⟨rfl, hlt⟩

theorem Member.stored
    (hD : ∀ x, x ∈ D' ↔ x ∈ D ∨ x = e.withOrigin origin) (hu : CountersUnique D')
    (hcount : t.localCounter ≤ t.seen node)
    (hgap : ∀ tomb ∈ D, tomb.deleted = true → tomb.origin = origin → s.seen origin < tomb.counter →
      ¬tomb.counter < e.counter)
    (hlive : e.deleted = false → Unburied D s (e.withOrigin origin)) : Member M D' node t := by
  obtain ⟨hlater, hsees⟩ := h.later_stored hst hid
  have hseen := h.table.seen_stored hst hid
  have hdelta : s.delta e = e.withOrigin origin := by rw [delta, h.table.nodeString hid]
  have hheld : ∀ name o, t.held name o = if name = e.name ∧ o = origin then some (e.withOrigin origin)
    else s.held name o :=
    fun name o => by rw [h.toSourced.held_stored hst hid, hdelta]
  have hmem : e.withOrigin origin ∈ D' := (hD _).mpr (Or.inr rfl)
  refine ⟨⟨h.toSourced.stored hst hid, ?_⟩, h.blank.stored hst hid, fun o id hlook => ?_, hcount, fun name o d hd => ?_,
    fun o hne => ?_, fun d hd ho => ?_, fun tomb htomb hdel hle d hd hdlive => ?_⟩
  · rw [hst.table.nodeIDs, hst.table.localNode]
    exact h.local_id
  · exact h.names o id (hst.table.nodeIDs ▸ hlook)
  · rw [hheld] at hd
    split at hd
    next hk =>
      cases hd
      exact ⟨hmem, hk.2 ▸ hsees⟩
    · obtain ⟨hdD, hle⟩ := h.holds name o d hd
      exact ⟨(hD d).mpr (Or.inl hdD), UInt64.le_trans hle (hlater.seen o)⟩
  · rw [hseen] at hne ⊢
    split at hne <;> rename_i hk
    · rw [if_pos hk]
      exact ⟨_, hmem, hk.1.symm, rfl⟩
    · rw [if_neg hk]
      obtain ⟨d, hd, hrest⟩ := h.saw o hne
      exact ⟨d, (hD d).mpr (Or.inl hd), hrest⟩
  · rcases (hD d).mp hd with hd | rfl
    · exact UInt64.le_trans (h.own d hd ho) (hlater.seen node)
    · exact ho ▸ hsees
  · -- A tombstone that is seen now was seen before, or it is the stored dot: none was left out.
    have hcases : tomb = e.withOrigin origin ∨ tomb ∈ D ∧ tomb.counter ≤ s.seen tomb.origin := by
      rcases (hD tomb).mp htomb with htombD | heq
      · rw [hseen] at hle
        split at hle <;> rename_i hk
        · by_cases hold : s.seen origin < tomb.counter
          · have hge := hgap tomb htombD hdel hk.1 hold
            have heq : tomb.counter = e.counter := UInt64.le_antisymm hle (UInt64.not_lt.mp hge)
            exact Or.inl (hu tomb htomb _ hmem hk.1 heq)
          · exact Or.inr ⟨htombD, hk.1 ▸ UInt64.not_lt.mp hold⟩
        · exact Or.inr ⟨htombD, hle⟩
      · exact Or.inl heq
    rw [hheld] at hd
    split at hd <;> rename_i hk
    · cases hd
      rcases hcases with rfl | ⟨htombD, hle⟩
      · rw [hdel] at hdlive
        cases hdlive
      · exact hlive hdlive tomb htombD hdel hk.1 hk.2 (hk.2 ▸ hle)
    · rcases hcases with rfl | ⟨htombD, hle⟩
      · exact absurd ⟨rfl, rfl⟩ hk
      · exact h.buried tomb htombD hdel hle d hd hdlive

end

/-- A dot that `node` writes anew: above all dots that it wrote before. A tombstone has no pid. -/
structure Fresh (D : List Delta) (node : Bytes) (d : Delta) : Prop where
  origin : d.origin = node
  pos : d.counter ≠ 0
  above : ∀ x ∈ D, x.origin = node → x.counter < d.counter
  bare : d.deleted = true → d.pid = {}

theorem Fresh.unique (h : Fresh D node d) (hu : CountersUnique D) (hD : ∀ x, x ∈ D' ↔ x ∈ D ∨ x = d) :
    CountersUnique D' := by
  intro x hx y hy horigin hcounter
  have hlt : ∀ z ∈ D, z.origin = d.origin → z.counter ≠ d.counter := fun z hz ho heq =>
    UInt64.ne_of_lt (h.above z hz (ho.trans h.origin)) heq
  rcases (hD x).mp hx with hxD | rfl <;> rcases (hD y).mp hy with hyD | rfl
  · exact hu x hxD y hyD horigin hcounter
  · exact absurd hcounter (hlt x hxD horigin)
  · exact absurd hcounter.symm (hlt y hyD horigin.symm)
  · rfl

theorem Member.learn (h : Member M D origin s) (hne : origin ≠ node) (hf : Fresh D node d)
    (hD : ∀ x, x ∈ D' ↔ x ∈ D ∨ x = d) : Member M D' origin s where
  __ := h
  holds := fun name o x hx => ⟨(hD x).mpr (Or.inl (h.holds name o x hx).1), (h.holds name o x hx).2⟩
  saw := fun o hseen => by
    obtain ⟨x, hx, hrest⟩ := h.saw o hseen
    exact ⟨x, (hD x).mpr (Or.inl hx), hrest⟩
  own := fun x hx ho => by
    rcases (hD x).mp hx with hx | rfl
    · exact h.own x hx ho
    · exact absurd (ho.symm.trans hf.origin) hne
  buried := fun tomb htomb hdel hle x hx hlive => by
    rcases (hD tomb).mp htomb with htomb | rfl
    · exact h.buried tomb htomb hdel hle x hx hlive
    have hseen : s.seen tomb.origin ≠ 0 := fun hzero => by
      rw [hzero] at hle
      exact hf.pos (UInt64.le_zero_iff.mp hle)
    obtain ⟨y, hy, ho, hcounter⟩ := h.saw _ hseen
    rw [← hcounter] at hle
    exact absurd hle (UInt64.not_le.mpr (hf.above y hy (ho.trans hf.origin)))

theorem Member.minted (h : Member M D node s) (hu : CountersUnique D) (hm : Minted s t e)
    (hmax : s.seen node ≠ 18446744073709551615) (hbare : e.deleted = true → e.pid = {})
    (hD : ∀ x, x ∈ D' ↔ x ∈ D ∨ x = e.withOrigin node) :
    Member M D' node t ∧ Later s t ∧ Fresh D node (e.withOrigin node) := by
  have hid : s.nodeIDs.lookup node = some e.node := hm.node ▸ h.local_id
  have hseen : s.seen node = slot s.cv s.localNode := seen_of_lookup h.local_id
  have hcount := h.counter
  rw [hseen] at hcount hmax
  have hlt : s.seen node < e.counter := by
    rw [hseen, hm.counter]
    exact (lt_fresh_iff hcount).mpr hmax
  have hpos : e.counter ≠ 0 := fun hzero => by
    rw [hzero] at hlt
    exact absurd hlt UInt64.not_lt_zero
  have hf : Fresh D node (e.withOrigin node) :=
    ⟨rfl, hpos, fun x hx ho => UInt64.lt_of_le_of_lt (h.own x hx ho) hlt, hbare⟩
  obtain ⟨hlater, hsees⟩ := h.later_stored hm.toStored hid
  refine ⟨h.stored hm.toStored hid hD (hf.unique hu hD) ?_ (fun tomb htomb _ ho hgt => ?_)
    fun _ _ _ _ _ _ hle => UInt64.lt_of_le_of_lt hle hlt, hlater, hf⟩
  · rw [hm.localCounter, ← hm.counter]
    exact hsees
  · exact absurd hgt (UInt64.not_lt.mpr (ho ▸ h.own tomb htomb ho))

/-- A dot arrives in time: above all that was seen of its origin it leaves out no tombstone; otherwise, if it is
    live, the replica still holds a dot of the name and origin that is as high, or the dot is not its own and is not
    buried. -/
def InTime (D : List Delta) (s : State) (d : Delta) : Prop :=
  if s.seen d.origin < d.counter then
    ∀ tomb ∈ D, tomb.deleted = true → tomb.origin = d.origin → s.seen d.origin < tomb.counter →
      ¬tomb.counter < d.counter
  else d.deleted = false → (s.held d.name d.origin).any (fun cur => d.counter ≤ cur.counter) = true ∨
    d.origin ≠ s.nodeString s.localNode ∧ Unburied D s d

theorem InTime.cases (h : InTime D s d) (hid : s.nodeIDs.lookup d.origin = some id) (hlive : d.deleted = false) :
    s.seen d.origin < d.counter ∨ (∃ cur, s.dot d.name id = some cur ∧ d.counter ≤ cur.counter) ∨
      d.origin ≠ s.nodeString s.localNode ∧ Unburied D s d := by
  by_cases hle : s.seen d.origin < d.counter
  · exact .inl hle
  unfold InTime at h
  rw [if_neg hle] at h
  refine .inr ((h hlive).imp_left fun hany => ?_)
  rw [held_of_lookup hid] at hany
  cases hdot : s.dot d.name id with
  | none =>
    rw [hdot] at hany
    cases hany
  | some cur =>
    rw [hdot, map_some, any_some, decide_eq_true_iff] at hany
    exact ⟨cur, rfl, hany⟩

theorem Member.not_foreign (h : Member M D node s) (hu : CountersUnique D) (hd : d ∈ D) (ht : InTime D s d)
    (hid : s.nodeIDs.lookup d.origin = some id) : ¬s.Foreign (d.entry id) := by
  rintro ⟨hnode, hprior⟩
  have hlocal : id = s.localNode := hnode
  subst hlocal
  have horigin : d.origin = node := h.table.inj hid h.local_id
  have hown : d.counter ≤ s.seen d.origin := horigin ▸ h.own d hd horigin
  have hprior' : priorIncarnation (s.dot d.name s.localNode) (d.entry s.localNode) = true := hprior
  have hheld : ∀ cur, s.dot d.name s.localNode = some cur → s.held d.name d.origin = some (s.delta cur) :=
    fun cur hcur => by
    rw [held_of_lookup hid, hcur, map_some]
  cases hdel : d.deleted with
  | false =>
    obtain hlt | ⟨cur, hdot, hge⟩ | ⟨hne, -⟩ := ht.cases hid hdel
    · exact absurd hlt (UInt64.not_lt.mpr hown)
    case inr.inr => exact hne (h.table.nodeString hid).symm
    have hpid : d.counter = cur.counter → d.pid = cur.pid := fun heq => congrArg Delta.pid
      (hu d hd _ (h.holds _ _ _ (hheld cur hdot)).1 (h.toSourced.held_key (hheld cur hdot)).2.symm heq)
    simp only [priorIncarnation, Delta.entry, hdel] at hprior'
    grind
  | true =>
    cases hdot : s.dot d.name s.localNode with
    | none =>
      rw [hdot] at hprior'
      simp [priorIncarnation, Delta.entry, hdel] at hprior'
    | some cur =>
      have hburied : cur.deleted = false → d.counter < cur.counter := fun hlive =>
        h.buried d hd hdel hown _ (hheld cur hdot) hlive
      simp only [priorIncarnation, Delta.entry, hdel] at hprior'
      grind

theorem InTime.unburied (h : InTime D s d) (hid : s.nodeIDs.lookup d.origin = some id)
    (hno : mergeOutcome (s.dot d.name id) (d.entry id) ≠ .noop) (hlive : d.deleted = false) : Unburied D s d := by
  obtain hlt | ⟨cur, hdot, hge⟩ | ⟨-, habove⟩ := h.cases hid hlive
  · exact fun _ _ _ _ _ hle => UInt64.lt_of_le_of_lt hle hlt
  · refine absurd ?_ hno
    have hcount : (d.entry id).counter = d.counter := rfl
    have hdel : (d.entry id).deleted = d.deleted := rfl
    unfold mergeOutcome
    grind
  · exact habove

section
variable (h : Member M D node s)
include h

theorem Member.receive (hu : CountersUnique D) (hd : d ∈ D) (hM : d.origin ∈ M) (ht : InTime D s d) :
    Member M D node (s.receive d).1 ∧ Later s (s.receive d).1 ∧
      ∀ e, (s.receive d).2.2.1 = some e →
        e.withOrigin d.origin = d ∧ (s.receive d).1.nodeIDs.lookup d.origin = some e.node := by
  obtain ⟨h₁, hlater⟩ := h.internNode hM
  have hid := (h.table.internNode d.origin).2
  have ht₁ : InTime D (s.internNode d.origin).1 d := by
    unfold InTime
    unfold Unburied
    rw [h.blank.seen_internNode h.table, h.toSourced.held_internNode, h₁.table.nodeString h₁.local_id,
      ← h.table.nodeString h.local_id]
    exact ht
  have hforeign := h₁.not_foreign hu hd ht₁ hid
  have hrecv : s.receive d = (s.internNode d.origin).1.apply (d.entry (s.internNode d.origin).2) := rfl
  rw [hrecv]
  generalize (s.internNode d.origin).1 = s₁ at *
  generalize (s.internNode d.origin).2 = id at *
  rcases apply_cases s₁ (d.entry id) with ⟨hf, -⟩ | ⟨-, -, heq⟩ | ⟨-, hno, heq, -, -, hfwd⟩
  · exact absurd hf hforeign
  · rw [heq]
    exact ⟨h₁, hlater, fun e he => (nomatch he)⟩
  · have hst := install_stored s₁ (d.entry id)
    have hid' : s₁.nodeIDs.lookup d.origin = some (d.entry id).node := hid
    have hentry : (d.entry id).withOrigin d.origin = d := rfl
    obtain ⟨hlater', hsees⟩ := h₁.later_stored hst hid'
    refine ⟨?_, ?_, fun e he => ?_⟩
    · rw [heq]
      refine h₁.stored hst hid' (fun x => ⟨Or.inl, fun hx => ?_⟩) hu ?_ ?_ (ht₁.unburied hid hno)
      · exact hx.elim (fun hx => hx) fun hx => hx ▸ hentry ▸ hd
      · rw [install_localCounter]
        exact UInt64.le_trans h₁.counter (hlater'.seen node)
      · intro tomb htomb hdel ho hgt hlt
        have hlt' : tomb.counter < d.counter := hlt
        unfold InTime at ht₁
        rw [if_pos (UInt64.lt_trans hgt hlt')] at ht₁
        exact ht₁ tomb htomb hdel ho hgt hlt'
    · rw [heq]
      exact hlater.trans hlater'
    · rw [hfwd] at he
      cases he
      rw [heq, hst.table.nodeIDs]
      exact ⟨rfl, hid⟩

theorem Member.seen_own (h' : Member M D node t) (hlater : Later s t) : t.seen node = s.seen node := by
  refine UInt64.le_antisymm ?_ (hlater.seen node)
  by_cases hzero : t.seen node = 0
  · rw [hzero]
    exact UInt64.zero_le
  · obtain ⟨d, hd, ho, hcounter⟩ := h'.saw node hzero
    exact hcounter ▸ h.own d hd ho

theorem Member.reapTombstones (safe : List UInt64) (nowMs floor : Int64) :
    Member M D node (s.reapTombstones safe nowMs floor).1 ∧
      Later s (s.reapTombstones safe nowMs floor).1 := by
  have htable := reapTombstones_table s safe nowMs floor
  have hdot : ∀ name id e, (s.reapTombstones safe nowMs floor).1.dot name id = some e → s.dot name id = some e := by
    intro name id e he
    rw [dot_reapTombstones] at he
    exact (filter_eq_some_iff.mp he).1
  have hkeyed := h.keyed.reapTombstones safe nowMs floor
  obtain ⟨hcv, hcounter, -⟩ := reapTombstones_other s safe nowMs floor
  generalize (s.reapTombstones safe nowMs floor).1 = t at *
  have hseen : ∀ o, t.seen o = s.seen o := seen_of_same htable.nodeIDs fun id => by rw [hcv]
  have hheld : ∀ name o d, t.held name o = some d → s.held name o = some d := by
    intro name o d hd
    unfold held at hd ⊢
    obtain ⟨id, hid, hmap⟩ := bind_eq_some_iff.mp hd
    obtain ⟨e, he, rfl⟩ := map_eq_some_iff.mp hmap
    rw [← htable.nodeIDs, hid, bind_some, hdot name id e he, map_some, htable.delta]
  refine ⟨⟨⟨⟨h.table.same htable, hkeyed, fun name id e he => ?_⟩, ?_⟩, fun id hne => ?_, fun o id hid => ?_, ?_,
    fun name o d hd => ?_, fun o hne => ?_, fun d hd ho => ?_, fun tomb htomb hdel hle d hd => ?_⟩, ?_⟩
  · rw [htable.nodeIDs]
    exact h.known name id e (hdot name id e he)
  · rw [htable.nodeIDs, htable.localNode]
    exact h.local_id
  · rw [hcv] at hne
    rw [htable.nodeIDs]
    exact h.blank id hne
  · exact h.names o id (htable.nodeIDs ▸ hid)
  · rw [hcounter, hseen]
    exact h.counter
  · rw [hseen]
    exact h.holds name o d (hheld name o d hd)
  · rw [hseen] at hne ⊢
    exact h.saw o hne
  · rw [hseen]
    exact h.own d hd ho
  · rw [hseen] at hle
    exact h.buried tomb htomb hdel hle d (hheld _ _ d hd)
  · exact ⟨fun o id hid => htable.nodeIDs ▸ hid, fun o => by rw [hseen]; exact UInt64.le_refl _⟩

theorem Member.reclaim_eq {alive : List Bytes} (hM : ∀ x ∈ M, x ∈ alive) : (s.reclaimUnreferencedNodes alive).1 = s :=
  reclaim_induction (P := fun t => t = s) rfl fun t id _ hre _ => by
    obtain ⟨-, hne, -, hdead⟩ := reclaimable_iff.mp hre
    exact absurd (hM _ (h.names _ id (h.table.complete _ id (stringIDs_of_nodeString hne) hne))) hdead

end

/-- A step of a member, from `s` to `t`, that writes at most the local dot of `name`. -/
structure Writes (M : List Bytes) (D : List Delta) (node name : Bytes) (s t : State) : Prop where
  member : Member M (D ++ Cluster.mintedBy s t name) node t
  later : Later s t
  fresh : ∀ d ∈ Cluster.mintedBy s t name, d ∈ D ∨ Fresh D node d

theorem Writes.of_member (h : Member M D node t) (hlater : Later s t) : Writes M D node name s t := by
  have hmem : ∀ d ∈ Cluster.mintedBy s t name, d ∈ D := by
    intro d hd
    unfold Cluster.mintedBy at hd
    cases hdot : t.dot name t.localNode with
    | none =>
      rw [hdot] at hd
      cases hd
    | some e =>
      have hheld : t.held name node = some (t.delta e) := by
        rw [held_of_lookup h.local_id, hdot, map_some]
      have heq : d = t.delta e := by
        rw [hdot] at hd
        dsimp only at hd
        split at hd
        · cases hd
        · exact mem_singleton.mp hd
      exact heq ▸ (h.holds _ _ _ hheld).1
  refine ⟨h.congr fun x => ?_, hlater, fun d hd => Or.inl (hmem d hd)⟩
  rw [mem_append]
  exact ⟨fun hx => hx.elim (fun hx => hx) (hmem x), Or.inl⟩

theorem Writes.of_minted (hs : Member M D node s) (hu : CountersUnique D) (h : Member M D node u) (hlater : Later s u)
    (hm : Minted u t e) (hname : e.name = name) (hmax : u.seen node ≠ 18446744073709551615)
    (hbare : e.deleted = true → e.pid = {}) :
    Writes M D node name s t ∧ e.withOrigin node ∈ D ++ Cluster.mintedBy s t name := by
  have hlocal : u.localNode = s.localNode := Option.some.inj (h.local_id.symm.trans (hlater.ids node _ hs.local_id))
  have hdot : t.dot name t.localNode = some e := by
    rw [hm.toStored.dot, if_pos ⟨hname.symm, by rw [hm.table.localNode, hm.node]⟩]
  have hdelta : t.delta e = e.withOrigin node := by
    rw [hm.table.delta, delta, hm.node, h.table.nodeString h.local_id]
  have hminted : ∀ x, x ∈ D ++ Cluster.mintedBy s t name ↔ x ∈ D ∨ x = e.withOrigin node := by
    intro x
    rw [mem_append]
    unfold Cluster.mintedBy
    rw [hdot]
    dsimp only
    split
    next hsame =>
      -- The dot was there before, so it is listed.
      have hheld : s.held name node = some (s.delta e) := by
        rw [held_of_lookup hs.local_id, hsame, map_some]
      have hmem : e.withOrigin node ∈ D := by
        have hd := (hs.holds _ _ _ hheld).1
        rwa [delta, hm.node, hlocal, hs.table.nodeString hs.local_id] at hd
      constructor
      · rintro (hx | hx)
        · exact Or.inl hx
        · cases hx
      · rintro (hx | rfl)
        · exact Or.inl hx
        · exact Or.inl hmem
    · rw [hdelta, mem_singleton]
  obtain ⟨hmember, hlater', hfresh⟩ := h.minted hu hm hmax hbare hminted
  refine ⟨⟨hmember, hlater.trans hlater', fun d hd => ?_⟩, (hminted _).mpr (Or.inr rfl)⟩
  rcases (hminted d).mp (mem_append_right _ hd) with hd | rfl
  · exact Or.inl hd
  · exact Or.inr hfresh

theorem Writes.adds (h : Writes M D node name s t) : (∀ x, x ∈ D ++ Cluster.mintedBy s t name ↔ x ∈ D) ∨
    ∃ d, Fresh D node d ∧ ∀ x, x ∈ D ++ Cluster.mintedBy s t name ↔ x ∈ D ∨ x = d := by
  have hone : Cluster.mintedBy s t name = [] ∨ ∃ d, Cluster.mintedBy s t name = [d] := by
    unfold Cluster.mintedBy
    split
    · split
      · exact Or.inl rfl
      · exact Or.inr ⟨_, rfl⟩
    · exact Or.inl rfl
  rcases hone with hnil | ⟨d, hsingle⟩
  · rw [hnil, append_nil]
    exact Or.inl fun _ => Iff.rfl
  have hmem : ∀ x, x ∈ D ++ Cluster.mintedBy s t name ↔ x ∈ D ∨ x = d := fun x => by
    rw [hsingle, mem_append, mem_singleton]
  rcases h.fresh d (hsingle ▸ mem_singleton_self d) with hd | hfresh
  · refine Or.inl fun x => (hmem x).trans ⟨fun hx => ?_, Or.inl⟩
    rcases hx with hx | rfl
    · exact hx
    · exact hd
  · exact Or.inr ⟨d, hfresh, hmem⟩

end Wippy.Eventual
