import Wippy.Theorems.Eventual.Incarnation
import Wippy.Theorems.Eventual.Service

/-! Release of a process's names, by an index that lacks the names that it registered and lost. -/

namespace Wippy.Eventual
open Lib State List Option Map

namespace State
variable {s t : State} {e : Entry} {name : Bytes}

/-- A registration of the name under the priority outranks every live dot of another origin. -/
def Prevails (s : State) (name : Bytes) (priority : UInt32) : Prop :=
  ∀ e ∈ (s.dots name).values, e.node ≠ s.localNode → e.deleted = false →
    concurrentKeyCmp ⟨priority, fnv64a (name ++ s.nodeString s.localNode)⟩ (s.winnerKey e) > 0

theorem winnerOf_eq {l : List Entry} (hmem : e ∈ l) (hlive : e.deleted = false)
    (hrank : ∀ x ∈ l, x.deleted = false → x ≠ e → s.outranks e x = true) : s.winnerOf l = some e := by
  have hchamp : Champion s.outranks { x | x ∈ l.filter fun x => !x.deleted } e := by
    refine ⟨mem_filter.mpr ⟨hmem, by simp [hlive]⟩, fun x hx => ?_, fun x hx hne => ?_⟩
    · obtain ⟨hxl, hxlive⟩ := mem_filter.mp hx
      have hlive' : x.deleted = false := by simpa using hxlive
      by_cases hxe : x = e
      · unfold outranks concurrentKeyCmp
        grind
      · have h := hrank x hxl hlive' hxe
        unfold outranks concurrentKeyCmp at h ⊢
        grind
    · obtain ⟨hxl, hxlive⟩ := mem_filter.mp hx
      exact hrank x hxl (by simpa using hxlive) hne
  unfold winnerOf
  rw [foldl_winnerStep, hchamp.contest_eq (fun _ hx => hx) hchamp.mem]

theorem Keyed.register_won (h : s.Keyed) {p : PID} (wallMs : Int64) {priority : UInt32} (hp : s.Prevails name priority)
    (hfree : ∀ cur, s.dot name s.localNode = some cur → cur.deleted = false → cur.pid = p) :
    (s.register name p wallMs priority).2.won = true := by
  rcases register_cases s name p wallMs priority with ⟨cur, hcur, hlive, hpid, -⟩ | ⟨t, r, heq, hr, hm, -, hwon, -⟩
  · exact absurd (hfree cur hcur hlive) hpid
  rw [heq]
  have hdots : t.dots name = (s.dots name).insert s.localNode r.entry := by
    unfold State.dots
    rw [hm.entries, hr]
    show ((s.entries.insert name _).lookup name).getD ∅ = _
    rw [lookup_insert_eq, if_pos rfl]
    rfl
  have hkey : ∀ x, t.winnerKey x = s.winnerKey x := fun x => by
    unfold winnerKey
    rw [hm.table.nodeString]
  have hwin : t.winner name = some r.entry := by
    unfold winner
    rw [hdots]
    refine winnerOf_eq (mem_values.mpr ⟨s.localNode, by rw [lookup_insert_eq, if_pos rfl]⟩) (by rw [hr]; rfl) ?_
    intro x hx hlive hne
    obtain ⟨id, hid⟩ := mem_values.mp hx
    rcases lookup_insert_some hid with ⟨-, rfl⟩ | ⟨hlocal, hid⟩
    · exact absurd rfl hne
    have hnode : x.node = id := (h name id x hid).2
    have hgt := hp x (mem_values.mpr ⟨id, hid⟩) (hnode ▸ hlocal) hlive
    unfold outranks
    rw [hkey, hkey, hr]
    exact decide_eq_true hgt
  simp [hwon, hwin]

end State

namespace Service
variable {s t : Service} {name n : Bytes} {reg : OwnedReg}

/-- The names that the index lists for a process. -/
def indexOf (s : Service) (p : PID) : Map Bytes Unit := (s.ownedByPID.lookup p.string).getD ∅

theorem owned_forgetOwned (s : Service) (name n : Bytes) :
    (s.forgetOwned name).owned.lookup n = if n = name then none else s.owned.lookup n := by
  unfold forgetOwned
  split
  next hnone =>
    split
    next heq =>
      rw [heq, hnone]
    · rfl
  · exact lookup_erase_eq s.owned name n

theorem owned_own (s : Service) (name : Bytes) (p : PID) (priority : UInt32) (n : Bytes) :
    (s.own name p priority).owned.lookup n = if n = name then some ⟨p, priority⟩ else s.owned.lookup n := by
  unfold own
  rw [lookup_insert_eq]
  split
  · rfl
  rename_i hne
  unfold indexOwned
  split
  · rfl
  · exact (owned_forgetOwned s name n).trans (if_neg hne)

/-- A registered name is listed under its process. -/
def Indexed (s : Service) : Prop :=
  ∀ name reg, s.owned.lookup name = some reg → (s.indexOf reg.pid).lookup name = some ()

theorem indexOf_forgetOwned (s : Service) (hne : n ≠ name) {p : PID} (h : (s.indexOf p).lookup n = some ()) :
    ((s.forgetOwned name).indexOf p).lookup n = some () := by
  unfold forgetOwned
  split
  · exact h
  rename_i reg _
  unfold indexOf
  dsimp only
  by_cases hkey : p.string = reg.pid.string
  · have hread : (AList.erase name ((s.ownedByPID.lookup reg.pid.string).getD ∅)).lookup n = some () := by
      rw [lookup_erase_eq, if_neg hne, ← hkey]
      exact h
    rw [if_neg (ne_nil_of_mem (mem_entries.mpr hread)), lookup_insert_eq, if_pos hkey]
    exact hread
  · split
    · rw [lookup_erase_eq, if_neg hkey]
      exact h
    · rw [lookup_insert_eq, if_neg hkey]
      exact h

theorem Indexed.forgetOwned (h : s.Indexed) (name : Bytes) : (s.forgetOwned name).Indexed := fun n reg hn => by
  rw [owned_forgetOwned] at hn
  split at hn
  · cases hn
  next hne =>
    exact indexOf_forgetOwned s hne (h n reg hn)

theorem Indexed.own (h : s.Indexed) (name : Bytes) (p : PID) (priority : UInt32) : (s.own name p priority).Indexed := by
  intro n reg hn
  rw [owned_own] at hn
  have hindex : ((s.indexOwned name p).indexOf reg.pid).lookup n = some () := by
    unfold indexOwned
    split
    next hany =>
      split at hn
      next hname =>
        cases hn
        cases hold : s.owned.lookup name with
        | none =>
          rw [hold] at hany
          cases hany
        | some old =>
          rw [hold, any_some, decide_eq_true_iff] at hany
          rw [hname, ← hany]
          exact h name old hold
      · exact h n reg hn
    · unfold indexOf
      rw [lookup_insert_eq]
      split at hn
      next hname =>
        cases hn
        rw [if_pos rfl, getD_some, lookup_insert_eq, if_pos hname]
      rename_i hname
      have hbase := indexOf_forgetOwned s hname (h n reg hn)
      split
      next hkey =>
        rw [getD_some, lookup_insert_eq, if_neg hname, ← hkey]
        exact hbase
      · exact hbase
  exact hindex

/-- A running service whose live local dots are all owned, with an index that has every owned name. -/
structure Tidy (s : Service) : Prop where
  running : s.stopped = false
  keyed : s.state.Keyed
  owned : ∀ name e, s.state.dot name s.state.localNode = some e → e.deleted = false →
    ∃ reg, s.owned.lookup name = some reg ∧ reg.pid = e.pid
  indexed : s.Indexed

theorem Tidy.localKept (h : s.Tidy) (hrun : t.stopped = s.stopped) (howned : t.owned = s.owned)
    (hindex : t.ownedByPID = s.ownedByPID) (hkeyed : t.state.Keyed) (hkept : s.state.LocalKept t.state) : t.Tidy where
  running := hrun.trans h.running
  keyed := hkeyed
  owned := fun name e he hlive => by
    rw [hkept.localNode] at he
    obtain ⟨cur, hcur, hcurlive, hpid⟩ := hkept.live name e he hlive
    obtain ⟨reg, hreg, hregpid⟩ := h.owned name cur hcur hcurlive
    exact ⟨reg, howned ▸ hreg, hregpid.trans hpid⟩
  indexed := by
    unfold Indexed indexOf
    rw [howned, hindex]
    exact h.indexed

theorem Tidy.stored (h : s.Tidy) {e : Entry} (hst : Stored s.state t.state e) (hrun : t.stopped = s.stopped)
    (hindexed : t.Indexed) (howned : ∀ n, n ≠ e.name → t.owned.lookup n = s.owned.lookup n)
    (hlive : e.deleted = false → ∃ reg, t.owned.lookup e.name = some reg ∧ reg.pid = e.pid)
    (hnode : e.node = s.state.localNode) : t.Tidy where
  running := hrun.trans h.running
  keyed := h.keyed.stored hst
  owned := fun name x hx hxlive => by
    rw [hst.table.localNode, hst.dot] at hx
    split at hx
    next hk =>
      cases hx
      rw [hk.1]
      exact hlive hxlive
    next hk =>
      have hname : name ≠ e.name := fun heq => hk ⟨heq, hnode.symm⟩
      rw [howned name hname]
      exact h.owned name x hx hxlive
  indexed := hindexed

theorem Tidy.push (h : s.Tidy) (e : Entry) : (s.push e).Tidy := { h with }

theorem Tidy.withdrawn (h : s.Tidy) (name : Bytes) (nowMs : Int64) (hrun : t.stopped = s.stopped)
    (hstate : t.state = (s.state.unregister name nowMs).1) (howned : t.owned = (s.forgetOwned name).owned)
    (hindex : t.ownedByPID = (s.forgetOwned name).ownedByPID) : t.Tidy := by
  have hindexed : t.Indexed := by
    unfold Indexed indexOf
    rw [howned, hindex]
    exact h.indexed.forgetOwned name
  have hother : ∀ n, n ≠ name → t.owned.lookup n = s.owned.lookup n := fun n hne => by
    rw [howned, owned_forgetOwned, if_neg hne]
  rcases unregister_cases s.state name nowMs with ⟨hdead, heq⟩ | ⟨t', e, heq, hname, hdel, hm, -⟩
  · rw [heq] at hstate
    refine ⟨hrun.trans h.running, hstate ▸ h.keyed, fun n e he hlive => ?_, hindexed⟩
    rw [hstate] at he
    have hne : n ≠ name := fun hn => by
      rw [hdead e (hn ▸ he)] at hlive
      cases hlive
    rw [hother n hne]
    exact h.owned n e he hlive
  · rw [heq] at hstate
    have hst : Stored s.state t.state e := hstate ▸ hm.toStored
    refine h.stored hst hrun hindexed (hname ▸ hother) (fun hlive => ?_) hm.node
    rw [hdel] at hlive
    cases hlive

theorem forgetOwned_frame (s : Service) (state : State) (queue : BroadcastQueue) (name : Bytes) :
    ({ s with state, queue } : Service).forgetOwned name = { s.forgetOwned name with state, queue } := by
  unfold forgetOwned
  cases s.owned.lookup name <;> rfl

theorem Tidy.unregister (h : s.Tidy) (name : Bytes) (nowMs : Int64) : (s.unregister name nowMs).1.Tidy := by
  obtain ⟨queue, heq⟩ := withdraw_eq s name nowMs
  unfold Service.unregister
  rw [if_neg (by simp [h.running])]
  dsimp only
  rw [heq, forgetOwned_frame]
  obtain ⟨owned, ownedByPID, hforget⟩ := forgetOwned_eq s name
  exact h.withdrawn name nowMs (by rw [hforget]) rfl rfl rfl

theorem Tidy.releaseOwned (h : s.Tidy) (name : Bytes) (p : PID) (nowMs : Int64) :
    (s.releaseOwned name p nowMs).Tidy := by
  unfold Service.releaseOwned
  split
  · split
    · obtain ⟨queue, heq⟩ := withdraw_eq (s.forgetOwned name) name nowMs
      obtain ⟨owned, ownedByPID, hforget⟩ := forgetOwned_eq s name
      rw [heq]
      refine h.withdrawn name nowMs ?_ ?_ rfl rfl <;> rw [hforget]
    · exact h
  · exact h

/-- What makes the dot of a registration owned: it is refused locally, the pid owns the name already, or it outranks
    every live dot of another origin. -/
def Owning (s : Service) : Event → Prop
  | .register name p priority _ =>
    (∃ cur ∈ (s.state.dots name).values, cur.node = s.state.localNode ∧ cur.deleted = false ∧ cur.pid ≠ p) ∨
      (s.owned.lookup name).any (fun reg => reg.pid = p) = true ∨ s.state.Prevails name priority
  | _ => True

theorem Tidy.register (h : s.Tidy) {p : PID} {priority : UInt32} {nowMs : Int64}
    (hev : s.Owning (.register name p priority nowMs)) : (s.register name p priority nowMs).1.Tidy := by
  rcases register_effect s h.running name p priority nowMs with heq | ⟨t, r, hreg, hr, hm, hfree, heq⟩
  · rw [heq]
    exact h
  have hname : r.entry.name = name := by rw [hr]; rfl
  have hpid : r.entry.pid = p := by rw [hr]; rfl
  rw [heq]
  refine Tidy.push ?_ r.entry
  split
  · obtain ⟨owned, ownedByPID, hown⟩ := own_eq { s with state := t } name p priority
    refine h.stored (e := r.entry) ?_ ?_ ?_ ?_ ?_ hm.node
    · rw [hown]
      exact hm.toStored
    · rw [hown]
    · exact Indexed.own (s := { s with state := t }) h.indexed name p priority
    · intro n hne
      rw [owned_own, if_neg (hname ▸ hne)]
    · intro _
      exact ⟨⟨p, priority⟩, by rw [owned_own, if_pos hname], hpid.symm⟩
  next hlose =>
    refine h.stored (t := { s with state := t }) hm.toStored rfl h.indexed (fun _ _ => rfl) (fun _ => ?_) hm.node
    -- A registration that neither is refused nor prevails is of a name that the pid owns.
    rcases hev with ⟨cur, hcur, hnode, hlive, hother⟩ | howned | hprevails
    · obtain ⟨id, hid⟩ := mem_values.mp hcur
      rw [(h.keyed name id cur hid).2] at hnode
      exact absurd (hfree cur (hnode ▸ hid) hlive) hother
    · cases hreg' : s.owned.lookup name with
      | none =>
        rw [hreg'] at howned
        cases howned
      | some reg =>
        rw [hreg', any_some, decide_eq_true_iff] at howned
        exact ⟨reg, hname ▸ hreg', howned.trans hpid.symm⟩
    · have hwon := h.keyed.register_won nowMs hprevails hfree
      rw [hreg] at hwon
      exact absurd hwon hlose

theorem Tidy.reassertOwned (h : s.Tidy) (name : Bytes) (nowMs : Int64) : (s.reassertOwned name nowMs).Tidy := by
  rcases reassertOwned_effect s name nowMs with heq | ⟨reg, t, r, hreg, -, hr, hm, heq⟩
  · rw [heq]
    exact h
  have hstored : ({ s with state := t }).Tidy := by
    refine h.stored (t := { s with state := t }) hm.toStored rfl h.indexed (fun _ _ => rfl) (fun _ => ?_) hm.node
    rw [hr]
    exact ⟨reg, hreg, rfl⟩
  rw [heq]
  split
  · exact hstored.push r.entry
  · exact hstored

theorem Tidy.applyIncoming (h : s.Tidy) (d : Delta) (nowMs : Int64) : (s.applyIncoming d nowMs).Tidy := by
  have hkeyed : (s.state.internNode d.origin).1.Keyed := h.keyed.of_entries (internNode_other s.state d.origin).1
  have hmerged : (s.merged d).Tidy :=
    h.localKept rfl rfl rfl (hkeyed.apply _) ((localKept_internNode s.state d.origin).trans (hkeyed.localKept_apply _))
  rcases applyIncoming_cases s d nowMs with heq | heq
  · rw [heq]
    exact hmerged
  · rw [heq]
    exact hmerged.reassertOwned d.name nowMs

theorem Tidy.step (h : s.Tidy) {ev : Event} (hev : s.Owning ev) : (s.step ev).Tidy := by
  cases ev with
  | register name p priority nowMs => exact h.register hev
  | unregister name nowMs => exact h.unregister name nowMs
  | releasePID p order now =>
    simp only [Service.step, releasePID]
    split
    · exact h
    · exact foldlRecOn _ _ h fun _ hs name _ => hs.releaseOwned name p (now name)
  | applyIncoming d nowMs => exact h.applyIncoming d nowMs
  | nodeLeft node =>
    simp only [Service.step, onNodeLeft]
    split
    · exact h
    · obtain ⟨queue, heq⟩ := s.handleNodeLeft_eq node
      rw [heq]
      exact h.localKept rfl rfl rfl (h.keyed.reapNode node) (localKept_reapNode s.state node)
  | runOnce alivePeers nowMs floorMs =>
    refine h.localKept rfl rfl rfl ?_ ((localKept_reapTombstones s.state _ nowMs floorMs).trans (localKept_reclaim _ _))
    exact (h.keyed.reapTombstones _ nowMs floorMs).of_entries (reclaim_other _ _).1
  | mergeRemoteState localDigest buf =>
    obtain ⟨state, tracker, hlearns, heq⟩ :=
      s.mergeRemoteState_eq (P := fun _ => True) localDigest fun (_) (_) => trivial
    obtain ⟨hentries, hlocal⟩ := hlearns.other
    simp only [Service.step]
    rw [heq]
    refine h.localKept rfl rfl rfl (h.keyed.of_entries hentries) (.of_dots hlocal fun name e he => ?_)
    exact dot_of_entries hentries name s.state.localNode ▸ he
  | drainBroadcasts overhead budget => exact { h with }

/-- No live dot of this node is for the process. -/
def Released (s : Service) (p : PID) : Prop :=
  ∀ name e, s.state.dot name s.state.localNode = some e → e.deleted = false → e.pid ≠ p

theorem owned_releaseOwned (s : Service) (name : Bytes) (p : PID) (nowMs : Int64)
    (h : (s.releaseOwned name p nowMs).owned.lookup n = some reg) :
    s.owned.lookup n = some reg ∧ (n = name → reg.pid ≠ p) := by
  unfold Service.releaseOwned at h
  split at h
  next reg' hreg' =>
    split at h
    · obtain ⟨queue, heq⟩ := withdraw_eq (s.forgetOwned name) name nowMs
      rw [heq, owned_forgetOwned] at h
      split at h
      · cases h
      next hne =>
        exact ⟨h, fun heq => absurd heq hne⟩
    next hne =>
      refine ⟨h, fun heq => ?_⟩
      rw [heq, hreg', Option.some.injEq] at h
      exact h ▸ hne
  next hnone =>
    refine ⟨h, fun heq => ?_⟩
    rw [heq, hnone] at h
    cases h

theorem owned_releaseAll (s : Service) (names : List Bytes) (p : PID) (now : Bytes → Int64)
    (h : (names.foldl (fun s name => s.releaseOwned name p (now name)) s).owned.lookup n = some reg) :
    s.owned.lookup n = some reg ∧ (n ∈ names → reg.pid ≠ p) := by
  induction names generalizing s with
  | nil => exact ⟨h, fun hn => absurd hn not_mem_nil⟩
  | cons name names ih =>
    obtain ⟨hrest, hnames⟩ := ih (s.releaseOwned name p (now name)) h
    obtain ⟨hown, hname⟩ := owned_releaseOwned s name p (now name) hrest
    refine ⟨hown, fun hmem => ?_⟩
    rcases mem_cons.mp hmem with heq | hmem
    · exact hname heq
    · exact hnames hmem

theorem Tidy.released (h : s.Tidy) (p : PID) (order : Bytes → Nat) (now : Bytes → Int64) :
    (s.releasePID p order now).Released p := by
  intro name e he hlive hpid
  have htidy : (s.releasePID p order now).Tidy := h.step (show s.Owning (.releasePID p order now) from trivial)
  obtain ⟨reg, hreg, hregpid⟩ := htidy.owned name e he hlive
  unfold releasePID at hreg
  rw [if_neg (by simp [h.running])] at hreg
  obtain ⟨hown, hnames⟩ := owned_releaseAll s _ p now hreg
  refine hnames ?_ (hregpid.trans hpid)
  -- The index had the name, since the pid owned it.
  have hindex := h.indexed name reg hown
  rw [hregpid.trans hpid] at hindex
  have hkey : name ∈ (s.indexOf p).keys := AList.mem_keys.mp (AList.lookup_isSome.mp (by rw [hindex]; rfl))
  exact (mem_insertionSort _).mpr hkey

theorem Tidy.newService (localNodeID : Bytes) (cap : Int) : (newService localNodeID cap).Tidy where
  running := rfl
  keyed := (Sourced.newState localNodeID).keyed
  owned := fun _ _ he => (nomatch he)
  indexed := fun _ _ hreg => (nomatch hreg)

/-- In every run in which each registration is refused locally, is of a name that the pid owns or outranks the live dots
    of other origins. -/
theorem released_of_reach {localNodeID : Bytes} {broadcastCap : Int}
    (h : Reach step Owning (newService localNodeID broadcastCap) s) (p : PID) (order : Bytes → Nat)
    (now : Bytes → Int64) :
    (s.releasePID p order now).Released p :=
  Tidy.released (h.invariant (Tidy.newService localNodeID broadcastCap) fun _ _ hev hs => hs.step hev) p order now

instance (s : State) (name : Bytes) (priority : UInt32) : Decidable (s.Prevails name priority) :=
  inferInstanceAs (Decidable (∀ e ∈ (s.dots name).values, _))

instance (s : Service) : ∀ ev, Decidable (s.Owning ev)
  | .register name .. => inferInstanceAs (Decidable ((∃ cur ∈ (s.state.dots name).values, _) ∨ _ ∨ _))
  | .unregister .. | .releasePID .. | .applyIncoming .. | .nodeLeft _ | .runOnce .. | .mergeRemoteState .. |
    .drainBroadcasts .. => .isTrue trivial

/-- A dot of another node for the same name. -/
def rival (counter : UInt64) (priority : UInt32) : Delta :=
  { pid := { node := [98], uniqID := [1] }, name := [107], origin := [98], counter, wall := 0, priority }

/-- The process's claim outranks the rival's first one; another process is refused; the process claims the name again
    after the rival outranked it. -/
theorem released_of_reach_prevailing :
    let es : List Event := [.applyIncoming (rival 1 0) 0, .register [107] { uniqID := [2] } 1 0,
      .register [107] { uniqID := [3] } 9 0, .applyIncoming (rival 2 5) 0, .register [107] { uniqID := [2] } 1 0]
    Along step Owning (newService [110] 0) es ∧
      ((es.foldl step (newService [110] 0)).releasePID { uniqID := [2] } (fun _ => 0) fun _ => 0).Released
        { uniqID := [2] } :=
  ⟨by decide, released_of_reach (Reach.of_along (by decide)) _ _ _⟩

/-- A registration that loses to a rival. -/
def outranked : List Event := [.applyIncoming (rival 1 5) 0, .register [107] { uniqID := [2] } 0 0]

theorem not_released_outranked :
    ¬∀ (localNodeID : Bytes) (broadcastCap : Int) (s : Service) (p : PID) (order : Bytes → Nat)
    (now : Bytes → Int64), Reach step (fun _ _ => True) (newService localNodeID broadcastCap) s →
      (s.releasePID p order now).Released p := by
  intro h
  have hall : Along step (fun _ _ => True) (newService [110] 0) outranked := along_of_forall (fun _ _ => trivial) _ _
  have hreleased := h [110] 0 _ { uniqID := [2] } (fun _ => 0) (fun _ => 0) (Reach.of_along hall)
  exact hreleased [107] { pid := { uniqID := [2] }, name := [107], counter := 1, wall := 0, node := 0, priority := 0 }
    (by decide) rfl rfl

end Service
end Wippy.Eventual
