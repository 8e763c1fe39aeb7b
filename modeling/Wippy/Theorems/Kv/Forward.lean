import Wippy.Kv.Forward
import Wippy.Lib.MapSum

/-! A forwarded write is applied at most once: the right to append the command of a call is a token, which a step passes
    on or drops and which appending the command uses up. -/

namespace Wippy.Kv.Raft
open Lib Lib.Wire List Option Map

variable {res : WriteResult} {err : Option WriteError} {node data msg out : Bytes} {r : Reply}
  {attempt corr next call : Nat} {e : WriteError} {kind : UInt8} {p : Phase}

theorem decode_err (out : Bytes) : (∃ f, (decodeForwardWriteResponse out).err = some (.fault f)) ∨
    (decodeForwardWriteResponse out).err = kindToErr (out.getD 17 0) (out.drop 18) := by
  unfold decodeForwardWriteResponse
  dsimp only
  repeat' split
  all_goals first | exact .inl ⟨_, rfl⟩ | exact .inr rfl

theorem kindToErr_spec (kind : UInt8) (msg : Bytes) : (kindToErr kind msg = none → kind = errNone) ∧
    (kindToErr kind msg = some .forwardNotLeader → kind = errNotLeaderCode) ∧ kindToErr kind msg ≠ some .notLeader := by
  unfold kindToErr
  repeat' split
  all_goals simp_all

/-- What the error of a reply says about its kind. No reply is read as the error of a local `Apply`. -/
theorem decode_spec (out : Bytes) : ((decodeForwardWriteResponse out).err = none → out.getD 17 0 = errNone) ∧
    ((decodeForwardWriteResponse out).err = some .forwardNotLeader → out.getD 17 0 = errNotLeaderCode) ∧
    (decodeForwardWriteResponse out).err ≠ some .notLeader := by
  rcases decode_err out with ⟨f, hf⟩ | herr
  · simp [hf]
  · rw [herr]
    exact kindToErr_spec _ _

theorem encode_kind (corr : Nat) (res : WriteResult) :
    (encodeForwardWriteResponse corr res).getD 17 0 = (errToKind res.err).1 := by
  simp [encodeForwardWriteResponse, getD_eq_getElem?_getD, getElem?_append]

theorem errToKind_spec (err : Option WriteError) : ((errToKind err).1 = errNone → err = none) ∧
    ((errToKind err).1 = errNotLeaderCode → err = some .notLeader) := by
  unfold errToKind
  split
  all_goals refine ⟨fun h => ?_, fun h => ?_⟩
  all_goals first | rfl | cases h

theorem decode_encode (corr : Nat) (h : res.err = none) :
    decodeForwardWriteResponse (encodeForwardWriteResponse corr res) = res := by
  obtain ⟨err, version, ok⟩ := res
  subst h
  generalize hout : encodeForwardWriteResponse corr ⟨none, version, ok⟩ = out
  have hkind : out.getD 17 0 = errNone := hout ▸ encode_kind corr ⟨none, version, ok⟩
  have hlength : out.length = 18 := by
    rw [← hout]
    simp [encodeForwardWriteResponse, errToKind]
  have hflag : out.getD 16 0 = if ok then 1 else 0 := by
    rw [← hout]
    simp [encodeForwardWriteResponse, getD_eq_getElem?_getD, getElem?_append]
  have hversion : readUint64 out 8 = version := by
    have hbytes : (out.drop 8).take 8 = be 8 version.toNat := by
      rw [← hout]
      simp [encodeForwardWriteResponse, errToKind]
    unfold readUint64
    rw [hbytes, ofBE_be, Nat.mod_eq_of_lt (show version.toNat < 256 ^ 8 from version.toNat_lt)]
    exact UInt64.ofNat_toNat
  unfold decodeForwardWriteResponse
  rw [hlength, hkind, hversion, hflag]
  cases ok <;> rfl

/-! ### The token of a call -/

/-- Whether an activity at this point may still append its command, or have it appended. -/
def Phase.token : Phase → Int
  | .applying none | .serving | .resolving _ => 1
  | .applying (some _) | .waiting _ _ none => 0
  | .waiting _ _ (some res) => if res.err = some .forwardNotLeader then 1 else 0
  | .answering res => if res.err = some .notLeader then 1 else 0

/-- The tokens of the call `k` that an activity has. -/
def Activity.token (k : Nat) (a : Activity) : Int := if a.call = k then a.phase.token else 0

/-- A request has the token of its call. -/
def Request.token (k : Nat) (r : Request) : Int := if r.call = k then 1 else 0

/-- A reply has the token if it lets its reader try again. -/
def Reply.token (k : Nat) (r : Reply) : Int :=
  if r.call = k ∧ (decodeForwardWriteResponse r.out).err = some .forwardNotLeader then 1 else 0

/-- Raft may still append the command of an orphan. -/
def Orphan.token (k : Nat) (o : Orphan) : Int := if o.call = k then 1 else 0

/-- An appended command has used its token up. -/
def LogEntry.token (k : Nat) (e : LogEntry) : Int := if e.call = k then 1 else 0

theorem Phase.token_nonneg (p : Phase) : 0 ≤ p.token := by
  unfold token
  repeat' split
  all_goals decide

theorem Activity.token_nonneg (k : Nat) (a : Activity) : 0 ≤ a.token k := by
  unfold token
  split
  · exact a.phase.token_nonneg
  · exact Int.le_refl 0

theorem Request.token_nonneg (k : Nat) (r : Request) : 0 ≤ r.token k := by
  unfold token
  split <;> decide

theorem Reply.token_nonneg (k : Nat) (r : Reply) : 0 ≤ r.token k := by
  unfold token
  split <;> decide

theorem Orphan.token_nonneg (k : Nat) (o : Orphan) : 0 ≤ o.token k := by
  unfold token
  split <;> decide

namespace Forwarding

/-- All tokens of the call `k`. -/
def tokens (s : Forwarding) (k : Nat) : Int :=
  s.activities.sum (Activity.token k) + s.requests.sum (Request.token k) + s.replies.sum (Reply.token k) +
    s.orphans.sum (Orphan.token k) + (s.log.map (LogEntry.token k)).sum

end Forwarding

/-- What the parts of a state say about the past: the log, the numbers given out, and the calls. -/
structure Record where
  log : List LogEntry
  corr : Bytes → Nat
  owner : Bytes → Nat → Nat
  calls : List Bytes

namespace Record
variable (R : Record)

/-- A result without an error is the state machine's for an appended command of the call. -/
def Vouched (call : Nat) (res : WriteResult) : Prop :=
  res.err = none → ∃ e ∈ R.log, ∃ r, e.call = call ∧ e.response = .kv r ∧ r.write = res

/-- The node has used the number, for that call. -/
def Owns (node : Bytes) (corr call : Nat) : Prop := corr ≤ R.corr node ∧ R.owner node corr = call

/-- The data is the command of the call in the domain of the kv. -/
def Carries (data : Bytes) (call : Nat) : Prop := ∃ cmd, R.calls[call]? = some cmd ∧ data = kvDomain :: cmd

/-- What an activity for the call knows at its program point. -/
def PhaseSound (node : Bytes) (call : Nat) : Phase → Prop
  | .applying (some resp) => ∃ e ∈ R.log, ∃ r, e.call = call ∧ e.response = .kv r ∧ resp = .kv r
  | .waiting _ corr none => R.Owns node corr call
  | .waiting _ corr (some res) => R.Owns node corr call ∧ R.Vouched call res ∧ res.err ≠ some .notLeader
  | .answering res => R.Vouched call res
  | .applying none | .serving | .resolving _ => True

/-- An activity carries its command, answers under a number of its call, and is sound where it is. -/
structure ActivitySound (a : Activity) : Prop where
  data : R.Carries a.data a.call
  origin : ∀ node corr, a.origin = some (node, corr) → R.Owns node corr a.call
  phase : R.PhaseSound a.node a.call a.phase

/-- A request carries its command under a number of its call. -/
structure RequestSound (r : Request) : Prop where
  data : R.Carries r.data r.call
  owner : R.Owns r.source r.corr r.call

/-- A reply goes to a number of its call, and an error-free one is vouched for. -/
structure ReplySound (r : Reply) : Prop where
  owner : R.Owns r.dest r.corr r.call
  vouched : R.Vouched r.call (decodeForwardWriteResponse r.out)

/-- The past only grows. -/
structure Grows (R T : Record) : Prop where
  log : ∀ e ∈ R.log, e ∈ T.log
  corr : ∀ n, R.corr n ≤ T.corr n
  owner : ∀ n c, c ≤ R.corr n → T.owner n c = R.owner n c
  calls : R.calls <+: T.calls

variable {R} {T : Record} {call : Nat}

section
variable (hg : Grows R T)
include hg

theorem Vouched.grow (h : R.Vouched call res) : T.Vouched call res := fun herr => by
  obtain ⟨e, he, r, hrest⟩ := h herr
  exact ⟨e, hg.log e he, r, hrest⟩

theorem Owns.grow (h : R.Owns node corr call) : T.Owns node corr call :=
  ⟨h.1.trans (hg.corr node), (hg.owner node corr h.1).trans h.2⟩

theorem Carries.grow (h : R.Carries data call) : T.Carries data call := by
  obtain ⟨cmd, hcmd, hdata⟩ := h
  obtain ⟨rest, hrest⟩ := hg.calls
  refine ⟨cmd, ?_, hdata⟩
  rw [← hrest]
  exact (getElem?_append_left (List.getElem?_eq_some_iff.mp hcmd).1).trans hcmd

theorem PhaseSound.grow (h : R.PhaseSound node call p) : T.PhaseSound node call p := by
  unfold PhaseSound at h ⊢
  split at h
  · obtain ⟨e, he, r, hrest⟩ := h
    exact ⟨e, hg.log e he, r, hrest⟩
  · exact Owns.grow hg h
  · exact ⟨Owns.grow hg h.1, Vouched.grow hg h.2.1, h.2.2⟩
  · exact Vouched.grow hg h
  all_goals trivial

theorem ActivitySound.grow {a : Activity} (h : R.ActivitySound a) : T.ActivitySound a :=
  ⟨h.data.grow hg, fun node corr ho => (h.origin node corr ho).grow hg, h.phase.grow hg⟩

theorem RequestSound.grow {r : Request} (h : R.RequestSound r) : T.RequestSound r :=
  ⟨h.data.grow hg, h.owner.grow hg⟩

theorem ReplySound.grow (h : R.ReplySound r) : T.ReplySound r :=
  ⟨h.owner.grow hg, h.vouched.grow hg⟩

end

theorem vouched_error (h : res.err = some e) : R.Vouched call res :=
  fun hnone => absurd (h.symm.trans hnone) (by simp)

end Record

namespace Forwarding

/-- The record of a state. -/
def record (s : Forwarding) : Record := { log := s.log, corr := s.corr, owner := s.owner, calls := s.calls }

/-- What is kept under numbers that were given out, each below `next`. -/
def Held {α : Type} (P : α → Prop) (next : Nat) (m : Map Nat α) : Prop := ∀ id x, m.lookup id = some x → id < next ∧ P x

/-- The invariant between steps of `n` calls: the parts are sound, and the call `k` has at most `b k` tokens. -/
structure Inv (n : Nat) (b : Nat → Int) (s : Forwarding) : Prop where
  count : s.calls.length = n
  activities : Held s.record.ActivitySound s.next s.activities
  requests : Held s.record.RequestSound s.next s.requests
  replies : Held s.record.ReplySound s.next s.replies
  orphans : Held (fun o => s.record.Carries o.data o.call) s.next s.orphans
  log : ∀ e ∈ s.log, s.record.Carries e.data e.call
  returned : ∀ x ∈ s.returned, x.err = none → x.res.err = none ∧ s.record.Vouched x.call x.res
  tokens : ∀ k, s.tokens k ≤ b k

section
variable {α : Type} {P Q : α → Prop} {m : Map Nat α} {x : α} {id : Nat}

theorem sum_erase_eq (m : Map Nat α) (f : α → Int) (id : Nat) :
    Map.sum (m.erase id) f = m.sum f - (m.lookup id).elim 0 f := by
  have := sum_erase m f id
  omega

variable (h : Held P next m)
include h

theorem Held.fresh : m.lookup next = none := by
  cases hl : m.lookup next with
  | none => rfl
  | some x => exact absurd (h next x hl).1 (Nat.lt_irrefl _)

theorem Held.insert (hid : id < next) (hx : P x) : Held P next (m.insert id x) := by
  intro id' y hy
  rcases lookup_insert_some hy with ⟨rfl, rfl⟩ | ⟨-, hy⟩
  · exact ⟨hid, hx⟩
  · exact h id' y hy

theorem Held.erase (id : Nat) : Held P next (m.erase id) :=
  fun id' x hx => h id' x (lookup_erase_some.mp hx).1

theorem Held.mono {next' : Nat} (hle : next ≤ next') (hPQ : ∀ x, P x → Q x) : Held Q next' m :=
  fun id x hx => ⟨(h id x hx).1.trans_le hle, hPQ x (h id x hx).2⟩

theorem Held.later : Held P (next + 1) m := h.mono (Nat.le_succ _) fun _ hx => hx

theorem Held.sum_insert (f : α → Int) (x : α) : Map.sum (m.insert next x) f = m.sum f + f x := by
  have hsum := Map.sum_insert m f next x
  rw [h.fresh, elim_none, Int.add_zero] at hsum
  exact hsum

end

namespace Inv
variable {n : Nat} {b : Nat → Int} {s : Forwarding} {id : Nat} {a : Activity}

theorem mono (h : s.Inv n b) {b' : Nat → Int} (hb : ∀ k, b k ≤ b' k) : s.Inv n b' :=
  { h with tokens := fun k => (h.tokens k).trans (hb k) }

theorem drop (h : s.Inv n fun k => b k - a.token k) : s.Inv n b := h.mono fun k => by
  have := a.token_nonneg k
  omega

section
variable (h : s.Inv n b)
include h

theorem setActivity (hl : s.activities.lookup id = some a) (a' : Activity) (ha' : s.record.ActivitySound a') :
    (s.setActivity id a').Inv n fun k => b k - a.token k + a'.token k where
  __ := h
  activities := h.activities.insert (h.activities id a hl).1 ha'
  tokens k := by
    have hsum := sum_insert s.activities (Activity.token k) id a'
    rw [hl, elim_some] at hsum
    have htok := h.tokens k
    simp only [Forwarding.tokens, Forwarding.setActivity] at htok ⊢
    omega

theorem eraseActivity (hl : s.activities.lookup id = some a) :
    { s with activities := s.activities.erase id }.Inv n fun k => b k - a.token k where
  __ := h
  activities := h.activities.erase id
  tokens k := by
    have htok := h.tokens k
    simp only [Forwarding.tokens, sum_erase_eq, hl, elim_some] at htok ⊢
    omega

theorem skip : { s with next := s.next + 1 }.Inv n b where
  __ := h
  activities := h.activities.later
  requests := h.requests.later
  replies := h.replies.later
  orphans := h.orphans.later

theorem newActivity (ha : s.record.ActivitySound a) :
    { s with activities := s.activities.insert s.next a, next := s.next + 1 }.Inv n fun k => b k + a.token k where
  __ := h.skip
  activities := h.activities.later.insert (Nat.lt_succ_self _) ha
  tokens k := by
    have htok := h.tokens k
    simp only [Forwarding.tokens, h.activities.sum_insert] at htok ⊢
    omega

theorem newRequest {r : Request} (hr : s.record.RequestSound r) :
    { s with requests := s.requests.insert s.next r, next := s.next + 1 }.Inv n fun k => b k + r.token k where
  __ := h.skip
  requests := h.requests.later.insert (Nat.lt_succ_self _) hr
  tokens k := by
    have htok := h.tokens k
    simp only [Forwarding.tokens, h.requests.sum_insert] at htok ⊢
    omega

theorem newReply (hr : s.record.ReplySound r) :
    { s with replies := s.replies.insert s.next r, next := s.next + 1 }.Inv n fun k => b k + r.token k where
  __ := h.skip
  replies := h.replies.later.insert (Nat.lt_succ_self _) hr
  tokens k := by
    have htok := h.tokens k
    simp only [Forwarding.tokens, h.replies.sum_insert] at htok ⊢
    omega

theorem newOrphan {o : Orphan} (ho : s.record.Carries o.data o.call) :
    { s with orphans := s.orphans.insert s.next o, next := s.next + 1 }.Inv n fun k => b k + o.token k where
  __ := h.skip
  orphans := h.orphans.later.insert (Nat.lt_succ_self _) ho
  tokens k := by
    have htok := h.tokens k
    simp only [Forwarding.tokens, h.orphans.sum_insert] at htok ⊢
    omega

theorem eraseRequest (id : Nat) : { s with requests := s.requests.erase id }.Inv n
    fun k => b k - (s.requests.lookup id).elim 0 (Request.token k) where
  __ := h
  requests := h.requests.erase id
  tokens k := by
    have htok := h.tokens k
    simp only [Forwarding.tokens, sum_erase_eq] at htok ⊢
    omega

theorem eraseReply (id : Nat) : { s with replies := s.replies.erase id }.Inv n
    fun k => b k - (s.replies.lookup id).elim 0 (Reply.token k) where
  __ := h
  replies := h.replies.erase id
  tokens k := by
    have htok := h.tokens k
    simp only [Forwarding.tokens, sum_erase_eq] at htok ⊢
    omega

theorem eraseOrphan (id : Nat) : { s with orphans := s.orphans.erase id }.Inv n
    fun k => b k - (s.orphans.lookup id).elim 0 (Orphan.token k) where
  __ := h
  orphans := h.orphans.erase id
  tokens k := by
    have htok := h.tokens k
    simp only [Forwarding.tokens, sum_erase_eq] at htok ⊢
    omega

theorem grow {t : Forwarding} (hg : Record.Grows s.record t.record) (hact : t.activities = s.activities)
    (hreq : t.requests = s.requests) (hrep : t.replies = s.replies) (horph : t.orphans = s.orphans)
    (hret : t.returned = s.returned) (hnext : s.next ≤ t.next) (hlog : ∀ e ∈ t.log, t.record.Carries e.data e.call) :
    t.Inv t.calls.length fun k => b k + ((t.log.map (LogEntry.token k)).sum - (s.log.map (LogEntry.token k)).sum) where
  count := rfl
  activities := hact ▸ h.activities.mono hnext fun _ ha => ha.grow hg
  requests := hreq ▸ h.requests.mono hnext fun _ hr => hr.grow hg
  replies := hrep ▸ h.replies.mono hnext fun _ hr => hr.grow hg
  orphans := horph ▸ h.orphans.mono hnext fun _ ho => ho.grow hg
  log := hlog
  returned x hx herr := by
    obtain ⟨hres, hv⟩ := h.returned x (hret ▸ hx) herr
    exact ⟨hres, hv.grow hg⟩
  tokens k := by
    have htok := h.tokens k
    simp only [Forwarding.tokens, hact, hreq, hrep, horph] at htok ⊢
    omega

section
variable (hl : s.activities.lookup id = some a)
include hl

theorem returns (herr : err = none → res.err = none ∧ s.record.Vouched a.call res) :
    (s.returns id a.call res err).Inv n fun k => b k - a.token k := by
  refine { h.eraseActivity hl with returned := fun x hx hnone => ?_ }
  rcases mem_append.mp hx with hx | hx
  · exact h.returned x hx hnone
  · obtain rfl := mem_singleton.mp hx
    exact herr hnone

theorem answering (hv : s.record.Vouched a.call res) :
    (s.setActivity id { a with phase := .answering res }).Inv n
      fun k => b k - a.token k + if a.call = k ∧ res.err = some .notLeader then 1 else 0 := by
  have ha := (h.activities id a hl).2
  refine (h.setActivity hl { a with phase := .answering res } ⟨ha.data, ha.origin, hv⟩).mono fun k => ?_
  simp only [Activity.token, Phase.token]
  split <;> simp_all

theorem answering_ne (hv : s.record.Vouched a.call res) (hne : res.err ≠ some .notLeader) :
    (s.setActivity id { a with phase := .answering res }).Inv n fun k => b k - a.token k :=
  (h.answering hl hv).mono fun k => by rw [if_neg (fun hk => hne hk.2), Int.add_zero]

/-- `forwardToLeaderHop` returns, and its activity has no token any more. -/
theorem forwarded {r : Except WriteError WriteResult}
    (hok : ∀ res, r = .ok res → s.record.Vouched a.call res ∧ res.err ≠ some .notLeader)
    (herr : r ≠ .error .notLeader) : (s.forwarded id a r).Inv n fun k => b k - a.token k := by
  unfold Forwarding.forwarded
  split
  · exact h.returns hl fun hnone => absurd hnone (by simp)
  next res _ => exact h.returns hl fun hnone => ⟨hnone, (hok res rfl).1⟩
  next e _ => exact h.answering_ne hl (Record.vouched_error rfl) fun heq => herr (congrArg _ (Option.some.inj heq))
  next res _ => exact h.answering_ne hl (hok res rfl).1 (hok res rfl).2

theorem moveTo (hp : s.record.PhaseSound a.node a.call p) (htoken : p.token ≤ a.phase.token) :
    (s.setActivity id { a with phase := p }).Inv n b := by
  have ha := (h.activities id a hl).2
  refine (h.setActivity hl { a with phase := p } ⟨ha.data, ha.origin, hp⟩).mono fun k => ?_
  simp only [Activity.token]
  split <;> omega

end
end

theorem write_ne_notLeader (r : ApplyResult) : r.write.err ≠ some .notLeader := by
  intro herr
  obtain ⟨e, -, he⟩ := map_eq_some_iff.mp herr
  cases e <;> cases he

section
variable (shard : Bytes → Fin snapshotShards)

theorem applyLog_kv (f : RaftFSM) (cmd : Bytes) (order : List Bytes) :
    ∃ r, (applyLog shard f (kvDomain :: cmd) order).2 = .kv r :=
  ⟨_, rfl⟩

theorem append_grows (s : Forwarding) (call : Nat) (data : Bytes) (order : List Bytes) :
    Record.Grows s.record (s.append shard call data order).1.record :=
  ⟨fun _ he => mem_append_left _ he, fun _ => Nat.le_refl _, fun _ _ _ => rfl, prefix_rfl⟩

theorem append (h : s.Inv n b) (hdata : s.record.Carries data call) (order : List Bytes) :
    (s.append shard call data order).1.Inv n (fun k => b k + if call = k then 1 else 0) ∧
      ∃ r, (s.append shard call data order).2 = .kv r ∧
        ∃ e ∈ (s.append shard call data order).1.log, e.call = call ∧ e.response = .kv r := by
  have hgrow := append_grows shard s call data order
  obtain rfl := h.count
  constructor
  · refine (h.grow hgrow rfl rfl rfl rfl rfl (Nat.le_refl _) fun e he => ?_).mono fun k => ?_
    · rcases mem_append.mp he with he | he
      · exact (h.log e he).grow hgrow
      · obtain rfl := mem_singleton.mp he
        exact hdata.grow hgrow
    · simp only [Forwarding.append, map_append, sum_append, map_cons, map_nil, sum_cons,
        sum_nil, LogEntry.token]
      omega
  · obtain ⟨cmd, -, rfl⟩ := hdata
    obtain ⟨r, hr⟩ := applyLog_kv shard s.fsm cmd order
    exact ⟨r, hr, _, mem_append_right _ (mem_singleton.mpr rfl), rfl, hr⟩

theorem appendOpen (h : s.Inv n b) (id : Nat) (order : List Bytes) : (s.appendOpen shard id order).Inv n b := by
  unfold Forwarding.appendOpen
  split
  next a hl =>
    split
    next hphase =>
      have ha := (h.activities id a hl).2
      obtain ⟨hinv, r, hr, e, he, hcall, hresp⟩ := h.append shard ha.data order
      have hgrow := append_grows shard s a.call a.data order
      have hl' : (s.append shard a.call a.data order).1.activities.lookup id = some a := hl
      refine (hinv.setActivity hl' { a with phase := .applying (some (s.append shard a.call a.data order).2) }
        ⟨ha.data.grow hgrow, fun node corr ho => (ha.origin node corr ho).grow hgrow, ?_⟩).mono fun k => ?_
      · exact ⟨e, he, r, hcall, hresp, hr⟩
      · simp only [Activity.token, hphase, Phase.token]
        split <;> omega
    · exact h
  · exact h

theorem appendOrphan (h : s.Inv n b) (id : Nat) (order : List Bytes) : (s.appendOrphan shard id order).Inv n b := by
  unfold Forwarding.appendOrphan
  split
  next o hl =>
    refine ((h.eraseOrphan id).append shard (h.orphans id o hl).2 order).1.mono fun k => ?_
    rw [hl]
    simp only [elim_some, Orphan.token]
    split <;> omega
  · exact h

end

section
variable (h : s.Inv n b) (hl : s.activities.lookup id = some a)
include h hl

theorem responded {resp : Response} (hphase : a.phase = .applying (some resp)) : (s.responded id a resp).Inv n b := by
  have hps := (h.activities id a hl).2.phase
  rw [hphase] at hps
  obtain ⟨e, he, r, hcall, hresp, rfl⟩ := hps
  have hv : s.record.Vouched a.call r.write := fun _ => ⟨e, he, r, hcall, hresp, rfl⟩
  unfold Forwarding.responded
  split
  next heq =>
    obtain rfl := Response.kv.inj heq
    exact (h.returns hl fun hnone => ⟨hnone, hv⟩).drop
  next heq => cases heq
  next heq =>
    obtain rfl := Response.kv.inj heq
    exact (h.answering_ne hl hv (write_ne_notLeader r)).drop
  next heq => cases heq

theorem rejected (hphase : a.phase = .applying none) : (s.rejected id a).Inv n b := by
  unfold Forwarding.rejected
  split
  · split
    · exact h.moveTo hl trivial (by rw [hphase]; exact Int.le_refl 1)
    · exact (h.returns hl fun hnone => absurd hnone (by simp)).drop
  · exact h.moveTo hl (Record.vouched_error rfl) (by rw [hphase]; exact Int.le_refl 1)

theorem erred (msg : Bytes) : (s.erred id a msg).Inv n fun k => b k - a.token k := by
  unfold Forwarding.erred
  split
  · exact h.returns hl fun hnone => absurd hnone (by simp)
  · exact h.answering_ne hl (Record.vouched_error rfl) (by simp)

end

theorem applyReturns (h : s.Inv n b) (id : Nat) (outcome : Outcome) : (s.applyReturns id outcome).Inv n b := by
  unfold Forwarding.applyReturns
  split
  next a hl =>
    split
    next hphase => exact h.responded hl hphase
    next hphase => exact h.rejected hl hphase
    next msg hphase =>
      -- the token stays with raft, which may still append the command
      have horph := h.newOrphan (o := { data := a.data, call := a.call }) (h.activities id a hl).2.data
      refine (horph.erred hl msg).mono fun k => ?_
      simp only [Orphan.token, Activity.token, hphase, Phase.token]
      split <;> omega
    next msg hphase => exact (h.erred hl msg).drop
    · exact h
  · exact h

theorem applyForward (h : s.Inv n b) (id : Nat) (stopped isLeader : Bool) :
    (s.applyForward id stopped isLeader).Inv n b := by
  unfold Forwarding.applyForward
  split
  next a hl =>
    split
    next hphase =>
      have htoken : a.phase.token = 1 := by rw [hphase]; rfl
      split
      · exact (h.answering_ne hl (Record.vouched_error rfl) (by simp)).drop
      split
      · exact h.moveTo hl trivial (htoken ▸ Int.le_refl 1)
      split
      · exact h.moveTo hl (Record.vouched_error rfl) (htoken ▸ Int.le_refl 1)
      · exact h.moveTo hl trivial (htoken ▸ Int.le_refl 1)
    · exact h
  · exact h

/-- The part of `sendForward` that gives out the next number of a node. -/
def register (s : Forwarding) (node : Bytes) (call : Nat) : Forwarding := { s with
  corr := fun n => if n = node then s.corr node + 1 else s.corr n
  owner := fun n c => if n = node ∧ c = s.corr node + 1 then call else s.owner n c }

theorem register_grows (s : Forwarding) (node : Bytes) (call : Nat) :
    Record.Grows s.record (register s node call).record := by
  refine ⟨fun _ he => he, fun n => ?_, fun n c hc => if_neg fun ⟨hn, heq⟩ => ?_, prefix_rfl⟩
  · show s.corr n ≤ if n = node then s.corr node + 1 else s.corr n
    split
    next hn => exact hn ▸ Nat.le_succ _
    · exact Nat.le_refl _
  · have hle : c ≤ s.corr n := hc
    rw [hn] at hle
    omega

theorem register_owns (s : Forwarding) (node : Bytes) (call : Nat) :
    (register s node call).record.Owns node (s.corr node + 1) call :=
  ⟨Nat.le_of_eq (if_pos rfl).symm, if_pos ⟨rfl, rfl⟩⟩

section
variable (h : s.Inv n b)
include h

theorem registered (node : Bytes) (call : Nat) : (register s node call).Inv n b := by
  have hgrow := register_grows s node call
  obtain rfl := h.count
  refine (h.grow hgrow rfl rfl rfl rfl rfl (Nat.le_refl _) fun e he => (h.log e he).grow hgrow).mono fun k => ?_
  show b k + ((s.log.map (LogEntry.token k)).sum - (s.log.map (LogEntry.token k)).sum) ≤ b k
  omega

/-- The end of `sendForward` before its select: with the request on its way, the token is there. -/
theorem sent (hl : s.activities.lookup id = some a) (ha : s.record.ActivitySound a)
    (howns : s.record.Owns a.node corr a.call) (fails : Option Bytes) :
    (match fails with
      | some msg => s.forwarded id a (.error (.plain msg))
      | none => s.setActivity id { a with phase := .waiting attempt corr none }).Inv n fun k => b k - a.token k := by
  cases fails with
  | some msg => exact h.forwarded hl (fun _ heq => by cases heq) (by simp)
  | none =>
    refine (h.setActivity hl { a with phase := .waiting attempt corr none } ⟨ha.data, ha.origin, howns⟩).mono
      fun k => ?_
    simp only [Activity.token, Phase.token, ite_self]
    omega

theorem sendForward (hl : s.activities.lookup id = some a) (hphase : a.phase = .resolving attempt) (leader : Bytes)
    (sent : Bool) (fails : Option Bytes) : (s.sendForward id a attempt leader sent fails).Inv n b := by
  have ha := (h.activities id a hl).2.grow (register_grows s a.node a.call)
  have howns := register_owns s a.node a.call
  have hreg := h.registered a.node a.call
  cases sent with
  | false => exact ((skip hreg).sent hl ha howns fails).drop
  | true =>
    let request : Request :=
      { source := a.node, dest := leader, corr := s.corr a.node + 1, hop := a.forwardHop, data := a.data,
        call := a.call }
    refine ((hreg.newRequest (r := request) ⟨ha.data, howns⟩).sent hl ha howns fails).mono fun k => ?_
    simp only [request, Request.token, Activity.token, hphase, Phase.token]
    omega

theorem resolve (id : Nat) (leader : Option Bytes) (sent : Bool) (fails : Option Bytes) :
    (s.resolve id leader sent fails).Inv n b := by
  unfold Forwarding.resolve
  split
  next a hl =>
    split
    next attempt hphase =>
      split
      · exact (h.forwarded hl (fun _ heq => by cases heq) (by simp)).drop
      split
      · exact h.moveTo hl trivial (by rw [hphase]; exact Int.le_refl 1)
      · exact h.sendForward hl hphase _ sent fails
    · exact h
  · exact h

theorem received (hl : s.activities.lookup id = some a) (hphase : a.phase = .waiting attempt corr (some res)) :
    (s.received id a attempt res).Inv n b := by
  have hps := (h.activities id a hl).2.phase
  rw [hphase] at hps
  obtain ⟨-, hv, hne⟩ := hps
  unfold Forwarding.received
  split
  next herr => exact h.moveTo hl trivial (by simp only [hphase, Phase.token, if_pos herr]; exact Int.le_refl 1)
  · refine (h.forwarded hl (fun res' heq => ?_) (by simp)).drop
    obtain rfl := Except.ok.inj heq
    exact ⟨hv, hne⟩

theorem select (id : Nat) (timedOut stopped : Bool) : (s.select id timedOut stopped).Inv n b := by
  unfold Forwarding.select
  split
  next a hl =>
    split
    next hphase =>
      split
      · exact (h.forwarded hl (fun _ heq => by cases heq) (by simp)).drop
      split
      · exact h.received hl hphase
      split
      · exact (h.forwarded hl (fun _ heq => by cases heq) (by simp)).drop
      · exact h
    · exact h
  · exact h

end

/-- The reply to a result has a token only if the result is the error of a local `Apply`. -/
theorem token_encode (dest : Bytes) (corr : Nat) (res : WriteResult) (call k : Nat) :
    Reply.token k { dest, corr, out := encodeForwardWriteResponse corr res, call } ≤
      if call = k ∧ res.err = some .notLeader then 1 else 0 := by
  unfold Reply.token
  split
  next hk => rw [if_pos ⟨hk.1, (errToKind_spec _).2 ((encode_kind corr res).symm.trans ((decode_spec _).2.1 hk.2))⟩]
  · split <;> decide

theorem vouched_encode {R : Record} (corr : Nat) (h : R.Vouched call res) :
    R.Vouched call (decodeForwardWriteResponse (encodeForwardWriteResponse corr res)) := fun herr => by
  have hnone := (errToKind_spec _).1 ((encode_kind corr res).symm.trans ((decode_spec _).1 herr))
  rw [decode_encode corr hnone]
  exact h hnone

section
variable (h : s.Inv n b)
include h

theorem replyForward (howns : s.record.Owns node corr call) (hv : s.record.Vouched call res) (sent : Bool) :
    (s.replyForward node corr res sent call).Inv n fun k => b k + if call = k ∧ res.err = some .notLeader then 1
    else 0 := by
  unfold Forwarding.replyForward
  split
  · have hsound : s.record.ReplySound { dest := node, corr, out := encodeForwardWriteResponse corr res, call } :=
      ⟨howns, vouched_encode corr hv⟩
    refine (h.newReply hsound).mono fun k => ?_
    have := token_encode node corr res call k
    omega
  · refine h.mono fun k => ?_
    split <;> omega

theorem replyForward_ne (he : e ≠ .notLeader) (howns : s.record.Owns node corr call) (sent : Bool) :
    (s.replyForward node corr { err := some e } sent call).Inv n b :=
  (h.replyForward howns (Record.vouched_error rfl) sent).mono fun k => by
    rw [if_neg (fun hk => he (Option.some.inj hk.2)), Int.add_zero]

theorem handleForwardReq (i : Nat) (admission : Admission) (sent : Bool) :
    (s.handleForwardReq i admission sent).Inv n b := by
  unfold Forwarding.handleForwardReq
  split
  next r hl =>
    obtain ⟨-, hdata, howns⟩ := h.requests i r hl
    have herase := h.eraseRequest i
    rw [hl] at herase
    have hdrop : ∀ k, b k - Request.token k r ≤ b k := fun k => by
      have := r.token_nonneg k
      omega
    cases admission with
    | stopped => exact (herase.mono hdrop).replyForward_ne (by simp) howns sent
    | overloaded => exact (herase.mono hdrop).replyForward_ne (by simp) howns sent
    | admitted =>
      let a : Activity :=
        { node := r.dest, origin := some (r.source, r.corr), hop := r.hop, data := r.data, phase := .serving
          call := r.call }
      refine (herase.newActivity (a := a) ⟨hdata, fun node corr ho => ?_, trivial⟩).mono fun k => ?_
      · obtain ⟨rfl, rfl⟩ := Prod.mk.inj (Option.some.inj ho)
        exact howns
      · simp only [elim_some, Request.token, Activity.token, Phase.token, a]
        omega
  · exact h

theorem answer (id : Nat) (stopped sent : Bool) : (s.answer id stopped sent).Inv n b := by
  unfold Forwarding.answer
  split
  next a hl =>
    split
    next res node corr hphase horigin =>
      have ha := (h.activities id a hl).2
      have hv := ha.phase
      rw [hphase] at hv
      have herase := h.eraseActivity hl
      split
      · exact herase.drop
      · refine (herase.replyForward (ha.origin node corr horigin) hv sent).mono fun k => ?_
        simp only [Activity.token, hphase, Phase.token]
        split <;> split <;> simp_all
    · exact h
  · exact h

theorem handleForwardResp (r : Reply) (id : Nat)
    (hv : ∀ a, s.record.Owns r.dest r.corr a → s.record.Vouched a (decodeForwardWriteResponse r.out)) :
    (s.handleForwardResp r id).Inv n fun k => b k +
      if s.owner r.dest r.corr = k ∧ (decodeForwardWriteResponse r.out).err = some .forwardNotLeader then 1 else 0 := by
  have hle : ∀ k, b k ≤ b k +
      if s.owner r.dest r.corr = k ∧ (decodeForwardWriteResponse r.out).err = some .forwardNotLeader then 1 else 0 :=
    fun k => by split <;> omega
  unfold Forwarding.handleForwardResp
  split
  next a hl =>
    split
    next attempt corr hphase =>
      split
      next heq =>
        obtain ⟨hnode, rfl⟩ := heq
        have ha := (h.activities id a hl).2
        have howns := ha.phase
        rw [hphase] at howns
        have howns' : s.record.Owns r.dest r.corr a.call := hnode ▸ howns
        have hsound : s.record.PhaseSound a.node a.call
            (.waiting attempt r.corr (some (decodeForwardWriteResponse r.out))) :=
          ⟨howns, hv a.call howns', (decode_spec r.out).2.2⟩
        have howner : s.owner r.dest r.corr = a.call := howns'.2
        refine (h.setActivity hl { a with phase := .waiting attempt r.corr (some (decodeForwardWriteResponse r.out)) }
          ⟨ha.data, ha.origin, hsound⟩).mono fun k => ?_
        simp only [Activity.token, hphase, Phase.token, howner]
        split <;> split <;> simp_all
      · exact h.mono hle
    · exact h.mono hle
  · exact h.mono hle

theorem reply {i : Nat} {r : Reply} (hl : s.replies.lookup i = some r) (id : Nat) :
    ({ s with replies := s.replies.erase i }.handleForwardResp r id).Inv n b := by
  obtain ⟨-, howns, hv⟩ := h.replies i r hl
  have herase := h.eraseReply i
  rw [hl] at herase
  refine (herase.handleForwardResp r id fun call hcall => ?_).mono fun k => ?_
  · -- the number was used for one call, so the reply is for the call that waits
    have : call = r.call := hcall.2.symm.trans howns.2
    exact this ▸ hv
  · have howner : s.owner r.dest r.corr = r.call := howns.2
    simp only [elim_some, Reply.token, howner]
    omega

theorem garbage (hr : malformed r.out = true) (id : Nat) : (s.handleForwardResp r id).Inv n b := by
  obtain ⟨f, hf⟩ : ∃ f, (decodeForwardWriteResponse r.out).err = some (.fault f) := by
    unfold malformed at hr
    split at hr
    next f hf => exact ⟨f, hf⟩
    · cases hr
  refine (h.handleForwardResp r id fun _ _ => Record.vouched_error hf).mono fun k => ?_
  rw [if_neg (fun hk => by cases hf.symm.trans hk.2), Int.add_zero]

end
end Inv

/-- Each of `n` calls has one token. -/
def budget (n k : Nat) : Int := if k < n then 1 else 0

section
variable (shard : Bytes → Fin snapshotShards) {s : Forwarding} {n : Nat}

theorem inv_start (routed : Bytes → Bool) : (start shard routed).Inv 0 (budget 0) where
  count := rfl
  activities id a hl := by cases hl
  requests id r hl := by cases hl
  replies id r hl := by cases hl
  orphans id o hl := by cases hl
  log e he := by cases he
  returned x hx := by cases hx
  tokens k := Int.le_refl 0

theorem inv_proposeRaw (h : s.Inv n (budget n)) (node cmd : Bytes) :
    (s.proposeRaw node cmd).Inv (n + 1) (budget (n + 1)) := by
  obtain rfl := h.count
  let t : Forwarding := { s with calls := s.calls ++ [cmd] }
  let a : Activity := { node, data := kvDomain :: cmd, phase := .applying none, call := s.calls.length }
  have hgrow : s.record.Grows t.record :=
    ⟨fun _ he => he, fun _ => Nat.le_refl _, fun _ _ _ => rfl, prefix_append _ _⟩
  have ht := h.grow hgrow rfl rfl rfl rfl rfl (Nat.le_refl _) fun e he => (h.log e he).grow hgrow
  have ha : t.record.ActivitySound a :=
    ⟨⟨cmd, getElem?_concat_length, rfl⟩, fun _ _ ho => (some_ne_none _ ho.symm).elim, trivial⟩
  have hlength : t.calls.length = s.calls.length + 1 := length_append
  rw [← hlength]
  refine (ht.newActivity ha).mono fun k => ?_
  have hlog : t.log = s.log := rfl
  simp only [budget, hlength, hlog, Activity.token, Phase.token, a]
  split <;> split <;> split <;> omega

theorem inv_handle (h : s.Inv n (budget n)) (e : Event) : ∃ m, (s.handle shard e).Inv m (budget m) := by
  cases e with
  | proposeRaw node cmd => exact ⟨_, inv_proposeRaw h node cmd⟩
  | appendOpen id order => exact ⟨_, h.appendOpen shard id order⟩
  | appendOrphan id order => exact ⟨_, h.appendOrphan shard id order⟩
  | applyReturns id outcome => exact ⟨_, h.applyReturns id outcome⟩
  | applyForward id stopped isLeader => exact ⟨_, h.applyForward id stopped isLeader⟩
  | resolve id leader sent fails => exact ⟨_, h.resolve id leader sent fails⟩
  | select id timedOut stopped => exact ⟨_, h.select id timedOut stopped⟩
  | request i admission sent => exact ⟨_, h.handleForwardReq i admission sent⟩
  | answer id stopped sent => exact ⟨_, h.answer id stopped sent⟩
  | reply i id =>
    simp only [handle]
    split
    next hl => exact ⟨_, h.reply hl id⟩
    · exact ⟨_, h⟩
  | garbage r id =>
    simp only [handle]
    split
    next hr => exact ⟨_, h.garbage hr id⟩
    · exact ⟨_, h⟩
  | loseRequest i =>
    refine ⟨n, (h.eraseRequest i).mono fun k => ?_⟩
    cases s.requests.lookup i with
    | none => exact Int.le_of_eq (Int.sub_zero _)
    | some r => exact Int.sub_le_self _ (r.token_nonneg k)
  | loseReply i =>
    refine ⟨n, (h.eraseReply i).mono fun k => ?_⟩
    cases s.replies.lookup i with
    | none => exact Int.le_of_eq (Int.sub_zero _)
    | some r => exact Int.sub_le_self _ (r.token_nonneg k)

theorem inv_run (routed : Bytes → Bool) (es : List Event) :
    ∃ n, ((start shard routed).run shard es).Inv n (budget n) :=
  List.foldlRecOn (motive := fun s : Forwarding => ∃ n, s.Inv n (budget n)) es _ ⟨_, inv_start shard routed⟩
    fun _ ⟨_, h⟩ e _ => inv_handle shard h e

end

theorem length_filter_call (log : List LogEntry) (k : Nat) :
    ((log.filter fun e => e.call = k).length : Int) = (log.map (LogEntry.token k)).sum := by
  induction log with
  | nil => rfl
  | cons e log ih =>
    rw [map_cons, sum_cons, ← ih, LogEntry.token]
    by_cases h : e.call = k <;> simp [h]
    omega

theorem Inv.filter_le {s : Forwarding} {n : Nat} (h : s.Inv n (budget n)) (k : Nat) :
    (s.log.filter fun e => e.call = k).length ≤ 1 := by
  have htok := h.tokens k
  have hlog := length_filter_call s.log k
  have hbudget : budget n k ≤ 1 := by
    unfold budget
    split <;> decide
  have hact := sum_nonneg s.activities _ fun _ x _ => Activity.token_nonneg k x
  have hreq := sum_nonneg s.requests _ fun _ x _ => Request.token_nonneg k x
  have hrep := sum_nonneg s.replies _ fun _ x _ => Reply.token_nonneg k x
  have horph := sum_nonneg s.orphans _ fun _ x _ => Orphan.token_nonneg k x
  simp only [Forwarding.tokens] at htok
  omega

theorem eq_singleton {α : Type} {l : List α} {x : α} (h : x ∈ l) (hle : l.length ≤ 1) : l = [x] := by
  match l, h with
  | [y], h => rw [mem_singleton.mp h]
  | y :: z :: l, _ => exact absurd hle (by simp)

/-- Each call of `proposeRaw` has its command in the log at most once, and if it returned without an error it has it
    there once, with the result that it returned. -/
theorem forwarded_at_most_once (snapshotShard : Bytes → Fin snapshotShards) (routed : Bytes → Bool) (es : List Event)
    (k : Nat) :
    let s := (start snapshotShard routed).run snapshotShard es
    (s.log.filter fun e => e.call = k).length ≤ 1 ∧
      (∀ e ∈ s.log, ∃ cmd, s.calls[e.call]? = some cmd ∧ e.data = kvDomain :: cmd) ∧
      ∀ x ∈ s.returned, x.call = k → x.err = none →
        ∃ e r, (s.log.filter fun e => e.call = k) = [e] ∧ e.response = .kv r ∧ r.write = x.res ∧ x.res.err = none := by
  intro s
  obtain ⟨n, h⟩ : ∃ n, s.Inv n (budget n) := inv_run snapshotShard routed es
  refine ⟨h.filter_le k, h.log, fun x hx hcall herr => ?_⟩
  obtain ⟨hres, hv⟩ := h.returned x hx herr
  obtain ⟨e, he, r, hecall, hresp, hwrite⟩ := hv hres
  have hmem : e ∈ s.log.filter fun e => e.call = k :=
    mem_filter.mpr ⟨he, decide_eq_true (hecall.trans hcall)⟩
  exact ⟨e, r, eq_singleton hmem (h.filter_le k), hresp, hwrite, hres⟩

end Forwarding
end Wippy.Kv.Raft
