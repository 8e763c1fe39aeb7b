import Wippy.Pid

/-! Which process identifiers survive being printed and parsed. -/

namespace Wippy
open List Option

variable {b : UInt8} {l : Bytes}

theorem idxOf?_append (h : b ∉ l) (r : Bytes) : (l ++ b :: r).idxOf? b = some l.length := by
  induction l with
  | nil => simp [idxOf?_cons]
  | cons a l ih =>
    rw [mem_cons, not_or] at h
    simp [idxOf?_cons, ih h.2, Ne.symm h.1]

theorem cutByte_append (h : b ∉ l) (r : Bytes) : cutByte b (l ++ b :: r) = some (l, r) := by
  simp [cutByte, idxOf?_append h]

theorem cutByte_eq_none (h : b ∉ l) : cutByte b l = none := by
  simp [cutByte, idxOf?_eq_none_iff, h]

theorem cut_inj {l l' r r' : Bytes} (hl : b ∉ l) (hl' : b ∉ l') (h : l ++ b :: r = l' ++ b :: r') :
    l = l' ∧ r = r' := by
  have hcut := cutByte_append hl r
  rw [h, cutByte_append hl'] at hcut
  cases hcut
  exact ⟨rfl, rfl⟩

theorem eq_of_cutByte {s l r : Bytes} (h : cutByte b s = some (l, r)) : s = l ++ b :: r ∧ b ∉ l := by
  by_cases hb : b ∈ s
  · obtain ⟨l', r', rfl, hl'⟩ := eq_append_cons_of_mem hb
    rw [cutByte_append hl'] at h
    cases h
    exact ⟨rfl, hl'⟩
  · rw [cutByte_eq_none hb] at h
    cases h

theorem getD_cutByte_eq_iff : ((cutByte b l).map Prod.snd).getD l = l ↔ b ∉ l := by
  refine ⟨fun heq hb => ?_, fun hb => by rw [cutByte_eq_none hb, map_none, getD_none]⟩
  obtain ⟨l, r, rfl, hl⟩ := eq_append_cons_of_mem hb
  rw [cutByte_append hl, map_some, getD_some] at heq
  have hlength := congrArg length heq
  simp only [length_append, length_cons] at hlength
  omega

/-! ### Between the braces -/

/-- The text in front of the pipe. -/
def PID.hostPart (p : PID) : Bytes := (if p.node = [] then [] else p.node ++ [64]) ++ p.host

theorem PID.string_eq_hostPart (p : PID) : p.string = 123 :: (p.hostPart ++ 124 :: p.uniqID) ++ [125] := by
  simp [PID.string, PID.hostPart]

theorem PID.hostPart_of_node {p : PID} (h : p.node ≠ []) : p.hostPart = p.node ++ 64 :: p.host := by
  simp [hostPart, h]

theorem PID.hostPart_of_no_node {p : PID} (h : p.node = []) : p.hostPart = p.host := by
  simp [hostPart, h]

theorem PID.notMem_hostPart {p : PID} (h : 124 ∉ p.node ++ p.host) : 124 ∉ p.hostPart := by
  rw [mem_append, not_or] at h
  unfold hostPart
  split <;> simp [h]

theorem parsePID_body (h : 124 ∉ l) (r : Bytes) :
    parsePID (123 :: (l ++ 124 :: r) ++ [125]) =
      .ok { node := ((cutByte 64 l).map Prod.fst).getD [], host := ((cutByte 64 l).map Prod.snd).getD l,
            uniqID := ((cutByte 124 r).map Prod.snd).getD r } := by
  have hinner : ((123 :: (l ++ 124 :: r) ++ [125]).drop 1).dropLast = l ++ 124 :: r := dropLast_concat
  have hbraces : ¬ ((123 :: (l ++ 124 :: r) ++ [125]).length < 3 ∨ (123 :: (l ++ 124 :: r) ++ [125]).head? ≠ some 123 ∨
      (123 :: (l ++ 124 :: r) ++ [125]).getLast? ≠ some 125) := by
    refine not_or.mpr ⟨?_, not_or.mpr ⟨not_not.mpr rfl, not_not.mpr getLast?_concat⟩⟩
    simp only [length_append, length_cons]
    omega
  unfold parsePID
  rw [if_neg hbraces, hinner, cutByte_append h]
  cases hat : cutByte 64 l with
  | none => simp [hat]
  | some parts => simp [hat]

attribute [ext] PID

namespace PID
variable {p q : PID}

/-- A process that some text is parsed as. -/
structure Parsed (p : PID) : Prop where
  noPipe : 124 ∉ p.node ++ p.host
  noAt : 64 ∉ p.node

/-- The text is cut at its first pipe, the host at its first `@`, and the rest behind the pipe at the next one. -/
theorem text_of_parsePID {s : Bytes} (h : parsePID s = .ok p) : ∃ l r, s = 123 :: (l ++ 124 :: r) ++ [125] ∧ 124 ∉ l ∧
    p = { node := ((cutByte 64 l).map Prod.fst).getD [], host := ((cutByte 64 l).map Prod.snd).getD l,
          uniqID := ((cutByte 124 r).map Prod.snd).getD r } := by
  have hparse := h
  unfold parsePID at h
  split at h
  · cases h
  next hbraces =>
    obtain ⟨-, hhead, hlast⟩ := not_or.mp hbraces |>.imp_right not_or.mp
    obtain ⟨inner, rfl⟩ : ∃ inner, s = 123 :: inner ++ [125] := by
      obtain ⟨init, rfl⟩ := getLast?_eq_some_iff.mp (not_not.mp hlast)
      cases init with
      | nil => exact absurd (not_not.mp hhead) (by decide)
      | cons b inner => exact ⟨inner, by rw [Option.some.inj (not_not.mp hhead)]⟩
    have hinner : ((123 :: inner ++ [125]).drop 1).dropLast = inner := dropLast_concat
    rw [hinner] at h
    split at h
    · cases h
    next l r hcut =>
      obtain ⟨rfl, hl⟩ := eq_of_cutByte hcut
      exact ⟨l, r, rfl, hl, Except.ok.inj (hparse.symm.trans (parsePID_body hl r))⟩

theorem parsed_of_parsePID {s : Bytes} (h : parsePID s = .ok p) : p.Parsed := by
  obtain ⟨l, r, -, hl, rfl⟩ := text_of_parsePID h
  cases hat : cutByte 64 l with
  | none => exact ⟨hl, not_mem_nil⟩
  | some parts =>
    obtain ⟨rfl, hnode⟩ := eq_of_cutByte hat
    exact ⟨by simpa using hl, hnode⟩

/-- No pipe is left in the unique id, and the host of an identifier without a node has no `@`. -/
def Plain (p : PID) : Prop := 124 ∉ p.uniqID ∧ (p.node = [] → 64 ∉ p.host)

/-- The text has at most two pipes, and no `@` between a leading one and its first pipe. -/
def PlainText (s : Bytes) : Prop := s.count 124 ≤ 2 ∧ ∀ l r, s = 123 :: 64 :: (l ++ 124 :: r) → 124 ∉ l → 64 ∉ l

theorem notMem_getD_cutByte_iff : b ∉ ((cutByte b l).map Prod.snd).getD l ↔ l.count b ≤ 1 := by
  by_cases hb : b ∈ l
  · obtain ⟨l, r, rfl, hl⟩ := eq_append_cons_of_mem hb
    rw [cutByte_append hl, count_append, count_cons_self, count_eq_zero_of_not_mem hl]
    show b ∉ r ↔ _
    rw [← count_eq_zero]
    omega
  · simp [cutByte_eq_none hb, hb, count_eq_zero_of_not_mem hb]

theorem plain_iff_plainText {s : Bytes} (h : parsePID s = .ok p) : p.Plain ↔ PlainText s := by
  obtain ⟨l, r, rfl, hl, rfl⟩ := text_of_parsePID h
  have hcount : (123 :: (l ++ 124 :: r) ++ [125]).count 124 = r.count 124 + 1 := by
    simp [count_append, count_eq_zero_of_not_mem hl]
  refine and_congr ?_ ?_
  · rw [hcount, notMem_getD_cutByte_iff]
    omega
  · have hlead : (∀ l' r', 123 :: (l ++ 124 :: r) ++ [125] = 123 :: 64 :: (l' ++ 124 :: r') → 124 ∉ l' → 64 ∉ l') ↔
        ∀ l', l = 64 :: l' → 64 ∉ l' := by
      refine ⟨fun h l' hl' => h l' (r ++ [125]) (by simp [hl']) fun hmem => hl (hl' ▸ mem_cons_of_mem _ hmem),
        fun h l' r' heq hl' => ?_⟩
      have hcut : l ++ 124 :: (r ++ [125]) = (64 :: l') ++ 124 :: r' := by simpa using heq
      exact h l' (cut_inj hl (by simpa using hl') hcut).1
    rw [hlead]
    by_cases hat : 64 ∈ l
    · obtain ⟨node, host, rfl, hnode⟩ := eq_append_cons_of_mem hat
      rw [cutByte_append hnode]
      refine ⟨fun h l' hl' => ?_, fun h hnil => h host (by rw [show node = [] from hnil]; rfl)⟩
      have hcut : node ++ 64 :: host = [] ++ 64 :: l' := hl'
      obtain ⟨hnil, rfl⟩ := cut_inj hnode not_mem_nil hcut
      exact h hnil
    · rw [cutByte_eq_none hat]
      exact ⟨fun _ l' hl' => absurd (hl' ▸ mem_cons_self) hat, fun _ _ => hat⟩

/-- The host of `p`, which has no node, reads as the node and the host of `q`. -/
def Shadows (p q : PID) : Prop :=
  p.node = [] ∧ q.node ≠ [] ∧ p.host = q.node ++ 64 :: q.host ∧ p.uniqID = q.uniqID

theorem Parsed.reparsed_iff (h : p.Parsed) : parsePID p.string = .ok p ↔ p.Plain := by
  rw [p.string_eq_hostPart, parsePID_body (notMem_hostPart h.noPipe), Except.ok.injEq, PID.ext_iff, getD_cutByte_eq_iff]
  by_cases hnode : p.node = []
  · rw [hostPart_of_no_node hnode, getD_cutByte_eq_iff]
    refine ⟨fun ⟨_, hhost, huniq⟩ => ⟨huniq, fun _ => hhost⟩, fun hplain => ⟨?_, hplain.2 hnode, hplain.1⟩⟩
    rw [cutByte_eq_none (hplain.2 hnode), hnode]
    rfl
  · rw [hostPart_of_node hnode, cutByte_append h.noAt]
    exact ⟨fun hparts => ⟨hparts.2.2, fun hnil => absurd hnil hnode⟩, fun hplain => ⟨rfl, rfl, hplain.1⟩⟩

theorem Shadows.string_eq (h : p.Shadows q) : p.string = q.string := by
  obtain ⟨hp, hq, hhost, huniq⟩ := h
  rw [string_eq_hostPart, string_eq_hostPart, hostPart_of_no_node hp, hostPart_of_node hq, hhost, huniq]

theorem Parsed.string_eq_iff (hp : p.Parsed) (hq : q.Parsed) :
    p.string = q.string ↔ p = q ∨ p.Shadows q ∨ q.Shadows p := by
  refine ⟨fun heq => ?_, ?_⟩
  · rw [string_eq_hostPart, string_eq_hostPart] at heq
    obtain ⟨hpart, huniq⟩ :=
      cut_inj (notMem_hostPart hp.noPipe) (notMem_hostPart hq.noPipe) (tail_eq_of_cons_eq (append_cancel_right heq))
    by_cases hpn : p.node = [] <;> by_cases hqn : q.node = []
    · rw [hostPart_of_no_node hpn, hostPart_of_no_node hqn] at hpart
      exact .inl (PID.ext (hpn.trans hqn.symm) hpart huniq)
    · rw [hostPart_of_no_node hpn, hostPart_of_node hqn] at hpart
      exact .inr (.inl ⟨hpn, hqn, hpart, huniq⟩)
    · rw [hostPart_of_node hpn, hostPart_of_no_node hqn] at hpart
      exact .inr (.inr ⟨hqn, hpn, hpart.symm, huniq.symm⟩)
    · rw [hostPart_of_node hpn, hostPart_of_node hqn] at hpart
      obtain ⟨hnode, hhost⟩ := cut_inj hp.noAt hq.noAt hpart
      exact .inl (PID.ext hnode hhost huniq)
  · rintro (rfl | h | h)
    · rfl
    · exact h.string_eq
    · exact h.string_eq.symm

theorem unmarshalJSON_marshalJSON_eq_ok_iff : unmarshalJSON p.marshalJSON = .ok q ↔ parsePID p.string = .ok q := by
  have hlength : ¬ p.marshalJSON.length < 4 := by
    simp only [marshalJSON, string_eq_hostPart, length_append, length_cons]
    omega
  have hquotes : ¬ (p.marshalJSON.head? ≠ some 34 ∨ p.marshalJSON.getLast? ≠ some 34) :=
    not_or.mpr ⟨not_not.mpr rfl, not_not.mpr getLast?_concat⟩
  have hinner : (p.marshalJSON.drop 1).dropLast = p.string := dropLast_concat
  unfold unmarshalJSON
  rw [if_neg hlength, if_neg hquotes, hinner]
  cases parsePID p.string with
  | error err => simp
  | ok p' => simp

/-- An identifier survives if and only if it is plain, which shows in the text that it was parsed from; and it is told
    apart from another one if and only if neither shadows the other. -/
theorem survives_its_text_iff {s t : Bytes} (hs : parsePID s = .ok p) (ht : parsePID t = .ok q) :
    (parsePID p.string = .ok p ↔ p.Plain) ∧ (unmarshalJSON p.marshalJSON = .ok p ↔ p.Plain) ∧
      (p.Plain ↔ PlainText s) ∧ ((p = q ↔ p.string = q.string) ↔ ¬ (p.Shadows q ∨ q.Shadows p)) := by
  have hp := parsed_of_parsePID hs
  have hq := parsed_of_parsePID ht
  refine ⟨hp.reparsed_iff, unmarshalJSON_marshalJSON_eq_ok_iff.trans hp.reparsed_iff, plain_iff_plainText hs, ?_⟩
  rw [hp.string_eq_iff hq]
  have hne : p.Shadows q ∨ q.Shadows p → p ≠ q := by
    rintro (h | h) rfl
    · exact h.2.1 h.1
    · exact h.2.1 h.1
  tauto

/-- `{a@b|c}` survives its text, and is told apart from `{b|c}`. -/
theorem node_and_host_survive :
    let p : PID := ⟨[97], [98], [99]⟩
    let q : PID := ⟨[], [98], [99]⟩
    parsePID p.string = .ok p ∧ unmarshalJSON p.marshalJSON = .ok p ∧ p.string ≠ q.string := by
  intro p q
  have hs : parsePID [123, 97, 64, 98, 124, 99, 125] = .ok p := by decide
  have ht : parsePID [123, 98, 124, 99, 125] = .ok q := by decide
  have hplain : p.Plain := ⟨by decide, by decide⟩
  have hshadows : ¬ (p.Shadows q ∨ q.Shadows p) := by unfold Shadows; decide
  obtain ⟨htext, hjson, -, happart⟩ := survives_its_text_iff hs ht
  exact ⟨htext.mpr hplain, hjson.mpr hplain, fun heq => absurd ((happart.mpr hshadows).mpr heq) (by decide)⟩

/-- `{@a@b|u}` has no node and the host `a@b`, and is printed as `{a@b|u}`. -/
theorem leading_at_is_lost :
    ¬ ∀ (s : Bytes) (p : PID), parsePID s = .ok p → parsePID p.string = .ok p := by
  intro h
  have hparse : parsePID [123, 64, 97, 64, 98, 124, 117, 125] = .ok ⟨[], [97, 64, 98], [117]⟩ := by decide
  have hback := h _ _ hparse
  revert hback
  decide

end PID
end Wippy
