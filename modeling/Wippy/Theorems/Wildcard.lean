import Mathlib.Data.List.Infix
import Mathlib.Data.List.TakeWhile
import Wippy.Wildcard

/-! What a wildcard pattern accepts, against its grammar: the segments of the string in as many pieces as the pattern
    has segments, each piece one that its segment takes. -/

namespace Wippy.Wildcard
open List

/-- The segments of a string that one segment of a pattern may take. -/
def Takes (segment : Bytes) (piece : List Bytes) : Prop :=
  if segment = doubleStar then True
  else if segment = star then piece.length = 1
  else if isAlternation segment then ∃ opt ∈ segment.tail.dropLast.splitOn '|'.toUInt8, piece = [opt]
  else piece = [segment]

/-- Every segment of the pattern takes its piece of the string. -/
def Fits (pattern str : List Bytes) : Prop := ∃ pieces, List.Forall₂ Takes pattern pieces ∧ pieces.flatten = str

/-- The string matches by the grammar. -/
def InGrammar (pattern str : Bytes) : Prop := Fits (segmentsOf pattern) (segmentsOf str)

theorem splitOn_takeWhile (b : UInt8) (l : Bytes) : l.splitOn b = l.takeWhile (· != b) ::
    if l.dropWhile (· != b) = [] then [] else (l.dropWhile (· != b)).tail.splitOn b := by
  have hfirst : b ∉ l.takeWhile (· != b) := fun hb => by simpa using mem_takeWhile_imp hb
  have hl := takeWhile_append_dropWhile (p := (· != b)) (l := l)
  rcases hd : l.dropWhile (· != b) with - | ⟨c, tail⟩
  · rw [hd, append_nil] at hl
    rw [hl] at hfirst ⊢
    simp [splitOn_eq_singleton hfirst]
  · obtain rfl : c = b := by
      have hc := head_dropWhile_not (· != b) (l := l) (by simp [hd])
      simpa [hd] using hc
    conv_lhs => rw [← hl, hd]
    simp [splitOn_append_cons_self_of_not_mem hfirst]

theorem matchOptions_iff (remaining strSegment : Bytes) :
    matchOptions remaining strSegment = true ↔ strSegment ∈ remaining.splitOn '|'.toUInt8 := by
  fun_induction matchOptions remaining strSegment with
  | case1 remaining hopt => simp [splitOn_takeWhile _ remaining, hopt]
  | case2 remaining hopt hend => simp [splitOn_takeWhile _ remaining, hend, Ne.symm hopt]
  | case3 remaining hopt hmore ih => rw [ih, splitOn_takeWhile _ remaining]; simp [hmore, Ne.symm hopt]

theorem matchSegment_iff {segment strSegment : Bytes} (hdouble : segment ≠ doubleStar) (hstar : segment ≠ star) :
    matchSegment segment strSegment = true ↔ Takes segment [strSegment] := by
  unfold matchSegment Takes
  rw [if_neg hdouble, if_neg hstar]
  by_cases halt : isAlternation segment = true
  · rw [if_pos halt, if_pos halt, matchOptions_iff]
    exact ⟨fun hmem => ⟨_, hmem, rfl⟩, fun ⟨_, hmem, hpiece⟩ => singleton_inj.mp hpiece ▸ hmem⟩
  · rw [if_neg halt, if_neg halt, beq_iff_eq, singleton_inj, eq_comm]

theorem takes_star (strSegment : Bytes) : Takes star [strSegment] := by
  rw [Takes, if_neg (by decide), if_pos rfl, length_singleton]

variable {segment : Bytes} {pattern str : List Bytes}

/-- But for `**`, a segment takes one segment. -/
theorem Takes.single {piece : List Bytes} (h : Takes segment piece)
    (hdouble : segment ≠ doubleStar) : ∃ strSegment, piece = [strSegment] := by
  unfold Takes at h
  rw [if_neg hdouble] at h
  split_ifs at h
  · exact length_eq_one_iff.mp h
  · obtain ⟨opt, -, hpiece⟩ := h
    exact ⟨opt, hpiece⟩
  · exact ⟨segment, h⟩

/-! ### Lists of segments -/

theorem fits_nil {str : List Bytes} : Fits [] str ↔ str = [] := by
  simp [Fits, eq_comm]

theorem fits_cons :
    Fits (segment :: pattern) str ↔ ∃ piece rest, Takes segment piece ∧ Fits pattern rest ∧ str = piece ++ rest := by
  constructor
  · rintro ⟨pieces, hpieces, rfl⟩
    obtain ⟨piece, rest, htakes, hrest, rfl⟩ := forall₂_cons_left_iff.mp hpieces
    exact ⟨piece, rest.flatten, htakes, ⟨rest, hrest, rfl⟩, rfl⟩
  · rintro ⟨piece, -, htakes, ⟨rest, hrest, rfl⟩, rfl⟩
    exact ⟨piece :: rest, .cons htakes hrest, rfl⟩

theorem fits_doubleStar :
    Fits (doubleStar :: pattern) str ↔ ∃ rest, rest <:+ str ∧ Fits pattern rest := by
  rw [fits_cons]
  constructor
  · rintro ⟨piece, rest, -, hrest, rfl⟩
    exact ⟨rest, suffix_append piece rest, hrest⟩
  · rintro ⟨rest, ⟨piece, rfl⟩, hrest⟩
    exact ⟨piece, rest, by simp [Takes], hrest, rfl⟩

theorem fits_single (hdouble : segment ≠ doubleStar) :
    Fits (segment :: pattern) str ↔
      ∃ strSegment rest, Takes segment [strSegment] ∧ Fits pattern rest ∧ str = strSegment :: rest := by
  rw [fits_cons]
  constructor
  · rintro ⟨piece, rest, htakes, hrest, rfl⟩
    obtain ⟨strSegment, rfl⟩ := htakes.single hdouble
    exact ⟨strSegment, rest, htakes, hrest, rfl⟩
  · rintro ⟨strSegment, rest, htakes, hrest, rfl⟩
    exact ⟨[strSegment], rest, htakes, hrest, rfl⟩

/-- The matcher decides the grammar: along the pattern, at a `**` over every suffix of the string. -/
theorem matchSegments_iff (pattern str : List Bytes) : matchSegments pattern str = true ↔ Fits pattern str := by
  induction pattern generalizing str with
  | nil => simp [matchSegments, fits_nil]
  | cons segment pattern ih =>
    by_cases hdouble : segment = doubleStar
    · subst hdouble
      rw [fits_doubleStar]
      cases str with
      | nil => simp [matchSegments, ih]
      | cons strSegment str =>
        rw [matchSegments, if_pos rfl, Bool.or_eq_true, List.isEmpty_iff, List.any_eq_true]
        simp only [mem_tails, ih, or_iff_right_iff_imp]
        rintro rfl
        exact ⟨[], nil_suffix, fits_nil.mpr rfl⟩
    · rw [fits_single hdouble]
      cases str with
      | nil => simp [matchSegments, hdouble]
      | cons strSegment str =>
        rw [matchSegments, if_neg hdouble]
        by_cases hstar : segment = star
        · simp [hstar, takes_star, ih]
        · simp [hstar, matchSegment_iff hdouble hstar, ih]

/-! ### The paths of the matcher -/

theorem segmentsOf_inj {pattern str : Bytes} : segmentsOf str = segmentsOf pattern ↔ str = pattern := by
  refine ⟨fun h => ?_, congrArg segmentsOf⟩
  have hjoin := congrArg (intercalate ['.'.toUInt8]) h
  rwa [segmentsOf, segmentsOf, intercalate_splitOn, intercalate_splitOn] at hjoin

theorem length_segmentsOf (str : Bytes) : (segmentsOf str).length = 1 ↔ '.'.toUInt8 ∉ str := by
  constructor
  · intro hlength hdot
    rw [segmentsOf, splitOn_takeWhile, if_neg fun hall => by simpa using dropWhile_eq_nil_iff.mp hall _ hdot] at hlength
    simp [splitOn_ne_nil] at hlength
  · intro hdot
    simp [segmentsOf, splitOn_eq_singleton hdot]

/-- Without a wildcard the pattern fits its own segments only. -/
theorem fits_exact (h : pattern.any hasWildcard = false) :
    Fits pattern str ↔ str = pattern := by
  induction pattern generalizing str with
  | nil => exact fits_nil
  | cons segment pattern ih =>
    simp only [any_cons, hasWildcard, Bool.or_eq_false_iff, beq_eq_false_iff_ne, ne_eq] at h
    obtain ⟨⟨⟨hstar, hdouble⟩, halt⟩, hrest⟩ := h
    rw [fits_single hdouble]
    simp [Takes, hstar, hdouble, halt, ih hrest]

/-- But for the empty string: the pattern `*` refuses it, though it is one segment, and so does the empty pattern. -/
theorem match_is_grammar_iff (pattern str : Bytes) :
    ((newWildcard pattern).matchStr str = true ↔ InGrammar pattern str) ↔
      ¬ (str = [] ∧ (pattern = [] ∨ pattern = star)) := by
  unfold InGrammar newWildcard
  by_cases hempty : pattern = []
  · have hgrammar : Fits (segmentsOf pattern) (segmentsOf str) ↔ str = [] := by
      rw [fits_exact (by subst hempty; decide), segmentsOf_inj, hempty]
    rw [hgrammar]
    simp [matchStr, matchSegments, segmentsOf, splitOn_ne_nil, hempty]
  by_cases hstar : pattern = star
  · have hgrammar : Fits (segmentsOf pattern) (segmentsOf str) ↔ '.'.toUInt8 ∉ str := by
      rw [← length_segmentsOf, hstar, show segmentsOf star = [star] by decide, fits_single (by decide)]
      simp [takes_star, fits_nil, length_eq_one_iff]
    rw [hgrammar, if_neg hempty, if_pos hstar]
    by_cases hstr : str = []
    · simp [matchStr, hstr, hstar]
    · simp [matchStr, hstr]
  simp only [hempty, hstar, or_self, and_false, not_false_eq_true, iff_true]
  by_cases hwild : (segmentsOf pattern).any hasWildcard = true
  · rw [if_pos hwild]
    exact matchSegments_iff _ _
  · rw [if_neg hwild, fits_exact (Bool.eq_false_iff.mpr hwild), segmentsOf_inj]
    simp [matchStr]

/-- The empty string is one segment, which the general path takes for `*`. -/
theorem star_refuses_empty : (newWildcard star).matchStr [] = false ∧ InGrammar star [] ∧
    matchSegments (segmentsOf star) (segmentsOf []) = true := by
  have hgeneral : matchSegments (segmentsOf star) (segmentsOf []) = true := by decide
  exact ⟨by decide, (matchSegments_iff _ _).mp hgeneral, hgeneral⟩

end Wippy.Wildcard
