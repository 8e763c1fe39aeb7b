import Wippy.Crdt.State

/-! Wildcard patterns over dot-separated segments, `internal/wildcard/wildcard.go`. -/

namespace Wippy

/-- A pattern, with the two shapes that are matched without their segments. -/
structure Wildcard where
  exactMatch : Bytes := []
  segments : List Bytes := []
  isExact : Bool := false
  isStar : Bool := false

namespace Wildcard

def star : Bytes := ['*'.toUInt8]

def doubleStar : Bytes := ['*'.toUInt8, '*'.toUInt8]

/-- `strings.Split` at the dots: the empty string has one segment, the empty one. -/
def segmentsOf (str : Bytes) : List Bytes := str.splitOn '.'.toUInt8

def isAlternation (segment : Bytes) : Bool :=
  segment.head? == some '('.toUInt8 && segment.getLast? == some ')'.toUInt8

def hasWildcard (segment : Bytes) : Bool := segment == star || segment == doubleStar || isAlternation segment

end Wildcard

open Wildcard in
def newWildcard (pattern : Bytes) : Wildcard :=
  if pattern = [] then {}
  else if pattern = star then { isStar := true }
  else if (segmentsOf pattern).any hasWildcard then { segments := segmentsOf pattern }
  else { segments := segmentsOf pattern, isExact := true, exactMatch := pattern }

namespace Wildcard

/-- The options of an alternation, cut off at each bar in turn. -/
def matchOptions (remaining strSegment : Bytes) : Bool :=
  if remaining.takeWhile (· != '|'.toUInt8) = strSegment then true
  else if _h : remaining.dropWhile (· != '|'.toUInt8) = [] then false
  else matchOptions (remaining.dropWhile (· != '|'.toUInt8)).tail strSegment
termination_by remaining.length
decreasing_by
  have hle := (List.dropWhile_suffix (· != '|'.toUInt8) : _ <:+ remaining).length_le
  have hpos := List.length_pos_iff.mpr _h
  rw [List.length_tail]
  omega

def matchSegment (patternSegment strSegment : Bytes) : Bool :=
  if isAlternation patternSegment then matchOptions patternSegment.tail.dropLast strSegment
  else patternSegment == strSegment

/-- One call of the matcher: its loop advances both lists by a segment, and at a `**` tries every suffix that is left.
    Once the string is used up, only `**` may follow. -/
def matchSegments : List Bytes → List Bytes → Bool
  | [], str => str.isEmpty
  | segment :: pattern, [] => segment == doubleStar && matchSegments pattern []
  | segment :: pattern, strSegment :: str =>
    if segment = doubleStar then
      pattern.isEmpty || (strSegment :: str).tails.any fun rest => matchSegments pattern rest
    else if segment = star then matchSegments pattern str
    else matchSegment segment strSegment && matchSegments pattern str

def matchStr (w : Wildcard) (str : Bytes) : Bool :=
  if w.isStar then str != [] && !str.contains '.'.toUInt8
  else if w.isExact then str == w.exactMatch
  else matchSegments w.segments (segmentsOf str)

end Wildcard
end Wippy
