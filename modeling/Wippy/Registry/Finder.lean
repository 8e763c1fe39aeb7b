import Wippy.Lib.Fnv
import Wippy.Lib.Lru
import Wippy.Registry.Entry

/-! Queries over the entries of the registry, and the cache of their results, `system/registry/finder/finder.go`.

    The reader is the live registry, whose revision advances with every state that it publishes. Values besides strings
    and lists are a type of their own, with Go's comparison, which may panic, and its `%v`. -/

namespace Wippy.Registry.Finder
open Lib

/-- A value of a bag: a string, a `[]string`, a `[]any` or anything else. -/
inductive Value (O : Type)
  | str (s : Bytes)
  | strs (ss : List Bytes)
  | anys (vs : List (Bytes ⊕ O))
  | other (v : O)
  deriving DecidableEq, Repr

/-- Go's own: the comparison of other values, which may panic, how they are printed, and regular expressions. -/
structure Foreign (O R : Type) where
  equal : O → O → Option Bool
  print : O → Bytes
  compile : Bytes → Option R
  matchString : R → Bytes → Bool

structure Entry (O : Type) where
  id : ID
  kind : Bytes
  metadata : Map Bytes (Value O) := ∅
  data : Bytes := []
  deriving DecidableEq

abbrev Query (O : Type) := Map Bytes (Value O)

variable {O R : Type}

/-- `*` stands for anything; of two, the second is taken literally. -/
def matchGlob (value pattern : Bytes) : Bool :=
  if !pattern.contains 42 then decide (value = pattern)
  else if pattern.head? = some 42 && !(pattern.drop 1).contains 42 then (pattern.drop 1).isSuffixOf value
  else if pattern.getLast? = some 42 && !pattern.dropLast.contains 42 then pattern.dropLast.isPrefixOf value
  else
    match cutByte 42 pattern with
    | some (first, last) =>
      first.isPrefixOf value && last.isSuffixOf value && decide (first.length + last.length ≤ value.length)
    | none => false

/-- `strings.Contains` -/
def contains (value substr : Bytes) : Bool := value.tails.any substr.isPrefixOf

def matchContains (value : Option (Value O)) (substr : Bytes) : Bool :=
  match value with
  | some (.str s) => contains s substr
  | some (.strs tags) => tags.any fun tag => contains tag substr
  | some (.anys vs) => vs.any fun v => v.elim (fun s => contains s substr) fun _ => false
  | _ => false

def matchArrayContainsAll (actual : Value O) (expected : List Bytes) : Bool :=
  match actual with
  | .strs tags => expected.all tags.contains
  | .anys vs => expected.all fun tag => vs.any fun v => v.elim (fun s => decide (s = tag)) fun _ => false
  | _ => false

/-- Go's `==` on values of interface type: values of different types differ, and slices cannot be compared. -/
def Value.equal (go : Foreign O R) : Value O → Value O → Option Bool
  | .str s, .str s' => some (decide (s = s'))
  | .strs _, .strs _ => none
  | .anys _, .anys _ => none
  | .other v, .other v' => go.equal v v'
  | _, _ => some false

/-- `kind` -/
def kindField : Bytes := [107, 105, 110, 100]
/-- `name` -/
def nameField : Bytes := [110, 97, 109, 101]
/-- `ns` -/
def nsField : Bytes := [110, 115]
/-- `id` -/
def idField : Bytes := [105, 100]

def rootField (entry : Entry O) (field : Bytes) : Option Bytes :=
  if field = kindField then some entry.kind
  else if field = nameField then some entry.id.name
  else if field = nsField then some entry.id.ns
  else if field = idField then some entry.id.string
  else none

def matchRoot (entry : Entry O) (field : Bytes) (value : Value O) : Bool :=
  match rootField entry field, value with
  | some actual, .str pattern => matchGlob actual pattern
  | _, _ => true

variable (go : Foreign O R)

def matchRegex (entry : Entry O) (field : Bytes) (regex : R) : Bool :=
  match entry.metadata.lookup field with
  | some (.str s) => go.matchString regex s
  | _ => false

def matchAffix (test : Bytes → Bytes → Bool) (entry : Entry O) (field affix : Bytes) : Bool :=
  match entry.metadata.lookup field with
  | some (.str s) => test affix s
  | _ => false

def matchStandard (entry : Entry O) (field : Bytes) (expected : Value O) : Option Bool :=
  match entry.metadata.lookup field, expected with
  | none, _ => some false
  | some actual, .strs tags => some (matchArrayContainsAll actual tags)
  | some actual, expected => actual.equal go expected

/-- The criteria by operator. A key names one operator and one field, so that no criterion takes another's place. -/
structure Matchers (O R : Type) where
  rootMatchers : List (Bytes × Value O) := []
  regexMatchers : List (Bytes × R) := []
  containsMatchers : List (Bytes × Bytes) := []
  prefixMatchers : List (Bytes × Bytes) := []
  suffixMatchers : List (Bytes × Bytes) := []
  standardMeta : List (Bytes × Value O) := []

inductive Operator
  | root
  | regex
  | contains
  | startsWith
  | endsWith
  | standard
  deriving DecidableEq, Repr

/-- `meta.` -/
def metaDot : Bytes := [109, 101, 116, 97, 46]

def parseKey (key : Bytes) : Option (Operator × Bytes) :=
  match key with
  | 46 :: field => some (.root, field)
  | 126 :: field => if metaDot.isPrefixOf field then some (.regex, field.drop 5) else none
  | 42 :: field => if metaDot.isPrefixOf field then some (.contains, field.drop 5) else none
  | 94 :: field => if metaDot.isPrefixOf field then some (.startsWith, field.drop 5) else none
  | 36 :: field => if metaDot.isPrefixOf field then some (.endsWith, field.drop 5) else none
  | field => if metaDot.isPrefixOf field then some (.standard, field.drop 5) else none

def compileCached (cache : Lru Bytes R) (pattern : Bytes) : Option R × Lru Bytes R :=
  match cache.get pattern with
  | (some regex, cache) => (some regex, cache)
  | (none, cache) =>
    match go.compile pattern with
    | none => (none, cache)
    | some regex => (some regex, cache.set pattern regex)

def addCriterion (key : Bytes) (value : Value O) (m : Matchers O R) (cache : Lru Bytes R) :
    Matchers O R × Lru Bytes R :=
  match parseKey key, value with
  | some (.root, field), value => ({ m with rootMatchers := m.rootMatchers ++ [(field, value)] }, cache)
  | some (.regex, field), .str pattern =>
    match compileCached go cache pattern with
    | (none, cache) => (m, cache)
    | (some regex, cache) => ({ m with regexMatchers := m.regexMatchers ++ [(field, regex)] }, cache)
  | some (.contains, field), .str s => ({ m with containsMatchers := m.containsMatchers ++ [(field, s)] }, cache)
  | some (.startsWith, field), .str s => ({ m with prefixMatchers := m.prefixMatchers ++ [(field, s)] }, cache)
  | some (.endsWith, field), .str s => ({ m with suffixMatchers := m.suffixMatchers ++ [(field, s)] }, cache)
  | some (.standard, field), value => ({ m with standardMeta := m.standardMeta ++ [(field, value)] }, cache)
  | _, _ => (m, cache)

def addCriteria (go : Foreign O R) : List (Sigma fun _ : Bytes => Value O) → Matchers O R → Lru Bytes R →
    Matchers O R × Lru Bytes R
  | [], m, cache => (m, cache)
  | ⟨key, value⟩ :: criteria, m, cache =>
    addCriteria go criteria (addCriterion go key value m cache).1 (addCriterion go key value m cache).2

def matchesStandardMeta (go : Foreign O R) (entry : Entry O) : List (Bytes × Value O) → Option Bool
  | [] => some true
  | (field, expected) :: criteria =>
    match matchStandard go entry field expected with
    | some true => matchesStandardMeta go entry criteria
    | result => result

def matchesAllCriteria (entry : Entry O) (m : Matchers O R) : Option Bool :=
  if !m.rootMatchers.all fun c => matchRoot entry c.1 c.2 then some false
  else if !m.regexMatchers.all fun c => matchRegex go entry c.1 c.2 then some false
  else if !m.containsMatchers.all fun c => matchContains (entry.metadata.lookup c.1) c.2 then some false
  else if !m.prefixMatchers.all fun c => matchAffix List.isPrefixOf entry c.1 c.2 then some false
  else if !m.suffixMatchers.all fun c => matchAffix List.isSuffixOf entry c.1 c.2 then some false
  else matchesStandardMeta go entry m.standardMeta

def filterEntries (go : Foreign O R) (m : Matchers O R) : List (Entry O) → Option (List (Entry O))
  | [] => some []
  | entry :: entries =>
    match matchesAllCriteria go entry m with
    | none => none
    | some true => (filterEntries go m entries).map (entry :: ·)
    | some false => filterEntries go m entries

def valueBytes : Value O → Bytes
  | .str s => s
  | .strs ss => ss.flatMap (· ++ [44])
  | .anys vs => [91] ++ ([32] : Bytes).intercalate (vs.map fun v => v.elim id go.print) ++ [93]
  | .other v => go.print v

/-- What is hashed of a query: its keys in their order, each with a colon and its value. -/
def encode (query : Query O) : Bytes :=
  (query.entries.insertionSort fun a b => leBytes a.1 b.1 = true).flatMap fun c => c.1 ++ 58 :: valueBytes go c.2

def hashMetadata (query : Query O) : UInt64 := fnv64a (encode go query)

structure Reader (O : Type) where
  revision : Nat
  entries : List (Entry O)

structure MemoryFinder (O R : Type) where
  queryCache : Lru (Nat × UInt64) (List (Entry O))
  regexCache : Lru Bytes R
  lastRevision : Nat := 0

def newFinder (queryCacheSize regexCacheSize : Nat) : MemoryFinder O R where
  queryCache := .new queryCacheSize
  regexCache := .new regexCacheSize

def invalidate (f : MemoryFinder O R) (revision : Nat) : MemoryFinder O R :=
  if revision ≠ f.lastRevision ∧ 0 < revision then
    if 0 < f.lastRevision then { f with lastRevision := revision, queryCache := .new 1000 }
    else { f with lastRevision := revision }
  else f

def search (f : MemoryFinder O R) (reader : Reader O) (query : Query O) : Option (List (Entry O)) × MemoryFinder O R :=
  let built := addCriteria go query.entries {} f.regexCache
  match filterEntries go built.1 reader.entries with
  | none => (none, { f with regexCache := built.2 })
  | some result =>
    (some result, { f with
      regexCache := built.2, queryCache := f.queryCache.set (reader.revision, hashMetadata go query) result })

def find (f : MemoryFinder O R) (reader : Reader O) (query : Query O) : Option (List (Entry O)) × MemoryFinder O R :=
  let f := invalidate f reader.revision
  match f.queryCache.get (reader.revision, hashMetadata go query) with
  | (some entries, queryCache) => (some entries, { f with queryCache })
  | (none, queryCache) => search go { f with queryCache } reader query

end Wippy.Registry.Finder
