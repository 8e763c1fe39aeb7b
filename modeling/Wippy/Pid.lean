import Wippy.Crdt.State

/-! Process identifiers, `api/pid/pid.go`. -/

namespace Wippy

/-- A process identifier. The cached string of the source is not a part of it: `Equal` ignores it, and it is the
    result of `toString` where it is set. -/
structure PID where
  node : Bytes := []
  host : Bytes := []
  uniqID : Bytes := []
  deriving DecidableEq, Repr

/-- The identifier as `{node@host|uniqid}`, or `{host|uniqid}` without a node. -/
def PID.string (p : PID) : Bytes :=
  [123] ++ (if p.node = [] then [] else p.node ++ [64]) ++ p.host ++ [124] ++ p.uniqID ++ [125]

inductive PIDError
  | missingBraces
  | missingPipe
  deriving DecidableEq, Repr

def PIDError.message : PIDError → String
  | missingBraces => "invalid pid format: missing braces"
  | missingPipe => "invalid pid format: missing pipe"

def cutByte (b : UInt8) (s : Bytes) : Option (Bytes × Bytes) :=
  (s.idxOf? b).map fun i => (s.take i, s.drop (i + 1))

/-- Parse `{host|uniqid}` or `{node@host|uniqid}`. Of a unique id with a pipe, only what follows the pipe is kept. -/
def parsePID (s : Bytes) : Except PIDError PID :=
  if s.length < 3 ∨ s.head? ≠ some 123 ∨ s.getLast? ≠ some 125 then .error .missingBraces
  else
    match cutByte 124 (s.drop 1).dropLast with
    | none => .error .missingPipe
    | some (hostPart, uniqPart) =>
      let uniqID := ((cutByte 124 uniqPart).map Prod.snd).getD uniqPart
      match cutByte 64 hostPart with
      | some (node, host) => .ok { node, host, uniqID }
      | none => .ok { host := hostPart, uniqID }

/-! ### JSON -/

inductive PIDJSONError
  | tooShort
  | missingQuotes
  | format (err : PIDError)
  deriving DecidableEq, Repr

def PIDJSONError.message : PIDJSONError → String
  | tooShort => "invalid PID JSON: too short"
  | missingQuotes => "invalid PID JSON: missing quotes"
  | format err => err.message

def PID.marshalJSON (p : PID) : Bytes := [34] ++ p.string ++ [34]

def unmarshalJSON (data : Bytes) : Except PIDJSONError PID :=
  if data.length < 4 then .error .tooShort
  else if data.head? ≠ some 34 ∨ data.getLast? ≠ some 34 then .error .missingQuotes
  else
    match parsePID (data.drop 1).dropLast with
    | .ok p => .ok p
    | .error err => .error (.format err)

end Wippy
