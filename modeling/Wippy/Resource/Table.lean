/-! The table of the resources of a process, `api/runtime/resource/table.go`.

    Every operation holds the mutex of the table and is one step. A handle has 64 bits, and `int` of an index is signed.
    Which values implement `Dropper` is a parameter. -/

namespace Wippy.Resource

abbrev Handle := UInt64

structure Entry (V : Type) where
  value : Option V
  typeID : UInt32
  borrowCount : UInt32 := 0
  valid : Bool

/-- History variables: `accepted`, the values that `Insert` took, `dropped`, those whose `Drop` was called, and `peak`,
    the largest number of values live together since the last `Reset`. -/
structure Table (V : Type) where
  entries : List (Entry V) := []
  freeList : List Handle := []
  closed : Bool := false
  accepted : List V := []
  dropped : List V := []
  peak : Nat := 0

/-- What an operation returns. Where the source returns a value and whether there is one, this is an option. -/
inductive Result (V : Type)
  | handle (h : Handle)
  | value (v : Option V)
  | typeID (id : Option UInt32)
  | ok (b : Bool)
  | done
  | panics
  deriving DecidableEq

def signed (x : UInt64) : Int :=
  if x.toNat < 9223372036854775808 then x.toNat else x.toNat - 18446744073709551616

namespace Table
variable {V : Type} (dropper : V → Bool) (t : Table V)

def values : List V := t.entries.flatMap fun e => if e.valid then e.value.toList else []

def insert (typeID : UInt32) (value : V) : Table V × Result V :=
  if t.closed then (t, .handle 0)
  else
    let e : Entry V := { typeID, value := some value, valid := true }
    match t.freeList.getLast? with
    | some handle =>
      let t := { t with freeList := t.freeList.dropLast }
      if (handle - 1).toNat < t.entries.length then
        ({ t with entries := t.entries.set (handle - 1).toNat e, accepted := t.accepted ++ [value] }, .handle handle)
      else (t, .panics)
    | none =>
      ({ t with entries := t.entries ++ [e], accepted := t.accepted ++ [value] },
        .handle (.ofNat (t.entries.length + 1)))

variable (handle : Handle)

/-- The checks that every operation on a handle starts with, before it goes on with the index and the entry. -/
def onValid (fails : Result V) (f : Nat → Entry V → Table V × Result V) : Table V × Result V :=
  if handle = 0 then (t, fails)
  else
    let idx := handle - 1
    if signed idx ≥ t.entries.length then (t, fails)
    else
      match t.entries[idx.toNat]? with
      | none => (t, .panics)
      | some e => if e.valid then f idx.toNat e else (t, fails)

def get : Table V × Result V := t.onValid handle (.value none) fun _ e => (t, .value e.value)

def getTyped (typeID : UInt32) : Table V × Result V :=
  t.onValid handle (.value none) fun _ e => (t, .value (if e.typeID ≠ typeID then none else e.value))

def typeID (handle : Handle) : Table V × Result V :=
  t.onValid handle (.typeID none) fun _ e => (t, .typeID (some e.typeID))

def remove : Table V × Result V :=
  t.onValid handle (.value none) fun idx e =>
    if e.borrowCount > 0 then (t, .value none)
    else
      ({ t with
          entries := t.entries.set idx { e with valid := false, value := none, borrowCount := 0 }
          freeList := t.freeList ++ [handle]
          dropped := t.dropped ++ e.value.toList.filter dropper }, .value e.value)

def borrow : Table V × Result V :=
  t.onValid handle (.ok false) fun idx e =>
    ({ t with entries := t.entries.set idx { e with borrowCount := e.borrowCount + 1 } }, .ok true)

def returnBorrow : Table V × Result V :=
  t.onValid handle (.ok false) fun idx e =>
    if e.borrowCount = 0 then (t, .ok false)
    else ({ t with entries := t.entries.set idx { e with borrowCount := e.borrowCount - 1 } }, .ok true)

/-- The loop of `Clear`, `Close` and `Reset`. -/
def dropAll : Table V :=
  { t with
    entries := t.entries.map fun e => if e.valid then { e with valid := false, value := none } else e
    dropped := t.dropped ++ t.values.filter dropper }

def clear : Table V := { t.dropAll dropper with freeList := [] }

def close : Table V := if t.closed then t else { t.dropAll dropper with closed := true, entries := [], freeList := [] }

def reset : Table V := { t.dropAll dropper with entries := [], freeList := [], closed := false }

inductive Op (V : Type)
  | insert (typeID : UInt32) (value : V)
  | get (handle : Handle)
  | getTyped (handle : Handle) (typeID : UInt32)
  | typeID (handle : Handle)
  | remove (handle : Handle)
  | borrow (handle : Handle)
  | returnBorrow (handle : Handle)
  | clear
  | reset
  | close

def apply : Op V → Table V × Result V
  | .insert typeID value => t.insert typeID value
  | .get handle => t.get handle
  | .getTyped handle typeID => t.getTyped handle typeID
  | .typeID handle => t.typeID handle
  | .remove handle => t.remove dropper handle
  | .borrow handle => t.borrow handle
  | .returnBorrow handle => t.returnBorrow handle
  | .clear => (t.clear dropper, .done)
  | .reset => ({ t.reset dropper with peak := 0 }, .done)
  | .close => (t.close dropper, .done)

def step (op : Op V) : Table V :=
  let t := (t.apply dropper op).1
  { t with peak := max t.peak t.values.length }

end Table
end Wippy.Resource
