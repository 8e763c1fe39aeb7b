import Mathlib.Data.List.Basic

/-! The work-stealing deque of a worker, `system/scheduler/actor/deque.go`.

    A step is one atomic load, store or compare-and-swap on the shared words. A buffer that is being grown is not shared
    yet, so copying an item into it is one step, the load from the old buffer. -/

namespace Wippy.Scheduler

/-- Slots by index modulo their number, which is a power of two in the source. -/
structure Buffer (P : Type) where
  length : Nat
  items : Nat → Option P

namespace Buffer
variable {P : Type}

def make (length : Nat) : Buffer P := ⟨length, fun _ => none⟩

def load (buf : Buffer P) (i : Nat) : Option P := buf.items (i % buf.length)

def store (buf : Buffer P) (i : Nat) (item : Option P) : Buffer P :=
  { buf with items := Function.update buf.items (i % buf.length) item }

end Buffer

/-- Where the owner is: what it does next, and what it has loaded. -/
inductive Owner (P : Type)
  | idle
  -- Push
  | loadBottom (p : P)
  | loadTop (p : P) (bottom : Int)
  | loadBuffer (p : P) (bottom : Int) (top : Nat)
  | grow (p : P) (bottom : Int) (old : Nat) (new : Buffer P) (i : Nat)
  | storeItem (p : P) (bottom : Int) (buf : Nat)
  | storeBottom (p : P) (bottom : Int)
  -- Pop
  | popLoadBottom
  | popLoadBuffer (bottom : Int)
  | popStoreBottom (bottom : Int) (buf : Nat)
  | popLoadTop (bottom : Int) (buf : Nat)
  | popLoadItem (bottom : Int) (buf : Nat)
  | popLoadLast (bottom : Int) (buf : Nat)
  | popCompareAndSwap (bottom : Int) (item : Option P)
  | popWon (bottom : Int) (item : Option P)
  | popLost (bottom : Int)
  | popEmpty (top : Nat)

/-- `Steal`, or `StealHalfInto` with a destination of some length. -/
inductive Taking
  | steal
  | stealHalfInto (length : Nat)
  deriving DecidableEq, Repr

def Taking.count (taking : Taking) (size : Int) : Nat :=
  match taking with
  | .steal => 1
  | .stealHalfInto length => min (max (size.toNat / 2) 1) length

inductive Thief (P : Type)
  | idle
  | loadTop (taking : Taking)
  | loadBottom (taking : Taking) (top : Nat)
  | loadBuffer (top count : Nat)
  /-- It loads items until it has `count`, and then tries to move the top. -/
  | copy (top count : Nat) (buf : Nat) (copied : List (Option P))

/-- The shared words and the buffers, which are numbered as they are made; the parties; and the processors that have
    been pushed and returned. The words `top` and `bottom`, an `int64` each in the source, are unbounded here. -/
structure Deque (P : Type) where
  buffers : Nat → Buffer P
  buffer : Nat := 0
  top : Nat := 0
  bottom : Int := 0
  owner : Owner P := .idle
  thieves : Nat → Thief P := fun _ => .idle
  pushed : List P := []
  returned : List P := []

inductive DequeEvent (P : Type)
  | push (p : P)
  | pop
  | take (thief : Nat) (taking : Taking)
  | owner
  | thief (thief : Nat)

namespace Deque
variable {P : Type}

def roundUp : Nat → Nat → Nat → Nat
  | 0, _, actual => actual
  | fuel + 1, capacity, actual => if actual < capacity then roundUp fuel capacity (actual * 2) else actual

def newDeque (capacity : Nat) : Deque P where
  buffers _ := .make (roundUp capacity capacity 1)

variable (d : Deque P)

def current : Buffer P := d.buffers d.buffer

def setBuffer (i : Nat) (buf : Buffer P) : Nat → Buffer P := Function.update d.buffers i buf

def stepOwner : Deque P :=
  match d.owner with
  | .idle => d
  -- Push
  | .loadBottom p => { d with owner := .loadTop p d.bottom }
  | .loadTop p bottom => { d with owner := .loadBuffer p bottom d.top }
  | .loadBuffer p bottom top =>
    if (d.current.length : Int) - 1 ≤ bottom - top then
      { d with owner := .grow p bottom d.buffer (.make (d.current.length * 2)) top }
    else { d with owner := .storeItem p bottom d.buffer }
  | .grow p bottom old new i =>
    if (i : Int) < bottom then
      { d with owner := .grow p bottom old (new.store i ((d.buffers old).load i)) (i + 1) }
    else
      { d with
        buffers := d.setBuffer (d.buffer + 1) new, buffer := d.buffer + 1
        owner := .storeItem p bottom (d.buffer + 1) }
  | .storeItem p bottom buf =>
    { d with
      buffers := d.setBuffer buf ((d.buffers buf).store bottom.toNat (some p)), owner := .storeBottom p bottom }
  | .storeBottom p bottom => { d with bottom := bottom + 1, owner := .idle, pushed := d.pushed ++ [p] }
  -- Pop
  | .popLoadBottom => { d with owner := .popLoadBuffer (d.bottom - 1) }
  | .popLoadBuffer bottom => { d with owner := .popStoreBottom bottom d.buffer }
  | .popStoreBottom bottom buf => { d with bottom := bottom, owner := .popLoadTop bottom buf }
  | .popLoadTop bottom buf =>
    if (d.top : Int) < bottom then { d with owner := .popLoadItem bottom buf }
    else if bottom = d.top then { d with owner := .popLoadLast bottom buf }
    else { d with owner := .popEmpty d.top }
  | .popLoadItem bottom buf =>
    { d with owner := .idle, returned := d.returned ++ ((d.buffers buf).load bottom.toNat).toList }
  | .popLoadLast bottom buf => { d with owner := .popCompareAndSwap bottom ((d.buffers buf).load bottom.toNat) }
  | .popCompareAndSwap bottom item =>
    if (d.top : Int) = bottom then { d with top := d.top + 1, owner := .popWon bottom item }
    else { d with owner := .popLost bottom }
  | .popWon bottom item => { d with bottom := bottom + 1, owner := .idle, returned := d.returned ++ item.toList }
  | .popLost bottom => { d with bottom := bottom + 1, owner := .idle }
  | .popEmpty top => { d with bottom := top, owner := .idle }

def setThief (i : Nat) (thief : Thief P) : Nat → Thief P := Function.update d.thieves i thief

def stepThief (i : Nat) : Deque P :=
  match d.thieves i with
  | .idle => d
  | .loadTop taking => { d with thieves := d.setThief i (.loadBottom taking d.top) }
  | .loadBottom taking top =>
    if d.bottom ≤ top then { d with thieves := d.setThief i .idle }
    else { d with thieves := d.setThief i (.loadBuffer top (taking.count (d.bottom - top))) }
  | .loadBuffer top count => { d with thieves := d.setThief i (.copy top count d.buffer []) }
  | .copy top count buf copied =>
    if copied.length < count then
      { d with thieves := d.setThief i (.copy top count buf (copied ++ [(d.buffers buf).load (top + copied.length)])) }
    else if d.top = top then
      { d with
        top := top + count, thieves := d.setThief i .idle, returned := d.returned ++ copied.reduceOption }
    else { d with thieves := d.setThief i .idle }

def step : DequeEvent P → Deque P
  | .push p =>
    match d.owner with
    | .idle => { d with owner := .loadBottom p }
    | _ => d
  | .pop =>
    match d.owner with
    | .idle => { d with owner := .popLoadBottom }
    | _ => d
  | .take i taking =>
    match d.thieves i with
    | .idle => { d with thieves := d.setThief i (.loadTop taking) }
    | _ => d
  | .owner => d.stepOwner
  | .thief i => d.stepThief i

end Deque
end Wippy.Scheduler
