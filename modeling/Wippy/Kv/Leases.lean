import Wippy.Kv.Raft.Fsm

/-! Lease deadlines in the engines on the raft log, `system/kv/raft_engine.go`.

    Each node has a replica of the kv state machine that applies the committed commands at its own pace, a table of
    deadlines, and a sweeper. The parts of a call, and the critical sections of a sweep, are separate steps. Instants
    and durations are nanoseconds on one clock. -/

namespace Wippy.Kv.Raft
open Lib

/-- `time.Duration.Milliseconds`, which rounds towards zero. -/
def durationMilliseconds (d : Int64) : Int64 := Int64.ofInt (d.toInt.tdiv 1000000)

/-- `time.Time.UnixMilli`, which rounds down. -/
def unixMilli (t : Int) : Int64 := Int64.ofInt (t / 1000000)

def instantOfMilli (ms : Int64) : Int := ms.toInt * 1000000

/-- `%s-lease-%d` -/
def leaseName (localNode : Bytes) (seq : Nat) : LeaseID :=
  localNode ++ [45, 108, 101, 97, 115, 101, 45] ++ (Nat.toDigits 10 seq).map fun c => UInt8.ofNat c.toNat

inductive CallKind
  | grant (ttl : Int64) (expiresAt : Int)
  | keepAlive (ttl : Int64) (renewed : Int)
  | revoke
  | sweep
  deriving DecidableEq, Repr

structure Call where
  node : Bytes
  id : LeaseID
  kind : CallKind
  committed : Bool := false
  deriving DecidableEq, Repr

def Call.command (c : Call) : Command :=
  match c.kind with
  | .grant ttl expiresAt =>
    { op := .opLeaseGrant, leaseID := c.id, ttlMs := durationMilliseconds ttl, expiresAtMs := unixMilli expiresAt }
  | .keepAlive ttl renewed =>
    { op := .opLeaseRenew, leaseID := c.id, ttlMs := durationMilliseconds ttl, expiresAtMs := unixMilli renewed }
  | .revoke | .sweep => { op := .opLeaseRevoke, leaseID := c.id }

inductive Sweeper
  | idle
  /-- In `rearmFromState`, with the leases read from the state machine. -/
  | rearming (leases : Map LeaseID Int64)
  /-- Between `rearmFromState` and `sweepExpired`. -/
  | rearmed
  /-- In `sweepExpired`, with the ids still to revoke. -/
  | sweeping (expired : List LeaseID)
  | revoking (id : LeaseID) (expired : List LeaseID)

/-- The engine of a node. `applied` counts the commands of the log that its state machine has applied; `handles` has
    the leases it granted, with their time to live. -/
structure LeaseEngine where
  fsm : RaftFSM := { state := State.newState, snap := {} }
  applied : Nat := 0
  deadlines : Map LeaseID Int := ∅
  leaseSeq : Nat := 0
  handles : List (LeaseID × Int64) := []
  sweeper : Sweeper := .idle

namespace LeaseEngine
variable (e : LeaseEngine)

def trackLease (id : LeaseID) (deadline : Int) : LeaseEngine :=
  { e with deadlines := e.deadlines.insert id deadline }

def forgetLease (id : LeaseID) : LeaseEngine := { e with deadlines := e.deadlines.erase id }

/-- The loop of `rearmFromState`: leases that are scheduled already stay as they are. -/
def rearm (leases : Map LeaseID Int64) : LeaseEngine :=
  { e with
    deadlines := leases.entries.foldl
      (fun deadlines x => if (deadlines.lookup x.1).isSome then deadlines
        else deadlines.insert x.1 (instantOfMilli x.2))
      e.deadlines }

/-- The first loop of `sweepExpired`, the deadlines walked in the given order. -/
def expired (now : Int) (order : List LeaseID) : List LeaseID :=
  (e.deadlines.keysIn order).filter fun id => (e.deadlines.lookup id).any fun dl => decide (dl ≤ now)

def nextExpired : LeaseEngine :=
  match e.sweeper with
  | .revoking _ rest => { e with sweeper := .sweeping rest }
  | _ => e

def expiresAtMs (id : LeaseID) : Option Int64 := (e.fsm.leaseSnapshot).lookup id

def apply (c : Command) (order : List Bytes) : LeaseEngine :=
  { e with
    fsm := ((e.fsm.beginLog (UInt64.ofNat (e.applied + 1))).applyCommand c order).1
    applied := e.applied + 1 }

end LeaseEngine

/-- A revoke that a sweep proposed: what the node's state machine had for the lease, and when. -/
structure Proposal where
  node : Bytes
  id : LeaseID
  expiresAtMs : Option Int64
  now : Int
  deriving DecidableEq, Repr

/-- The nodes, the committed commands, and the calls in flight. `proposals` is a history variable. -/
structure Leases where
  engines : Bytes → LeaseEngine := fun _ => {}
  log : List Command := []
  leader : Option Bytes := none
  now : Int := 0
  calls : List Call := []
  proposals : List Proposal := []

namespace Leases
variable (s : Leases)

def setEngine (node : Bytes) (e : LeaseEngine) : Leases :=
  { s with engines := fun n => if n = node then e else s.engines n }

def propose (c : Call) : Leases := { s with calls := s.calls ++ [c] }

def grantLease (node : Bytes) (ttl : Int64) : Leases :=
  let e := s.engines node
  let seq := e.leaseSeq + 1
  (s.setEngine node { e with leaseSeq := seq }).propose
    { node, id := leaseName node seq, kind := .grant ttl (s.now + ttl.toInt) }

def keepAlive (s : Leases) (node : Bytes) (handle : Nat) : Leases :=
  match (s.engines node).handles[handle]? with
  | some (id, ttl) => s.propose { node, id, kind := .keepAlive ttl (s.now + ttl.toInt) }
  | none => s

def revoke (s : Leases) (node : Bytes) (handle : Nat) : Leases :=
  match (s.engines node).handles[handle]? with
  | some (id, _) => s.propose { node, id, kind := .revoke }
  | none => s

def commit (i : Nat) : Leases :=
  match s.calls[i]? with
  | some c =>
    if c.committed then s
    else { s with log := s.log ++ [c.command], calls := s.calls.set i { c with committed := true } }
  | none => s

def succeeded (e : LeaseEngine) (c : Call) : LeaseEngine :=
  match c.kind with
  | .grant ttl expiresAt => { e.trackLease c.id expiresAt with handles := e.handles ++ [(c.id, ttl)] }
  | .keepAlive _ renewed => e.trackLease c.id renewed
  | .revoke => e.forgetLease c.id
  | .sweep => (e.forgetLease c.id).nextExpired

def failed (e : LeaseEngine) (c : Call) : LeaseEngine :=
  match c.kind with
  | .grant _ _ | .keepAlive _ _ => e
  | .revoke => e.forgetLease c.id
  | .sweep => e.nextExpired

def finish (i : Nat) (ok : Bool) : Leases :=
  match s.calls[i]? with
  | some c =>
    let done : Leases := { s with calls := s.calls.eraseIdx i }
    if ok then if c.committed then done.setEngine c.node (succeeded (s.engines c.node) c) else s
    else done.setEngine c.node (failed (s.engines c.node) c)
  | none => s

def apply (s : Leases) (node : Bytes) (order : List Bytes) : Leases :=
  match s.log[(s.engines node).applied]? with
  | some c => s.setEngine node ((s.engines node).apply c order)
  | none => s

def sweep (s : Leases) (node : Bytes) (order : List LeaseID) : Leases :=
  let e := s.engines node
  match e.sweeper with
  | .idle => if s.leader = some node then s.setEngine node { e with sweeper := .rearming e.fsm.leaseSnapshot } else s
  | .rearming leases => s.setEngine node { e.rearm leases with sweeper := .rearmed }
  | .rearmed => s.setEngine node { e with sweeper := .sweeping (e.expired s.now order) }
  | .sweeping [] => s.setEngine node { e with sweeper := .idle }
  | .sweeping (id :: rest) =>
    let proposal : Proposal := { node, id, expiresAtMs := e.expiresAtMs id, now := s.now }
    ({ s with proposals := s.proposals ++ [proposal] }.setEngine node { e with sweeper := .revoking id rest }).propose
      { node, id, kind := .sweep }
  | .revoking _ _ => s

inductive Event
  | elapse (d : Nat)
  | elect (leader : Option Bytes)
  | grantLease (node : Bytes) (ttl : Int64)
  | keepAlive (node : Bytes) (handle : Nat)
  | revoke (node : Bytes) (handle : Nat)
  | commit (call : Nat)
  | finish (call : Nat) (ok : Bool)
  | apply (node : Bytes) (order : List Bytes)
  | sweep (node : Bytes) (order : List LeaseID)

def handle : Event → Leases
  | .elapse d => { s with now := s.now + d }
  | .elect leader => { s with leader }
  | .grantLease node ttl => s.grantLease node ttl
  | .keepAlive node i => s.keepAlive node i
  | .revoke node i => s.revoke node i
  | .commit i => s.commit i
  | .finish i ok => s.finish i ok
  | .apply node order => s.apply node order
  | .sweep node order => s.sweep node order

def run (es : List Event) : Leases := es.foldl handle s

end Leases
end Wippy.Kv.Raft
