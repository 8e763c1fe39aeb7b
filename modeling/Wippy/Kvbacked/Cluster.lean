import Wippy.Kvbacked.Strong
import Wippy.Lib.Reach

/-! The registry services of all nodes over one kv.

    A transaction commits or not in the current table; every read sees some table published so far. A node that
    reconciles a name submits the transaction of `assignObservers`, or those of `attest` and `leaderDrive`; leaders,
    members, clocks and barriers are arguments of the events. Removals of a process or a node scan first and delete each
    binding later. -/

namespace Wippy.Kvbacked
open Lib

/-- The kv and the bindings that removals have found and not yet deleted. `puts` is a history variable: every record
    that a committed transaction wrote, in order. -/
structure Cluster where
  store : Store := {}
  published : List Store := [{}]
  victims : List Victim := []
  puts : List (Bytes × Record) := []

inductive Event
  | register (selfNode name : Bytes) (p : PID) (id : Vector UInt8 strongAttemptBytes) (deadline now : Int)
  | assignObservers (selfNode name : Bytes) (isLeader : Bool) (nodes : List Bytes) (snap : Nat)
  | attest (selfNode name : Bytes) (snap current : Nat)
  | leaderDrive (name : Bytes) (snap : Nat) (read again missing : Bytes → Nat) (now : Int) (barrier : Bool)
  | promoteConflict (name : Bytes) (snap : Nat) (read : Bytes → Nat)
  | unreserve (name : Bytes) (pending : Nat) (read : Bytes → Nat)
  | registerConsistent (name : Bytes) (p : PID)
  | resolveConflict (resolve : Bytes → PID → PID → PID) (name : Bytes) (incoming : PID) (active pending : Nat)
  | unregisterScope (name : Bytes) (active : Nat)
  | remove (p : PID) (snap : Nat)
  | removeNode (nodeID : Bytes) (snap : Nat)
  | deleteBinding (victim active : Nat)

namespace Cluster
variable (s : Cluster)

def snapshot (i : Nat) : Store := (s.published[i]?).getD {}

def read (at_ : Bytes → Nat) (key : Bytes) : Option Entry := (s.snapshot (at_ key)).get key

def submitted : Event → Option Txn
  | .register selfNode name p id deadline now =>
    some (Kvbacked.register selfNode name p (newStrongAttempt id) deadline now)
  | .assignObservers selfNode name isLeader nodes snap => do
    let (pe, hdr) ← reconcile (s.snapshot snap) name
    Kvbacked.assignObservers selfNode isLeader nodes name pe.version hdr
  | .attest selfNode name snap current => do
    let (pe, hdr) ← reconcile (s.snapshot snap) name
    Kvbacked.attest selfNode name pe.version hdr.attemptID hdr.requiredNodes
      ((s.snapshot current).get (pendingKey name))
  | .leaderDrive name snap read again missing now barrier => do
    let (pe, hdr) ← reconcile (s.snapshot snap) name
    Kvbacked.leaderDrive (s.read read) (s.read again) (s.read missing) now barrier name pe.epoch pe.version hdr
  | .promoteConflict name snap read => do
    let (pe, hdr) ← reconcile (s.snapshot snap) name
    Kvbacked.promoteConflict (s.read read) name pe.epoch pe.version hdr
  | .unreserve name pending read => Kvbacked.unreserve (s.read read) name ((s.snapshot pending).get (pendingKey name))
  | .registerConsistent name p => some (Kvbacked.registerConsistent name p)
  | .resolveConflict resolve name incoming active pending =>
    Kvbacked.resolveConflict resolve name incoming ((s.snapshot active).get (activeKey name))
      ((s.snapshot pending).get (pendingKey name))
  | .unregisterScope name active => Kvbacked.unregisterScope name ((s.snapshot active).get (activeKey name))
  | .deleteBinding victim active => do
    let v ← s.victims[victim]?
    some (Kvbacked.deleteBinding v ((s.snapshot active).get (activeKey v.name)))
  | .remove _ _ | .removeNode _ _ => none

def commit (ops : Txn) : Cluster :=
  let (store, committed) := s.store.txn ops
  { s with
    store
    published := s.published ++ [store]
    puts := if committed then s.puts ++ TxnOp.puts ops else s.puts }

def remaining : Event → List Victim
  | .remove p snap => s.victims ++ Kvbacked.remove (s.snapshot snap) p
  | .removeNode nodeID snap => s.victims ++ Kvbacked.removeNode (s.snapshot snap) nodeID
  | .deleteBinding victim _ => s.victims.eraseIdx victim
  | _ => s.victims

def handle (e : Event) : Cluster := { (s.submitted e).elim s s.commit with victims := s.remaining e }

def run (es : List Event) : Cluster := es.foldl handle s

def written (e : Event) : List (Bytes × Record) := (s.handle e).puts.drop s.puts.length

def attempts : List Bytes :=
  s.puts.filterMap fun x =>
    match x.2 with
    | .pending hdr => some hdr.attemptID
    | _ => none

def drawn : Event → Option Bytes
  | .register _ _ _ id _ _ => some (newStrongAttempt id)
  | _ => none

/-- Identities of attempts are drawn at random and never drawn twice, and a published attempt is not submitted again. -/
def Fresh (e : Event) : Prop := ∀ a ∈ s.attempts, drawn e ≠ some a

instance (s : Cluster) (e : Event) : Decidable (s.Fresh e) :=
  inferInstanceAs (Decidable (∀ a ∈ s.attempts, drawn e ≠ some a))

def pending (s : Cluster) (name : Bytes) : Option PendingHeader :=
  (s.store.get (pendingKey name)).bind fun e =>
    match e.value with
    | .pending hdr => some hdr
    | _ => none

/-- The attempt that a record ends: a Strong active record and a terminal result do. -/
def outcomeOf : Record → Option Bytes
  | .active v => if v.strong then some v.attemptID else none
  | .result r => some r.attemptID
  | .pending _ | .index _ | .vote _ => none

def outcomes (attemptID : Bytes) : List (Bytes × Record) :=
  s.puts.filter fun x => outcomeOf x.2 == some attemptID

end Cluster
end Wippy.Kvbacked
