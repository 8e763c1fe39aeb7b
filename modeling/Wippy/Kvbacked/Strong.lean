import Wippy.Kvbacked.Registry
import Wippy.Lib.ByteOrder

/-! Strong registration on the kv, `system/topology/namereg/kvbacked/strong.go`.

    An attempt publishes a pending header, the leader stamps the cohort of observers on it, every observer acknowledges,
    and the leader promotes the attempt or gives it a terminal result. Each function gives the transaction that the
    source submits. Reads by `engine.Get` may each see another table: they are a function `read`. -/

namespace Wippy.Kvbacked
open Lib

/-- `ack:` -/
def ackPrefix : Bytes := registryPrefix ++ [97, 99, 107, 58]

/-- `result:` -/
def resultPrefix : Bytes := registryPrefix ++ [114, 101, 115, 117, 108, 116, 58]

def voteComponent (s : Bytes) : Bytes :=
  s.flatMap fun b => if b = 37 then [37, 50, 53] else if b = 58 then [37, 51, 65] else [b]

def ackBase (name attemptID : Bytes) : Bytes := ackPrefix ++ voteComponent name ++ [58] ++ attemptID ++ [58]

def ackKey (name attemptID node : Bytes) : Bytes := ackBase name attemptID ++ voteComponent node

def itoa (n : Nat) : Bytes := (Nat.toDigits 10 n).map fun c => c.toNat.toUInt8

def resultKey (name attemptID : Bytes) : Bytes := resultPrefix ++ itoa name.length ++ [58] ++ name ++ [58] ++ attemptID

def strongAttemptBytes : Nat := 16

def hexDigit (n : UInt8) : UInt8 := if n < 10 then 48 + n else 87 + n

def newStrongAttempt (id : Vector UInt8 strongAttemptBytes) : Bytes :=
  id.toList.flatMap fun b => [hexDigit (b / 16), hexDigit (b % 16)]

/-- The transaction of `register`. It is submitted until it commits once. -/
def register (selfNode name : Bytes) (p : PID) (attemptID : Bytes) (deadline now : Int) : Txn :=
  [.check .absent (activeKey name),
    .put .absent (pendingKey name) (.pending
      { pid := p.string
        name
        attemptID
        nodeID := if p.node = [] then selfNode else p.node
        deadlineUnixNano := deadline
        createdAt := now })]

/-! ### Reconciliation of a name -/

/-- `validateNamingRecord` for the record of `name`. -/
def validRecord (name recordName owner : Bytes) : Bool := recordName == name && (ownerOf owner).isSome

/-- Whether the active record that was read ends the reconciliation: it is a Strong one, or it is not valid. -/
def activeStops (name : Bytes) (active : Entry) : Bool :=
  match decodeActive active.value with
  | none => true
  | some av => !validRecord name av.name av.pid || av.strong

/-- The pending entry that `reconcileForRun` goes on with, after an atomic read of both records of the name. -/
def reconcile (s : Store) (name : Bytes) : Option (Entry × PendingHeader) :=
  if (s.get (activeKey name)).any (activeStops name) then none
  else do
    let pe ← s.get (pendingKey name)
    let hdr ← decodePending pe.value
    if validRecord name hdr.name hdr.pid then some (pe, hdr) else none

/-- `assignObservers` on the members that the leader sees. The cohort of an attempt is stamped once. -/
def assignObservers (selfNode : Bytes) (isLeader : Bool) (nodes : List Bytes) (name : Bytes) (version : Nat)
    (hdr : PendingHeader) : Option Txn :=
  if !isLeader || !hdr.requiredNodes.isEmpty then none
  else if nodes.isEmpty || nodes.contains [] then none
  else if !nodes.contains selfNode then none
  else
    some [.put (.version version) (pendingKey name) (.pending { hdr with requiredNodes := sortBytes nodes.eraseDups })]

def writeVote (name : Bytes) (version : Nat) (key value : Bytes) : Txn :=
  [.check (.version version) (pendingKey name), .put .absent key (.vote value)]

/-- `attest`, after its own read of the pending record. -/
def attest (selfNode name : Bytes) (version : Nat) (attemptID : Bytes) (required : List Bytes)
    (current : Option Entry) :
    Option Txn :=
  if !required.contains selfNode then none
  else do
    let current ← current
    if current.version ≠ version then none
    else
      let header ← decodePending current.value
      if header.attemptID ≠ attemptID || header.name ≠ name then none
      else if !header.requiredNodes.contains selfNode then none
      else some (writeVote name version (ackKey name attemptID selfNode) selfNode)

/-! ### The leader's decision -/

variable (read : Bytes → Option Entry)

def voteExists (key : Bytes) : Bool := (read key).isSome

def complete (name attemptID : Bytes) (required : List Bytes) : Bool :=
  required.all fun n => voteExists read (ackKey name attemptID n)

variable (name : Bytes)

/-- The operations of a promotion to the owner `p`: every required acknowledgement is checked again. -/
def promoteOps (headerVer : Nat) (hdr : PendingHeader) (p : PID) : Txn :=
  [.check (.version headerVer) (pendingKey name),
    .delete .any (pendingKey name),
    .put .absent (activeKey name) (.active
      { pid := hdr.pid
        name
        attemptID := hdr.attemptID
        requiredNodes := hdr.requiredNodes
        strong := true }),
    .put .any (pidIndexKey p name) (.index { pid := hdr.pid, name }),
    .put .any (nodeIndexKey p name) (.index { pid := hdr.pid, name })] ++
  hdr.requiredNodes.flatMap fun n =>
    [.check .present (ackKey name hdr.attemptID n), .delete .any (ackKey name hdr.attemptID n)]

def leaderPromote (headerVer : Nat) (hdr : PendingHeader) : Option Txn :=
  if hdr.requiredNodes.isEmpty then none else (ownerOf hdr.pid).map (promoteOps name headerVer hdr)

def missingAcks (hdr : PendingHeader) : List Bytes :=
  hdr.requiredNodes.filter fun n => !voteExists read (ackKey name hdr.attemptID n)

/-- The result is put and deleted by the same transaction: it is an event of the watch only. At the deadline the
    acknowledgements must still be those that were read. -/
def expireOps (epoch headerVer : Nat) (hdr : PendingHeader) (reason : Reason) : Txn :=
  [.check (.version headerVer) (pendingKey name),
    .put .absent (resultKey name hdr.attemptID) (.result
      { name
        attemptID := hdr.attemptID
        reason
        missing := missingAcks read name hdr
        epoch }),
    .delete .any (pendingKey name)] ++
  (hdr.requiredNodes.flatMap fun n =>
    let ack := ackKey name hdr.attemptID n
    (if reason = .deadline then [.check (if voteExists read ack then .present else .absent) ack] else []) ++
      [.delete .any ack]) ++
  [.delete .any (resultKey name hdr.attemptID)]

def leaderExpire (epoch headerVer : Nat) (hdr : PendingHeader) (reason : Reason) : Option Txn :=
  if reason = .deadline && (missingAcks read name hdr).isEmpty then leaderPromote name headerVer hdr
  else some (expireOps read name epoch headerVer hdr reason)

/-- `leaderDrive`: the acknowledgements are read, and at the deadline once more behind a barrier, which may fail. -/
def leaderDrive (read again missing : Bytes → Option Entry) (now : Int) (barrier : Bool) (name : Bytes)
    (epoch headerVer : Nat) (hdr : PendingHeader) : Option Txn :=
  if complete read name hdr.attemptID hdr.requiredNodes then leaderPromote name headerVer hdr
  else if now ≤ hdr.deadlineUnixNano then none
  else if !barrier then none
  else if complete again name hdr.attemptID hdr.requiredNodes then leaderPromote name headerVer hdr
  else leaderExpire missing name epoch headerVer hdr .deadline

/-- What `leaderPromote` does after its transaction did not commit. -/
def promoteConflict (epoch headerVer : Nat) (hdr : PendingHeader) : Option Txn :=
  if voteExists read (activeKey name) then leaderExpire read name epoch headerVer hdr .ownerConflict else none

/-- The first transaction of `unreserve`, after it read the pending record; `unregisterScope` follows. -/
def unreserve (read : Bytes → Option Entry) (name : Bytes) (pending : Option Entry) : Option Txn := do
  let pe ← pending
  let hdr ← decodePending pe.value
  leaderExpire read name pe.epoch pe.version hdr .unreserve

end Wippy.Kvbacked
