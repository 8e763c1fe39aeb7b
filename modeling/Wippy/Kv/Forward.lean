import Wippy.Kv.Raft.Fsm

/-! Forwarding of writes to the raft leader, `system/kv/raft_forward.go`, `proposeRaw` of `system/kv/raft_engine.go` and
    the dispatch of `cluster/raft/multiplex`.

    A call of `proposeRaw` and every handler of a forwarded request is an activity with a program point. Messages are
    delivered or lost in any order; the event chooses who leads and whether a send fails. Raft appends a command of an
    open `Apply` at most once, and reports that the node is not the leader only for a command that it gives up. The
    correlation counter does not wrap. -/

namespace Wippy.Kv.Raft
open Lib Lib.Wire

def maxForwardRetries : Nat := 3
def maxForwardHops : Nat := 2

def kvDomain : UInt8 := 0xB2

def text (s : String) : Bytes := s.toUTF8.toList

/-! ### Errors and results -/

inductive ReplyFault
  | headerTruncated
  | successFlag
  | unknownKind
  | trailingData
  | contradictory
  | rejectionVersion
  deriving DecidableEq, Repr

def ReplyFault.message : ReplyFault → String
  | headerTruncated => "kv: write response header truncated"
  | successFlag => "kv: write response invalid success flag"
  | unknownKind => "kv: write response unknown error kind"
  | trailingData => "kv: write response trailing data"
  | contradictory => "kv: write response contradictory result"
  | rejectionVersion => "kv: write response rejection has a version"

/-- The errors of a write. `plain` is any error that is known by its text only: raft's other errors, those of the
    router, and what a reply carries as text. -/
inductive WriteError
  | keyNotFound
  | leaseNotFound
  | versionMismatch
  | kvClosed
  | notLeader
  | forwardNotLeader
  | forwardTimeout
  | noForwardLeader
  | forwardOverloaded
  | engineStopped
  | unexpectedResponse
  | fault (f : ReplyFault)
  | plain (msg : Bytes)
  deriving DecidableEq, Repr

def WriteError.message : WriteError → Bytes
  | keyNotFound => text "key not found"
  | leaseNotFound => text "lease not found"
  | versionMismatch => text "version mismatch"
  | kvClosed => text "kv is closed"
  | notLeader => text "not the raft leader"
  | forwardNotLeader => text "kv: forwarded write reached a non-leader"
  | forwardTimeout => text "kv: forwarded write timed out"
  | noForwardLeader => text "kv: no raft leader for forwarded write"
  | forwardOverloaded => text "kv: forwarded write admission overloaded"
  | engineStopped => text "kv: engine stopped"
  | unexpectedResponse => text "kv: unexpected apply response"
  | fault f => text f.message
  | plain msg => msg

/-- `applyResult` with any of these errors. -/
structure WriteResult where
  err : Option WriteError := none
  version : Version := 0
  ok : Bool := false
  deriving DecidableEq, Repr

def ApplyError.write : ApplyError → WriteError
  | .keyNotFound => .keyNotFound
  | .leaseNotFound => .leaseNotFound
  | .decode e => .plain (text e.message)
  | .unknownOp op => .plain (text s!"kv fsm: unknown op {op.byte.toNat}")

def ApplyResult.write (r : ApplyResult) : WriteResult :=
  { err := r.err.map ApplyError.write, version := r.version, ok := r.ok }

def errNone : UInt8 := 0
def errKeyNotFound : UInt8 := 1
def errLeaseNotFound : UInt8 := 2
def errVersionMismatch : UInt8 := 3
def errNotLeaderCode : UInt8 := 4
def errOther : UInt8 := 5

def errToKind (err : Option WriteError) : UInt8 × Bytes :=
  match err with
  | none => (errNone, [])
  | some .keyNotFound => (errKeyNotFound, [])
  | some .leaseNotFound => (errLeaseNotFound, [])
  | some .versionMismatch => (errVersionMismatch, [])
  | some .notLeader => (errNotLeaderCode, [])
  | some e => (errOther, e.message)

/-- Text from another node never becomes one of the errors that decide about a retry. -/
def kindToErr (kind : UInt8) (msg : Bytes) : Option WriteError :=
  if kind = errNone then none
  else if kind = errKeyNotFound then some .keyNotFound
  else if kind = errLeaseNotFound then some .leaseNotFound
  else if kind = errVersionMismatch then some .versionMismatch
  else if kind = errNotLeaderCode then some .forwardNotLeader
  else some (.plain msg)

def encodeForwardWriteResponse (corr : Nat) (res : WriteResult) : Bytes :=
  be 8 corr ++ be 8 res.version.toNat ++ [if res.ok then 1 else 0] ++ [(errToKind res.err).1] ++ (errToKind res.err).2

def decodeForwardWriteResponse (out : Bytes) : WriteResult :=
  if out.length < 18 then { err := some (.fault .headerTruncated) }
  else if out.getD 16 0 > 1 then { err := some (.fault .successFlag) }
  else
    let kind := out.getD 17 0
    if kind > errOther then { err := some (.fault .unknownKind) }
    else if kind ≠ errOther ∧ out.length ≠ 18 then { err := some (.fault .trailingData) }
    else if kind ≠ errNone ∧ out.getD 16 0 ≠ 0 then { err := some (.fault .contradictory) }
    else
      let version := readUint64 out 8
      if kind = errNotLeaderCode ∧ version ≠ 0 then { err := some (.fault .rejectionVersion) }
      else { version, ok := out.getD 16 0 == 1, err := kindToErr kind (out.drop 18) }

/-- A reply that no `replyForward` sends. -/
def malformed (out : Bytes) : Bool :=
  match (decodeForwardWriteResponse out).err with
  | some (.fault _) => true
  | _ => false

/-- What raft hands back for an applied command: the kv state machine's result, or that of the primary one. -/
inductive Response
  | kv (r : ApplyResult)
  | primary
  deriving DecidableEq, Repr

inductive Phase
  /-- In `raft.Apply`, with the response once the command has been appended and applied. -/
  | applying (resp : Option Response)
  /-- At the start of `applyForward`. -/
  | serving
  /-- At the head of the loop of `forwardToLeaderHop`. -/
  | resolving (attempt : Nat)
  /-- In the select of `sendForward`, with what is in the channel. -/
  | waiting (attempt corr : Nat) (ch : Option WriteResult)
  /-- In `serveForward`, with the result. -/
  | answering (res : WriteResult)

/-- A call of `proposeRaw` (`origin` is none) or a handler of the request that `origin` sent under a correlation number.
    `call` is a history variable: the call that the command belongs to. -/
structure Activity where
  node : Bytes
  origin : Option (Bytes × Nat) := none
  hop : Nat := 0
  data : Bytes
  phase : Phase
  call : Nat

structure Request where
  source : Bytes
  dest : Bytes
  corr : Nat
  hop : Nat
  data : Bytes
  call : Nat

structure Reply where
  dest : Bytes
  corr : Nat
  out : Bytes
  call : Nat

/-- An `Apply` whose caller has gone: raft may still append its command. -/
structure Orphan where
  data : Bytes
  call : Nat

structure LogEntry where
  data : Bytes
  response : Response
  call : Nat
  deriving DecidableEq, Repr

structure Returned where
  call : Nat
  res : WriteResult
  err : Option WriteError
  deriving DecidableEq, Repr

/-- The engines and what is between them. History variables: `calls`, the command of each `proposeRaw`, `owner`, the
    call behind a correlation number, and `returned`. -/
structure Forwarding where
  fsm : RaftFSM
  routed : Bytes → Bool
  log : List LogEntry := []
  corr : Bytes → Nat := fun _ => 0
  activities : Map Nat Activity := ∅
  requests : Map Nat Request := ∅
  replies : Map Nat Reply := ∅
  orphans : Map Nat Orphan := ∅
  next : Nat := 0
  calls : List Bytes := []
  owner : Bytes → Nat → Nat := fun _ _ => 0
  returned : List Returned := []

def Activity.forwardHop (a : Activity) : Nat := if a.origin.isSome then a.hop + 1 else 0

namespace Forwarding
variable (s : Forwarding)

def setActivity (id : Nat) (a : Activity) : Forwarding := { s with activities := s.activities.insert id a }

def returns (id call : Nat) (res : WriteResult) (err : Option WriteError) : Forwarding :=
  { s with activities := s.activities.erase id, returned := s.returned ++ [{ call, res, err }] }

/-- `forwardToLeaderHop` returns, to `proposeRaw` or to `applyForward`. -/
def forwarded (id : Nat) (a : Activity) (r : Except WriteError WriteResult) : Forwarding :=
  match a.origin, r with
  | none, .error e => s.returns id a.call {} (some e)
  | none, .ok res => s.returns id a.call res res.err
  | some _, .error e => s.setActivity id { a with phase := .answering { err := some e } }
  | some _, .ok res => s.setActivity id { a with phase := .answering res }

def proposeRaw (node cmd : Bytes) : Forwarding :=
  let a : Activity := { node, data := kvDomain :: cmd, phase := .applying none, call := s.calls.length }
  { s with activities := s.activities.insert s.next a, next := s.next + 1, calls := s.calls ++ [cmd] }

section
variable (snapshotShard : Bytes → Fin snapshotShards)

/-- The dispatch on the domain byte. The primary state machine is not a part of this. -/
def applyLog (fsm : RaftFSM) (data : Bytes) (order : List Bytes) : RaftFSM × Response :=
  match data with
  | b :: rest =>
    if b = kvDomain then
      let res := fsm.apply snapshotShard { index := fsm.state.applyIndex + 1, data := rest } order
      (res.1, .kv res.2.1)
    else (fsm, .primary)
  | [] => (fsm, .primary)

variable (s : Forwarding)

def append (call : Nat) (data : Bytes) (order : List Bytes) : Forwarding × Response :=
  let res := applyLog snapshotShard s.fsm data order
  ({ s with fsm := res.1, log := s.log ++ [{ data, response := res.2, call }] }, res.2)

def appendOpen (id : Nat) (order : List Bytes) : Forwarding :=
  match s.activities.lookup id with
  | some a =>
    match a.phase with
    | .applying none =>
      let res := s.append snapshotShard a.call a.data order
      res.1.setActivity id { a with phase := .applying (some res.2) }
    | _ => s
  | none => s

def appendOrphan (id : Nat) (order : List Bytes) : Forwarding :=
  match s.orphans.lookup id with
  | some o => ({ s with orphans := s.orphans.erase id }.append snapshotShard o.call o.data order).1
  | none => s

end

inductive Outcome
  | response
  | notLeader
  | error (msg : Bytes)

def responded (id : Nat) (a : Activity) (resp : Response) : Forwarding :=
  match a.origin, resp with
  | none, .kv r => s.returns id a.call r.write r.write.err
  | none, .primary => s.returns id a.call {} (some .unexpectedResponse)
  | some _, .kv r => s.setActivity id { a with phase := .answering r.write }
  | some _, .primary => s.setActivity id { a with phase := .answering {} }

def rejected (id : Nat) (a : Activity) : Forwarding :=
  match a.origin with
  | none =>
    if s.routed a.node then s.setActivity id { a with phase := .resolving 0 }
    else s.returns id a.call {} (some .notLeader)
  | some _ => s.setActivity id { a with phase := .answering { err := some .notLeader } }

def erred (id : Nat) (a : Activity) (msg : Bytes) : Forwarding :=
  match a.origin with
  | none => s.returns id a.call {} (some (.plain msg))
  | some _ => s.setActivity id { a with phase := .answering { err := some (.plain msg) } }

def abandon (a : Activity) : Forwarding :=
  { s with orphans := s.orphans.insert s.next { data := a.data, call := a.call }, next := s.next + 1 }

def applyReturns (id : Nat) (outcome : Outcome) : Forwarding :=
  match s.activities.lookup id with
  | some a =>
    match a.phase, outcome with
    | .applying (some resp), .response => s.responded id a resp
    | .applying none, .notLeader => s.rejected id a
    | .applying none, .error msg => (s.abandon a).erred id a msg
    | .applying (some _), .error msg => s.erred id a msg
    | _, _ => s
  | none => s

/-- The start of `applyForward`, with what the context and `IsLeader` say. -/
def applyForward (id : Nat) (stopped isLeader : Bool) : Forwarding :=
  match s.activities.lookup id with
  | some a =>
    match a.phase with
    | .serving =>
      if stopped then s.setActivity id { a with phase := .answering { err := some .kvClosed } }
      else if isLeader then s.setActivity id { a with phase := .applying none }
      else if a.hop ≥ maxForwardHops then s.setActivity id { a with phase := .answering { err := some .notLeader } }
      else s.setActivity id { a with phase := .resolving 0 }
    | _ => s
  | none => s

/-- `sendForward` up to its select: `sent` says whether the request is on its way, `fails` what `Send` returned. -/
def sendForward (id : Nat) (a : Activity) (attempt : Nat) (leader : Bytes) (sent : Bool)
    (fails : Option Bytes) : Forwarding :=
  let corr := s.corr a.node + 1
  let request : Request :=
    { source := a.node, dest := leader, corr, hop := a.forwardHop, data := a.data, call := a.call }
  let s : Forwarding := { s with
    corr := fun n => if n = a.node then corr else s.corr n
    owner := fun n c => if n = a.node ∧ c = corr then a.call else s.owner n c
    requests := if sent then s.requests.insert s.next request else s.requests
    next := s.next + 1 }
  match fails with
  | some msg => s.forwarded id a (.error (.plain msg))
  | none => s.setActivity id { a with phase := .waiting attempt corr none }

/-- One round of the loop of `forwardToLeaderHop`, up to the wait for the reply. -/
def resolve (id : Nat) (leader : Option Bytes) (sent : Bool) (fails : Option Bytes) : Forwarding :=
  match s.activities.lookup id with
  | some a =>
    match a.phase with
    | .resolving attempt =>
      if attempt ≥ maxForwardRetries then s.forwarded id a (.error .noForwardLeader)
      else
        match leader with
        | none => s.setActivity id { a with phase := .resolving (attempt + 1) }
        | some leader => s.sendForward id a attempt leader sent fails
    | _ => s
  | none => s

/-- `sendForward` has a result, and the loop goes on or ends. -/
def received (id : Nat) (a : Activity) (attempt : Nat) (res : WriteResult) : Forwarding :=
  if res.err = some .forwardNotLeader then s.setActivity id { a with phase := .resolving (attempt + 1) }
  else s.forwarded id a (.ok res)

/-- The select of `sendForward`: a result is in the channel, the wait is over, or the engine stops. -/
def select (id : Nat) (timedOut stopped : Bool) : Forwarding :=
  match s.activities.lookup id with
  | some a =>
    match a.phase with
    | .waiting attempt _ ch =>
      if stopped then s.forwarded id a (.error .engineStopped)
      else
        match ch with
        | some res => s.received id a attempt res
        | none => if timedOut then s.forwarded id a (.error .forwardTimeout) else s
    | _ => s
  | none => s

inductive Admission
  | stopped
  | overloaded
  | admitted

def replyForward (node : Bytes) (corr : Nat) (res : WriteResult) (sent : Bool) (call : Nat) : Forwarding :=
  if sent then
    { s with
      replies := s.replies.insert s.next { dest := node, corr, out := encodeForwardWriteResponse corr res, call }
      next := s.next + 1 }
  else s

def handleForwardReq (i : Nat) (admission : Admission) (sent : Bool) : Forwarding :=
  match s.requests.lookup i with
  | some r =>
    let s : Forwarding := { s with requests := s.requests.erase i }
    match admission with
    | .stopped => s.replyForward r.source r.corr { err := some .kvClosed } sent r.call
    | .overloaded => s.replyForward r.source r.corr { err := some .forwardOverloaded } sent r.call
    | .admitted =>
      let a : Activity :=
        { node := r.dest, origin := some (r.source, r.corr), hop := r.hop, data := r.data, phase := .serving
          call := r.call }
      { s with activities := s.activities.insert s.next a, next := s.next + 1 }
  | none => s

/-- The end of `serveForward`: the reply is sent unless the engine stops. -/
def answer (id : Nat) (stopped sent : Bool) : Forwarding :=
  match s.activities.lookup id with
  | some a =>
    match a.phase, a.origin with
    | .answering res, some (node, corr) =>
      let s : Forwarding := { s with activities := s.activities.erase id }
      if stopped then s else s.replyForward node corr res sent a.call
    | _, _ => s
  | none => s

/-- `handleForwardResp` with the activity whose channel is pending under the number of the reply. -/
def handleForwardResp (r : Reply) (id : Nat) : Forwarding :=
  match s.activities.lookup id with
  | some a =>
    match a.phase with
    | .waiting attempt corr none =>
      if a.node = r.dest ∧ corr = r.corr then
        s.setActivity id { a with phase := .waiting attempt corr (some (decodeForwardWriteResponse r.out)) }
      else s
    | _ => s
  | none => s

inductive Event
  | proposeRaw (node cmd : Bytes)
  | appendOpen (id : Nat) (order : List Bytes)
  | appendOrphan (id : Nat) (order : List Bytes)
  | applyReturns (id : Nat) (outcome : Outcome)
  | applyForward (id : Nat) (stopped isLeader : Bool)
  | resolve (id : Nat) (leader : Option Bytes) (sent : Bool) (fails : Option Bytes)
  | select (id : Nat) (timedOut stopped : Bool)
  | request (i : Nat) (admission : Admission) (sent : Bool)
  | answer (id : Nat) (stopped sent : Bool)
  | reply (i id : Nat)
  | garbage (r : Reply) (id : Nat)
  | loseRequest (i : Nat)
  | loseReply (i : Nat)

variable (snapshotShard : Bytes → Fin snapshotShards)

def handle (s : Forwarding) : Event → Forwarding
  | .proposeRaw node cmd => s.proposeRaw node cmd
  | .appendOpen id order => s.appendOpen snapshotShard id order
  | .appendOrphan id order => s.appendOrphan snapshotShard id order
  | .applyReturns id outcome => s.applyReturns id outcome
  | .applyForward id stopped isLeader => s.applyForward id stopped isLeader
  | .resolve id leader sent fails => s.resolve id leader sent fails
  | .select id timedOut stopped => s.select id timedOut stopped
  | .request i admission sent => s.handleForwardReq i admission sent
  | .answer id stopped sent => s.answer id stopped sent
  | .reply i id =>
    match s.replies.lookup i with
    | some r => { s with replies := s.replies.erase i }.handleForwardResp r id
    | none => s
  | .garbage r id => if malformed r.out then s.handleForwardResp r id else s
  | .loseRequest i => { s with requests := s.requests.erase i }
  | .loseReply i => { s with replies := s.replies.erase i }

def start (routed : Bytes → Bool) : Forwarding := { fsm := RaftFSM.newRaftFSM snapshotShard, routed }

def run (s : Forwarding) (es : List Event) : Forwarding := es.foldl (handle snapshotShard) s

end Forwarding
end Wippy.Kv.Raft
