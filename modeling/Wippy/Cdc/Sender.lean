import Wippy.Cdc.Decoder
import Wippy.Lib.MapSum

/-! What a conforming sender of logical replication messages does.

    An ordinary transaction is sent whole, a streamed one in segments between which others are sent; each subtransaction
    that is rolled back has its abort message, before that of the transaction if all of it is. -/

namespace Wippy.Cdc
open Lib

inductive Current
  | idle
  | ordinary (xid : XID) (finalLSN : LSN)
  | segment (xid : XID)
  deriving DecidableEq

/-- The rows of the ordinary transaction stand under 0, which is no transaction's ID. -/
structure Sender where
  rels : Map UInt32 Relation := ∅
  current : Current := .idle
  rows : Map XID (List BufferedChange) := ∅
  streaming : Bool

inductive Step
  | relation (rel : Relation)
  | metadata
  | begin (finalLSN : LSN) (xid : XID)
  | commit (endLSN : LSN)
  /-- `xid` is the subtransaction, which only rows of a segment have. -/
  | change (xid : XID) (body : Body)
  | streamStart (xid : XID)
  | streamStop
  | streamCommit (xid : XID) (commitLSN endLSN : LSN)
  /-- The subtransactions `subs` of an open streamed transaction are rolled back. -/
  | rollback (xid : XID) (subs : List XID)
  /-- A streamed transaction is rolled back; `subs` are its subtransactions that were open or committed. -/
  | abort (xid : XID) (subs : List XID)

namespace Sender
variable (s : Sender)

def rowsAt (key : XID) : List BufferedChange := (s.rows.lookup key).getD []

def written (lsn : LSN) (tag : XID) (body : Body) : Option (XID × List BufferedChange) :=
  match s.current with
  | .idle => none
  | .ordinary xid finalLSN => (changesOf s.rels xid xid (some finalLSN) lsn body).map ((0, ·))
  | .segment xid => (changesOf s.rels tag xid none lsn body).map ((xid, ·))

def isOpen (xid : XID) : Bool := s.current = .idle && xid ≠ 0 && (s.rows.lookup xid).isSome

variable (x : LSN × Step)

/-- Whether the sender may take a step. The rows that a rollback takes back are the last ones of the transaction: while
    a subtransaction is open, only it and its own subtransactions write. -/
def conforms : Bool :=
  match x.2 with
  | .relation _ | .metadata => true
  | .begin _ _ => s.current = .idle
  | .commit _ => match s.current with | .ordinary _ _ => true | _ => false
  | .change xid body => (s.written x.1 xid body).isSome
  | .streamStart xid => s.streaming && s.current = .idle && xid ≠ 0
  | .streamStop => match s.current with | .segment _ => true | _ => false
  | .streamCommit xid _ _ => s.isOpen xid
  | .rollback xid subs => s.isOpen xid && xid ∉ subs &&
      ((s.rowsAt xid).dropWhile fun bc => bc.subxid ∉ subs).all fun bc => bc.subxid ∈ subs
  | .abort xid subs => s.isOpen xid && xid ∉ subs

def room (limits : DecoderLimits) (s : Sender) (w : XID × List BufferedChange) : Bool :=
  (s.rowsAt w.1).length + (w.2.length : Int) ≤ limits.maxChanges &&
  bytesOf (s.rowsAt w.1) + (bytesOf w.2 : Int) ≤ limits.maxBytes &&
  s.rows.sum (fun rows => (rows.length : Int)) + w.2.length ≤ limits.maxInflightChanges &&
  s.rows.sum (fun rows => (bytesOf rows : Int)) + bytesOf w.2 ≤ limits.maxInflightBytes

def fits (limits : DecoderLimits) (s : Sender) (x : LSN × Step) : Bool :=
  match x.2 with
  | .change xid body => (s.written x.1 xid body).all (s.room limits)
  | _ => true

/-- Whether the first row of the transaction outlives the rollback of subtransactions. -/
def clear : Bool :=
  match x.2 with
  | .rollback xid subs | .abort xid subs => (s.rowsAt xid).head?.all fun bc => bc.subxid ∉ subs
  | _ => true

def step : Sender :=
  match x.2 with
  | .relation rel => { s with rels := s.rels.insert rel.id rel }
  | .metadata => s
  | .begin finalLSN xid => { s with current := .ordinary xid finalLSN, rows := s.rows.insert 0 [] }
  | .commit _ => { s with current := .idle, rows := s.rows.erase 0 }
  | .change xid body =>
    match s.written x.1 xid body with
    | none => s
    | some (key, new) => { s with rows := s.rows.insert key (s.rowsAt key ++ new) }
  | .streamStart xid => { s with current := .segment xid, rows := s.rows.insert xid (s.rowsAt xid) }
  | .streamStop => { s with current := .idle }
  | .streamCommit xid _ _ => { s with rows := s.rows.erase xid }
  | .rollback xid subs => { s with rows := s.rows.insert xid ((s.rowsAt xid).filter fun bc => bc.subxid ∉ subs) }
  | .abort xid _ => { s with rows := s.rows.erase xid }

def finalLSN : LSN := match s.current with | .ordinary _ lsn => lsn | _ => 0

def messages : List Message :=
  match x.2 with
  | .relation rel => [.relation rel]
  | .metadata => [.metadata]
  | .begin finalLSN xid => [.begin finalLSN xid]
  | .commit endLSN => [.commit s.finalLSN endLSN]
  | .change xid body => [.change (if s.streaming then some xid else none) body]
  | .streamStart xid => [.streamStart xid]
  | .streamStop => [.streamStop]
  | .streamCommit xid commitLSN endLSN => [.streamCommit xid commitLSN endLSN]
  | .rollback xid subs => subs.map (.streamAbort xid)
  | .abort xid subs => subs.map (.streamAbort xid) ++ [.streamAbort xid xid]

def reports : List (List RowChange × LSN) :=
  match x.2 with
  | .commit endLSN => [(Decoder.stamp s.finalLSN (s.rowsAt 0), endLSN)]
  | .streamCommit xid commitLSN endLSN => [(Decoder.stamp commitLSN (s.rowsAt xid), endLSN)]
  | _ => (s.messages x).map fun _ => ([], 0)

def commits : List (List RowChange × LSN) :=
  match x.2 with
  | .commit _ | .streamCommit _ _ _ => s.reports x
  | _ => []

def sent : Sender → List (LSN × Step) → List (LSN × Message)
  | _, [] => []
  | s, x :: xs => (s.messages x).map (x.1, ·) ++ sent (s.step x) xs

def expected : Sender → List (LSN × Step) → List (List RowChange × LSN)
  | _, [] => []
  | s, x :: xs => s.reports x ++ expected (s.step x) xs

end Sender
end Wippy.Cdc
