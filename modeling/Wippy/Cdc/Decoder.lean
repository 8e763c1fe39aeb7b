import Wippy.Pid

/-! The decoder of logical replication messages, `service/cdc/postgres/decoder.go`.

    Messages are taken as parsed. A row message has a transaction ID only in the second protocol version; positions are
    kept as numbers, which the source prints. -/

namespace Wippy.Cdc
open Lib

abbrev XID := UInt32

abbrev LSN := UInt64

structure Relation where
  id : UInt32
  ns : Bytes
  name : Bytes
  columns : List Bytes

inductive DataType
  | null
  | toast
  | value
  deriving DecidableEq

structure Column where
  dataType : DataType
  data : Bytes

abbrev TupleData := List Column

inductive Op
  | insert
  | update
  | delete
  | truncate
  deriving DecidableEq

structure RowChange where
  before : Option (Map Bytes (Option Bytes)) := none
  after : Option (Map Bytes (Option Bytes)) := none
  op : Op
  schema : Bytes
  table : Bytes
  lsn : LSN
  commitLSN : Option LSN
  unchanged : List Bytes := []
  xid : XID

structure BufferedChange where
  rc : RowChange
  subxid : XID
  bytes : Nat

variable (rel : Relation)

def tupleToMap (t : TupleData) : Map Bytes (Option Bytes) :=
  (t.zip rel.columns).foldl (fun out x =>
    match x.1.dataType with
    | .null => out.insert x.2 none
    | .toast => out
    | .value => out.insert x.2 (some x.1.data)) ∅

def unchangedColumns (t : TupleData) : List Bytes :=
  ((t.zip rel.columns).filter fun x => x.1.dataType = .toast).map Prod.snd

def estimateRelationChangeBytes : Nat := 256 + (rel.ns.length + rel.name.length)

def estimateTupleBytes (t : TupleData) : Nat :=
  t.zipIdx.foldl (fun bytes x =>
    bytes + (64 + x.1.data.length) + (if x.1.dataType = .value then x.1.data.length else 0) +
      ((rel.columns[x.2]?).elim 0 List.length)) 64

def estimateChangeBytes (oldT newT : Option TupleData) : Nat :=
  estimateRelationChangeBytes rel + oldT.elim 0 (estimateTupleBytes rel) + newT.elim 0 (estimateTupleBytes rel)

inductive Body
  | row (op : Op) (relID : UInt32) (oldT newT : Option TupleData)
  | truncate (relIDs : List UInt32)

inductive Message
  | relation (rel : Relation)
  /-- Origins, types and logical decoding messages. -/
  | metadata
  | begin (finalLSN : LSN) (xid : XID)
  | commit (commitLSN endLSN : LSN)
  | change (xid : Option XID) (body : Body)
  | streamStart (xid : XID)
  | streamStop
  | streamCommit (xid : XID) (commitLSN endLSN : LSN)
  | streamAbort (xid subXid : XID)
  | unsupported

inductive DecodeError
  | nestedBegin
  | commitWithoutBegin
  | rowWithoutBegin
  | streamStartInV1
  | nestedStreamStart
  | streamStopWithoutStart
  | streamCommitBeforeStop
  | streamCommitUnknown (xid : XID)
  | streamAbortBeforeStop
  | streamAbortUnknown (xid : XID)
  | rowWithoutStreamStart
  | unknownRelation
  | transactionLimit
  | unsupportedMessage
  deriving DecidableEq, Repr

structure DecodeResult where
  changes : List RowChange := []
  position : LSN := 0
  safe : Bool := false

structure DecoderLimits where
  maxChanges : Int
  maxBytes : Int
  maxInflightChanges : Int
  maxInflightBytes : Int

structure Decoder where
  rels : Map UInt32 Relation := ∅
  buffer : Map XID (List BufferedChange) := ∅
  usage : Map XID Int := ∅
  limits : DecoderLimits
  commitLSN : LSN := 0
  inflightChanges : Int := 0
  inflightBytes : Int := 0
  xid : XID := 0
  curTopXid : XID := 0
  streaming : Bool
  inStream : Bool := false
  txActive : Bool := false

def changesOf (rels : Map UInt32 Relation) (subxid xid : XID) (commitLSN : Option LSN) (walStart : LSN) :
    Body → Option (List BufferedChange)
  | .row op relID oldT newT => (rels.lookup relID).map fun rel =>
    [{ subxid, bytes := estimateChangeBytes rel oldT newT
       rc := {
        op, schema := rel.ns, table := rel.name, lsn := walStart, commitLSN, xid
        before := oldT.map (tupleToMap rel), after := newT.map (tupleToMap rel)
        unchanged := newT.elim [] (unchangedColumns rel) } }]
  | .truncate relIDs => relIDs.mapM fun relID => (rels.lookup relID).map fun rel =>
    { subxid, bytes := estimateRelationChangeBytes rel
      rc := { op := .truncate, schema := rel.ns, table := rel.name, lsn := walStart, commitLSN, xid } }

def bytesOf : List BufferedChange → Nat
  | [] => 0
  | bc :: rows => bc.bytes + bytesOf rows

namespace Decoder
variable (d : Decoder)

def inTransaction : Bool := d.txActive || d.inStream || d.buffer.keys ≠ []

def rowsAt (key : XID) : List BufferedChange := (d.buffer.lookup key).getD []

def usageAt (key : XID) : Int := (d.usage.lookup key).getD 0

def reserve (key : XID) (changes bytes : Nat) : Except DecodeError Decoder :=
  if changes > d.limits.maxChanges - (d.rowsAt key).length || bytes > d.limits.maxBytes - d.usageAt key ||
      changes > d.limits.maxInflightChanges - d.inflightChanges || bytes > d.limits.maxInflightBytes -
        d.inflightBytes then
    .error .transactionLimit
  else
    .ok { d with
      usage := d.usage.insert key (d.usageAt key + bytes)
      inflightChanges := d.inflightChanges + changes
      inflightBytes := d.inflightBytes + bytes }

/-- The part that `one`, `truncateResult`, `bufferOne` and `bufferTruncate` share. The relations are looked up before
    the size is reserved, so that a reservation is never given back. -/
def bufferChanges (key : XID) : Option (List BufferedChange) → Except DecodeError Decoder
  | none => .error .unknownRelation
  | some changes =>
    (d.reserve key changes.length (bytesOf changes)).map fun d =>
      { d with buffer := if changes.isEmpty then d.buffer else d.buffer.insert key (d.rowsAt key ++ changes) }

/-- `one` and `truncateResult`. -/
def one (body : Body) (walStart : LSN) : Except DecodeError Decoder :=
  if !d.txActive then .error .rowWithoutBegin
  else d.bufferChanges 0 (changesOf d.rels d.xid d.xid (some d.commitLSN) walStart body)

/-- `bufferOne` and `bufferTruncate`. -/
def bufferOne (subxid : XID) (body : Body) (walStart : LSN) : Except DecodeError Decoder :=
  if !d.inStream then .error .rowWithoutStreamStart
  else d.bufferChanges d.curTopXid (changesOf d.rels subxid d.curTopXid none walStart body)

def releaseBuffer (key : XID) : Decoder :=
  match d.buffer.lookup key with
  | none => d
  | some buffered =>
    { d with
      inflightChanges := d.inflightChanges - buffered.length
      inflightBytes := d.inflightBytes - d.usageAt key
      buffer := d.buffer.erase key
      usage := d.usage.erase key }

def stamp (commitLSN : LSN) (buffered : List BufferedChange) : List RowChange :=
  buffered.map fun bc => { bc.rc with commitLSN := some commitLSN }

def flushTransaction (commitLSN : LSN) : List RowChange × Decoder :=
  (stamp (if commitLSN = 0 then d.commitLSN else commitLSN) (d.rowsAt 0),
    { d.releaseBuffer 0 with commitLSN := 0, xid := 0, txActive := false })

def flushStream (topXid : XID) (commitLSN : LSN) : List RowChange × Decoder :=
  (stamp commitLSN (d.rowsAt topXid), { d.releaseBuffer topXid with inStream := false, curTopXid := 0 })

/-- The transaction is cut at the first change of the aborted subtransaction. -/
def abortStream (topXid subXid : XID) : Decoder :=
  let d := { d with inStream := false, curTopXid := 0 }
  if topXid = subXid then d.releaseBuffer topXid
  else if (d.rowsAt topXid).all fun bc => bc.subxid ≠ subXid then d
  else
    let src := (d.rowsAt topXid).takeWhile fun bc => bc.subxid ≠ subXid
    let inflightChanges := d.inflightChanges - (d.rowsAt topXid).length
    let inflightBytes := d.inflightBytes - d.usageAt topXid
    if src = [] then
      { d with inflightChanges, inflightBytes, buffer := d.buffer.erase topXid, usage := d.usage.erase topXid }
    else
      { d with
        inflightChanges := inflightChanges + src.length
        inflightBytes := inflightBytes + bytesOf src
        buffer := d.buffer.insert topXid src
        usage := d.usage.insert topXid (bytesOf src) }

def isEmpty : Bool := d.buffer.keys = []

def applyResult (walStart : LSN) : Message → Except DecodeError (DecodeResult × Decoder)
  | .relation rel => .ok ({ safe := !d.inTransaction }, { d with rels := d.rels.insert rel.id rel })
  | .metadata => .ok ({ safe := !d.inTransaction }, d)
  | .begin finalLSN xid =>
    if d.txActive || d.inStream then .error .nestedBegin
    else .ok ({}, { d with commitLSN := finalLSN, xid, txActive := true, buffer := d.buffer.insert 0 [] })
  | .commit commitLSN endLSN =>
    if !d.txActive then .error .commitWithoutBegin
    else
      let (changes, d) := d.flushTransaction commitLSN
      .ok ({ changes, position := endLSN, safe := d.isEmpty }, d)
  | .change xid body =>
    match xid, d.inStream with
    | some xid, true => (d.bufferOne xid body walStart).map fun d => ({}, d)
    | _, _ => (d.one body walStart).map fun d => ({}, d)
  | .streamStart xid =>
    if !d.streaming then .error .streamStartInV1
    else if d.inStream || d.txActive then .error .nestedStreamStart
    else
      .ok ({}, { d with
        inStream := true, curTopXid := xid
        buffer := if (d.buffer.lookup xid).isSome then d.buffer else d.buffer.insert xid [] })
  | .streamStop => if !d.inStream then .error .streamStopWithoutStart else .ok ({}, { d with inStream := false })
  | .streamCommit xid commitLSN endLSN =>
    if d.inStream then .error .streamCommitBeforeStop
    else if (d.buffer.lookup xid).isNone then .error (.streamCommitUnknown xid)
    else
      let (changes, d) := d.flushStream xid commitLSN
      .ok ({ changes, position := endLSN, safe := d.isEmpty }, d)
  | .streamAbort xid subXid =>
    if d.inStream then .error .streamAbortBeforeStop
    else if (d.buffer.lookup xid).isNone then .error (.streamAbortUnknown xid)
    else .ok ({ safe := (d.abortStream xid subXid).isEmpty }, d.abortStream xid subXid)
  | .unsupported => .error .unsupportedMessage

def decodeAll (d : Decoder) : List (LSN × Message) → Except DecodeError (List DecodeResult × Decoder)
  | [] => .ok ([], d)
  | (walStart, msg) :: msgs =>
    match d.applyResult walStart msg with
    | .error e => .error e
    | .ok (result, d) => (decodeAll d msgs).map fun x => (result :: x.1, x.2)

end Decoder
end Wippy.Cdc
