import Wippy.Kv.Raft.State
import Wippy.Lib.Wire

/-! The commands of the raft log and their encoding, `system/kv/raft_command.go`. Decoding walks the data by
    offsets, which its errors name. -/

namespace Wippy.Kv.Raft
open Lib.Wire

inductive Opcode
  | opSet
  | opDelete
  | opCAS
  | opSetIfAbsent
  | opSetWithLease
  | opSetIfAbsentWithLease
  | opLeaseGrant
  | opLeaseRenew
  | opLeaseRevoke
  | opCompareAndDelete
  | opTxn
  | other (code : UInt8)
  deriving DecidableEq, Repr

namespace Opcode

def byte : Opcode → UInt8
  | opSet => 1
  | opDelete => 2
  | opCAS => 3
  | opSetIfAbsent => 4
  | opSetWithLease => 5
  | opSetIfAbsentWithLease => 6
  | opLeaseGrant => 7
  | opLeaseRenew => 8
  | opLeaseRevoke => 9
  | opCompareAndDelete => 10
  | opTxn => 11
  | other code => code

def ofByte (b : UInt8) : Opcode :=
  if b = 1 then opSet
  else if b = 2 then opDelete
  else if b = 3 then opCAS
  else if b = 4 then opSetIfAbsent
  else if b = 5 then opSetWithLease
  else if b = 6 then opSetIfAbsentWithLease
  else if b = 7 then opLeaseGrant
  else if b = 8 then opLeaseRenew
  else if b = 9 then opLeaseRevoke
  else if b = 10 then opCompareAndDelete
  else if b = 11 then opTxn
  else other b

end Opcode

structure Command where
  op : Opcode
  key : Bytes := []
  leaseID : LeaseID := []
  value : Bytes := []
  expect : Version := 0
  ttlMs : Int64 := 0
  expiresAtMs : Int64 := 0
  deriving DecidableEq, Repr

inductive TxnOpKind
  | txnCheck
  | txnPut
  | txnDelete
  | other (code : UInt8)
  deriving DecidableEq, Repr

def TxnOpKind.byte : TxnOpKind → UInt8
  | txnCheck => 0
  | txnPut => 1
  | txnDelete => 2
  | other code => code

def TxnOpKind.ofByte (b : UInt8) : TxnOpKind :=
  if b = 0 then txnCheck else if b = 1 then txnPut else if b = 2 then txnDelete else other b

def TxnCond.byte : TxnCond → UInt8
  | condAny => 0
  | condAbsent => 1
  | condExists => 2
  | condVersion => 3
  | other code => code

def TxnCond.ofByte (b : UInt8) : TxnCond :=
  if b = 0 then condAny else if b = 1 then condAbsent else if b = 2 then condExists else if b = 3 then condVersion
  else other b

structure TxnOp where
  key : Bytes
  value : Bytes := []
  expect : Version := 0
  kind : TxnOpKind
  cond : TxnCond
  deriving DecidableEq, Repr

inductive DecodeError
  | empty
  | truncatedExpect
  | truncatedTTL
  | truncatedLength (off : Nat)
  | truncatedPayload (off want : Nat)
  | badHeader
  | truncatedOpHeader (off : Nat)
  | truncatedOpExpect (off : Nat)
  deriving DecidableEq, Repr

def DecodeError.message : DecodeError → String
  | empty => "kv command: empty"
  | truncatedExpect => "kv command: truncated expect"
  | truncatedTTL => "kv command: truncated ttl"
  | truncatedLength off => s!"kv command: truncated length at {off}"
  | truncatedPayload off want => s!"kv command: truncated payload at {off} (want {want})"
  | badHeader => "kv txn: bad header"
  | truncatedOpHeader off => s!"kv txn: truncated op header at {off}"
  | truncatedOpExpect off => s!"kv txn: truncated expect at {off}"

def appendBytes (buf b : Bytes) : Bytes := buf ++ be 4 b.length ++ b

variable (data : Bytes)

def readUint64 (off : Nat) : UInt64 := UInt64.ofNat (ofBE ((data.drop off).take 8))

def readBytes (off : Nat) : Except DecodeError (Bytes × Nat) :=
  if off + 4 > data.length then .error (.truncatedLength off)
  else
    let n := ofBE ((data.drop off).take 4)
    let off := off + 4
    if off + n > data.length then .error (.truncatedPayload off n)
    else .ok ((data.drop off).take n, off + n)

def encodeCommand (c : Command) : Bytes :=
  let buf := [c.op.byte]
  let buf := appendBytes buf c.key
  let buf := appendBytes buf c.value
  let buf := buf ++ be 8 c.expect.toNat
  let buf := appendBytes buf c.leaseID
  let buf := buf ++ be 8 c.ttlMs.toUInt64.toNat
  buf ++ be 8 c.expiresAtMs.toUInt64.toNat

def decodeCommand : Except DecodeError Command := do
  match data with
  | [] => throw .empty
  | op :: _ =>
    let (key, off) ← readBytes data 1
    let (value, off) ← readBytes data off
    if off + 8 > data.length then throw .truncatedExpect
    let expect := readUint64 data off
    let (leaseID, off) ← readBytes data (off + 8)
    if off + 8 > data.length then throw .truncatedTTL
    let ttlMs := (readUint64 data off).toInt64
    -- The data may end here, without a deadline.
    let expiresAtMs := if off + 8 + 8 ≤ data.length then (readUint64 data (off + 8)).toInt64 else 0
    return { op := Opcode.ofByte op, key, value, expect, leaseID, ttlMs, expiresAtMs }

def encodeTxnOp (buf : Bytes) (op : TxnOp) : Bytes :=
  let buf := buf ++ [op.kind.byte, op.cond.byte]
  let buf := appendBytes buf op.key
  let buf := appendBytes buf op.value
  buf ++ be 8 op.expect.toNat

def encodeTxn (ops : List TxnOp) : Bytes := ops.foldl encodeTxnOp ([Opcode.opTxn.byte] ++ be 4 ops.length)

def decodeTxnOp (off : Nat) : Except DecodeError (TxnOp × Nat) := do
  if off + 2 > data.length then throw (.truncatedOpHeader off)
  let kind := TxnOpKind.ofByte (data.getD off 0)
  let cond := TxnCond.ofByte (data.getD (off + 1) 0)
  let (key, off) ← readBytes data (off + 2)
  let (value, off) ← readBytes data off
  if off + 8 > data.length then throw (.truncatedOpExpect off)
  return ({ key, value, expect := readUint64 data off, kind, cond }, off + 8)

def decodeTxnOps (data : Bytes) : Nat → Nat → Except DecodeError (List TxnOp)
  | 0, _ => .ok []
  | n + 1, off => do
    let (op, off) ← decodeTxnOp data off
    let ops ← decodeTxnOps data n off
    return op :: ops

def decodeTxn : Except DecodeError (List TxnOp) :=
  if data.length < 5 ∨ Opcode.ofByte (data.getD 0 0) ≠ .opTxn then .error .badHeader
  else decodeTxnOps data (ofBE ((data.drop 1).take 4)) 5

end Wippy.Kv.Raft
