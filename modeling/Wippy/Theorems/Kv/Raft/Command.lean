import Wippy.Kv.Raft.Command

/-! Commands and transactions come back from their encodings. -/

namespace Wippy.Kv.Raft
open Lib.Wire List

/-- A code with a name is not written as `other`, and the lengths of the fields have 32 bits. -/
structure Command.Fits (c : Command) : Prop where
  op : Opcode.ofByte c.op.byte = c.op
  key : c.key.length < 256 ^ 4
  value : c.value.length < 256 ^ 4
  leaseID : c.leaseID.length < 256 ^ 4

/-- An operation that survives its encoding. -/
structure TxnOp.Fits (op : TxnOp) : Prop where
  kind : TxnOpKind.ofByte op.kind.byte = op.kind
  cond : TxnCond.ofByte op.cond.byte = op.cond
  key : op.key.length < 256 ^ 4
  value : op.value.length < 256 ^ 4

variable {data bs rest : Bytes} {off : Nat} {op : TxnOp}

/-- The bytes `bs` stand at `off`, with `rest` behind them. -/
theorem drop_add_of (h : data.drop off = bs ++ rest) :
    data.drop (off + bs.length) = rest ∧ off + bs.length + rest.length ≤ max off data.length := by
  have hlen := congrArg length h
  rw [length_drop, length_append] at hlen
  exact ⟨by rw [← drop_drop, h, drop_left], by omega⟩

theorem readUint64_of {v : UInt64} (h : data.drop off = be 8 v.toNat ++ rest) :
    readUint64 data off = v ∧ off + 8 ≤ data.length ∧ data.drop (off + 8) = rest := by
  have hrest := drop_add_of h
  rw [length_be] at hrest
  have hv : v.toNat % 256 ^ 8 = v.toNat := Nat.mod_eq_of_lt v.toNat_lt
  refine ⟨?_, by omega, hrest.1⟩
  rw [readUint64, h, take_left' (length_be 8 _), ofBE_be, hv, UInt64.ofNat_toNat]

theorem readBytes_of {b : Bytes} (hb : b.length < 256 ^ 4) (h : data.drop off = appendBytes [] b ++ rest) :
    readBytes data off = .ok (b, off + 4 + b.length) ∧ data.drop (off + 4 + b.length) = rest := by
  rw [appendBytes, nil_append, append_assoc] at h
  have hpayload := drop_add_of h
  rw [length_be] at hpayload
  have hrest := drop_add_of hpayload.1
  have hn : ofBE ((data.drop off).take 4) = b.length := by
    rw [h, take_left' (length_be 4 _), ofBE_be, Nat.mod_eq_of_lt hb]
  refine ⟨?_, hrest.1⟩
  simp only [length_append] at hpayload
  unfold readBytes
  rw [if_neg (by omega)]
  simp only [hn]
  rw [if_neg (by omega), hpayload.1, take_left]

theorem encodeTxnOp_eq (buf : Bytes) (op : TxnOp) : encodeTxnOp buf op = buf ++ ([op.kind.byte, op.cond.byte] ++
    (appendBytes [] op.key ++ (appendBytes [] op.value ++ be 8 op.expect.toNat))) := by
  simp [encodeTxnOp, appendBytes]

theorem decodeTxnOp_of (hop : op.Fits) (h : data.drop off = encodeTxnOp [] op ++ rest) :
    ∃ off', decodeTxnOp data off = .ok (op, off') ∧ data.drop off' = rest := by
  simp only [encodeTxnOp_eq, nil_append, append_assoc] at h
  have hcodes : data.drop (off + 2) = _ ∧ _ := drop_add_of h
  obtain ⟨hkey, h₁⟩ := readBytes_of hop.key hcodes.1
  obtain ⟨hvalue, h₂⟩ := readBytes_of hop.value h₁
  obtain ⟨hexpect, hend, hrest⟩ := readUint64_of h₂
  have hbyte : ∀ i, data.getD (off + i) 0 = (data.drop off).getD i 0 := by simp
  have hkind : data.getD off 0 = op.kind.byte := (hbyte 0).trans (by rw [h]; rfl)
  have hcond : data.getD (off + 1) 0 = op.cond.byte := (hbyte 1).trans (by rw [h]; rfl)
  refine ⟨_, ?_, hrest⟩
  unfold decodeTxnOp
  rw [if_neg (by omega), hkind, hcond, hop.kind, hop.cond]
  simp only [bind, Except.bind, hkey, hvalue, hexpect]
  rw [if_neg (by omega)]
  rfl

theorem foldl_encodeTxnOp (ops : List TxnOp) (buf : Bytes) :
    ops.foldl encodeTxnOp buf = buf ++ ops.flatMap (encodeTxnOp []) := by
  induction ops generalizing buf with
  | nil => exact (append_nil buf).symm
  | cons op ops ih => rw [foldl_cons, ih, encodeTxnOp_eq, flatMap_cons, encodeTxnOp_eq [], nil_append, append_assoc]

theorem decodeTxnOps_of {ops : List TxnOp} (hops : ∀ op ∈ ops, op.Fits)
    (h : data.drop off = ops.flatMap (encodeTxnOp []) ++ rest) : decodeTxnOps data ops.length off = .ok ops := by
  induction ops generalizing off with
  | nil => rfl
  | cons op ops ih =>
    rw [flatMap_cons, append_assoc] at h
    obtain ⟨hop, hops⟩ := forall_mem_cons.mp hops
    obtain ⟨off', hdec, hrest⟩ := decodeTxnOp_of hop h
    rw [length_cons, decodeTxnOps, hdec]
    show decodeTxnOps data ops.length off' >>= _ = _
    rw [ih hops hrest]
    rfl

theorem decodeTxn_encodeTxn {ops : List TxnOp} (hcount : ops.length < 256 ^ 4) (hops : ∀ op ∈ ops, op.Fits)
    (rest : Bytes) :
    decodeTxn (encodeTxn ops ++ rest) = .ok ops := by
  rw [encodeTxn, foldl_encodeTxnOp, append_assoc, append_assoc]
  generalize hdata : [Opcode.opTxn.byte] ++ (be 4 ops.length ++ (ops.flatMap (encodeTxnOp []) ++ rest)) = data
  have hhead : data.drop 1 = be 4 ops.length ++ (ops.flatMap (encodeTxnOp []) ++ rest) := hdata ▸ rfl
  have hn : ofBE ((data.drop 1).take 4) = ops.length := by
    rw [hhead, take_left' (length_be 4 _), ofBE_be, Nat.mod_eq_of_lt hcount]
  have hbody := (drop_add_of hhead).1
  rw [length_be] at hbody
  unfold decodeTxn
  rw [if_neg, hn]
  · exact decodeTxnOps_of hops hbody
  · rw [← hdata]
    simp [length_be, Opcode.byte, Opcode.ofByte]

/-- The bytes of a command. -/
def Command.body (c : Command) : Bytes := [c.op.byte] ++ (appendBytes [] c.key ++ (appendBytes [] c.value ++
  (be 8 c.expect.toNat ++ (appendBytes [] c.leaseID ++ be 8 c.ttlMs.toUInt64.toNat))))

theorem decodeCommand_body {c : Command} (hc : c.Fits) (tail : Bytes) : decodeCommand (c.body ++ tail) =
    .ok { c with expiresAtMs := if 8 ≤ tail.length then (readUint64 tail 0).toInt64 else 0 } := by
  have h : (c.body ++ tail).drop 1 = appendBytes [] c.key ++ (appendBytes [] c.value ++ (be 8 c.expect.toNat ++
      (appendBytes [] c.leaseID ++ (be 8 c.ttlMs.toUInt64.toNat ++ tail)))) := by simp [Command.body]
  obtain ⟨data, hdata⟩ : ∃ data, c.body ++ tail = c.op.byte :: data := ⟨_, rfl⟩
  rw [hdata] at h ⊢
  obtain ⟨hkey, h₁⟩ := readBytes_of hc.key h
  obtain ⟨hvalue, h₂⟩ := readBytes_of hc.value h₁
  obtain ⟨hexpect, hend, h₃⟩ := readUint64_of h₂
  obtain ⟨hlease, h₄⟩ := readBytes_of hc.leaseID h₃
  obtain ⟨httl, hend', h₅⟩ := readUint64_of h₄
  have hlen := congrArg length h₅
  rw [length_drop] at hlen
  unfold decodeCommand
  simp only [bind, Except.bind, hkey, hvalue, hexpect]
  rw [if_neg (by omega)]
  simp only [hlease, httl, hc.op, Int64.toInt64_toUInt64]
  rw [if_neg (by omega)]
  simp only [readUint64, h₅, drop_zero, pure, Except.pure]
  congr 2
  exact if_congr (by omega) rfl rfl

/-- Of a command that is cut within its last field, the deadline, only the deadline is lost. -/
theorem decoders_reverse_encoders {c : Command} {ops : List TxnOp} (hc : c.Fits) (hcount : ops.length < 256 ^ 4)
    (hops : ∀ op ∈ ops, op.Fits) (rest : Bytes) :
    decodeCommand (encodeCommand c ++ rest) = .ok c ∧
      (∀ n < 8, decodeCommand ((encodeCommand c).take ((encodeCommand c).length - 8 + n)) =
        .ok { c with expiresAtMs := 0 }) ∧
      decodeTxn (encodeTxn ops ++ rest) = .ok ops := by
  have henc : encodeCommand c = c.body ++ be 8 c.expiresAtMs.toUInt64.toNat := by
    simp [encodeCommand, Command.body, appendBytes]
  refine ⟨?_, fun n hn => ?_, decodeTxn_encodeTxn hcount hops rest⟩
  · have hread := (readUint64_of (drop_zero : (be 8 c.expiresAtMs.toUInt64.toNat ++ rest).drop 0 = _)).1
    rw [henc, append_assoc, decodeCommand_body hc, if_pos (by simp), hread, Int64.toInt64_toUInt64]
  · rw [henc, length_append, length_be, Nat.add_sub_cancel, take_length_add_append, decodeCommand_body hc,
      if_neg (by simp; omega)]

theorem put_decoded : decodeTxn (encodeTxn [{ key := [107], value := [1], kind := .txnPut, cond := .condAny }] ++ [0]) =
    .ok [{ key := [107], value := [1], kind := .txnPut, cond := .condAny }] :=
  (decoders_reverse_encoders (c := { op := .opSet }) ⟨rfl, by decide, by decide, by decide⟩ (by decide)
    (by simpa using ⟨rfl, rfl, by decide, by decide⟩) [0]).2.2

end Wippy.Kv.Raft
