import Wippy.Crdt.State

/-! The frame packing loop that `BroadcastQueue.Drain` has in `system/crdt/delta.go` and again in
    `system/topology/namereg/eventual/delta.go`, with the first bytes of a frame, the encoder and the origin it gets as
    parameters.

    A frame holds encoded entries up to a cap that shrinks as the byte budget is used. -/

namespace Wippy.Gossip

def maxFrameBytes : Int := 1400

structure Packing where
  frames : List Bytes := []
  frame : Bytes
  bytesEmitted : Int := 0
  commitIdx : List Nat := []
  pendingIdx : List Nat := []
  skipIdx : List Nat := []

structure Limits where
  head : Bytes
  headerOverhead : Int
  byteBudget : Int
  perFrameLimit : Int

def activeFrameCap (lim : Limits) (p : Packing) : Int :=
  let remaining := lim.byteBudget - p.bytesEmitted - lim.headerOverhead
  if remaining ≤ 0 then 0
  else if remaining > lim.perFrameLimit then lim.perFrameLimit
  else remaining

def flushFrame (lim : Limits) (p : Packing) : Packing × Bool :=
  if p.frame.length ≤ lim.head.length then (p, true)
  else
    let cost := p.frame.length + lim.headerOverhead
    if p.bytesEmitted + cost > lim.byteBudget then (p, false)
    else
      ({ p with
          frames := p.frames ++ [p.frame]
          bytesEmitted := p.bytesEmitted + cost
          commitIdx := p.commitIdx ++ p.pendingIdx
          pendingIdx := []
          frame := lim.head }, true)

def Packing.skip (p : Packing) (i : Nat) : Packing := { p with skipIdx := p.skipIdx ++ [i] }

def Packing.add (p : Packing) (i : Nat) (buf : Bytes) : Packing :=
  { p with frame := p.frame ++ buf, pendingIdx := p.pendingIdx ++ [i] }

/-- The loop over the pending entries from index `i` on. It ends early, as by `break`, where it returns `p`. -/
def pack {α : Type} (lim : Limits) (encode : α → Option Bytes) : Nat → List α → Packing → Packing
  | _, [], p => p
  | i, e :: rest, p =>
    let cap := activeFrameCap lim p
    if cap ≤ 0 then p
    else
      match encode e with
      | none => pack lim encode (i + 1) rest (p.skip i)
      | some buf =>
        if (buf.length : Int) > lim.perFrameLimit then pack lim encode (i + 1) rest (p.skip i)
        else if (p.frame.length : Int) + buf.length > cap then
          let (p, flushed) := flushFrame lim p
          if !flushed then p
          else
            let cap := activeFrameCap lim p
            if cap ≤ 0 ∨ (buf.length : Int) > cap then p
            else pack lim encode (i + 1) rest (p.add i buf)
        else pack lim encode (i + 1) rest (p.add i buf)

/-- The limits of one call of `Drain`: a default budget, and room for at least 64 bytes in a frame. -/
def limits (head : Bytes) (headerOverhead byteBudget : Int) : Limits :=
  let perFrameLimit := maxFrameBytes - headerOverhead
  { head
    headerOverhead
    byteBudget := if byteBudget ≤ 0 then maxFrameBytes else byteBudget
    perFrameLimit := if perFrameLimit < 64 then 64 else perFrameLimit }

def drain {α : Type} (head : Bytes) (encode : α → Option Bytes) (pending : List α) (headerOverhead byteBudget : Int) :
    List Bytes × List α :=
  if pending = [] then ([], pending)
  else
    let lim := limits head headerOverhead byteBudget
    let (p, _) := flushFrame lim (pack lim encode 0 pending { frame := head })
    let remove := p.commitIdx ++ p.skipIdx
    (p.frames, (pending.zipIdx.filter fun x => !remove.contains x.2).map (·.1))

/-! ### Unpacking

`DecodeFrame` is the same loop in both packages, over their decoders of one delta. -/

/-- The loop of `DecodeFrame` over a decoder of a delta and the number of bytes it read. A delta takes a byte at least,
    so the length of the data is enough fuel. -/
def unpackLoop {α : Type} (decode : Bytes → Except String (α × Nat)) : Nat → Bytes → List α × Option String
  | 0, _ => ([], none)
  | fuel + 1, data =>
    if data = [] then ([], none)
    else
      match decode data with
      | .error err => ([], some err)
      | .ok (d, n) =>
        let (ds, err) := unpackLoop decode fuel (data.drop n)
        (d :: ds, err)

def unpack {α : Type} (decode : Bytes → Except String (α × Nat)) (data : Bytes) : List α × Option String :=
  unpackLoop decode data.length data

end Wippy.Gossip
