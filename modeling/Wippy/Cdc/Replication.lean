import Wippy.Cdc.Decoder

/-! The replication loop of a source with a persistent slot, `service/cdc/postgres/replication.go`.

    An iteration is a status update that is due or a message received, with what the checkpointer and the connection
    answer. -/

namespace Wippy.Cdc
open Lib

/-- The variables of `run`, and the receive watermark that snapshots wait for. -/
structure Run where
  dec : Decoder
  safePos : LSN
  lastSaved : LSN
  streamPosition : LSN

/-- A source with what outlives its runs: the saved and the acknowledged position, and the changes handed to
    `publishChange`. -/
structure Source where
  checkpoint : Option LSN := none
  confirmed : LSN
  published : List RowChange := []
  run : Option Run := none

/-- How the calls of a status update end. The server may have an update whose sending failed. -/
structure Reply where
  saved : Bool
  received : Bool
  sent : Bool
  flushed : Bool

namespace Source
variable (s : Source)

/-- `Save` of both checkpointers, which only moves forward. -/
def save (lsn : LSN) : Source :=
  if s.checkpoint.all (· < lsn) then { s with checkpoint := some lsn } else s

/-- Where `prepareSlot` resumes a slot that exists. -/
def resumeAt : LSN := s.checkpoint.getD s.confirmed

def start (limits : DecoderLimits) (streaming : Bool) (s : Source) : Source :=
  { s with run := some {
      dec := { limits, streaming }, safePos := s.resumeAt, lastSaved := s.resumeAt, streamPosition := s.resumeAt } }

/-- The end of `run` with its deferred save; a crash is an end whose save fails. -/
def finish (r : Run) (flushed : Bool) : Source :=
  if r.safePos ≤ r.lastSaved || !flushed then { s with run := none } else { s.save r.safePos with run := none }

def saveSafe (r : Run) (saved : Bool) : Option (Source × Run) :=
  if r.safePos ≤ r.lastSaved then some (s, r)
  else if saved then some (s.save r.safePos, { r with lastSaved := r.safePos })
  else none

/-- `saveSafe` and `SendStandbyStatusUpdate`. -/
def sendStatus (r : Run) (reply : Reply) : Source :=
  match s.saveSafe r reply.saved with
  | none => s.finish r reply.flushed
  | some (s, r) =>
    let s := if reply.received then { s with confirmed := r.safePos } else s
    if reply.sent then { s with run := some r } else s.finish r reply.flushed

def advanceStreamPosition (r : Run) (position : LSN) : Run :=
  if position ≤ r.streamPosition then r else { r with streamPosition := position }

def keepalive (r : Run) (serverWALEnd : LSN) (reply : Option Reply) : Source :=
  match reply with
  | none => { s with run := some (advanceStreamPosition r serverWALEnd) }
  | some reply => s.sendStatus (advanceStreamPosition r serverWALEnd) reply

def xlogData (r : Run) (walStart : LSN) (msg : Message) (flushed : Bool) : Source :=
  match r.dec.applyResult walStart msg with
  | .error _ => s.finish r flushed
  | .ok (result, dec) =>
    { s with
      published := s.published ++ result.changes
      run := some (advanceStreamPosition
        { r with dec, safePos := if result.safe && result.position > r.safePos then result.position else r.safePos }
        walStart) }

end Source
end Wippy.Cdc
