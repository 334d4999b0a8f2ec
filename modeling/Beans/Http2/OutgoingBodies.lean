import Beans.Foundation.KeyedSlots
import Beans.Foundation.StepSystem

/-!
# Outgoing HTTP/2 bodies

A session keeps one slot for each outgoing body and finds it by its stream.  A
slot stays at its place, since nghttp2 keeps a pointer to it and pulls the body
through that pointer; the place in the list models the pointer.  A body is
staged first and moved into a slot by the submission that follows.

nghttp2 is a scheduler: it answers every submission, and it reads the body of an
accepted one any number of times until the end is reported or the stream closes.
An allocation may fail in every call that makes one.
-/

namespace Beans
namespace Http2

/-- The statuses of the calls below, beside `BEANS_NET_OK`. -/
inductive NetStatus
  | invalid
  | range
  | memory
  | protocol
  | busy
  deriving DecidableEq, Repr

/-- `beans_h2_pending`; the stream is -1 when the slot is free. -/
structure Pending where
  body : List UInt8
  offset : Nat
  stream : Int
  deriving DecidableEq, Repr

/-- The part of `beans_h2_session` that outgoing bodies live in. -/
structure Session where
  isServer : Bool
  pending : List Pending
  stagedBody : List UInt8
  deriving DecidableEq, Repr

/-- A request word read as a C `int32_t`. -/
def int32Of (word : UInt64) : Int := (word.toBitVec.setWidth 32).toInt

/-- A request word read as a C `int64_t`. -/
def int64Of (word : UInt64) : Int := word.toBitVec.toInt

/-- The place of the slot that holds the stream's body. -/
def pendingFind (s : Session) (stream : Int) : Option Nat :=
  KeyedSlots.find Pending.stream s.pending stream

/-- Reuses the stream's slot or a free one, or grows the table. -/
def pendingClaim (s : Session) (stream : Int) (memory : Bool) :
    Option (Nat × Session) :=
  match pendingFind s stream with
  | some p => some (p, { s with pending := s.pending.set p ⟨[], 0, stream⟩ })
  | none =>
    match pendingFind s (-1) with
    | some p => some (p, { s with pending := s.pending.set p ⟨[], 0, stream⟩ })
    | none =>
      if memory then
        some (s.pending.length,
          { s with pending := s.pending ++ [⟨[], 0, stream⟩] })
      else none

/-- Frees the stream's slot for reuse. -/
def pendingRelease (s : Session) (stream : Int) : Session :=
  match pendingFind s stream with
  | some p => { s with pending := s.pending.set p ⟨[], 0, -1⟩ }
  | none => s

/-- `slot->stream = stream`. -/
def setStream (s : Session) (p : Nat) (stream : Int) : Session :=
  { s with pending := s.pending.modify p fun slot =>
      { slot with stream := stream } }

/-- Swaps the staged body into the slot. -/
def moveStaged (s : Session) (p : Nat) : Session :=
  { s with
    pending := s.pending.modify p fun slot =>
      { slot with body := s.stagedBody, offset := 0 }
    stagedBody := [] }

/-- `beans_h2_stage_body`. -/
def stageBody (s : Session) (body : List UInt8) (memory : Bool) :
    Session × Except NetStatus Unit :=
  if memory then ({ s with stagedBody := body }, .ok ())
  else ({ s with stagedBody := [] }, .error .memory)

/-- The request words of `beans_h2_submit`. -/
structure SubmitWords where
  count : UInt64
  lengthsBytes : UInt64
  namesBytes : UInt64
  bodyLen : UInt64
  streamId : UInt64
  blobLen : UInt64
  keepOpen : UInt64
  deriving DecidableEq, Repr

/-- The largest 64-bit word. -/
def uint64Max : Nat := 2 ^ 64 - 1

/-- `beans_h2_read_u64`: eight bytes, the least significant one first. -/
def readU64 (bytes : List UInt8) : Nat :=
  ((List.range 8).map fun i => (bytes.getD i 0).toNat * 256 ^ i).sum

/-- The lengths of the names and values, added up without leaving 64 bits. -/
def totalLength (lengths : List UInt8) : Nat → Option Nat
  | 0 => some 0
  | n + 1 => do
      let total ← totalLength lengths n
      let part := readU64 (lengths.drop (8 * n))
      if part > uint64Max - total then none else some (total + part)

/-- The checks `beans_h2_submit` makes before it touches anything. -/
def submitCheck (s : Session) (blob : List UInt8) (w : SubmitWords) :
    Except NetStatus Unit :=
  if w.count = 0 ∨ w.count > 256 then .error .invalid
  else if w.keepOpen > 1 ∨ (w.keepOpen ≠ 0 ∧ w.bodyLen ≠ 0) then
    .error .invalid
  else if w.lengthsBytes ≠ w.count * 16 ∨
      w.lengthsBytes.toNat > uint64Max - w.namesBytes.toNat ∨
      w.blobLen ≠ w.lengthsBytes + w.namesBytes then .error .invalid
  else if s.stagedBody.length ≠ w.bodyLen.toNat then .error .range
  else
    match totalLength blob (w.count.toNat * 2) with
    | none => .error .range
    | some total =>
      if total ≠ w.namesBytes.toNat then .error .invalid else .ok ()

/-- Whether the allocations of a submission succeed. -/
structure Memory where
  headers : Bool
  slot : Bool
  deriving DecidableEq, Repr

/-- What a submission leaves: the session, its answer, and the slot nghttp2 was
given to read the body from. -/
structure Submitted where
  session : Session
  result : Except NetStatus Int
  source : Option Nat
  deriving DecidableEq

/-- `if (slot) slot->stream = stream`. -/
def bindSlot (s : Session) (source : Option Nat) (stream : Int) : Session :=
  match source with
  | some p => setStream s p stream
  | none => s

/-- The end of `beans_h2_submit`, from nghttp2's answer on. -/
def settleSubmit (s : Session) (stream : Int) (keepOpen : Bool)
    (source : Option Nat) (reply : Int) : Submitted :=
  if keepOpen then
    if reply < 0 then ⟨s, .error .protocol, source⟩
    else ⟨s, .ok (if s.isServer then stream else reply), source⟩
  else if s.isServer then
    if reply ≠ 0 then ⟨bindSlot s source (-1), .error .protocol, source⟩
    else ⟨s, .ok stream, source⟩
  else
    if reply < 0 then ⟨bindSlot s source (-1), .error .protocol, source⟩
    else ⟨bindSlot s source reply, .ok reply, source⟩

/-- `beans_h2_submit`, where nghttp2 answers `reply`. -/
def submit (s : Session) (blob : List UInt8) (w : SubmitWords)
    (memory : Memory) (reply : Int) : Submitted :=
  match submitCheck s blob w with
  | .error e => ⟨s, .error e, none⟩
  | .ok () =>
    if memory.headers = false then ⟨s, .error .memory, none⟩
    else if w.bodyLen > 0 then
      -- The client learns its stream from nghttp2 and waits under 0.
      match pendingClaim s (if s.isServer then int32Of w.streamId else 0)
          memory.slot with
      | none => ⟨s, .error .memory, none⟩
      | some (p, s') =>
        settleSubmit (moveStaged s' p) (int32Of w.streamId)
          (decide (w.keepOpen ≠ 0)) (some p) reply
    else
      settleSubmit s (int32Of w.streamId) (decide (w.keepOpen ≠ 0)) none reply

/-- `beans_h2_submit_data`, where nghttp2 answers `reply`; `dataExist` tells
whether that answer is `NGHTTP2_ERR_DATA_EXIST`. -/
def submitData (s : Session) (streamWord endStream : UInt64)
    (memory dataExist : Bool) (reply : Int) : Submitted :=
  let stream := int64Of streamWord
  if stream ≤ 0 ∨ stream > 2 ^ 31 - 1 ∨ endStream > 1 then
    ⟨s, .error .invalid, none⟩
  else if (pendingFind s stream).isSome then ⟨s, .error .busy, none⟩
  else
    match pendingClaim s stream memory with
    | none => ⟨s, .error .memory, none⟩
    | some (p, s') =>
      if reply ≠ 0 then
        ⟨pendingRelease (moveStaged s' p) stream,
          .error (if dataExist then .busy else .protocol), some p⟩
      else ⟨moveStaged s' p, .ok stream, some p⟩

/-- `beans_h2_rst_stream`; nghttp2's answer decides its status only. -/
def rstStream (s : Session) (streamWord : UInt64) : Session :=
  pendingRelease s (int32Of streamWord)

/-- What `beans_h2_read_body` answers: the bytes and whether they are the last. -/
structure Chunk where
  bytes : List UInt8
  eof : Bool
  deriving DecidableEq, Repr

/-- `beans_h2_read_body`. -/
def readBody (s : Session) (p : Nat) (stream : Int) (length : Nat) :
    Session × Chunk :=
  match s.pending[p]? with
  | none => (s, ⟨[], true⟩)
  | some slot =>
    if slot.stream ≠ stream then (s, ⟨[], true⟩)
    else if slot.offset ≥ slot.body.length then
      (pendingRelease s stream, ⟨[], true⟩)
    else
      let n := min (slot.body.length - slot.offset) length
      let bytes := (slot.body.drop slot.offset).take n
      let slot' := { slot with offset := slot.offset + n }
      let s' := { s with pending := s.pending.set p slot' }
      if slot.offset + n ≥ slot.body.length then
        (pendingRelease s' stream, ⟨bytes, true⟩)
      else (s', ⟨bytes, false⟩)

/-- A submission nghttp2 has accepted, with the body staged for it and what was
read for it. -/
structure Submission where
  stream : Int
  source : Option Nat
  body : List UInt8
  taken : List UInt8
  ended : Bool
  closed : Bool
  deriving DecidableEq, Repr

/-- nghttp2 still reads the submission's body. -/
def Submission.live (b : Submission) : Prop :=
  b.ended = false ∧ b.closed = false

instance (b : Submission) : Decidable b.live :=
  inferInstanceAs (Decidable (_ ∧ _))

/-- A session, the submissions accepted so far and the streams reset so far. -/
structure World where
  session : Session
  submissions : List Submission
  resets : List Int
  deriving DecidableEq

/-- What happens to a session. -/
inductive Call
  | stageBody (body : List UInt8) (memory : Bool)
  | submit (blob : List UInt8) (words : SubmitWords) (memory : Memory)
      (reply : Int)
  | submitData (stream endStream : UInt64) (memory dataExist : Bool)
      (reply : Int)
  | rstStream (stream : UInt64)
  | streamClose (stream : Int)
  | readBody (submission : Nat) (length : Nat)
  deriving DecidableEq

/-- The world after a submission of the staged body. -/
def World.submitted (w : World) (r : Submitted) : World :=
  match r.result with
  | .error _ => { w with session := r.session }
  | .ok id =>
    { w with
      session := r.session
      submissions := w.submissions ++
        [⟨id, r.source, w.session.stagedBody, [], false, false⟩] }

/-- The world after nghttp2 has read once for its submission `k`. -/
def World.read (w : World) (k : Nat) (b : Submission) (p length : Nat) :
    World :=
  let r := readBody w.session p b.stream length
  { w with
    session := r.1
    submissions := w.submissions.set k
      { b with taken := b.taken ++ r.2.bytes, ended := r.2.eof } }

/-- One step; nghttp2 reads for live submissions that have a body only. -/
def step : Call → World → Option World
  | .stageBody body memory, w =>
    some { w with session := (stageBody w.session body memory).1 }
  | .submit blob words memory reply, w =>
    some (w.submitted (submit w.session blob words memory reply))
  | .submitData stream endStream memory dataExist reply, w =>
    some (w.submitted
      (submitData w.session stream endStream memory dataExist reply))
  | .rstStream stream, w =>
    some { w with
      session := rstStream w.session stream
      resets := int32Of stream :: w.resets }
  | .streamClose stream, w =>
    some { w with
      session := pendingRelease w.session stream
      submissions := w.submissions.map fun b =>
        if b.stream = stream then { b with closed := true } else b }
  | .readBody k length, w =>
    match w.submissions[k]? with
    | none => none
    | some b =>
      match b.source with
      | none => none
      | some p => if b.live then some (w.read k b p length) else none

/-- `beans_h2_new`. -/
def fresh (isServer : Bool) : World := ⟨⟨isServer, [], []⟩, [], []⟩

end Http2
end Beans
