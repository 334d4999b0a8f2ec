import Beans.Foundation.KeyedSlots
import Beans.Foundation.StepSystem
import Beans.Http2.WireScan

/-!
# The observer of received frames

Next to nghttp2 the session keeps a record of its own for each stream the peer
has sent headers on.  It answers a few protocol violations with a frame of its
own, queued in the bytes still to be sent.  The table holds 4096 records; a
record of a closed stream is given up when a new stream finds no room.
-/

namespace Beans
namespace Http2

/-- `beans_h2_wire_stream`. -/
structure WireStream where
  stream : Int
  remoteWindow : Int
  active : Bool
  peerEnded : Bool
  resetReceived : Bool
  deriving DecidableEq, Repr

/-- A record as it is claimed. -/
def WireStream.claimed (stream : Int) : WireStream :=
  ⟨stream, 65535, true, false, false⟩

/-- The fields of `beans_h2_session` that the observer uses; `outgoing` is what
its buffer still holds. -/
structure Observer where
  isServer : Bool
  wireStreams : List WireStream
  lastPeerStream : Int
  manualGoaway : Bool
  outgoing : List UInt8
  failed : Bool
  deriving DecidableEq, Repr

namespace Observer

/-- The observer of a new session. -/
def fresh (isServer : Bool) : Observer := ⟨isServer, [], 0, false, [], false⟩

/-- `beans_h2_wire_find`: the place of the stream's record. -/
def wireFind (o : Observer) (stream : Int) : Option Nat :=
  KeyedSlots.find WireStream.stream o.wireStreams stream

/-- The place of the record with the least stream among the closed ones, after
those before place `i` have given `best`. -/
def oldestFrom : Nat → List WireStream → Option (Nat × Int) →
    Option (Nat × Int)
  | _, [], best => best
  | i, r :: l, best =>
    oldestFrom (i + 1) l
      (if r.active then best
      else if best.elim true fun b => decide (r.stream < b.2) then
        some (i, r.stream)
      else best)

/-- The capacity of the table of records. -/
def tableSize : Nat := 4096

/-- `beans_h2_wire_claim`; none when every record is of an open stream. -/
def wireClaim (o : Observer) (stream : Int) : Option (Nat × Observer) :=
  match o.wireFind stream with
  | some i => some (i, o)
  | none =>
    if o.wireStreams.length ≥ tableSize then
      match oldestFrom 0 o.wireStreams none with
      | none => none
      | some (i, _) => some (i, { o with
          wireStreams := o.wireStreams.set i (.claimed stream) })
    else some (o.wireStreams.length, { o with
      wireStreams := o.wireStreams ++ [.claimed stream] })

/-- `beans_h2_put_u32be`. -/
def putU32be (n : Nat) : List UInt8 :=
  [.ofNat (n / 2 ^ 24), .ofNat (n / 2 ^ 16), .ofNat (n / 2 ^ 8), .ofNat n]

/-- `beans_h2_wire_error` on a stream: a RST_STREAM frame is queued. -/
def streamError (o : Observer) (stream : Int) (code : Nat) : Observer :=
  { o with outgoing := o.outgoing ++ [0, 0, 4, 3, 0] ++
      putU32be stream.toNat ++ putU32be code }

/-- `beans_h2_wire_error` on the connection: a GOAWAY frame is queued once. -/
def connectionError (o : Observer) (code : Nat) : Observer :=
  if o.manualGoaway then o
  else
    { o with
      manualGoaway := true
      outgoing := o.outgoing ++ [0, 0, 8, 7, 0, 0, 0, 0, 0] ++
        putU32be o.lastPeerStream.toNat ++ putU32be code }

/-- Changes the record at a place. -/
def setRecord (o : Observer) (i : Nat) (f : WireStream → WireStream) :
    Observer :=
  { o with wireStreams := o.wireStreams.modify i f }

/-- `state->peer_ended = 1` on a frame that carries END_STREAM. -/
def endStream (o : Observer) (i : Nat) (flags : UInt8) : Observer :=
  if flags &&& 1 ≠ 0 then
    o.setRecord i fun r => { r with peerEnded := true }
  else o

/-- The error codes of the frames the observer queues. -/
def protocolError : Nat := 1
def flowControlError : Nat := 3
def streamClosed : Nat := 5

/-- `INT32_MAX`. -/
def int32Max : Int := 2 ^ 31 - 1

/-- HEADERS: opens the stream, unless it is known, ended or out of order. -/
def onHeaders (o : Observer) (f : Frame) : Observer :=
  match (if f.stream = 0 then none else o.wireFind f.stream) with
  | some i =>
    match o.wireStreams[i]? with
    | none => o
    | some r =>
      (if r.resetReceived then o.streamError f.stream streamClosed
      else if r.peerEnded then o.connectionError streamClosed
      else o).endStream i f.flags
  | none =>
    if f.stream = 0 then o
    else if o.isServer ∧ f.stream < o.lastPeerStream then
      o.connectionError protocolError
    else
      match o.wireClaim f.stream with
      | none => { o with failed := true }
      | some (i, o') =>
        (if f.stream > o'.lastPeerStream then
          { o' with lastPeerStream := f.stream }
        else o').endStream i f.flags

/-- DATA on a stream with a record. -/
def onData (o : Observer) (f : Frame) (i : Nat) (r : WireStream) : Observer :=
  (if r.resetReceived ∨ r.peerEnded then o.streamError f.stream streamClosed
  else o).endStream i f.flags

/-- PRIORITY must name a stream and not depend on itself. -/
def onPriority (o : Observer) (f : Frame) : Observer :=
  if f.stream = 0 then o.connectionError protocolError
  else if f.payloadLen = 5 ∧ f.first.length ≥ 4 ∧
      ((getU32be f.first % 2 ^ 31 : Nat) : Int) = f.stream then
    o.streamError f.stream protocolError
  else o

/-- The increment of a WINDOW_UPDATE. -/
def increment (f : Frame) : Nat := getU32be f.first % 2 ^ 31

/-- WINDOW_UPDATE on a stream with a record. -/
def onWindowUpdate (o : Observer) (f : Frame) (i : Nat) (r : WireStream) :
    Observer :=
  if increment f = 0 then o
  else if r.remoteWindow > int32Max - increment f then
    (o.streamError f.stream flowControlError).setRecord i fun r =>
      { r with resetReceived := true }
  else
    o.setRecord i fun r =>
      { r with remoteWindow := r.remoteWindow + increment f }

/-- `beans_h2_wire_frame`. -/
def wireFrame (f : Frame) (o : Observer) : Observer :=
  let state := if f.stream = 0 then none else o.wireFind f.stream
  if f.type = 1 then o.onHeaders f
  else if f.type = 0 then
    match state with
    | none => o
    | some i =>
      match o.wireStreams[i]? with
      | none => o
      | some r => o.onData f i r
  else if f.type = 3 then
    match state with
    | none => o
    | some i => o.setRecord i fun r => { r with resetReceived := true }
  else if f.type = 2 then o.onPriority f
  else if f.type = 8 ∧ f.stream ≠ 0 ∧ f.payloadLen = 4 ∧
      f.first.length = 4 then
    match state with
    | none => o
    | some i =>
      match o.wireStreams[i]? with
      | none => o
      | some r => o.onWindowUpdate f i r
  else o

/-- `beans_h2_on_stream_close`: the stream's record may be given up. -/
def onStreamClose (o : Observer) (stream : Int) : Observer :=
  match o.wireFind stream with
  | none => o
  | some i => o.setRecord i fun r => { r with active := false }

end Observer

/-- The bytes the peer has sent and what they did: the streams it sent headers
on, those it ended or reset, the window increments, all of them and those after
the headers, and the DATA bytes this side sent to it. -/
structure Peer where
  stream : List UInt8
  opened : List Int
  ended : List Int
  increments : Int → Nat
  counted : Int → Nat
  dataSent : Int → Nat

/-- A session and its peer. -/
structure Connection where
  scan : Scan
  observer : Observer
  peer : Peer

/-- What happens on a connection: bytes arrive, this side sends DATA, nghttp2
closes a stream, or the bytes to be sent change by other hands. -/
inductive Event
  | feed (data : List UInt8)
  | sendData (stream : Int) (length : Nat)
  | streamClose (stream : Int)
  | outgoing (bytes : List UInt8)

namespace Peer

/-- Adds to what is counted for a stream. -/
def addTo (count : Int → Nat) (stream : Int) (n : Nat) : Int → Nat :=
  Function.update count stream (count stream + n)

/-- The peer after it has sent a frame. -/
def send (p : Peer) (f : Frame) : Peer :=
  let ended := if f.flags &&& 1 ≠ 0 then f.stream :: p.ended else p.ended
  if f.type = 1 then { p with opened := f.stream :: p.opened, ended := ended }
  else if f.type = 0 then { p with ended := ended }
  else if f.type = 3 then { p with ended := f.stream :: p.ended }
  else if f.type = 8 then
    { p with
      increments := addTo p.increments f.stream (Observer.increment f)
      counted :=
        if f.stream ∈ p.opened then
          addTo p.counted f.stream (Observer.increment f)
        else p.counted }
  else p

/-- The peer obeys the protocol with its next frame: it announced the initial
window `initial`, opens streams in increasing order, sends nothing on a stream
that it has ended or reset, and lets no window grow beyond the largest one. -/
def Obeys (initial : Nat) (isServer : Bool) (p : Peer) (f : Frame) : Prop :=
  (f.type = 1 → f.stream ≠ 0 → f.stream ∉ p.ended ∧
    (isServer = true → f.stream ∈ p.opened ∨
      ∀ k ∈ p.opened, k < f.stream)) ∧
  (f.type = 0 → f.stream ∉ p.ended) ∧
  (f.type = 8 → f.stream ≠ 0 →
    (initial : Int) + (p.increments f.stream + Observer.increment f) -
      p.dataSent f.stream ≤ Observer.int32Max)

end Peer

/-- The frames that a feed completes. -/
def Connection.received (c : Connection) (data : List UInt8) : List Frame :=
  completed (if c.observer.isServer then 24 else 0) c.peer.stream data

/-- One step of a connection. -/
def Connection.step : Event → Connection → Option Connection
  | .feed data, c =>
    let r := wireScan Observer.wireFrame (c.scan, c.observer) data
    let p := callAll (fun f p => p.send f) (c.received data) c.peer
    some ⟨r.1, r.2, { p with stream := c.peer.stream ++ data }⟩
  | .sendData stream length, c =>
    some { c with peer := { c.peer with
      dataSent := Peer.addTo c.peer.dataSent stream length } }
  | .streamClose stream, c =>
    some { c with observer := c.observer.onStreamClose stream }
  | .outgoing bytes, c =>
    some { c with observer := { c.observer with outgoing := bytes } }

/-- A connection before the first byte. -/
def Connection.fresh (isServer : Bool) : Connection :=
  ⟨.fresh isServer, .fresh isServer, ⟨[], [], [], fun _ => 0, fun _ => 0, fun _ => 0⟩⟩

end Http2
end Beans
