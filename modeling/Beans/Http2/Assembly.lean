import Beans.Http2.EventQueue

/-!
# Message assembly

The transport gathers the events of each stream into an exchange, and hands an
exchange out as one message once the stream has ended.  A stream that breaks a
rule is reset, and what is still queued for it is passed over until it closes.
-/

namespace Beans
namespace Http2

/-- A request head. -/
structure Request where
  method : Text := []
  target : Text := []
  major : ℕ := 1
  minor : ℕ := 1
  headers : Headers := []
  contentLength : ℤ := -1
  chunked : Bool := false
  keepAlive : Bool := true
  upgrade : Bool := false
deriving DecidableEq, Repr

/-- A response head. -/
structure Response where
  status : ℤ := 0
  reason : Text := []
  major : ℕ := 1
  minor : ℕ := 1
  headers : Headers := []
  contentLength : ℤ := -1
  chunked : Bool := false
  keepAlive : Bool := true
  upgrade : Bool := false
deriving DecidableEq, Repr

/-- One exchange, with its raw fields while it is being built. -/
structure Stream where
  id : Int64 := 0
  headers : Headers := []
  body : Bytes := []
  request : Option Request := none
  response : Option Response := none
  complete : Bool := false
  headerBytes : ℤ := 0
  headerCount : ℤ := 0
  regularSeen : Bool := false
  initialHeadersDone : Bool := false
deriving DecidableEq, Repr

inductive Http2Event where
  | message (stream : Stream)
  | streamClosed (id code : Int64)
  | goaway (last code : Int64)
deriving DecidableEq, Repr

/-- The role of a connection and the limits it keeps. -/
structure Rules where
  isServer : Bool
  maxBody : ℤ := 16777216
  maxHeaderCount : ℤ := 128
  maxHeaderBytes : ℤ := 65536

/-- A connection's exchanges.  `ready` keeps every event handed out, and `resets`
every stream reset with its code. -/
structure Transport where
  rules : Rules
  building : Int64 → Option Stream := fun _ => none
  rejected : Int64 → Option Bool := fun _ => none
  ready : List Http2Event := []
  resets : List (Int64 × ℕ) := []

/-- The pseudo-headers a peer may send. -/
def allowedPseudo (isServer : Bool) (name : Text) : Bool :=
  if isServer then
    name == ascii ":method" || name == ascii ":scheme" || name == ascii ":authority" ||
      name == ascii ":path"
  else name == ascii ":status"

/-- The fields that belong to one HTTP/1 connection. -/
def connectionSpecific (name : Text) : Bool :=
  name == ascii "connection" || name == ascii "proxy-connection" ||
    name == ascii "keep-alive" || name == ascii "upgrade" ||
    name == ascii "transfer-encoding"

/-- Checks a field, and answers with the exchange after it. -/
def checkReceivedHeader (isServer : Bool) (exchange : Stream) (name value : Text) :
    Option Stream :=
  if !validH2Name name || !fieldIsSafe value then none
  else if pseudoName name then
    if exchange.initialHeadersDone || exchange.regularSeen then none
    else if exchange.headers.has name then none
    else if allowedPseudo isServer name then some exchange
    else none
  else
    let low := strToLower name
    if connectionSpecific low then none
    else if low == ascii "te" && strToLower (strTrim value) != ascii "trailers" then none
    else some { exchange with regularSeen := true }

def textOr (value : Option Text) (fallback : Text) : Text :=
  value.getD fallback

/-- The pseudo-headers that a request, or a response, cannot be without. -/
def checkRequiredHeaders (isServer : Bool) (headers : Headers) : Bool :=
  if isServer then
    let method := textOr (headers.get (ascii ":method")) []
    if method.length == 0 then false
    else if method == ascii "CONNECT" then
      !((textOr (headers.get (ascii ":authority")) []).length == 0 ||
        headers.has (ascii ":scheme") || headers.has (ascii ":path"))
    else
      !((textOr (headers.get (ascii ":scheme")) []).length == 0 ||
        (textOr (headers.get (ascii ":path")) []).length == 0)
  else
    let statusText := textOr (headers.get (ascii ":status")) []
    let status := (strToInt statusText).getD 0
    !(statusText.length != 3 || status < 100 || 599 < status)

/-- The fields of the typed head. -/
def ordinaryHeaders (isServer : Bool) (headers : Headers) : Headers :=
  let fields : Headers := headers.filter fun field => !pseudoName field.1
  if isServer && !fields.has (ascii "Host") then
    let authority := textOr (headers.get (ascii ":authority")) []
    if 0 < authority.length then fields ++ [(ascii "Host", authority)] else fields
  else fields

/-- The status of a response. -/
def statusOf (headers : Headers) : ℤ :=
  (strToInt (textOr (headers.get (ascii ":status")) (ascii "0"))).getD 0

/-- Types a complete exchange, if its declared length is the one of its body. -/
def typeExchange (isServer : Bool) (exchange : Stream) : Option Stream :=
  let fields := ordinaryHeaders isServer exchange.headers
  match contentLengthFor fields with
  | none => none
  | some declared =>
    if declared.any fun length => length != (exchange.body.length : ℤ) then none
    else if isServer then
      some { exchange with
        request := some
          { method := textOr (exchange.headers.get (ascii ":method")) []
            target := textOr (exchange.headers.get (ascii ":path")) []
            major := 2
            minor := 0
            headers := fields
            contentLength := declared.getD (-1) } }
    else
      some { exchange with
        response := some
          { status := statusOf exchange.headers
            major := 2
            minor := 0
            headers := fields
            contentLength := declared.getD (-1) } }

namespace Transport

def isRejected (t : Transport) (id : Int64) : Bool :=
  (t.rejected id).getD false

/-- The exchange of a stream, a fresh one where there is none yet. -/
def exchangeFor (t : Transport) (id : Int64) : Stream :=
  (t.building id).getD { id := id }

/-- The exchange as the event leaves it. -/
def keep (t : Transport) (id : Int64) (exchange : Stream) : Transport :=
  { t with building := Function.update t.building id (some exchange) }

/-- The exchange is dropped, and what still comes for it is passed over. -/
def resetStream (t : Transport) (id : Int64) (code : ℕ) : Transport :=
  { t with
    building := Function.update t.building id none
    rejected := Function.update t.rejected id (some true)
    resets := t.resets ++ [(id, code)] }

/-- Hands an exchange out as a message. -/
def deliver (t : Transport) (id : Int64) (exchange : Stream) : Transport :=
  { t with
    ready := t.ready ++ [.message exchange]
    building := Function.update t.building id none }

/-- The end of a header block or of the DATA, once the first block is complete. -/
def endPart (t : Transport) (id flags : Int64) (exchange : Stream) : Transport :=
  if flags % 2 = 1 then
    match typeExchange t.rules.isServer { exchange with complete := true } with
    | some exchange => t.deliver id exchange
    | none => t.resetStream id 1
  else t.keep id exchange

def onHeader (t : Transport) (id nameLen valueLen : Int64) (name value : Text) :
    Transport :=
  if t.isRejected id then t
  else
    let exchange := t.exchangeFor id
    let exchange :=
      { exchange with
        headerCount := exchange.headerCount + 1
        headerBytes := exchange.headerBytes + (nameLen.toInt + valueLen.toInt) }
    if t.rules.maxHeaderCount < exchange.headerCount ∨
        t.rules.maxHeaderBytes < exchange.headerBytes then t.resetStream id 11
    else
      match checkReceivedHeader t.rules.isServer exchange name value with
      | none => t.resetStream id 1
      | some exchange =>
        t.keep id { exchange with headers := exchange.headers ++ [(name, value)] }

/-- A body beyond the limit resets its stream. -/
def onData (t : Transport) (id length : Int64) (payload : Bytes) : Transport :=
  if t.isRejected id then t
  else
    let exchange := t.exchangeFor id
    if t.rules.maxBody < exchange.body.length + length.toInt then t.resetStream id 11
    else t.keep id { exchange with body := exchange.body ++ payload }

def onHeadersDone (t : Transport) (id flags : Int64) : Transport :=
  if t.isRejected id then t
  else
    let exchange := t.exchangeFor id
    if exchange.initialHeadersDone then t.endPart id flags exchange
    else if !checkRequiredHeaders t.rules.isServer exchange.headers then t.resetStream id 1
    else
      let status := statusOf exchange.headers
      if !t.rules.isServer ∧ 100 ≤ status ∧ status < 200 then
        if status = 101 ∨ flags % 2 = 1 then t.resetStream id 1
        else
          -- the final response carries a fresh field block
          t.keep id { exchange with headers := [], regularSeen := false }
      else t.endPart id flags { exchange with initialHeadersDone := true }

/-- What an event does. -/
def handle (t : Transport) : Arrival → Transport
  | .header id nameLen valueLen name value => t.onHeader id nameLen valueLen name value
  | .data id length payload => t.onData id length payload
  | .headersDone id flags => t.onHeadersDone id flags
  | .streamClosed id code =>
    { t with
      building := Function.update t.building id none
      rejected := Function.update t.rejected id none
      ready := t.ready ++ [.streamClosed id code] }
  | .goaway last code => { t with ready := t.ready ++ [.goaway last code] }
  | .other => t

/-- The events from a position on.  Each takes at least a byte, so as many turns as
bytes are enough. -/
def drainFrom (buffer : Bytes) (taken : Int64) :
    ℕ → Int64 → Transport → Except DrainError Unit × Transport
  | 0, _, t => (.ok (), t)
  | turns + 1, pos, t =>
    if pos < taken then
      match nextEvent buffer taken pos with
      | .error error => (.error error, t)
      | .ok (arrival, pos) => drainFrom buffer taken turns pos (t.handle arrival)
    else (.ok (), t)

/-- Takes the queue and handles its events. -/
def drainEvents (t : Transport) (buffer : Bytes) : Except DrainError Unit × Transport :=
  if buffer.length = 0 then (.ok (), t)
  else drainFrom buffer (Bytes.len buffer) buffer.length 0 t

/-- Drains one buffer after the other, until one fails. -/
def drainAll : List Bytes → Transport → Except DrainError Unit × Transport
  | [], t => (.ok (), t)
  | buffer :: rest, t =>
    match t.drainEvents buffer with
    | (.ok _, t) => drainAll rest t
    | (.error error, t) => (.error error, t)

/-- The transport after events of the bridge. -/
def received (t : Transport) (events : List BridgeEvent) : Transport :=
  events.foldl (fun t event => t.handle event.arrival) t

@[simp] theorem received_nil (t : Transport) : t.received [] = t :=
  rfl

theorem received_cons (t : Transport) (event : BridgeEvent) (events : List BridgeEvent) :
    t.received (event :: events) = (t.handle event.arrival).received events :=
  rfl

theorem received_append (t : Transport) (events events' : List BridgeEvent) :
    t.received (events ++ events') = (t.received events).received events' :=
  List.foldl_append

theorem drainFrom_queue (events : List BridgeEvent) (t : Transport)
    {buffer before : Bytes} {taken pos : Int64} {turns : ℕ}
    (h : At buffer before (queueBytes events) pos)
    (htaken : taken.toInt = buffer.length)
    (hturns : events.length ≤ turns) :
    drainFrom buffer taken turns pos t = (.ok (), t.received events) := by
  induction events generalizing before pos t turns with
  | nil =>
    cases turns with
    | zero => rfl
    | succ turns =>
      have hend : ¬ pos < taken := by
        have hlength := h.length
        rw [queueBytes, List.flatMap_nil, List.length_nil] at hlength
        rw [SignedWords.lt_iff h.position htaken]
        omega
      rw [drainFrom, if_neg hend]
      rfl
  | cons event events ih =>
    rw [queueBytes, List.flatMap_cons] at h
    cases turns with
    | zero => simp at hturns
    | succ turns =>
      have hmore : pos < taken := by
        have hlength := h.length
        have hpos := event_bytes_pos event
        rw [List.length_append] at hlength
        rw [SignedWords.lt_iff h.position htaken]
        omega
      obtain ⟨pos', hread, hnext⟩ := h.nextEvent htaken
      rw [drainFrom, if_pos hmore, hread]
      exact ih _ hnext (by simpa using hturns)

theorem length_le_queueBytes (events : List BridgeEvent) :
    events.length ≤ (queueBytes events).length := by
  induction events with
  | nil => rfl
  | cons event events ih =>
    have hpos := event_bytes_pos event
    rw [queueBytes, List.flatMap_cons, List.length_append, List.length_cons]
    rw [queueBytes] at ih
    omega

/-- A queue of the bridge is drained event by event. -/
theorem drainEvents_queue (t : Transport) (events : List BridgeEvent)
    (hsize : (queueBytes events).length < 2 ^ 63) :
    t.drainEvents (queueBytes events) = (.ok (), t.received events) := by
  unfold drainEvents
  split_ifs with hempty
  · have := length_le_queueBytes events
    have hnil : events = [] := List.length_eq_zero_iff.mp (by omega)
    rw [hnil, received_nil]
  · exact drainFrom_queue events t ⟨(List.nil_append _).symm, hsize, rfl⟩
      (Bytes.toInt_len hsize) (length_le_queueBytes events)

/-- However the events are cut into queues, they are handled in order. -/
theorem drainAll_queues (queues : List (List BridgeEvent)) (t : Transport)
    (hsize : ∀ events ∈ queues, (queueBytes events).length < 2 ^ 63) :
    drainAll (queues.map queueBytes) t = (.ok (), t.received queues.flatten) := by
  induction queues generalizing t with
  | nil => rfl
  | cons events queues ih =>
    rw [List.forall_mem_cons] at hsize
    rw [List.map_cons, drainAll, drainEvents_queue t events hsize.1, List.flatten_cons,
      received_append]
    exact ih _ hsize.2

end Transport

end Http2
end Beans
