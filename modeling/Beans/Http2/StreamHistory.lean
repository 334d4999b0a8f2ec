import Beans.Http2.Assembly

/-!
# The history of a stream

What the events of one stream say, apart from any connection: the fields and the
body they carry, which of them break a rule, and what a whole message of the
stream is.
-/

namespace Beans
namespace Http2

namespace BridgeEvent

/-- The stream an event is about. -/
def stream? : BridgeEvent → Option Int64
  | header id _ _ => some id.toInt64
  | headersDone id _ _ => some id.toInt64
  | dataDone id => some id.toInt64
  | data id _ => some id.toInt64
  | streamClosed id _ => some id.toInt64
  | goaway _ _ => none
  | settingsAck => none

/-- The peer is done with the stream. -/
def endsStream : BridgeEvent → Bool
  | headersDone _ endStream _ => endStream
  | dataDone _ => true
  | _ => false

/-- The event ends a header block or the DATA. -/
def isDone : BridgeEvent → Bool
  | headersDone _ _ _ => true
  | dataDone _ => true
  | _ => false

def closes : BridgeEvent → Bool
  | streamClosed _ _ => true
  | _ => false

end BridgeEvent

/-- The events of a stream. -/
def history (events : List BridgeEvent) (id : Int64) : List BridgeEvent :=
  events.filter fun event => event.stream? == some id

/-- Every field received, as text. -/
def fieldsOf (events : List BridgeEvent) : Headers :=
  events.filterMap fun event =>
    match event with
    | .header _ name value => some (bytesToString name, bytesToString value)
    | _ => none

/-- The bytes of the fields as they were sent. -/
def fieldBytes (events : List BridgeEvent) : ℤ :=
  (events.map fun event =>
    match event with
    | .header _ name value => (name.length + value.length : ℤ)
    | _ => 0).sum

/-- Every byte of DATA. -/
def bodyOf (events : List BridgeEvent) : Bytes :=
  events.flatMap fun event =>
    match event with
    | .data _ payload => payload
    | _ => []

def Ended (events : List BridgeEvent) : Prop :=
  ∃ event ∈ events, event.endsStream = true

def Closed (events : List BridgeEvent) : Prop :=
  ∃ event ∈ events, event.closes = true

/-- What the session promises of its callbacks: a stream ends once, and nothing of
it follows its close. -/
structure BridgeOrder (events : List BridgeEvent) : Prop where
  once : ∀ id, ((history events id).filter BridgeEvent.endsStream).length ≤ 1
  last : ∀ past event rest, events = past ++ event :: rest → event.closes = true →
    ∀ later ∈ rest, later.stream? ≠ event.stream?

/-- A field any block may carry. -/
structure FieldSound (field : Text × Text) : Prop where
  name : validH2Name field.1 = true
  value : fieldIsSafe field.2 = true
  general : pseudoName field.1 = false → connectionSpecific field.1 = false
  trailers : field.1 = ascii "te" → strToLower (strTrim field.2) = ascii "trailers"

/-- The fields of a block that opens a message. -/
structure OpeningFields (isServer : Bool) (fields : Headers) : Prop where
  sound : ∀ field ∈ fields, FieldSound field
  permitted : ∀ field ∈ fields, pseudoName field.1 = true →
    allowedPseudo isServer field.1 = true
  unique : ((fields.filter fun field => pseudoName field.1).map Prod.fst).Nodup
  precede : fields.Pairwise fun a b => pseudoName b.1 = true → pseudoName a.1 = true

/-- The pseudo-headers a message needs. -/
def RequiredHeaders (isServer : Bool) (headers : Headers) : Prop :=
  if isServer then
    ∃ method, headers.get (ascii ":method") = some method ∧ method ≠ [] ∧
      if method = ascii "CONNECT" then
        (∃ authority, headers.get (ascii ":authority") = some authority ∧ authority ≠ []) ∧
          headers.has (ascii ":scheme") = false ∧ headers.has (ascii ":path") = false
      else
        (∃ scheme, headers.get (ascii ":scheme") = some scheme ∧ scheme ≠ []) ∧
          ∃ path, headers.get (ascii ":path") = some path ∧ path ≠ []
  else
    ∃ text, headers.get (ascii ":status") = some text ∧ text.length = 3 ∧
      100 ≤ statusOf headers ∧ statusOf headers ≤ 599

/-- A response that another one follows. -/
def InformationalStatus (isServer : Bool) (headers : Headers) : Prop :=
  isServer = false ∧ 100 ≤ statusOf headers ∧ statusOf headers < 200

instance (isServer : Bool) (headers : Headers) :
    Decidable (InformationalStatus isServer headers) :=
  inferInstanceAs (Decidable (_ ∧ _ ∧ _))

/-- The declared length, if there is one, is the one of the body. -/
def LengthKept (isServer : Bool) (headers : Headers) (body : Bytes) : Prop :=
  ∃ declared, contentLengthFor (ordinaryHeaders isServer headers) = some declared ∧
    ∀ length, declared = some length → length = body.length

/-- The end of a block, or of the DATA. -/
def gatherDone (isServer : Bool) (s : Stream) : Stream :=
  if s.initialHeadersDone then s
  else if InformationalStatus isServer s.headers then
    { s with headers := [], regularSeen := false }
  else { s with initialHeadersDone := true }

/-- What an event adds, whether it keeps the rules or not. -/
def gather (isServer : Bool) (s : Stream) : BridgeEvent → Stream
  | .header _ name value =>
    { s with
      headerCount := s.headerCount + 1
      headerBytes := s.headerBytes + (name.length + value.length : ℤ)
      regularSeen := s.regularSeen || !pseudoName (bytesToString name)
      headers := s.headers ++ [(bytesToString name, bytesToString value)] }
  | .data _ payload => { s with body := s.body ++ payload }
  | .headersDone _ _ _ => gatherDone isServer s
  | .dataDone _ => gatherDone isServer s
  | _ => s

def gathered (isServer : Bool) (id : Int64) (events : List BridgeEvent) : Stream :=
  events.foldl (gather isServer) { id := id }

/-- A field the stream may carry next. -/
def FieldAdmitted (isServer : Bool) (s : Stream) (field : Text × Text) : Prop :=
  FieldSound field ∧
    (pseudoName field.1 = true →
      s.initialHeadersDone = false ∧ s.regularSeen = false ∧
        s.headers.has field.1 = false ∧ allowedPseudo isServer field.1 = true)

/-- The event breaks a rule for a stream that has gathered so much. -/
def Breaks (rules : Rules) (s : Stream) (event : BridgeEvent) : Prop :=
  match event with
  | .header _ name value =>
    rules.maxHeaderCount < s.headerCount + 1 ∨
      rules.maxHeaderBytes < s.headerBytes + (name.length + value.length : ℤ) ∨
      ¬ FieldAdmitted rules.isServer s (bytesToString name, bytesToString value)
  | .data _ payload => rules.maxBody < s.body.length + payload.length
  | .streamClosed _ _ => False
  | .goaway _ _ => False
  | .settingsAck => False
  | event =>
    (s.initialHeadersDone = false ∧
      (¬ RequiredHeaders rules.isServer s.headers ∨
        InformationalStatus rules.isServer s.headers ∧
          (statusOf s.headers = 101 ∨ event.endsStream = true))) ∨
    event.endsStream = true ∧ ¬ LengthKept rules.isServer s.headers s.body

/-- The events since the stream last ended. -/
def sinceEnd (events : List BridgeEvent) : List BridgeEvent :=
  events.foldl (fun recent event => if event.endsStream then [] else recent ++ [event]) []

/-- Some event of the history broke a rule. -/
def Broke (rules : Rules) (id : Int64) (events : List BridgeEvent) : Prop :=
  ∃ past event rest, events = past ++ event :: rest ∧
    Breaks rules (gathered rules.isServer id (sinceEnd past)) event

/-- A run of informational responses, each with a block of its own. -/
inductive Informational (isServer : Bool) : List BridgeEvent → Prop
  | nil : Informational isServer []
  | block {before opening : List BridgeEvent} {done : BridgeEvent}
      (hbefore : Informational isServer before)
      (hopening : ∀ event ∈ opening, event.isDone = false)
      (hfields : OpeningFields isServer (fieldsOf opening))
      (hrequired : RequiredHeaders isServer (fieldsOf opening))
      (hstatus : InformationalStatus isServer (fieldsOf opening))
      (hswitching : statusOf (fieldsOf opening) ≠ 101)
      (hdone : done.isDone = true)
      (hend : done.endsStream = false) :
      Informational isServer (before ++ (opening ++ [done]))

/-- The header blocks of a message: after informational responses one opening block
that is complete, and then blocks without pseudo-headers. -/
structure Blocks (isServer : Bool) (events : List BridgeEvent) (headers : Headers)
    (informational opening rest : List BridgeEvent) (done : BridgeEvent) : Prop where
  split : events = informational ++ (opening ++ done :: rest)
  before : Informational isServer informational
  opened : ∀ event ∈ opening, event.isDone = false
  finished : done.isDone = true
  fields : OpeningFields isServer (fieldsOf opening)
  required : RequiredHeaders isServer (fieldsOf opening)
  final : ¬ InformationalStatus isServer (fieldsOf opening)
  trailers : ∀ field ∈ fieldsOf rest, FieldSound field ∧ pseudoName field.1 = false
  joined : headers = fieldsOf opening ++ fieldsOf rest

/-- The head of a message is built from its fields. -/
def HeadOf (isServer : Bool) (message : Stream) : Prop :=
  if isServer then
    ∃ head, message.request = some head ∧
      head.method = textOr (message.headers.get (ascii ":method")) [] ∧
      head.target = textOr (message.headers.get (ascii ":path")) [] ∧
      head.headers = ordinaryHeaders isServer message.headers
  else
    ∃ head, message.response = some head ∧ head.status = statusOf message.headers ∧
      head.headers = ordinaryHeaders isServer message.headers

/-- The message is the whole of what its stream has sent, and keeps the rules.  A
limit below zero still lets an empty body through. -/
structure WholeMessage (rules : Rules) (events : List BridgeEvent) (message : Stream) :
    Prop where
  finished : ∃ past last, events = past ++ [last] ∧ last.endsStream = true
  blocks : ∃ informational opening rest done,
    Blocks rules.isServer events message.headers informational opening rest done
  body : message.body = bodyOf events
  length : LengthKept rules.isServer message.headers message.body
  head : HeadOf rules.isServer message
  fieldCount : ((fieldsOf events).length : ℤ) ≤ rules.maxHeaderCount
  fieldBytes : fieldBytes events ≤ rules.maxHeaderBytes
  bodyBound : (message.body.length : ℤ) ≤ max rules.maxBody 0

end Http2
end Beans
