import Beans.Runtime.Bytes

/-!
# Header fields and the event queue

The ordered collection of fields with its case-insensitive lookup, and the checks
of names, values and declared lengths that both HTTP versions share.

The native bridge appends each event to a byte queue, and the transport takes the
queue as one buffer and reads the events back, checking every length against
what was taken.
-/

namespace Beans
namespace Http2

/-- The bytes of a string. -/
abbrev Text : Type := List UInt8

/-- The bytes of a literal. -/
def ascii (literal : String) : Text :=
  literal.toList.map fun c => UInt8.ofNat c.toNat

/-- `to_string` of a buffer, which keeps every byte, zeros included. -/
def bytesToString (bytes : List UInt8) : Text :=
  bytes

def lowerByte (byte : UInt8) : UInt8 :=
  if 65 ≤ byte ∧ byte ≤ 90 then byte + 32 else byte

def strToLower (text : Text) : Text :=
  text.map lowerByte

def strIsWs (byte : UInt8) : Bool :=
  byte == 32 || byte == 9 || byte == 10 || byte == 13 || byte == 12 || byte == 11

/-- Blanks are cut off at both ends. -/
def strTrim (text : Text) : Text :=
  ((text.dropWhile strIsWs).reverse.dropWhile strIsWs).reverse

/-- The digits of a number below a cap, which it saturates at. -/
def parseDigits (cap : ℕ) : Text → ℕ → Bool → ℕ × Text
  | [], value, overflowed => (if overflowed then cap else value, [])
  | byte :: rest, value, overflowed =>
    if 48 ≤ byte ∧ byte ≤ 57 then
      let digit := byte.toNat - 48
      if (cap - digit) / 10 < value then parseDigits cap rest value true
      else parseDigits cap rest (value * 10 + digit) overflowed
    else (if overflowed then cap else value, byte :: rest)

/-- The number a text starts with, and what follows it. -/
def rtParseI64 (text : Text) : Option (ℤ × Text) :=
  let text := text.dropWhile fun byte =>
    byte == 32 || byte == 9 || byte == 10 || byte == 13
  let (negative, digits) :=
    match text with
    | 43 :: rest => (false, rest)
    | 45 :: rest => (true, rest)
    | text => (false, text)
  match digits with
  | [] => none
  | first :: _ =>
    if first < 48 ∨ 57 < first then none
    else
      let cap := if negative then 9223372036854775808 else 9223372036854775807
      let (value, rest) := parseDigits cap digits 0 false
      some (if negative then -(value : ℤ) else value, rest)

/-- A text ends at its first zero byte here. -/
def strToInt (text : Text) : Option ℤ :=
  match rtParseI64 text with
  | some (value, []) => some value
  | some (value, 0 :: _) => some value
  | _ => none

/-- No control character but the tab. -/
def fieldIsSafe (text : Text) : Bool :=
  text.all fun byte => !((byte < 32 && byte != 9) || byte == 127)

def tokenByte (byte : UInt8) : Bool :=
  let alpha := (65 ≤ byte && byte ≤ 90) || (97 ≤ byte && byte ≤ 122)
  let digit := 48 ≤ byte && byte ≤ 57
  let mark :=
    byte == 33 || byte == 35 || byte == 36 || byte == 37 || byte == 38 || byte == 39 ||
      byte == 42 || byte == 43 || byte == 45 || byte == 46 || byte == 94 || byte == 95 ||
      byte == 96 || byte == 124 || byte == 126
  alpha || digit || mark

/-- A token is not empty and has only the characters of tokens. -/
def httpTokenIsSafe (text : Text) : Bool :=
  text.length != 0 && text.all tokenByte

def asciiLowerEquals (a b : Text) : Bool :=
  a.length == b.length && (a.map lowerByte == b.map lowerByte)

/-- The fields in arrival order. -/
abbrev Headers : Type := List (Text × Text)

namespace Headers

def get (headers : Headers) (name : Text) : Option Text :=
  (headers.find? fun field => asciiLowerEquals field.1 name).map Prod.snd

def all (headers : Headers) (name : Text) : List Text :=
  (headers.filter fun field => asciiLowerEquals field.1 name).map Prod.snd

def has (headers : Headers) (name : Text) : Bool :=
  (headers.get name).isSome

end Headers

/-- Digits only, read as a number. -/
def decimalHeaderValue (text : Text) : Option ℤ :=
  if text.length = 0 then none
  else if text.any fun byte => byte < 48 || 57 < byte then none
  else strToInt text

/-- The declared length, if one is given; none where the declaration is refused. -/
def contentLengthFor (headers : Headers) : Option (Option ℤ) :=
  match headers.all (ascii "Content-Length") with
  | [] => some none
  | [value] => (decimalHeaderValue value).map some
  | _ => none

def pseudoName (name : Text) : Bool :=
  0 < name.length && name.headD 0 == 58

/-- Names are in lower case; a pseudo-header has a name behind its colon. -/
def validH2Name (name : Text) : Bool :=
  if name.length = 0 ∨ name ≠ strToLower name then false
  else if pseudoName name then
    if name.length = 1 then false else httpTokenIsSafe name.tail
  else httpTokenIsSafe name

theorem asciiLowerEquals_iff (a b : Text) :
    asciiLowerEquals a b = true ↔ strToLower a = strToLower b := by
  rw [asciiLowerEquals, Bool.and_eq_true, beq_iff_eq, beq_iff_eq, strToLower, strToLower]
  refine and_iff_right_of_imp fun h => ?_
  have := congrArg List.length h
  rwa [List.length_map, List.length_map] at this

/-- Lower-case names are looked up as they are written. -/
theorem validH2Name_lower {name : Text} (h : validH2Name name = true) :
    strToLower name = name := by
  unfold validH2Name at h
  split_ifs at h with hbad
  all_goals exact (not_or.mp hbad).2 |> not_not.mp |> Eq.symm

/-- A field is looked up under every case of its name. -/
theorem has_iff (headers : Headers) (name : Text) :
    headers.has name = true ↔ ∃ field ∈ headers, strToLower field.1 = strToLower name := by
  rw [Headers.has, Headers.get, Option.isSome_map, List.find?_isSome]
  simp only [asciiLowerEquals_iff]

open SignedWords

/-- What the callbacks of the session report. -/
inductive BridgeEvent where
  | header (id : UInt64) (name value : Bytes)
  /-- The end of a header block. -/
  | headersDone (id : UInt64) (endStream : Bool) (category : Fin 4)
  /-- The DATA frame that ends a stream. -/
  | dataDone (id : UInt64)
  | data (id : UInt64) (payload : Bytes)
  | streamClosed (id code : UInt64)
  | goaway (last code : UInt64)
  | settingsAck
deriving DecidableEq, Repr

/-- `beans_h2_event3`. -/
def event3 (kind : UInt8) (a b : UInt64) : Bytes :=
  kind :: (rtStoreLe a 8 ++ rtStoreLe b 8)

/-- The flags word of a header block. -/
def headersFlags (endStream : Bool) (category : Fin 4) : UInt64 :=
  (if endStream then (1 : UInt64) else 0) ||| (UInt64.ofNat category.val <<< 1)

/-- The bytes of an event in the queue. -/
def BridgeEvent.bytes : BridgeEvent → Bytes
  | header id name value =>
    1 :: (rtStoreLe id 8 ++ rtStoreLe (UInt64.ofNat name.length) 8 ++
      rtStoreLe (UInt64.ofNat value.length) 8) ++ name ++ value
  | headersDone id endStream category => event3 2 id (headersFlags endStream category)
  | dataDone id => event3 2 id 1
  | data id payload => event3 3 id (UInt64.ofNat payload.length) ++ payload
  | streamClosed id code => event3 4 id code
  | goaway last code => event3 6 last code
  | settingsAck => event3 7 0 0

/-- The queue after a run of callbacks. -/
def queueBytes (events : List BridgeEvent) : Bytes :=
  events.flatMap BridgeEvent.bytes

inductive DrainError where
  | truncatedEvent
  | truncatedHeader
  | truncatedData
  | truncatedHeaders
  | truncatedClose
  | truncatedGoaway
  | malformed
  /-- An access outside the buffer. -/
  | panic
deriving DecidableEq, Repr

/-- An event as the transport reads it. -/
inductive Arrival where
  | header (id nameLen valueLen : Int64) (name value : Text)
  | data (id length : Int64) (payload : Bytes)
  | headersDone (id flags : Int64)
  | streamClosed (id code : Int64)
  | goaway (last code : Int64)
  | other
deriving DecidableEq, Repr

/-- A word of the queue; a read outside of it panics. -/
def getWord (buffer : Bytes) (pos : Int64) (width : ℕ) : Except DrainError Int64 :=
  match Bytes.getw buffer pos width with
  | some value => .ok value
  | none => .error .panic

/-- `bytes_slice`. -/
def slice (buffer : Bytes) (start stop : Int64) : Except DrainError Bytes :=
  if start < 0 ∨ stop < start ∨ Bytes.len buffer < stop then .error .panic
  else .ok ((buffer.drop start.toNatClampNeg).take (stop - start).toNatClampNeg)

/-- The two words of an event of fixed size. -/
def twoWords (buffer : Bytes) (taken pos : Int64) (truncated : DrainError) :
    Except DrainError (Int64 × Int64) :=
  if taken < pos + 16 then .error truncated
  else
    match getWord buffer pos 8, getWord buffer (pos + 8) 8 with
    | .ok a, .ok b => .ok (a, b)
    | .error error, _ => .error error
    | _, .error error => .error error

/-- A header event after its kind. -/
def nextHeader (buffer : Bytes) (taken pos : Int64) : Except DrainError (Arrival × Int64) :=
  if taken < pos + 24 then .error .truncatedHeader
  else
    match getWord buffer pos 8, getWord buffer (pos + 8) 8, getWord buffer (pos + 16) 8 with
    | .ok id, .ok nameLen, .ok valueLen =>
      let pos := pos + 24
      if nameLen < 0 ∨ valueLen < 0 ∨ pos + nameLen < pos ∨
          pos + nameLen + valueLen < pos + nameLen ∨ taken < pos + nameLen + valueLen then
        .error .malformed
      else
        match slice buffer pos (pos + nameLen),
            slice buffer (pos + nameLen) (pos + nameLen + valueLen) with
        | .ok name, .ok value =>
          .ok (.header id nameLen valueLen (bytesToString name) (bytesToString value),
            pos + nameLen + valueLen)
        | _, _ => .error .panic
    | _, _, _ => .error .panic

/-- A data event after its kind. -/
def nextData (buffer : Bytes) (taken pos : Int64) : Except DrainError (Arrival × Int64) :=
  match twoWords buffer taken pos .truncatedData with
  | .error error => .error error
  | .ok (id, length) =>
    let pos := pos + 16
    if length < 0 ∨ pos + length < pos ∨ taken < pos + length then .error .malformed
    else
      match slice buffer pos (pos + length) with
      | .ok payload => .ok (.data id length payload, pos + length)
      | .error error => .error error

/-- The event at a position, and the position after it. -/
def nextEvent (buffer : Bytes) (taken pos : Int64) : Except DrainError (Arrival × Int64) :=
  if taken < pos + 1 then .error .truncatedEvent
  else
    match getWord buffer pos 1 with
    | .error error => .error error
    | .ok kind =>
      let pos := pos + 1
      let fixed (truncated : DrainError) (arrival : Int64 → Int64 → Arrival) :
          Except DrainError (Arrival × Int64) :=
        (twoWords buffer taken pos truncated).map fun words =>
          (arrival words.1 words.2, pos + 16)
      if kind = 1 then nextHeader buffer taken pos
      else if kind = 3 then nextData buffer taken pos
      else if kind = 2 then fixed .truncatedHeaders .headersDone
      else if kind = 4 then fixed .truncatedClose .streamClosed
      else if kind = 6 then fixed .truncatedGoaway .goaway
      else fixed .truncatedEvent fun _ _ => .other

/-- The arrival an event of the bridge is read as. -/
def BridgeEvent.arrival : BridgeEvent → Arrival
  | header id name value =>
    .header id.toInt64 (Int64.ofNat name.length) (Int64.ofNat value.length)
      (bytesToString name) (bytesToString value)
  | headersDone id endStream category =>
    .headersDone id.toInt64 (headersFlags endStream category).toInt64
  | dataDone id => .headersDone id.toInt64 1
  | data id payload => .data id.toInt64 (Int64.ofNat payload.length) payload
  | streamClosed id code => .streamClosed id.toInt64 code.toInt64
  | goaway last code => .goaway last.toInt64 code.toInt64
  | settingsAck => .other

section Reading

variable {buffer before after middle : Bytes} {pos taken : Int64}

/-- A position in a buffer that was split there. -/
structure At (buffer before after : Bytes) (pos : Int64) : Prop where
  split : buffer = before ++ after
  size : buffer.length < 2 ^ 63
  position : pos.toInt = before.length

theorem At.toNat (h : At buffer before after pos) : pos.toNatClampNeg = before.length := by
  have hpos : pos.toNatClampNeg = pos.toInt.toNat := rfl
  rw [hpos, h.position, Int.toNat_natCast]

theorem At.length (h : At buffer before after pos) :
    buffer.length = before.length + after.length := by
  rw [h.split, List.length_append]

/-- The sum of a position and a distance that stays inside the buffer. -/
theorem At.add (h : At buffer before (middle ++ after) pos) {distance : Int64}
    (hdistance : distance.toInt = middle.length) :
    At buffer (before ++ middle) after (pos + distance) := by
  have hlength := h.length
  have hsize := h.size
  rw [List.length_append] at hlength
  refine ⟨by rw [h.split, List.append_assoc], hsize, ?_⟩
  rw [toInt_add h.position hdistance ⟨by omega, by omega⟩, List.length_append]
  push_cast
  rfl

theorem At.getWord_eight {word : UInt64}
    (h : At buffer before (rtStoreLe word 8 ++ after) pos) :
    getWord buffer pos 8 = .ok word.toInt64 := by
  have hlength := h.length
  rw [List.length_append, rtStoreLe_length] at hlength
  have hinside : ¬ Bytes.Outside buffer pos (Int64.ofNat 8) := by
    have hpos := h.position
    rw [Bytes.outside_iff h.size (by decide), not_not,
      show (Int64.ofNat 8).toInt = 8 by decide]
    omega
  have hword : rtLoadLe (rtStoreLe word 8) = word := by
    rw [← UInt64.toNat_inj, rtLoadLe_rtStoreLe word le_rfl]
    exact Nat.mod_eq_of_lt word.toNat_lt
  rw [getWord, Bytes.getw, if_neg hinside, h.toNat, h.split, List.drop_left,
    List.take_left' (rtStoreLe_length word 8), hword]

theorem At.getWord_one {kind : UInt8} (h : At buffer before (kind :: after) pos) :
    getWord buffer pos 1 = .ok kind.toUInt64.toInt64 := by
  have hlength := h.length
  rw [List.length_cons] at hlength
  have hinside : ¬ Bytes.Outside buffer pos (Int64.ofNat 1) := by
    have hpos := h.position
    rw [Bytes.outside_iff h.size (by decide), not_not,
      show (Int64.ofNat 1).toInt = 1 by decide]
    omega
  have hkind : rtLoadLe [kind] = kind.toUInt64 := by
    rw [← UInt64.toNat_inj, rtLoadLe_toNat (by simp)]
    simp
  rw [getWord, Bytes.getw, if_neg hinside, h.toNat, h.split, List.drop_left,
    List.take_succ_cons, List.take_zero, hkind]

theorem At.slice (h : At buffer before (middle ++ after) pos) {stop : Int64}
    (hstop : At buffer (before ++ middle) after stop) :
    slice buffer pos stop = .ok middle := by
  have hlength := hstop.length
  have hsize := h.size
  have hpos := h.position
  have hend := hstop.position
  rw [List.length_append] at hlength hend
  push_cast at hend
  have hrest : (stop - pos).toInt = middle.length := by
    have hfit : Fits ((before.length : ℤ) + middle.length - before.length) := by
      constructor <;> omega
    rw [toInt_sub hend hpos hfit]
    omega
  have hcount : (stop - pos).toNatClampNeg = middle.length := by
    have hclamp : (stop - pos).toNatClampNeg = (stop - pos).toInt.toNat := rfl
    rw [hclamp, hrest, Int.toNat_natCast]
  have hinside : ¬ (pos < 0 ∨ stop < pos ∨ Bytes.len buffer < stop) := by
    rw [lt_iff hpos Int64.toInt_zero, lt_iff hend hpos, lt_iff (Bytes.toInt_len hsize) hend]
    omega
  rw [Http2.slice, if_neg hinside, hcount, h.toNat, h.split, List.drop_left, List.take_left]

/-- A distance inside the buffer ends before what was taken. -/
theorem At.not_beyond (h : At buffer before after pos)
    (htaken : taken.toInt = buffer.length) : ¬ taken < pos := by
  have hlength := h.length
  rw [lt_iff htaken h.position]
  omega

theorem At.twoWords {a b : UInt64} (truncated : DrainError)
    (h : At buffer before (rtStoreLe a 8 ++ (rtStoreLe b 8 ++ after)) pos)
    (htaken : taken.toInt = buffer.length) :
    twoWords buffer taken pos truncated = .ok (a.toInt64, b.toInt64) ∧
      At buffer (before ++ (rtStoreLe a 8 ++ rtStoreLe b 8)) after (pos + 16) := by
  have hsecond : At buffer (before ++ rtStoreLe a 8) (rtStoreLe b 8 ++ after) (pos + 8) :=
    h.add (by rw [rtStoreLe_length]; rfl)
  have hend : At buffer (before ++ (rtStoreLe a 8 ++ rtStoreLe b 8)) after (pos + 16) := by
    rw [← List.append_assoc] at h
    exact h.add (by rw [List.length_append, rtStoreLe_length, rtStoreLe_length]; rfl)
  refine ⟨?_, hend⟩
  rw [Http2.twoWords, if_neg (hend.not_beyond htaken), h.getWord_eight, hsecond.getWord_eight]

theorem toInt_length (bytes : Bytes) (h : bytes.length < 2 ^ 63) :
    (UInt64.ofNat bytes.length).toInt64 = Int64.ofNat bytes.length ∧
      (Int64.ofNat bytes.length).toInt = bytes.length :=
  ⟨rfl, Bytes.toInt_ofNat_of_lt h⟩

/-- The kind byte in front of an event. -/
theorem At.kind {kind : UInt8} (h : At buffer before (kind :: after) pos)
    (htaken : taken.toInt = buffer.length) :
    ¬ taken < pos + 1 ∧ getWord buffer pos 1 = .ok kind.toUInt64.toInt64 ∧
      At buffer (before ++ [kind]) after (pos + 1) := by
  rw [← List.singleton_append] at h
  have hnext : At buffer (before ++ [kind]) after (pos + 1) := h.add rfl
  exact ⟨hnext.not_beyond htaken, At.getWord_one h, hnext⟩

theorem At.nextData {id : UInt64} {payload : Bytes}
    (h : At buffer before
      (rtStoreLe id 8 ++ (rtStoreLe (UInt64.ofNat payload.length) 8 ++ (payload ++ after))) pos)
    (htaken : taken.toInt = buffer.length) :
    ∃ pos', nextData buffer taken pos =
        .ok (.data id.toInt64 (Int64.ofNat payload.length) payload, pos') ∧
      At buffer (before ++ (rtStoreLe id 8 ++ rtStoreLe (UInt64.ofNat payload.length) 8) ++
        payload) after pos' := by
  obtain ⟨hwords, hbody⟩ := At.twoWords .truncatedData h htaken
  have hsize := h.size
  have hlength := hbody.length
  simp only [List.length_append] at hlength
  obtain ⟨hword, hint⟩ := toInt_length payload (by omega)
  have hstop := hbody.add hint
  refine ⟨_, ?_, hstop⟩
  have hfit : ¬ (Int64.ofNat payload.length < 0 ∨
      pos + 16 + Int64.ofNat payload.length < pos + 16 ∨
      taken < pos + 16 + Int64.ofNat payload.length) := by
    have hstopAt := hstop.position
    have hstopLength := hstop.length
    rw [List.length_append] at hstopAt
    push_cast at hstopAt
    rw [lt_iff hint Int64.toInt_zero, lt_iff hstopAt hbody.position, lt_iff htaken hstopAt]
    simp only [List.length_append] at hstopLength hstopAt ⊢
    omega
  rw [Http2.nextData, hwords]
  simp only [hword, if_neg hfit, hbody.slice hstop]

theorem At.nextHeader {id : UInt64} {name value : Bytes}
    (h : At buffer before
      (rtStoreLe id 8 ++ (rtStoreLe (UInt64.ofNat name.length) 8 ++
        (rtStoreLe (UInt64.ofNat value.length) 8 ++ (name ++ (value ++ after))))) pos)
    (htaken : taken.toInt = buffer.length) :
    ∃ pos', nextHeader buffer taken pos =
        .ok (BridgeEvent.arrival (.header id name value), pos') ∧
      At buffer (before ++ (rtStoreLe id 8 ++ (rtStoreLe (UInt64.ofNat name.length) 8 ++
        rtStoreLe (UInt64.ofNat value.length) 8)) ++ name ++ value) after pos' := by
  have hlength := h.length
  have hsize := h.size
  simp only [List.length_append, rtStoreLe_length] at hlength
  have hsecond : At buffer (before ++ rtStoreLe id 8) _ (pos + 8) :=
    h.add (by rw [rtStoreLe_length]; rfl)
  have hthird : At buffer (before ++ (rtStoreLe id 8 ++
      rtStoreLe (UInt64.ofNat name.length) 8))
      (rtStoreLe (UInt64.ofNat value.length) 8 ++ (name ++ (value ++ after))) (pos + 16) := by
    have h' := h
    rw [← List.append_assoc] at h'
    exact h'.add (by rw [List.length_append, rtStoreLe_length, rtStoreLe_length]; rfl)
  have hbody : At buffer (before ++ (rtStoreLe id 8 ++ (rtStoreLe (UInt64.ofNat name.length) 8 ++
      rtStoreLe (UInt64.ofNat value.length) 8))) (name ++ (value ++ after)) (pos + 24) := by
    have h' := h
    rw [← List.append_assoc, ← List.append_assoc] at h'
    rw [← List.append_assoc (rtStoreLe id 8)]
    refine h'.add ?_
    simp only [List.length_append, rtStoreLe_length]
    rfl
  obtain ⟨hnameWord, hnameInt⟩ := toInt_length name (by omega)
  obtain ⟨hvalueWord, hvalueInt⟩ := toInt_length value (by omega)
  have hname := hbody.add hnameInt
  have hvalue := hname.add hvalueInt
  refine ⟨_, ?_, hvalue⟩
  have hfit : ¬ (Int64.ofNat name.length < 0 ∨ Int64.ofNat value.length < 0 ∨
      pos + 24 + Int64.ofNat name.length < pos + 24 ∨
      pos + 24 + Int64.ofNat name.length + Int64.ofNat value.length <
        pos + 24 + Int64.ofNat name.length ∨
      taken < pos + 24 + Int64.ofNat name.length + Int64.ofNat value.length) := by
    have hbodyAt := hbody.position
    have hnameAt := hname.position
    have hvalueAt := hvalue.position
    have hvalueLength := hvalue.length
    rw [lt_iff hnameInt Int64.toInt_zero, lt_iff hvalueInt Int64.toInt_zero,
      lt_iff hnameAt hbodyAt, lt_iff hvalueAt hnameAt, lt_iff htaken hvalueAt]
    simp only [List.length_append] at hvalueLength ⊢
    omega
  rw [Http2.nextHeader, if_neg (hbody.not_beyond htaken), h.getWord_eight,
    hsecond.getWord_eight, hthird.getWord_eight]
  simp only [hnameWord, hvalueWord, if_neg hfit, hbody.slice hname, hname.slice hvalue]
  rfl

/-- An event of the bridge is read back where it stands. -/
theorem At.nextEvent {event : BridgeEvent} (h : At buffer before (event.bytes ++ after) pos)
    (htaken : taken.toInt = buffer.length) :
    ∃ pos', nextEvent buffer taken pos = .ok (event.arrival, pos') ∧
      At buffer (before ++ event.bytes) after pos' := by
  -- the events of two words
  have hfixed : ∀ (kind : UInt8) (a b : UInt64),
      At buffer before (event3 kind a b ++ after) pos →
      ¬ taken < pos + 1 ∧ getWord buffer pos 1 = .ok kind.toUInt64.toInt64 ∧
        (∀ truncated, Http2.twoWords buffer taken (pos + 1) truncated =
          .ok (a.toInt64, b.toInt64)) ∧
        At buffer (before ++ event3 kind a b) after (pos + 1 + 16) := by
    intro kind a b h
    rw [event3, List.cons_append, List.append_assoc] at h
    obtain ⟨hroom, hkind, hnext⟩ := h.kind htaken
    have hwords := fun truncated => At.twoWords truncated hnext htaken
    refine ⟨hroom, hkind, fun truncated => (hwords truncated).1, ?_⟩
    have hend := (hwords .truncatedEvent).2
    rwa [List.append_assoc] at hend
  cases event with
  | header id name value =>
    simp only [BridgeEvent.bytes, List.cons_append, List.append_assoc] at h
    obtain ⟨hroom, hkind, hnext⟩ := h.kind htaken
    obtain ⟨pos', hread, hend⟩ := hnext.nextHeader htaken
    refine ⟨pos', ?_, ?_⟩
    · rw [Http2.nextEvent, if_neg hroom, hkind]
      exact hread
    · simp only [BridgeEvent.bytes]
      simpa only [List.append_assoc, List.cons_append, List.nil_append] using hend
  | data id payload =>
    simp only [BridgeEvent.bytes, event3, List.cons_append, List.append_assoc] at h
    obtain ⟨hroom, hkind, hnext⟩ := h.kind htaken
    obtain ⟨pos', hread, hend⟩ := hnext.nextData htaken
    refine ⟨pos', ?_, ?_⟩
    · rw [Http2.nextEvent, if_neg hroom, hkind]
      exact hread
    · simp only [BridgeEvent.bytes, event3]
      simpa only [List.append_assoc, List.cons_append, List.nil_append] using hend
  | headersDone id endStream category =>
    obtain ⟨hroom, hkind, hwords, hend⟩ := hfixed _ _ _ h
    refine ⟨_, ?_, hend⟩
    rw [Http2.nextEvent, if_neg hroom, hkind]
    simp only [hwords]
    rfl
  | dataDone id =>
    obtain ⟨hroom, hkind, hwords, hend⟩ := hfixed _ _ _ h
    refine ⟨_, ?_, hend⟩
    rw [Http2.nextEvent, if_neg hroom, hkind]
    simp only [hwords]
    rfl
  | streamClosed id code =>
    obtain ⟨hroom, hkind, hwords, hend⟩ := hfixed _ _ _ h
    refine ⟨_, ?_, hend⟩
    rw [Http2.nextEvent, if_neg hroom, hkind]
    simp only [hwords]
    rfl
  | goaway last code =>
    obtain ⟨hroom, hkind, hwords, hend⟩ := hfixed _ _ _ h
    refine ⟨_, ?_, hend⟩
    rw [Http2.nextEvent, if_neg hroom, hkind]
    simp only [hwords]
    rfl
  | settingsAck =>
    obtain ⟨hroom, hkind, hwords, hend⟩ := hfixed _ _ _ h
    refine ⟨_, ?_, hend⟩
    rw [Http2.nextEvent, if_neg hroom, hkind]
    simp only [hwords]
    rfl

theorem event_bytes_pos (event : BridgeEvent) : 0 < event.bytes.length := by
  cases event <;> simp [BridgeEvent.bytes, event3]

end Reading

end Http2
end Beans
