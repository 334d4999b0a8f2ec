import Beans.Foundation.Incremental

/-!
# Keys from terminal bytes

A raw terminal delivers bytes.  A key decoder buffers them and answers a key as
soon as the buffer starts with the whole of its encoding; the start of an escape
sequence waits for the rest.  Each decoder below answers the key and the number
of bytes it consumes.  Integers are 64 bits wide and wrap.
-/

namespace Beans
namespace Term

/-- `Key`; `endKey` is the source's `end`. -/
inductive Key
  | char (codepoint : Int)
  | alt (codepoint : Int)
  | ctrl (letter : Int)
  | enter
  | tab
  | backspace
  | escape
  | up (mods : Int)
  | down (mods : Int)
  | left (mods : Int)
  | right (mods : Int)
  | home (mods : Int)
  | endKey (mods : Int)
  | pageUp (mods : Int)
  | pageDown (mods : Int)
  | insert (mods : Int)
  | delete (mods : Int)
  | function (number mods : Int)
  | unknown (last : Int)
  deriving DecidableEq, Repr

/-- The 64-bit integer that an operation leaves. -/
def wrap (z : Int) : Int := z.bmod (2 ^ 64)

/-- `self.buffer.get_u8(i)`. -/
def getU8 (buffer : List UInt8) (i : Nat) : Nat := (buffer.getD i 0).toNat

/-- The code point whose lead bits are `value`, with the bytes that follow. -/
def utf8Value (value : Int) (rest : List UInt8) : Int :=
  rest.foldl (fun value c => value * 64 + ((c.toNat : Int) - 128)) value

/-- A character of `length` bytes, if they are all there. -/
def takeUtf8 (buffer : List UInt8) (length : Nat) (value : Int) :
    Option (Key × Nat) :=
  if buffer.length < length then none
  else some (.char (utf8Value value ((buffer.drop 1).take (length - 1))),
    length)

/-- The lead byte tells how many bytes make the scalar. -/
def decodeUtf8 (buffer : List UInt8) : Option (Key × Nat) :=
  let b := getU8 buffer 0
  if b < 192 then some (.char b, 1)
  else if b < 224 then takeUtf8 buffer 2 (b - 192)
  else if b < 240 then takeUtf8 buffer 3 (b - 224)
  else takeUtf8 buffer 4 (b - 240)

def decodePlain (buffer : List UInt8) : Option (Key × Nat) :=
  let b := getU8 buffer 0
  if b = 13 ∨ b = 10 then some (.enter, 1)
  else if b = 9 then some (.tab, 1)
  else if b = 127 then some (.backspace, 1)
  else if b < 32 then some (.ctrl (b + 64), 1)
  else if b < 128 then some (.char b, 1)
  else decodeUtf8 buffer

/-- The `CSI n ~` family. -/
def tildeKey (p0 mods : Int) : Option Key :=
  if p0 = 1 then some (.home mods)
  else if p0 = 2 then some (.insert mods)
  else if p0 = 3 then some (.delete mods)
  else if p0 = 4 then some (.endKey mods)
  else if p0 = 5 then some (.pageUp mods)
  else if p0 = 6 then some (.pageDown mods)
  else if p0 = 7 then some (.home mods)
  else if p0 = 8 then some (.endKey mods)
  else if p0 = 11 then some (.function 1 mods)
  else if p0 = 12 then some (.function 2 mods)
  else if p0 = 13 then some (.function 3 mods)
  else if p0 = 14 then some (.function 4 mods)
  else if p0 = 15 then some (.function 5 mods)
  else if p0 = 17 then some (.function 6 mods)
  else if p0 = 18 then some (.function 7 mods)
  else if p0 = 19 then some (.function 8 mods)
  else if p0 = 20 then some (.function 9 mods)
  else if p0 = 21 then some (.function 10 mods)
  else if p0 = 23 then some (.function 11 mods)
  else if p0 = 24 then some (.function 12 mods)
  else none

/-- A CSI final byte and its parameters. -/
def mapCsi (last : Nat) (params : List Int) : Option Key :=
  let mods := match params with
    | _ :: m :: _ => max 0 (wrap (m - 1))
    | _ => 0
  if last = 65 then some (.up mods)
  else if last = 66 then some (.down mods)
  else if last = 67 then some (.right mods)
  else if last = 68 then some (.left mods)
  else if last = 72 then some (.home mods)
  else if last = 70 then some (.endKey mods)
  else if last = 126 then tildeKey (params.headD 0) mods
  else none

/-- The state of the loop that reads CSI parameters. -/
structure Params where
  params : List Int
  current : Int
  started : Bool
  deriving DecidableEq, Repr

/-- One byte of the parameters: a digit, a separator or something else. -/
def Params.read (p : Params) (c : UInt8) : Params :=
  if c.toNat ≥ 48 ∧ c.toNat ≤ 57 then
    ⟨p.params, wrap (wrap (p.current * 10) + ((c.toNat : Int) - 48)), true⟩
  else if c.toNat = 59 then ⟨p.params ++ [p.current], 0, false⟩
  else p

/-- The parameters between the opening and the final byte. -/
def csiParams (bytes : List UInt8) : List Int :=
  let p := bytes.foldl Params.read ⟨[], 0, false⟩
  if p.started then p.params ++ [p.current] else p.params

/-- The key of a complete CSI sequence, or the unknown one. -/
def finishCsi (buffer : List UInt8) (finalIndex : Nat) : Key × Nat :=
  let last := getU8 buffer finalIndex
  ((mapCsi last (csiParams ((buffer.take finalIndex).drop 2))).getD
    (.unknown last), finalIndex + 1)

/-- What the search for the final byte of a CSI sequence finds. -/
inductive CsiScan
  | arriving
  | malformed
  | final (index : Nat)
  deriving DecidableEq, Repr

/-- The search, from the byte at index `i` on. -/
def scanCsi (i : Nat) : List UInt8 → CsiScan
  | [] => .arriving
  | c :: l =>
    if c.toNat ≥ 64 ∧ c.toNat ≤ 126 then .final i
    else if c.toNat < 32 ∨ c.toNat > 126 then .malformed
    else scanCsi (i + 1) l

/-- A CSI sequence: still arriving, malformed or complete. -/
def decodeCsi (buffer : List UInt8) : Option (Key × Nat) :=
  match scanCsi 2 (buffer.drop 2) with
  | .arriving => none
  | .malformed => some (.escape, 1)
  | .final i => some (finishCsi buffer i)

/-- The key of an SS3 byte. -/
def ss3Key (c : Nat) : Key :=
  if c = 65 then .up 0
  else if c = 66 then .down 0
  else if c = 67 then .right 0
  else if c = 68 then .left 0
  else if c = 72 then .home 0
  else if c = 70 then .endKey 0
  else if c = 80 then .function 1 0
  else if c = 81 then .function 2 0
  else if c = 82 then .function 3 0
  else if c = 83 then .function 4 0
  else .unknown c

def decodeSs3 (buffer : List UInt8) : Option (Key × Nat) :=
  if buffer.length < 3 then none else some (ss3Key (getU8 buffer 2), 3)

/-- Escape and a printable byte are that key with Alt. -/
def decodeAlt (buffer : List UInt8) : Option (Key × Nat) :=
  let b1 := getU8 buffer 1
  if b1 ≥ 32 ∧ b1 < 127 then some (.alt b1, 2) else some (.escape, 1)

/-- The body of `next`, up to the bytes it consumes. -/
def decodeKey (buffer : List UInt8) : Option (Key × Nat) :=
  if buffer.length = 0 then none
  else if getU8 buffer 0 ≠ 27 then decodePlain buffer
  else if buffer.length = 1 then none
  else if getU8 buffer 1 = 91 then decodeCsi buffer
  else if getU8 buffer 1 = 79 then decodeSs3 buffer
  else decodeAlt buffer

/-- What has been fed and not yet decoded. -/
structure KeyDecoder where
  buffer : List UInt8
  deriving DecidableEq, Repr

namespace KeyDecoder

/-- `new KeyDecoder()`. -/
def init : KeyDecoder := ⟨[]⟩

def feed (d : KeyDecoder) (data : List UInt8) : KeyDecoder :=
  ⟨d.buffer ++ data⟩

def pending (d : KeyDecoder) : Nat := d.buffer.length

def consume (d : KeyDecoder) (count : Nat) : KeyDecoder :=
  ⟨d.buffer.drop count⟩

/-- The next key, if the buffer holds a whole one. -/
def next (d : KeyDecoder) : Option Key × KeyDecoder :=
  match decodeKey d.buffer with
  | none => (none, d)
  | some (key, count) => (some key, d.consume count)

/-- The same, but a lone escape is the key. -/
def flush (d : KeyDecoder) : Option Key × KeyDecoder :=
  match d.next with
  | (some key, d') => (some key, d')
  | (none, d') =>
    if d'.buffer.length > 0 ∧ getU8 d'.buffer 0 = 27 then
      (some .escape, d'.consume 1)
    else (none, d')

/-- The keys of at most `n` calls of `next`, up to the first that answers
none. -/
def nextUntilNone : Nat → KeyDecoder → List Key × KeyDecoder
  | 0, d => ([], d)
  | n + 1, d =>
    match d.next with
    | (none, d') => ([], d')
    | (some key, d') =>
      (key :: (nextUntilNone n d').1, (nextUntilNone n d').2)

/-- Reads arrive one after the other; `next` is called after each until it
answers none. -/
def reads : KeyDecoder → List (List UInt8) → List Key × KeyDecoder
  | d, [] => ([], d)
  | d, data :: more =>
    let r := nextUntilNone (d.feed data).pending (d.feed data)
    (r.1 ++ (reads r.2 more).1, (reads r.2 more).2)

end KeyDecoder

end Term
end Beans
