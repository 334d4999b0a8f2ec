import Beans.Runtime.Bytes
import Beans.Runtime.Text

/-!
# Fixed-width binary encoding

`std.encoding.binary` reads and writes integers of one, two, four and eight
bytes at a position of a buffer, in either byte order, appends them to its end,
and walks over it with a `Reader` and a `Writer`.  A panic of the underlying
buffer is `none`; what the package reports itself is an error.  Writing changes
the buffer, so it answers the buffer together with its result.
-/

namespace Beans
namespace Encoding
namespace Binary

inductive ByteOrder where
  | little
  | big
  | native
deriving DecidableEq, Repr

/-- `is_little` on a target whose own order is little-endian or not. -/
def ByteOrder.isLittle (targetLittle : Bool) : ByteOrder → Bool
  | .little => true
  | .big => false
  | .native => targetLittle

/-- The machine's byte swap on the low `width` bytes. -/
def bswap (width : ℕ) (value : UInt64) : UInt64 :=
  rtLoadLe (rtStoreLe value width).reverse

def swap16 (value : UInt64) : UInt64 := bswap 2 (value &&& 0xffff)

def swap32 (value : UInt64) : UInt64 := bswap 4 (value &&& 0xffffffff)

def swap64 (value : UInt64) : UInt64 := bswap 8 value

section Ranges

variable (data : Bytes) (pos width : Int64) (op : String)

/-- `"{op} of {width} bytes at {pos} is outside length {data.len()}"`. -/
def rangeMessage : Text :=
  ascii op ++ ascii " of " ++ Text.ofInt width.toInt ++ ascii " bytes at " ++
    Text.ofInt pos.toInt ++ ascii " is outside length " ++
    Text.ofInt (Bytes.len data).toInt

def checkRange : Result Bool :=
  if Bytes.Outside data pos width then err (rangeMessage data pos width op) "eof"
  else .ok true

def checkWriteRange : Result Bool :=
  if Bytes.Outside data pos width then
    err (rangeMessage data pos width op) "range"
  else .ok true

end Ranges

section Patterns

variable (targetLittle : Bool) (data : Bytes) (pos : Int64) (width : ℕ)
  (pattern : UInt64) (order : ByteOrder)

/-- Reads the little-endian pattern, then corrects for the order. -/
def readPattern : Option UInt64 :=
  if width = 1 then (Bytes.getw data pos 1).map Int64.toUInt64
  else if width = 2 then
    (Bytes.getw data pos 2).map fun v =>
      if order.isLittle targetLittle then v.toUInt64 else swap16 v.toUInt64
  else if width = 4 then
    (Bytes.getw data pos 4).map fun v =>
      if order.isLittle targetLittle then v.toUInt64 else swap32 v.toUInt64
  else
    (Bytes.getw data pos 8).map fun v =>
      if order.isLittle targetLittle then v.toUInt64 else swap64 v.toUInt64

/-- Writes the low `width` bytes of the pattern in the given order. -/
def writePattern : Option Bytes :=
  if width = 1 then Bytes.putw data pos 1 (pattern &&& 0xff).toInt64
  else if width = 2 then
    let wire := if order.isLittle targetLittle then pattern
      else swap16 (pattern &&& 0xffff)
    Bytes.putw data pos 2 (wire &&& 0xffff).toInt64
  else if width = 4 then
    let wire := if order.isLittle targetLittle then pattern
      else swap32 (pattern &&& 0xffffffff)
    Bytes.putw data pos 4 (wire &&& 0xffffffff).toInt64
  else
    let wire := if order.isLittle targetLittle then pattern else swap64 pattern
    Bytes.putw data pos 8 wire.toInt64

/-- The loop of `append_pattern`: one push an index, shifted as `shift` says. -/
def appendLoop (shift : ℕ → ℕ) : ℕ → Bytes → Bytes
  | 0, data => data
  | left + 1, data =>
    appendLoop shift left (Bytes.push data
      ((pattern >>> (shift (width - (left + 1)) * 8).toUInt64) &&&
        0xff).toInt64)

/-- Appends the low `width` bytes of the pattern in wire order. -/
def appendPattern : Bytes :=
  if order.isLittle targetLittle then
    appendLoop width pattern (fun index => index) width data
  else appendLoop width pattern (fun index => width - 1 - index) width data

end Patterns

section Fields

variable {α : Type} (data : Bytes) (pos : Int64) (width : ℕ) (op : String)

/-- A read: the range is checked before the buffer is touched. -/
def readField (get : Option α) : Option (Result α) :=
  match checkRange data pos (Int64.ofNat width) op with
  | .error e => some (.error e)
  | .ok _ => get.map .ok

/-- A write: the range is checked before the buffer is touched. -/
def writeField (put : Option Bytes) : Option (Bytes × Result Bool) :=
  match checkWriteRange data pos (Int64.ofNat width) op with
  | .error e => some (data, .error e)
  | .ok _ => put.map fun after => (after, .ok true)

end Fields

section Positional

variable (targetLittle : Bool) (data : Bytes) (pos : Int64) (order : ByteOrder)

def readU8 : Option (Result UInt8) :=
  readField data pos 1 "read_u8"
    ((Bytes.getw data pos 1).map fun v => v.toUInt64.toUInt8)

def readI8 : Option (Result Int8) :=
  readField data pos 1 "read_i8"
    ((Bytes.getw data pos 1).map fun v => v.toInt8)

def readU16 : Option (Result UInt16) :=
  readField data pos 2 "read_u16"
    ((readPattern targetLittle data pos 2 order).map UInt64.toUInt16)

def readI16 : Option (Result Int16) :=
  readField data pos 2 "read_i16"
    ((readPattern targetLittle data pos 2 order).map fun v =>
      v.toUInt16.toInt16)

def readU32 : Option (Result UInt32) :=
  readField data pos 4 "read_u32"
    ((readPattern targetLittle data pos 4 order).map UInt64.toUInt32)

def readI32 : Option (Result Int32) :=
  readField data pos 4 "read_i32"
    ((readPattern targetLittle data pos 4 order).map fun v =>
      v.toUInt32.toInt32)

def readU64 : Option (Result UInt64) :=
  readField data pos 8 "read_u64" (readPattern targetLittle data pos 8 order)

def readI64 : Option (Result Int64) :=
  readField data pos 8 "read_i64"
    ((readPattern targetLittle data pos 8 order).map UInt64.toInt64)

def writeU8 (value : UInt8) : Option (Bytes × Result Bool) :=
  writeField data pos 1 "write_u8"
    (writePattern targetLittle data pos 1 value.toUInt64 .little)

def writeI8 (value : Int8) : Option (Bytes × Result Bool) :=
  writeField data pos 1 "write_i8"
    (writePattern targetLittle data pos 1 value.toUInt8.toUInt64 .little)

def writeU16 (value : UInt16) : Option (Bytes × Result Bool) :=
  writeField data pos 2 "write_u16"
    (writePattern targetLittle data pos 2 value.toUInt64 order)

def writeI16 (value : Int16) : Option (Bytes × Result Bool) :=
  writeField data pos 2 "write_i16"
    (writePattern targetLittle data pos 2 value.toUInt16.toUInt64 order)

def writeU32 (value : UInt32) : Option (Bytes × Result Bool) :=
  writeField data pos 4 "write_u32"
    (writePattern targetLittle data pos 4 value.toUInt64 order)

def writeI32 (value : Int32) : Option (Bytes × Result Bool) :=
  writeField data pos 4 "write_i32"
    (writePattern targetLittle data pos 4 value.toUInt32.toUInt64 order)

def writeU64 (value : UInt64) : Option (Bytes × Result Bool) :=
  writeField data pos 8 "write_u64"
    (writePattern targetLittle data pos 8 value order)

def writeI64 (value : Int64) : Option (Bytes × Result Bool) :=
  writeField data pos 8 "write_i64"
    (writePattern targetLittle data pos 8 value.toUInt64 order)

end Positional

section Appends

variable (targetLittle : Bool) (data : Bytes) (order : ByteOrder)

def appendU8 (value : UInt8) : Bytes :=
  appendPattern targetLittle data 1 value.toUInt64 .little

def appendI8 (value : Int8) : Bytes :=
  appendPattern targetLittle data 1 value.toUInt8.toUInt64 .little

def appendU16 (value : UInt16) : Bytes :=
  appendPattern targetLittle data 2 value.toUInt64 order

def appendI16 (value : Int16) : Bytes :=
  appendPattern targetLittle data 2 value.toUInt16.toUInt64 order

def appendU32 (value : UInt32) : Bytes :=
  appendPattern targetLittle data 4 value.toUInt64 order

def appendI32 (value : Int32) : Bytes :=
  appendPattern targetLittle data 4 value.toUInt32.toUInt64 order

def appendU64 (value : UInt64) : Bytes :=
  appendPattern targetLittle data 8 value order

def appendI64 (value : Int64) : Bytes :=
  appendPattern targetLittle data 8 value.toUInt64 order

end Appends

/-- `Reader` and `Writer`: a position and the order of the words there. -/
structure Cursor where
  position : Int64
  order : ByteOrder
deriving DecidableEq

namespace Cursor

/-- A cursor moves on when the call it made succeeded. -/
def advance {α : Type} (self : Cursor) (width : Int64) :
    Result α → Cursor × Result α
  | .error e => (self, .error e)
  | .ok v => ({ self with position := self.position + width }, .ok v)

/-- A read of `width` bytes through a `Reader`. -/
def readWith {α : Type} (self : Cursor) (width : ℕ)
    (read : Option (Result α)) : Option (Cursor × Result α) :=
  read.map (self.advance (Int64.ofNat width))

/-- A write of `width` bytes through a `Writer`. -/
def writeWith (self : Cursor) (width : ℕ)
    (write : Option (Bytes × Result Bool)) :
    Option (Cursor × Bytes × Result Bool) :=
  write.map fun answer =>
    let moved := self.advance (Int64.ofNat width) answer.2
    (moved.1, answer.1, moved.2)

def skip (self : Cursor) (data : Bytes) (count : Int64) :
    Cursor × Result Bool :=
  if count < 0 then
    (self, err (ascii "skip of " ++ Text.ofInt count.toInt ++
      ascii " bytes is negative") "range")
  else self.advance count (checkRange data self.position count "skip")

variable (targetLittle : Bool) (self : Cursor) (data : Bytes)

def readU8 := self.readWith 1 (Binary.readU8 data self.position)

def readI8 := self.readWith 1 (Binary.readI8 data self.position)

def readU16 :=
  self.readWith 2 (Binary.readU16 targetLittle data self.position self.order)

def readI16 :=
  self.readWith 2 (Binary.readI16 targetLittle data self.position self.order)

def readU32 :=
  self.readWith 4 (Binary.readU32 targetLittle data self.position self.order)

def readI32 :=
  self.readWith 4 (Binary.readI32 targetLittle data self.position self.order)

def readU64 :=
  self.readWith 8 (Binary.readU64 targetLittle data self.position self.order)

def readI64 :=
  self.readWith 8 (Binary.readI64 targetLittle data self.position self.order)

def writeU8 (value : UInt8) :=
  self.writeWith 1 (Binary.writeU8 targetLittle data self.position value)

def writeI8 (value : Int8) :=
  self.writeWith 1 (Binary.writeI8 targetLittle data self.position value)

def writeU16 (value : UInt16) :=
  self.writeWith 2
    (Binary.writeU16 targetLittle data self.position self.order value)

def writeI16 (value : Int16) :=
  self.writeWith 2
    (Binary.writeI16 targetLittle data self.position self.order value)

def writeU32 (value : UInt32) :=
  self.writeWith 4
    (Binary.writeU32 targetLittle data self.position self.order value)

def writeI32 (value : Int32) :=
  self.writeWith 4
    (Binary.writeI32 targetLittle data self.position self.order value)

def writeU64 (value : UInt64) :=
  self.writeWith 8
    (Binary.writeU64 targetLittle data self.position self.order value)

def writeI64 (value : Int64) :=
  self.writeWith 8
    (Binary.writeI64 targetLittle data self.position self.order value)

end Cursor

end Binary
end Encoding
end Beans
