import Beans.Encoding.BinaryWire

/-!
# The binary codec is one wire format

What was written at a position or appended is what is read there, for each
width, sign and byte order; a call that fails changes neither the buffer nor
the position of a cursor.

**Results.**
* `binary_codec`: the codec over every kind of field, buffer, position, order and value, the
  refused calls included.
-/

namespace Beans
namespace Encoding
namespace Binary

open SignedWords

/-- The fields the codec knows, in width and sign. -/
inductive Kind where
  | u8
  | i8
  | u16
  | i16
  | u32
  | i32
  | u64
  | i64
deriving DecidableEq, Repr

namespace Kind

abbrev Value : Kind → Type
  | u8 => UInt8
  | i8 => Int8
  | u16 => UInt16
  | i16 => Int16
  | u32 => UInt32
  | i32 => Int32
  | u64 => UInt64
  | i64 => Int64

def width : Kind → ℕ
  | u8 | i8 => 1
  | u16 | i16 => 2
  | u32 | i32 => 4
  | u64 | i64 => 8

/-- The value zero-extended to a word. -/
def pattern : (k : Kind) → k.Value → UInt64
  | u8, v => v.toUInt64
  | i8, v => v.toUInt8.toUInt64
  | u16, v => v.toUInt64
  | i16, v => v.toUInt16.toUInt64
  | u32, v => v.toUInt64
  | i32, v => v.toUInt32.toUInt64
  | u64, v => v
  | i64, v => v.toUInt64

/-- The casts a read ends in. -/
def ofPattern : (k : Kind) → UInt64 → k.Value
  | u8, p => p.toUInt8
  | i8, p => p.toInt64.toInt8
  | u16, p => p.toUInt16
  | i16, p => p.toUInt16.toInt16
  | u32, p => p.toUInt32
  | i32, p => p.toUInt32.toInt32
  | u64, p => p
  | i64, p => p.toInt64

/-- One byte has no order; its calls name the little-endian one. -/
def order : Kind → ByteOrder → ByteOrder
  | u8, _ | i8, _ => .little
  | _, o => o

section Calls

variable (targetLittle : Bool)

/-- One function of the source for each kind; bytes have no order. -/
def read : (k : Kind) → Bytes → Int64 → ByteOrder → Option (Result k.Value)
  | u8, data, pos, _ => readU8 data pos
  | i8, data, pos, _ => readI8 data pos
  | u16, data, pos, o => readU16 targetLittle data pos o
  | i16, data, pos, o => readI16 targetLittle data pos o
  | u32, data, pos, o => readU32 targetLittle data pos o
  | i32, data, pos, o => readI32 targetLittle data pos o
  | u64, data, pos, o => readU64 targetLittle data pos o
  | i64, data, pos, o => readI64 targetLittle data pos o

def write : (k : Kind) → Bytes → Int64 → ByteOrder → k.Value →
    Option (Bytes × Result Bool)
  | u8, data, pos, _, v => writeU8 targetLittle data pos v
  | i8, data, pos, _, v => writeI8 targetLittle data pos v
  | u16, data, pos, o, v => writeU16 targetLittle data pos o v
  | i16, data, pos, o, v => writeI16 targetLittle data pos o v
  | u32, data, pos, o, v => writeU32 targetLittle data pos o v
  | i32, data, pos, o, v => writeI32 targetLittle data pos o v
  | u64, data, pos, o, v => writeU64 targetLittle data pos o v
  | i64, data, pos, o, v => writeI64 targetLittle data pos o v

def append : (k : Kind) → Bytes → ByteOrder → k.Value → Bytes
  | u8, data, _, v => appendU8 targetLittle data v
  | i8, data, _, v => appendI8 targetLittle data v
  | u16, data, o, v => appendU16 targetLittle data o v
  | i16, data, o, v => appendI16 targetLittle data o v
  | u32, data, o, v => appendU32 targetLittle data o v
  | i32, data, o, v => appendI32 targetLittle data o v
  | u64, data, o, v => appendU64 targetLittle data o v
  | i64, data, o, v => appendI64 targetLittle data o v

def readerRead : (k : Kind) → Cursor → Bytes →
    Option (Cursor × Result k.Value)
  | u8, c, data => c.readU8 data
  | i8, c, data => c.readI8 data
  | u16, c, data => c.readU16 targetLittle data
  | i16, c, data => c.readI16 targetLittle data
  | u32, c, data => c.readU32 targetLittle data
  | i32, c, data => c.readI32 targetLittle data
  | u64, c, data => c.readU64 targetLittle data
  | i64, c, data => c.readI64 targetLittle data

def writerWrite : (k : Kind) → Cursor → Bytes → k.Value →
    Option (Cursor × Bytes × Result Bool)
  | u8, c, data, v => c.writeU8 targetLittle data v
  | i8, c, data, v => c.writeI8 targetLittle data v
  | u16, c, data, v => c.writeU16 targetLittle data v
  | i16, c, data, v => c.writeI16 targetLittle data v
  | u32, c, data, v => c.writeU32 targetLittle data v
  | i32, c, data, v => c.writeI32 targetLittle data v
  | u64, c, data, v => c.writeU64 targetLittle data v
  | i64, c, data, v => c.writeI64 targetLittle data v

end Calls

def readName : Kind → String
  | u8 => "read_u8"
  | i8 => "read_i8"
  | u16 => "read_u16"
  | i16 => "read_i16"
  | u32 => "read_u32"
  | i32 => "read_i32"
  | u64 => "read_u64"
  | i64 => "read_i64"

def writeName : Kind → String
  | u8 => "write_u8"
  | i8 => "write_i8"
  | u16 => "write_u16"
  | i16 => "write_i16"
  | u32 => "write_u32"
  | i32 => "write_i32"
  | u64 => "write_u64"
  | i64 => "write_i64"

variable {targetLittle : Bool} {o : ByteOrder} {data : Bytes} {pos : Int64}

theorem isWidth (k : Kind) : IsWidth k.width := by
  cases k <;> simp [width, IsWidth]

theorem pattern_lt (k : Kind) (v : k.Value) :
    (k.pattern v).toNat < 256 ^ k.width := by
  cases k with
  | u8 => exact v.toNat_lt
  | i8 => exact v.toUInt8.toNat_lt
  | u16 => exact v.toNat_lt
  | i16 => exact v.toUInt16.toNat_lt
  | u32 => exact v.toNat_lt
  | i32 => exact v.toUInt32.toNat_lt
  | u64 => exact v.toNat_lt
  | i64 => exact v.toUInt64.toNat_lt

/-- The narrowing casts undo the extension. -/
@[simp] theorem ofPattern_pattern (k : Kind) (v : k.Value) :
    k.ofPattern (k.pattern v) = v := by
  cases k with
  | i8 =>
    refine Int8.toBitVec_inj.mp ?_
    simp [ofPattern, pattern, BitVec.signExtend_eq_setWidth_of_le]
  | _ => simp [ofPattern, pattern]

theorem read_eq (k : Kind) :
    k.read targetLittle data pos o =
      readField data pos k.width k.readName
        ((readPattern targetLittle data pos k.width (k.order o)).map
          k.ofPattern) := by
  cases k with
  | u8 | i8 =>
    simp [read, readU8, readI8, readPattern, width, readName, ofPattern,
      Function.comp_def]
  | u64 => exact congrArg (readField data pos 8 "read_u64") Option.map_id'.symm
  | _ => rfl

theorem write_eq (k : Kind) (v : k.Value) :
    k.write targetLittle data pos o v =
      writeField data pos k.width k.writeName
        (writePattern targetLittle data pos k.width (k.pattern v)
          (k.order o)) := by
  cases k <;> rfl

theorem append_eq (k : Kind) (v : k.Value) :
    k.append targetLittle data o v =
      appendPattern targetLittle data k.width (k.pattern v)
        (k.order o) := by
  cases k <;> rfl

theorem readerRead_eq (k : Kind) (c : Cursor) :
    k.readerRead targetLittle c data =
      c.readWith k.width (k.read targetLittle data c.position c.order) := by
  cases k <;> rfl

theorem writerWrite_eq (k : Kind) (c : Cursor) (v : k.Value) :
    k.writerWrite targetLittle c data v =
      c.writeWith k.width
        (k.write targetLittle data c.position c.order v) := by
  cases k <;> rfl

/-- A value is read where its bytes stand in wire order. -/
theorem read_of_wire (k : Kind)
    (hdata : data.length < 2 ^ 63)
    (h : Inside data pos k.width)
    {v : k.Value}
    (hwire : (data.drop pos.toNatClampNeg).take k.width =
      wire targetLittle (k.order o) k.width (k.pattern v)) :
    k.read targetLittle data pos o = some (.ok v) := by
  have hrange : checkRange data pos (Int64.ofNat k.width) k.readName =
      .ok true :=
    if_neg (fun hout => (outside_iff hdata k.isWidth).mp hout h)
  rw [read_eq, readPattern_wire hdata k.isWidth h (k.pattern_lt v) hwire,
    Option.map_some, ofPattern_pattern, readField, hrange]
  rfl

theorem write_inside (k : Kind)
    (hdata : data.length < 2 ^ 63)
    (h : Inside data pos k.width)
    (v : k.Value) :
    k.write targetLittle data pos o v =
      some (data.take pos.toNatClampNeg ++
        wire targetLittle (k.order o) k.width (k.pattern v) ++
        data.drop (pos.toNatClampNeg + k.width), .ok true) := by
  have hrange : checkWriteRange data pos (Int64.ofNat k.width) k.writeName =
      .ok true :=
    if_neg (fun hout => (outside_iff hdata k.isWidth).mp hout h)
  rw [write_eq, writePattern_inside hdata k.isWidth h, writeField, hrange]
  rfl

theorem write_outside (k : Kind)
    (hdata : data.length < 2 ^ 63)
    (h : ¬ Inside data pos k.width)
    (v : k.Value) :
    ∃ e : BeansError, k.write targetLittle data pos o v =
      some (data, .error e) ∧ e.kind = ascii "range" := by
  have hout := (outside_iff hdata k.isWidth).mpr h
  rw [write_eq, writeField, checkWriteRange, if_pos hout]
  exact ⟨_, rfl, rfl⟩

theorem append_wire (k : Kind) (v : k.Value) :
    k.append targetLittle data o v =
      data ++ wire targetLittle (k.order o) k.width (k.pattern v) := by
  rw [append_eq, appendPattern_eq k.isWidth]

end Kind

/-- What a positional write does: inside the buffer the field becomes the bytes
that an append pushes, is read back and leaves the rest alone; outside nothing
changes. -/
structure WritesField (targetLittle : Bool) (k : Kind) (data : Bytes)
    (pos : Int64) (o : ByteOrder) (v : k.Value) : Prop where
  inside : Inside data pos k.width → ∃ after,
    k.write targetLittle data pos o v = some (after, .ok true) ∧
    k.read targetLittle after pos o = some (.ok v) ∧
    after.length = data.length ∧
    (∀ i : ℕ, (i : ℤ) < pos.toInt ∨ pos.toInt + k.width ≤ i →
      after[i]? = data[i]?) ∧
    k.append targetLittle data o v =
      data ++ (after.drop pos.toNatClampNeg).take k.width
  outside : ¬ Inside data pos k.width → ∃ e : BeansError,
    k.write targetLittle data pos o v = some (data, .error e) ∧
    e.kind = ascii "range"

/-- A write outside of the buffer is refused, and one inside is read back. -/
theorem writesField (targetLittle : Bool) (k : Kind) {data : Bytes}
    (hdata : data.length < 2 ^ 63) (pos : Int64) (o : ByteOrder) (v : k.Value) :
    WritesField targetLittle k data pos o v where
  outside h := k.write_outside hdata h v
  inside h := by
    obtain ⟨hpos, hlast⟩ := h.toNat
    obtain ⟨p, hp⟩ : ∃ p, p = pos.toNatClampNeg := ⟨_, rfl⟩
    obtain ⟨w, hw⟩ : ∃ w, w = wire targetLittle (k.order o) k.width
      (k.pattern v) := ⟨_, rfl⟩
    have hwrite : k.write targetLittle data pos o v = _ :=
      k.write_inside hdata h v
    rw [← hp, ← hw] at hwrite
    rw [← hp] at hpos hlast
    have hwlen : w.length = k.width := by rw [hw, wire_length]
    have hhead : (data.take p).length = p := by
      rw [List.length_take]
      omega
    have hlen : (data.take p ++ w ++ data.drop (p + k.width)).length =
        data.length := by
      rw [List.length_append, List.length_append, hhead, hwlen,
        List.length_drop]
      omega
    have hfield : ((data.take p ++ w ++ data.drop (p + k.width)).drop p).take
        k.width = w := by
      rw [List.append_assoc, List.drop_left' hhead, List.take_left' hwlen]
    refine ⟨_, hwrite, ?_, hlen, ?_, ?_⟩
    · refine k.read_of_wire (hlen.trans_lt hdata) ?_ ?_
      · rw [Inside, hlen]
        exact h
      · rw [← hp, ← hw, hfield]
    · rintro i (hi | hi)
      · rw [List.append_assoc, List.getElem?_append_left (by omega),
          List.getElem?_take_of_lt (by omega)]
      · rw [List.getElem?_append_right (by
            rw [List.length_append, hhead, hwlen]
            omega),
          List.length_append, hhead, hwlen, List.getElem?_drop]
        congr 1
        omega
    · rw [k.append_wire, ← hw, ← hp, hfield]

/-- A value with the kind it is encoded as. -/
abbrev Field := (k : Kind) × k.Value

def appendAll (targetLittle : Bool) (o : ByteOrder) :
    Bytes → List Field → Bytes
  | data, [] => data
  | data, f :: fs =>
    appendAll targetLittle o (f.1.append targetLittle data o f.2) fs

/-- Reads one field after the other; the first failure ends it. -/
def readAll (targetLittle : Bool) (data : Bytes) :
    List Kind → Cursor → Option (Cursor × Result (List Field))
  | [], c => some (c, .ok [])
  | k :: ks, c =>
    match k.readerRead targetLittle c data with
    | none => none
    | some (c, .error e) => some (c, .error e)
    | some (c, .ok v) =>
      (readAll targetLittle data ks c).map fun answer =>
        (answer.1, answer.2.map (Sigma.mk k v :: ·))

/-- The bytes of a list of fields. -/
def encoded (targetLittle : Bool) (o : ByteOrder) (fields : List Field) :
    Bytes :=
  fields.flatMap fun f =>
    wire targetLittle (f.1.order o) f.1.width (f.1.pattern f.2)

theorem encoded_cons (targetLittle : Bool) (o : ByteOrder) (f : Field) (fs : List Field) :
    encoded targetLittle o (f :: fs) =
      wire targetLittle (f.1.order o) f.1.width (f.1.pattern f.2) ++
        encoded targetLittle o fs :=
  List.flatMap_cons ..

theorem appendAll_eq (targetLittle : Bool) (o : ByteOrder) (data : Bytes)
    (fields : List Field) :
    appendAll targetLittle o data fields =
      data ++ encoded targetLittle o fields := by
  induction fields generalizing data with
  | nil => exact (List.append_nil data).symm
  | cons f fs ih =>
    rw [appendAll, ih, f.1.append_wire, encoded_cons, List.append_assoc]

theorem ofNat_add_ofNat (m n : ℕ) :
    Int64.ofNat m + Int64.ofNat n = Int64.ofNat (m + n) :=
  (Int64.ofNat_add m n).symm

variable {n : ℕ} {c c' : Cursor} {e : BeansError} {k : Kind}

/-- One read of a field that stands at the cursor. -/
theorem readerRead_of_drop {targetLittle : Bool} {o : ByteOrder} {data rest : Bytes}
    (hdata : data.length < 2 ^ 63) (f : Field) (hn : n ≤ data.length)
    (h : data.drop n =
      wire targetLittle (f.1.order o) f.1.width (f.1.pattern f.2) ++ rest) :
    f.1.readerRead targetLittle ⟨Int64.ofNat n, o⟩ data =
      some (⟨Int64.ofNat (n + f.1.width), o⟩, .ok f.2) := by
  have hlen := congrArg List.length h
  rw [List.length_drop, List.length_append, wire_length] at hlen
  have hint : (Int64.ofNat n).toInt = n := Bytes.toInt_ofNat_of_lt (by omega)
  have hnat : (Int64.ofNat n).toNatClampNeg = n := by
    show (Int64.ofNat n).toInt.toNat = n
    rw [hint]
    rfl
  have hread : f.1.read targetLittle data (Int64.ofNat n) o =
      some (.ok f.2) := f.1.read_of_wire hdata
    (by rw [Inside, hint]; omega)
    (by rw [hnat, h, List.take_left' (wire_length _)])
  rw [f.1.readerRead_eq, Cursor.readWith, hread]
  show some (Cursor.mk (Int64.ofNat n + Int64.ofNat f.1.width) o, _) = _
  rw [ofNat_add_ofNat]

theorem readAll_of_drop {targetLittle : Bool} {o : ByteOrder} {data rest : Bytes}
    (hdata : data.length < 2 ^ 63) (fields : List Field) (hn : n ≤ data.length)
    (h : data.drop n = encoded targetLittle o fields ++ rest) :
    readAll targetLittle data (fields.map Sigma.fst) ⟨Int64.ofNat n, o⟩ =
      some (⟨Int64.ofNat (n + (encoded targetLittle o fields).length), o⟩,
        .ok fields) := by
  induction fields generalizing n with
  | nil => rfl
  | cons f fs ih =>
    rw [encoded_cons, List.append_assoc] at h
    have hlen := congrArg List.length h
    rw [List.length_drop, List.length_append, wire_length] at hlen
    have hnext : data.drop (n + f.1.width) =
        encoded targetLittle o fs ++ rest := by
      rw [← List.drop_drop, h, List.drop_left' (wire_length _)]
    rw [List.map_cons, readAll, readerRead_of_drop hdata f hn h]
    dsimp only
    rw [ih (by omega) hnext, Option.map_some, encoded_cons,
      List.length_append, wire_length, Nat.add_assoc]
    rfl

theorem Cursor.advance_error {α : Type} {width : Int64} {r : Result α}
    (h : c.advance width r = (c', .error e)) :
    c' = c ∧ r = .error e := by
  cases r with
  | error e' =>
    cases h
    exact ⟨rfl, rfl⟩
  | ok v => exact absurd (Prod.ext_iff.mp h).2 (fun hno => by cases hno)

theorem readerRead_error {targetLittle : Bool} {data : Bytes}
    (h : k.readerRead targetLittle c data = some (c', .error e)) :
    c' = c := by
  rw [k.readerRead_eq, Cursor.readWith] at h
  obtain ⟨r, -, hr⟩ := Option.map_eq_some_iff.mp h
  exact (Cursor.advance_error hr).1

theorem writeField_error {data data' : Bytes} {pos : Int64} {width : ℕ} {op : String}
    {put : Option Bytes} (h : writeField data pos width op put = some (data', .error e)) :
    data' = data := by
  unfold writeField at h
  split at h
  · cases h
    rfl
  · obtain ⟨after, -, hafter⟩ := Option.map_eq_some_iff.mp h
    cases hafter

theorem writerWrite_error {targetLittle : Bool} {data data' : Bytes} {v : k.Value}
    (h : k.writerWrite targetLittle c data v = some (c', data', .error e)) :
    c' = c ∧ data' = data := by
  rw [k.writerWrite_eq, Cursor.writeWith] at h
  obtain ⟨⟨after, r⟩, hwrite, hr⟩ := Option.map_eq_some_iff.mp h
  rw [Prod.mk.injEq, Prod.mk.injEq] at hr
  obtain ⟨hc, rfl, hres⟩ := hr
  have hadvance : c.advance (Int64.ofNat k.width) r = (c', .error e) :=
    Prod.ext hc hres
  obtain ⟨hsame, hrerr⟩ := Cursor.advance_error hadvance
  rw [hrerr, k.write_eq] at hwrite
  exact ⟨hsame, writeField_error hwrite⟩

theorem skip_error {data : Bytes} {count : Int64} (h : c.skip data count = (c', .error e)) :
    c' = c := by
  unfold Cursor.skip at h
  split_ifs at h
  · cases h
    rfl
  · exact (Cursor.advance_error h).1

/-- The codec over every kind of field, buffer, position, order and value. -/
theorem binary_codec (targetLittle : Bool) :
    (∀ (k : Kind) (data : Bytes), data.length < 2 ^ 63 →
      ∀ (pos : Int64) (o : ByteOrder) (v : k.Value),
        WritesField targetLittle k data pos o v) ∧
    (∀ (o : ByteOrder) (before after : Bytes) (fields : List Field),
      (appendAll targetLittle o before fields ++ after).length < 2 ^ 63 →
      readAll targetLittle (appendAll targetLittle o before fields ++ after)
          (fields.map Sigma.fst) ⟨Int64.ofNat before.length, o⟩ =
        some (⟨Int64.ofNat (appendAll targetLittle o before fields).length, o⟩,
          .ok fields)) ∧
    (∀ (k : Kind) (c c' : Cursor) (data : Bytes) (e : BeansError),
      k.readerRead targetLittle c data = some (c', .error e) → c' = c) ∧
    (∀ (k : Kind) (c c' : Cursor) (data data' : Bytes) (v : k.Value)
      (e : BeansError),
      k.writerWrite targetLittle c data v = some (c', data', .error e) →
        c' = c ∧ data' = data) ∧
    (∀ (c c' : Cursor) (data : Bytes) (count : Int64) (e : BeansError),
      c.skip data count = (c', .error e) → c' = c) := by
  refine ⟨fun k data hdata => writesField targetLittle k hdata, ?_,
    fun _ _ _ _ _ => readerRead_error, fun _ _ _ _ _ _ _ => writerWrite_error,
    fun _ _ _ _ _ => skip_error⟩
  intro o before after fields hlen
  have hsum := appendAll_eq targetLittle o before fields
  have hdrop : (appendAll targetLittle o before fields ++ after).drop
      before.length = encoded targetLittle o fields ++ after := by
    rw [hsum, List.append_assoc, List.drop_left]
  have hread := readAll_of_drop hlen fields
    (by rw [hsum, List.length_append, List.length_append]; omega) hdrop
  rw [hread, hsum, List.length_append]

/-- A word written and read back, a write before the buffer, and a mixed sequence of reads. -/
theorem binary_codec_bigWord :
    (∃ after, writeU16 true [1, 2, 3, 4] 1 .big 0x0a0b = some (after, .ok true) ∧
        readU16 true after 1 .big = some (.ok 0x0a0b)) ∧
      (∃ e : BeansError,
        writeI64 true [1, 2, 3, 4] (-1) .little 5 = some ([1, 2, 3, 4], .error e) ∧
          e.kind = ascii "range") ∧
      readAll true [0xfe, 0xff, 0x07] [.i16, .u8] ⟨0, .little⟩ =
        some (⟨3, .little⟩, .ok [⟨.i16, -2⟩, ⟨.u8, 7⟩]) := by
  have hfields := (binary_codec true).2.1 .little [] []
    [⟨.i16, -2⟩, ⟨.u8, 7⟩] (by decide)
  obtain ⟨after, hwrite, hread, -⟩ :=
    ((binary_codec true).1 .u16 [1, 2, 3, 4] (by decide) 1 .big 0x0a0b).inside
      ⟨by decide, by decide⟩
  exact ⟨⟨after, hwrite, hread⟩,
    ((binary_codec true).1 .i64 [1, 2, 3, 4] (by decide) (-1) .little 5).outside
      (fun h => absurd h.1 (by decide)),
    hfields⟩

end Binary
end Encoding
end Beans
