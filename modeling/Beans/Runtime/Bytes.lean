import Beans.Foundation.LittleEndian
import Beans.Foundation.Words

/-!
# Byte buffers

A `Bytes` is the list of its bytes.  Words are loaded from it and stored into
it with the least significant byte first, whatever the machine's own order is.
An access outside the buffer panics; the operations answer `none` there.
-/

namespace Beans

abbrev Bytes := List UInt8

/-- `rt_load_le` from byte `i` on, over what the bytes before it gave. -/
def rtLoadLeFrom (i : ℕ) (value : UInt64) : Bytes → UInt64
  | [] => value
  | b :: bs =>
    rtLoadLeFrom (i + 1) (value ||| b.toUInt64 <<< (i * 8).toUInt64) bs

def rtLoadLe (source : Bytes) : UInt64 :=
  rtLoadLeFrom 0 0 source

/-- The bytes `rt_store_le` writes. -/
def rtStoreLe (value : UInt64) (width : ℕ) : Bytes :=
  (List.range width).map fun i => (value >>> (i * 8).toUInt64).toUInt8

namespace Bytes

def len (data : Bytes) : Int64 :=
  Int64.ofNat data.length

/-- The test in front of every access to a word. -/
def Outside (data : Bytes) (pos width : Int64) : Prop :=
  pos < 0 ∨ width > len data ∨ pos > len data - width

instance (data : Bytes) (pos width : Int64) : Decidable (Outside data pos width) :=
  inferInstanceAs (Decidable (_ ∨ _))

/-- `bytes_getw`. -/
def getw (data : Bytes) (pos : Int64) (width : ℕ) : Option Int64 :=
  if Outside data pos (Int64.ofNat width) then none
  else
    some (rtLoadLe ((data.drop pos.toNatClampNeg).take width)).toInt64

/-- `bytes_putw`: the buffer after the store. -/
def putw (data : Bytes) (pos : Int64) (width : ℕ) (value : Int64) :
    Option Bytes :=
  if Outside data pos (Int64.ofNat width) then none
  else
    some (data.take pos.toNatClampNeg ++ rtStoreLe value.toUInt64 width ++
      data.drop (pos.toNatClampNeg + width))

/-- `beans_bytes_push`. -/
def push (data : Bytes) (value : Int64) : Bytes :=
  data ++ [value.toUInt64.toUInt8]

end Bytes

theorem toNat_shift_of_lt {i : ℕ} (h : i < 8) :
    ((i * 8).toUInt64).toNat % 64 = i * 8 := by
  have hsmall : (i * 8).toUInt64.toNat = i * 8 :=
    UInt64.toNat_ofNat_of_lt' (by
      have : UInt64.size = 2 ^ 64 := rfl
      omega)
  omega

theorem pow_bytes (i : ℕ) : (256 : ℕ) ^ i = 2 ^ (i * 8) := by
  rw [mul_comm, pow_mul]
  norm_num

theorem rtLoadLeFrom_toNat {i : ℕ} {value : UInt64} {bs : Bytes}
    (hvalue : value.toNat < 256 ^ i) (hlen : i + bs.length ≤ 8) :
    (rtLoadLeFrom i value bs).toNat =
      value.toNat + 256 ^ i * LittleEndian.value bs := by
  induction bs generalizing i value with
  | nil => rw [rtLoadLeFrom, LittleEndian.value_nil, mul_zero, add_zero]
  | cons b bs ih =>
    rw [List.length_cons] at hlen
    have hb := b.toNat_lt
    have hpow := pow_bytes i
    have hnext : (256 : ℕ) ^ (i + 1) = 256 ^ i * 256 := pow_succ 256 i
    have htop : (256 : ℕ) ^ (i + 1) ≤ 256 ^ 8 :=
      Nat.pow_le_pow_right (by decide) (by omega)
    have hshift : (b.toUInt64 <<< (i * 8).toUInt64).toNat =
        256 ^ i * b.toNat := by
      rw [UInt64.toNat_shiftLeft, toNat_shift_of_lt (by omega),
        Nat.shiftLeft_eq, UInt8.toNat_toUInt64, hpow, mul_comm,
        Nat.mod_eq_of_lt]
      rw [← hpow]
      nlinarith
    have hor : (value ||| b.toUInt64 <<< (i * 8).toUInt64).toNat =
        value.toNat + 256 ^ i * b.toNat := by
      rw [UInt64.or_comm, Words.toNat_or_of_lt (k := i * 8)
        (by rw [hshift, hpow]; exact dvd_mul_right _ _)
        (by rw [← hpow]; exact hvalue), hshift, add_comm]
    rw [rtLoadLeFrom, ih (by rw [hor]; nlinarith) (by omega), hor,
      LittleEndian.value_cons, hnext]
    ring

/-- A load is the number the bytes stand for. -/
theorem rtLoadLe_toNat {bs : Bytes} (h : bs.length ≤ 8) :
    (rtLoadLe bs).toNat = LittleEndian.value bs := by
  rw [rtLoadLe, rtLoadLeFrom_toNat (by decide) (by omega), UInt64.toNat_zero,
    pow_zero]
  omega

/-- A store is the number cut into bytes. -/
theorem rtStoreLe_eq (value : UInt64) {width : ℕ} (h : width ≤ 8) :
    rtStoreLe value width = LittleEndian.bytes width value.toNat := by
  rw [rtStoreLe, LittleEndian.bytes_eq_map]
  refine List.map_congr_left fun i hi => ?_
  have hi' := List.mem_range.mp hi
  have hpow := pow_bytes i
  rw [← UInt8.toNat_inj, UInt64.toNat_toUInt8, UInt64.toNat_shiftRight,
    toNat_shift_of_lt (by omega), Nat.shiftRight_eq_div_pow, ← hpow]
  exact UInt8.toNat_ofNat'.symm

@[simp] theorem rtStoreLe_length (value : UInt64) (width : ℕ) :
    (rtStoreLe value width).length = width := by
  rw [rtStoreLe, List.length_map, List.length_range]

/-- A word comes back from the bytes it was stored in. -/
theorem rtLoadLe_rtStoreLe (value : UInt64) {width : ℕ} (h : width ≤ 8) :
    (rtLoadLe (rtStoreLe value width)).toNat = value.toNat % 256 ^ width := by
  rw [rtLoadLe_toNat (by rw [rtStoreLe_length]; exact h), rtStoreLe_eq value h,
    LittleEndian.value_bytes]

namespace Bytes

open SignedWords

variable {data : Bytes}

theorem toInt_ofNat_of_lt {n : ℕ} (h : n < 2 ^ 63) :
    (Int64.ofNat n).toInt = n := by
  have hsize : (Int64.size : ℤ) = 2 ^ 64 := rfl
  rw [Int64.toInt_ofNat']
  exact Int.bmod_eq_of_le (by omega) (by omega)

theorem toInt_len (h : data.length < 2 ^ 63) :
    (len data).toInt = data.length :=
  toInt_ofNat_of_lt h

/-- The test lets exactly the words inside the buffer through. -/
theorem outside_iff (h : data.length < 2 ^ 63) {pos width : Int64} (hwidth : 0 ≤ width.toInt) :
    Outside data pos width ↔
      ¬ (0 ≤ pos.toInt ∧ pos.toInt + width.toInt ≤ data.length) := by
  have hlen := toInt_len h
  have hpos := fits_toInt pos
  have hfits := fits_toInt width
  have hrest : (len data - width).toInt = data.length - width.toInt :=
    toInt_sub hlen rfl (by omega)
  unfold Outside
  rw [gt_iff_lt, gt_iff_lt, lt_iff rfl Int64.toInt_zero, lt_iff hlen rfl,
    lt_iff hrest rfl]
  omega

end Bytes

end Beans
