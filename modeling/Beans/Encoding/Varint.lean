import Beans.Foundation.Loop
import Beans.Runtime.Bytes
import Beans.Runtime.Text

/-!
# Varints

`std.encoding.binary` writes unsigned integers in groups of seven bits and signed ones
after folding the sign into the lowest bit.  The reader stops at the first byte that
does not continue, and refuses what needs more than 64 bits.

**Results.**
* `varint_codec`: what was appended is read back in any surroundings, folding the sign is a
  bijection, and on arbitrary bytes the reader answers what stands there.
-/

namespace Beans
namespace Encoding
namespace Binary

open Septets SignedWords

structure Uvarint where
  value : UInt64
  size : Int64
deriving DecidableEq

structure Varint where
  value : Int64
  size : Int64
deriving DecidableEq

/-- The turn of both loops over a value: what is done with a group that another one
follows. -/
def groupStep {α : Type} (more : UInt64 → α → α) (s : UInt64 × α) : Option (UInt64 × α) :=
  if s.1 ≥ 128 then some (s.1 >>> 7, more s.1 s.2) else none

/-- The number of groups, one at least. -/
def uvarintSize (value : UInt64) : Int64 :=
  (Loop.run (groupStep fun _ size => size + 1) 10 (value, 1)).2

/-- Seven bits, and the mark that more follow. -/
def pushGroup (remaining : UInt64) (data : Bytes) : Bytes :=
  Bytes.push data ((remaining &&& 0x7f) ||| 0x80).toInt64

def appendUvarint (data : Bytes) (value : UInt64) : Bytes :=
  let s := Loop.run (groupStep pushGroup) 10 (value, data)
  Bytes.push s.2 s.1.toInt64

section Reading

variable (data : Bytes) (pos : Int64)

/-- `"uvarint read at {pos} is outside length {data.len()}"`. -/
def outsideMessage : Text :=
  ascii "uvarint read at " ++ Text.ofInt pos.toInt ++ ascii " is outside length " ++
    Text.ofInt (Bytes.len data).toInt

/-- `"uvarint at {pos} is truncated at length {data.len()}"`. -/
def truncatedMessage : Text :=
  ascii "uvarint at " ++ Text.ofInt pos.toInt ++ ascii " is truncated at length " ++
    Text.ofInt (Bytes.len data).toInt

/-- `"uvarint at {pos} runs past 10 bytes"`. -/
def runsPastMessage : Text :=
  ascii "uvarint at " ++ Text.ofInt pos.toInt ++ ascii " runs past 10 bytes"

/-- `"uvarint at {pos} overflows 64 bits"`. -/
def overflowsMessage : Text :=
  ascii "uvarint at " ++ Text.ofInt pos.toInt ++ ascii " overflows 64 bits"

/-- The loop of `read_uvarint`; `none` is a panic, or a loop that goes on. -/
def readUvarintFrom : ℕ → UInt64 → UInt64 → Int64 → Option (Result Uvarint)
  | 0, _, _, _ => none
  | fuel + 1, result, shift, index =>
    if index ≥ Bytes.len data then some (err (truncatedMessage data pos) "eof")
    else if index - pos ≥ 10 then some (err (runsPastMessage pos) "overflow")
    else
      match (Bytes.getw data index 1).map Int64.toUInt64 with
      | none => none
      | some piece =>
        if shift = 63 ∧ piece &&& 0xfe ≠ 0 then
          some (err (overflowsMessage pos) "overflow")
        else
          let result := result ||| ((piece &&& 0x7f) <<< shift)
          let index := index + 1
          if piece &&& 0x80 = 0 then some (.ok ⟨result, index - pos⟩)
          else readUvarintFrom fuel result (shift + 7) index

/-- A position outside of the bytes is an error of its own. -/
def readUvarint : Option (Result Uvarint) :=
  if pos < 0 ∨ pos > Bytes.len data then some (err (outsideMessage data pos) "eof")
  else readUvarintFrom data pos (data.length + 1) 0 0 pos

end Reading

/-- The sign goes to the lowest bit. -/
def zigzag (value : Int64) : UInt64 :=
  ((value <<< 1) ^^^ (value >>> 63)).toUInt64

def unzigzag (pattern : UInt64) : Int64 :=
  ((pattern >>> 1) ^^^ (0 - (pattern &&& 1))).toInt64

def varintSize (value : Int64) : Int64 :=
  uvarintSize (zigzag value)

def appendVarint (data : Bytes) (value : Int64) : Bytes :=
  appendUvarint data (zigzag value)

def readVarint (data : Bytes) (pos : Int64) : Option (Result Varint) :=
  (readUvarint data pos).map fun answer => answer.map fun raw => ⟨unzigzag raw.value, raw.size⟩

section Writing

variable {α : Type} {more : UInt64 → α → α} {remaining : UInt64}

theorem toNat_shiftRight_seven (remaining : UInt64) :
    (remaining >>> 7).toNat = remaining.toNat / 128 := by
  rw [UInt64.toNat_shiftRight]
  exact Nat.shiftRight_eq_div_pow remaining.toNat 7

theorem groupStep_last (x : α) (h : remaining.toNat < 128) :
    groupStep more (remaining, x) = none := by
  refine if_neg ?_
  rw [ge_iff_le, UInt64.le_iff_toNat_le]
  exact not_le.mpr h

theorem groupStep_more (x : α) (h : 128 ≤ remaining.toNat) :
    groupStep more (remaining, x) = some (remaining >>> 7, more remaining x) := by
  refine if_pos ?_
  rw [ge_iff_le, UInt64.le_iff_toNat_le]
  exact h

theorem shifted_lt {n : ℕ} (h : remaining.toNat < 128 ^ (n + 1 + 1)) :
    (remaining >>> 7).toNat < 128 ^ (n + 1) := by
  rw [toNat_shiftRight_seven, Nat.div_lt_iff_lt_mul (by decide), ← pow_succ]
  exact h

/-- Ten turns are more than a word has groups. -/
theorem groups_lt (value : UInt64) : value.toNat < 128 ^ (10 + 1) :=
  lt_of_lt_of_le value.toNat_lt (by norm_num)

theorem push_last (data : Bytes) (h : remaining.toNat < 128) :
    Bytes.push data remaining.toInt64 = data ++ Septets.bytes remaining.toNat := by
  rw [bytes_of_lt h, Bytes.push, UInt64.toUInt64_toInt64]
  refine congrArg (fun b => data ++ [b]) (UInt8.toNat_inj.mp ?_)
  rw [UInt64.toNat_toUInt8, UInt8.toNat_ofNat']

theorem pushGroup_eq (remaining : UInt64) (data : Bytes) :
    pushGroup remaining data = data ++ [(128 + remaining.toNat % 128).toUInt8] := by
  have hlow : (remaining &&& 0x7f).toNat = remaining.toNat % 128 := by
    rw [UInt64.toNat_and]
    exact Nat.and_two_pow_sub_one_eq_mod remaining.toNat 7
  have hor : ((remaining &&& 0x7f) ||| 0x80).toNat = 128 + remaining.toNat % 128 := by
    rw [UInt64.or_comm, Words.toNat_or_of_lt (k := 7) (by decide) (by rw [hlow]; omega), hlow]
    rfl
  rw [pushGroup, Bytes.push, UInt64.toUInt64_toInt64]
  refine congrArg (fun b => data ++ [b]) (UInt8.toNat_inj.mp ?_)
  rw [UInt64.toNat_toUInt8, hor, toNat_marked]
  omega

theorem run_append (n : ℕ) (data : Bytes) (h : remaining.toNat < 128 ^ (n + 1)) :
    ((Loop.run (groupStep pushGroup) n (remaining, data)).2.push
      (Loop.run (groupStep pushGroup) n (remaining, data)).1.toInt64) =
        data ++ Septets.bytes remaining.toNat := by
  induction n generalizing remaining data with
  | zero =>
    rw [zero_add, pow_one] at h
    exact push_last data h
  | succ n ih =>
    by_cases hlast : remaining.toNat < 128
    · rw [Loop.run_none (groupStep_last data hlast)]
      exact push_last data hlast
    · rw [Loop.run_some (groupStep_more data (not_lt.mp hlast)), ih _ (shifted_lt h),
        pushGroup_eq, toNat_shiftRight_seven, bytes_of_le (not_lt.mp hlast), List.append_assoc,
        List.singleton_append]

theorem run_size (n : ℕ) (size : Int64) (h : remaining.toNat < 128 ^ (n + 1)) :
    (Loop.run (groupStep fun _ size => size + 1) n (remaining, size)).2 + 1 =
      size + Int64.ofNat (Septets.bytes remaining.toNat).length := by
  induction n generalizing remaining size with
  | zero =>
    rw [zero_add, pow_one] at h
    rw [bytes_of_lt h]
    rfl
  | succ n ih =>
    by_cases hlast : remaining.toNat < 128
    · rw [Loop.run_none (groupStep_last size hlast), bytes_of_lt hlast]
      rfl
    · rw [Loop.run_some (groupStep_more size (not_lt.mp hlast)), ih _ (shifted_lt h),
        toNat_shiftRight_seven, bytes_of_le (not_lt.mp hlast), List.length_cons,
        Int64.ofNat_add, Int64.add_assoc, Int64.add_comm 1]
      rfl

theorem appendUvarint_eq (data : Bytes) (value : UInt64) :
    appendUvarint data value = data ++ Septets.bytes value.toNat :=
  run_append 10 data (groups_lt value)

theorem uvarintSize_eq (value : UInt64) :
    uvarintSize value = Int64.ofNat (Septets.bytes value.toNat).length := by
  have hrun := run_size 10 1 (groups_lt value)
  rw [Int64.add_comm 1] at hrun
  exact (Int64.add_left_inj 1).mp hrun

end Writing

section OneByte

variable (b : UInt8)

theorem and_payload : (b.toUInt64 &&& 0x7f).toNat = payload b := by
  rw [UInt64.toNat_and, UInt8.toNat_toUInt64]
  exact Nat.and_two_pow_sub_one_eq_mod b.toNat 7

theorem and_mark_iff : b.toUInt64 &&& 0x80 = 0 ↔ ¬ Continues b := by
  have hb := b.toNat_lt
  have hand : (b.toUInt64 &&& 0x80).toNat = (b.toNat.testBit 7).toNat * 2 ^ 7 := by
    rw [UInt64.toNat_and, UInt8.toNat_toUInt64]
    exact Nat.and_two_pow b.toNat 7
  rw [← UInt64.toNat_inj, hand, Nat.testBit_eq_decide_div_mod_eq, Continues, UInt64.toNat_zero]
  by_cases h : 128 ≤ b.toNat
  · rw [decide_eq_true (by omega)]
    simp [h]
  · rw [decide_eq_false (by omega)]
    simp [h]

theorem and_high_iff : b.toUInt64 &&& 0xfe ≠ 0 ↔ 2 ≤ b.toNat := by
  have hb := b.toNat_lt
  have hhalf : (b.toNat &&& 254) / 2 = b.toNat / 2 := by
    rw [Nat.and_div_two]
    exact (Nat.and_two_pow_sub_one_eq_mod (b.toNat / 2) 7).trans (Nat.mod_eq_of_lt (by omega))
  have heven : ¬ (b.toNat &&& 254) % 2 = 1 := by
    rw [Nat.and_mod_two_eq_one]
    exact fun h => absurd h.2 (by decide)
  have hand : (b.toUInt64 &&& 0xfe).toNat = b.toNat &&& 254 := by
    rw [UInt64.toNat_and, UInt8.toNat_toUInt64]
    rfl
  rw [Ne, ← UInt64.toNat_inj, hand, UInt64.toNat_zero]
  omega

end OneByte

section Turns

variable {data rest : Bytes} {b : UInt8} {pos index : Int64} {p k fuel : ℕ}
  {result shift : UInt64}

variable {i : ℕ}

theorem lt_length_of_drop (h : data.drop i = b :: rest) :
    i < data.length := by
  by_contra hle
  rw [List.drop_eq_nil_of_le (not_lt.mp hle)] at h
  cases h

theorem drop_succ_of_drop (h : data.drop i = b :: rest) :
    data.drop (i + 1) = rest := by
  rw [← List.drop_drop, h]
  rfl

theorem getw_of_drop (hdata : data.length < 2 ^ 63) (hindex : index.toInt = i)
    (h : data.drop i = b :: rest) :
    (Bytes.getw data index 1).map Int64.toUInt64 = some b.toUInt64 := by
  have hlt := lt_length_of_drop h
  have hinside : ¬ Bytes.Outside data index (Int64.ofNat 1) := by
    rw [Bytes.outside_iff hdata (by decide), not_not, hindex,
      show (Int64.ofNat 1).toInt = 1 from rfl]
    omega
  have hat : index.toNatClampNeg = i := by
    rw [Int64.toNatClampNeg, hindex, Int.toNat_natCast]
  have hload : rtLoadLe [b] = b.toUInt64 := by
    rw [← UInt64.toNat_inj, @rtLoadLe_toNat [b] (show 1 ≤ 8 by decide), UInt8.toNat_toUInt64]
    exact LittleEndian.value_cons b []
  rw [Bytes.getw, if_neg hinside, hat, h, Option.map_some, UInt64.toUInt64_toInt64]
  exact congrArg some hload

/-- Where the loop stands after `k` bytes that all continue. -/
structure Reading (data : Bytes) (pos : Int64) (p k : ℕ) (result shift : UInt64)
    (index : Int64) : Prop where
  data_lt : data.length < 2 ^ 63
  pos_eq : pos.toInt = p
  index_eq : index.toInt = p + k
  few : k ≤ 9
  result_lt : result.toNat < 2 ^ (7 * k)
  shift_eq : shift.toNat = 7 * k

/-- At the end of the buffer. -/
theorem turn_nil (h : Reading data pos p k result shift index)
    (hdrop : data.drop (p + k) = []) :
    readUvarintFrom data pos (fuel + 1) result shift index =
      some (err (truncatedMessage data pos) "eof") := by
  have hle := List.drop_eq_nil_iff.mp hdrop
  rw [readUvarintFrom, if_pos]
  rw [ge_iff_le, le_iff (Bytes.toInt_len h.data_lt) h.index_eq]
  omega

/-- Before the end of the buffer. -/
theorem turn_cons (h : Reading data pos p k result shift index)
    (hdrop : data.drop (p + k) = b :: rest) :
    readUvarintFrom data pos (fuel + 1) result shift index =
      if k = 9 ∧ 2 ≤ b.toNat then some (err (overflowsMessage pos) "overflow")
      else if Continues b then
        readUvarintFrom data pos fuel (result ||| ((b.toUInt64 &&& 0x7f) <<< shift)) (shift + 7)
          (index + 1)
      else some (.ok ⟨result ||| ((b.toUInt64 &&& 0x7f) <<< shift), index + 1 - pos⟩) := by
  have hlt := lt_length_of_drop hdrop
  have hlen := h.data_lt
  have hfew := h.few
  have hend : ¬ index ≥ Bytes.len data := by
    rw [ge_iff_le, le_iff (Bytes.toInt_len hlen) h.index_eq]
    omega
  have hten : ¬ index - pos ≥ 10 := by
    rw [ge_iff_le, le_iff (show (10 : Int64).toInt = 10 from rfl)
      (toInt_sub h.index_eq h.pos_eq (by omega))]
    omega
  have hshift : shift = 63 ↔ k = 9 := by
    rw [← UInt64.toNat_inj, h.shift_eq]
    change 7 * k = 63 ↔ k = 9
    omega
  have hcond := and_congr hshift (and_high_iff b)
  rw [readUvarintFrom, if_neg hend, if_neg hten,
    getw_of_drop hlen (by rw [h.index_eq, Nat.cast_add]) hdrop]
  dsimp only
  by_cases hover : k = 9 ∧ 2 ≤ b.toNat
  · rw [if_pos (hcond.mpr hover), if_pos hover]
  · rw [if_neg (mt hcond.mp hover), if_neg hover]
    by_cases hmore : Continues b
    · rw [if_pos hmore, if_neg (fun hlast => (and_mark_iff b).mp hlast hmore)]
    · rw [if_neg hmore, if_pos ((and_mark_iff b).mpr hmore)]

/-- Where no 64 bits are exceeded, a group is added above the others. -/
theorem toNat_group (h : Reading data pos p k result shift index)
    (hfits : ¬ (k = 9 ∧ 2 ≤ payload b)) :
    (result ||| ((b.toUInt64 &&& 0x7f) <<< shift)).toNat =
      result.toNat + 2 ^ (7 * k) * payload b := by
  have hfew := h.few
  have hpayload := payload_lt b
  have hword : payload b * 2 ^ (7 * k) < 2 ^ 64 := by
    by_cases hk : k = 9
    · have hone : payload b ≤ 1 := by
        by_contra htwo
        exact hfits ⟨hk, by omega⟩
      rw [hk]
      omega
    · have hpow : 2 ^ (7 * k) ≤ 2 ^ 56 := Nat.pow_le_pow_right (by decide) (by omega)
      calc payload b * 2 ^ (7 * k) ≤ 127 * 2 ^ 56 := Nat.mul_le_mul (by omega) hpow
        _ < 2 ^ 64 := by decide
  have hgroup : ((b.toUInt64 &&& 0x7f) <<< shift).toNat = 2 ^ (7 * k) * payload b := by
    rw [UInt64.toNat_shiftLeft, and_payload, h.shift_eq,
      Nat.mod_eq_of_lt (show 7 * k < 64 by omega), Nat.shiftLeft_eq, Nat.mod_eq_of_lt hword, mul_comm]
  rw [UInt64.or_comm, Words.toNat_or_of_lt (k := 7 * k) (by rw [hgroup]; exact dvd_mul_right _ _)
    h.result_lt, hgroup, add_comm]

theorem Reading.next (h : Reading data pos p k result shift index) (hk : k < 9)
    (hdrop : data.drop (p + k) = b :: rest) :
    Reading data pos p (k + 1) (result ||| ((b.toUInt64 &&& 0x7f) <<< shift)) (shift + 7)
      (index + 1) where
  data_lt := h.data_lt
  pos_eq := h.pos_eq
  index_eq := by
    have hlt := lt_length_of_drop hdrop
    have hlen := h.data_lt
    rw [toInt_add h.index_eq Int64.toInt_one (by omega)]
    push_cast
    ring
  few := hk
  result_lt := by
    have hresult := h.result_lt
    have hpayload := payload_lt b
    have hpow : 2 ^ (7 * (k + 1)) = 2 ^ (7 * k) * 128 := by
      rw [mul_add, pow_add]
      norm_num
    rw [toNat_group h (fun hnine => absurd hnine.1 hk.ne), hpow]
    nlinarith
  shift_eq := by
    rw [Words.toNat_add_of_lt]
    all_goals rw [h.shift_eq, show (7 : UInt64).toNat = 7 from rfl]
    · ring
    · omega

/-- The last group exceeds 64 bits exactly when the test of the tenth byte says so. -/
theorem exceeds_iff (h : Reading data pos p k result shift index) (hlast : ¬ Continues b) :
    k = 9 ∧ 2 ≤ b.toNat ↔ 2 ^ 64 ≤ result.toNat + 2 ^ (7 * k) * payload b := by
  have hresult := h.result_lt
  have hb := payload_lt b
  rw [← payload_of_not_continues hlast]
  by_cases hk : k = 9
  · subst hk
    omega
  · have hfew := h.few
    have hpow : 2 ^ (7 * k) ≤ 2 ^ 56 := Nat.pow_le_pow_right (by decide) (by omega)
    have hsmall : 2 ^ (7 * k) * payload b ≤ 2 ^ 56 * 127 := Nat.mul_le_mul hpow (by omega)
    omega

/-- A number within ten bytes: its value, unless that needs more than 64 bits. -/
theorem readUvarintFrom_number {number : Bytes} (hnumber : IsNumber number)
    (h : Reading data pos p k result shift index) (hdrop : data.drop (p + k) = number ++ rest)
    (hten : k + number.length ≤ 10) (hfuel : number.length ≤ fuel) :
    readUvarintFrom data pos fuel result shift index =
      if result.toNat + 2 ^ (7 * k) * value number < 2 ^ 64 then
        some (.ok ⟨UInt64.ofNat (result.toNat + 2 ^ (7 * k) * value number),
          Int64.ofNat (k + number.length)⟩)
      else some (err (overflowsMessage pos) "overflow") := by
  induction hnumber generalizing k result shift index fuel with
  | @last b hlast =>
    obtain ⟨fuel, rfl⟩ := Nat.exists_eq_succ_of_ne_zero (Nat.pos_iff_ne_zero.mp hfuel)
    have hlt := lt_length_of_drop hdrop
    have hlen := h.data_lt
    have hpayload := payload_of_not_continues hlast
    have hvalue : value [b] = payload b := by
      rw [value, value, mul_zero, add_zero]
    have hover := exceeds_iff h hlast
    rw [Nat.succ_eq_add_one, turn_cons h hdrop, if_neg hlast, hvalue]
    by_cases hfits : k = 9 ∧ 2 ≤ b.toNat
    · rw [if_pos hfits, if_neg (not_lt.mpr (hover.mp hfits))]
    · rw [if_neg hfits, if_pos (not_le.mp (mt hover.mpr hfits))]
      have hgroup := toNat_group h (hpayload ▸ hfits)
      have hsize : index + 1 - pos = Int64.ofNat (k + 1) := by
        refine eq_of_toInt ?_
        rw [toInt_sub (toInt_add h.index_eq Int64.toInt_one (by omega)) h.pos_eq (by omega),
          Bytes.toInt_ofNat_of_lt (by have := h.few; omega)]
        push_cast
        ring
      rw [hsize, ← hgroup, UInt64.ofNat_toNat]
      rfl
  | @more b number hb hnumber ih =>
    obtain ⟨fuel, rfl⟩ := Nat.exists_eq_succ_of_ne_zero
      (Nat.pos_iff_ne_zero.mp (lt_of_lt_of_le (Nat.succ_pos _) hfuel))
    rw [List.length_cons] at hten hfuel
    have hpos := hnumber.length_pos
    have hk : k < 9 := by omega
    have hnext := h.next hk hdrop
    have hvalue : result.toNat + 2 ^ (7 * k) * value (b :: number) =
        result.toNat + 2 ^ (7 * k) * payload b + 2 ^ (7 * (k + 1)) * value number := by
      rw [value, mul_add 7, pow_add]
      ring
    rw [Nat.succ_eq_add_one, turn_cons h hdrop, if_neg (fun hnine => absurd hnine.1 hk.ne),
      if_pos hb, ih hnext (drop_succ_of_drop hdrop) (by omega) (by omega),
      toNat_group h (fun hnine => absurd hnine.1 hk.ne), hvalue, List.length_cons,
      show k + 1 + number.length = k + (number.length + 1) by ring]

/-- Ten bytes that all continue. -/
theorem readUvarintFrom_unfinished {first : Bytes} (hfirst : ∀ b ∈ first, Continues b)
    (h : Reading data pos p k result shift index) (hdrop : data.drop (p + k) = first ++ rest)
    (hten : k + first.length = 10) (hfuel : first.length ≤ fuel) :
    readUvarintFrom data pos fuel result shift index =
      some (err (overflowsMessage pos) "overflow") := by
  induction first generalizing k result shift index fuel with
  | nil =>
    have hfew := h.few
    rw [List.length_nil] at hten
    omega
  | cons b first ih =>
    obtain ⟨fuel, rfl⟩ := Nat.exists_eq_succ_of_ne_zero
      (Nat.pos_iff_ne_zero.mp (lt_of_lt_of_le (Nat.succ_pos _) hfuel))
    obtain ⟨hb, hfirst⟩ := List.forall_mem_cons.mp hfirst
    rw [List.length_cons] at hten hfuel
    rw [Nat.succ_eq_add_one, turn_cons h hdrop]
    have hlarge : 128 ≤ b.toNat := hb
    by_cases hk : k = 9
    · rw [if_pos ⟨hk, by omega⟩]
    · have hfew := h.few
      rw [if_neg (fun hnine => hk hnine.1), if_pos hb]
      exact ih hfirst (h.next (by omega) hdrop) (drop_succ_of_drop hdrop) (by omega) (by omega)

/-- Fewer bytes than ten, all of which continue, up to the end. -/
theorem readUvarintFrom_cut {first : Bytes} (hfirst : ∀ b ∈ first, Continues b)
    (h : Reading data pos p k result shift index) (hdrop : data.drop (p + k) = first)
    (hten : k + first.length < 10) (hfuel : first.length < fuel) :
    readUvarintFrom data pos fuel result shift index =
      some (err (truncatedMessage data pos) "eof") := by
  induction first generalizing k result shift index fuel with
  | nil =>
    obtain ⟨fuel, rfl⟩ := Nat.exists_eq_succ_of_ne_zero (Nat.pos_iff_ne_zero.mp hfuel)
    exact turn_nil h hdrop
  | cons b first ih =>
    obtain ⟨fuel, rfl⟩ := Nat.exists_eq_succ_of_ne_zero
      (Nat.pos_iff_ne_zero.mp (lt_of_le_of_lt (Nat.zero_le _) hfuel))
    obtain ⟨hb, hfirst⟩ := List.forall_mem_cons.mp hfirst
    rw [List.length_cons] at hten hfuel
    have hk : k < 9 := by omega
    rw [Nat.succ_eq_add_one, turn_cons h hdrop, if_neg (fun hnine => absurd hnine.1 hk.ne),
      if_pos hb]
    exact ih hfirst (h.next hk hdrop) (drop_succ_of_drop hdrop) (by omega) (by omega)

end Turns

section Signs

theorem toNat_shifted (x : BitVec 64) : (x <<< 1).toNat = 2 * x.toNat % 2 ^ 64 := by
  rw [BitVec.toNat_shiftLeft, Nat.shiftLeft_eq, mul_comm, pow_one]

/-- The sign of a word, in all bits. -/
theorem sshiftRight_sign (x : BitVec 64) :
    x.sshiftRight 63 = if x.toInt < 0 then BitVec.allOnes 64 else 0#64 := by
  have hdiv : (x.sshiftRight 63).toInt = x.toInt / 2 ^ 63 := by
    rw [BitVec.toInt_sshiftRight, Int.shiftRight_eq_div_pow]
    norm_num
  have hlow := BitVec.le_toInt x
  have hhigh := @BitVec.toInt_lt 64 x
  refine BitVec.eq_of_toInt_eq ?_
  rw [hdiv]
  split_ifs with h
  · rw [BitVec.toInt_allOnes]
    omega
  · rw [BitVec.toInt_zero]
    omega

theorem zigzag_toNat (value : Int64) :
    ((zigzag value).toNat : ℤ) =
      if value.toInt < 0 then -2 * value.toInt - 1 else 2 * value.toInt := by
  have hbits : (zigzag value).toNat =
      ((value.toBitVec <<< 1) ^^^ value.toBitVec.sshiftRight 63).toNat := rfl
  have hword : value.toInt = value.toBitVec.toInt := rfl
  have hlt := value.toBitVec.isLt
  have hsign := BitVec.toInt_eq_toNat_cond value.toBitVec
  rw [hbits, sshiftRight_sign, ← hword]
  rw [← hword] at hsign
  have hshift := toNat_shifted value.toBitVec
  split_ifs with h
  · rw [BitVec.xor_allOnes, BitVec.toNat_not, hshift]
    split_ifs at hsign
    all_goals omega
  · rw [BitVec.xor_zero, hshift]
    split_ifs at hsign
    all_goals omega

theorem unzigzag_toInt (pattern : UInt64) :
    (unzigzag pattern).toInt =
      if pattern.toNat % 2 = 0 then ((pattern.toNat / 2 : ℕ) : ℤ)
      else -((pattern.toNat / 2 : ℕ) : ℤ) - 1 := by
  have hbits : (unzigzag pattern).toInt =
      ((pattern.toBitVec >>> 1) ^^^ (0 - (pattern.toBitVec &&& 1))).toInt := rfl
  have hlt := pattern.toBitVec.isLt
  have hhalf : (pattern.toBitVec >>> 1).toNat = pattern.toNat / 2 := by
    rw [BitVec.toNat_ushiftRight, Nat.shiftRight_eq_div_pow, pow_one]
    rfl
  have hlow : pattern.toBitVec &&& 1 = BitVec.ofNat 64 (pattern.toNat % 2) := by
    refine BitVec.eq_of_toNat_eq ?_
    rw [BitVec.toNat_and, BitVec.toNat_ofNat]
    change pattern.toNat &&& 1 = _
    rw [Nat.and_one_is_mod]
    omega
  rw [hbits, hlow, BitVec.toInt_eq_toNat_cond]
  change pattern.toNat < 2 ^ 64 at hlt
  rcases Nat.mod_two_eq_zero_or_one pattern.toNat with h | h
  · rw [h]
    have hz : (0 : BitVec 64) - BitVec.ofNat 64 0 = 0#64 := rfl
    rw [hz, BitVec.xor_zero, hhalf, if_pos (by omega), if_pos rfl]
  · rw [h]
    have hz : (0 : BitVec 64) - BitVec.ofNat 64 1 = BitVec.allOnes 64 := rfl
    rw [hz, BitVec.xor_allOnes, BitVec.toNat_not, hhalf]
    rw [if_neg (by omega), if_neg (by omega)]
    omega

theorem unzigzag_zigzag (value : Int64) : unzigzag (zigzag value) = value := by
  have hfold := zigzag_toNat value
  refine eq_of_toInt ?_
  rw [unzigzag_toInt]
  split_ifs at hfold ⊢
  all_goals omega

theorem zigzag_unzigzag (pattern : UInt64) : zigzag (unzigzag pattern) = pattern := by
  have hunfold := unzigzag_toInt pattern
  have hfold := zigzag_toNat (unzigzag pattern)
  refine UInt64.toNat_inj.mp ?_
  split_ifs at hfold hunfold
  all_goals omega

end Signs

section Codec

variable {data : Bytes} {pos : Int64}

/-- The bytes from the position on. -/
def ahead (data : Bytes) (pos : Int64) : Bytes :=
  data.drop pos.toInt.toNat

/-- What reading at a position gives. -/
structure ReadsUvarint (data : Bytes) (pos : Int64) : Prop where
  ok_iff : ∀ raw : Uvarint, readUvarint data pos = some (.ok raw) ↔
    (0 ≤ pos.toInt ∧ pos.toInt ≤ data.length) ∧
      ∃ number rest, ahead data pos = number ++ rest ∧ IsNumber number ∧ number.length ≤ 10 ∧
        raw.value.toNat = value number ∧ raw.size.toInt = number.length
  overflow_iff : (∃ msg, readUvarint data pos = some (err msg "overflow")) ↔
    (0 ≤ pos.toInt ∧ pos.toInt ≤ data.length) ∧
      ((∃ first rest, ahead data pos = first ++ rest ∧ first.length = 10 ∧
        ∀ b ∈ first, Continues b) ∨
      ∃ number rest, ahead data pos = number ++ rest ∧ IsNumber number ∧ number.length ≤ 10 ∧
        2 ^ 64 ≤ value number)
  eof_iff : (∃ msg, readUvarint data pos = some (err msg "eof")) ↔
    ¬ (0 ≤ pos.toInt ∧ pos.toInt ≤ data.length) ∨
      ((ahead data pos).length < 10 ∧ ∀ b ∈ ahead data pos, Continues b)

theorem outside_position_iff (hdata : data.length < 2 ^ 63) :
    pos < 0 ∨ pos > Bytes.len data ↔ ¬ (0 ≤ pos.toInt ∧ pos.toInt ≤ data.length) := by
  rw [gt_iff_lt, lt_iff rfl Int64.toInt_zero, lt_iff (Bytes.toInt_len hdata) rfl]
  omega

theorem reading_start (hdata : data.length < 2 ^ 63) (h : 0 ≤ pos.toInt) :
    Reading data pos pos.toInt.toNat 0 0 0 pos where
  data_lt := hdata
  pos_eq := (Int.toNat_of_nonneg h).symm
  index_eq := by
    rw [Int.toNat_of_nonneg h]
    exact (add_zero _).symm
  few := Nat.zero_le 9
  result_lt := Nat.one_pos
  shift_eq := rfl

theorem length_ahead_le (data : Bytes) (pos : Int64) : (ahead data pos).length ≤ data.length :=
  (List.length_drop.trans_le (Nat.sub_le _ _))

section Inside

variable {number first rest : Bytes}

theorem readUvarint_number (hdata : data.length < 2 ^ 63)
    (hinside : 0 ≤ pos.toInt ∧ pos.toInt ≤ data.length)
    (hahead : ahead data pos = number ++ rest) (hnumber : IsNumber number)
    (hten : number.length ≤ 10) :
    readUvarint data pos =
      if value number < 2 ^ 64 then
        some (.ok ⟨UInt64.ofNat (value number), Int64.ofNat number.length⟩)
      else some (err (overflowsMessage pos) "overflow") := by
  have hlength := length_ahead_le data pos
  rw [hahead, List.length_append] at hlength
  have hread := readUvarintFrom_number hnumber (reading_start hdata hinside.1) hahead
    (by omega) (show number.length ≤ data.length + 1 by omega)
  rw [readUvarint, if_neg (mt (outside_position_iff hdata).mp (not_not.mpr hinside)), hread,
    UInt64.toNat_zero, mul_zero, pow_zero, one_mul, zero_add, zero_add]

theorem readUvarint_unfinished (hdata : data.length < 2 ^ 63)
    (hinside : 0 ≤ pos.toInt ∧ pos.toInt ≤ data.length)
    (hahead : ahead data pos = first ++ rest) (hten : first.length = 10)
    (hfirst : ∀ b ∈ first, Continues b) :
    readUvarint data pos = some (err (overflowsMessage pos) "overflow") := by
  have hlength := length_ahead_le data pos
  rw [hahead, List.length_append] at hlength
  rw [readUvarint, if_neg (mt (outside_position_iff hdata).mp (not_not.mpr hinside))]
  exact readUvarintFrom_unfinished hfirst (reading_start hdata hinside.1) hahead (by omega)
    (by omega)

theorem readUvarint_cut (hdata : data.length < 2 ^ 63)
    (hinside : 0 ≤ pos.toInt ∧ pos.toInt ≤ data.length) (hten : (ahead data pos).length < 10)
    (hall : ∀ b ∈ ahead data pos, Continues b) :
    readUvarint data pos = some (err (truncatedMessage data pos) "eof") := by
  have hlength := length_ahead_le data pos
  rw [readUvarint, if_neg (mt (outside_position_iff hdata).mp (not_not.mpr hinside))]
  exact readUvarintFrom_cut hall (reading_start hdata hinside.1) rfl (by omega) (by omega)

end Inside

theorem readUvarint_outside (hdata : data.length < 2 ^ 63)
    (houtside : ¬ (0 ≤ pos.toInt ∧ pos.toInt ≤ data.length)) :
    readUvarint data pos = some (err (outsideMessage data pos) "eof") :=
  if_pos ((outside_position_iff hdata).mpr houtside)

theorem kind_ne {msg msg' : Text} :
    (some (err msg "eof") : Option (Result Uvarint)) ≠ some (err msg' "overflow") := by
  intro h
  rw [err, err, Option.some.injEq, Except.error.injEq, BeansError.mk.injEq] at h
  exact absurd h.2 (by decide)

theorem ok_ne_err {raw : Uvarint} {msg : Text} {kind : String} :
    (some (.ok raw) : Option (Result Uvarint)) ≠ some (err msg kind) := by
  rw [err, Ne, Option.some.injEq]
  exact fun h => by cases h

/-- On any bytes the reader answers what the groups from there on say. -/
theorem readsUvarint (hdata : data.length < 2 ^ 63) (pos : Int64) :
    ReadsUvarint data pos := by
  by_cases hinside : 0 ≤ pos.toInt ∧ pos.toInt ≤ data.length
  swap
  · have hread := readUvarint_outside hdata hinside
    refine ⟨fun raw => ?_, ?_, ?_⟩
    · rw [hread]
      exact ⟨fun h => absurd h.symm ok_ne_err, fun h => absurd h.1 hinside⟩
    · rw [hread]
      exact ⟨fun ⟨_, h⟩ => absurd h kind_ne, fun h => absurd h.1 hinside⟩
    · rw [hread]
      exact ⟨fun _ => .inl hinside, fun _ => ⟨_, rfl⟩⟩
  have hnumber := @readUvarint_number data pos
  -- what is read, by what the bytes from the position on start with
  have hcases := start_cases 10 (ahead data pos)
  refine ⟨fun raw => ⟨fun h => ⟨hinside, ?_⟩, ?_⟩, ⟨fun ⟨msg, h⟩ => ⟨hinside, ?_⟩, ?_⟩,
    ⟨fun ⟨msg, h⟩ => .inr ?_, ?_⟩⟩
  · rcases hcases with ⟨number, rest, hahead, hnum, hten⟩ |
      ⟨first, rest, hahead, hten, hall⟩ | ⟨hten, hall⟩
    · rw [hnumber hdata hinside hahead hnum hten] at h
      split_ifs at h with hvalue
      · obtain rfl := Except.ok.inj (Option.some.inj h)
        exact ⟨number, rest, hahead, hnum, hten, UInt64.toNat_ofNat_of_lt' hvalue,
          Bytes.toInt_ofNat_of_lt (by omega)⟩
      · exact absurd h.symm ok_ne_err
    · rw [readUvarint_unfinished hdata hinside hahead hten hall] at h
      exact absurd h.symm ok_ne_err
    · rw [readUvarint_cut hdata hinside hten hall] at h
      exact absurd h.symm ok_ne_err
  · rintro ⟨-, number, rest, hahead, hnum, hten, hvalue, hsize⟩
    rw [hnumber hdata hinside hahead hnum hten, ← hvalue, if_pos raw.value.toNat_lt,
      UInt64.ofNat_toNat, eq_of_toInt (x := Int64.ofNat number.length) (y := raw.size)
        ((Bytes.toInt_ofNat_of_lt (by omega)).trans hsize.symm)]
  · rcases hcases with ⟨number, rest, hahead, hnum, hten⟩ |
      ⟨first, rest, hahead, hten, hall⟩ | ⟨hten, hall⟩
    · rw [hnumber hdata hinside hahead hnum hten] at h
      split_ifs at h with hvalue
      · exact absurd h ok_ne_err
      · exact .inr ⟨number, rest, hahead, hnum, hten, not_lt.mp hvalue⟩
    · exact .inl ⟨first, rest, hahead, hten, hall⟩
    · rw [readUvarint_cut hdata hinside hten hall] at h
      exact absurd h kind_ne
  · rintro ⟨-, ⟨first, rest, hahead, hten, hall⟩ | ⟨number, rest, hahead, hnum, hten, hvalue⟩⟩
    · exact ⟨_, readUvarint_unfinished hdata hinside hahead hten hall⟩
    · rw [hnumber hdata hinside hahead hnum hten, if_neg (not_lt.mpr hvalue)]
      exact ⟨_, rfl⟩
  · rcases hcases with ⟨number, rest, hahead, hnum, hten⟩ |
      ⟨first, rest, hahead, hten, hall⟩ | ⟨hten, hall⟩
    · rw [hnumber hdata hinside hahead hnum hten] at h
      split_ifs at h with hvalue
      · exact absurd h ok_ne_err
      · exact absurd h.symm kind_ne
    · rw [readUvarint_unfinished hdata hinside hahead hten hall] at h
      exact absurd h.symm kind_ne
    · exact ⟨hten, hall⟩
  · rintro (houtside | ⟨hten, hall⟩)
    · exact absurd hinside houtside
    · exact ⟨_, readUvarint_cut hdata hinside hten hall⟩

end Codec

variable {after before : Bytes}

theorem read_append {value : UInt64}
    (h : (appendUvarint before value ++ after).length < 2 ^ 63) :
    readUvarint (appendUvarint before value ++ after) (Int64.ofNat before.length) =
      some (.ok ⟨value, uvarintSize value⟩) := by
  rw [appendUvarint_eq] at h ⊢
  have hlength := h
  rw [List.length_append, List.length_append] at hlength
  have hpos : (Int64.ofNat before.length).toInt = before.length :=
    Bytes.toInt_ofNat_of_lt (by omega)
  have hten : (Septets.bytes value.toNat).length ≤ 10 :=
    length_bytes_le (by decide) (lt_of_lt_of_le value.toNat_lt (by norm_num))
  have hahead : ahead (before ++ Septets.bytes value.toNat ++ after)
      (Int64.ofNat before.length) = Septets.bytes value.toNat ++ after := by
    rw [ahead, hpos, Int.toNat_natCast, List.append_assoc, List.drop_left]
  rw [readUvarint_number h ⟨by omega, by
    rw [hpos, List.length_append, List.length_append]
    omega⟩ hahead (isNumber_bytes _) hten, value_bytes, if_pos value.toNat_lt,
    UInt64.ofNat_toNat, uvarintSize_eq]

theorem readVarint_append {value : Int64}
    (h : (appendVarint before value ++ after).length < 2 ^ 63) :
    readVarint (appendVarint before value ++ after) (Int64.ofNat before.length) =
      some (.ok ⟨value, varintSize value⟩) := by
  rw [readVarint, appendVarint, read_append h, Option.map_some]
  dsimp only [Except.map]
  rw [unzigzag_zigzag]
  rfl

/-- What was appended is read back in any surroundings, folding the sign is a bijection,
and on arbitrary bytes the reader answers what stands there. -/
theorem varint_codec :
    (∀ (value : UInt64) (before after : Bytes),
      (appendUvarint before value ++ after).length < 2 ^ 63 →
      readUvarint (appendUvarint before value ++ after) (Int64.ofNat before.length) =
        some (.ok ⟨value, uvarintSize value⟩)) ∧
    (∀ (value : Int64) (before after : Bytes),
      (appendVarint before value ++ after).length < 2 ^ 63 →
      readVarint (appendVarint before value ++ after) (Int64.ofNat before.length) =
        some (.ok ⟨value, varintSize value⟩)) ∧
    (Function.LeftInverse unzigzag zigzag ∧ Function.RightInverse unzigzag zigzag) ∧
    ∀ (data : Bytes) (pos : Int64), data.length < 2 ^ 63 → ReadsUvarint data pos :=
  ⟨fun _ _ _ => read_append, fun _ _ _ => readVarint_append,
    ⟨unzigzag_zigzag, zigzag_unzigzag⟩, fun _ pos h => readsUvarint h pos⟩

/-- Two bytes read past a prefix, a negative value, and an encoding that never ends. -/
theorem varint_codec_atFive :
    readUvarint (appendUvarint [7, 7] 300 ++ [9]) 2 = some (.ok ⟨300, 2⟩) ∧
      readVarint (appendVarint [] (-65)) 0 = some (.ok ⟨-65, 2⟩) ∧
      ∃ msg, readUvarint [0xff, 0xff] 0 = some (err msg "eof") := by
  have hwitness := varint_codec
  refine ⟨?_, ?_, ?_⟩
  · exact hwitness.1 300 [7, 7] [9] (by decide)
  · have hread := hwitness.2.1 (-65) [] [] (by decide)
    rwa [List.append_nil] at hread
  · refine (hwitness.2.2.2 [0xff, 0xff] 0 (by decide)).eof_iff.mpr (.inr ?_)
    rw [show ahead [0xff, 0xff] 0 = [0xff, 0xff] from rfl]
    exact ⟨by decide, by simp [Continues]⟩

end Binary
end Encoding
end Beans
