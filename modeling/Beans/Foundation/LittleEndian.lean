import Mathlib

/-!
# Numbers as little-endian bytes

A number is cut into a fixed count of bytes, the least significant first.  The
number the bytes stand for is the remainder of the one they were cut from, and
bytes are determined by the number they stand for.

A number is cut into groups of seven bits, the lowest first, one to a byte.  The top
bit of a byte says that another one follows, so the bytes of a number show where they
end.
-/

namespace Beans

namespace LittleEndian

/-- The low `w` bytes of a number. -/
def bytes : ℕ → ℕ → List UInt8
  | 0, _ => []
  | w + 1, n => n.toUInt8 :: bytes w (n / 256)

/-- The number that bytes stand for. -/
def value : List UInt8 → ℕ
  | [] => 0
  | b :: bs => b.toNat + 256 * value bs

@[simp] theorem value_nil : value [] = 0 := rfl

@[simp] theorem value_cons (b : UInt8) (bs : List UInt8) :
    value (b :: bs) = b.toNat + 256 * value bs := rfl

@[simp] theorem bytes_length (w n : ℕ) : (bytes w n).length = w := by
  induction w generalizing n with
  | zero => rfl
  | succ w ih => rw [bytes, List.length_cons, ih]

theorem value_lt (bs : List UInt8) : value bs < 256 ^ bs.length := by
  induction bs with
  | nil => exact Nat.one_pos
  | cons b bs ih =>
    have hb := b.toNat_lt
    rw [value_cons, List.length_cons, pow_succ]
    omega

/-- Cutting a number and putting it together keeps its low bytes. -/
theorem value_bytes (w n : ℕ) : value (bytes w n) = n % 256 ^ w := by
  induction w generalizing n with
  | zero => rw [pow_zero, Nat.mod_one]; rfl
  | succ w ih =>
    have hpow : 256 ^ (w + 1) = 256 * 256 ^ w := pow_succ' 256 w
    have hlow : n.toUInt8.toNat = n % 256 := UInt8.toNat_ofNat'
    rw [bytes, value_cons, ih, hlow, hpow, Nat.mod_mul]

theorem value_bytes_of_lt {w n : ℕ} (h : n < 256 ^ w) :
    value (bytes w n) = n := by
  rw [value_bytes, Nat.mod_eq_of_lt h]

theorem value_injective {as bs : List UInt8} (hlen : as.length = bs.length)
    (h : value as = value bs) :
    as = bs := by
  induction as generalizing bs with
  | nil => exact (List.length_eq_zero_iff.mp hlen.symm).symm
  | cons a as ih =>
    cases bs with
    | nil => exact absurd hlen (Nat.succ_ne_zero _)
    | cons b bs =>
      have ha := a.toNat_lt
      have hb := b.toNat_lt
      rw [value_cons, value_cons] at h
      have hhead : a = b := UInt8.toNat_inj.mp (by omega)
      rw [hhead, ih (Nat.succ.inj hlen) (by omega)]

theorem bytes_value (bs : List UInt8) : bytes bs.length (value bs) = bs :=
  value_injective (bytes_length _ _) (value_bytes_of_lt (value_lt bs))

/-- Only the low bytes count. -/
theorem bytes_mod (w n : ℕ) : bytes w (n % 256 ^ w) = bytes w n :=
  value_injective (by rw [bytes_length, bytes_length])
    (by rw [value_bytes, value_bytes, Nat.mod_mod])

/-- Byte `i` is the number shifted down by `i` bytes. -/
theorem bytes_eq_map (w n : ℕ) :
    bytes w n = (List.range w).map fun i => (n / 256 ^ i).toUInt8 := by
  induction w generalizing n with
  | zero => rfl
  | succ w ih =>
    rw [bytes, ih, List.range_succ_eq_map, List.map_cons, List.map_map,
      pow_zero, Nat.div_one]
    refine congrArg (List.cons _) (List.map_congr_left fun i _ => ?_)
    rw [Function.comp, Nat.div_div_eq_div_mul, ← pow_succ']

end LittleEndian

namespace Septets

/-- Another byte follows. -/
def Continues (b : UInt8) : Prop :=
  128 ≤ b.toNat

instance : DecidablePred Continues :=
  fun b => inferInstanceAs (Decidable (128 ≤ b.toNat))

def payload (b : UInt8) : ℕ :=
  b.toNat % 128

def value : List UInt8 → ℕ
  | [] => 0
  | b :: bs => payload b + 128 * value bs

/-- The bytes of one number. -/
inductive IsNumber : List UInt8 → Prop
  | last {b : UInt8} : ¬ Continues b → IsNumber [b]
  | more {b : UInt8} {bs : List UInt8} : Continues b → IsNumber bs → IsNumber (b :: bs)

/-- The shortest bytes of a number. -/
def bytes (n : ℕ) : List UInt8 :=
  if n < 128 then [n.toUInt8] else (128 + n % 128).toUInt8 :: bytes (n / 128)
termination_by n
decreasing_by omega

theorem payload_lt (b : UInt8) : payload b < 128 :=
  Nat.mod_lt _ (by decide)

theorem payload_of_not_continues {b : UInt8} (h : ¬ Continues b) :
    payload b = b.toNat :=
  Nat.mod_eq_of_lt (not_le.mp h)

theorem IsNumber.length_pos {bs : List UInt8} (h : IsNumber bs) :
    0 < bs.length := by
  cases h
  all_goals exact Nat.succ_pos _

section Cut

variable {n : ℕ}

theorem bytes_of_lt (h : n < 128) : bytes n = [n.toUInt8] := by
  rw [bytes, if_pos h]

theorem bytes_of_le (h : 128 ≤ n) : bytes n = (128 + n % 128).toUInt8 :: bytes (n / 128) := by
  rw [bytes, if_neg (not_lt.mpr h)]

theorem toNat_marked (n : ℕ) : ((128 + n % 128).toUInt8).toNat = 128 + n % 128 := by
  rw [UInt8.toNat_ofNat']
  omega

theorem isNumber_bytes (n : ℕ) : IsNumber (bytes n) := by
  induction n using bytes.induct with
  | case1 n h =>
    rw [bytes_of_lt h]
    refine .last ?_
    rw [Continues, UInt8.toNat_ofNat']
    omega
  | case2 n h ih =>
    rw [bytes_of_le (not_lt.mp h)]
    refine .more ?_ ih
    rw [Continues, toNat_marked]
    omega

/-- Cutting a number and putting it together gives it back. -/
theorem value_bytes (n : ℕ) : value (bytes n) = n := by
  induction n using bytes.induct with
  | case1 n h =>
    rw [bytes_of_lt h, value, value, payload, UInt8.toNat_ofNat']
    omega
  | case2 n h ih =>
    rw [bytes_of_le (not_lt.mp h), value, payload, toNat_marked, ih]
    omega

theorem length_bytes_le {k : ℕ} (hk : 0 < k) (h : n < 128 ^ k) :
    (bytes n).length ≤ k := by
  induction k generalizing n with
  | zero => exact absurd hk (lt_irrefl 0)
  | succ k ih =>
    by_cases hlast : n < 128
    · rw [bytes_of_lt hlast]
      exact Nat.succ_le_succ (Nat.zero_le k)
    · have hpos : 0 < k := by
        rcases Nat.eq_zero_or_pos k with rfl | hpos
        · rw [zero_add, pow_one] at h
          omega
        · exact hpos
      rw [bytes_of_le (not_lt.mp hlast), List.length_cons]
      refine Nat.succ_le_succ (ih hpos ?_)
      rw [Nat.div_lt_iff_lt_mul (by decide), ← pow_succ]
      exact h

end Cut

/-- Bytes start with a number of at most so many bytes, or with so many bytes that do
not finish one, or they end before. -/
theorem start_cases (most : ℕ) (bs : List UInt8) :
    (∃ number rest, bs = number ++ rest ∧ IsNumber number ∧ number.length ≤ most) ∨
      (∃ first rest, bs = first ++ rest ∧ first.length = most ∧ ∀ b ∈ first, Continues b) ∨
      (bs.length < most ∧ ∀ b ∈ bs, Continues b) := by
  induction most generalizing bs with
  | zero => exact .inr (.inl ⟨[], bs, rfl, rfl, fun b hb => absurd hb List.not_mem_nil⟩)
  | succ most ih =>
    cases bs with
    | nil => exact .inr (.inr ⟨Nat.succ_pos _, fun b hb => absurd hb List.not_mem_nil⟩)
    | cons b bs =>
      by_cases hb : Continues b
      swap
      · exact .inl ⟨[b], bs, rfl, .last hb, Nat.succ_le_succ (Nat.zero_le _)⟩
      rcases ih bs with ⟨number, rest, rfl, hnumber, hle⟩ |
        ⟨first, rest, rfl, hlength, hall⟩ | ⟨hlt, hall⟩
      · exact .inl ⟨b :: number, rest, rfl, .more hb hnumber, Nat.succ_le_succ hle⟩
      · exact .inr (.inl ⟨b :: first, rest, rfl, congrArg Nat.succ hlength,
          List.forall_mem_cons.mpr ⟨hb, hall⟩⟩)
      · exact .inr (.inr ⟨Nat.succ_lt_succ hlt, List.forall_mem_cons.mpr ⟨hb, hall⟩⟩)

end Septets

end Beans
