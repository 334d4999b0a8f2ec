import Beans.Foundation.Words

/-!
# 128-bit magnitudes

The runtime keeps a decimal coefficient in two 64-bit words and writes its own
128-bit arithmetic, so that it does not depend on a compiler extension.  The
functions here follow that C code word by word; each is followed by what it
computes on the natural number the two words denote.
-/

namespace Beans
namespace Decimal

open Words

/-- A number of 128 bits in two words. -/
structure BU128 where
  lo : UInt64
  hi : UInt64
deriving DecidableEq, Repr

namespace BU128

/-- The magnitude two words denote. -/
def toNat (v : BU128) : ℕ := v.lo.toNat + 2 ^ 64 * v.hi.toNat

theorem toNat_lt (v : BU128) : v.toNat < 2 ^ 128 := by
  have hlo := v.lo.toNat_lt
  have hhi := v.hi.toNat_lt
  unfold toNat
  omega

theorem toNat_inj {v w : BU128} : v.toNat = w.toNat ↔ v = w := by
  constructor
  · intro h
    have hvl := v.lo.toNat_lt
    have hwl := w.lo.toNat_lt
    obtain ⟨vlo, vhi⟩ := v
    obtain ⟨wlo, whi⟩ := w
    simp only [toNat] at h hvl hwl
    have hlo : vlo = wlo := UInt64.toNat_inj.mp (by omega)
    have hhi : vhi = whi := UInt64.toNat_inj.mp (by omega)
    rw [hlo, hhi]
  · rintro rfl
    rfl

/-- The two words of a magnitude below `2 ^ 128`. -/
def ofNat (n : ℕ) : BU128 := ⟨UInt64.ofNat n, UInt64.ofNat (n / 2 ^ 64)⟩

theorem toNat_ofNat {n : ℕ} (h : n < 2 ^ 128) : (ofNat n).toNat = n := by
  simp only [toNat, ofNat, UInt64.toNat_ofNat']
  omega

end BU128

def buZero (value : BU128) : Bool := value.lo == 0 && value.hi == 0

def buCmp (a b : BU128) : Int :=
  if a.hi ≠ b.hi then
    if a.hi < b.hi then -1 else 1
  else if a.lo ≠ b.lo then
    if a.lo < b.lo then -1 else 1
  else 0

def buSub (a b : BU128) : BU128 :=
  ⟨a.lo - b.lo, a.hi - b.hi - (if a.lo < b.lo then 1 else 0)⟩

/-- The two's complement. -/
def buTwos (value : BU128) : BU128 :=
  let lo := ~~~value.lo + 1
  ⟨lo, if lo = 0 then ~~~value.hi + 1 else ~~~value.hi⟩

/-- Four products of 32-bit halves. -/
def buMul64 (a b : UInt64) : BU128 :=
  let mask := lowMask
  let a0 := a &&& mask
  let a1 := a >>> 32
  let b0 := b &&& mask
  let b1 := b >>> 32
  let p00 := a0 * b0
  let p01 := a0 * b1
  let p10 := a1 * b0
  let p11 := a1 * b1
  let middle := (p00 >>> 32) + (p01 &&& mask) + (p10 &&& mask)
  ⟨(p00 &&& mask) ||| (middle <<< 32),
    p11 + (p01 >>> 32) + (p10 >>> 32) + (middle >>> 32)⟩

/-- None where the product needs more than 128 bits. -/
def buMulSmall (value : BU128) (factor : UInt32) : Option BU128 :=
  let low := buMul64 value.lo factor.toUInt64
  let high := buMul64 value.hi factor.toUInt64
  let out : BU128 := ⟨low.lo, high.lo + low.hi⟩
  if high.hi = 0 ∧ high.lo ≤ out.hi then some out else none

def buAddSmall (value : BU128) (addend : UInt32) : Option BU128 :=
  let lo := value.lo + addend.toUInt64
  let carry : Bool := lo < value.lo
  let out : BU128 := ⟨lo, value.hi + (if carry then 1 else 0)⟩
  if !carry || out.hi != 0 then some out else none

/-- One turn of the word loop of `buDivSmall`: the digit and the remainder. -/
def buDivStep (divisor : UInt32) (rem : UInt64) (word : UInt32) :
    UInt32 × UInt64 :=
  let current := (rem <<< 32) ||| word.toUInt64
  ((current / divisor.toUInt64).toUInt32, current % divisor.toUInt64)

/-- Four steps of 32 bits. -/
def buDivSmall (value : BU128) (divisor : UInt32) :
    Option (BU128 × UInt32) :=
  if divisor = 0 then none
  else
    let r0 := buDivStep divisor 0 (value.hi >>> 32).toUInt32
    let r1 := buDivStep divisor r0.2 value.hi.toUInt32
    let r2 := buDivStep divisor r1.2 (value.lo >>> 32).toUInt32
    let r3 := buDivStep divisor r2.2 value.lo.toUInt32
    some
      (⟨(r2.1.toUInt64 <<< 32) ||| r3.1.toUInt64,
        (r0.1.toUInt64 <<< 32) ||| r1.1.toUInt64⟩,
      r3.2.toUInt32)

def buBit (value : BU128) (bit : UInt64) : Bool :=
  if bit < 64 then (value.lo >>> bit) &&& 1 = 1
  else (value.hi >>> (bit - 64)) &&& 1 = 1

def buSetBit (value : BU128) (bit : UInt64) : BU128 :=
  if bit < 64 then { value with lo := value.lo ||| (1 <<< bit) }
  else { value with hi := value.hi ||| (1 <<< (bit - 64)) }

/-- Shifts left by one; `none` when the top bit falls out. -/
def buShiftLeftOne (value : BU128) : Option BU128 :=
  let overflow := value.hi >>> 63
  let out : BU128 :=
    ⟨value.lo <<< 1, (value.hi <<< 1) ||| (value.lo >>> 63)⟩
  if overflow = 0 then some out else none

/-- The bit loop of `buDivmod`, with `bits` bits left to scan. -/
def buDivLoop (value divisor : BU128) :
    ℕ → BU128 → BU128 → Option (BU128 × BU128)
  | 0, quotient, remainder => some (quotient, remainder)
  | bit + 1, quotient, remainder =>
    match buShiftLeftOne remainder with
    | none => none
    | some shifted =>
      let scanned : BU128 :=
        if buBit value (UInt64.ofNat bit) then
          { shifted with lo := shifted.lo ||| 1 }
        else shifted
      if 0 ≤ buCmp scanned divisor then
        buDivLoop value divisor bit
          (buSetBit quotient (UInt64.ofNat bit))
          (buSub scanned divisor)
      else
        buDivLoop value divisor bit quotient scanned

/-- Division bit by bit, with the easy cases taken first. -/
def buDivmod (value divisor : BU128) : Option (BU128 × BU128) :=
  if buZero divisor then none
  else if buCmp value divisor < 0 then some (⟨0, 0⟩, value)
  else if divisor.hi >>> 63 ≠ 0 then some (⟨1, 0⟩, buSub value divisor)
  else buDivLoop value divisor 128 ⟨0, 0⟩ ⟨0, 0⟩

@[simp] theorem buZero_eq_true_iff (v : BU128) :
    buZero v = true ↔ v.toNat = 0 := by
  simp only [buZero, Bool.and_eq_true, beq_iff_eq, BU128.toNat,
    ← UInt64.toNat_inj, UInt64.toNat_zero]
  omega

theorem buCmp_eq (a b : BU128) :
    buCmp a b =
      if a.toNat < b.toNat then -1
      else if b.toNat < a.toNat then 1 else 0 := by
  have hal := a.lo.toNat_lt
  have hbl := b.lo.toNat_lt
  simp only [buCmp, BU128.toNat, ne_eq, ← UInt64.toNat_inj,
    UInt64.lt_iff_toNat_lt]
  split_ifs <;> omega

theorem buCmp_nonneg_iff (a b : BU128) :
    0 ≤ buCmp a b ↔ b.toNat ≤ a.toNat := by
  rw [buCmp_eq]
  split_ifs <;> omega

theorem buSub_toNat {a b : BU128} (h : b.toNat ≤ a.toNat) :
    (buSub a b).toNat = a.toNat - b.toNat := by
  have hal := a.lo.toNat_lt
  have hah := a.hi.toNat_lt
  have hbl := b.lo.toNat_lt
  have hbh := b.hi.toNat_lt
  simp only [BU128.toNat] at h
  simp only [buSub, BU128.toNat, UInt64.toNat_sub, UInt64.lt_iff_toNat_lt]
  split
  · have hone : (1 : UInt64).toNat = 1 := rfl
    omega
  · have hzero : (0 : UInt64).toNat = 0 := rfl
    omega

/-- Two's complement negation. -/
theorem buTwos_toNat (v : BU128) :
    (buTwos v).toNat = (2 ^ 128 - v.toNat) % 2 ^ 128 := by
  have hlo := v.lo.toNat_lt
  have hhi := v.hi.toNat_lt
  have hone : (1 : UInt64).toNat = 1 := rfl
  have hzero : (0 : UInt64).toNat = 0 := rfl
  simp only [buTwos, BU128.toNat, ← UInt64.toNat_inj, UInt64.toNat_add,
    toNat_not, hone, hzero]
  split <;> simp only [UInt64.toNat_add, toNat_not, hone] <;> omega

/-- The four partial products, added up column by column. -/
theorem columns_toNat (p00 p01 p10 p11 : UInt64) (h00 : p00.toNat ≤ (2 ^ 32 - 1) * (2 ^ 32 - 1))
    (h01 : p01.toNat ≤ (2 ^ 32 - 1) * (2 ^ 32 - 1))
    (h10 : p10.toNat ≤ (2 ^ 32 - 1) * (2 ^ 32 - 1))
    (h11 : p11.toNat ≤ (2 ^ 32 - 1) * (2 ^ 32 - 1)) (middle : UInt64)
    (hmiddle : middle =
      (p00 >>> 32) + (p01 &&& lowMask) + (p10 &&& lowMask)) :
    (BU128.mk ((p00 &&& lowMask) ||| (middle <<< 32))
      (p11 + (p01 >>> 32) + (p10 >>> 32) + (middle >>> 32))).toNat =
      p00.toNat + 2 ^ 32 * p01.toNat + 2 ^ 32 * p10.toNat +
        2 ^ 64 * p11.toNat := by
  have hmid : middle.toNat =
      p00.toNat / 2 ^ 32 + p01.toNat % 2 ^ 32 + p10.toNat % 2 ^ 32 := by
    rw [hmiddle]
    simp only [UInt64.toNat_add, toNat_and_low, toNat_shiftRight_half]
    omega
  have hlo : ((p00 &&& lowMask) ||| (middle <<< 32)).toNat =
      middle.toNat % 2 ^ 32 * 2 ^ 32 + p00.toNat % 2 ^ 32 := by
    rw [UInt64.or_comm, toNat_or_of_lt (k := 32), toNat_shiftLeft_half,
      toNat_and_low]
    · rw [toNat_shiftLeft_half]
      exact Nat.dvd_mul_left _ _
    · rw [toNat_and_low]
      omega
  simp only [BU128.toNat, hlo, UInt64.toNat_add, toNat_shiftRight_half]
  omega

theorem buMul64_toNat (a b : UInt64) :
    (buMul64 a b).toNat = a.toNat * b.toNat := by
  have ha := a.toNat_lt
  have hb := b.toNat_lt
  have half : ∀ {x y : UInt64}, x.toNat < 2 ^ 32 → y.toNat < 2 ^ 32 →
      (x * y).toNat = x.toNat * y.toNat ∧
        (x * y).toNat ≤ (2 ^ 32 - 1) * (2 ^ 32 - 1) := by
    intro x y hx hy
    have hle : x.toNat * y.toNat ≤ (2 ^ 32 - 1) * (2 ^ 32 - 1) :=
      Nat.mul_le_mul (by omega) (by omega)
    rw [toNat_mul_of_lt (by omega)]
    exact ⟨rfl, hle⟩
  have ha0 := toNat_and_low a
  have ha1 := toNat_shiftRight_half a
  have hb0 := toNat_and_low b
  have hb1 := toNat_shiftRight_half b
  generalize hA0 : a &&& lowMask = a0 at ha0
  generalize hA1 : a >>> 32 = a1 at ha1
  generalize hB0 : b &&& lowMask = b0 at hb0
  generalize hB1 : b >>> 32 = b1 at hb1
  obtain ⟨e00, h00⟩ := half (x := a0) (y := b0) (by omega) (by omega)
  obtain ⟨e01, h01⟩ := half (x := a0) (y := b1) (by omega) (by omega)
  obtain ⟨e10, h10⟩ := half (x := a1) (y := b0) (by omega) (by omega)
  obtain ⟨e11, h11⟩ := half (x := a1) (y := b1) (by omega) (by omega)
  have hae : a.toNat = a0.toNat + 2 ^ 32 * a1.toNat := by omega
  have hbe : b.toNat = b0.toNat + 2 ^ 32 * b1.toNat := by omega
  simp only [buMul64, hA0, hA1, hB0, hB1]
  rw [columns_toNat _ _ _ _ h00 h01 h10 h11 _ rfl, e00, e01, e10, e11, hae, hbe]
  ring

theorem buMulSmall_eq_some_iff (v : BU128) (factor : UInt32) (r : BU128) :
    buMulSmall v factor = some r ↔ r.toNat = v.toNat * factor.toNat := by
  have hlow := buMul64_toNat v.lo factor.toUInt64
  have hhigh := buMul64_toNat v.hi factor.toUInt64
  have hf := factor.toNat_lt
  have hr := r.toNat_lt
  have hvl := v.lo.toNat_lt
  have hprod : v.toNat * factor.toNat =
      (buMul64 v.lo factor.toUInt64).toNat +
        2 ^ 64 * (buMul64 v.hi factor.toUInt64).toNat := by
    rw [hlow, hhigh, UInt32.toNat_toUInt64, BU128.toNat]
    ring
  have hcarry : (buMul64 v.lo factor.toUInt64).hi.toNat < 2 ^ 32 := by
    have : v.lo.toNat * factor.toNat < 2 ^ 64 * 2 ^ 32 := by nlinarith
    simp only [BU128.toNat, UInt32.toNat_toUInt64] at hlow
    omega
  unfold buMulSmall
  generalize buMul64 v.lo factor.toUInt64 = low at *
  generalize buMul64 v.hi factor.toUInt64 = high at *
  have hll := low.lo.toNat_lt
  have hhl := high.lo.toNat_lt
  have hzero : (0 : UInt64).toNat = 0 := rfl
  rw [hprod]
  simp only [BU128.toNat, ← UInt64.toNat_inj,
    UInt64.le_iff_toNat_le, UInt64.toNat_add, hzero]
  by_cases hfit : high.hi.toNat = 0 ∧
      high.lo.toNat ≤ (high.lo.toNat + low.hi.toNat) % 2 ^ 64
  · rw [if_pos hfit]
    have hval : (BU128.mk low.lo (high.lo + low.hi)).toNat =
        low.lo.toNat + 2 ^ 64 * low.hi.toNat +
          2 ^ 64 * (high.lo.toNat + 2 ^ 64 * high.hi.toNat) := by
      simp only [BU128.toNat, UInt64.toNat_add]
      omega
    rw [Option.some_inj, ← BU128.toNat_inj, hval]
    exact eq_comm
  · rw [if_neg hfit]
    simp only [BU128.toNat] at hr
    constructor
    · intro h
      cases h
    · intro h
      omega

variable {v : BU128} {bit k : ℕ}

/-- Multiplying by a small factor fails only on overflow. -/
theorem buMulSmall_of_lt {factor : UInt32}
    (h : v.toNat * factor.toNat < 2 ^ 128) :
    buMulSmall v factor = some (BU128.ofNat (v.toNat * factor.toNat)) := by
  rw [buMulSmall_eq_some_iff, BU128.toNat_ofNat h]

theorem buAddSmall_of_lt {addend : UInt32}
    (h : v.toNat + addend.toNat < 2 ^ 128) :
    buAddSmall v addend = some (BU128.ofNat (v.toNat + addend.toNat)) := by
  have hvl := v.lo.toNat_lt
  have hvh := v.hi.toNat_lt
  have ha := addend.toNat_lt
  have hone : (1 : UInt64).toNat = 1 := rfl
  have hzero : (0 : UInt64).toNat = 0 := rfl
  have hcarry := add_lt_left_iff v.lo addend.toUInt64
  rw [UInt32.toNat_toUInt64] at hcarry
  simp only [BU128.toNat] at h
  have hval : (BU128.ofNat (v.toNat + addend.toNat)).toNat =
      v.lo.toNat + 2 ^ 64 * v.hi.toNat + addend.toNat :=
    BU128.toNat_ofNat h
  by_cases hc : v.lo + addend.toUInt64 < v.lo
  · have hover := hcarry.mp hc
    have hhi : (v.hi + 1).toNat = v.hi.toNat + 1 := by
      rw [UInt64.toNat_add, hone]
      omega
    have hne : v.hi + 1 ≠ 0 := by
      rw [ne_eq, ← UInt64.toNat_inj, hhi, hzero]
      omega
    simp only [buAddSmall, hc, decide_true, Bool.not_true, Bool.false_or,
      if_true, bne_iff_ne, ne_eq, hne, not_false_eq_true, Option.some_inj]
    rw [← BU128.toNat_inj, hval]
    simp only [BU128.toNat, hhi, UInt64.toNat_add, UInt32.toNat_toUInt64]
    omega
  · have hfit := mt hcarry.mpr hc
    simp only [buAddSmall, hc, decide_false, Bool.not_false, Bool.true_or,
      if_true, Bool.false_eq_true, if_false, UInt64.add_zero, Option.some_inj]
    rw [← BU128.toNat_inj, hval]
    simp only [BU128.toNat, UInt64.toNat_add, UInt32.toNat_toUInt64]
    omega

theorem buDivStep_spec {divisor : UInt32} (rem : UInt64) (word : UInt32)
    (hrem : rem.toNat < divisor.toNat) :
    (buDivStep divisor rem word).1.toNat * divisor.toNat +
        (buDivStep divisor rem word).2.toNat =
      rem.toNat * 2 ^ 32 + word.toNat ∧
    (buDivStep divisor rem word).2.toNat < divisor.toNat := by
  have hd := divisor.toNat_lt
  have hw := word.toNat_lt
  have hpos : 0 < divisor.toNat := by omega
  have hcur : ((rem <<< 32) ||| word.toUInt64).toNat =
      rem.toNat * 2 ^ 32 + word.toNat := by
    rw [toNat_join_halves (by omega) (by rwa [UInt32.toNat_toUInt64]),
      UInt32.toNat_toUInt64]
  have hquot : (rem.toNat * 2 ^ 32 + word.toNat) / divisor.toNat < 2 ^ 32 := by
    rw [Nat.div_lt_iff_lt_mul hpos]
    nlinarith
  simp only [buDivStep, UInt64.toNat_toUInt32, UInt64.toNat_div,
    UInt64.toNat_mod, UInt32.toNat_toUInt64, hcur, Nat.mod_eq_of_lt hquot]
  exact ⟨Nat.div_add_mod' _ _, Nat.mod_lt _ hpos⟩

/-- Four digits of long division put together. -/
theorem longDivision_four {X d w0 w1 w2 w3 q0 q1 q2 q3 s0 s1 s2 s3 : ℕ} (e0 : q0 * d + s0 = w0)
    (e1 : q1 * d + s1 = s0 * X + w1) (e2 : q2 * d + s2 = s1 * X + w2)
    (e3 : q3 * d + s3 = s2 * X + w3) :
    ((w0 * X + w1) * X + w2) * X + w3 =
      d * (((q0 * X + q1) * X + q2) * X + q3) + s3 := by
  zify at *
  linear_combination (-(X : ℤ) ^ 3) * e0 - (X : ℤ) ^ 2 * e1 - X * e2 - e3

theorem buDivSmall_spec (v : BU128) (divisor : UInt32) (hd : 0 < divisor.toNat) :
    ∃ quotient remainder,
      buDivSmall v divisor = some (quotient, remainder) ∧
      quotient.toNat = v.toNat / divisor.toNat ∧
      remainder.toNat = v.toNat % divisor.toNat := by
  have hlt := divisor.toNat_lt
  have hne : divisor ≠ 0 := by
    rintro rfl
    exact absurd hd (lt_irrefl 0)
  obtain ⟨e0, l0⟩ := buDivStep_spec 0 (v.hi >>> 32).toUInt32 hd
  obtain ⟨e1, l1⟩ := buDivStep_spec _ v.hi.toUInt32 l0
  obtain ⟨e2, l2⟩ := buDivStep_spec _ (v.lo >>> 32).toUInt32 l1
  obtain ⟨e3, l3⟩ := buDivStep_spec _ v.lo.toUInt32 l2
  simp only [buDivSmall, hne, if_false]
  generalize buDivStep divisor 0 (v.hi >>> 32).toUInt32 = r0 at *
  generalize buDivStep divisor r0.2 v.hi.toUInt32 = r1 at *
  generalize buDivStep divisor r1.2 (v.lo >>> 32).toUInt32 = r2 at *
  generalize buDivStep divisor r2.2 v.lo.toUInt32 = r3 at *
  have hvl := v.lo.toNat_lt
  have hvh := v.hi.toNat_lt
  have b0 := r0.1.toNat_lt
  have b1 := r1.1.toNat_lt
  have b2 := r2.1.toNat_lt
  have b3 := r3.1.toNat_lt
  have hzero : (0 : UInt64).toNat = 0 := rfl
  have join : ∀ a b : UInt32,
      ((a.toUInt64 <<< 32) ||| b.toUInt64).toNat =
        a.toNat * 2 ^ 32 + b.toNat := fun a b => by
    rw [toNat_join_halves] <;> simp only [UInt32.toNat_toUInt64]
    · exact a.toNat_lt
    · exact b.toNat_lt
  have hdiv : v.toNat =
      divisor.toNat *
        (((r0.1.toNat * 2 ^ 32 + r1.1.toNat) * 2 ^ 32 + r2.1.toNat) * 2 ^ 32 +
          r3.1.toNat) + r3.2.toNat := by
    rw [hzero, Nat.zero_mul, Nat.zero_add] at e0
    rw [← longDivision_four e0 e1 e2 e3]
    simp only [BU128.toNat, UInt64.toNat_toUInt32, toNat_shiftRight_half]
    omega
  refine ⟨_, _, rfl, ?_, ?_⟩
  · rw [hdiv, Nat.mul_add_div hd, Nat.div_eq_of_lt l3]
    simp only [BU128.toNat, join]
    omega
  · rw [UInt64.toNat_toUInt32, hdiv, Nat.mul_add_mod, Nat.mod_eq_of_lt l3]
    omega

theorem buShiftLeftOne_of_lt (h : v.toNat < 2 ^ 127) :
    ∃ out, buShiftLeftOne v = some out ∧ out.toNat = 2 * v.toNat ∧
      out.lo.toNat % 2 = 0 := by
  have hlo := v.lo.toNat_lt
  have hzero : (0 : UInt64).toNat = 0 := rfl
  simp only [BU128.toNat] at h
  have htop : v.hi >>> 63 = 0 := by
    rw [← UInt64.toNat_inj, UInt64.toNat_shiftRight, hzero]
    change v.hi.toNat >>> 63 = 0
    rw [Nat.shiftRight_eq_div_pow]
    omega
  have hcarry : (v.lo >>> 63).toNat = v.lo.toNat / 2 ^ 63 := by
    rw [UInt64.toNat_shiftRight]
    exact Nat.shiftRight_eq_div_pow v.lo.toNat 63
  have hlow : (v.lo <<< 1).toNat = v.lo.toNat * 2 % 2 ^ 64 := by
    rw [UInt64.toNat_shiftLeft]
    change v.lo.toNat <<< 1 % 2 ^ 64 = _
    rw [Nat.shiftLeft_eq]
  have hhigh : (v.hi <<< 1).toNat = v.hi.toNat * 2 := by
    rw [UInt64.toNat_shiftLeft]
    change v.hi.toNat <<< 1 % 2 ^ 64 = _
    rw [Nat.shiftLeft_eq]
    omega
  have hjoin : ((v.hi <<< 1) ||| (v.lo >>> 63)).toNat =
      v.hi.toNat * 2 + v.lo.toNat / 2 ^ 63 := by
    rw [toNat_or_of_lt (k := 1), hhigh, hcarry]
    · rw [hhigh]
      exact Nat.dvd_mul_left _ _
    · rw [hcarry]
      omega
  refine ⟨⟨v.lo <<< 1, (v.hi <<< 1) ||| (v.lo >>> 63)⟩, ?_, ?_, ?_⟩
  · simp only [buShiftLeftOne, htop, if_true]
  · simp only [BU128.toNat, hjoin, hlow]
    omega
  · rw [hlow]
    omega

theorem toNat_shiftRight_and_one {a : UInt64} (hk : k < 64) :
    ((a >>> UInt64.ofNat k) &&& 1).toNat = a.toNat / 2 ^ k % 2 := by
  rw [UInt64.toNat_and, UInt64.toNat_shiftRight, UInt64.toNat_ofNat',
    Nat.mod_eq_of_lt (by omega : k < 2 ^ 64), Nat.mod_eq_of_lt hk,
    Nat.shiftRight_eq_div_pow]
  exact Nat.and_two_pow_sub_one_eq_mod _ 1

theorem toNat_one_shiftLeft (hk : k < 64) :
    ((1 : UInt64) <<< UInt64.ofNat k).toNat = 2 ^ k := by
  rw [UInt64.toNat_shiftLeft, UInt64.toNat_ofNat',
    Nat.mod_eq_of_lt (by omega : k < 2 ^ 64), Nat.mod_eq_of_lt hk,
    Nat.shiftLeft_eq]
  have hone : (1 : UInt64).toNat = 1 := rfl
  rw [hone, Nat.one_mul, Nat.mod_eq_of_lt (Nat.pow_lt_pow_right (by omega) hk)]

theorem lt_sixtyFour_iff (h : bit < 128) :
    UInt64.ofNat bit < 64 ↔ bit < 64 := by
  rw [UInt64.lt_iff_toNat_lt, UInt64.toNat_ofNat',
    Nat.mod_eq_of_lt (by omega : bit < 2 ^ 64)]
  exact Iff.rfl

theorem ofNat_sub_sixtyFour (h : bit < 128) (h64 : ¬ bit < 64) :
    UInt64.ofNat bit - 64 = UInt64.ofNat (bit - 64) := by
  have h64' : (64 : UInt64).toNat = 64 := rfl
  rw [← UInt64.toNat_inj, UInt64.toNat_sub, UInt64.toNat_ofNat',
    UInt64.toNat_ofNat', h64']
  omega

theorem buBit_eq_true_iff (v : BU128) (h : bit < 128) :
    buBit v (UInt64.ofNat bit) = true ↔ v.toNat / 2 ^ bit % 2 = 1 := by
  have hlo := v.lo.toNat_lt
  have hone : (1 : UInt64).toNat = 1 := rfl
  simp only [buBit, lt_sixtyFour_iff h]
  split
  case isTrue h64 =>
    rw [decide_eq_true_iff, ← UInt64.toNat_inj,
      toNat_shiftRight_and_one h64, hone]
    have hpow : (2 : ℕ) ^ 64 = 2 ^ bit * (2 * 2 ^ (63 - bit)) := by
      rw [← pow_succ', ← pow_add]
      congr 1
      omega
    rw [BU128.toNat, hpow, Nat.mul_assoc,
      Nat.add_mul_div_left _ _ (Nat.two_pow_pos bit), Nat.mul_assoc,
      Nat.add_mul_mod_self_left]
  case isFalse h64 =>
    rw [ofNat_sub_sixtyFour h h64, decide_eq_true_iff, ← UInt64.toNat_inj,
      toNat_shiftRight_and_one (by omega), hone]
    have hpow : (2 : ℕ) ^ bit = 2 ^ 64 * 2 ^ (bit - 64) := by
      rw [← pow_add]
      congr 1
      omega
    rw [BU128.toNat, hpow, ← Nat.div_div_eq_div_mul,
      Nat.add_mul_div_left _ _ (Nat.two_pow_pos 64), Nat.div_eq_of_lt hlo,
      Nat.zero_add]

/-- Setting a bit below which the word is empty adds that bit. -/
theorem buSetBit_toNat (h : bit < 128)
    (hv : 2 ^ (bit + 1) ∣ v.toNat) :
    (buSetBit v (UInt64.ofNat bit)).toNat = v.toNat + 2 ^ bit := by
  have hlo := v.lo.toNat_lt
  simp only [buSetBit, lt_sixtyFour_iff h]
  split
  case isTrue h64 =>
    have hdvd : 2 ^ (bit + 1) ∣ v.lo.toNat := by
      rw [BU128.toNat] at hv
      refine (Nat.dvd_add_iff_left ?_).mpr hv
      exact Dvd.dvd.mul_right (pow_dvd_pow 2 (by omega)) _
    simp only [BU128.toNat]
    rw [toNat_or_of_lt (k := bit + 1) hdvd, toNat_one_shiftLeft h64]
    · omega
    · rw [toNat_one_shiftLeft h64]
      exact Nat.pow_lt_pow_right (by omega) (by omega)
  case isFalse h64 =>
    have hpow : (2 : ℕ) ^ bit = 2 ^ 64 * 2 ^ (bit - 64) := by
      rw [← pow_add]
      congr 1
      omega
    have hzero : v.lo.toNat = 0 := by
      have hdvd : 2 ^ 64 ∣ v.toNat :=
        dvd_trans (pow_dvd_pow 2 (by omega)) hv
      simp only [BU128.toNat] at hdvd
      omega
    have hdvd : 2 ^ (bit - 64 + 1) ∣ v.hi.toNat := by
      rw [BU128.toNat, hzero, Nat.zero_add, pow_succ, hpow, Nat.mul_assoc,
        ← pow_succ] at hv
      exact Nat.dvd_of_mul_dvd_mul_left (Nat.two_pow_pos 64) hv
    rw [ofNat_sub_sixtyFour h h64]
    simp only [BU128.toNat]
    rw [toNat_or_of_lt (k := bit - 64 + 1) hdvd, toNat_one_shiftLeft (by omega),
      hpow]
    · ring
    · rw [toNat_one_shiftLeft (by omega)]
      exact Nat.pow_lt_pow_right (by omega) (by omega)

/--
What a state of the bit loop stands for: the scanned prefix of the dividend has
been divided, and its quotient sits above the bits still to be scanned.
-/
def DivInvariant (value divisor bit : ℕ) (quotient remainder : BU128) : Prop :=
  quotient.toNat = value / 2 ^ bit / divisor * 2 ^ bit ∧
    remainder.toNat = value / 2 ^ bit % divisor

/-- Dividing one more bit of the dividend. -/
theorem div_step (value bit : ℕ) {divisor : ℕ} (hd : 0 < divisor) :
    let p := value / 2 ^ (bit + 1)
    let scanned := 2 * (p % divisor) + value / 2 ^ bit % 2
    value / 2 ^ bit / divisor =
        2 * (p / divisor) + (if divisor ≤ scanned then 1 else 0) ∧
      value / 2 ^ bit % divisor =
        if divisor ≤ scanned then scanned - divisor else scanned := by
  intro p scanned
  have hp : value / 2 ^ bit = 2 * p + value / 2 ^ bit % 2 := by
    have : p = value / 2 ^ bit / 2 := by
      simp only [p]
      rw [pow_succ, Nat.div_div_eq_div_mul]
    omega
  have hmod := Nat.mod_lt p hd
  have hsum : value / 2 ^ bit = divisor * (2 * (p / divisor)) + scanned := by
    have := Nat.div_add_mod p divisor
    rw [hp]
    simp only [scanned]
    linarith
  have hlt : scanned < 2 * divisor := by
    simp only [scanned]
    omega
  rw [hsum, Nat.mul_add_div hd, Nat.mul_add_mod]
  split
  case isTrue h =>
    have hq : scanned / divisor = 1 :=
      Nat.div_eq_of_lt_le (by omega) (by omega)
    refine ⟨by rw [hq], ?_⟩
    rw [Nat.mod_eq_sub_mod h]
    exact Nat.mod_eq_of_lt (by omega)
  case isFalse h =>
    have hsmall : scanned < divisor := by omega
    exact ⟨by rw [Nat.div_eq_of_lt hsmall], Nat.mod_eq_of_lt hsmall⟩

/-- A turn of the division brings down one bit. -/
theorem buDivLoop_spec {value divisor : BU128}
    (hd : 0 < divisor.toNat) (htop : divisor.toNat ≤ 2 ^ 127) :
    ∀ (bit : ℕ) (quotient remainder : BU128), bit ≤ 128 →
      DivInvariant value.toNat divisor.toNat bit quotient remainder →
      ∃ q r, buDivLoop value divisor bit quotient remainder = some (q, r) ∧
        DivInvariant value.toNat divisor.toNat 0 q r
  | 0, quotient, remainder, _, hinv => ⟨quotient, remainder, rfl, hinv⟩
  | bit + 1, quotient, remainder, hbit, ⟨hq, hr⟩ => by
      have hlt : remainder.toNat < divisor.toNat := by
        rw [hr]
        exact Nat.mod_lt _ hd
      obtain ⟨shifted, hshift, hval, hlow⟩ :=
        buShiftLeftOne_of_lt (v := remainder) (by omega)
      simp only [buDivLoop, hshift]
      have hbitval := buBit_eq_true_iff value (show bit < 128 by omega)
      generalize hscan : (if buBit value (UInt64.ofNat bit) = true then
        { shifted with lo := shifted.lo ||| 1 } else shifted) = scanned
      have hscanned : scanned.toNat =
          2 * (value.toNat / 2 ^ (bit + 1) % divisor.toNat) +
            value.toNat / 2 ^ bit % 2 := by
        rw [← hscan, ← hr, ← hval]
        split
        case isTrue h =>
          have hone : (1 : UInt64).toNat = 1 := rfl
          have hor : (shifted.lo ||| 1).toNat = shifted.lo.toNat + 1 := by
            rw [toNat_or_of_lt (k := 1) (by omega) (by omega), hone]
          rw [hbitval.mp h]
          simp only [BU128.toNat, hor]
          omega
        case isFalse h =>
          have := mt hbitval.mpr h
          rcases Nat.mod_two_eq_zero_or_one (value.toNat / 2 ^ bit) with h | h
          · rw [h, Nat.add_zero]
          · exact absurd h this
      obtain ⟨hquot, hrem⟩ :=
        div_step value.toNat bit hd
      have hquotdvd : 2 ^ (bit + 1) ∣ quotient.toNat := by
        rw [hq]
        exact Nat.dvd_mul_left _ _
      simp only [buCmp_nonneg_iff]
      split
      case isTrue hge =>
        apply buDivLoop_spec hd htop bit _ _ (by omega)
        refine ⟨?_, ?_⟩
        · rw [buSetBit_toNat (by omega) hquotdvd, hq, hquot, if_pos (by omega)]
          ring
        · rw [buSub_toNat hge, hrem, if_pos (by omega), hscanned]
      case isFalse hlt' =>
        apply buDivLoop_spec hd htop bit _ _ (by omega)
        refine ⟨?_, ?_⟩
        · rw [hq, hquot, if_neg (by omega)]
          ring
        · rw [hrem, if_neg (by omega), hscanned]

/-- Long division of two magnitudes. -/
theorem buDivmod_spec {value divisor : BU128} (hd : 0 < divisor.toNat) :
    ∃ quotient remainder,
      buDivmod value divisor = some (quotient, remainder) ∧
      quotient.toNat = value.toNat / divisor.toNat ∧
      remainder.toNat = value.toNat % divisor.toNat := by
  have hne : ¬ buZero divisor = true := by
    rw [buZero_eq_true_iff]
    omega
  have hvalue := value.toNat_lt
  have hlo := divisor.lo.toNat_lt
  simp only [buDivmod, hne, Bool.false_eq_true, if_false]
  by_cases hlt : buCmp value divisor < 0
  · have h : value.toNat < divisor.toNat := by
      by_contra hge
      have := (buCmp_nonneg_iff value divisor).mpr (by omega)
      omega
    refine ⟨⟨0, 0⟩, value, by rw [if_pos hlt], ?_, ?_⟩
    · rw [Nat.div_eq_of_lt h]
      rfl
    · rw [Nat.mod_eq_of_lt h]
  · have h : divisor.toNat ≤ value.toNat :=
      (buCmp_nonneg_iff value divisor).mp (by omega)
    rw [if_neg hlt]
    have htop : divisor.hi >>> 63 ≠ 0 ↔ 2 ^ 127 ≤ divisor.toNat := by
      have hzero : (0 : UInt64).toNat = 0 := rfl
      rw [ne_eq, ← UInt64.toNat_inj, UInt64.toNat_shiftRight, hzero]
      change ¬ divisor.hi.toNat >>> 63 = 0 ↔ _
      rw [Nat.shiftRight_eq_div_pow, BU128.toNat]
      omega
    by_cases hbig : divisor.hi >>> 63 ≠ 0
    · have := htop.mp hbig
      have hq : value.toNat / divisor.toNat = 1 :=
        Nat.div_eq_of_lt_le (by omega) (by omega)
      refine ⟨⟨1, 0⟩, buSub value divisor, by rw [if_pos hbig], ?_, ?_⟩
      · rw [hq]
        rfl
      · rw [buSub_toNat h, Nat.mod_eq_sub_mod h, Nat.mod_eq_of_lt (by omega)]
    · have hsmall := mt htop.mpr hbig
      rw [if_neg hbig]
      obtain ⟨q, r, hrun, hq, hr⟩ :=
        buDivLoop_spec hd (by omega) 128 ⟨0, 0⟩ ⟨0, 0⟩
          (le_refl _) (by
            rw [DivInvariant, Nat.div_eq_of_lt hvalue]
            simp [BU128.toNat])
      refine ⟨q, r, hrun, ?_, ?_⟩
      · simpa using hq
      · simpa using hr

end Decimal
end Beans
