import Beans.Decimal.Words128
import Beans.Foundation.Limbs
import Beans.Runtime.Prelude

/-!
# The 512-bit working value

Decimal operations compute in eight 64-bit limbs, wide enough that no valid
input wraps before its 38-digit result is checked.  Every limb loop of the
runtime is a pass of `Limbs`; the specification of each function is read off
from the pass rule and one fact about one limb.
-/

namespace Beans
namespace Decimal

open Words Limbs

/-- Number of limbs of a working value. -/
def bdecWideLimbs : ℕ := 8

/-- Eight words, the least significant one first. -/
structure BDecWide where
  limb : List UInt64
  size : limb.length = bdecWideLimbs
deriving DecidableEq, Repr

def decOverflow {α : Type*} (site : Site) : Except Panic α :=
  beansPanic "decimal overflow" site

def decwFrom128 (value : BU128) : BDecWide :=
  ⟨[value.lo, value.hi, 0, 0, 0, 0, 0, 0], rfl⟩

def decwZero (value : BDecWide) : Bool := value.limb.all (· == 0)

/-- Limbs compared from the most significant one down. -/
def decwCmpLoop : List UInt64 → List UInt64 → Int
  | a :: as, b :: bs =>
    if decwCmpLoop as bs ≠ 0 then decwCmpLoop as bs
    else if a ≠ b then
      if a < b then -1 else 1
    else 0
  | _, _ => 0

def decwCmp (a b : BDecWide) : Int := decwCmpLoop a.limb b.limb

/-- One word with its carry. -/
def decwAddStep (carry : UInt64) (d : UInt64 × UInt64) : UInt64 × UInt64 :=
  let first := d.1 + d.2
  let carryFirst : Bool := first < d.1
  let second := first + carry
  let carrySecond : Bool := second < first
  (second, if carryFirst || carrySecond then 1 else 0)

def decwAdd (value other : BDecWide) (site : Site) : Except Panic BDecWide :=
  let r := sweepUp decwAddStep 0 (value.limb.zip other.limb)
  if r.2 ≠ 0 then decOverflow site
  else .ok ⟨r.1, by simp [r, value.size, other.size]⟩

/-- One word with its borrow. -/
def decwSubStep (borrow : UInt64) (d : UInt64 × UInt64) : UInt64 × UInt64 :=
  let before := d.1
  let rhs := d.2 + borrow
  let wrapped : Bool := rhs < d.2
  (before - rhs, if wrapped || before < rhs then 1 else 0)

/-- Meant for `other ≤ value`; the last borrow is dropped. -/
def decwSub (value other : BDecWide) : BDecWide :=
  ⟨(sweepUp decwSubStep 0 (value.limb.zip other.limb)).1,
    by simp [value.size, other.size]⟩

def decwIncrementLoop : List UInt64 → Option (List UInt64)
  | [] => none
  | w :: ws =>
    if w + 1 ≠ 0 then some ((w + 1) :: ws)
    else (decwIncrementLoop ws).map ((w + 1) :: ·)

theorem decwIncrementLoop_length :
    ∀ {ws out : List UInt64}, decwIncrementLoop ws = some out →
      out.length = ws.length
  | [], _, h => by simp [decwIncrementLoop] at h
  | w :: ws, out, h => by
      unfold decwIncrementLoop at h
      split_ifs at h
      · cases h
        rfl
      · obtain ⟨tail, htail, rfl⟩ := Option.map_eq_some_iff.mp h
        simp [decwIncrementLoop_length htail]

/-- One more; a carry out of the last word is an overflow. -/
def decwIncrement (value : BDecWide) (site : Site) : Except Panic BDecWide :=
  match h : decwIncrementLoop value.limb with
  | none => decOverflow site
  | some out => .ok ⟨out, by rw [decwIncrementLoop_length h, value.size]⟩

def decwMul10Step (carry limb : UInt64) : UInt64 × UInt64 :=
  let product := buMul64 limb 10
  let low := product.lo + carry
  (low, product.hi + (if low < product.lo then 1 else 0))

def decwMul10 (value : BDecWide) (site : Site) : Except Panic BDecWide :=
  let r := sweepUp decwMul10Step 0 value.limb
  if r.2 ≠ 0 then decOverflow site
  else .ok ⟨r.1, by simp [r, value.size]⟩

/-- `count` multiplications by ten. -/
def decwMul10Times (site : Site) : ℕ → BDecWide → Except Panic BDecWide
  | 0, value => .ok value
  | count + 1, value => do
      let next ← decwMul10 value site
      decwMul10Times site count next

/-- At most 150 times ten. -/
def decwMulPow10 (value : BDecWide) (power : Int) (site : Site) :
    Except Panic BDecWide :=
  if power < 0 ∨ 150 < power then decOverflow site
  else decwMul10Times site power.toNat value

/-- A word is divided in two halves of 32 bits. -/
def decwDiv10Step (remainder limb : UInt64) : UInt64 × UInt64 :=
  let high := (remainder <<< 32) ||| (limb >>> 32)
  let quotientHigh := (high / 10).toUInt32
  let remainder := high % 10
  let low := (remainder <<< 32) ||| limb.toUInt32.toUInt64
  let quotientLow := (low / 10).toUInt32
  let remainder := low % 10
  ((quotientHigh.toUInt64 <<< 32) ||| quotientLow.toUInt64, remainder)

/-- The quotient by ten and the digit that fell out. -/
def decwDiv10 (value : BDecWide) : BDecWide × UInt32 :=
  let r := sweepDown decwDiv10Step 0 value.limb
  (⟨r.1, by simp [r, value.size]⟩, r.2.toUInt32)

def decwMod10 (value : BDecWide) : UInt32 := (decwDiv10 value).2

/-- The digit loop, run for at most `fuel` digits. -/
def decwDigitsLoop : ℕ → BDecWide → ℕ → ℕ
  | 0, _, digits => digits
  | fuel + 1, copy, digits =>
    if decwZero copy then digits
    else decwDigitsLoop fuel (decwDiv10 copy).1 (digits + 1)

/-- A 512-bit value has at most 155 decimal digits. -/
def decwDigits (value : BDecWide) : ℕ :=
  if decwZero value then 1 else decwDigitsLoop 155 value 0

/-- The lower two words, when the others are zero. -/
def decwTo128 (value : BDecWide) (site : Site) : Except Panic BU128 :=
  match value.limb with
  | lo :: hi :: rest =>
    if rest.all (· == 0) then .ok ⟨lo, hi⟩ else decOverflow site
  | _ => decOverflow site

/-- Adds a word to a limb string; `none` when the carry leaves it. -/
def decwAddAtLoop : List UInt64 → UInt64 → Option (List UInt64)
  | [], word => if word = 0 then some [] else none
  | w :: ws, word =>
    if word = 0 then some (w :: ws)
    else
      (decwAddAtLoop ws (if w + word < w then 1 else 0)).map ((w + word) :: ·)

theorem decwAddAtLoop_length :
    ∀ {ws : List UInt64} {word : UInt64} {out : List UInt64},
      decwAddAtLoop ws word = some out → out.length = ws.length
  | [], word, out, h => by
      unfold decwAddAtLoop at h
      split_ifs at h
      cases h
      rfl
  | w :: ws, word, out, h => by
      unfold decwAddAtLoop at h
      by_cases hword : word = 0
      · rw [if_pos hword] at h
        cases h
        rfl
      · rw [if_neg hword] at h
        obtain ⟨tail, htail, rfl⟩ := Option.map_eq_some_iff.mp h
        simp [decwAddAtLoop_length htail]

def decwAddAt (out : BDecWide) (at_ : ℕ) (word : UInt64) (site : Site) :
    Except Panic BDecWide :=
  match h : decwAddAtLoop (out.limb.drop at_) word with
  | none => decOverflow site
  | some tail =>
    .ok ⟨out.limb.take at_ ++ tail, by
      rw [List.length_append, decwAddAtLoop_length h, ← List.length_append,
        List.take_append_drop, out.size]⟩

/-- One turn of the double loop of `decwMultiply`. -/
def decwAddProduct (out : BDecWide) (at_ : ℕ) (a b : UInt64) (site : Site) :
    Except Panic BDecWide := do
  let product := buMul64 a b
  let out ← decwAddAt out at_ product.lo site
  decwAddAt out (at_ + 1) product.hi site

/-- The four products of the halves, each added at its place. -/
def decwMultiply (left right : BU128) (site : Site) :
    Except Panic BDecWide := do
  let out : BDecWide := ⟨List.replicate bdecWideLimbs 0, by simp⟩
  let out ← decwAddProduct out 0 left.lo right.lo site
  let out ← decwAddProduct out 1 left.lo right.hi site
  let out ← decwAddProduct out 1 left.hi right.lo site
  decwAddProduct out 2 left.hi right.hi site

/-- The natural number a limb string denotes. -/
def limbsNat : List UInt64 → ℕ
  | [] => 0
  | w :: ws => w.toNat + 2 ^ 64 * limbsNat ws

/-- The same number, as the passes of `Limbs` read it. -/
theorem value_eq_limbsNat :
    ∀ ws : List UInt64,
      value (2 ^ 64) (fun w : UInt64 => (w.toNat : ℤ)) ws = (limbsNat ws : ℤ)
  | [] => rfl
  | w :: ws => by
      rw [value_cons, value_eq_limbsNat ws, limbsNat]
      push_cast
      rfl

theorem limbsNat_lt : ∀ ws : List UInt64, limbsNat ws < (2 ^ 64) ^ ws.length
  | [] => by simp [limbsNat]
  | w :: ws => by
      have ih := limbsNat_lt ws
      have hw := w.toNat_lt
      rw [limbsNat, List.length_cons, pow_succ' (2 ^ 64) ws.length]
      generalize (2 ^ 64) ^ ws.length = bound at ih
      omega

theorem limbsNat_inj :
    ∀ {xs ys : List UInt64}, xs.length = ys.length →
      limbsNat xs = limbsNat ys → xs = ys
  | [], [], _, _ => rfl
  | x :: xs, y :: ys, hlen, h => by
      have hx := x.toNat_lt
      have hy := y.toNat_lt
      simp only [limbsNat] at h
      have hxy : x = y := UInt64.toNat_inj.mp (by omega)
      have htail : xs = ys :=
        limbsNat_inj (by simpa using hlen) (by omega)
      rw [hxy, htail]

theorem limbsNat_eq_zero_iff :
    ∀ ws : List UInt64, limbsNat ws = 0 ↔ ws.all (· == 0) = true
  | [] => by simp [limbsNat]
  | w :: ws => by
      have ih := limbsNat_eq_zero_iff ws
      have hzero : (0 : UInt64).toNat = 0 := rfl
      rw [List.all_cons, Bool.and_eq_true, ← ih, beq_iff_eq,
        ← UInt64.toNat_inj, hzero, limbsNat]
      omega

/-- `n` written in `count` limbs, lowest first. -/
def limbsOfNat : ℕ → ℕ → List UInt64
  | 0, _ => []
  | count + 1, n => UInt64.ofNat n :: limbsOfNat count (n / 2 ^ 64)

@[simp] theorem limbsOfNat_length :
    ∀ count n : ℕ, (limbsOfNat count n).length = count
  | 0, _ => rfl
  | count + 1, n => by simp [limbsOfNat, limbsOfNat_length count]

theorem limbsNat_limbsOfNat :
    ∀ count n : ℕ, n < (2 ^ 64) ^ count → limbsNat (limbsOfNat count n) = n
  | 0, n, h => by
      simp only [pow_zero, Nat.lt_one_iff] at h
      simp [limbsOfNat, limbsNat, h]
  | count + 1, n, h => by
      have hdiv : n / 2 ^ 64 < (2 ^ 64) ^ count :=
        Nat.div_lt_of_lt_mul (by rwa [pow_succ, Nat.mul_comm] at h)
      rw [limbsOfNat, limbsNat, limbsNat_limbsOfNat count _ hdiv,
        UInt64.toNat_ofNat']
      exact Nat.mod_add_div n (2 ^ 64)

/-- The first number a working value cannot hold. -/
def wideLimit : ℕ := (2 ^ 64) ^ bdecWideLimbs

namespace BDecWide

def toNat (v : BDecWide) : ℕ := limbsNat v.limb

theorem toNat_lt (v : BDecWide) : v.toNat < wideLimit := by
  have h := limbsNat_lt v.limb
  rw [v.size] at h
  exact h

theorem toNat_inj {v w : BDecWide} : v.toNat = w.toNat ↔ v = w := by
  constructor
  · intro h
    obtain ⟨vl, vs⟩ := v
    obtain ⟨wl, ws⟩ := w
    have hl : vl = wl := limbsNat_inj (by rw [vs, ws]) h
    subst hl
    rfl
  · rintro rfl
    rfl

/-- The working value that holds `n`. -/
def ofNat (n : ℕ) : BDecWide :=
  ⟨limbsOfNat bdecWideLimbs n, limbsOfNat_length _ _⟩

theorem toNat_ofNat {n : ℕ} (h : n < wideLimit) : (ofNat n).toNat = n :=
  limbsNat_limbsOfNat bdecWideLimbs n h

/-- A working value is determined by what it holds. -/
theorem eq_ofNat {v : BDecWide} {n : ℕ} (h : v.toNat = n) : v = ofNat n := by
  have hlt := v.toNat_lt
  rw [← toNat_inj, toNat_ofNat (by omega), h]

end BDecWide

@[simp] theorem decwFrom128_toNat (v : BU128) :
    (decwFrom128 v).toNat = v.toNat := by
  simp [BDecWide.toNat, decwFrom128, limbsNat, BU128.toNat]

@[simp] theorem decwZero_eq_true_iff (v : BDecWide) :
    decwZero v = true ↔ v.toNat = 0 :=
  (limbsNat_eq_zero_iff v.limb).symm

theorem decwCmpLoop_spec :
    ∀ {xs ys : List UInt64}, xs.length = ys.length →
      (limbsNat xs < limbsNat ys ∧ decwCmpLoop xs ys = -1) ∨
        (limbsNat xs = limbsNat ys ∧ decwCmpLoop xs ys = 0) ∨
        (limbsNat ys < limbsNat xs ∧ decwCmpLoop xs ys = 1)
  | [], [], _ => by simp [decwCmpLoop, limbsNat]
  | x :: xs, y :: ys, hlen => by
      have ih := decwCmpLoop_spec (by simpa using hlen)
      have hx := x.toNat_lt
      have hy := y.toNat_lt
      simp only [limbsNat]
      rcases ih with ⟨h, e⟩ | ⟨h, e⟩ | ⟨h, e⟩
      · exact Or.inl ⟨by omega, by simp [decwCmpLoop, e]⟩
      · rcases lt_trichotomy x.toNat y.toNat with hxy | hxy | hxy
        · have hne : x ≠ y := fun heq => by
            rw [heq] at hxy
            exact lt_irrefl _ hxy
          have hlt := UInt64.lt_iff_toNat_lt.mpr hxy
          exact Or.inl ⟨by omega, by simp [decwCmpLoop, e, hne, hlt]⟩
        · have heq := UInt64.toNat_inj.mp hxy
          exact Or.inr (Or.inl ⟨by omega, by simp [decwCmpLoop, e, heq]⟩)
        · have hne : x ≠ y := fun heq => by
            rw [heq] at hxy
            exact lt_irrefl _ hxy
          have hlt : ¬ x < y := by
            rw [UInt64.lt_iff_toNat_lt]
            omega
          exact Or.inr (Or.inr
            ⟨by omega, by simp [decwCmpLoop, e, hne, hlt]⟩)
      · exact Or.inr (Or.inr ⟨by omega, by simp [decwCmpLoop, e]⟩)

theorem decwCmp_eq (a b : BDecWide) :
    decwCmp a b =
      if a.toNat < b.toNat then -1
      else if b.toNat < a.toNat then 1 else 0 := by
  have h : (a.toNat < b.toNat ∧ decwCmp a b = -1) ∨
      (a.toNat = b.toNat ∧ decwCmp a b = 0) ∨
      (b.toNat < a.toNat ∧ decwCmp a b = 1) :=
    decwCmpLoop_spec (by rw [a.size, b.size])
  rcases h with ⟨h, e⟩ | ⟨h, e⟩ | ⟨h, e⟩
  · rw [e, if_pos h]
  · rw [e, if_neg (by omega), if_neg (by omega)]
  · rw [e, if_neg (by omega), if_pos h]

theorem decwCmp_nonneg_iff (a b : BDecWide) :
    0 ≤ decwCmp a b ↔ b.toNat ≤ a.toNat := by
  rw [decwCmp_eq]
  split_ifs <;> omega

theorem decwAddStep_spec (carry : UInt64) (d : UInt64 × UInt64)
    (hc : carry.toNat ≤ 1) :
    (decwAddStep carry d).1.toNat + 2 ^ 64 * (decwAddStep carry d).2.toNat =
        d.1.toNat + d.2.toNat + carry.toNat ∧
      (decwAddStep carry d).2.toNat ≤ 1 := by
  have h₁ := add_carry d.1 d.2
  have h₂ := add_carry (d.1 + d.2) carry
  have hd₁ := d.1.toNat_lt
  have hd₂ := d.2.toNat_lt
  have hone : (1 : UInt64).toNat = 1 := rfl
  have hzero : (0 : UInt64).toNat = 0 := rfl
  simp only [decwAddStep]
  by_cases hfirst : d.1 + d.2 < d.1 <;>
    by_cases hsecond : d.1 + d.2 + carry < d.1 + d.2 <;>
    simp only [hfirst, hsecond, if_true, if_false, decide_true, decide_false,
      Bool.or_true, Bool.or_false, Bool.false_eq_true, hone, hzero] at h₁ h₂ ⊢ <;>
    omega

variable {a b : BDecWide}

theorem decwAdd_of_lt (site : Site)
    (h : a.toNat + b.toNat < wideLimit) :
    decwAdd a b site = .ok (BDecWide.ofNat (a.toNat + b.toNat)) := by
  have hlen : a.limb.length = b.limb.length := by rw [a.size, b.size]
  obtain ⟨hval, -⟩ :=
    sweepUp_value (2 ^ 64) decwAddStep (fun w => (w.toNat : ℤ))
      (fun d => (d.1.toNat : ℤ) + d.2.toNat) (fun c => (c.toNat : ℤ))
      (fun c => c.toNat ≤ 1)
      (fun c d hc => by
        have := decwAddStep_spec c d hc
        exact ⟨by exact_mod_cast this.1, this.2⟩)
      0 (a.limb.zip b.limb) (by simp)
  rw [value_zip _ _ (fun w => (w.toNat : ℤ)) (fun w => (w.toNat : ℤ)) 1 1
    (by simp) _ _ hlen, value_eq_limbsNat, value_eq_limbsNat,
    value_eq_limbsNat, List.length_zip, ← hlen, min_self, a.size] at hval
  have hsum : limbsNat (sweepUp decwAddStep 0 (a.limb.zip b.limb)).1 +
      wideLimit * (sweepUp decwAddStep 0 (a.limb.zip b.limb)).2.toNat =
        a.toNat + b.toNat := by
    unfold wideLimit
    simp only [one_mul, UInt64.toNat_zero, Nat.cast_zero, add_zero] at hval
    exact_mod_cast hval
  have hcarry : (sweepUp decwAddStep 0 (a.limb.zip b.limb)).2.toNat = 0 := by
    by_contra hne
    have := Nat.le_mul_of_pos_right wideLimit (Nat.pos_of_ne_zero hne)
    omega
  rw [hcarry, Nat.mul_zero, Nat.add_zero] at hsum
  simp only [decwAdd, ne_eq, ← UInt64.toNat_inj, hcarry, UInt64.toNat_zero,
    not_true_eq_false, if_false]
  exact congrArg Except.ok (BDecWide.eq_ofNat hsum)

theorem decwSubStep_spec (borrow : UInt64) (d : UInt64 × UInt64)
    (hb : borrow.toNat ≤ 1) :
    (decwSubStep borrow d).1.toNat + d.2.toNat + borrow.toNat =
        d.1.toNat + 2 ^ 64 * (decwSubStep borrow d).2.toNat ∧
      (decwSubStep borrow d).2.toNat ≤ 1 := by
  have h₁ := add_carry d.2 borrow
  have h₂ := sub_borrow d.1 (d.2 + borrow)
  have hd₁ := d.1.toNat_lt
  have hd₂ := d.2.toNat_lt
  have hone : (1 : UInt64).toNat = 1 := rfl
  have hzero : (0 : UInt64).toNat = 0 := rfl
  have hlt : d.1 < d.2 + borrow ↔ d.1.toNat < (d.2 + borrow).toNat :=
    UInt64.lt_iff_toNat_lt
  simp only [decwSubStep]
  by_cases hwrap : d.2 + borrow < d.2 <;>
    by_cases hless : d.1 < d.2 + borrow <;>
    simp only [hwrap, hless, if_true, if_false, decide_true, decide_false,
      Bool.or_true, Bool.or_false, Bool.false_eq_true, true_iff, hone,
      hzero] at h₁ h₂ hlt ⊢ <;>
    omega

theorem decwSub_toNat (h : b.toNat ≤ a.toNat) :
    (decwSub a b).toNat = a.toNat - b.toNat := by
  have hlen : a.limb.length = b.limb.length := by rw [a.size, b.size]
  obtain ⟨hval, -⟩ :=
    sweepUp_value (2 ^ 64) decwSubStep (fun w => (w.toNat : ℤ))
      (fun d => (d.1.toNat : ℤ) - d.2.toNat) (fun c => -(c.toNat : ℤ))
      (fun c => c.toNat ≤ 1)
      (fun c d hc => by
        have hstep := decwSubStep_spec c d hc
        have hcast : ((decwSubStep c d).1.toNat : ℤ) + d.2.toNat + c.toNat =
            d.1.toNat + 2 ^ 64 * (decwSubStep c d).2.toNat := by
          exact_mod_cast hstep.1
        exact ⟨by linarith, hstep.2⟩)
      0 (a.limb.zip b.limb) (by simp)
  rw [value_zip _ _ (fun w => (w.toNat : ℤ)) (fun w => (w.toNat : ℤ)) 1 (-1)
    (by intros; ring) _ _ hlen, value_eq_limbsNat, value_eq_limbsNat,
    value_eq_limbsNat, List.length_zip, ← hlen, min_self, a.size] at hval
  have hsum : (decwSub a b).toNat + b.toNat =
      a.toNat + wideLimit * (sweepUp decwSubStep 0 (a.limb.zip b.limb)).2.toNat := by
    unfold wideLimit
    simp only [UInt64.toNat_zero, Nat.cast_zero, neg_zero, add_zero] at hval
    zify
    change (limbsNat (sweepUp decwSubStep 0 (a.limb.zip b.limb)).1 : ℤ) +
      limbsNat b.limb = limbsNat a.limb + _
    linarith
  have hlt := (decwSub a b).toNat_lt
  have hborrow : (sweepUp decwSubStep 0 (a.limb.zip b.limb)).2.toNat = 0 := by
    by_contra hne
    have := Nat.le_mul_of_pos_right wideLimit (Nat.pos_of_ne_zero hne)
    omega
  rw [hborrow, Nat.mul_zero] at hsum
  omega

theorem decwIncrementLoop_of_lt :
    ∀ {ws : List UInt64}, limbsNat ws + 1 < (2 ^ 64) ^ ws.length →
      ∃ out, decwIncrementLoop ws = some out ∧ limbsNat out = limbsNat ws + 1
  | [], h => by simp [limbsNat] at h
  | w :: ws, h => by
      have hw := w.toNat_lt
      have hone : (1 : UInt64).toNat = 1 := rfl
      have hzero : (0 : UInt64).toNat = 0 := rfl
      unfold decwIncrementLoop
      by_cases hne : w + 1 ≠ 0
      · refine ⟨_, by rw [if_pos hne], ?_⟩
        rw [ne_eq, ← UInt64.toNat_inj, UInt64.toNat_add, hone, hzero] at hne
        rw [limbsNat, limbsNat, UInt64.toNat_add, hone]
        omega
      · rw [if_neg hne]
        rw [ne_eq, not_not, ← UInt64.toNat_inj, UInt64.toNat_add, hone,
          hzero] at hne
        have hlt : limbsNat ws + 1 < (2 ^ 64) ^ ws.length := by
          rw [limbsNat, List.length_cons, pow_succ' (2 ^ 64) ws.length] at h
          generalize (2 ^ 64) ^ ws.length = bound at h
          omega
        obtain ⟨out, hout, hval⟩ := decwIncrementLoop_of_lt hlt
        refine ⟨(w + 1) :: out, by rw [hout]; rfl, ?_⟩
        rw [limbsNat, limbsNat, hval, UInt64.toNat_add, hone]
        omega

theorem decwIncrement_of_lt (site : Site)
    (h : a.toNat + 1 < wideLimit) :
    decwIncrement a site = .ok (BDecWide.ofNat (a.toNat + 1)) := by
  obtain ⟨out, hout, hval⟩ :=
    decwIncrementLoop_of_lt (by rw [a.size]; exact h)
  unfold decwIncrement
  split
  · rename_i hnone
    rw [hout] at hnone
    cases hnone
  · rename_i out' hsome
    rw [hout] at hsome
    cases hsome
    exact congrArg Except.ok (BDecWide.eq_ofNat hval)

theorem decwMul10Step_spec (carry limb : UInt64) (hc : carry.toNat < 10) :
    (decwMul10Step carry limb).1.toNat +
        2 ^ 64 * (decwMul10Step carry limb).2.toNat =
      10 * limb.toNat + carry.toNat ∧
    (decwMul10Step carry limb).2.toNat < 10 := by
  have hten : (10 : UInt64).toNat = 10 := rfl
  have hone : (1 : UInt64).toNat = 1 := rfl
  have hmul := buMul64_toNat limb 10
  have hlimb := limb.toNat_lt
  rw [BU128.toNat, hten] at hmul
  simp only [decwMul10Step]
  generalize buMul64 limb 10 = product at *
  have hlo := product.lo.toNat_lt
  have hcarry := add_carry product.lo carry
  have hhi : (product.hi + 1).toNat = product.hi.toNat + 1 := by
    rw [toNat_add_of_lt] <;> rw [hone]
    omega
  by_cases hover : product.lo + carry < product.lo <;>
    simp only [hover, if_true, if_false, hhi, UInt64.add_zero] at hcarry ⊢ <;>
    omega

theorem decwMul10_of_lt (site : Site)
    (h : 10 * a.toNat < wideLimit) :
    decwMul10 a site = .ok (BDecWide.ofNat (10 * a.toNat)) := by
  obtain ⟨hval, -⟩ :=
    sweepUp_value (2 ^ 64) decwMul10Step (fun w => (w.toNat : ℤ))
      (fun w => 10 * (w.toNat : ℤ)) (fun c => (c.toNat : ℤ))
      (fun c => c.toNat < 10)
      (fun c d hc => by
        have := decwMul10Step_spec c d hc
        exact ⟨by exact_mod_cast this.1, this.2⟩)
      0 a.limb (by simp)
  have hten : ∀ ws : List UInt64,
      value (2 ^ 64) (fun w : UInt64 => 10 * (w.toNat : ℤ)) ws =
        10 * limbsNat ws := by
    intro ws
    induction ws with
    | nil => rfl
    | cons w ws ih =>
      rw [value_cons, ih, limbsNat]
      push_cast
      ring
  rw [value_eq_limbsNat, hten, a.size] at hval
  have hsum : limbsNat (sweepUp decwMul10Step 0 a.limb).1 +
      wideLimit * (sweepUp decwMul10Step 0 a.limb).2.toNat = 10 * a.toNat := by
    unfold wideLimit
    simp only [UInt64.toNat_zero, Nat.cast_zero, add_zero] at hval
    exact_mod_cast hval
  have hcarry : (sweepUp decwMul10Step 0 a.limb).2.toNat = 0 := by
    by_contra hne
    have := Nat.le_mul_of_pos_right wideLimit (Nat.pos_of_ne_zero hne)
    omega
  rw [hcarry, Nat.mul_zero, Nat.add_zero] at hsum
  simp only [decwMul10, ne_eq, ← UInt64.toNat_inj, hcarry, UInt64.toNat_zero,
    not_true_eq_false, if_false]
  exact congrArg Except.ok (BDecWide.eq_ofNat hsum)

theorem decwMul10Times_of_lt (site : Site) :
    ∀ (count : ℕ) {a : BDecWide}, a.toNat * 10 ^ count < wideLimit →
      decwMul10Times site count a = .ok (BDecWide.ofNat (a.toNat * 10 ^ count))
  | 0, a, _ => by
      rw [pow_zero, Nat.mul_one]
      exact congrArg Except.ok (BDecWide.eq_ofNat rfl)
  | count + 1, a, h => by
      have hpow : a.toNat * 10 ^ (count + 1) = 10 * a.toNat * 10 ^ count := by
        rw [pow_succ]
        ring
      have hten : 10 * a.toNat < wideLimit := by
        refine lt_of_le_of_lt ?_ h
        rw [hpow]
        exact Nat.le_mul_of_pos_right _ (Nat.pow_pos (by omega))
      have hval := BDecWide.toNat_ofNat hten
      have ih := decwMul10Times_of_lt site count
        (a := BDecWide.ofNat (10 * a.toNat)) (by rw [hval, ← hpow]; exact h)
      rw [hval, ← hpow] at ih
      rw [decwMul10Times, decwMul10_of_lt site hten, ok_bind]
      exact ih

theorem decwMulPow10_of_lt {power : ℕ} (site : Site)
    (hp : power ≤ 150) (h : a.toNat * 10 ^ power < wideLimit) :
    decwMulPow10 a power site = .ok (BDecWide.ofNat (a.toNat * 10 ^ power)) := by
  rw [decwMulPow10, if_neg (by omega), Int.toNat_natCast]
  exact decwMul10Times_of_lt site power h

theorem decwDiv10Step_spec (remainder limb : UInt64) (hr : remainder.toNat < 10) :
    10 * (decwDiv10Step remainder limb).1.toNat +
        (decwDiv10Step remainder limb).2.toNat =
      remainder.toNat * 2 ^ 64 + limb.toNat ∧
    (decwDiv10Step remainder limb).2.toNat < 10 := by
  have hten : (10 : UInt64).toNat = 10 := rfl
  have hlimb := limb.toNat_lt
  set high := (remainder <<< 32) ||| (limb >>> 32) with hhigh
  have ehigh : high.toNat = remainder.toNat * 2 ^ 32 + limb.toNat / 2 ^ 32 := by
    rw [hhigh, toNat_join_halves (by omega)] <;> rw [toNat_shiftRight_half]
    omega
  have erem : (high % 10).toNat = high.toNat % 10 := by
    rw [UInt64.toNat_mod, hten]
  have hlowhalf : limb.toUInt32.toUInt64.toNat = limb.toNat % 2 ^ 32 := by
    rw [UInt32.toNat_toUInt64, UInt64.toNat_toUInt32]
  set low := ((high % 10) <<< 32) ||| limb.toUInt32.toUInt64 with hlow
  have elow : low.toNat = high.toNat % 10 * 2 ^ 32 + limb.toNat % 2 ^ 32 := by
    rw [hlow, toNat_join_halves (by omega) (by omega), erem, hlowhalf]
  have eqh : (high / 10).toUInt32.toUInt64.toNat = high.toNat / 10 := by
    rw [UInt32.toNat_toUInt64, UInt64.toNat_toUInt32, UInt64.toNat_div, hten]
    omega
  have eql : (low / 10).toUInt32.toUInt64.toNat = low.toNat / 10 := by
    rw [UInt32.toNat_toUInt64, UInt64.toNat_toUInt32, UInt64.toNat_div, hten]
    omega
  have hdigit : (decwDiv10Step remainder limb).1.toNat =
      high.toNat / 10 * 2 ^ 32 + low.toNat / 10 := by
    change (((high / 10).toUInt32.toUInt64 <<< 32) |||
      (low / 10).toUInt32.toUInt64).toNat = _
    rw [toNat_join_halves (by omega) (by omega), eqh, eql]
  have hrem : (decwDiv10Step remainder limb).2.toNat = low.toNat % 10 := by
    change (low % 10).toNat = _
    rw [UInt64.toNat_mod, hten]
  rw [hdigit, hrem]
  omega

/-- Dividing by ten drops the last decimal digit and hands it over. -/
theorem decwDiv10_spec (a : BDecWide) :
    (decwDiv10 a).1.toNat = a.toNat / 10 ∧
      (decwDiv10 a).2.toNat = a.toNat % 10 := by
  obtain ⟨hval, hlast⟩ :=
    sweepDown_value (2 ^ 64) 10 decwDiv10Step (fun w => (w.toNat : ℤ))
      (fun w => (w.toNat : ℤ)) (fun c => (c.toNat : ℤ))
      (fun c => c.toNat < 10)
      (fun c d hc => by
        have := decwDiv10Step_spec c d hc
        exact ⟨by exact_mod_cast this.1, this.2⟩)
      0 a.limb (by simp)
  rw [value_eq_limbsNat, value_eq_limbsNat, UInt64.toNat_zero, Nat.cast_zero,
    zero_mul, zero_add] at hval
  have hsum : 10 * (decwDiv10 a).1.toNat +
      (sweepDown decwDiv10Step 0 a.limb).2.toNat = a.toNat := by
    exact_mod_cast hval
  have hdigit : (decwDiv10 a).2.toNat =
      (sweepDown decwDiv10Step 0 a.limb).2.toNat := by
    change (sweepDown decwDiv10Step 0 a.limb).2.toUInt32.toNat = _
    rw [UInt64.toNat_toUInt32]
    omega
  rw [hdigit]
  omega

theorem decwMod10_toNat (a : BDecWide) :
    (decwMod10 a).toNat = a.toNat % 10 := (decwDiv10_spec a).2

/-- Number of decimal digits of `n`; zero is written with one. -/
def numDigits (n : ℕ) : ℕ := Nat.log 10 n + 1

theorem numDigits_div_ten {n : ℕ} (h : 10 ≤ n) :
    numDigits (n / 10) + 1 = numDigits n := by
  have := Nat.log_of_one_lt_of_le (by omega : 1 < 10) h
  unfold numDigits
  omega

theorem numDigits_le_iff {n k : ℕ} (hk : 0 < k) :
    numDigits n ≤ k ↔ n < 10 ^ k := by
  unfold numDigits
  rcases Nat.eq_zero_or_pos n with rfl | hn
  · simp only [Nat.log_zero_right, Nat.zero_add]
    exact ⟨fun _ => Nat.pow_pos (by omega), fun _ => hk⟩
  · exact (Nat.log_lt_iff_lt_pow (by omega) (by omega))

theorem numDigits_mul_pow {n : ℕ} (hn : 0 < n) :
    ∀ e : ℕ, numDigits (n * 10 ^ e) = numDigits n + e
  | 0 => by simp
  | e + 1 => by
      have ih := numDigits_mul_pow hn e
      have hne : n * 10 ^ e ≠ 0 := by positivity
      rw [pow_succ, ← Nat.mul_assoc, numDigits,
        Nat.log_mul_base (by omega) hne]
      unfold numDigits at *
      omega

theorem decwDigitsLoop_eq :
    ∀ (fuel : ℕ) (copy : BDecWide) (digits : ℕ), copy.toNat < 10 ^ fuel →
      decwDigitsLoop fuel copy digits =
        if copy.toNat = 0 then digits else digits + numDigits copy.toNat
  | 0, copy, digits, h => by
      have hzero : copy.toNat = 0 := by simpa using h
      rw [decwDigitsLoop, if_pos hzero]
  | fuel + 1, copy, digits, h => by
      rw [decwDigitsLoop]
      by_cases hzero : copy.toNat = 0
      · rw [if_pos hzero, if_pos ((decwZero_eq_true_iff copy).mpr hzero)]
      · rw [if_neg hzero, if_neg (mt (decwZero_eq_true_iff copy).mp hzero)]
        have hdiv := (decwDiv10_spec copy).1
        rw [decwDigitsLoop_eq fuel _ _ (by
          rw [hdiv]
          exact Nat.div_lt_of_lt_mul (by rwa [pow_succ'] at h)), hdiv]
        by_cases hten : 10 ≤ copy.toNat
        · rw [if_neg (by omega), ← numDigits_div_ten hten]
          omega
        · have hone : numDigits copy.toNat = 1 := by
            rw [numDigits, Nat.log_of_lt (by omega)]
          rw [if_pos (by omega), hone]

theorem wideLimit_le : wideLimit ≤ 10 ^ 155 := by
  unfold wideLimit bdecWideLimbs
  norm_num

@[simp] theorem decwDigits_eq (a : BDecWide) :
    decwDigits a = numDigits a.toNat := by
  unfold decwDigits
  by_cases hzero : a.toNat = 0
  · rw [if_pos ((decwZero_eq_true_iff a).mpr hzero), hzero, numDigits,
      Nat.log_zero_right]
  · rw [if_neg (mt (decwZero_eq_true_iff a).mp hzero),
      decwDigitsLoop_eq 155 a 0 (lt_of_lt_of_le a.toNat_lt wideLimit_le),
      if_neg hzero, Nat.zero_add]

theorem decwTo128_of_lt (site : Site) (h : a.toNat < 2 ^ 128) :
    decwTo128 a site = .ok (BU128.ofNat a.toNat) := by
  obtain ⟨limb, size⟩ := a
  match limb, size with
  | lo :: hi :: rest, size =>
    have hlo := lo.toNat_lt
    have hhi := hi.toNat_lt
    have hval : lo.toNat + 2 ^ 64 * (hi.toNat + 2 ^ 64 * limbsNat rest) <
        2 ^ 128 := h
    have hrest : limbsNat rest = 0 := by omega
    simp only [decwTo128, (limbsNat_eq_zero_iff rest).mp hrest, if_true]
    refine congrArg Except.ok (BU128.toNat_inj.mp ?_)
    rw [BU128.toNat_ofNat h]
    simp only [BU128.toNat, BDecWide.toNat, limbsNat, hrest]
    omega

theorem decwAddAtLoop_of_lt :
    ∀ {ws : List UInt64} {word : UInt64},
      limbsNat ws + word.toNat < (2 ^ 64) ^ ws.length →
      ∃ out, decwAddAtLoop ws word = some out ∧
        limbsNat out = limbsNat ws + word.toNat
  | [], word, h => by
      have hword : word = 0 := by
        rw [← UInt64.toNat_inj, UInt64.toNat_zero]
        simpa [limbsNat] using h
      exact ⟨[], by rw [decwAddAtLoop, if_pos hword], by simp [limbsNat, hword]⟩
  | w :: ws, word, h => by
      have hw := w.toNat_lt
      unfold decwAddAtLoop
      by_cases hword : word = 0
      · exact ⟨w :: ws, by rw [if_pos hword], by simp [hword]⟩
      · have hcarry := add_carry w word
        have hbit : (if w + word < w then (1 : UInt64) else 0).toNat =
            if w + word < w then 1 else 0 := by
          split <;> rfl
        have hlt : limbsNat ws +
            (if w + word < w then (1 : UInt64) else 0).toNat <
              (2 ^ 64) ^ ws.length := by
          rw [limbsNat, List.length_cons, pow_succ' (2 ^ 64) ws.length] at h
          generalize (2 ^ 64) ^ ws.length = bound at h
          rw [hbit]
          omega
        obtain ⟨out, hout, hval⟩ := decwAddAtLoop_of_lt hlt
        refine ⟨(w + word) :: out, by rw [if_neg hword, hout]; rfl, ?_⟩
        rw [limbsNat, limbsNat, hval, hbit]
        omega

theorem limbsNat_append :
    ∀ xs ys : List UInt64,
      limbsNat (xs ++ ys) = limbsNat xs + (2 ^ 64) ^ xs.length * limbsNat ys
  | [], ys => by simp [limbsNat]
  | x :: xs, ys => by
      rw [List.cons_append, limbsNat, limbsNat_append xs ys, limbsNat,
        List.length_cons, pow_succ' (2 ^ 64) xs.length]
      ring

theorem decwAddAt_of_lt {out : BDecWide} {at_ : ℕ} {word : UInt64}
    (site : Site) (hat : at_ ≤ bdecWideLimbs)
    (h : out.toNat + (2 ^ 64) ^ at_ * word.toNat < wideLimit) :
    decwAddAt out at_ word site =
      .ok (BDecWide.ofNat (out.toNat + (2 ^ 64) ^ at_ * word.toNat)) := by
  have htake : (out.limb.take at_).length = at_ := by
    rw [List.length_take, out.size, min_eq_left hat]
  have hsplit : out.toNat =
      limbsNat (out.limb.take at_) +
        (2 ^ 64) ^ at_ * limbsNat (out.limb.drop at_) := by
    conv_lhs => rw [BDecWide.toNat, ← List.take_append_drop at_ out.limb]
    rw [limbsNat_append, htake]
  have hdroplen : (out.limb.drop at_).length = bdecWideLimbs - at_ := by
    rw [List.length_drop, out.size]
  have hpow : wideLimit = (2 ^ 64) ^ at_ * (2 ^ 64) ^ (bdecWideLimbs - at_) := by
    rw [← pow_add, Nat.add_sub_cancel' hat]
    rfl
  have hlt : limbsNat (out.limb.drop at_) + word.toNat <
      (2 ^ 64) ^ (out.limb.drop at_).length := by
    rw [hdroplen]
    refine Nat.lt_of_mul_lt_mul_left (a := (2 ^ 64) ^ at_) ?_
    rw [← hpow, Nat.mul_add]
    omega
  obtain ⟨tail, htail, hval⟩ := decwAddAtLoop_of_lt hlt
  unfold decwAddAt
  split
  · rename_i hnone
    rw [htail] at hnone
    cases hnone
  · rename_i tail' hsome
    rw [htail] at hsome
    cases hsome
    refine congrArg Except.ok (BDecWide.eq_ofNat ?_)
    rw [BDecWide.toNat, limbsNat_append, htake, hval, hsplit]
    ring

theorem decwAddProduct_of_lt (out : BDecWide) (at_ : ℕ) (a b : UInt64)
    (site : Site) (hat : at_ < bdecWideLimbs)
    (h : out.toNat + (2 ^ 64) ^ at_ * (a.toNat * b.toNat) < wideLimit) :
    decwAddProduct out at_ a b site =
      .ok (BDecWide.ofNat
        (out.toNat + (2 ^ 64) ^ at_ * (a.toNat * b.toNat))) := by
  rw [← buMul64_toNat a b] at h ⊢
  have hparts : out.toNat + (2 ^ 64) ^ at_ * (buMul64 a b).toNat =
      out.toNat + (2 ^ 64) ^ at_ * (buMul64 a b).lo.toNat +
        (2 ^ 64) ^ (at_ + 1) * (buMul64 a b).hi.toNat := by
    rw [BU128.toNat, pow_succ]
    ring
  rw [hparts] at h ⊢
  have hfirst : out.toNat + (2 ^ 64) ^ at_ * (buMul64 a b).lo.toNat < wideLimit := by
    omega
  have hval := BDecWide.toNat_ofNat hfirst
  have hsecond := decwAddAt_of_lt
    site hat (by rw [hval]; exact h)
  rw [hval] at hsecond
  simp only [decwAddProduct, decwAddAt_of_lt site hat.le hfirst, ok_bind,
    hsecond]

/-- The product of two magnitudes always fits. -/
theorem decwMultiply_eq (left right : BU128) (site : Site) :
    decwMultiply left right site =
      .ok (BDecWide.ofNat (left.toNat * right.toNat)) := by
  have hl := left.toNat_lt
  have hr := right.toNat_lt
  have hprod : left.toNat * right.toNat =
      left.lo.toNat * right.lo.toNat +
        2 ^ 64 * (left.lo.toNat * right.hi.toNat) +
        2 ^ 64 * (left.hi.toNat * right.lo.toNat) +
        (2 ^ 64) ^ 2 * (left.hi.toNat * right.hi.toNat) := by
    simp only [BU128.toNat]
    ring
  have hlt : left.toNat * right.toNat < wideLimit := by
    have hle : left.toNat * right.toNat < 2 ^ 128 * 2 ^ 128 :=
      Nat.mul_lt_mul'' hl hr
    refine lt_of_lt_of_le hle ?_
    unfold wideLimit bdecWideLimbs
    norm_num
  have h0 : (BDecWide.mk (List.replicate bdecWideLimbs 0) (by simp)).toNat = 0 := by
    rfl
  rw [hprod] at hlt
  have e1 := decwAddProduct_of_lt ⟨List.replicate bdecWideLimbs 0, by simp⟩ 0
    left.lo right.lo site (by decide)
    (by rw [h0, pow_zero]; omega)
  rw [h0, pow_zero, Nat.one_mul, Nat.zero_add] at e1
  have v1 := BDecWide.toNat_ofNat
    (n := left.lo.toNat * right.lo.toNat) (by omega)
  have e2 := decwAddProduct_of_lt
    (BDecWide.ofNat (left.lo.toNat * right.lo.toNat)) 1 left.lo right.hi site
    (by decide)
    (by rw [v1, pow_one]; omega)
  rw [v1, pow_one] at e2
  have v2 := BDecWide.toNat_ofNat
    (n := left.lo.toNat * right.lo.toNat +
      2 ^ 64 * (left.lo.toNat * right.hi.toNat)) (by omega)
  have e3 := decwAddProduct_of_lt
    (BDecWide.ofNat (left.lo.toNat * right.lo.toNat +
      2 ^ 64 * (left.lo.toNat * right.hi.toNat))) 1 left.hi right.lo site
    (by decide)
    (by rw [v2, pow_one]; omega)
  rw [v2, pow_one] at e3
  have v3 := BDecWide.toNat_ofNat
    (n := left.lo.toNat * right.lo.toNat +
      2 ^ 64 * (left.lo.toNat * right.hi.toNat) +
      2 ^ 64 * (left.hi.toNat * right.lo.toNat)) (by omega)
  have e4 := decwAddProduct_of_lt
    (BDecWide.ofNat (left.lo.toNat * right.lo.toNat +
      2 ^ 64 * (left.lo.toNat * right.hi.toNat) +
      2 ^ 64 * (left.hi.toNat * right.lo.toNat))) 2 left.hi right.hi site
    (by decide)
    (by rw [v3]; exact hlt)
  rw [v3, ← hprod] at e4
  simp only [decwMultiply, e1, ok_bind, e2, e3, e4]

end Decimal
end Beans
