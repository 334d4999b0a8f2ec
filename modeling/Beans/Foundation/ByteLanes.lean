import Beans.Foundation.LittleEndian

/-!
# Words as eight lanes of bytes

A 64-bit word read as eight bytes, the least significant first.  The bitwise
operations work lane by lane; a difference does so as long as no lower lane
borrows.  The count of trailing zeros tells the first lane that is not zero.
-/

namespace Beans
namespace ByteLanes

/-- The byte in a lane. -/
def lane (word : UInt64) (k : ℕ) : UInt8 :=
  (word >>> (8 * k).toUInt64).toUInt8

/-- The count of zero bits below the lowest set one. -/
def trailingZeros (word : UInt64) : ℕ :=
  ((List.range 64).takeWhile fun i => !word.toNat.testBit i).length

section

variable {word other : UInt64} {k : ℕ}

theorem lane_toNat (h : k < 8) : (lane word k).toNat = word.toNat / 256 ^ k % 256 := by
  have hshift : (8 * k).toUInt64.toNat % 64 = 8 * k := by
    rw [UInt64.toNat_ofNat_of_lt' (by have : UInt64.size = 2 ^ 64 := rfl; omega)]
    omega
  rw [lane, UInt64.toNat_toUInt8, UInt64.toNat_shiftRight, hshift,
    Nat.shiftRight_eq_div_pow, pow_mul]
  norm_num

theorem lane_and : lane (word &&& other) k = lane word k &&& lane other k := by
  rw [lane, UInt64.shiftRight_and, UInt64.toUInt8_and]
  rfl

theorem lane_or : lane (word ||| other) k = lane word k ||| lane other k := by
  rw [lane, UInt64.shiftRight_or, UInt64.toUInt8_or]
  rfl

theorem lane_xor : lane (word ^^^ other) k = lane word k ^^^ lane other k := by
  rw [lane, UInt64.shiftRight_xor, UInt64.toUInt8_xor]
  rfl

theorem lane_not (h : k < 8) : lane (~~~word) k = ~~~lane word k := by
  have hones : ~~~word = word ^^^ (-1) := by
    rw [← UInt64.toBitVec_inj]
    ext i
    simp
  have hlane : lane (-1) k = -1 := by
    interval_cases k <;> decide
  rw [hones, lane_xor, hlane, ← UInt8.toBitVec_inj]
  ext i
  simp

/-- Lane by lane comparison bounds the low lanes together. -/
theorem low_le (h : k ≤ 8) (hle : ∀ j < k, (lane other j).toNat ≤ (lane word j).toNat) :
    other.toNat % 256 ^ k ≤ word.toNat % 256 ^ k := by
  induction k with
  | zero => simp [Nat.mod_one]
  | succ k ih =>
    have hlow := ih (by omega) fun j hj => hle j (by omega)
    have hlast := hle k (by omega)
    rw [lane_toNat (by omega), lane_toNat (by omega)] at hlast
    rw [Nat.mod_pow_succ, Nat.mod_pow_succ]
    gcongr

/-- A lane of a difference, where no lane below it borrows. -/
theorem lane_sub (h : k < 8) (hle : ∀ j < k, (lane other j).toNat ≤ (lane word j).toNat) :
    lane (word - other) k = lane word k - lane other k := by
  have hlow := low_le h.le hle
  have hword := word.toNat_lt
  have hother := other.toNat_lt
  rw [← UInt8.toNat_inj, UInt8.toNat_sub, lane_toNat h, lane_toNat h, lane_toNat h,
    UInt64.toNat_sub]
  interval_cases k <;> omega

theorem lane_zero (k : ℕ) : lane 0 k = 0 := by
  rw [lane, UInt64.zero_shiftRight]
  rfl

theorem eq_zero_of_lanes (h : ∀ k < 8, lane word k = 0) : word = 0 := by
  have hlow := @low_le 0 word 8 le_rfl fun j hj => by
    rw [h j hj, lane_zero]
  rw [← UInt64.toNat_inj]
  have hword := word.toNat_lt
  rw [UInt64.toNat_zero] at hlow ⊢
  omega

/-- A bit of a word is a bit of its lane. -/
theorem testBit_lane {bit : ℕ} (h : k < 8) (hbit : bit < 8) :
    word.toNat.testBit (8 * k + bit) = (lane word k).toNat.testBit bit := by
  have hpow : (256 : ℕ) ^ k = 2 ^ (8 * k) := by
    rw [pow_mul]
    norm_num
  rw [lane_toNat h, hpow, show (256 : ℕ) = 2 ^ 8 from rfl, Nat.testBit_mod_two_pow,
    Nat.testBit_div_two_pow, decide_eq_true hbit, Bool.true_and, Nat.add_comm]

theorem length_takeWhile_range {p : ℕ → Bool} {m n : ℕ}
    (hbelow : ∀ i < m, p i = true)
    (hat : p m = false)
    (hm : m < n) :
    ((List.range n).takeWhile p).length = m := by
  have hsplit : List.range n = List.range m ++ m :: (List.range' (m + 1) (n - m - 1)) := by
    have hcount : n = m + (n - m - 1 + 1) := by omega
    rw [List.range_eq_range', List.range_eq_range', ← List.range'_succ]
    nth_rewrite 1 [hcount]
    rw [← List.range'_append_1, Nat.zero_add]
  rw [hsplit, List.takeWhile_append_of_pos fun i hi => hbelow i (List.mem_range.mp hi),
    List.takeWhile_cons_of_neg (by simp [hat]), List.append_nil, List.length_range]

/-- The count of trailing zeros lies in the first lane that is not zero. -/
theorem trailingZeros_div (h : k < 8)
    (hbelow : ∀ j < k, lane word j = 0)
    (hlane : lane word k ≠ 0) :
    trailingZeros word / 8 = k := by
  obtain ⟨bit, hset⟩ : ∃ bit, (lane word k).toNat.testBit bit = true := by
    by_contra hnone
    refine hlane (UInt8.toNat_inj.mp (Nat.eq_of_testBit_eq fun bit => ?_))
    simpa using not_exists.mp hnone bit
  have hbit : bit < 8 := by
    by_contra hlarge
    have hsmall := Nat.testBit_lt_two_pow
      ((lane word k).toNat_lt.trans_le (Nat.pow_le_pow_right (by decide) (not_lt.mp hlarge)))
    rw [hset] at hsmall
    exact absurd hsmall (by simp)
  have hexists : ∃ i, word.toNat.testBit i = true :=
    ⟨8 * k + bit, (testBit_lane h hbit).trans hset⟩
  have hfound := Nat.find_spec hexists
  have hleast : Nat.find hexists ≤ 8 * k + bit :=
    Nat.find_min' hexists ((testBit_lane h hbit).trans hset)
  have hfrom : 8 * k ≤ Nat.find hexists := by
    by_contra hlower
    have hzero := hbelow (Nat.find hexists / 8) (by omega)
    rw [← Nat.div_add_mod (Nat.find hexists) 8,
      testBit_lane (by omega) (Nat.mod_lt _ (by decide)), hzero] at hfound
    simp at hfound
  have hcount : trailingZeros word = Nat.find hexists :=
    length_takeWhile_range
      (fun i hi => by simpa using Nat.find_min hexists hi) (by simp [hfound]) (by omega)
  omega

end

/-- A lane of the word that bytes stand for. -/
theorem lane_of_value {word : UInt64} {bytes : List UInt8} {k : ℕ}
    (hword : word.toNat = LittleEndian.value bytes)
    (hlength : bytes.length ≤ 8)
    (hk : k < bytes.length) :
    lane word k = bytes[k] := by
  have hdigit : ∀ (bytes : List UInt8) (k : ℕ) (hk : k < bytes.length),
      LittleEndian.value bytes / 256 ^ k % 256 = bytes[k].toNat := by
    intro bytes
    induction bytes with
    | nil => exact fun k hk => absurd hk (by simp)
    | cons byte bytes ih =>
      intro k hk
      have hbyte := byte.toNat_lt
      cases k with
      | zero =>
        rw [LittleEndian.value_cons, pow_zero, Nat.div_one, List.getElem_cons_zero]
        omega
      | succ k =>
        have hrest := ih k (by simpa using hk)
        rw [LittleEndian.value_cons, pow_succ', ← Nat.div_div_eq_div_mul,
          List.getElem_cons_succ, ← hrest]
        congr 2
        omega
  rw [← UInt8.toNat_inj, lane_toNat (by omega), hword, hdigit bytes k hk]

end ByteLanes
end Beans
