import Mathlib

/-!
# Numbers written from the left

The value of a list of digits, the highest first.  Without zeros in front, more digits
are a larger number, and of two lists of one length the first difference decides.
Accumulating from the left computes the value, and a wrapping accumulator computes
its remainder.
-/

namespace Beans
namespace Horner

variable {base : ℕ} {ds es : List ℕ}

def value (base : ℕ) (ds : List ℕ) : ℕ :=
  Nat.ofDigits base ds.reverse

theorem value_nil : value base [] = 0 :=
  rfl

theorem value_cons (d : ℕ) (ds : List ℕ) :
    value base (d :: ds) = value base ds + base ^ ds.length * d := by
  rw [value, List.reverse_cons, Nat.ofDigits_append, List.length_reverse, Nat.ofDigits_singleton,
    value]

theorem value_lt (hbase : 1 < base) (h : ∀ d ∈ ds, d < base) :
    value base ds < base ^ ds.length := by
  rw [value, ← List.length_reverse]
  exact Nat.ofDigits_lt_base_pow_length hbase fun d hd => h d (List.mem_reverse.mp hd)

/-- A first digit that is not zero makes the number as long as it is written. -/
theorem le_value {d : ℕ} (h : 0 < d) :
    base ^ ds.length ≤ value base (d :: ds) := by
  rw [value_cons]
  exact (Nat.le_mul_of_pos_right _ h).trans (Nat.le_add_left _ _)

theorem value_eq_zero (hbase : 1 < base) :
    value base ds = 0 ↔ ∀ d ∈ ds, d = 0 := by
  induction ds with
  | nil => exact ⟨fun _ d hd => absurd hd List.not_mem_nil, fun _ => rfl⟩
  | cons d ds ih =>
    have hpow : base ^ ds.length ≠ 0 := pow_ne_zero _ (by omega)
    rw [value_cons, List.forall_mem_cons, Nat.add_eq_zero_iff, Nat.mul_eq_zero, ih]
    constructor
    · rintro ⟨hrest, hzero | hd⟩
      · exact absurd hzero hpow
      · exact ⟨hd, hrest⟩
    · rintro ⟨hd, hrest⟩
      exact ⟨hrest, .inr hd⟩

theorem value_dropZeros (ds : List ℕ) :
    value base (ds.dropWhile (· == 0)) = value base ds := by
  induction ds with
  | nil => rfl
  | cons d ds ih =>
    rw [List.dropWhile_cons]
    split_ifs with hzero
    · rw [ih, value_cons, eq_of_beq hzero, mul_zero, add_zero]
    · rfl

/-- No zero stands in front. -/
def Trimmed (ds : List ℕ) : Prop :=
  ∀ d ∈ ds.head?, 0 < d

theorem trimmed_dropZeros (ds : List ℕ) :
    Trimmed (ds.dropWhile (· == 0)) := by
  induction ds with
  | nil => exact fun d hd => absurd hd (by simp)
  | cons d ds ih =>
    rw [List.dropWhile_cons]
    split_ifs with hzero
    · exact ih
    · intro e he
      rw [← Option.some.inj he]
      have hne : d ≠ 0 := fun h => hzero (by rw [h]; rfl)
      omega

/-- The number of digits tells whether a power of the base is reached. -/
theorem pow_le_value_iff (hbase : 1 < base) (h : ∀ d ∈ ds, d < base) (htrimmed : Trimmed ds)
    (n : ℕ) :
    base ^ n ≤ value base ds ↔ n < ds.length := by
  constructor
  · intro hle
    exact (Nat.pow_lt_pow_iff_right hbase).mp (hle.trans_lt (value_lt hbase h))
  · intro hlt
    cases ds with
    | nil => exact absurd hlt (Nat.not_lt_zero n)
    | cons d ds =>
      have hle : n ≤ ds.length := Nat.lt_succ_iff.mp hlt
      exact (Nat.pow_le_pow_right (by omega) hle).trans (le_value (htrimmed d rfl))

theorem value_lt_pow_iff (hbase : 1 < base) (h : ∀ d ∈ ds, d < base) (htrimmed : Trimmed ds)
    (n : ℕ) :
    value base ds < base ^ n ↔ ds.length ≤ n := by
  rw [← not_le, pow_le_value_iff hbase h htrimmed, not_lt]

/-- Fewer digits are a smaller number. -/
theorem value_lt_of_length_lt (hbase : 1 < base) (hd : ∀ d ∈ ds, d < base)
    (htrimmed : Trimmed es) (hlength : ds.length < es.length) :
    value base ds < value base es := by
  cases es with
  | nil => exact absurd hlength (Nat.not_lt_zero _)
  | cons e es =>
    calc value base ds < base ^ ds.length := value_lt hbase hd
      _ ≤ base ^ es.length := Nat.pow_le_pow_right (by omega) (Nat.lt_succ_iff.mp hlength)
      _ ≤ value base (e :: es) := le_value (htrimmed e rfl)

/-- A multiple of a power of the base is a digit and zeros. -/
theorem value_eq_iff (hbase : 1 < base) {d : ℕ} (h : ∀ e ∈ ds, e < base) (edge : ℕ) :
    value base (d :: ds) = edge * base ^ ds.length ↔ d = edge ∧ ∀ e ∈ ds, e = 0 := by
  have hlt := value_lt hbase h
  have hpos : 0 < base ^ ds.length := Nat.pow_pos (by omega)
  rw [value_cons, ← value_eq_zero hbase]
  constructor
  · intro heq
    have hmod : value base ds = (edge * base ^ ds.length) % base ^ ds.length := by
      rw [← heq, Nat.add_mul_mod_self_left, Nat.mod_eq_of_lt hlt]
    rw [Nat.mul_mod_left] at hmod
    rw [hmod, zero_add, mul_comm] at heq
    exact ⟨Nat.eq_of_mul_eq_mul_right hpos heq, hmod⟩
  · rintro ⟨rfl, hzero⟩
    rw [hzero, zero_add, mul_comm]

/-- The first difference decides. -/
def atMost : List ℕ → List ℕ → Bool
  | d :: ds, e :: es => if d ≠ e then decide (d < e) else atMost ds es
  | _, _ => true

theorem atMost_iff (hbase : 1 < base) (hd : ∀ d ∈ ds, d < base) (he : ∀ e ∈ es, e < base)
    (hlength : ds.length = es.length) :
    atMost ds es = true ↔ value base ds ≤ value base es := by
  induction ds generalizing es with
  | nil =>
    cases es with
    | nil => exact ⟨fun _ => le_refl _, fun _ => rfl⟩
    | cons e es => exact absurd hlength nofun
  | cons d ds ih =>
    cases es with
    | nil => exact absurd hlength nofun
    | cons e es =>
      rw [List.forall_mem_cons] at hd he
      have hlength' : ds.length = es.length := Nat.succ.inj hlength
      have hds := value_lt hbase hd.2
      have hes := value_lt hbase he.2
      rw [atMost, value_cons, value_cons, hlength']
      rw [hlength'] at hds
      by_cases heq : d = e
      · rw [if_neg (not_not.mpr heq), ih hd.2 he.2 hlength', heq]
        exact (Nat.add_le_add_iff_right).symm
      · rw [if_pos heq, decide_eq_true_iff]
        constructor
        · intro hlt
          have hmul : base ^ es.length * d + base ^ es.length ≤ base ^ es.length * e := by
            rw [← Nat.mul_succ]
            exact Nat.mul_le_mul_left _ hlt
          omega
        · intro hle
          by_contra hnot
          have hmul : base ^ es.length * e + base ^ es.length ≤ base ^ es.length * d := by
            rw [← Nat.mul_succ]
            exact Nat.mul_le_mul_left _ (by omega)
          omega

/-- An accumulator that respects a map to remainders has the remainder of the value. -/
theorem foldl_map {α β : Type*} (digit : β → ℕ) (read : α → ℤ) {step : α → β → α} {m : ℤ}
    {bs : List β} (hstep : ∀ a, ∀ b ∈ bs, read (step a b) ≡ read a * base + digit b [ZMOD m])
    (a : α) :
    read (bs.foldl step a) ≡ read a * base ^ bs.length + value base (bs.map digit) [ZMOD m] := by
  induction bs generalizing a with
  | nil =>
    rw [List.foldl_nil, List.length_nil, pow_zero, mul_one, List.map_nil, value_nil,
      Nat.cast_zero, add_zero]
  | cons b bs ih =>
    have hrest := ih (fun a c hc => hstep a c (List.mem_cons_of_mem b hc)) (step a b)
    have hfirst := (hstep a b List.mem_cons_self).mul_right (base ^ bs.length : ℤ)
    have hboth := hrest.trans (hfirst.add_right (value base (bs.map digit) : ℤ))
    rw [List.foldl_cons]
    refine hboth.trans ?_
    rw [List.map_cons, value_cons, List.length_cons, List.length_map]
    push_cast
    rw [show (read a * base + digit b) * (base : ℤ) ^ bs.length + value base (bs.map digit) =
      read a * base ^ (bs.length + 1) +
        (value base (bs.map digit) + base ^ bs.length * digit b) by ring]

end Horner
end Beans
