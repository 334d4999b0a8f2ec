import Mathlib

/-!
# Passes over little-endian digit strings

Multi-word arithmetic is a single pass over the digits with one word of state
handed along: additions and multiplications by a small factor run from the
least significant digit upwards, divisions by a small divisor run from the most
significant digit downwards.  Both passes are written once, for digits of any
type read through a valuation, and each comes with the rule that turns a fact
about one digit into the fact about the whole string.

* `sweepUp_value`: an upward pass adds the carry it starts with and leaves the
  carry it ends with above the string.
* `sweepDown_value`: a downward pass divides.
-/

namespace Beans
namespace Limbs

variable {σ δ γ : Type*}

/-- Value of a little-endian digit string in base `B`, digits read by `f`. -/
def value (B : ℤ) (f : σ → ℤ) : List σ → ℤ
  | [] => 0
  | d :: ds => f d + B * value B f ds

@[simp] theorem value_nil (B : ℤ) (f : σ → ℤ) :
    value B f [] = 0 := rfl

@[simp] theorem value_cons (B : ℤ) (f : σ → ℤ) (d : σ) (ds : List σ) :
    value B f (d :: ds) = f d + B * value B f ds := rfl

/-- The value of a string of pairs, when a digit reads a pair linearly. -/
theorem value_zip (B : ℤ) (f : σ × δ → ℤ) (g : σ → ℤ) (h : δ → ℤ) (m n : ℤ)
    (hf : ∀ x y, f (x, y) = m * g x + n * h y) :
    ∀ (xs : List σ) (ys : List δ), xs.length = ys.length →
      value B f (xs.zip ys) = m * value B g xs + n * value B h ys
  | [], [], _ => by simp
  | x :: xs, y :: ys, hlen => by
      have ih := value_zip B f g h m n hf xs ys (by simpa using hlen)
      simp only [List.zip_cons_cons, value_cons, hf, ih]
      ring

/-- A pass from the least significant digit upwards. -/
def sweepUp (step : γ → σ → δ × γ) : γ → List σ → List δ × γ
  | c, [] => ([], c)
  | c, d :: ds =>
    ((step c d).1 :: (sweepUp step (step c d).2 ds).1,
      (sweepUp step (step c d).2 ds).2)

@[simp] theorem sweepUp_length (step : γ → σ → δ × γ) :
    ∀ (c : γ) (ds : List σ), (sweepUp step c ds).1.length = ds.length
  | _, [] => rfl
  | c, d :: ds => by
      simp [sweepUp, sweepUp_length step (step c d).2 ds]

/--
What one digit does, the whole string does: if a step puts `g d + κ c` into its
digit and its carry, the pass puts the whole value and the first carry into the
string and the last carry.
-/
theorem sweepUp_value (B : ℤ) (step : γ → σ → δ × γ)
    (f : δ → ℤ) (g : σ → ℤ) (κ : γ → ℤ) (Good : γ → Prop)
    (hstep : ∀ c d, Good c →
      f (step c d).1 + B * κ (step c d).2 = g d + κ c ∧ Good (step c d).2) :
    ∀ (c : γ) (ds : List σ), Good c →
      value B f (sweepUp step c ds).1 +
          B ^ ds.length * κ (sweepUp step c ds).2 =
        value B g ds + κ c ∧ Good (sweepUp step c ds).2
  | c, [], hc => by simpa [sweepUp] using hc
  | c, d :: ds, hc => by
      obtain ⟨hd, hgood⟩ := hstep c d hc
      obtain ⟨ih, hlast⟩ :=
        sweepUp_value B step f g κ Good hstep (step c d).2 ds hgood
      refine ⟨?_, hlast⟩
      simp only [sweepUp, value_cons, List.length_cons, pow_succ]
      linear_combination hd + B * ih

/-- A pass from the most significant digit downwards. -/
def sweepDown (step : γ → σ → δ × γ) : γ → List σ → List δ × γ
  | c, [] => ([], c)
  | c, d :: ds =>
    ((step (sweepDown step c ds).2 d).1 :: (sweepDown step c ds).1,
      (step (sweepDown step c ds).2 d).2)

@[simp] theorem sweepDown_length (step : γ → σ → δ × γ) :
    ∀ (c : γ) (ds : List σ), (sweepDown step c ds).1.length = ds.length
  | _, [] => rfl
  | c, d :: ds => by
      simp [sweepDown, sweepDown_length step c ds]

/-- A step that divides by `k` makes a pass that divides by `k`. -/
theorem sweepDown_value (B k : ℤ) (step : γ → σ → δ × γ)
    (f : δ → ℤ) (g : σ → ℤ) (κ : γ → ℤ) (Good : γ → Prop)
    (hstep : ∀ c d, Good c →
      k * f (step c d).1 + κ (step c d).2 = κ c * B + g d ∧
        Good (step c d).2) :
    ∀ (c : γ) (ds : List σ), Good c →
      k * value B f (sweepDown step c ds).1 + κ (sweepDown step c ds).2 =
        κ c * B ^ ds.length + value B g ds ∧ Good (sweepDown step c ds).2
  | c, [], hc => by simpa [sweepDown] using hc
  | c, d :: ds, hc => by
      obtain ⟨ih, hgood⟩ :=
        sweepDown_value B k step f g κ Good hstep c ds hc
      obtain ⟨hd, hlast⟩ := hstep (sweepDown step c ds).2 d hgood
      refine ⟨?_, hlast⟩
      simp only [sweepDown, value_cons, List.length_cons, pow_succ]
      linear_combination hd + B * ih

end Limbs
end Beans
