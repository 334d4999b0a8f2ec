import Mathlib

/-!
# Two rulers along one list

Every element of a list has a length on each of two rulers.  A walk steps over
elements while the first ruler shows less than a target; what the second ruler
shows there is a measurement of the target.
-/

namespace Beans
namespace Rulers

universe u

variable {α : Type u} (w v : α → ℕ)

def total (l : List α) : ℕ :=
  (l.map w).sum

/-- What the second ruler shows where the first one reaches the target. -/
def measure : List α → ℤ → ℕ
  | [], _ => 0
  | a :: l, target => if 0 < target then v a + measure l (target - w a) else 0

@[simp] theorem total_nil : total w [] = 0 :=
  rfl

@[simp] theorem total_cons (a : α) (l : List α) : total w (a :: l) = w a + total w l :=
  rfl

@[simp] theorem total_append (p s : List α) : total w (p ++ s) = total w p + total w s := by
  rw [total, List.map_append, List.sum_append]
  rfl

@[simp] theorem total_concat (p : List α) (a : α) : total w (p ++ [a]) = total w p + w a :=
  total_append w p [a]

theorem measure_cons (a : α) (l : List α) (target : ℤ) :
    measure w v (a :: l) target =
      if 0 < target then v a + measure w v l (target - w a) else 0 :=
  rfl

variable {w v}

variable {l : List α} {target : ℤ}

theorem measure_of_nonpos (h : target ≤ 0) :
    measure w v l target = 0 := by
  cases l with
  | nil => rfl
  | cons a l => rw [measure_cons, if_neg (not_lt.mpr h)]

/-- A target between two elements. -/
theorem measure_boundary (hw : ∀ a, 0 < w a) (p s : List α) :
    measure w v (p ++ s) (total w p) = total v p := by
  induction p with
  | nil => exact measure_of_nonpos le_rfl
  | cons a p ih =>
    have hpos := hw a
    have hrest : ((total w (a :: p) : ℕ) : ℤ) - w a = total w p := by
      rw [total_cons]
      omega
    rw [List.cons_append, measure_cons, if_pos (by rw [total_cons]; omega), hrest, ih, total_cons]

/-- A target past the start of an element and not past its end. -/
theorem measure_inside (hw : ∀ a, 0 < w a) (p : List α) (a : α) (s : List α)
    (h : total w p < target) (h' : target ≤ total w p + w a) :
    measure w v (p ++ a :: s) target = total v p + v a := by
  induction p generalizing target with
  | nil =>
    rw [total_nil, Nat.cast_zero] at h h'
    rw [List.nil_append, measure_cons, if_pos h, measure_of_nonpos (by omega), total_nil,
      Nat.add_comm]
  | cons b p ih =>
    rw [total_cons, Nat.cast_add] at h h'
    have hpos := hw b
    rw [List.cons_append, measure_cons, if_pos (by omega), ih (by omega) (by omega), total_cons,
      Nat.add_assoc]

/-- A target at or past the end. -/
theorem measure_beyond (hw : ∀ a, 0 < w a) (h : total w l ≤ target) :
    measure w v l target = total v l := by
  induction l generalizing target with
  | nil => rfl
  | cons a l ih =>
    rw [total_cons, Nat.cast_add] at h
    have hpos := hw a
    rw [measure_cons, if_pos (by omega), ih (by omega), total_cons]

theorem measure_mono (l : List α) :
    Monotone (measure w v l) := by
  induction l with
  | nil => exact fun _ _ _ => le_rfl
  | cons a l ih =>
    intro target target' h
    rw [measure_cons, measure_cons]
    split_ifs with hpos hpos'
    · exact Nat.add_le_add_left (ih (by omega)) _
    · omega
    · exact Nat.zero_le _
    · exact le_rfl

/-- Every target along the list is between two elements or inside one. -/
theorem boundary_or_inside (l : List α) {target : ℕ} (h : target ≤ total w l) :
    (∃ p s, l = p ++ s ∧ total w p = target) ∨
      ∃ p a s, l = p ++ a :: s ∧ total w p < target ∧ target < total w p + w a := by
  induction l generalizing target with
  | nil =>
    rw [total_nil, Nat.le_zero] at h
    exact .inl ⟨[], [], rfl, h.symm⟩
  | cons a l ih =>
    rw [total_cons] at h
    rcases Nat.lt_or_ge target (w a) with hlt | hge
    · rcases Nat.eq_zero_or_pos target with hzero | hpos
      · exact .inl ⟨[], a :: l, rfl, hzero.symm⟩
      · exact .inr ⟨[], a, l, rfl, hpos, by rw [total_nil]; omega⟩
    · rcases @ih (target - w a) (by omega) with
        ⟨p, s, rfl, htotal⟩ | ⟨p, b, s, rfl, hlow, hhigh⟩
      · exact .inl ⟨a :: p, s, rfl, by rw [total_cons]; omega⟩
      · exact .inr ⟨a :: p, b, s, rfl, by rw [total_cons]; omega, by rw [total_cons]; omega⟩

end Rulers
end Beans
