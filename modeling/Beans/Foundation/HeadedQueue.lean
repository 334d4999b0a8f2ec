import Mathlib

/-!
# A queue read from its front

A buffer with the number of places already read.  Nothing moves while it is read; once
all of it has been read, it starts again from the front.
-/

namespace Beans

/-- A buffer and how much of it has been read. -/
structure HeadedQueue (α : Type*) where
  data : List α
  head : ℕ
  head_le : head ≤ data.length

namespace HeadedQueue

variable {α : Type*}

def empty : HeadedQueue α :=
  ⟨[], 0, le_refl 0⟩

/-- What has not been read. -/
def held (q : HeadedQueue α) : List α :=
  q.data.drop q.head

/-- The number of elements that have not been read. -/
def size (q : HeadedQueue α) : ℕ :=
  q.data.length - q.head

def push (q : HeadedQueue α) (xs : List α) : HeadedQueue α :=
  ⟨q.data ++ xs, q.head, q.head_le.trans (by rw [List.length_append]; exact Nat.le_add_right _ _)⟩

/-- Starts again from the front when all of it has been read. -/
def reclaim (q : HeadedQueue α) : HeadedQueue α :=
  if q.head = q.data.length then empty else q

/-- Reads up to a number of elements. -/
def advance (q : HeadedQueue α) (n : ℕ) : HeadedQueue α :=
  ⟨q.data, q.head + min q.size n, by
    have := q.head_le
    rw [size]
    omega⟩

variable {q : HeadedQueue α}

theorem held_empty : (empty : HeadedQueue α).held = [] :=
  rfl

theorem length_held : q.held.length = q.size :=
  List.length_drop

theorem held_eq_nil : q.held = [] ↔ q.size = 0 := by
  rw [← List.length_eq_zero_iff, length_held]

theorem held_push (xs : List α) :
    (q.push xs).held = q.held ++ xs :=
  List.drop_append_of_le_length q.head_le

theorem held_reclaim : q.reclaim.held = q.held := by
  rw [reclaim]
  split_ifs with h
  · rw [held_empty]
    exact (held_eq_nil.mpr (by rw [size]; omega)).symm
  · rfl

/-- What is read and what is left make up what there was. -/
theorem held_advance (n : ℕ) :
    q.held.take (min q.size n) ++ (q.advance n).held = q.held := by
  have hdrop : (q.advance n).held = q.held.drop (min q.size n) := by
    rw [held, held, List.drop_drop]
    rfl
  rw [hdrop, List.take_append_drop]

theorem advance_read {n : ℕ} (h : (q.advance n).head = (q.advance n).data.length) :
    (q.advance n).held = [] := by
  rw [held, h]
  exact List.drop_length

end HeadedQueue
end Beans
