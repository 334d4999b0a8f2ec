import Beans.Foundation.StableSort

/-!
# Counting sort

One pass of a counting sort: how often every digit occurs, where each digit's
elements start, and a walk that puts every element at the next free place of its
digit.  The places of different digits do not meet, so the walk fills the
destination with the elements distributed over the digits, whatever the
destination held before.
-/

namespace Beans
namespace CountingSort

open StableSort

universe u v

variable {α : Type u} {β : Type v}

/-- How often each digit below `base` occurs. -/
def tally (base : ℕ) (digit : α → ℕ) (xs : List α) : List ℕ :=
  xs.foldl (fun count x => count.modify (digit x) (· + 1)) (List.replicate base 0)

/-- Where each digit's places start, from `sum` on. -/
def starts : ℕ → List ℕ → List ℕ
  | _, [] => []
  | sum, c :: cs => sum :: starts (sum + c) cs

/-- Every element goes to the next free place of its digit. -/
def scatter (digit : α → ℕ) (f : α → β) : List α → List ℕ → List β → List β
  | [], _, dst => dst
  | x :: xs, next, dst =>
    let out := next.getD (digit x) 0
    scatter digit f xs (next.set (digit x) (out + 1)) (dst.set out (f x))

/-- How many of the elements have a digit below `w`. -/
def before (digit : α → ℕ) (xs : List α) (w : ℕ) : ℕ :=
  xs.countP (digit · < w)

theorem before_succ (digit : α → ℕ) (xs : List α) (w : ℕ) :
    before digit xs (w + 1) = before digit xs w + xs.countP (digit · = w) := by
  unfold before
  induction xs with
  | nil => rfl
  | cons x xs ih =>
    simp only [List.countP_cons, ih, decide_eq_true_iff]
    split_ifs <;> omega

theorem before_mono (digit : α → ℕ) (xs : List α) {v w : ℕ} (h : v ≤ w) :
    before digit xs v ≤ before digit xs w :=
  List.countP_mono_left fun x _ hx => by
    rw [decide_eq_true_iff] at *
    omega

theorem before_zero (digit : α → ℕ) (xs : List α) : before digit xs 0 = 0 := by
  unfold before
  rw [List.countP_eq_zero]
  intro x _
  rw [decide_eq_true_iff]
  omega

/-- Every place belongs to a digit. -/
theorem exists_place (digit : α → ℕ) (xs : List α) {base i : ℕ}
    (h : i < before digit xs base) :
    ∃ w j, w < base ∧ j < xs.countP (digit · = w) ∧
      i = before digit xs w + j := by
  induction base with
  | zero =>
    rw [before_zero] at h
    omega
  | succ base ih =>
    by_cases hi : i < before digit xs base
    · obtain ⟨w, j, hw, hj, rfl⟩ := ih hi
      exact ⟨w, j, by omega, hj, rfl⟩
    · rw [before_succ] at h
      exact ⟨base, i - before digit xs base, by omega, by omega, by omega⟩

theorem length_tally (base : ℕ) (digit : α → ℕ) (xs : List α) :
    (tally base digit xs).length = base := by
  have hstep : ∀ (count : List ℕ),
      (xs.foldl (fun count x => count.modify (digit x) (· + 1)) count).length =
        count.length := by
    induction xs with
    | nil => exact fun _ => rfl
    | cons x xs ih =>
      intro count
      rw [List.foldl_cons, ih, List.length_modify]
  rw [tally, hstep, List.length_replicate]

theorem getElem?_tally {base w : ℕ} (digit : α → ℕ) (xs : List α) (hw : w < base) :
    (tally base digit xs)[w]? = some (xs.countP (digit · = w)) := by
  have hstep : ∀ (count : List ℕ) (c : ℕ), count[w]? = some c →
      (xs.foldl (fun count x => count.modify (digit x) (· + 1)) count)[w]? =
        some (c + xs.countP (digit · = w)) := by
    induction xs with
    | nil => exact fun _ _ h => h
    | cons x xs ih =>
      intro count c h
      rw [List.foldl_cons, List.countP_cons]
      by_cases hx : digit x = w
      · rw [ih _ (c + 1) (by rw [List.getElem?_modify, h]; simp [hx]),
          if_pos (decide_eq_true hx)]
        congr 1
        omega
      · rw [ih _ c (by rw [List.getElem?_modify, h]; simp [hx]),
          if_neg (by rw [decide_eq_true_iff]; exact hx), Nat.add_zero]
  have := hstep (List.replicate base 0) 0
    (by rw [List.getElem?_replicate, if_pos hw])
  rw [Nat.zero_add] at this
  exact this

theorem getElem?_starts {sum w : ℕ} {cs : List ℕ} (hw : w < cs.length) :
    (starts sum cs)[w]? = some (sum + (cs.take w).sum) := by
  induction cs generalizing sum w with
  | nil => exact absurd hw (Nat.not_lt_zero _)
  | cons c cs ih =>
    cases w with
    | zero => rfl
    | succ w =>
      rw [starts, List.getElem?_cons_succ, ih (Nat.lt_of_succ_lt_succ hw),
        List.take_succ_cons, List.sum_cons, Nat.add_assoc]

theorem sum_take_tally {base w : ℕ} (digit : α → ℕ) (xs : List α) (hw : w ≤ base) :
    ((tally base digit xs).take w).sum = before digit xs w := by
  induction w with
  | zero => rw [List.take_zero, List.sum_nil, before_zero]
  | succ w ih =>
    rw [List.take_add_one, List.sum_append, ih (by omega),
      getElem?_tally digit xs (by omega), before_succ]
    rfl

/-- The places of a digit start after those of the lower digits. -/
theorem getElem?_starts_tally {base w : ℕ} (digit : α → ℕ) (xs : List α)
    (hw : w < base) :
    (starts 0 (tally base digit xs))[w]? = some (before digit xs w) := by
  rw [getElem?_starts (by rw [length_tally]; exact hw), Nat.zero_add,
    sum_take_tally digit xs hw.le]

/-- What the walk has done after the elements `done` of `xs`. -/
structure Scattered (base : ℕ) (digit : α → ℕ) (f : α → β) (xs done : List α)
    (next : List ℕ) (dst : List β) : Prop where
  length : dst.length = xs.length
  next : ∀ w < base,
    next[w]? = some (before digit xs w + done.countP (digit · = w))
  placed : ∀ w < base, ∀ j < done.countP (digit · = w),
    dst[before digit xs w + j]? = ((done.filter (digit · = w)).map f)[j]?

theorem before_base {base : ℕ} {digit : α → ℕ} (hdigit : ∀ x, digit x < base)
    (xs : List α) : before digit xs base = xs.length :=
  List.countP_eq_length.mpr fun x _ => decide_eq_true (hdigit x)

/-- The places of two digits do not meet. -/
theorem places_disjoint (digit : α → ℕ) (xs : List α) {v w i j : ℕ} (hvw : v ≠ w)
    (hi : i < xs.countP (digit · = v)) (hj : j < xs.countP (digit · = w)) :
    before digit xs v + i ≠ before digit xs w + j := by
  have hv := before_succ digit xs v
  have hw := before_succ digit xs w
  rcases lt_or_gt_of_ne hvw with h | h
  · have := before_mono digit xs (show v + 1 ≤ w from h)
    omega
  · have := before_mono digit xs (show w + 1 ≤ v from h)
    omega

namespace Scattered

variable {base : ℕ} {digit : α → ℕ} {f : α → β} {xs done rest : List α}
  {next : List ℕ} {dst : List β}

/-- The next item goes to the place its digit has come to. -/
theorem step {x : α} (hdigit : ∀ x, digit x < base) (hxs : xs = done ++ x :: rest)
    (h : Scattered base digit f xs done next dst) :
    Scattered base digit f xs (done ++ [x])
      (next.set (digit x) (next.getD (digit x) 0 + 1))
      (dst.set (next.getD (digit x) 0) (f x)) := by
  have hout : next.getD (digit x) 0 =
      before digit xs (digit x) + done.countP (digit · = digit x) := by
    rw [List.getD_eq_getElem?_getD, h.next _ (hdigit x)]
    rfl
  have hcount : ∀ w, (done ++ [x]).countP (digit · = w) =
      done.countP (digit · = w) + if digit x = w then 1 else 0 := by
    intro w
    rw [List.countP_append, List.countP_singleton]
    simp only [decide_eq_true_iff]
  have hroom : ∀ w, (done ++ [x]).countP (digit · = w) ≤
      xs.countP (digit · = w) := by
    intro w
    rw [show xs = done ++ [x] ++ rest by rw [hxs, List.append_assoc]; rfl]
    exact (List.sublist_append_left _ _).countP_le
  have hfree := hroom (digit x)
  rw [hcount, if_pos rfl] at hfree
  have hplace : before digit xs (digit x) + done.countP (digit · = digit x) <
      dst.length := by
    have hsucc := before_succ digit xs (digit x)
    have hmono := before_mono digit xs (show digit x + 1 ≤ base from hdigit x)
    rw [before_base hdigit] at hmono
    rw [h.length]
    omega
  rw [hout]
  refine ⟨by rw [List.length_set, h.length], fun w hw => ?_, fun w hw j hj => ?_⟩
  · have hlen : w < next.length := (List.getElem?_eq_some_iff.mp (h.next w hw)).1
    rw [List.getElem?_set, hcount]
    by_cases hx : digit x = w
    · subst hx
      rw [if_pos rfl, if_pos hlen, if_pos rfl, Nat.add_assoc]
    · rw [if_neg hx, if_neg hx, Nat.add_zero, h.next w hw]
  · rw [hcount] at hj
    rw [List.getElem?_set, List.filter_append]
    by_cases hx : digit x = w
    · subst hx
      rw [if_pos rfl] at hj
      have hself : [x].filter (digit · = digit x) = [x] := by simp
      rw [hself, List.map_append]
      have hlen : ((done.filter (digit · = digit x)).map f).length =
          done.countP (digit · = digit x) := by
        rw [List.length_map, List.countP_eq_length_filter]
      by_cases hlast : j = done.countP (digit · = digit x)
      · subst hlast
        rw [if_pos rfl, if_pos hplace, List.getElem?_append_right hlen.le, hlen,
          Nat.sub_self]
        rfl
      · rw [if_neg (by omega), List.getElem?_append_left (by omega),
          h.placed _ hw j (by omega)]
    · rw [if_neg hx, Nat.add_zero] at hj
      have hother := places_disjoint digit xs hx hfree
        (show j < xs.countP (digit · = w) by
          have := hroom w
          rw [hcount, if_neg hx] at this
          omega)
      have hnone : [x].filter (digit · = w) = [] := by simp [hx]
      rw [if_neg hother, hnone, List.append_nil, h.placed w hw j hj]

/-- The walk over the rest of the elements. -/
theorem finish (hdigit : ∀ x, digit x < base) (hxs : xs = done ++ rest)
    (h : Scattered base digit f xs done next dst) :
    ∃ last, Scattered base digit f xs xs last (scatter digit f rest next dst) := by
  induction rest generalizing done next dst with
  | nil =>
    rw [List.append_nil] at hxs
    subst hxs
    exact ⟨next, h⟩
  | cons x rest ih =>
    exact ih (by rw [hxs, List.append_assoc]; rfl) (h.step hdigit hxs)

end Scattered

theorem length_distribute {base : ℕ} {digit : α → ℕ} (xs : List α) :
    (distribute base digit xs).length = before digit xs base := by
  unfold distribute
  induction base with
  | zero => rw [before_zero]; rfl
  | succ base ih =>
    rw [List.range_succ, List.flatMap_append, List.length_append, ih,
      before_succ, List.flatMap_singleton, List.countP_eq_length_filter]

theorem getElem?_distribute {base w j : ℕ} {digit : α → ℕ} (xs : List α)
    (hw : w < base) (hj : j < xs.countP (digit · = w)) :
    (distribute base digit xs)[before digit xs w + j]? =
      (xs.filter (digit · = w))[j]? := by
  obtain ⟨rest, rfl⟩ : ∃ rest, base = w + 1 + rest := ⟨base - w - 1, by omega⟩
  have hlow : (distribute w digit xs).length = _ := length_distribute xs
  unfold distribute at hlow ⊢
  rw [List.countP_eq_length_filter] at hj
  rw [List.range_add, List.range_succ, List.flatMap_append, List.flatMap_append,
    List.flatMap_singleton, List.append_assoc,
    List.getElem?_append_right (by omega), hlow, Nat.add_sub_cancel_left,
    List.getElem?_append_left hj]

/-- One pass distributes the elements over the digits. -/
theorem scatter_eq {base : ℕ} {digit : α → ℕ} (hdigit : ∀ x, digit x < base) (f : α → β)
    (xs : List α) {dst : List β} (hdst : dst.length = xs.length) :
    scatter digit f xs (starts 0 (tally base digit xs)) dst =
      (distribute base digit xs).map f := by
  have hstart : Scattered base digit f xs []
      (starts 0 (tally base digit xs)) dst := by
    refine ⟨hdst, fun w hw => ?_, fun w _ j hj => absurd hj (Nat.not_lt_zero j)⟩
    rw [getElem?_starts_tally digit xs hw, List.countP_nil, Nat.add_zero]
  obtain ⟨last, h⟩ := hstart.finish hdigit (List.nil_append xs).symm
  have hlen : ((distribute base digit xs).map f).length = xs.length := by
    rw [List.length_map, length_distribute, before_base hdigit]
  refine List.ext_getElem? fun i => ?_
  by_cases hi : i < xs.length
  · rw [← before_base hdigit xs] at hi
    obtain ⟨w, j, hw, hj, rfl⟩ := exists_place digit xs hi
    rw [h.placed w hw j hj, List.getElem?_map, List.getElem?_map,
      getElem?_distribute xs hw hj]
  · rw [List.getElem?_eq_none (by rw [h.length]; omega),
      List.getElem?_eq_none (by omega)]

end CountingSort
end Beans
