import Beans.Collections.ListSort
import Beans.Foundation.Words

/-!
# The list sorts are one stable permutation

The merge doubles the width of stably sorted runs until one run is the list; the
counting passes sort by one 16-bit digit more each.  Both give the stable sort,
so the length at which the runtime changes from one to the other does not show.
-/

namespace Beans
namespace ListSort

open CountingSort StableSort

universe u v

variable {σ : Type u} {α : Type v}

theorem mergeRuns_nil (less : σ → α → α → σ × Bool) (s : σ) (xs : List α) :
    mergeRuns less s xs [] = (s, xs) := by
  cases xs <;> rw [mergeRuns]

/-- Any comparator merges to a permutation. -/
theorem mergeRuns_perm (less : σ → α → α → σ × Bool) (s : σ) (xs ys : List α) :
    (mergeRuns less s xs ys).2.Perm (xs ++ ys) := by
  induction s, xs, ys using mergeRuns.induct less with
  | case1 s ys => rw [mergeRuns]; exact List.Perm.refl _
  | case2 s x xs => rw [mergeRuns, List.append_nil]
  | case3 s x xs y ys s' s'' out _ hless ih =>
    rw [mergeRuns, hless]
    exact (List.Perm.cons y ih).trans List.perm_middle.symm
  | case4 s x xs y ys s' right hless hright s'' out _ ih =>
    rw [mergeRuns, hless, Bool.eq_false_iff.mpr hright]
    exact List.Perm.cons x ih

/-- A comparator that decides `lt` merges stably. -/
theorem mergeRuns_merged {less : σ → α → α → σ × Bool} {lt : α → α → Bool}
    (hless : ∀ s y x, (less s y x).2 = lt y x) (s : σ) (xs ys : List α) :
    Merged lt xs ys (mergeRuns less s xs ys).2 := by
  induction s, xs, ys using mergeRuns.induct less with
  | case1 s ys => rw [mergeRuns]; exact .leftDone ys
  | case2 s x xs => rw [mergeRuns]; exact .rightDone _
  | case3 s x xs y ys s' s'' out _ hcall ih =>
    have hyx := hless s y x
    rw [hcall] at hyx
    rw [mergeRuns, hcall]
    exact .takeRight hyx.symm ih
  | case4 s x xs y ys s' right hcall hright s'' out _ ih =>
    have hyx := hless s y x
    rw [hcall, Bool.eq_false_iff.mpr hright] at hyx
    rw [mergeRuns, hcall, Bool.eq_false_iff.mpr hright]
    exact .takeLeft hyx.symm ih

/-- Merging names of elements is merging the elements. -/
theorem mergeRuns_map {β : Type*} (f : β → α) (less : α → α → Bool)
    (xs ys : List β) :
    (mergeRuns (fun (_ : Unit) y x => ((), less y x)) () (xs.map f) (ys.map f)).2 =
      (mergeRuns (fun (_ : Unit) y x => ((), less (f y) (f x))) () xs ys).2.map f := by
  induction hlen : xs.length + ys.length generalizing xs ys with
  | zero =>
    obtain rfl : xs = [] := List.length_eq_zero_iff.mp (by omega)
    rw [List.map_nil, mergeRuns, mergeRuns]
  | succ n ih =>
    cases xs with
    | nil => rw [List.map_nil, mergeRuns, mergeRuns]
    | cons x xs =>
      cases ys with
      | nil => rw [List.map_cons, List.map_nil, mergeRuns, mergeRuns, List.map_cons]
      | cons y ys =>
        rw [List.length_cons, List.length_cons] at hlen
        rw [List.map_cons, List.map_cons, mergeRuns, mergeRuns]
        have hright := ih (x :: xs) ys (by rw [List.length_cons]; omega)
        have hleft := ih xs (y :: ys) (by rw [List.length_cons]; omega)
        rw [List.map_cons] at hright hleft
        dsimp only
        split_ifs
        · rw [List.map_cons, ← hright]
        · rw [List.map_cons, ← hleft]

theorem length_mergeRuns (less : σ → α → α → σ × Bool) (s : σ) (xs ys : List α) :
    (mergeRuns less s xs ys).2.length = xs.length + ys.length := by
  rw [(mergeRuns_perm less s xs ys).length_eq, List.length_append]

theorem clip_eq (n i : ℕ) : clip n i = min i n := by
  unfold clip
  split_ifs <;> omega

variable {a out : List α} {hi k lo w : ℕ}

theorem stretch_append_stretch {mid : ℕ} (h : lo ≤ mid)
    (h' : mid ≤ hi) : stretch a lo mid ++ stretch a mid hi = stretch a lo hi := by
  unfold stretch
  obtain ⟨p, rfl⟩ : ∃ p, mid = lo + p := ⟨mid - lo, by omega⟩
  obtain ⟨q, rfl⟩ : ∃ q, hi = lo + p + q := ⟨hi - (lo + p), by omega⟩
  rw [← List.drop_drop, show lo + p - lo = p by omega,
    show lo + p + q - (lo + p) = q by omega, show lo + p + q - lo = p + q by omega,
    List.take_add]

theorem splice_stretch (h : lo ≤ hi) :
    splice a lo hi (stretch a lo hi) = a := by
  unfold splice stretch
  obtain ⟨p, rfl⟩ : ∃ p, hi = lo + p := ⟨hi - lo, by omega⟩
  rw [show lo + p - lo = p by omega, ← List.drop_drop, List.append_assoc,
    List.take_append_drop, List.take_append_drop]

theorem length_stretch (h : hi ≤ a.length) :
    (stretch a lo hi).length = hi - lo := by
  rw [stretch, List.length_take, List.length_drop]
  omega

theorem length_splice (hlo : lo ≤ hi)
    (hhi : hi ≤ a.length) (hout : out.length = hi - lo) :
    (splice a lo hi out).length = a.length := by
  rw [splice, List.length_append, List.length_append, List.length_take,
    List.length_drop]
  omega

theorem splice_perm (h : lo ≤ hi)
    (hout : out.Perm (stretch a lo hi)) : (splice a lo hi out).Perm a := by
  have hsame := splice_stretch (a := a) h
  unfold splice at hsame ⊢
  refine ((List.Perm.append_left _ hout).append_right _).trans ?_
  rw [hsame]

/-- The `k`-th run of width `w`. -/
def block (w k : ℕ) (a : List α) : List α := (a.drop (k * w)).take w

theorem block_of_le (h : a.length ≤ w) : block w 0 a = a := by
  rw [block, Nat.zero_mul, List.drop_zero, List.take_of_length_le h]

theorem block_eq_nil (h : a.length ≤ k * w) :
    block w k a = [] := by
  rw [block, List.drop_eq_nil_of_le h, List.take_nil]

theorem block_double (w k : ℕ) (a : List α) :
    block (2 * w) k a = block w (2 * k) a ++ block w (2 * k + 1) a := by
  unfold block
  rw [show k * (2 * w) = 2 * k * w by ring, show 2 * w = w + w by ring,
    show (2 * k + 1) * w = 2 * k * w + w by ring, List.take_add, List.drop_drop]

/-- A block depends on the list up to its end only. -/
theorem block_take {n : ℕ} (a : List α) (h : k * w + w ≤ n) :
    block w k (a.take n) = block w k a := by
  rw [block, block, List.drop_take, List.take_take, Nat.min_eq_left (by omega)]

theorem length_block_le (w k : ℕ) (a : List α) : (block w k a).length ≤ w := by
  rw [block, List.length_take]
  exact Nat.min_le_left _ _

/-- The first `k` blocks of a pass from `a` are merged, the others untouched. -/
structure Passed (R : List α → List α → List α → Prop) (w : ℕ) (a : List α)
    (k : ℕ) (b : List α) : Prop where
  length : b.length = a.length
  done : ∀ j < k, R (block w (2 * j) a) (block w (2 * j + 1) a) (block (2 * w) j b)
  rest : b.drop (k * (2 * w)) = a.drop (k * (2 * w))

/-- One more pair of runs is merged and written back. -/
theorem Passed.step {R : List α → List α → List α → Prop} {w k lo mid hi : ℕ} {a b out : List α}
    (h : Passed R w a k b) (hlo : lo = k * (2 * w)) (hn : lo ≤ b.length)
    (hmid : mid = clip b.length (lo + w)) (hhi : hi = clip b.length (lo + 2 * w))
    (hout : R (stretch b lo mid) (stretch b mid hi) out) (hlen : out.length = hi - lo) :
    Passed R w a (k + 1) (splice b lo hi out) := by
  rw [clip_eq] at hmid hhi
  have hhead : (b.take lo).length = lo := by
    rw [List.length_take]
    omega
  have hfront : (b.take lo ++ out).length = hi := by
    rw [List.length_append, hhead]
    omega
  have hleft : stretch b lo mid = block w (2 * k) a := by
    have hdrop : a.drop (2 * k * w) = b.drop lo := by
      rw [show 2 * k * w = k * (2 * w) by ring, ← h.rest, hlo]
    rw [block, hdrop, stretch, ← List.take_eq_take_iff.mpr]
    rw [List.length_drop]
    omega
  have hright : stretch b mid hi = block w (2 * k + 1) a := by
    have hdrop : a.drop ((2 * k + 1) * w) = b.drop (lo + w) := by
      rw [show (2 * k + 1) * w = k * (2 * w) + w by ring, ← List.drop_drop, ← h.rest,
        List.drop_drop, hlo]
    rw [block, hdrop, stretch]
    by_cases hin : lo + w ≤ b.length
    · rw [show mid = lo + w by omega, ← List.take_eq_take_iff.mpr]
      rw [List.length_drop]
      omega
    · rw [List.drop_eq_nil_of_le (show b.length ≤ mid by omega),
        List.drop_eq_nil_of_le (by omega), List.take_nil, List.take_nil]
  refine ⟨?_, fun j hj => ?_, ?_⟩
  · rw [length_splice (by omega) (by omega) hlen, h.length]
  · rcases Nat.lt_succ_iff_lt_or_eq.mp hj with hj | rfl
    · -- the block ends before the overwritten stretch
      have hend : j * (2 * w) + 2 * w ≤ lo := by
        rw [hlo, ← Nat.succ_mul]
        exact Nat.mul_le_mul_right _ hj
      have hkeep : (splice b lo hi out).take lo = b.take lo := by
        rw [splice, List.append_assoc, List.take_append_of_le_length hhead.ge,
          List.take_of_length_le hhead.le]
      rw [← block_take _ hend, hkeep, block_take _ hend]
      exact h.done j hj
    · have hlast : block (2 * w) j (splice b lo hi out) = out := by
        rw [block, ← hlo, splice, List.append_assoc, List.drop_left' hhead]
        by_cases hin : lo + 2 * w ≤ b.length
        · exact List.take_left' (by omega)
        · rw [List.drop_eq_nil_of_le (by omega), List.append_nil,
            List.take_of_length_le (by omega)]
      rw [hlast, ← hleft, ← hright]
      exact hout
  · have hnext : (k + 1) * (2 * w) = lo + 2 * w := by
      rw [hlo]
      ring
    obtain ⟨p, hp⟩ : ∃ p, lo + 2 * w = hi + p := ⟨lo + 2 * w - hi, by omega⟩
    rw [hnext, hp, ← List.drop_drop, splice, List.drop_left' hfront, List.drop_drop,
      ← hp, hlo, ← List.drop_drop, h.rest, List.drop_drop]

/-- A pass that has come to the end has merged all blocks. -/
theorem Passed.all {R : List α → List α → List α → Prop} {b : List α} (h : Passed R w a k b)
    (hnil : R [] [] []) (hend : b.length ≤ k * (2 * w)) (j : ℕ) :
    R (block w (2 * j) a) (block w (2 * j + 1) a) (block (2 * w) j b) := by
  by_cases hj : j < k
  · exact h.done j hj
  · have hlen := h.length
    have hle : k * (2 * w) ≤ j * (2 * w) := Nat.mul_le_mul_right _ (by omega)
    have hb : block (2 * w) j b = [] := block_eq_nil (by omega)
    have ha : block (2 * w) j a = [] := block_eq_nil (by omega)
    rw [block_double, List.append_eq_nil_iff] at ha
    rw [ha.1, ha.2, hb]
    exact hnil

/-- A block step keeps the elements, whatever the comparator. -/
theorem mergeBlock_perm {less : σ → List α → α → α → σ × Bool}
    {m m' : Merging σ α} (h : mergeBlock less w m = some m') : m'.a.Perm m.a := by
  unfold mergeBlock at h
  dsimp only at h
  split_ifs at h with hlo hmid
  · cases h
    exact List.Perm.refl _
  · cases h
    rw [clip_eq, clip_eq] at hmid ⊢
    refine splice_perm (by omega) ((mergeRuns_perm _ _ _ _).trans ?_)
    rw [stretch_append_stretch (by omega) (by omega)]

theorem mergePass_perm (less : σ → List α → α → α → σ × Bool) (w : ℕ) (s : σ)
    (a : List α) : (mergePass less w s a).a.Perm a :=
  Loop.run_invariant (P := fun m : Merging σ α => m.a.Perm a)
    (fun _ _ hp hstep => (mergeBlock_perm hstep).trans hp) (List.Perm.refl a) _

/-- The merge sort answers a permutation, whatever the comparator. -/
theorem mergeSort_perm (less : σ → List α → α → α → σ × Bool) (s : σ)
    (a : List α) : (listMergeSort less s a).2.Perm a := by
  unfold listMergeSort
  split_ifs
  · exact List.Perm.refl a
  · refine Loop.run_invariant (P := fun m : Widening σ α => m.a.Perm a) ?_
      (List.Perm.refl a) a.length
    intro m m' hp hstep
    unfold mergeWidth at hstep
    split_ifs at hstep
    cases hstep
    exact (mergePass_perm less m.w m.program m.a).trans hp

theorem mergeWidth_none {less : σ → List α → α → α → σ × Bool} {m : Widening σ α}
    (h : mergeWidth less m = none) : m.a.length ≤ m.w := by
  unfold mergeWidth at h
  split_ifs at h with hn
  exact not_lt.mp hn

section Comparator

variable {less : σ → List α → α → α → σ × Bool} {lt : α → α → Bool}

/-- The comparator answers as `lt` does, whatever it has seen. -/
def Decides (less : σ → List α → α → α → σ × Bool) (lt : α → α → Bool) : Prop :=
  ∀ s seen x y, (less s seen x y).2 = lt x y

variable {w : ℕ}

/-- A block of the pass merges its two runs. -/
theorem mergeBlock_passed {k : ℕ} {a : List α} {m m' : Merging σ α} (hless : Decides less lt)
    (h : Passed (Merged lt) w a k m.a) (hlo : m.lo = k * (2 * w))
    (hstep : mergeBlock less w m = some m') :
    Passed (Merged lt) w a (k + 1) m'.a ∧ m'.lo = (k + 1) * (2 * w) := by
  have hnext : (k + 1) * (2 * w) = m.lo + 2 * w := by
    rw [hlo]
    ring
  have hpassed : ∀ out, Merged lt (stretch m.a m.lo (clip m.a.length (m.lo + w)))
      (stretch m.a (clip m.a.length (m.lo + w)) (clip m.a.length (m.lo + 2 * w))) out →
      m.lo < m.a.length →
      out.length = clip m.a.length (m.lo + 2 * w) - m.lo →
      Passed (Merged lt) w a (k + 1)
        (splice m.a m.lo (clip m.a.length (m.lo + 2 * w)) out) :=
    fun out hout hn hlen => h.step hlo hn.le rfl rfl hout hlen
  unfold mergeBlock at hstep
  dsimp only at hstep
  split_ifs at hstep with hn hmid
  · cases hstep
    rw [clip_eq, clip_eq] at hmid hpassed
    refine ⟨?_, hnext.symm⟩
    -- there is no right run, and the left one is the rest of the list
    have hsame : m.a = splice m.a m.lo (min (m.lo + 2 * w) m.a.length)
        (stretch m.a m.lo (min (m.lo + w) m.a.length)) := by
      rw [show min (m.lo + w) m.a.length = min (m.lo + 2 * w) m.a.length by omega,
        splice_stretch (by omega)]
    have hright : stretch m.a (min (m.lo + w) m.a.length)
        (min (m.lo + 2 * w) m.a.length) = [] := by
      rw [stretch, Nat.sub_eq_zero_of_le hmid, List.take_zero]
    show Passed (Merged lt) w a (k + 1) m.a
    rw [hsame]
    refine hpassed _ ?_ hn ?_
    · rw [hright]
      exact .rightDone _
    · rw [length_stretch (by omega)]
      omega
  · cases hstep
    refine ⟨hpassed _ (mergeRuns_merged (hless · m.a) _ _ _) hn ?_, hnext.symm⟩
    rw [length_mergeRuns, clip_eq, clip_eq, length_stretch (by omega),
      length_stretch (by omega)]
    omega

/-- A pass merges every two neighbouring runs. -/
theorem mergePass_passed (hw : 0 < w) (hless : Decides less lt) (s : σ) (a : List α) :
    (mergePass less w s a).a.length = a.length ∧
    ∀ j, Merged lt (block w (2 * j) a) (block w (2 * j + 1) a)
      (block (2 * w) j (mergePass less w s a).a) := by
  have hstart : ∃ k, Passed (Merged lt) w a k (Merging.mk s 0 a).a ∧
      (Merging.mk s 0 a).lo = k * (2 * w) :=
    ⟨0, ⟨rfl, fun j hj => absurd hj (Nat.not_lt_zero j), rfl⟩, (Nat.zero_mul _).symm⟩
  have hinv : ∀ m m' : Merging σ α,
      (∃ k, Passed (Merged lt) w a k m.a ∧ m.lo = k * (2 * w)) →
      mergeBlock less w m = some m' →
      ∃ k, Passed (Merged lt) w a k m'.a ∧ m'.lo = k * (2 * w) := by
    rintro m m' ⟨k, hk, hlo⟩ hstep
    exact ⟨k + 1, mergeBlock_passed hless hk hlo hstep⟩
  obtain ⟨k, hk, hlo⟩ := Loop.run_invariant hinv hstart a.length
  have hstop := Loop.step_run_on (μ := fun m : Merging σ α => a.length - m.lo) hinv
    (by
      rintro m m' ⟨k, hk, hlo⟩ hstep
      obtain ⟨hk', hlo'⟩ := mergeBlock_passed hless hk hlo hstep
      have hlen := hk.length
      have hn : m.lo < m.a.length := by
        unfold mergeBlock at hstep
        dsimp only at hstep
        split_ifs at hstep with hn
        all_goals exact hn
      rw [Nat.succ_mul] at hlo'
      omega)
    hstart (n := a.length) (by show a.length - 0 ≤ a.length; omega)
  refine ⟨hk.length, hk.all (.leftDone []) ?_⟩
  unfold mergeBlock at hstop
  dsimp only at hstop
  split_ifs at hstop with hn
  rw [← hlo]
  exact not_lt.mp hn

/-- Every run of width `w` is stably sorted. -/
structure RunsSorted (lt : α → α → Bool) (w : ℕ) (input a : List α) : Prop where
  length : a.length = input.length
  runs : ∀ k, Sorts lt (block w k input) (block w k a)

theorem RunsSorted.pass {input a b : List α} (hlt : StrictWeak lt) (h : RunsSorted lt w input a)
    (hlen : b.length = a.length)
    (hb : ∀ j, Merged lt (block w (2 * j) a) (block w (2 * j + 1) a)
      (block (2 * w) j b)) :
    RunsSorted lt (2 * w) input b := by
  refine ⟨hlen.trans h.length, fun k => ?_⟩
  rw [block_double w k input]
  exact (hb k).sorts hlt (h.runs _) (h.runs _)

/-- A comparator that decides a strict weak order sorts stably. -/
theorem mergeSort_sorts (hlt : StrictWeak lt) (hless : Decides less lt) (s : σ) (a : List α) :
    Sorts lt a (listMergeSort less s a).2 := by
  unfold listMergeSort
  split_ifs with hshort
  · exact Sorts.short (by omega)
  · have hstart : 0 < (Widening.mk s 1 a).w ∧
        RunsSorted lt (Widening.mk s 1 a).w a (Widening.mk s 1 a).a :=
      ⟨Nat.one_pos, rfl, fun k => Sorts.short (length_block_le 1 k a)⟩
    have hinv : ∀ m m' : Widening σ α,
        (0 < m.w ∧ RunsSorted lt m.w a m.a) → mergeWidth less m = some m' →
        0 < m'.w ∧ RunsSorted lt m'.w a m'.a := by
      rintro m m' ⟨hw, hruns⟩ hstep
      unfold mergeWidth at hstep
      split_ifs at hstep
      cases hstep
      obtain ⟨hlen, hmerged⟩ := mergePass_passed hw hless m.program m.a
      refine ⟨Nat.mul_pos hw (by omega), ?_⟩
      show RunsSorted lt (m.w * 2) a _
      rw [Nat.mul_comm]
      exact hruns.pass hlt hlen hmerged
    obtain ⟨-, hruns⟩ := Loop.run_invariant hinv hstart a.length
    have hstop := Loop.step_run_on (μ := fun m : Widening σ α => a.length - m.w) hinv
      (by
        rintro m m' ⟨hw, hm⟩ hstep
        have hlen := hm.length
        unfold mergeWidth at hstep
        split_ifs at hstep with hn
        cases hstep
        show a.length - m.w * 2 < a.length - m.w
        omega)
      hstart (n := a.length) (by show a.length - 1 ≤ a.length; omega)
    have hdone := mergeWidth_none hstop
    have hlen := hruns.length
    have hall := hruns.runs 0
    rw [block_of_le (by omega), block_of_le hdone] at hall
    exact hall

end Comparator

end ListSort
end Beans
