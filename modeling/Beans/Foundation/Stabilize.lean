import Mathlib

/-!
# Rounds until nothing changes

A loop repeats a round, which reports whether it changed anything, and stops
after the first that did not.  When every changing round raises a bounded rank
the loop stops, and what it leaves is what one more round would have left.

**Results.**
* `untilStable_spec`: the loop ends with a round that changed nothing.
* `untilStable_returns`: a bounded rank that every changing round raises bounds the rounds.
-/

namespace Beans

variable {S : Type*}

/-- `changed = true; for changed { changed = false; … }` with a bound on the
rounds. -/
def untilStable (round : S → S × Bool) : ℕ → S → Option S
  | 0, _ => none
  | n + 1, s =>
    if (round s).2 then untilStable round n (round s).1
    else some (round s).1

variable {round : S → S × Bool} {Inv : S → Prop} {rank : S → ℕ}

variable {r s : S}

theorem untilStable_of_le {n m : ℕ} (hle : n ≤ m) (h : untilStable round n s = some r) :
    untilStable round m s = some r := by
  induction n generalizing m s with
  | zero => cases h
  | succ n ih =>
    obtain ⟨m, rfl⟩ : ∃ k, m = k + 1 := ⟨m - 1, by omega⟩
    unfold untilStable at h ⊢
    by_cases hchange : (round s).2 = true
    · rw [if_pos hchange] at h ⊢
      exact ih (Nat.le_of_succ_le_succ hle) h
    · rw [if_neg hchange] at h ⊢
      exact h

/-- The loop ends with a round that changed nothing. -/
theorem untilStable_spec (hkeep : ∀ s, Inv s → Inv (round s).1) {n : ℕ} (hs : Inv s)
    (h : untilStable round n s = some r) :
    ∃ s', Inv s' ∧ (round s').2 = false ∧ r = (round s').1 := by
  induction n generalizing s with
  | zero => cases h
  | succ n ih =>
    unfold untilStable at h
    by_cases hchange : (round s).2 = true
    · rw [if_pos hchange] at h
      exact ih (hkeep s hs) h
    · rw [if_neg hchange] at h
      cases h
      exact ⟨s, hs, Bool.not_eq_true _ ▸ hchange, rfl⟩

/-- A bounded rank that every changing round raises bounds the rounds. -/
theorem untilStable_returns (hkeep : ∀ s, Inv s → Inv (round s).1)
    (hraise : ∀ s, Inv s → (round s).2 = true → rank s < rank (round s).1) {bound : ℕ}
    (hbound : ∀ s, Inv s → rank s ≤ bound) (hs : Inv s) :
    ∃ r, untilStable round (bound - rank s + 1) s = some r := by
  obtain ⟨k, hk⟩ : ∃ k, k = bound - rank s := ⟨_, rfl⟩
  induction k using Nat.strong_induction_on generalizing s with
  | _ k ih =>
    unfold untilStable
    by_cases hchange : (round s).2 = true
    · rw [if_pos hchange]
      have hnext := hkeep s hs
      have hup := hraise s hs hchange
      have htop := hbound _ hnext
      obtain ⟨r, hr⟩ := ih (bound - rank (round s).1) (by omega) hnext rfl
      exact ⟨r, untilStable_of_le (by omega) hr⟩
    · rw [if_neg hchange]
      exact ⟨_, rfl⟩

section Sweep

variable {ι : Type*}

/-- One round: every visit in turn, and whether any of them changed anything. -/
def sweep (visit : S → ι → S × Bool) : List ι → S → S × Bool
  | [], s => (s, false)
  | i :: rest, s =>
    ((sweep visit rest (visit s i).1).1,
      (visit s i).2 || (sweep visit rest (visit s i).1).2)

variable {visit : S → ι → S × Bool}

variable {is : List ι} {s : S}

theorem sweep_inv (hkeep : ∀ s, ∀ i ∈ is, Inv s → Inv (visit s i).1) (hs : Inv s) :
    Inv (sweep visit is s).1 := by
  induction is generalizing s with
  | nil => exact hs
  | cons i rest ih =>
    exact ih (fun s j hj => hkeep s j (List.mem_cons_of_mem i hj))
      (hkeep s i List.mem_cons_self hs)

/-- A round never lowers the rank, and raises it when it changed anything. -/
theorem sweep_rank (hkeep : ∀ s, ∀ i ∈ is, Inv s → Inv (visit s i).1)
    (hrank : ∀ s, ∀ i ∈ is, Inv s → rank s ≤ rank (visit s i).1 ∧
      ((visit s i).2 = true → rank s < rank (visit s i).1))
    (hs : Inv s) :
    rank s ≤ rank (sweep visit is s).1 ∧
      ((sweep visit is s).2 = true → rank s < rank (sweep visit is s).1) := by
  induction is generalizing s with
  | nil => exact ⟨le_refl _, fun h => absurd h Bool.false_ne_true⟩
  | cons i rest ih =>
    have hfirst := hrank s i List.mem_cons_self hs
    have hrest := ih (fun s j hj => hkeep s j (List.mem_cons_of_mem i hj))
      (fun s j hj => hrank s j (List.mem_cons_of_mem i hj))
      (hkeep s i List.mem_cons_self hs)
    refine ⟨le_trans hfirst.1 hrest.1, fun hchange => ?_⟩
    rcases Bool.or_eq_true_iff.mp hchange with h | h
    · exact lt_of_lt_of_le (hfirst.2 h) hrest.1
    · exact lt_of_le_of_lt hfirst.1 (hrest.2 h)

/-- After a round without a change every visit would change nothing. -/
theorem sweep_stable (hsame : ∀ i ∈ is, (visit s i).2 = false → (visit s i).1 = s)
    (h : (sweep visit is s).2 = false) :
    (sweep visit is s).1 = s ∧ ∀ i ∈ is, (visit s i).2 = false := by
  induction is with
  | nil => exact ⟨rfl, fun _ hi => absurd hi List.not_mem_nil⟩
  | cons i rest ih =>
    obtain ⟨hi, hrest⟩ := Bool.or_eq_false_iff.mp h
    have hsame' := hsame i List.mem_cons_self hi
    rw [hsame'] at hrest
    obtain ⟨hend, hall⟩ :=
      ih (fun j hj => hsame j (List.mem_cons_of_mem i hj)) hrest
    refine ⟨?_, fun j hj => ?_⟩
    · show (sweep visit rest (visit s i).1).1 = s
      rw [hsame', hend]
    · rcases List.mem_cons.mp hj with rfl | hj
      · exact hi
      · exact hall j hj

end Sweep

theorem getD_set {α : Type*} (l : List α) {i : ℕ} (hi : i < l.length) (x d : α) (j : ℕ) :
    (l.set i x).getD j d = if j = i then x else l.getD j d := by
  rw [List.getD_eq_getElem?_getD, List.getD_eq_getElem?_getD,
    List.getElem?_set]
  by_cases hij : i = j
  · subst hij
    simp [hi]
  · simp [hij, Ne.symm hij]

end Beans
