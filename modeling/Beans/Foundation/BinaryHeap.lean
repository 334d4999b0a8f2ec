import Mathlib

/-!
# Binary heaps in a list

The parent of position `i` is `(i - 1) / 2`.  A sift carries one held entry
through the list: at every moment the list with the held entry written into the
hole is a rearrangement of the same entries in which only the pairs at the hole
may be out of order.  Moving the hole is an exchange of two entries of that
list.

**Results.**
* `UpOrdered.finish`, `DownOrdered.finish`: where a sift may stop the list is a heap.
-/

namespace Beans
namespace BinaryHeap

universe u v

variable {E : Type u} {K : Type v} [LinearOrder K]

/-- No entry is below its parent. -/
def Ordered (key : E → K) (l : List E) : Prop :=
  ∀ i a b, 0 < i → l[i]? = some a → l[(i - 1) / 2]? = some b → key b ≤ key a

/-- The children of the hole are not below the hole's parent. -/
def GrandOrdered (key : E → K) (l : List E) (hole : ℕ) : Prop :=
  0 < hole → ∀ i a b, 0 < i → (i - 1) / 2 = hole → l[i]? = some a →
    l[(hole - 1) / 2]? = some b → key b ≤ key a

/-- Only the entry at the hole may be below its parent. -/
structure UpOrdered (key : E → K) (l : List E) (hole : ℕ) : Prop where
  others : ∀ i a b, 0 < i → i ≠ hole → l[i]? = some a →
    l[(i - 1) / 2]? = some b → key b ≤ key a
  grand : GrandOrdered key l hole

/-- Only the entry at the hole may be above its children. -/
structure DownOrdered (key : E → K) (l : List E) (hole : ℕ) : Prop where
  others : ∀ i a b, 0 < i → (i - 1) / 2 ≠ hole → l[i]? = some a →
    l[(i - 1) / 2]? = some b → key b ≤ key a
  grand : GrandOrdered key l hole

variable {a b e : E} {hole i j : ℕ} {l : List E} {key : E → K}

/-- The list with the entries at `i` and `j` exchanged, read at a position. -/
theorem getElem?_exchange (hi : l[i]? = some a) (hj : l[j]? = some b) (k : ℕ) :
    ((l.set i b).set j a)[k]? =
      if k = j then some a else if k = i then some b else l[k]? := by
  have hil : i < l.length := (List.getElem?_eq_some_iff.mp hi).1
  have hjl : j < l.length := (List.getElem?_eq_some_iff.mp hj).1
  by_cases hkj : k = j
  · subst hkj
    simp [hjl]
  · rw [List.getElem?_set_ne (Ne.symm hkj), if_neg hkj]
    by_cases hki : k = i
    · subst hki
      simp [hil]
    · rw [List.getElem?_set_ne (Ne.symm hki), if_neg hki]

/-- An exchange keeps the entries. -/
theorem exchange_perm (hi : l[i]? = some a) (hj : l[j]? = some b) :
    ((l.set i b).set j a).Perm l := by
  obtain ⟨hil, rfl⟩ := List.getElem?_eq_some_iff.mp hi
  obtain ⟨hjl, rfl⟩ := List.getElem?_eq_some_iff.mp hj
  exact List.set_set_perm hil hjl

/-- The root is least. -/
theorem Ordered.root_le (h : Ordered key l)
    {root : E} (hroot : l[0]? = some root) (i : ℕ) :
    ∀ a, l[i]? = some a → key root ≤ key a := by
  induction i using Nat.strong_induction_on with
  | _ i ih =>
    intro a ha
    rcases Nat.eq_zero_or_pos i with rfl | hpos
    · rw [hroot] at ha
      cases ha
      exact le_rfl
    · have hlt : (i - 1) / 2 < l.length := by
        have hi := (List.getElem?_eq_some_iff.mp ha).1
        omega
      have hparent := List.getElem?_eq_getElem hlt
      exact (ih _ (by omega) _ hparent).trans (h i _ _ hpos ha hparent)

/-- A new last entry is out of order with its parent only. -/
theorem Ordered.append {key : E → K} {l : List E} (h : Ordered key l)
    (e : E) : UpOrdered key (l ++ [e]) l.length where
  others := by
    intro i a b hpos hne ha hb
    have hi := (List.getElem?_eq_some_iff.mp ha).1
    rw [List.length_append, List.length_singleton] at hi
    rw [List.getElem?_append_left (by omega)] at ha hb
    exact h i a b hpos ha hb
  grand := by
    intro _ i a b _ hparent ha _
    have hi := (List.getElem?_eq_some_iff.mp ha).1
    rw [List.length_append, List.length_singleton] at hi
    omega

/-- The held entry passes a parent it is below. -/
theorem UpOrdered.move {p : E}
    (h : UpOrdered key l hole) (hpos : 0 < hole) (he : l[hole]? = some e)
    (hp : l[(hole - 1) / 2]? = some p) (hlt : key e < key p) :
    UpOrdered key ((l.set hole p).set ((hole - 1) / 2) e)
      ((hole - 1) / 2) := by
  have hread := getElem?_exchange he hp
  constructor
  · intro i a b hi hne ha hb
    rw [hread] at ha hb
    by_cases hih : i = hole
    · -- the old parent went down, the held entry came above it
      subst hih
      rw [if_neg hne, if_pos rfl] at ha
      rw [if_pos rfl] at hb
      cases ha
      cases hb
      exact hlt.le
    · rw [if_neg hne, if_neg hih] at ha
      by_cases hpar : (i - 1) / 2 = (hole - 1) / 2
      · rw [if_pos hpar] at hb
        cases hb
        exact hlt.le.trans (h.others i a p hi hih ha (hpar ▸ hp))
      · rw [if_neg hpar] at hb
        by_cases hph : (i - 1) / 2 = hole
        · rw [if_pos hph] at hb
          cases hb
          exact h.grand hpos i a p hi hph ha hp
        · rw [if_neg hph] at hb
          exact h.others i a b hi hih ha hb
  · intro hpos' i a b hi hpar ha hb
    rw [hread] at ha hb
    have hup : ((hole - 1) / 2 - 1) / 2 ≠ (hole - 1) / 2 := by omega
    have hup' : ((hole - 1) / 2 - 1) / 2 ≠ hole := by omega
    rw [if_neg hup, if_neg hup'] at hb
    have hpb : key b ≤ key p :=
      h.others _ p b hpos' (by omega) hp hb
    have hne : i ≠ (hole - 1) / 2 := by omega
    rw [if_neg hne] at ha
    by_cases hih : i = hole
    · rw [if_pos hih] at ha
      cases ha
      exact hpb
    · rw [if_neg hih] at ha
      exact hpb.trans (h.others i a p hi hih ha (hpar ▸ hp))

/-- The held entry rests at the root or under a parent it is not below. -/
theorem UpOrdered.finish (h : UpOrdered key l hole)
    (hrest : ∀ e p, 0 < hole → l[hole]? = some e →
      l[(hole - 1) / 2]? = some p → key p ≤ key e) :
    Ordered key l := by
  intro i a b hi ha hb
  by_cases hih : i = hole
  · subst hih
    exact hrest a b hi ha hb
  · exact h.others i a b hi hih ha hb

/-- Replacing the root can only put the root above its children. -/
theorem Ordered.replaceRoot {last : E}
    (h : Ordered key (l ++ [last])) : DownOrdered key (l.set 0 last) 0 where
  others := by
    intro i a b hi hne ha hb
    rw [List.getElem?_set_ne (by omega)] at ha hb
    have hil := (List.getElem?_eq_some_iff.mp ha).1
    refine h i a b hi ?_ ?_
    · rwa [List.getElem?_append_left hil]
    · rwa [List.getElem?_append_left (by omega)]
  grand := by
    intro hpos
    omega

/-- The held entry passes its least child, which is below it. -/
theorem DownOrdered.move {child : ℕ}
    {c : E} (h : DownOrdered key l hole) (he : l[hole]? = some e)
    (hchild : 0 < child) (hparent : (child - 1) / 2 = hole)
    (hc : l[child]? = some c) (hlt : key c < key e)
    (hleast : ∀ i a, 0 < i → (i - 1) / 2 = hole → l[i]? = some a →
      key c ≤ key a) :
    DownOrdered key ((l.set hole c).set child e) child := by
  have hread := getElem?_exchange he hc
  have hne : hole ≠ child := by omega
  constructor
  · intro i a b hi hpar ha hb
    rw [hread] at ha hb
    rw [if_neg hpar] at hb
    by_cases hih : i = child
    · -- the child came up over the held entry
      subst hih
      rw [if_pos rfl] at ha
      rw [if_pos hparent] at hb
      cases ha
      cases hb
      exact hlt.le
    · rw [if_neg hih] at ha
      by_cases hhole : i = hole
      · subst hhole
        rw [if_pos rfl] at ha
        rw [if_neg (by omega)] at hb
        cases ha
        exact h.grand hi child c b hchild hparent hc hb
      · rw [if_neg hhole] at ha
        by_cases hph : (i - 1) / 2 = hole
        · rw [if_pos hph] at hb
          cases hb
          exact hleast i a hi hph ha
        · rw [if_neg hph] at hb
          exact h.others i a b hi hph ha hb
  · intro _ i a b hi hpar ha hb
    rw [hread] at ha hb
    have hic : i ≠ child := by omega
    have hih : i ≠ hole := by omega
    rw [if_neg hic, if_neg hih] at ha
    rw [hparent, if_neg hne, if_pos rfl] at hb
    cases hb
    exact h.others i a c hi (by omega) ha (hpar ▸ hc)

/-- The held entry rests where no child is below it. -/
theorem DownOrdered.finish (h : DownOrdered key l hole) (he : l[hole]? = some e)
    (hrest : ∀ i a, 0 < i → (i - 1) / 2 = hole → l[i]? = some a →
      key e ≤ key a) :
    Ordered key l := by
  intro i a b hi ha hb
  by_cases hph : (i - 1) / 2 = hole
  · rw [hph, he] at hb
    cases hb
    exact hrest i a hi hph ha
  · exact h.others i a b hi hph ha hb

end BinaryHeap
end Beans
