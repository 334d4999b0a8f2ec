import Mathlib

/-!
# Graphs with counted edges

A finite graph whose nodes list their successors, with repetitions.  `refs`
counts the edges from a set of nodes into one node; a set that contains every
predecessor of its members is left alone by what lies outside.
-/

namespace Beans
namespace CountedGraph

variable {N : Type*} [DecidableEq N]

/-- The edges from the nodes of `A` into `p`. -/
def refs (kids : N → List N) (A : Finset N) (p : N) : ℤ :=
  ∑ q ∈ A, ((kids q).count p : ℤ)

/-- A path of edges. -/
def Reaches (kids : N → List N) : N → N → Prop :=
  Relation.ReflTransGen fun a b => b ∈ kids a

variable {kids : N → List N} {A B : Finset N} {p q : N}

@[simp] theorem refs_empty : refs kids ∅ p = 0 := Finset.sum_empty

theorem refs_nonneg : 0 ≤ refs kids A p :=
  Finset.sum_nonneg fun _ _ => Int.natCast_nonneg _

theorem refs_insert (hq : q ∉ A) :
    refs kids (insert q A) p = refs kids A p + (kids q).count p := by
  rw [refs, Finset.sum_insert hq, add_comm]
  rfl

theorem refs_sdiff (h : B ⊆ A) :
    refs kids (A \ B) p = refs kids A p - refs kids B p :=
  Finset.sum_sdiff_eq_sub h

theorem refs_eq_zero_iff : refs kids A p = 0 ↔ ∀ q ∈ A, p ∉ kids q := by
  rw [refs, Finset.sum_eq_zero_iff_of_nonneg fun _ _ => Int.natCast_nonneg _]
  refine forall₂_congr fun q _ => ?_
  rw [Int.natCast_eq_zero, List.count_eq_zero]

theorem refs_pos_iff : 0 < refs kids A p ↔ ∃ q ∈ A, p ∈ kids q := by
  rw [refs_nonneg.lt_iff_ne', Ne, refs_eq_zero_iff]
  push Not
  rfl

omit [DecidableEq N] in
theorem Reaches.refl (p : N) : Reaches kids p p := Relation.ReflTransGen.refl

omit [DecidableEq N] in
theorem Reaches.trans {a : N} (h : Reaches kids a p) (h' : Reaches kids p q) :
    Reaches kids a q :=
  Relation.ReflTransGen.trans h h'

omit [DecidableEq N] in
theorem Reaches.tail {a : N} (h : Reaches kids a p) (hq : q ∈ kids p) :
    Reaches kids a q :=
  Relation.ReflTransGen.tail h hq

omit [DecidableEq N] in
/-- A set that contains the successors of its members contains what they
reach. -/
theorem Reaches.closed {S : N → Prop} (hS : ∀ a b, S a → b ∈ kids a → S b)
    (h : Reaches kids p q) (hp : S p) : S q := by
  induction h with
  | refl => exact hp
  | tail _ hedge ih => exact hS _ _ ih hedge

omit [DecidableEq N] in
/-- A set that contains the predecessors of its members contains what reaches
them. -/
theorem Reaches.closed_back {S : N → Prop}
    (hS : ∀ a b, S b → b ∈ kids a → S a) (h : Reaches kids p q) (hq : S q) :
    S p := by
  induction h with
  | refl => exact hq
  | tail _ hedge ih => exact ih (hS _ _ hq hedge)

end CountedGraph
end Beans
