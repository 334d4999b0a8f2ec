import Mathlib

/-!
# Dominance in a directed graph with an entry

A walk starts at the entry and remembers the nodes it has left.  A node
dominates another when every walk to it is at or has left the first.  Sets that
satisfy the dominance equation of every edge hold dominators only; every set of
dominators satisfies it.  A natural loop is what reaches a latch without passing
the header.

**Results.**
* `dominates_of_sets`: sets that grow along no edge hold dominators only.
* `left_on_every_walk`: the same for places inside of nodes.
-/

namespace Beans
namespace Dominance

variable {V : Type*}

/-- The walks from the entry, with the nodes left on the way, latest first. -/
inductive Walk (E : V → V → Prop) (entry : V) : V → List V → Prop
  | start : Walk E entry entry []
  | step {p q : V} {seen : List V} :
      Walk E entry p seen → E p q → Walk E entry q (p :: seen)

def Reachable (E : V → V → Prop) (entry b : V) : Prop := ∃ seen, Walk E entry b seen

/-- Every walk to `b` passes through `d`. -/
def Dominates (E : V → V → Prop) (entry d b : V) : Prop :=
  ∀ seen, Walk E entry b seen → d ∈ b :: seen

variable {E : V → V → Prop} {entry : V}

theorem Reachable.step {p q : V} (h : Reachable E entry p) (he : E p q) :
    Reachable E entry q := by
  obtain ⟨seen, hwalk⟩ := h
  exact ⟨p :: seen, .step hwalk he⟩

variable {b d p q x : V} {i : ℕ} {seen : List (V × ℕ)}

theorem Reachable.source (h : Reachable E entry b) (hb : b ≠ entry) :
    ∃ p, Reachable E entry p ∧ E p b := by
  obtain ⟨seen, hwalk⟩ := h
  cases hwalk with
  | start => exact absurd rfl hb
  | step hwalk he => exact ⟨_, ⟨_, hwalk⟩, he⟩

/-- What holds of the entry and along every edge holds of every reachable node. -/
theorem Reachable.induct {P : V → Prop} (hentry : P entry)
    (hstep : ∀ p q, Reachable E entry p → P p → E p q → P q) {b : V}
    (h : Reachable E entry b) : P b := by
  obtain ⟨seen, hwalk⟩ := h
  induction hwalk with
  | start => exact hentry
  | step hwalk he ih => exact hstep _ _ ⟨_, hwalk⟩ ih he

theorem Walk.mem_reachable {seen : List V} (h : Walk E entry b seen)
    (hx : x ∈ b :: seen) : Reachable E entry x := by
  induction h with
  | start =>
    obtain rfl := List.mem_singleton.mp hx
    exact ⟨[], .start⟩
  | step hwalk he ih =>
    rcases List.mem_cons.mp hx with rfl | hx
    · exact ⟨_, .step hwalk he⟩
    · exact ih hx

/-- Every node of a walk has a walk that arrives at it for the first time. -/
theorem Walk.first_arrival {seen : List V} (h : Walk E entry b seen)
    (hx : x ∈ b :: seen) : ∃ before, Walk E entry x before ∧ x ∉ before := by
  induction h with
  | start =>
    obtain rfl := List.mem_singleton.mp hx
    exact ⟨[], .start, List.not_mem_nil⟩
  | @step p q seen hwalk he ih =>
    by_cases hseen : x ∈ p :: seen
    · exact ih hseen
    · rcases List.mem_cons.mp hx with rfl | hx
      · exact ⟨p :: seen, .step hwalk he, hseen⟩
      · exact absurd hx hseen

theorem Reachable.first_arrival {b : V} (h : Reachable E entry b) :
    ∃ before, Walk E entry b before ∧ b ∉ before := by
  obtain ⟨seen, hwalk⟩ := h
  exact hwalk.first_arrival List.mem_cons_self

theorem Dominates.at_entry (h : Dominates E entry d entry) : d = entry :=
  List.mem_singleton.mp (h [] .start)

/-- A strict dominator of a node dominates every node with an edge to it. -/
theorem Dominates.source (h : Dominates E entry d q) (hne : d ≠ q)
    (he : E p q) : Dominates E entry d p := fun _ hwalk =>
  List.mem_of_ne_of_mem hne (h _ (.step hwalk he))

theorem Dominates.reachable (h : Dominates E entry d b)
    (hb : Reachable E entry b) : Reachable E entry d := by
  obtain ⟨seen, hwalk⟩ := hb
  exact hwalk.mem_reachable (h seen hwalk)

/-- A family of sets that grows along no edge, but for the node that is
entered, holds dominators only. -/
theorem dominates_of_sets {sets : V → V → Prop}
    (hentry : ∀ d, sets entry d → d = entry)
    (hedge : ∀ p q d, Reachable E entry p → E p q → q ≠ entry → sets q d →
      d = q ∨ sets p d)
    {d b : V} (h : sets b d) : Dominates E entry d b := by
  intro seen hwalk
  induction hwalk with
  | start => exact List.mem_singleton.mpr (hentry d h)
  | @step p q seen hwalk he ih =>
    by_cases hq : q = entry
    · subst hq
      rw [hentry d h]
      exact List.mem_cons_self
    · rcases hedge p q d ⟨seen, hwalk⟩ he hq h with rfl | hp
      · exact List.mem_cons_self
      · exact List.mem_cons_of_mem q (ih hp)

/-- `b` reaches `latch` along nodes other than `header`. -/
def ReachesAvoiding (E : V → V → Prop) (header b latch : V) : Prop :=
  b ≠ header ∧ Relation.ReflTransGen (fun x y => E x y ∧ y ≠ header) b latch

variable {header latch : V}

theorem ReachesAvoiding.at_latch (h : latch ≠ header) :
    ReachesAvoiding E header latch latch := ⟨h, .refl⟩

theorem ReachesAvoiding.source (h : ReachesAvoiding E header b latch)
    (hp : p ≠ header) (he : E p b) : ReachesAvoiding E header p latch :=
  ⟨hp, .head ⟨he, h.1⟩ h.2⟩

/-- What holds the latch and goes back along every edge, but for those that
enter at the header, holds what reaches the latch. -/
theorem ReachesAvoiding.induct {P : V → Prop} (hlatch : latch ≠ header → P latch)
    (hback : ∀ p b, E p b → b ≠ header → P b → P p)
    {b : V} (h : ReachesAvoiding E header b latch) : P b := by
  obtain ⟨hb, hpath⟩ := h
  induction hpath using Relation.ReflTransGen.head_induction_on with
  | refl => exact hlatch hb
  | @head x y hxy _ ih => exact hback x y hxy.1 hxy.2 (ih hxy.2)

/-- The places of a node are numbered; control goes through them in turn and
leaves the node at the last. -/
inductive PlaceStep (E : V → V → Prop) (last : V → ℕ) : V × ℕ → V × ℕ → Prop
  | inside {b : V} {i : ℕ} : i < last b → PlaceStep E last (b, i) (b, i + 1)
  | across {p q : V} : E p q → PlaceStep E last (p, last p) (q, 0)

variable {last : V → ℕ}

/-- The places left by a walk that has left `nodes` and stands at place `i` of
`b`: those of the nodes, and the earlier ones of `b`. -/
def PlacesLeft (last : V → ℕ) (nodes : List V) (b : V) (i : ℕ)
    (seen : List (V × ℕ)) : Prop :=
  ∀ c j, (c, j) ∈ seen ↔ (c ∈ nodes ∧ j ≤ last c) ∨ (c = b ∧ j < i)

theorem PlacesLeft.start (b : V) : PlacesLeft last [] b 0 [] := by
  intro c j
  simp

theorem PlacesLeft.inside {nodes : List V}
    (h : PlacesLeft last nodes b i seen) :
    PlacesLeft last nodes b (i + 1) ((b, i) :: seen) := by
  intro c j
  have hlt : j < i + 1 ↔ j = i ∨ j < i := by omega
  rw [List.mem_cons, h, Prod.mk.injEq, hlt]
  tauto

theorem PlacesLeft.across {nodes : List V}
    (h : PlacesLeft last nodes p (last p) seen) :
    PlacesLeft last (p :: nodes) q 0 ((p, last p) :: seen) := by
  intro c j
  rw [List.mem_cons, h, Prod.mk.injEq, List.mem_cons]
  constructor
  · rintro (⟨rfl, rfl⟩ | ⟨hc, hj⟩ | ⟨rfl, hj⟩)
    · exact Or.inl ⟨Or.inl rfl, le_refl _⟩
    · exact Or.inl ⟨Or.inr hc, hj⟩
    · exact Or.inl ⟨Or.inl rfl, hj.le⟩
  · rintro (⟨rfl | hc, hj⟩ | ⟨-, hj⟩)
    · rcases hj.eq_or_lt with rfl | hj
      · exact Or.inl ⟨rfl, rfl⟩
      · exact Or.inr (Or.inr ⟨rfl, hj⟩)
    · exact Or.inr (Or.inl ⟨hc, hj⟩)
    · exact absurd hj (Nat.not_lt_zero j)

/-- Every walk over the places follows a walk over the nodes. -/
theorem Walk.nodes {place : V × ℕ} {seen : List (V × ℕ)}
    (h : Walk (PlaceStep E last) (entry, 0) place seen) :
    ∃ nodes, Walk E entry place.1 nodes ∧
      PlacesLeft last nodes place.1 place.2 seen := by
  induction h with
  | start => exact ⟨[], .start, .start entry⟩
  | step _ he ih =>
    obtain ⟨nodes, hnodes, hseen⟩ := ih
    cases he with
    | inside => exact ⟨nodes, hnodes, hseen.inside⟩
    | across he => exact ⟨_ :: nodes, .step hnodes he, hseen.across⟩

theorem Walk.within {nodes : List V}
    (h : Walk (PlaceStep E last) (entry, 0) (b, 0) seen)
    (hseen : PlacesLeft last nodes b 0 seen) (hi : i ≤ last b) :
    ∃ seen, Walk (PlaceStep E last) (entry, 0) (b, i) seen ∧
      PlacesLeft last nodes b i seen := by
  induction i with
  | zero => exact ⟨seen, h, hseen⟩
  | succ i ih =>
    obtain ⟨seen', hwalk, hleft⟩ := ih (by omega)
    exact ⟨_, .step hwalk (.inside (by omega)), hleft.inside⟩

/-- Every walk over the nodes is followed by a walk over the places. -/
theorem Walk.places {nodes : List V} (h : Walk E entry b nodes)
    (hi : i ≤ last b) :
    ∃ seen, Walk (PlaceStep E last) (entry, 0) (b, i) seen ∧
      PlacesLeft last nodes b i seen := by
  induction h generalizing i with
  | start => exact Walk.within .start (.start entry) hi
  | step _ he ih =>
    obtain ⟨seen, hwalk, hleft⟩ := ih (le_refl _)
    exact Walk.within (.step hwalk (.across he)) hleft.across hi

/-- Every walk to a place of a reachable node has left an other place exactly
when that one is earlier in the node, or in a strict dominator of it. -/
theorem left_on_every_walk {c : V} {j : ℕ} (hi : i ≤ last b) (hj : j ≤ last c)
    (hc : Reachable E entry c) :
    (∀ seen, Walk (PlaceStep E last) (entry, 0) (c, j) seen → (b, i) ∈ seen) ↔
      (b = c ∧ i < j) ∨ (b ≠ c ∧ Dominates E entry b c) := by
  constructor
  · intro h
    have hnodes : ∀ nodes, Walk E entry c nodes → b ∈ nodes ∨ (b = c ∧ i < j) := by
      intro nodes hwalk
      obtain ⟨seen, hplaces, hleft⟩ := hwalk.places hj
      exact ((hleft b i).mp (h seen hplaces)).imp And.left id
    by_cases hbc : b = c
    · subst hbc
      obtain ⟨before, hwalk, hbefore⟩ := hc.first_arrival
      exact Or.inl ((hnodes before hwalk).resolve_left hbefore)
    · refine Or.inr ⟨hbc, fun nodes hwalk => List.mem_cons_of_mem c ?_⟩
      exact (hnodes nodes hwalk).resolve_right fun h => hbc h.1
  · intro h seen hwalk
    obtain ⟨nodes, hnodes, hleft⟩ := hwalk.nodes
    rw [hleft b i]
    rcases h with h | ⟨hbc, hdom⟩
    · exact Or.inr h
    · exact Or.inl ⟨List.mem_of_ne_of_mem hbc (hdom nodes hnodes), hi⟩

end Dominance
end Beans
