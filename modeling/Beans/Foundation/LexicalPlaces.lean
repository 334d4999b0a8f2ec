import Mathlib

/-!
# Lexical places

A path is a list of moves: stay, go up, or go down into a name.  Without looking at
what the names stand for, it leads so many levels above where it starts and then
down some names.  At a root there is nothing above.
-/

namespace Beans
namespace Lexical

variable {α : Type*}

inductive Move (α : Type*) where
  | stay
  | up
  | down (name : α)
deriving DecidableEq

/-- How many levels above the start, and the names from there on. -/
@[ext] structure Place (α : Type*) where
  ups : ℕ
  names : List α
deriving DecidableEq

namespace Place

def start : Place α := ⟨0, []⟩

def step (rooted : Bool) (place : Place α) : Move α → Place α
  | .stay => place
  | .up =>
    if place.names ≠ [] then ⟨place.ups, place.names.dropLast⟩
    else if rooted then place
    else ⟨place.ups + 1, []⟩
  | .down name => ⟨place.ups, place.names ++ [name]⟩

/-- The place that moves lead to from another one. -/
def walkFrom (rooted : Bool) (place : Place α) (moves : List (Move α)) : Place α :=
  moves.foldl (step rooted) place

def walk (rooted : Bool) (moves : List (Move α)) : Place α :=
  walkFrom rooted start moves

/-- The shortest moves that lead to a place. -/
def moves (place : Place α) : List (Move α) :=
  List.replicate place.ups .up ++ place.names.map .down

theorem walkFrom_down (rooted : Bool) (place : Place α) (names : List α) :
    walkFrom rooted place (names.map .down) = ⟨place.ups, place.names ++ names⟩ := by
  induction names generalizing place with
  | nil => simp [walkFrom]
  | cons name names ih =>
    rw [List.map_cons, walkFrom, List.foldl_cons]
    rw [show List.foldl (step rooted) (step rooted place (.down name)) (names.map .down) =
      walkFrom rooted (step rooted place (.down name)) (names.map .down) from rfl, ih]
    simp [step]

theorem walkFrom_up (ups count : ℕ) :
    walkFrom false (⟨ups, []⟩ : Place α) (List.replicate count .up) = ⟨ups + count, []⟩ := by
  induction count generalizing ups with
  | zero => rfl
  | succ count ih =>
    rw [List.replicate_succ, walkFrom, List.foldl_cons]
    have hstep : step false (⟨ups, []⟩ : Place α) .up = ⟨ups + 1, []⟩ := by simp [step]
    rw [hstep, show List.foldl (step false) (⟨ups + 1, []⟩ : Place α)
      (List.replicate count .up) = walkFrom false ⟨ups + 1, []⟩ (List.replicate count .up)
        from rfl, ih]
    congr 1
    omega

/-- The shortest moves lead to their place. -/
theorem walk_moves (place : Place α) : walk false place.moves = place := by
  rw [walk, moves, walkFrom, List.foldl_append]
  have hups := @walkFrom_up α 0 place.ups
  rw [zero_add] at hups
  rw [show List.foldl (step false) start (List.replicate place.ups .up) =
    (⟨place.ups, []⟩ : Place α) from hups]
  have hnames := walkFrom_down false (⟨place.ups, []⟩ : Place α) place.names
  rw [walkFrom] at hnames
  rw [hnames, List.nil_append]

/-- At a root the levels above are forgotten. -/
theorem walkFrom_rooted {place place' : Place α}
    (hnames : place'.names = place.names)
    (hups : place'.ups = 0)
    (moves : List (Move α)) :
    walkFrom true place' moves = ⟨0, (walkFrom false place moves).names⟩ := by
  induction moves generalizing place place' with
  | nil =>
    rw [walkFrom, walkFrom, List.foldl_nil, List.foldl_nil, ← hnames, ← hups]
  | cons move moves ih =>
    rw [walkFrom, walkFrom, List.foldl_cons, List.foldl_cons]
    refine ih ?_ ?_
    · cases move with
      | stay => exact hnames
      | up =>
        rw [step, step, hnames]
        split_ifs with hempty hfalse <;> first | rfl | simp_all
      | down name => rw [step, step, hnames]
    · cases move with
      | stay => exact hups
      | up =>
        rw [step]
        split_ifs with hempty hrooted
        · exact hups
        · exact hups
        · exact absurd rfl hrooted
      | down name => exact hups

theorem walk_rooted (moves : List (Move α)) :
    walk true moves = ⟨0, (walk false moves).names⟩ :=
  walkFrom_rooted rfl rfl moves

/-- The place of moves made from inside a name. -/
def inside (name : α) (place : Place α) : Place α :=
  if place.ups = 0 then ⟨0, name :: place.names⟩ else ⟨place.ups - 1, place.names⟩

theorem step_inside (name : α) (place : Place α) (move : Move α) :
    step false (place.inside name) move = (step false place move).inside name := by
  obtain ⟨ups, names⟩ := place
  cases move with
  | stay => rfl
  | up =>
    by_cases hnames : names = []
    · subst hnames
      cases ups <;> simp [step, inside]
    · cases ups <;> simp [step, inside, hnames, List.dropLast_cons_of_ne_nil]
  | down below => cases ups <;> simp [step, inside]

/-- Going into a name first. -/
theorem walk_cons_down (name : α) (moves : List (Move α)) :
    walk false (.down name :: moves) = (walk false moves).inside name := by
  have hfold : ∀ place : Place α, walkFrom false (place.inside name) moves =
      (walkFrom false place moves).inside name := by
    intro place
    induction moves generalizing place with
    | nil => rfl
    | cons move moves ih =>
      rw [walkFrom, List.foldl_cons, step_inside]
      exact ih _
  exact hfold start

variable {moves : List (Move α)} {name : α} {rooted : Bool}

/-- The names of a place are names of the moves. -/
theorem mem_names_walkFrom {place : Place α} (h : name ∈ (walkFrom rooted place moves).names) :
    name ∈ place.names ∨ .down name ∈ moves := by
  induction moves generalizing place with
  | nil => exact Or.inl h
  | cons move moves ih =>
    rcases @ih (step rooted place move) h with hmem | hmem
    · cases move with
      | stay => exact Or.inl hmem
      | up =>
        rw [step] at hmem
        split_ifs at hmem
        · exact Or.inl (List.mem_of_mem_dropLast hmem)
        · exact Or.inl hmem
        · exact absurd hmem List.not_mem_nil
      | down below =>
        rw [step, List.mem_append, List.mem_singleton] at hmem
        rcases hmem with hmem | rfl
        · exact Or.inl hmem
        · exact Or.inr List.mem_cons_self
    · exact Or.inr (List.mem_cons_of_mem _ hmem)

theorem mem_names_walk (h : name ∈ (walk rooted moves).names) :
    .down name ∈ moves := by
  rcases mem_names_walkFrom h with hmem | hmem
  · exact absurd hmem List.not_mem_nil
  · exact hmem

end Place

end Lexical
end Beans
