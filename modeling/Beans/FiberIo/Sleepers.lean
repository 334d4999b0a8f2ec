import Beans.Foundation.BinaryHeap
import Beans.Foundation.Loop

/-!
# The timers of a worker

A worker keeps its sleeping fibers in a heap by deadline.  A push, a pop and a removal
carry one held entry and move a hole, so that each of them only adds or takes out one
entry and rearranges the others.
-/

namespace Beans
namespace FiberIo

open BinaryHeap

/-- A deadline and the fiber it wakes. -/
structure Sleeper (F : Type*) where
  deadline : ℤ
  fiber : F
deriving DecidableEq

variable {F : Type*}

/-- The turn towards the root: the entries and the hole. -/
def siftUpStep (held : Sleeper F) (s : List (Sleeper F) × ℕ) :
    Option (List (Sleeper F) × ℕ) :=
  if s.2 > 0 then
    match s.1[(s.2 - 1) / 2]? with
    | none => none
    | some parent =>
      if parent.deadline ≤ held.deadline then none
      else some (s.1.set s.2 parent, (s.2 - 1) / 2)
  else none

/-- The child that the turn towards the leaves looks at. -/
def earlierChild (entries : List (Sleeper F)) (hole : ℕ) : ℕ :=
  match entries[2 * hole + 1]?, entries[2 * hole + 2]? with
  | some left, some right =>
    if right.deadline < left.deadline then 2 * hole + 2 else 2 * hole + 1
  | _, _ => 2 * hole + 1

/-- The turn towards the leaves. -/
def siftDownStep (held : Sleeper F) (s : List (Sleeper F) × ℕ) :
    Option (List (Sleeper F) × ℕ) :=
  match s.1[earlierChild s.1 s.2]? with
  | none => none
  | some child =>
    if child.deadline ≥ held.deadline then none
    else some (s.1.set s.2 child, earlierChild s.1 s.2)

/-- Both loops write the held entry where the hole came to rest. -/
def fillHole (held : Sleeper F) (s : List (Sleeper F) × ℕ) : List (Sleeper F) :=
  s.1.set s.2 held

def siftUp (held : Sleeper F) (entries : List (Sleeper F)) (hole : ℕ) :
    List (Sleeper F) × ℕ :=
  Loop.run (siftUpStep held) hole (entries, hole)

def siftDown (held : Sleeper F) (entries : List (Sleeper F)) (hole : ℕ) :
    List (Sleeper F) × ℕ :=
  Loop.run (siftDownStep held) entries.length (entries, hole)

/-- The new slot is the hole until the loop has ended. -/
def sleeperPush (sleepers : List (Sleeper F)) (entry : Sleeper F) : List (Sleeper F) :=
  fillHole entry (siftUp entry (sleepers ++ [entry]) sleepers.length)

/-- The last entry fills the root and is sifted down. -/
def sleeperPopMin (sleepers : List (Sleeper F)) : List (Sleeper F) :=
  match sleepers.getLast? with
  | none => []
  | some last =>
    if sleepers.dropLast = [] then []
    else fillHole last (siftDown last sleepers.dropLast 0)

/-- The entry at a slot is taken out, and the last one put where it belongs. -/
def sleeperRemoveAt (sleepers : List (Sleeper F)) (i : ℕ) : List (Sleeper F) :=
  match sleepers.getLast? with
  | none => []
  | some last =>
    if i = sleepers.dropLast.length then sleepers.dropLast
    else
      let up := siftUp last sleepers.dropLast i
      if up.2 = i then fillHole last (siftDown last up.1 i) else fillHole last up

/-- The first entry of a fiber is taken out, if it has one. -/
def sleeperRemove [DecidableEq F] (sleepers : List (Sleeper F)) (fiber : F) :
    List (Sleeper F) :=
  match sleepers.findIdx? fun e => e.fiber = fiber with
  | none => sleepers
  | some i => sleeperRemoveAt sleepers i

variable {held : Sleeper F} {entries sleepers : List (Sleeper F)} {hole : ℕ}

/-- Moving the hole exchanges the held entry with the one that fills the hole. -/
theorem fillHole_move {e : Sleeper F} {j : ℕ} (hlt : hole < entries.length)
    (he : entries[j]? = some e) (hne : j ≠ hole) :
    (fillHole held (entries.set hole e, j)).Perm (fillHole held (entries, hole)) := by
  have hhole : (entries.set hole held)[hole]? = some held := by
    rw [List.getElem?_set_self hlt]
  have hj : (entries.set hole held)[j]? = some e := by
    rw [List.getElem?_set_ne (Ne.symm hne), he]
  have hperm := exchange_perm hhole hj
  rw [List.set_set] at hperm
  exact hperm

/-- The hole is a slot, and filling it gives these entries. -/
def Sifting (held : Sleeper F) (goal : List (Sleeper F)) (s : List (Sleeper F) × ℕ) : Prop :=
  s.2 < s.1.length ∧ (fillHole held s).Perm goal

variable {goal : List (Sleeper F)} {s s' : List (Sleeper F) × ℕ} {i : ℕ}

theorem siftUpStep_sifting (h : Sifting held goal s) (hstep : siftUpStep held s = some s') :
    Sifting held goal s' := by
  obtain ⟨entries, hole⟩ := s
  rw [siftUpStep] at hstep
  dsimp only at hstep
  split_ifs at hstep with hpos
  cases hparent : entries[(hole - 1) / 2]? with
  | none =>
    rw [hparent] at hstep
    cases hstep
  | some parent =>
    rw [hparent] at hstep
    dsimp only at hstep
    split_ifs at hstep
    obtain rfl := Option.some.inj hstep
    have hlt := h.1
    dsimp only at hlt
    refine ⟨by rw [List.length_set]; dsimp only; omega, ?_⟩
    exact (fillHole_move hlt hparent (by omega)).trans h.2

theorem earlierChild_gt (entries : List (Sleeper F)) (hole : ℕ) :
    hole < earlierChild entries hole := by
  rw [earlierChild]
  split
  · split_ifs
    all_goals omega
  · omega

theorem siftDownStep_sifting (h : Sifting held goal s) (hstep : siftDownStep held s = some s') :
    Sifting held goal s' := by
  obtain ⟨entries, hole⟩ := s
  have hgt := earlierChild_gt entries hole
  rw [siftDownStep] at hstep
  dsimp only at hstep
  cases hchild : entries[earlierChild entries hole]? with
  | none =>
    rw [hchild] at hstep
    cases hstep
  | some child =>
    rw [hchild] at hstep
    dsimp only at hstep
    split_ifs at hstep
    obtain rfl := Option.some.inj hstep
    refine ⟨?_, (fillHole_move h.1 hchild (by omega)).trans h.2⟩
    rw [List.length_set]
    exact (List.getElem?_eq_some_iff.mp hchild).1

theorem siftUp_sifting (hlt : hole < entries.length) :
    Sifting held (entries.set hole held) (siftUp held entries hole) :=
  Loop.run_invariant (fun _ _ => siftUpStep_sifting) ⟨hlt, .refl _⟩ hole

theorem siftDown_sifting (hlt : hole < entries.length) :
    Sifting held (entries.set hole held) (siftDown held entries hole) :=
  Loop.run_invariant (fun _ _ => siftDownStep_sifting) ⟨hlt, .refl _⟩ entries.length

theorem sleeperPush_perm (sleepers : List (Sleeper F)) (entry : Sleeper F) :
    (sleeperPush sleepers entry).Perm (entry :: sleepers) := by
  have hsift := @siftUp_sifting F entry (sleepers ++ [entry]) sleepers.length (by simp)
  refine hsift.2.trans ?_
  rw [List.set_append_right _ _ le_rfl, Nat.sub_self]
  exact List.perm_append_comm

/-- The last entry in the place of another one, which is gone. -/
theorem set_last_perm {last : Sleeper F} (hi : i < entries.length) :
    (entries.set i last).Perm ((entries ++ [last]).eraseIdx i) := by
  rw [List.eraseIdx_append_of_lt_length hi, List.set_eq_take_append_cons_drop, if_pos hi,
    List.eraseIdx_eq_take_drop_succ, List.append_assoc]
  exact List.Perm.append_left _ (List.perm_append_singleton _ _).symm

theorem sleeperRemoveAt_perm (hi : i < sleepers.length) :
    (sleeperRemoveAt sleepers i).Perm (sleepers.eraseIdx i) := by
  rcases List.eq_nil_or_concat sleepers with rfl | ⟨entries, last, rfl⟩
  · exact absurd hi (Nat.not_lt_zero i)
  rw [List.concat_eq_append] at hi ⊢
  rw [sleeperRemoveAt, List.getLast?_concat, List.dropLast_concat]
  dsimp only
  by_cases hlast : i = entries.length
  · rw [if_pos hlast, hlast, List.eraseIdx_append_of_length_le le_rfl, Nat.sub_self]
    simp
  have hlt : i < entries.length := by
    rw [List.length_append, List.length_singleton] at hi
    omega
  have hup := @siftUp_sifting F last entries i hlt
  rw [if_neg hlast]
  split_ifs with hstay
  · have hlt' : i < (siftUp last entries i).1.length := by
      have hslot := hup.1
      rwa [hstay] at hslot
    have hdown := @siftDown_sifting F last (siftUp last entries i).1 i hlt'
    refine hdown.2.trans (.trans ?_ (set_last_perm hlt))
    have hset := hup.2
    rw [fillHole, hstay] at hset
    exact hset
  · exact hup.2.trans (set_last_perm hlt)

theorem sleeperPopMin_perm {first : Sleeper F} {rest : List (Sleeper F)} :
    (sleeperPopMin (first :: rest)).Perm rest := by
  rcases List.eq_nil_or_concat rest with rfl | ⟨entries, last, rfl⟩
  · exact .refl _
  rw [List.concat_eq_append, ← List.cons_append, sleeperPopMin, List.getLast?_concat,
    List.dropLast_concat]
  dsimp only
  rw [if_neg (List.cons_ne_nil _ _)]
  have hdown := @siftDown_sifting F last (first :: entries) 0 (Nat.succ_pos _)
  refine hdown.2.trans ?_
  rw [List.set_cons_zero]
  exact (List.perm_append_singleton _ _).symm

section Entries

/-- Every fiber has at most one entry. -/
def OneEach (sleepers : List (Sleeper F)) : Prop :=
  (sleepers.map Sleeper.fiber).Nodup

theorem OneEach.perm {sleepers' : List (Sleeper F)} (h : OneEach sleepers)
    (hperm : sleepers'.Perm sleepers) :
    OneEach sleepers' :=
  (hperm.map _).nodup_iff.mpr h

variable [DecidableEq F] {f : F}

/-- A removal takes the first entry of the fiber out, if there is one. -/
theorem sleeperRemove_cases (sleepers : List (Sleeper F)) (f : F) :
    (sleeperRemove sleepers f = sleepers ∧ ∀ e ∈ sleepers, e.fiber ≠ f) ∨
      ∃ before e after, sleepers = before ++ e :: after ∧ e.fiber = f ∧
        (sleeperRemove sleepers f).Perm (before ++ after) := by
  rw [sleeperRemove]
  cases hfind : sleepers.findIdx? fun e => e.fiber = f with
  | none =>
    refine .inl ⟨rfl, fun e he heq => ?_⟩
    have hnone := List.findIdx?_eq_none_iff.mp hfind e he
    simp [heq] at hnone
  | some i =>
    obtain ⟨hi, hfiber, -⟩ := List.findIdx?_eq_some_iff_getElem.mp hfind
    refine .inr ⟨sleepers.take i, sleepers[i], sleepers.drop (i + 1), ?_,
      of_decide_eq_true hfiber, ?_⟩
    · rw [← List.drop_eq_getElem_cons hi, List.take_append_drop]
    · rw [← List.eraseIdx_eq_take_drop_succ]
      exact sleeperRemoveAt_perm hi

theorem mem_sleeperRemove (h : OneEach sleepers) (e : Sleeper F) :
    e ∈ sleeperRemove sleepers f ↔ e ∈ sleepers ∧ e.fiber ≠ f := by
  rcases sleeperRemove_cases sleepers f with ⟨heq, hnone⟩ | ⟨before, x, after, rfl, rfl, hperm⟩
  · rw [heq]
    exact ⟨fun he => ⟨he, hnone e he⟩, And.left⟩
  · rw [OneEach, List.map_append, List.map_cons, List.nodup_middle, List.nodup_cons,
      ← List.map_append] at h
    rw [hperm.mem_iff, List.mem_append, List.mem_append, List.mem_cons]
    constructor
    · intro he
      refine ⟨he.imp_right Or.inr, fun heq => h.1 ?_⟩
      exact List.mem_map.mpr ⟨e, List.mem_append.mpr he, heq⟩
    · rintro ⟨he | rfl | he, hne⟩
      · exact .inl he
      · exact absurd rfl hne
      · exact .inr he

theorem OneEach.remove (h : OneEach sleepers) (f : F) :
    OneEach (sleeperRemove sleepers f) := by
  rcases sleeperRemove_cases sleepers f with ⟨heq, -⟩ | ⟨before, x, after, rfl, -, hperm⟩
  · rwa [heq]
  · refine OneEach.perm ?_ hperm
    rw [OneEach, List.map_append, List.map_cons, List.nodup_middle, List.nodup_cons,
      ← List.map_append] at h
    exact h.2

end Entries

end FiberIo
end Beans
