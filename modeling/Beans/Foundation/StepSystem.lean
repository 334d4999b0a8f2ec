import Mathlib

/-!
# Runs of a step system

A system is a partial function from actions and states to states.  A run takes
one action after the other; `Reachable` collects the states that runs lead to,
possibly under a condition that every step has to meet in the state it starts
from.  An invariant is proved once for a single step.

**Results.**
* `Reachable.invariant`: what one step preserves, every reachable state satisfies.
* `Reachable.mono`: a weaker condition reaches more.
* `Reachable.runChecked`: a run whose steps pass a check that is enough for the condition.
-/

namespace Beans
namespace StepSystem

variable {σ α : Type*} (step : α → σ → Option σ) (init : σ → Prop)

/-- The states reached by steps that all meet `allowed`. -/
inductive Reachable (allowed : α → σ → Prop) : σ → Prop
  | start {s : σ} : init s → Reachable allowed s
  | step {s s' : σ} (a : α) : Reachable allowed s → allowed a s →
      step a s = some s' → Reachable allowed s'

/-- No condition on the steps. -/
def anyStep : α → σ → Prop := fun _ _ => True

/-- The state after a list of actions. -/
def run : List α → σ → Option σ
  | [], s => some s
  | a :: as, s => (step a s).bind (run as)

variable {step init}

/-- What one step preserves, every reachable state satisfies. -/
theorem Reachable.invariant {allowed : α → σ → Prop} {P : σ → Prop}
    (hinit : ∀ s, init s → P s)
    (hstep : ∀ s a s', P s → allowed a s → step a s = some s' → P s')
    {s : σ} (h : Reachable step init allowed s) : P s := by
  induction h with
  | start h₀ => exact hinit _ h₀
  | step a _ hallowed heq ih => exact hstep _ a _ ih hallowed heq

/-- A weaker condition reaches more. -/
theorem Reachable.mono {allowed allowed' : α → σ → Prop}
    (himp : ∀ a s, allowed a s → allowed' a s) {s : σ}
    (h : Reachable step init allowed s) : Reachable step init allowed' s := by
  induction h with
  | start h₀ => exact .start h₀
  | step a _ hallowed heq ih => exact .step a ih (himp a _ hallowed) heq

/-- A run of actions that are always allowed leads to a reachable state. -/
theorem Reachable.runAllowed {allowed : α → σ → Prop} :
    ∀ (as : List α) {s s' : σ}, Reachable step init allowed s →
      (∀ a ∈ as, ∀ t, allowed a t) → StepSystem.run step as s = some s' →
      Reachable step init allowed s'
  | [], s, s', h, _, hrun => by
      cases hrun
      exact h
  | a :: as, s, s', h, hall, hrun => by
      obtain ⟨t, ht, hrest⟩ := Option.bind_eq_some_iff.mp hrun
      have hfirst := hall a List.mem_cons_self s
      exact Reachable.runAllowed as (.step a h hfirst ht)
        (fun b hb => hall b (List.mem_cons_of_mem a hb)) hrest

/-- A run leads to a reachable state. -/
theorem Reachable.run (as : List α) {s s' : σ}
    (h : Reachable step init anyStep s)
    (hrun : StepSystem.run step as s = some s') :
    Reachable step init anyStep s' :=
  h.runAllowed as (fun _ _ _ => trivial) hrun

/-- A step that is taken only where a check passes. -/
def checkedStep (step : α → σ → Option σ) (check : α → σ → Bool) (a : α) (s : σ) : Option σ :=
  if check a s then step a s else none

/-- A run leads to a reachable state when a check that is enough for the condition
passes before each step. -/
theorem Reachable.runChecked {allowed : α → σ → Prop} {check : α → σ → Bool}
    (hcheck : ∀ a s, check a s = true → allowed a s) :
    ∀ (as : List α) {s s' : σ}, Reachable step init allowed s →
      StepSystem.run (checkedStep step check) as s = some s' →
      Reachable step init allowed s'
  | [], s, s', h, hrun => by
      cases hrun
      exact h
  | a :: as, s, s', h, hrun => by
      obtain ⟨t, ht, hrest⟩ := Option.bind_eq_some_iff.mp hrun
      unfold checkedStep at ht
      split_ifs at ht with hpass
      exact Reachable.runChecked hcheck as (.step a h (hcheck a s hpass) ht) hrest

end StepSystem
end Beans
