import Mathlib

/-!
# Loops that make progress

A loop is a partial step on a state: no step means that the loop has ended.  When
a measure of the state decreases with every step, a bound on the measure is
enough fuel, and what every step preserves holds at the end.

A loop that pops an element and hands it, with the rest of the stack, to a body
that may push more; and a loop over a list whose body may fail.  The rules
carry an invariant of stack and state, and a measure that pays for the pushes:
with fuel for the stack and the measure the loop ends.

**Results.**
* `run_invariant`, `run_rel`: what every step preserves, and a relation of every step.
* `run_enough`: more fuel than the measure changes nothing.
* `drain_spec`, `forEach_spec`: the rules of the two other loops.
-/

namespace Beans

namespace Loop

universe u

variable {σ : Type u} (step : σ → Option σ)

/-- At most `n` steps. -/
def run : Nat → σ → σ
  | 0, s => s
  | n + 1, s =>
    match step s with
    | none => s
    | some s' => run n s'

variable {step}

theorem run_succ (n : Nat) (s : σ) :
    run step (n + 1) s =
      match step s with
      | none => s
      | some s' => run step n s' :=
  rfl

variable {s : σ}

theorem run_none (h : step s = none) (n : Nat) : run step n s = s := by
  cases n with
  | zero => rfl
  | succ n => rw [run_succ, h]

theorem run_some {s' : σ} (h : step s = some s') (n : Nat) :
    run step (n + 1) s = run step n s' := by
  rw [run_succ, h]

theorem run_add (n m : Nat) (s : σ) : run step (n + m) s = run step m (run step n s) := by
  induction n generalizing s with
  | zero => rw [Nat.zero_add]; rfl
  | succ n ih =>
    rw [Nat.add_right_comm]
    cases hs : step s with
    | none => rw [run_none hs, run_none hs, run_none hs]
    | some s' => rw [run_some hs, run_some hs, ih]

/-- What every step preserves. -/
theorem run_invariant {P : σ → Prop}
    (hstep : ∀ s s', P s → step s = some s' → P s') (h : P s) (n : Nat) :
    P (run step n s) := by
  induction n generalizing s with
  | zero => exact h
  | succ n ih =>
    rw [run_succ]
    cases hs : step s with
    | none => exact h
    | some s' => exact ih (hstep s s' h hs)

/-- A relation of every step, from the start to the end. -/
theorem run_rel {R : σ → σ → Prop} (hrefl : ∀ s, R s s)
    (htrans : ∀ s t u, R s t → R t u → R s u)
    (hstep : ∀ s s', step s = some s' → R s s') (s : σ) (n : Nat) :
    R s (run step n s) :=
  run_invariant (fun t t' h ht => htrans s t t' h (hstep t t' ht)) (hrefl s) n

/-- A loop that another loop follows step by step. -/
theorem run_map {τ : Type*} {step' : τ → Option τ} {f : σ → τ} {P : σ → Prop}
    (hinv : ∀ s s', P s → step s = some s' → P s')
    (hsim : ∀ s, P s → step' (f s) = (step s).map f) (h : P s) (n : Nat) :
    run step' n (f s) = f (run step n s) := by
  induction n generalizing s with
  | zero => rfl
  | succ n ih =>
    rw [run_succ, run_succ, hsim s h]
    cases hs : step s with
    | none => rfl
    | some s' => exact ih (hinv s s' h hs)

section Measure

variable {μ : σ → Nat}

/-- Enough fuel ends the loop, when the measure decreases where it gets to. -/
theorem step_run_on {P : σ → Prop}
    (hinv : ∀ s s', P s → step s = some s' → P s')
    (hmeasure : ∀ s s', P s → step s = some s' → μ s' < μ s)
    {n : Nat} {s : σ} (hs : P s) (h : μ s ≤ n) :
    step (run step n s) = none := by
  induction n generalizing s with
  | zero =>
    cases hnext : step s with
    | none => exact hnext
    | some s' =>
      have := hmeasure s s' hs hnext
      omega
  | succ n ih =>
    cases hnext : step s with
    | none => rw [run_none hnext, hnext]
    | some s' =>
      have := hmeasure s s' hs hnext
      rw [run_some hnext]
      exact ih (hinv s s' hs hnext) (by omega)

/-- Enough fuel ends the loop. -/
theorem step_run (hmeasure : ∀ s s', step s = some s' → μ s' < μ s) {n : Nat}
    {s : σ} (h : μ s ≤ n) : step (run step n s) = none :=
  step_run_on (P := fun _ => True) (fun _ _ _ _ => trivial)
    (fun s s' _ => hmeasure s s') trivial h

/-- More fuel changes nothing. -/
theorem run_enough (hmeasure : ∀ s s', step s = some s' → μ s' < μ s) {n m : Nat}
    {s : σ} (hn : μ s ≤ n) (hm : μ s ≤ m) :
    run step n s = run step m s := by
  induction n generalizing m s with
  | zero =>
    have hnone : step s = none := step_run (n := 0) hmeasure hn
    rw [run_none hnone, run_none hnone]
  | succ n ih =>
    cases hs : step s with
    | none => rw [run_none hs, run_none hs]
    | some s' =>
      have := hmeasure s s' hs
      obtain ⟨m, rfl⟩ : ∃ k, m = k + 1 := ⟨m - 1, by omega⟩
      rw [run_some hs, run_some hs]
      exact ih (by omega) (by omega)

/-- One turn, and enough fuel for the others. -/
theorem run_step (hmeasure : ∀ s s', step s = some s' → μ s' < μ s) {s s' : σ}
    (h : step s = some s') :
    run step (μ s) s = run step (μ s') s' := by
  have := hmeasure s s' h
  obtain ⟨n, hn⟩ : ∃ n, μ s = n + 1 := ⟨μ s - 1, by omega⟩
  rw [hn, run_some h]
  exact run_enough hmeasure (by omega) (Nat.le_refl _)

end Measure

end Loop

namespace Worklist

variable {α σ : Type*}

/-- Pops and runs the body until the stack is empty; `none` when the fuel is
used up before. -/
def drain (body : α → List α → σ → Option (List α × σ)) :
    ℕ → List α → σ → Option σ
  | _, [], s => some s
  | 0, _ :: _, _ => none
  | fuel + 1, p :: st, s =>
    (body p st s).bind fun r => drain body fuel r.1 r.2

variable {body : α → List α → σ → Option (List α × σ)}

theorem drain_nil (fuel : ℕ) (s : σ) : drain body fuel [] s = some s := by
  cases fuel <;> rfl

variable {fuel : ℕ} {s s' : σ} {f : α → σ → Option σ}

theorem drain_cons {p : α} {st st' : List α}
    (h : body p st s = some (st', s')) :
    drain body (fuel + 1) (p :: st) s = drain body fuel st' s' := by
  rw [drain, h]
  rfl

/-- What every turn keeps holds at the end, and the end is reached. -/
theorem drain_spec {I : List α → σ → Prop} {μ : σ → ℕ}
    (hbody : ∀ p st s, I (p :: st) s → ∃ st' s',
      body p st s = some (st', s') ∧ I st' s' ∧
      st'.length + μ s' ≤ st.length + μ s)
    (fuel : ℕ) (st : List α) (s : σ) (hfuel : st.length + μ s ≤ fuel)
    (h : I st s) : ∃ s', drain body fuel st s = some s' ∧ I [] s' := by
  induction fuel generalizing st s with
  | zero =>
    cases st with
    | nil => exact ⟨s, drain_nil 0 s, h⟩
    | cons p rest =>
      rw [List.length_cons] at hfuel
      omega
  | succ fuel ih =>
    cases st with
    | nil => exact ⟨s, drain_nil _ s, h⟩
    | cons p rest =>
      obtain ⟨st', s', hs, hI, hμ⟩ := hbody p rest s h
      rw [List.length_cons] at hfuel
      rw [drain_cons hs]
      exact ih st' s' (by omega) hI

/-- Runs the body on the elements in order. -/
def forEach (body : α → σ → Option σ) : List α → σ → Option σ
  | [], s => some s
  | p :: rest, s => (body p s).bind (forEach body rest)

/-- The invariant speaks of the elements that are left. -/
theorem forEach_spec {I : List α → σ → Prop}
    (hbody : ∀ p rest s, I (p :: rest) s →
      ∃ s', f p s = some s' ∧ I rest s')
    (l : List α) (s : σ) (h : I l s) :
    ∃ s', forEach f l s = some s' ∧ I [] s' := by
  induction l generalizing s with
  | nil => exact ⟨s, rfl, h⟩
  | cons p rest ih =>
    obtain ⟨s', hs, hI⟩ := hbody p rest s h
    obtain ⟨s₂, hs₂, hI₂⟩ := ih s' hI
    refine ⟨s₂, ?_, hI₂⟩
    rw [forEach, hs]
    exact hs₂

/-- What every turn keeps holds at the end, if there is one. -/
theorem drain_keeps {P : σ → Prop}
    (hbody : ∀ p st s st' s', P s → body p st s = some (st', s') → P s')
    {st : List α} (h : P s) (hs : drain body fuel st s = some s') :
    P s' := by
  induction fuel generalizing st s with
  | zero =>
    cases st <;> cases hs
    exact h
  | succ fuel ih =>
    cases st with
    | nil =>
      cases hs
      exact h
    | cons p st =>
      obtain ⟨r, hr, hrest⟩ := Option.bind_eq_some_iff.mp hs
      exact ih (hbody p st s r.1 r.2 h hr) hrest

theorem forEach_keeps {P : σ → Prop}
    (hbody : ∀ p s s', P s → f p s = some s' → P s') {l : List α} (h : P s)
    (hs : forEach f l s = some s') : P s' := by
  induction l generalizing s with
  | nil =>
    cases hs
    exact h
  | cons p rest ih =>
    obtain ⟨t, ht, hrest⟩ := Option.bind_eq_some_iff.mp hs
    exact ih (hbody p s t h ht) hrest

end Worklist

end Beans
