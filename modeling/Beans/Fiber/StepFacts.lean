import Beans.Fiber.NoLostWake

/-!
# What one step of a worker changes

Facts about single steps that do not depend on any invariant: when the worker
comes to a fiber's body and when it leaves it, when a fiber becomes done, what
a resume in progress keeps, and which steps are history.
-/

namespace Beans
namespace Fiber

variable {F T : Type*} [DecidableEq F] [DecidableEq T]
  {s s' : State F T} {act : Action F T} {e : Option F} {f : F}

/-- The steps after which a fiber's own code goes on. -/
def RunsAgain (act : Action F T) (s : State F T) (f : F) : Prop :=
  (act = .work ∧ (s.worker = .on f .start ∨
    (s.worker = .on f .parkExchange ∧ s.pendingWake f = true))) ∨
  (act = .park ∧ s.worker = .on f .body ∧ fiberCancelObservable s f = true)

/-- The choices that take a fiber off its body. -/
def leavesBody : Action F T → Bool
  | .park => true
  | .yield => true
  | .finish => true
  | _ => false

variable {a : Option T} {c : Bool} {r : ResumePc} {x x' : Tracked F T}

theorem callStep_worker {g : F}
    (hs : callStep s a g c = some s') : s'.worker = s.worker := by
  obtain ⟨flag, -, -, -, rfl⟩ := callStep_eq hs
  rfl

theorem callStep_state {g : F}
    (hs : callStep s a g c = some s') : s'.state = s.state := by
  obtain ⟨flag, -, -, -, rfl⟩ := callStep_eq hs
  rfl

theorem resumeStep_worker
    (hs : resumeStep s a = some s') : s'.worker = s.worker := by
  cases hr : s.resumes a with
  | none => simp [resumeStep, hr] at hs
  | some gr =>
    obtain ⟨g, r⟩ := gr
    cases r with
    | push =>
      cases a <;> simp only [resumeStep, hr] at hs <;> cases hs <;> rfl
    | _ =>
      simp only [resumeStep, hr] at hs
      (try split at hs) <;> cases hs <;> rfl

/-- A resume only moves a parked fiber, to the ready state. -/
theorem resumeStep_state (hs : resumeStep s a = some s') :
    s'.state f = s.state f ∨ s'.state f = some .ready := by
  cases hr : s.resumes a with
  | none => simp [resumeStep, hr] at hs
  | some gr =>
    obtain ⟨g, r⟩ := gr
    cases r with
    | push =>
      cases a <;> simp only [resumeStep, hr] at hs <;> cases hs <;>
        exact .inl rfl
    | cas =>
      simp only [resumeStep, hr] at hs
      split at hs <;> cases hs
      · by_cases hfg : f = g
        · subst hfg
          exact .inr (Function.update_self _ _ _)
        · exact .inl (Function.update_of_ne hfg _ _)
      · exact .inl rfl
    | _ =>
      simp only [resumeStep, hr] at hs
      (try split at hs) <;> cases hs <;> exact .inl rfl

/-- A resume in progress keeps its fiber until it returns. -/
theorem resumeStep_target (hr : s.resumes a = some (f, r)) (hs : resumeStep s a = some s') :
    s'.resumes a = none ∨ ∃ r', s'.resumes a = some (f, r') := by
  cases r with
  | push =>
    cases a with
    | none =>
      simp only [resumeStep, hr] at hs
      cases hs
      exact .inl (by simp [State.setResume])
    | some t =>
      simp only [resumeStep, hr] at hs
      cases hs
      exact .inr ⟨_, Function.update_self _ _ _⟩
  | _ =>
    simp only [resumeStep, hr] at hs
    (try split at hs) <;> cases hs <;>
      first
        | exact .inl (Function.update_self _ _ _)
        | exact .inr ⟨_, Function.update_self _ _ _⟩

omit [DecidableEq T] in
/-- The fibers that a step of the worker lets run again. -/
theorem chooseStep_event (hs : chooseStep s act = some (s', some f)) :
    RunsAgain act s f := by
  cases act with
  | work =>
    simp only [chooseStep] at hs
    cases hw : s.worker with
    | sched p =>
      cases p with
      | moving c => cases c <;> simp [workStep, hw] at hs
      | _ => simp [workStep, hw] at hs
    | on g p =>
      cases p with
      | start =>
        simp only [workStep, hw, Option.some.injEq, Prod.mk.injEq] at hs
        rw [hs.2] at hw
        exact .inl ⟨rfl, .inl hw⟩
      | parkExchange =>
        simp only [workStep, hw] at hs
        split at hs
        · rename_i hlatch
          simp only [Option.some.injEq, Prod.mk.injEq] at hs
          rw [hs.2] at hw hlatch
          exact .inl ⟨rfl, .inr ⟨hw, hlatch⟩⟩
        · simp at hs
      | settleCas =>
        simp only [workStep, hw] at hs
        split at hs <;> simp at hs
      | _ => simp [workStep, hw] at hs
  | park =>
    simp only [chooseStep] at hs
    split at hs
    · rename_i g hw
      split at hs
      · rename_i hcancel
        simp only [Option.some.injEq, Prod.mk.injEq] at hs
        rw [hs.2] at hw hcancel
        exact .inr ⟨rfl, hw, hcancel⟩
      · simp at hs
    · cases hs
  | call a g c => simp [chooseStep] at hs
  | resume a => simp [chooseStep] at hs
  | _ =>
    simp only [chooseStep] at hs
    split at hs <;> (try split at hs) <;> simp at hs

/-- The worker stays on a fiber's body but for the fiber's own choice. -/
theorem step_staysOnBody (hs : step act s = some (s', e))
    (hw : s.worker = .on f .body) (hact : leavesBody act = false) :
    s'.worker = .on f .body := by
  rcases step_cases hs with ⟨a, g, c, rfl, hcall, -⟩ |
    ⟨a, rfl, hresume, -⟩ | ⟨-, -, -, hchoose⟩
  · rw [callStep_worker hcall, hw]
  · rw [resumeStep_worker hresume, hw]
  · cases act with
    | work => simp [chooseStep, workStep, hw] at hchoose
    | spawn g =>
      simp only [chooseStep] at hchoose
      split at hchoose <;> cases hchoose
      exact hw
    | mask b =>
      simp only [chooseStep, hw] at hchoose
      cases hchoose
      rfl
    | park => cases hact
    | yield => cases hact
    | finish => cases hact
    | call a g c => simp [chooseStep] at hchoose
    | resume a => simp [chooseStep] at hchoose
    | _ => simp [chooseStep, hw] at hchoose

/-- The worker comes to a fiber's body when the fiber runs again. -/
theorem step_comesToBody (hs : step act s = some (s', e))
    (hw : s'.worker = .on f .body) :
    s.worker = .on f .body ∨ RunsAgain act s f := by
  rcases step_cases hs with ⟨a, g, c, rfl, hcall, -⟩ |
    ⟨a, rfl, hresume, -⟩ | ⟨-, -, -, hchoose⟩
  · rw [callStep_worker hcall] at hw
    exact .inl hw
  · rw [resumeStep_worker hresume] at hw
    exact .inl hw
  · cases act with
    | work =>
      simp only [chooseStep] at hchoose
      cases hp : s.worker with
      | sched p =>
        cases p with
        | moving c =>
          cases c <;> simp only [workStep, hp] at hchoose <;>
            cases hchoose <;> cases hw
        | pollLower =>
          simp only [workStep, hp] at hchoose
          cases hchoose
          cases hw
        | pollCheck =>
          simp only [workStep, hp] at hchoose
          cases hchoose
          cases hw
        | _ => simp [workStep, hp] at hchoose
      | on g p =>
        cases p with
        | start =>
          simp only [workStep, hp] at hchoose
          cases hchoose
          cases hw
          exact .inr (.inl ⟨rfl, .inl hp⟩)
        | parkExchange =>
          simp only [workStep, hp] at hchoose
          split at hchoose <;> cases hchoose <;> cases hw
          exact .inr (.inl ⟨rfl, .inr ⟨hp, by assumption⟩⟩)
        | settleExchange =>
          simp only [workStep, hp] at hchoose
          cases hchoose
          simp only [State.goto] at hw
          split at hw <;> cases hw
        | settleCas =>
          simp only [workStep, hp] at hchoose
          split at hchoose <;> cases hchoose <;> cases hw
        | body => simp [workStep, hp] at hchoose
        | _ =>
          simp only [workStep, hp] at hchoose
          cases hchoose
          cases hw
    | call a g c => simp [chooseStep] at hchoose
    | resume a => simp [chooseStep] at hchoose
    | spawn g =>
      simp only [chooseStep] at hchoose
      split at hchoose <;> cases hchoose
      exact .inl hw
    | mask b =>
      simp only [chooseStep] at hchoose
      split at hchoose <;> cases hchoose
      exact .inl hw
    | park =>
      simp only [chooseStep] at hchoose
      split at hchoose
      · split at hchoose <;> cases hchoose
        · exact .inl hw
        · cases hw
      · cases hchoose
    | yield =>
      simp only [chooseStep] at hchoose
      split at hchoose
      · split at hchoose <;> cases hchoose
        · exact .inl hw
        · cases hw
      · cases hchoose
    | _ =>
      simp only [chooseStep] at hchoose
      split at hchoose <;> (try split at hchoose) <;> cases hchoose <;>
        cases hw

/-- A fiber that runs again is on its body. -/
theorem step_runsAgain (hs : step act s = some (s', e))
    (hruns : RunsAgain act s f) : s'.worker = .on f .body := by
  rcases hruns with ⟨rfl, hw | ⟨hw, hlatch⟩⟩ | ⟨rfl, hw, hcancel⟩
  · simp only [step] at hs
    split at hs
    · simp only [chooseStep, workStep, hw] at hs
      cases hs
      rfl
    · cases hs
  · simp only [step] at hs
    split at hs
    · simp only [chooseStep, workStep, hw, hlatch, if_true] at hs
      cases hs
      rfl
    · cases hs
  · simp only [step] at hs
    split at hs
    · simp only [chooseStep, hw, hcancel, if_true] at hs
      cases hs
      exact hw
    · cases hs

/-- An actor's resume is moved by the actor only. -/
theorem step_resumes (hs : step act s = some (s', e))
    (hcall : ∀ g c, act ≠ .call a g c) (hres : act ≠ .resume a) :
    s'.resumes a = s.resumes a := by
  rcases step_cases hs with ⟨b, g, c, rfl, hc, -⟩ |
    ⟨b, rfl, hr, -⟩ | ⟨-, -, -, hchoose⟩
  · obtain ⟨flag, -, -, -, rfl⟩ := callStep_eq hc
    refine Function.update_of_ne ?_ _ _
    rintro rfl
    exact hcall g c rfl
  · refine resumeStep_other hr ?_
    rintro rfl
    exact hres rfl
  · rw [chooseStep_resumes hchoose]

omit [DecidableEq T] in
/-- A fiber becomes done at the end of `settle` only. -/
theorem chooseStep_state (hs : chooseStep s act = some (s', e)) :
    s'.state f = s.state f ∨
      (∃ st, s'.state f = some st ∧ st ≠ .done) ∨
      s.worker = .on f .settleDone := by
  have hset (g : F) (st : FiberState) (hst : st ≠ .done) :
      Function.update s.state g (some st) f = s.state f ∨
        ∃ st', Function.update s.state g (some st) f = some st' ∧
          st' ≠ .done := by
    by_cases hfg : f = g
    · subst hfg
      exact .inr ⟨st, Function.update_self _ _ _, hst⟩
    · exact .inl (Function.update_of_ne hfg _ _)
  cases act with
  | work =>
    simp only [chooseStep] at hs
    cases hw : s.worker with
    | sched p => exact .inl (congrFun (workStep_sched hw hs).1 f)
    | on g p =>
      by_cases hfg : f = g
      · subst hfg
        cases p with
        | body => simp [workStep, hw] at hs
        | settleDone => exact .inr (.inr rfl)
        | parkExchange =>
          simp only [workStep, hw] at hs
          split at hs <;> cases hs <;> exact .inl rfl
        | settleExchange =>
          simp only [workStep, hw] at hs
          cases hs
          exact .inl rfl
        | settlePush =>
          simp only [workStep, hw] at hs
          cases hs
          exact .inl rfl
        | settleCas =>
          simp only [workStep, hw] at hs
          split at hs <;> cases hs
          · exact .inr (.inl ⟨.parked, Function.update_self _ _ _,
              by decide⟩)
          · exact .inl rfl
        | _ =>
          simp only [workStep, hw] at hs
          cases hs
          exact .inr (.inl ⟨_, Function.update_self _ _ _, by decide⟩)
      · exact .inl (workStep_other hw hfg hs).1
  | spawn g =>
    simp only [chooseStep] at hs
    split at hs <;> cases hs
    simp only [State.readyPush, State.setState]
    rcases hset g .ready (by decide) with hst | hst
    · exact .inl hst
    · exact .inr (.inl hst)
  | finish =>
    simp only [chooseStep] at hs
    split at hs <;> cases hs
    rename_i g hw
    simp only [State.goto, State.setState]
    rcases hset g .parking (by decide) with hst | hst
    · exact .inl hst
    · exact .inr (.inl hst)
  | call a g c => simp [chooseStep] at hs
  | resume a => simp [chooseStep] at hs
  | _ =>
    simp only [chooseStep] at hs
    split at hs <;> (try split at hs) <;> cases hs <;> exact .inl rfl

omit [DecidableEq T] in
/-- The worker comes to the end of a fiber from the fiber's body. -/
theorem chooseStep_settleDone (hs : chooseStep s act = some (s', e))
    (hw : s'.worker = .on f .settleDone) :
    s.worker = .on f .settleDone ∨ s.worker = .on f .body := by
  cases act with
  | work =>
    simp only [chooseStep] at hs
    cases hp : s.worker with
    | sched p =>
      cases p with
      | moving c =>
        cases c <;> simp only [workStep, hp] at hs <;> cases hs <;>
          cases hw
      | pollLower =>
        simp only [workStep, hp] at hs
        cases hs
        cases hw
      | pollCheck =>
        simp only [workStep, hp] at hs
        cases hs
        cases hw
      | _ => simp [workStep, hp] at hs
    | on g p =>
      cases p with
      | body => simp [workStep, hp] at hs
      | parkExchange =>
        simp only [workStep, hp] at hs
        split at hs <;> cases hs <;> cases hw
      | settleExchange =>
        simp only [workStep, hp] at hs
        cases hs
        simp only [State.goto] at hw
        split at hw <;> cases hw
      | settleCas =>
        simp only [workStep, hp] at hs
        split at hs <;> cases hs <;> cases hw
      | _ =>
        simp only [workStep, hp] at hs
        cases hs
        cases hw
  | spawn g =>
    simp only [chooseStep] at hs
    split at hs <;> cases hs
    exact .inl hw
  | mask b =>
    simp only [chooseStep] at hs
    split at hs <;> cases hs
    exact .inl hw
  | park =>
    simp only [chooseStep] at hs
    split at hs
    · split at hs <;> cases hs
      · exact .inl hw
      · cases hw
    · cases hs
  | yield =>
    simp only [chooseStep] at hs
    split at hs
    · split at hs <;> cases hs
      · exact .inl hw
      · cases hw
    · cases hs
  | finish =>
    simp only [chooseStep] at hs
    split at hs
    · rename_i g hbody
      cases hs
      cases hw
      exact .inr hbody
    · cases hs
  | call a g c => simp [chooseStep] at hs
  | resume a => simp [chooseStep] at hs
  | _ =>
    simp only [chooseStep] at hs
    split at hs <;> (try split at hs) <;> cases hs <;> cases hw

/-- A spawned fiber that is not done and not about to be. -/
structure Alive (s : State F T) (f : F) : Prop where
  spawned : s.state f ≠ none
  not_done : s.state f ≠ some .done
  not_ending : s.worker ≠ .on f .settleDone

/-- A fiber that does not run its own code stays alive. -/
theorem Alive.step (h : Alive s f) (hs : Fiber.step act s = some (s', e))
    (hbody : s.worker ≠ .on f .body) : Alive s' f := by
  rcases step_cases hs with ⟨a, g, c, rfl, hcall, -⟩ |
    ⟨a, rfl, hresume, -⟩ | ⟨-, -, -, hchoose⟩
  · have hw := callStep_worker hcall
    have hst := callStep_state hcall
    exact ⟨by rw [hst]; exact h.spawned, by rw [hst]; exact h.not_done,
      by rw [hw]; exact h.not_ending⟩
  · have hw := resumeStep_worker hresume
    rcases resumeStep_state (f := f) hresume with hst | hst
    · exact ⟨by rw [hst]; exact h.spawned, by rw [hst]; exact h.not_done,
        by rw [hw]; exact h.not_ending⟩
    · exact ⟨by simp [hst], by simp [hst], by rw [hw]; exact h.not_ending⟩
  · have hend : s'.worker ≠ .on f .settleDone := by
      intro hw
      rcases chooseStep_settleDone hchoose hw with hw | hw
      · exact h.not_ending hw
      · exact hbody hw
    rcases chooseStep_state (f := f) hchoose with hst | ⟨st, hst, hne⟩ | hw
    · exact ⟨by rw [hst]; exact h.spawned, by rw [hst]; exact h.not_done, hend⟩
    · exact ⟨by simp [hst], by simpa [hst] using hne, hend⟩
    · exact absurd hw h.not_ending

theorem trackedStep_step (hs : trackedStep act x = some x') :
    ∃ e, step act x.1 = some (x'.1, e) := by
  simp only [trackedStep, Option.map_eq_some_iff] at hs
  obtain ⟨⟨s', e⟩, hs, rfl⟩ := hs
  exact ⟨e, hs⟩

/-- What is owed to a fiber stays owed until it runs again. -/
theorem trackedStep_owed (hs : trackedStep act x = some x') (hf : x.2.owed f = true) :
    x'.2.owed f = true ∨ RunsAgain act x.1 f := by
  obtain ⟨s, k⟩ := x
  simp only [trackedStep, Option.map_eq_some_iff] at hs
  obtain ⟨⟨s', e⟩, hs, rfl⟩ := hs
  rcases step_cases hs with ⟨a, g, c, rfl, -, -⟩ |
    ⟨a, rfl, -, -⟩ | ⟨hcall, hres, -, hchoose⟩
  · exact .inl hf
  · left
    simp only [History.after]
    split
    · rename_i g r _ _
      dsimp only at hf ⊢
      by_cases hfg : f = g
      · subst hfg
        rw [Function.update_self, Bool.or_eq_true]
        exact .inl hf
      · rwa [Function.update_of_ne hfg]
    · exact hf
  · rw [History.after_choose hcall hres]
    cases e with
    | none => exact .inl hf
    | some g =>
      by_cases hfg : f = g
      · subst hfg
        exact .inr (chooseStep_event hchoose)
      · left
        simpa [History.ran, Function.update_of_ne hfg] using hf

/-- A resume stays fresh until its fiber runs again. -/
theorem trackedStep_fresh (hs : trackedStep act x = some x') (ha : x.1.resumes a = some (f, r))
    (hf : x.2.fresh a = true) :
    x'.2.fresh a = true ∨ RunsAgain act x.1 f := by
  obtain ⟨s, k⟩ := x
  simp only [trackedStep, Option.map_eq_some_iff] at hs
  obtain ⟨⟨s', e⟩, hs, rfl⟩ := hs
  rcases step_cases hs with ⟨b, g, c, rfl, -, -⟩ |
    ⟨b, rfl, -, -⟩ | ⟨hcall, hres, -, hchoose⟩
  · left
    simp only [History.after]
    by_cases hab : a = b
    · subst hab
      exact Function.update_self _ _ _
    · rwa [Function.update_of_ne hab]
  · left
    simp only [History.after]
    split <;> exact hf
  · rw [History.after_choose hcall hres]
    cases e with
    | none => exact .inl hf
    | some g =>
      by_cases hfg : f = g
      · subst hfg
        exact .inr (chooseStep_event hchoose)
      · left
        dsimp only at ha hf
        simp [History.ran, ha, hf, hfg]

/-- A call is fresh. -/
theorem trackedStep_call (hs : trackedStep (.call a f c) x = some x') :
    x'.1.resumes a = some (f, .load) ∧ x'.2.fresh a = true := by
  obtain ⟨s, k⟩ := x
  simp only [trackedStep, step, Option.map_map, Option.map_eq_some_iff] at hs
  obtain ⟨s', hcall, rfl⟩ := hs
  obtain ⟨flag, -, -, -, rfl⟩ := callStep_eq hcall
  exact ⟨Function.update_self _ _ _, Function.update_self _ _ _⟩

/-- A fresh resume that returns is owed. -/
theorem trackedStep_returns (hs : trackedStep (.resume a) x = some x')
    (ha : x.1.resumes a = some (f, r)) (hf : x.2.fresh a = true) :
    (x'.1.resumes a = none ∧ x'.2.owed f = true) ∨
      ∃ r', x'.1.resumes a = some (f, r') ∧ x'.2.fresh a = true := by
  obtain ⟨s, k⟩ := x
  simp only [trackedStep, step, Option.map_map, Option.map_eq_some_iff] at hs
  obtain ⟨s', hresume, rfl⟩ := hs
  dsimp only at ha hf
  rcases resumeStep_target ha hresume with hnone | ⟨r', hsome⟩
  · refine .inl ⟨hnone, ?_⟩
    simp [History.after, ha, hnone, hf]
  · refine .inr ⟨r', hsome, ?_⟩
    simp [History.after, ha, hsome, hf]

/-- A call finds a fiber that is alive, if the caller is in no other call. -/
theorem trackedStep_call_alive {t : T}
    (ha : x.1.resumes (some t) = none) (h : Alive x.1 f) :
    ∃ x', trackedStep (.call (some t) f c) x = some x' := by
  have hguard : ¬(x.1.resumes (some t) ≠ none ∨ x.1.state f = none ∨
      x.1.state f = some .done ∨
      ((some t : Option T) = none ∧ callsFrom x.1.worker = false)) := by
    simp [ha, h.spawned, h.not_done]
  simp only [trackedStep, step, callStep, hguard, if_false,
    Option.map_some]
  exact ⟨_, rfl⟩

end Fiber
end Beans
