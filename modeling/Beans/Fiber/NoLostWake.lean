import Beans.Fiber.Placement

/-!
# No wake is lost

A resume that has returned leaves its fiber on its way: queued, in somebody's
hands, latched while the worker still has to consume the latch, or parked with
another resume in progress.  Placement holds on every run.  The wake survives
every step but one: the compare-and-swap from `PARKING` to `PARKED` ignores the
latch, so a latch stored after it was consumed, by a resume that has read
`PARKING` again and returned, is left behind with the parked fiber.

**Results.**
* `parkResume_keepsWakes`: no wake is lost in a run whose steps to `PARKED` find the latch
  empty or a resume still in progress; the queues are safe in every run.
* `parkResume_losesWake`: a run that parks a fiber on a latch.
-/

namespace Beans
namespace Fiber

open StepSystem IntrusiveQueue

variable {F T : Type*}

/-- The worker stands where it may wait for another thread. -/
def waiting : WorkerPc F → Bool
  | .sched .idle => true
  | .sched .blocked => true
  | .sched .pollCheck => true
  | .sched .polling => true
  | _ => false

/-- Resumes name spawned fibers, and what arrives for a waiting worker is
announced to it. -/
structure Posture (s : State F T) : Prop where
  targets : ∀ a f r, s.resumes a = some (f, r) → s.state f ≠ none
  own_resume : s.resumes none ≠ none → callsFrom s.worker = true
  nothing_ready : waiting s.worker = true → s.ready.head = none
  poll_flag : s.worker = .sched .pollCheck ∨ s.worker = .sched .polling →
    s.inPoll = true
  blocked_hears : s.worker = .sched .blocked →
    s.inbox.head = none ∨ s.signalled = true
  polling_hears : s.worker = .sched .polling →
    s.inbox.head = none ∨ s.kicked = true ∨
      ∃ a f, s.resumes a = some (f, .kick)

/-- A worker that may call does not wait. -/
theorem waiting_of_callsFrom {w : WorkerPc F} (h : callsFrom w = true) :
    waiting w = false := by
  cases w with
  | on f p => rfl
  | sched p => cases p <;> first | rfl | cases h

namespace Posture

variable {s s' : State F T}

/-- A step of the worker that does not end in a wait. -/
theorem awake (h : Posture s) (hown : s.resumes none = none)
    (hw : waiting s'.worker = false) (hr : s'.resumes = s.resumes)
    (hstate : ∀ f, s.state f ≠ none → s'.state f ≠ none) : Posture s' := by
  refine ⟨?_, ?_, ?_, ?_, ?_, ?_⟩
  · intro a f r ha
    rw [hr] at ha
    exact hstate f (h.targets a f r ha)
  · rw [hr]
    exact fun hne => absurd hown hne
  · rw [hw]
    exact nofun
  · rintro (hw' | hw') <;> rw [hw'] at hw <;> cases hw
  · intro hw'
    rw [hw'] at hw
    cases hw
  · intro hw'
    rw [hw'] at hw
    cases hw

/-- The worker becomes idle with no ready fiber. -/
theorem idle (h : Posture s) (hown : s.resumes none = none)
    (hw : s'.worker = .sched .idle) (hr : s'.resumes = s.resumes)
    (hstate : s'.state = s.state) (hready : s'.ready.head = none) :
    Posture s' := by
  refine ⟨?_, ?_, fun _ => hready, ?_, ?_, ?_⟩
  · rw [hr, hstate]
    exact h.targets
  · rw [hr]
    exact fun hne => absurd hown hne
  · rw [hw]
    rintro (hw' | hw') <;> cases hw'
  · rw [hw]
    exact nofun
  · rw [hw]
    exact nofun

/-- A state set to something stays spawned. -/
theorem setState_ne [DecidableEq F] {f : F} {st : FiberState} :
    ∀ g, s.state g ≠ none → (s.setState f st).state g ≠ none := by
  intro g hg
  by_cases hgf : g = f
  · subst hgf
    simp [State.setState]
  · have hkeep : (s.setState f st).state g = s.state g :=
      Function.update_of_ne hgf _ _
    rw [hkeep]
    exact hg

theorem workStep [DecidableEq F] (h : Posture s) {e : Option F}
    (hown : s.resumes none = none)
    (hs : Fiber.workStep s = some (s', e)) : Posture s' := by
  cases hw : s.worker with
  | on f p =>
    cases p with
    | body => simp [Fiber.workStep, hw] at hs
    | parkExchange =>
      simp only [Fiber.workStep, hw] at hs
      split at hs <;> cases hs <;>
        exact h.awake hown rfl rfl fun _ hg => hg
    | settleExchange =>
      simp only [Fiber.workStep, hw] at hs
      cases hs
      exact h.awake hown rfl rfl fun _ hg => hg
    | settleCas =>
      simp only [Fiber.workStep, hw] at hs
      split at hs <;> cases hs
      · exact h.awake hown rfl rfl setState_ne
      · exact h.awake hown rfl rfl fun _ hg => hg
    | settlePush =>
      simp only [Fiber.workStep, hw] at hs
      cases hs
      exact h.awake hown rfl rfl fun _ hg => hg
    | _ =>
      simp only [Fiber.workStep, hw] at hs
      cases hs
      exact h.awake hown rfl rfl setState_ne
  | sched p =>
    cases p with
    | moving c =>
      cases c with
      | none =>
        simp only [Fiber.workStep, hw] at hs
        cases hs
        exact h.awake hown rfl rfl fun _ hg => hg
      | some f =>
        simp only [Fiber.workStep, hw] at hs
        cases hs
        exact h.awake hown rfl rfl fun _ hg => hg
    | pollCheck =>
      have hready := h.nothing_ready (by rw [hw]; rfl)
      have hflag := h.poll_flag (Or.inl hw)
      simp only [Fiber.workStep, hw] at hs
      cases hs
      refine ⟨h.targets, fun hne => absurd hown hne, fun _ => hready,
        fun _ => hflag, ?_, ?_⟩
      · intro hw'
        simp only [State.goto] at hw'
        split at hw' <;> cases hw'
      · intro hw'
        simp only [State.goto] at hw'
        split at hw'
        · exact Or.inl ‹_›
        · cases hw'
    | pollLower =>
      simp only [Fiber.workStep, hw] at hs
      cases hs
      exact h.awake hown rfl rfl fun _ hg => hg
    | _ => simp [Fiber.workStep, hw] at hs

/-- Resumes, cancels and the worker's choices keep the posture. -/
theorem chooseStep [DecidableEq F] (h : Posture s) {act : Action F T}
    {e : Option F} (hown : s.resumes none = none)
    (hs : Fiber.chooseStep s act = some (s', e)) : Posture s' := by
  cases act with
  | work => exact h.workStep hown hs
  | spawn f =>
    simp only [Fiber.chooseStep] at hs
    split at hs <;> cases hs
    rename_i hguard
    refine h.awake hown ?_ rfl setState_ne
    exact waiting_of_callsFrom hguard.2
  | mask masked =>
    simp only [Fiber.chooseStep] at hs
    split at hs <;> cases hs
    rename_i f hw
    refine h.awake hown ?_ rfl fun _ hg => hg
    exact hw ▸ rfl
  | park =>
    simp only [Fiber.chooseStep] at hs
    split at hs
    · split at hs <;> cases hs
      · exact h
      · exact h.awake hown rfl rfl fun _ hg => hg
    · cases hs
  | yield =>
    simp only [Fiber.chooseStep] at hs
    split at hs
    · split at hs <;> cases hs
      · exact h
      · exact h.awake hown rfl rfl fun _ hg => hg
    · cases hs
  | finish =>
    simp only [Fiber.chooseStep] at hs
    split at hs <;> cases hs
    exact h.awake hown rfl rfl setState_ne
  | drain =>
    simp only [Fiber.chooseStep] at hs
    split at hs <;> cases hs
    exact h.awake hown rfl rfl fun _ hg => hg
  | drainBlock =>
    simp only [Fiber.chooseStep] at hs
    split at hs
    · rename_i hw
      split at hs <;> cases hs
      · have hready := h.nothing_ready (by rw [hw]; rfl)
        exact ⟨h.targets, fun hne => absurd hown hne, fun _ => hready,
          (by rintro (hw' | hw') <;> cases hw'), fun _ => Or.inl ‹_›,
          by simp⟩
      · exact h.awake hown rfl rfl fun _ hg => hg
    · cases hs
  | condReturn =>
    simp only [Fiber.chooseStep] at hs
    split at hs <;> cases hs
    rename_i hw
    exact h.idle hown rfl rfl rfl (h.nothing_ready (by rw [hw]; rfl))
  | pop =>
    simp only [Fiber.chooseStep] at hs
    split at hs
    · split at hs <;> cases hs
      · rename_i hhead
        exact h.idle hown rfl rfl rfl hhead
      · exact h.awake hown rfl rfl fun _ hg => hg
    · cases hs
  | «continue» =>
    simp only [Fiber.chooseStep] at hs
    split at hs <;> cases hs
    exact h.awake hown rfl rfl fun _ hg => hg
  | pollRaise =>
    simp only [Fiber.chooseStep] at hs
    split at hs <;> cases hs
    rename_i hw
    have hready := h.nothing_ready (by rw [hw]; rfl)
    exact ⟨h.targets, fun hne => absurd hown hne, fun _ => hready,
      fun _ => rfl, by simp, by simp⟩
  | pollReturn =>
    simp only [Fiber.chooseStep] at hs
    split at hs <;> cases hs
    exact h.awake hown rfl rfl fun _ hg => hg
  | call a f c => simp [Fiber.chooseStep] at hs
  | resume a => simp [Fiber.chooseStep] at hs

/-- An actor's resume moves on, the worker staying where it is. -/
theorem moveResume [DecidableEq T] (h : Posture s)
    (next : Option ResumePc) {a : Option T} {f : F} {r : ResumePc}
    (ha : s.resumes a = some (f, r)) (hr : r ≠ .kick)
    (hworker : s'.worker = s.worker) (hpoll : s'.inPoll = s.inPoll)
    (hresumes : s'.resumes =
      Function.update s.resumes a (next.map fun q => (f, q)))
    (hstate : ∀ g, s.state g ≠ none → s'.state g ≠ none)
    (hready : waiting s.worker = true → s'.ready = s.ready)
    (hinbox : (s'.inbox = s.inbox ∧ s'.signalled = s.signalled ∧
        s'.kicked = s.kicked) ∨
      (s'.signalled = true ∧ next = some .kick)) : Posture s' := by
  refine ⟨?_, ?_, ?_, ?_, ?_, ?_⟩
  · intro b g q hb
    rw [hresumes] at hb
    by_cases hba : b = a
    · rw [hba, Function.update_self, Option.map_eq_some_iff] at hb
      obtain ⟨q', -, hgq⟩ := hb
      cases hgq
      exact hstate f (h.targets a f r ha)
    · rw [Function.update_of_ne hba] at hb
      exact hstate g (h.targets b g q hb)
  · intro hne
    rw [hworker]
    refine h.own_resume fun hnone => hne ?_
    by_cases hna : none = a
    · rw [← hna, hnone] at ha
      cases ha
    · rw [hresumes, Function.update_of_ne hna]
      exact hnone
  · intro hw
    rw [hworker] at hw
    rw [hready hw]
    exact h.nothing_ready hw
  · rw [hworker, hpoll]
    exact h.poll_flag
  · rw [hworker]
    intro hw
    rcases hinbox with ⟨hin, hsig, -⟩ | ⟨hsig, -⟩
    · rw [hin, hsig]
      exact h.blocked_hears hw
    · exact Or.inr hsig
  · rw [hworker]
    intro hw
    rcases hinbox with ⟨hin, -, hkick⟩ | ⟨-, hnext⟩
    · rw [hin, hkick, hresumes]
      rcases h.polling_hears hw with hempty | hkicked | ⟨b, g, hb⟩
      · exact Or.inl hempty
      · exact Or.inr (Or.inl hkicked)
      · refine Or.inr (Or.inr ⟨b, g, ?_⟩)
        have hba : b ≠ a := by
          rintro rfl
          rw [ha] at hb
          cases hb
          exact hr rfl
        rw [Function.update_of_ne hba]
        exact hb
    · refine Or.inr (Or.inr ⟨a, f, ?_⟩)
      rw [hresumes, Function.update_self, hnext]
      rfl

variable [DecidableEq F] [DecidableEq T]

theorem resumeStep (h : Posture s) {a : Option T}
    (hs : Fiber.resumeStep s a = some s') : Posture s' := by
  cases hr : s.resumes a with
  | none => simp [Fiber.resumeStep, hr] at hs
  | some fr =>
    obtain ⟨f, r⟩ := fr
    have hkeep : (s.inbox = s.inbox ∧ s.signalled = s.signalled ∧
        s.kicked = s.kicked) := ⟨rfl, rfl, rfl⟩
    cases r with
    | load =>
      simp only [Fiber.resumeStep, hr] at hs
      split at hs <;> cases hs
      · exact h.moveResume (some .cas) hr (by decide) rfl rfl rfl
          (fun _ hg => hg) (fun _ => rfl) (Or.inl hkeep)
      · exact h.moveResume none hr (by decide) rfl rfl rfl
          (fun _ hg => hg) (fun _ => rfl) (Or.inl hkeep)
      · exact h.moveResume (some .latch) hr (by decide) rfl rfl rfl
          (fun _ hg => hg) (fun _ => rfl) (Or.inl hkeep)
    | cas =>
      simp only [Fiber.resumeStep, hr] at hs
      split at hs <;> cases hs
      · exact h.moveResume (some .push) hr (by decide) rfl rfl rfl
          setState_ne (fun _ => rfl) (Or.inl hkeep)
      · exact h.moveResume (some .load) hr (by decide) rfl rfl rfl
          (fun _ hg => hg) (fun _ => rfl) (Or.inl hkeep)
    | push =>
      cases a with
      | none =>
        simp only [Fiber.resumeStep, hr] at hs
        cases hs
        have hcalls := h.own_resume (by simp [hr])
        refine h.moveResume none hr (by decide) rfl rfl rfl
          (fun _ hg => hg) ?_ (Or.inl hkeep)
        rw [waiting_of_callsFrom hcalls]
        intro hfalse
        cases hfalse
      | some t =>
        simp only [Fiber.resumeStep, hr] at hs
        cases hs
        exact h.moveResume (some .kick) hr (by decide) rfl rfl rfl
          (fun _ hg => hg) (fun _ => rfl) (Or.inr ⟨rfl, rfl⟩)
    | latch =>
      simp only [Fiber.resumeStep, hr] at hs
      cases hs
      exact h.moveResume (some .recheck) hr (by decide) rfl rfl rfl
        (fun _ hg => hg) (fun _ => rfl) (Or.inl hkeep)
    | recheck =>
      simp only [Fiber.resumeStep, hr] at hs
      split at hs <;> cases hs
      · exact h.moveResume (some .load) hr (by decide) rfl rfl rfl
          (fun _ hg => hg) (fun _ => rfl) (Or.inl hkeep)
      · exact h.moveResume none hr (by decide) rfl rfl rfl
          (fun _ hg => hg) (fun _ => rfl) (Or.inl hkeep)
    | kick =>
      simp only [Fiber.resumeStep, hr] at hs
      cases hs
      refine ⟨?_, ?_, h.nothing_ready, h.poll_flag, h.blocked_hears, ?_⟩
      · intro b g q hb
        simp only [State.setResume] at hb
        by_cases hba : b = a
        · rw [hba, Function.update_self] at hb
          cases hb
        · rw [Function.update_of_ne hba] at hb
          exact h.targets b g q hb
      · intro hne
        refine h.own_resume fun hnone => hne ?_
        simp only [State.setResume]
        by_cases hna : none = a
        · rw [← hna, Function.update_self]
        · rw [Function.update_of_ne hna]
          exact hnone
      · intro hw
        refine Or.inr (Or.inl ?_)
        have hflag : s.inPoll = true := h.poll_flag (Or.inr hw)
        change (s.kicked || s.inPoll) = true
        rw [hflag, Bool.or_true]

theorem callStep (h : Posture s) {a : Option T} {f : F} {c : Bool}
    (hs : Fiber.callStep s a f c = some s') : Posture s' := by
  obtain ⟨flag, ha, hf, hcalls, rfl⟩ := callStep_eq hs
  refine ⟨?_, ?_, h.nothing_ready, h.poll_flag, h.blocked_hears, ?_⟩
  · intro b g q hb
    simp only [State.setResume] at hb
    by_cases hba : b = a
    · rw [hba, Function.update_self] at hb
      cases hb
      exact hf
    · rw [Function.update_of_ne hba] at hb
      exact h.targets b g q hb
  · intro hne
    by_cases hna : none = a
    · exact hcalls hna.symm
    · refine h.own_resume fun hnone => hne ?_
      simp only [State.setResume]
      rw [Function.update_of_ne hna]
      exact hnone
  · intro hw
    rcases h.polling_hears hw with hempty | hkicked | ⟨b, g, hb⟩
    · exact Or.inl hempty
    · exact Or.inr (Or.inl hkicked)
    · refine Or.inr (Or.inr ⟨b, g, ?_⟩)
      have hba : b ≠ a := by
        rintro rfl
        rw [ha] at hb
        cases hb
      simp only [State.setResume]
      rw [Function.update_of_ne hba]
      exact hb

theorem step (h : Posture s) {act : Action F T} {e : Option F}
    (hs : Fiber.step act s = some (s', e)) : Posture s' := by
  rcases step_cases hs with ⟨a, f, c, -, hcall, -⟩ | ⟨a, -, hresume, -⟩ |
    ⟨-, -, hown, hchoose⟩
  · exact h.callStep hcall
  · exact h.resumeStep hresume
  · exact h.chooseStep hown hchoose

end Posture

/-- A resume of the fiber may still act on it. -/
def InProgress (s : State F T) (f : F) : Prop :=
  ∃ a r, s.resumes a = some (f, r) ∧ r ≠ .kick

namespace InProgress

variable [DecidableEq T] {s : State F T} {f g : F} {a : Option T}
  {r : ResumePc}

/-- An actor's resume goes on. -/
theorem next (h : InProgress s f) (ha : s.resumes a = some (g, r))
    {q : ResumePc} (hq : q ≠ .kick) :
    InProgress (s.setResume a (some (g, q))) f := by
  obtain ⟨b, p, hb, hp⟩ := h
  by_cases hba : b = a
  · subst hba
    rw [ha] at hb
    cases hb
    exact ⟨b, q, Function.update_self _ _ _, hq⟩
  · exact ⟨b, p, (Function.update_of_ne hba _ _).trans hb, hp⟩

/-- An actor's resume of another fiber, or past its push, does not count. -/
theorem other (h : InProgress s f) (ha : s.resumes a = some (g, r))
    (hne : f = g → r = .kick) (next : Option (F × ResumePc)) :
    InProgress (s.setResume a next) f := by
  obtain ⟨b, p, hb, hp⟩ := h
  refine ⟨b, p, (Function.update_of_ne ?_ _ _).trans hb, hp⟩
  rintro rfl
  rw [ha] at hb
  cases hb
  exact hp (hne rfl)

end InProgress

/-- The fiber need not be resumed again to run. -/
def Woken (s : State F T) (f : F) : Prop :=
  s.state f = some .ready ∨ s.state f = some .done ∨
    s.worker = .on f .settleReady ∨
    (s.pendingWake f = true ∧ Loose (s.state f)) ∨
    (s.state f = some .parked ∧ InProgress s f)

/-- The compare-and-swap to `PARKED` does not pass over a latch that no resume
in progress will look after. -/
def LatchSeen (act : Action F T) (s : State F T) : Prop :=
  act = .work → ∀ f, s.worker = .on f .settleCas → s.pendingWake f = true →
    InProgress s f

namespace Woken

variable {s s' : State F T} {f : F}

theorem of_ready (h : s.state f = some .ready) : Woken s f := Or.inl h

theorem of_done (h : s.state f = some .done) : Woken s f := Or.inr (Or.inl h)

theorem of_settling (h : s.worker = .on f .settleReady) : Woken s f :=
  Or.inr (Or.inr (Or.inl h))

theorem of_latch (h : s.pendingWake f = true) (hst : Loose (s.state f)) :
    Woken s f :=
  Or.inr (Or.inr (Or.inr (Or.inl ⟨h, hst⟩)))

theorem of_progress (h : s.state f = some .parked) (hp : InProgress s f) :
    Woken s f :=
  Or.inr (Or.inr (Or.inr (Or.inr ⟨h, hp⟩)))

/-- A fiber in the middle of its park is woken through the latch only. -/
theorem latched (h : Woken s f) {st : FiberState}
    (hst : s.state f = some st) (hmid : st = .running ∨ st = .parking)
    (hw : s.worker ≠ .on f .settleReady) : s.pendingWake f = true := by
  rcases h with h | h | h | ⟨h, -⟩ | ⟨h, -⟩
  · rw [hst] at h
    rcases hmid with rfl | rfl <;> cases h
  · rw [hst] at h
    rcases hmid with rfl | rfl <;> cases h
  · exact absurd h hw
  · exact h
  · rw [hst] at h
    rcases hmid with rfl | rfl <;> cases h

/-- A step that leaves the fiber's state and what waked it. -/
theorem carry (h : Woken s f) (hstate : s'.state f = s.state f)
    (hpending : s.pendingWake f = true → s'.pendingWake f = true)
    (hw : s.worker = .on f .settleReady → s'.worker = .on f .settleReady)
    (hprogress : s.state f = some .parked → InProgress s f →
      InProgress s' f) : Woken s' f := by
  rcases h with h | h | h | ⟨h, hst⟩ | ⟨h, hp⟩
  · exact of_ready (hstate.trans h)
  · exact of_done (hstate.trans h)
  · exact of_settling (hw h)
  · exact of_latch (hpending h) (hstate ▸ hst)
  · exact of_progress (hstate.trans h) (hprogress h hp)

/-- A step of the worker that does not touch the fiber. -/
theorem frame (h : Woken s f) (hstate : s'.state f = s.state f)
    (hpending : s'.pendingWake f = s.pendingWake f)
    (hr : s'.resumes = s.resumes)
    (hw : s.worker = .on f .settleReady → s'.worker = .on f .settleReady) :
    Woken s' f := by
  refine h.carry hstate (fun hp => hpending.trans hp) hw ?_
  rintro - ⟨a, r, ha, hne⟩
  exact ⟨a, r, hr ▸ ha, hne⟩

end Woken

variable [DecidableEq F]

variable {e : Option F} {p : FiberPc} {act : Action F T}

/-- The worker changes the state and the latch of its own fiber only. -/
theorem workStep_other {s s' : State F T} {f g : F}
    (hw : s.worker = .on g p) (hfg : f ≠ g)
    (hs : workStep s = some (s', e)) :
    s'.state f = s.state f ∧ s'.pendingWake f = s.pendingWake f ∧
      s'.resumes = s.resumes := by
  cases p with
  | body => simp [workStep, hw] at hs
  | parkExchange =>
    simp only [workStep, hw] at hs
    split at hs <;> cases hs <;>
      exact ⟨rfl, Function.update_of_ne hfg _ _, rfl⟩
  | settleExchange =>
    simp only [workStep, hw] at hs
    cases hs
    exact ⟨rfl, Function.update_of_ne hfg _ _, rfl⟩
  | settleCas =>
    simp only [workStep, hw] at hs
    split at hs <;> cases hs
    · exact ⟨Function.update_of_ne hfg _ _, rfl, rfl⟩
    · exact ⟨rfl, rfl, rfl⟩
  | settlePush =>
    simp only [workStep, hw] at hs
    cases hs
    exact ⟨rfl, rfl, rfl⟩
  | _ =>
    simp only [workStep, hw] at hs
    cases hs
    exact ⟨Function.update_of_ne hfg _ _, rfl, rfl⟩

theorem workStep_resumes {s s' : State F T} {f : F}
    (hw : s.worker = .on f p)
    (hs : workStep s = some (s', e)) : s'.resumes = s.resumes := by
  cases p with
  | body => simp [workStep, hw] at hs
  | parkExchange =>
    simp only [workStep, hw] at hs
    split at hs <;> cases hs <;> rfl
  | settleCas =>
    simp only [workStep, hw] at hs
    split at hs <;> cases hs <;> rfl
  | _ =>
    simp only [workStep, hw] at hs
    cases hs
    rfl

/-- Between two fibers the worker changes no state and no latch. -/
theorem workStep_sched {s s' : State F T} {p : SchedPc F}
    (hw : s.worker = .sched p) (hs : workStep s = some (s', e)) :
    s'.state = s.state ∧ s'.pendingWake = s.pendingWake ∧
      s'.resumes = s.resumes := by
  cases p with
  | moving c =>
    cases c <;> simp only [workStep, hw] at hs <;> cases hs <;>
      exact ⟨rfl, rfl, rfl⟩
  | pollCheck =>
    simp only [workStep, hw] at hs
    cases hs
    exact ⟨rfl, rfl, rfl⟩
  | pollLower =>
    simp only [workStep, hw] at hs
    cases hs
    exact ⟨rfl, rfl, rfl⟩
  | _ => simp [workStep, hw] at hs

namespace Woken

variable {s s' : State F T} {f : F}

theorem workStep (h : Woken s f) (hplaced : Placed s) {e : Option F}
    (hlatch : s.worker = .on f .settleCas → s.pendingWake f = true →
      InProgress s f)
    (hs : Fiber.workStep s = some (s', e)) : Woken s' f ∨ e = some f := by
  obtain ⟨R, I, C, -, hc⟩ := hplaced
  cases hw : s.worker with
  | sched p =>
    obtain ⟨hstate, hpending, hr⟩ := workStep_sched hw hs
    refine Or.inl (h.frame (by rw [hstate]) (by rw [hpending]) hr ?_)
    rw [hw]
    intro heq
    cases heq
  | on g p =>
    by_cases hfg : f = g
    · subst hfg
      have hst := hc.on_state f p hw
      cases p with
      | start =>
        simp only [Fiber.workStep, hw] at hs
        cases hs
        exact Or.inr rfl
      | body => simp [Fiber.workStep, hw] at hs
      | parkExchange =>
        have hlatched := h.latched hst (Or.inl rfl) (by rw [hw]; intro heq; cases heq)
        simp only [Fiber.workStep, hw, hlatched] at hs
        cases hs
        exact Or.inr rfl
      | parkStore =>
        have hlatched := h.latched hst (Or.inl rfl) (by rw [hw]; intro heq; cases heq)
        simp only [Fiber.workStep, hw] at hs
        cases hs
        refine Or.inl (of_latch hlatched ?_)
        simp [State.setState, State.goto, Loose]
      | yieldStore =>
        simp only [Fiber.workStep, hw] at hs
        cases hs
        exact Or.inl (of_settling rfl)
      | settleExchange =>
        have hlatched := h.latched hst (Or.inr rfl) (by rw [hw]; intro heq; cases heq)
        simp only [Fiber.workStep, hw, hlatched] at hs
        cases hs
        exact Or.inl (of_settling rfl)
      | settleCas =>
        have hlatched := h.latched hst (Or.inr rfl) (by rw [hw]; intro heq; cases heq)
        have hprogress := hlatch hw hlatched
        simp only [Fiber.workStep, hw] at hs
        rw [if_pos (show s.state f = some .parking from hst)] at hs
        cases hs
        refine Or.inl (of_progress ?_ hprogress)
        simp [State.setState, State.goto]
      | settleReady =>
        simp only [Fiber.workStep, hw] at hs
        cases hs
        refine Or.inl (of_ready ?_)
        simp [State.setState, State.goto]
      | settlePush =>
        simp only [Fiber.workStep, hw] at hs
        cases hs
        exact Or.inl (of_ready hst)
      | settleDone =>
        simp only [Fiber.workStep, hw] at hs
        cases hs
        refine Or.inl (of_done ?_)
        simp [State.setState, State.goto]
    · obtain ⟨hstate, hpending, hr⟩ := workStep_other hw hfg hs
      refine Or.inl (h.frame hstate hpending hr ?_)
      rw [hw]
      intro heq
      cases heq
      exact absurd rfl hfg

theorem chooseStep (h : Woken s f) (hplaced : Placed s)
    {act : Action F T} {e : Option F} (hlatch : LatchSeen act s)
    (hs : Fiber.chooseStep s act = some (s', e)) :
    Woken s' f ∨ e = some f := by
  cases act with
  | work => exact h.workStep hplaced (hlatch rfl f) hs
  | spawn g =>
    simp only [Fiber.chooseStep] at hs
    split at hs <;> cases hs
    left
    by_cases hfg : f = g
    · subst hfg
      refine of_ready ?_
      simp [State.setState, State.readyPush]
    · exact h.frame (Function.update_of_ne hfg _ _) rfl rfl id
  | mask masked =>
    simp only [Fiber.chooseStep] at hs
    split at hs <;> cases hs
    exact Or.inl (h.frame rfl rfl rfl id)
  | park =>
    simp only [Fiber.chooseStep] at hs
    split at hs
    · rename_i g hw
      split at hs <;> cases hs
      · exact Or.inl h
      · exact Or.inl (h.frame rfl rfl rfl (by rw [hw]; intro heq; cases heq))
    · cases hs
  | yield =>
    simp only [Fiber.chooseStep] at hs
    split at hs
    · rename_i g hw
      split at hs <;> cases hs
      · exact Or.inl h
      · exact Or.inl (h.frame rfl rfl rfl (by rw [hw]; intro heq; cases heq))
    · cases hs
  | finish =>
    simp only [Fiber.chooseStep] at hs
    split at hs <;> cases hs
    rename_i g hw
    left
    by_cases hfg : f = g
    · subst hfg
      obtain ⟨R, I, C, -, hc⟩ := hplaced
      have hlatched := h.latched (hc.on_state f _ hw) (Or.inl rfl)
        (by rw [hw]; intro heq; cases heq)
      refine of_latch hlatched ?_
      simp [State.setState, State.goto, Loose]
    · exact h.frame (Function.update_of_ne hfg _ _) rfl rfl
        (by rw [hw]; intro heq; cases heq)
  | drain =>
    simp only [Fiber.chooseStep] at hs
    split at hs <;> cases hs
    rename_i hw
    exact Or.inl (h.frame rfl rfl rfl
      (by rcases hw with hw | hw <;> rw [hw] <;> intro heq <;> cases heq))
  | drainBlock =>
    simp only [Fiber.chooseStep] at hs
    split at hs
    · rename_i hw
      split at hs <;> cases hs <;>
        exact Or.inl (h.frame rfl rfl rfl (by rw [hw]; intro heq; cases heq))
    · cases hs
  | pop =>
    simp only [Fiber.chooseStep] at hs
    split at hs
    · rename_i hw
      split at hs <;> cases hs <;>
        exact Or.inl (h.frame rfl rfl rfl (by rw [hw]; intro heq; cases heq))
    · cases hs
  | call a g c => simp [Fiber.chooseStep] at hs
  | resume a => simp [Fiber.chooseStep] at hs
  | _ =>
    simp only [Fiber.chooseStep] at hs
    split at hs <;> cases hs
    rename_i hw
    exact Or.inl (h.frame rfl rfl rfl (by rw [hw]; intro heq; cases heq))

end Woken

namespace Woken

variable [DecidableEq T] {s s' : State F T} {f : F}

theorem resumeStep (h : Woken s f) (hplaced : Placed s) {a : Option T}
    (hs : Fiber.resumeStep s a = some s') : Woken s' f := by
  obtain ⟨R, I, C, -, hc⟩ := hplaced
  cases hr : s.resumes a with
  | none => simp [Fiber.resumeStep, hr] at hs
  | some gr =>
    obtain ⟨g, r⟩ := gr
    cases r with
    | load =>
      simp only [Fiber.resumeStep, hr] at hs
      split at hs <;> cases hs
      · exact h.carry rfl id id fun _ hp => hp.next hr (by decide)
      · rename_i hdone
        refine h.carry rfl id id fun hparked hp => hp.other hr ?_ _
        rintro rfl
        rw [hdone] at hparked
        cases hparked
      · exact h.carry rfl id id fun _ hp => hp.next hr (by decide)
    | cas =>
      simp only [Fiber.resumeStep, hr] at hs
      split at hs <;> cases hs
      · by_cases hfg : f = g
        · subst hfg
          exact of_ready (Function.update_self _ _ _)
        · exact h.carry (Function.update_of_ne hfg _ _) id id
            fun _ hp => InProgress.other (s := s.setState g .ready)
              hp hr (fun heq => absurd heq hfg) _
      · exact h.carry rfl id id fun _ hp => hp.next hr (by decide)
    | push =>
      have hready := hc.push_state a g hr
      have hne : s.state f = some .parked → f = g → .push = ResumePc.kick := by
        rintro hparked rfl
        rw [hready] at hparked
        cases hparked
      cases a with
      | none =>
        simp only [Fiber.resumeStep, hr] at hs
        cases hs
        exact h.carry rfl id id fun hparked hp =>
          InProgress.other (s := s.readyPush g) hp hr (hne hparked) _
      | some t =>
        simp only [Fiber.resumeStep, hr] at hs
        cases hs
        exact h.carry rfl id id fun hparked hp =>
          InProgress.other (s := s.inboxPost g) hp hr (hne hparked) _
    | latch =>
      simp only [Fiber.resumeStep, hr] at hs
      cases hs
      refine h.carry rfl ?_ id fun _ hp =>
        InProgress.next (s := s.setPending g true) hp hr (by decide)
      intro hpending
      by_cases hfg : f = g
      · subst hfg
        exact Function.update_self _ _ _
      · exact (Function.update_of_ne hfg _ _).trans hpending
    | recheck =>
      simp only [Fiber.resumeStep, hr] at hs
      split at hs <;> cases hs
      · exact h.carry rfl id id fun _ hp => hp.next hr (by decide)
      · rename_i hnot
        refine h.carry rfl id id fun hparked hp => hp.other hr ?_ _
        rintro rfl
        exact absurd hparked hnot
    | kick =>
      simp only [Fiber.resumeStep, hr] at hs
      cases hs
      exact h.carry rfl id id fun _ hp =>
        InProgress.other (s := { s with kicked := _ }) hp hr
          (fun _ => rfl) _

omit [DecidableEq F] in
theorem notLast {a : Option T} {next : Option (F × ResumePc)} {r : ResumePc}
    (hr : (s.setResume a next).resumes a = some (f, r))
    (hnext : ∀ q, next.map Prod.snd = some q →
      ¬ (q = .recheck ∨ q = .kick)) : ¬ (r = .recheck ∨ r = .kick) := by
  have hself : next = some (f, r) := (Function.update_self a _ _).symm.trans hr
  exact hnext r (by rw [hself]; rfl)

/-- The latch, and a push, wake the fiber whatever it does. -/
theorem of_resumeStep (hplaced : Placed s) (hposture : Posture s)
    {a : Option T} {r : ResumePc} (hs : Fiber.resumeStep s a = some s')
    (hr' : s'.resumes a = some (f, r)) (hr : r = .recheck ∨ r = .kick) :
    Woken s' f := by
  obtain ⟨R, I, C, -, hc⟩ := hplaced
  cases ha : s.resumes a with
  | none => simp [Fiber.resumeStep, ha] at hs
  | some gq =>
    obtain ⟨g, q⟩ := gq
    cases q with
    | load =>
      simp only [Fiber.resumeStep, ha] at hs
      split at hs <;> cases hs <;>
        exact absurd hr (notLast hr' (by simp))
    | cas =>
      simp only [Fiber.resumeStep, ha] at hs
      split at hs <;> cases hs <;>
        exact absurd hr (notLast hr' (by simp))
    | push =>
      have hready := hc.push_state a g ha
      cases a with
      | none =>
        simp only [Fiber.resumeStep, ha] at hs
        cases hs
        simp [State.setResume] at hr'
      | some t =>
        simp only [Fiber.resumeStep, ha] at hs
        cases hs
        simp [State.setResume] at hr'
        obtain ⟨rfl, rfl⟩ := hr'
        exact of_ready hready
    | latch =>
      simp only [Fiber.resumeStep, ha] at hs
      cases hs
      have hgf : g = f ∧ ResumePc.recheck = r := by
        simpa [State.setResume] using hr'
      obtain ⟨rfl, -⟩ := hgf
      have hpending : Function.update s.pendingWake g true g = true :=
        Function.update_self _ _ _
      cases hst : s.state g with
      | none => exact absurd hst (hposture.targets a g _ ha)
      | some st =>
        cases st with
        | parked =>
          exact of_progress hst
            ⟨a, .recheck, Function.update_self _ _ _, by decide⟩
        | done => exact of_done hst
        | running => exact of_latch hpending (Or.inr (Or.inl hst))
        | ready => exact of_ready hst
        | parking => exact of_latch hpending (Or.inr (Or.inr hst))
    | recheck =>
      simp only [Fiber.resumeStep, ha] at hs
      split at hs <;> cases hs <;>
        exact absurd hr (notLast hr' (by simp))
    | kick =>
      simp only [Fiber.resumeStep, ha] at hs
      cases hs
      simp [State.setResume] at hr'

/-- A resume that returns leaves its fiber awake. -/
theorem of_return (hplaced : Placed s) {a : Option T} {r : ResumePc}
    (hs : Fiber.resumeStep s a = some s') (ha : s.resumes a = some (f, r))
    (ha' : s'.resumes a = none)
    (hlast : r = .recheck ∨ r = .kick → Woken s f) : Woken s' f := by
  cases r with
  | load =>
    simp only [Fiber.resumeStep, ha] at hs
    split at hs <;> cases hs
    · simp [State.setResume] at ha'
    · exact of_done ‹_›
    · simp [State.setResume] at ha'
  | cas =>
    simp only [Fiber.resumeStep, ha] at hs
    split at hs <;> cases hs <;> simp [State.setResume] at ha'
  | push =>
    obtain ⟨R, I, C, -, hc⟩ := hplaced
    have hready := hc.push_state a f ha
    cases a with
    | none =>
      simp only [Fiber.resumeStep, ha] at hs
      cases hs
      exact of_ready hready
    | some t =>
      simp only [Fiber.resumeStep, ha] at hs
      cases hs
      simp [State.setResume] at ha'
  | latch =>
    simp only [Fiber.resumeStep, ha] at hs
    cases hs
    simp [State.setResume] at ha'
  | recheck => exact (hlast (Or.inl rfl)).resumeStep hplaced hs
  | kick => exact (hlast (Or.inr rfl)).resumeStep hplaced hs

theorem callStep (h : Woken s f) {a : Option T} {g : F} {c : Bool}
    (hs : Fiber.callStep s a g c = some s') : Woken s' f := by
  obtain ⟨flag, ha, -, -, rfl⟩ := callStep_eq hs
  refine h.carry rfl id id ?_
  rintro - ⟨b, r, hb, hr⟩
  refine ⟨b, r, (Function.update_of_ne ?_ _ _).trans hb, hr⟩
  rintro rfl
  rw [ha] at hb
  cases hb

end Woken

/-- Placement, posture, and a fiber awake for every resume that is owed. -/
structure Kept (x : Tracked F T) : Prop where
  placed : Placed x.1
  posture : Posture x.1
  owed : ∀ f, x.2.owed f = true → Woken x.1 f
  last : ∀ a f r, x.1.resumes a = some (f, r) → r = .recheck ∨ r = .kick →
    x.2.fresh a = true → Woken x.1 f

/-- The worker's own steps leave the resumes alone. -/
theorem chooseStep_resumes {s s' : State F T}
    (hs : chooseStep s act = some (s', e)) :
    s'.resumes = s.resumes := by
  cases act with
  | work =>
    cases hw : s.worker with
    | sched p => exact (workStep_sched hw hs).2.2
    | on f p => exact workStep_resumes hw hs
  | call a g c => simp [chooseStep] at hs
  | resume a => simp [chooseStep] at hs
  | _ =>
    simp only [chooseStep] at hs
    split at hs <;> (try split at hs) <;> cases hs <;> rfl

/-- A step of the worker is history only for the fiber that runs. -/
theorem History.after_choose [DecidableEq T] {s s' : State F T}
    {k : History F T}
    (hcall : ∀ a f c, act ≠ .call a f c) (hres : ∀ a, act ≠ .resume a) :
    k.after act s s' e = e.elim k (k.ran s) := by
  cases act with
  | call a f c => exact absurd rfl (hcall a f c)
  | resume a => exact absurd rfl (hres a)
  | _ => cases e <;> rfl

/-- An actor's step leaves the other actors' resumes alone. -/
theorem resumeStep_other [DecidableEq T] {s s' : State F T}
    {a b : Option T} (hs : resumeStep s a = some s') (hba : b ≠ a) :
    s'.resumes b = s.resumes b := by
  cases hr : s.resumes a with
  | none => simp [resumeStep, hr] at hs
  | some gr =>
    obtain ⟨g, r⟩ := gr
    cases r with
    | push =>
      cases a <;> simp only [resumeStep, hr] at hs <;> cases hs <;>
        exact Function.update_of_ne hba _ _
    | _ =>
      simp only [resumeStep, hr] at hs
      (try split at hs) <;> cases hs <;>
        exact Function.update_of_ne hba _ _

namespace Kept

variable {x x' : Tracked F T}

theorem init (hx : trackedInit x) : Kept x := by
  obtain ⟨s, h⟩ := x
  obtain ⟨rfl, rfl | ⟨root, rfl⟩⟩ := hx
  · exact ⟨.initial, ⟨nofun, nofun, nofun, nofun, nofun, nofun⟩, nofun, nofun⟩
  · refine ⟨.bootstrapped root, ⟨nofun, nofun, nofun, nofun, nofun, nofun⟩,
      nofun, nofun⟩

/-- A call begins. -/
theorem call [DecidableEq T] {s s' : State F T} {k : History F T}
    (h : Kept (s, k)) {a : Option T} {g : F} {c : Bool}
    (hplaced : Placed s') (hposture : Posture s')
    (hs : Fiber.callStep s a g c = some s') :
    Kept (s', k.after (.call a g c) s s' none) := by
  refine ⟨hplaced, hposture, fun f hf => (h.owed f hf).callStep hs, ?_⟩
  intro b f r hb hr hfresh
  obtain ⟨flag, ha, -, -, rfl⟩ := callStep_eq hs
  by_cases hba : b = a
  · subst hba
    have hself : some (g, ResumePc.load) = some (f, r) :=
      (Function.update_self b _ _).symm.trans hb
    cases hself
    rcases hr with hr | hr <;> cases hr
  · have hb' : s.resumes b = some (f, r) :=
      (Function.update_of_ne hba _ _).symm.trans hb
    have hfresh' : k.fresh b = true :=
      (Function.update_of_ne hba _ _).symm.trans hfresh
    exact (h.last b f r hb' hr hfresh').callStep hs

/-- A resume's next operation. -/
theorem resume [DecidableEq T] {s s' : State F T} {k : History F T}
    (h : Kept (s, k)) {a : Option T} (hplaced : Placed s')
    (hposture : Posture s') (hs : Fiber.resumeStep s a = some s') :
    Kept (s', k.after (.resume a) s s' none) := by
  have hlast : ∀ b f r, s'.resumes b = some (f, r) →
      r = .recheck ∨ r = .kick → k.fresh b = true → Woken s' f := by
    intro b f r hb hr hfresh
    by_cases hba : b = a
    · subst hba
      exact Woken.of_resumeStep h.placed h.posture hs hb hr
    · rw [resumeStep_other hs hba] at hb
      exact (h.last b f r hb hr hfresh).resumeStep h.placed hs
  have howed : ∀ f, k.owed f = true → Woken s' f := fun f hf =>
    (h.owed f hf).resumeStep h.placed hs
  cases hr : s.resumes a with
  | none => simp [Fiber.resumeStep, hr] at hs
  | some gr =>
    obtain ⟨g, r⟩ := gr
    cases hr' : s'.resumes a with
    | some next =>
      refine ⟨hplaced, hposture, ?_, ?_⟩ <;>
        simp only [History.after, hr, hr']
      · exact howed
      · exact hlast
    | none =>
      refine ⟨hplaced, hposture, ?_, ?_⟩ <;>
        simp only [History.after, hr, hr']
      · intro f hf
        by_cases hfg : f = g
        · subst hfg
          rw [Function.update_self, Bool.or_eq_true] at hf
          rcases hf with hf | hf
          · exact howed f hf
          · exact Woken.of_return h.placed hs hr hr' fun hr'' =>
              h.last a f r hr hr'' hf
        · rw [Function.update_of_ne hfg] at hf
          exact howed f hf
      · exact hlast

/-- A step of the worker. -/
theorem choose [DecidableEq T] {s s' : State F T} {k : History F T} (h : Kept (s, k))
    {act : Action F T} {e : Option F} (hcall : ∀ a f c, act ≠ .call a f c)
    (hres : ∀ a, act ≠ .resume a) (hplaced : Placed s')
    (hposture : Posture s') (hlatch : LatchSeen act s)
    (hs : Fiber.chooseStep s act = some (s', e)) :
    Kept (s', k.after act s s' e) := by
  have hr := chooseStep_resumes hs
  have hwoken : ∀ f, Woken s f → Woken s' f ∨ e = some f := fun f hf =>
    hf.chooseStep h.placed hlatch hs
  rw [History.after_choose hcall hres]
  cases e with
  | none =>
    refine ⟨hplaced, hposture, ?_, ?_⟩
    · intro f hf
      exact (hwoken f (h.owed f hf)).resolve_right (by simp)
    · intro a f r ha hpc hfresh
      rw [hr] at ha
      exact (hwoken f (h.last a f r ha hpc hfresh)).resolve_right (by simp)
  | some g =>
    refine ⟨hplaced, hposture, ?_, ?_⟩
    · intro f hf
      by_cases hfg : f = g
      · subst hfg
        have hself : false = true :=
          (Function.update_self f _ _).symm.trans hf
        cases hself
      · have hf' : k.owed f = true :=
          (Function.update_of_ne hfg _ _).symm.trans hf
        refine (hwoken f (h.owed f hf')).resolve_right fun heq => hfg ?_
        exact (Option.some_inj.mp heq).symm
    · intro a f r ha hpc hfresh
      rw [hr] at ha
      simp only [Option.elim_some, History.ran, ha, Option.map_some, Bool.and_eq_true,
        bne_iff_ne, ne_eq, Option.some.injEq] at hfresh
      refine (hwoken f (h.last a f r ha hpc hfresh.1)).resolve_right ?_
      exact fun heq => hfresh.2 (Option.some_inj.mp heq).symm

theorem step [DecidableEq T] (h : Kept x) {act : Action F T}
    (hlatch : LatchSeen act x.1) (hs : trackedStep act x = some x') :
    Kept x' := by
  obtain ⟨s, k⟩ := x
  simp only [trackedStep, Option.map_eq_some_iff] at hs
  obtain ⟨⟨s', e⟩, hs, rfl⟩ := hs
  have hplaced := h.placed.step hs
  have hposture := h.posture.step hs
  rcases step_cases hs with ⟨a, g, c, rfl, hcall, rfl⟩ |
    ⟨a, rfl, hresume, rfl⟩ | ⟨hcall, hres, -, hchoose⟩
  · exact h.call hplaced hposture hcall
  · exact h.resume hplaced hposture hresume
  · exact h.choose hcall hres hplaced hposture hlatch hchoose

end Kept

/-- A fiber is linked at most once, in at most one queue, and is not run while
it is linked. -/
def QueueSafe (s : State F T) : Prop :=
  ∃ R I C, Queues s.queueNext s.ready s.inbox (taken s.worker) R I C ∧
    ∀ f p, s.worker = .on f p → f ∉ R ++ I ++ C

/-- Where a resumed fiber can be that has not run yet. -/
inductive OnItsWay (s : State F T) (Q : F → Prop) (f : F) : Prop
  | finished (h : s.state f = some .done)
  | queued (h : Q f)
  | carried (p : FiberPc) (h : s.worker = .on f p)
      (hp : p = .start ∨ p = .settlePush ∨ p = .settleReady)
  | latched (p : FiberPc) (h : s.worker = .on f p)
      (hp : s.pendingWake f = true)
  | pushed (a : Option T) (h : s.resumes a = some (f, .push))
  | resumed (h : s.state f = some .parked) (hp : InProgress s f)

/-- The worker waits for a signal or a kick that nobody has sent. -/
def Asleep (s : State F T) : Prop :=
  (s.worker = .sched .blocked ∧ s.signalled = false) ∨
    (s.worker = .sched .polling ∧ s.kicked = false)

/-- A fiber to which a returned resume is owed is on its way; it is not parked
with nobody to resume it, and the worker does not sleep on it. -/
structure WakeSafe (x : Tracked F T) : Prop where
  on_its_way : ∃ R I C,
    Queues x.1.queueNext x.1.ready x.1.inbox (taken x.1.worker) R I C ∧
      ∀ f, x.2.owed f = true → OnItsWay x.1 (· ∈ R ++ I ++ C) f
  not_stranded : ∀ f, (∀ a, x.1.resumes a = none) →
    x.1.state f = some .parked → x.2.owed f = false
  not_asleep : ∀ f, (∀ a, x.1.resumes a = none) → Asleep x.1 →
    x.2.owed f = true → x.1.state f = some .done

omit [DecidableEq F] in
theorem Control.onItsWay {s : State F T} {Q : F → Prop} (hc : Control s Q)
    {f : F} (h : Woken s f) : OnItsWay s Q f := by
  have hready : s.state f = some .ready → OnItsWay s Q f := by
    intro hst
    rcases hc.located f (Or.inl hst) with hq | ⟨p, hw⟩ | ⟨a, ha⟩
    · exact .queued hq
    · have hphase := hc.on_state f p hw
      rw [hst] at hphase
      refine .carried p hw ?_
      cases p <;> simp [phase] at hphase ⊢
    · exact .pushed a ha
  rcases h with h | h | h | ⟨h, hst⟩ | ⟨h, hp⟩
  · exact hready h
  · exact .finished h
  · exact .carried .settleReady h (Or.inr (Or.inr rfl))
  · rcases hc.located f hst with hq | ⟨p, hw⟩ | ⟨a, ha⟩
    · exact .queued hq
    · exact .latched p hw h
    · exact .pushed a ha
  · exact .resumed h hp

omit [DecidableEq F] in
/-- An awake fiber keeps the worker from sleeping. -/
theorem Kept.not_asleep {x : Tracked F T} (h : Kept x) {f : F}
    (hquiet : ∀ a, x.1.resumes a = none) (hasleep : Asleep x.1)
    (howed : x.2.owed f = true) : x.1.state f = some .done := by
  obtain ⟨R, I, C, hq, hc⟩ := h.placed
  have hposture := h.posture
  have hsched : ∃ p, x.1.worker = .sched p ∧ taken (.sched p) = none ∧
      waiting (.sched p) = true ∧ x.1.inbox.head = none := by
    rcases hasleep with ⟨hw, hsig⟩ | ⟨hw, hkick⟩
    · refine ⟨.blocked, hw, rfl, rfl, ?_⟩
      rcases hposture.blocked_hears hw with hempty | hsig'
      · exact hempty
      · rw [hsig] at hsig'
        cases hsig'
    · refine ⟨.polling, hw, rfl, rfl, ?_⟩
      rcases hposture.polling_hears hw with hempty | hkick' | ⟨a, g, ha⟩
      · exact hempty
      · rw [hkick] at hkick'
        cases hkick'
      · rw [hquiet a] at ha
        cases ha
  obtain ⟨p, hw, htaken, hwait, hinbox⟩ := hsched
  have hready := hposture.nothing_ready (by rw [hw]; exact hwait)
  rw [hw, htaken] at hq
  have hR : R = [] := by
    rw [hq.ready.head_eq] at hready
    exact List.head?_eq_none_iff.mp hready
  have hI : I = [] := by
    rw [hq.inbox.head_eq] at hinbox
    exact List.head?_eq_none_iff.mp hinbox
  have hC : C = [] := hq.chain_none
  subst hR hI hC
  cases hc.onItsWay (h.owed f howed) with
  | finished hdone => exact hdone
  | queued hmem => cases hmem
  | carried q hon _ =>
    rw [hw] at hon
    cases hon
  | latched q hon _ =>
    rw [hw] at hon
    cases hon
  | pushed a ha =>
    rw [hquiet a] at ha
    cases ha
  | resumed _ hp =>
    obtain ⟨a, r, ha, -⟩ := hp
    rw [hquiet a] at ha
    cases ha

omit [DecidableEq F] in
theorem Kept.wakeSafe {x : Tracked F T} (h : Kept x) : WakeSafe x := by
  refine ⟨?_, ?_, fun f => h.not_asleep⟩
  · obtain ⟨R, I, C, hq, hc⟩ := h.placed
    exact ⟨R, I, C, hq, fun f hf => hc.onItsWay (h.owed f hf)⟩
  · intro f hquiet hparked
    by_contra howed
    rcases h.owed f (Bool.not_eq_false _ ▸ howed) with hf | hf | hf | ⟨-, hf⟩ |
      ⟨-, a, r, ha, -⟩
    · rw [hparked] at hf
      cases hf
    · rw [hparked] at hf
      cases hf
    · obtain ⟨R, I, C, -, hc⟩ := h.placed
      have hphase := hc.on_state f _ hf
      rw [hparked] at hphase
      cases hphase
    · rw [hparked] at hf
      rcases hf with hf | hf | hf <;> cases hf
    · rw [hquiet a] at ha
      cases ha

variable [DecidableEq T]

/-- On every run the queues are safe.  On the runs whose every step to `PARKED`
finds the latch empty or a resume still in progress, no wake is lost. -/
theorem parkResume_keepsWakes :
    (∀ x : Tracked F T, Reachable trackedStep trackedInit anyStep x →
      QueueSafe x.1) ∧
    (∀ x : Tracked F T,
      Reachable trackedStep trackedInit (fun act y => LatchSeen act y.1) x →
        WakeSafe x) := by
  constructor
  · intro x hx
    have hplaced : Placed x.1 := by
      refine hx.invariant (P := fun y => Placed y.1) ?_ ?_
      · exact fun y hy => (Kept.init hy).placed
      · intro y act y' hy _ hs
        simp only [trackedStep, Option.map_eq_some_iff] at hs
        obtain ⟨r, hr, rfl⟩ := hs
        exact hy.step hr
    obtain ⟨R, I, C, hq, hc⟩ := hplaced
    exact ⟨R, I, C, hq, hc.on_free⟩
  · intro x hx
    have hkept : Kept x := by
      refine hx.invariant (fun y => Kept.init) ?_
      exact fun y act y' hy hlatch hs => hy.step hlatch hs
    exact hkept.wakeSafe

/-- Where the compare-and-swap finds the latch set, the resume of the other thread is
there to look after it. -/
def latchChecked (act : Action Unit Unit) (x : Tracked Unit Unit) : Bool :=
  match act, x.1.worker with
  | .work, .on _ .settleCas =>
    !x.1.pendingWake () || (x.1.resumes (some ())).any fun resume => resume.2 ≠ .kick
  | _, _ => true

theorem latchSeen_of_checked (act : Action Unit Unit) (x : Tracked Unit Unit)
    (h : latchChecked act x = true) : LatchSeen act x.1 := by
  rintro rfl ⟨⟩ hworker hpending
  simp only [latchChecked, hworker, hpending, Bool.not_true, Bool.false_or] at h
  obtain ⟨⟨_, r⟩, hresume, hr⟩ := (Option.any_eq_true _ _).mp h
  exact ⟨some (), r, hresume, of_decide_eq_true hr⟩

/-- One fiber parks.  A resume stores the latch just before the worker's
compare-and-swap, which passes over it; the resume looks again, finds the fiber parked
and posts it. -/
def latchedRun : List (Action Unit Unit) :=
  [.spawn (), .drain, .work, .pop, .work, .park, .work, .work, .work,
    .call (some ()) () false, .resume (some ()), .resume (some ()), .work,
    .resume (some ()), .resume (some ()), .resume (some ()), .resume (some ()),
    .resume (some ())]

/-- The resume has returned; its wake is owed, and the fiber stands in the inbox. -/
theorem parkResume_keepsWakes_latched :
    ∃ x : Tracked Unit Unit,
      StepSystem.run trackedStep latchedRun (State.initial, History.initial) = some x ∧
      QueueSafe x.1 ∧ WakeSafe x ∧ x.1.resumes (some ()) = none ∧
      x.1.state () = some .ready ∧ x.2.owed () = true ∧ x.1.inbox.head = some () := by
  have hstart : Reachable (trackedStep (F := Unit) (T := Unit)) trackedInit
      (fun act y => LatchSeen act y.1) (State.initial, History.initial) :=
    .start ⟨rfl, Or.inl rfl⟩
  have hrun : ∃ x, StepSystem.run (checkedStep trackedStep latchChecked) latchedRun
        (State.initial, History.initial) = some x ∧
      StepSystem.run trackedStep latchedRun (State.initial, History.initial) = some x ∧
      x.1.resumes (some ()) = none ∧ x.1.state () = some .ready ∧ x.2.owed () = true ∧
      x.1.inbox.head = some () :=
    ⟨_, rfl, rfl, rfl, rfl, rfl, rfl⟩
  obtain ⟨x, hchecked, hx, hdone⟩ := hrun
  have hreach := hstart.runChecked latchSeen_of_checked latchedRun hchecked
  exact ⟨x, hx, parkResume_keepsWakes.1 x (hreach.mono fun _ _ _ => trivial),
    parkResume_keepsWakes.2 x hreach, hdone⟩

/-- One fiber parks; a resume that begins between the consumed latch and the
compare-and-swap stores the latch, reads `PARKING` and returns. -/
def lostWakeRun : List (Action Unit Unit) :=
  [.spawn (), .drain, .work, .pop, .work, .park, .work, .work, .work,
    .call (some ()) () false, .resume (some ()), .resume (some ()),
    .resume (some ()), .work]

/-- The resume has returned, and the fiber is parked in no queue. -/
theorem parkResume_losesWake :
    ∃ x : Tracked Unit Unit, Reachable trackedStep trackedInit anyStep x ∧
      (∀ a, x.1.resumes a = none) ∧ x.1.state () = some .parked ∧
      x.2.owed () = true ∧ x.1.ready = Line.empty ∧
      x.1.inbox = Line.empty ∧ x.1.worker = .sched .loop := by
  have hstart : Reachable (trackedStep (F := Unit) (T := Unit)) trackedInit
      anyStep (State.initial, History.initial) := .start ⟨rfl, Or.inl rfl⟩
  have hrun : ∃ x, StepSystem.run trackedStep lostWakeRun
      (State.initial, History.initial) = some x ∧
      x.1.resumes none = none ∧ x.1.resumes (some ()) = none ∧
      x.1.state () = some .parked ∧ x.2.owed () = true ∧
      x.1.ready = Line.empty ∧ x.1.inbox = Line.empty ∧
      x.1.worker = .sched .loop := ⟨_, rfl, rfl, rfl, rfl, rfl, rfl, rfl, rfl⟩
  obtain ⟨x, hx, hnone, hsome, hrest⟩ := hrun
  refine ⟨x, Reachable.run lostWakeRun hstart hx, ?_, hrest⟩
  rintro (_ | ⟨⟩)
  · exact hnone
  · exact hsome

end Fiber
end Beans
