import Beans.Fiber.StepFacts
import Beans.Fiber.ThreadJoin

/-!
# A join is not stranded

While a fiber is in the loop of `thread_join_park` the handle's `join_waiter`
names it until the finishing thread takes it; a fiber that parks after it read
`done` as unset is therefore resumed, and that resume is owed to it until it
runs again.  The invariant says this for every place the fiber and the
finishing thread can stand at.
-/

namespace Beans
namespace Fiber

open StepSystem IntrusiveQueue

variable {W F T : Type*}

/-- In the loop, with `join_waiter` written and not yet cleared. -/
def looping : JoinPc → Bool
  | .loadDone => true
  | .park => true
  | .parked => true
  | .outcome => true
  | .recheck => true
  | .clear => true
  | _ => false

/-- The fiber's own code runs. -/
def ownCode : JoinPc → Bool
  | .outside => false
  | .parked => false
  | _ => true

/-- Why a fiber that read `done` as unset will not stay parked. -/
def WakeComes (fin : T) (s : JoinState W F T) (p : W × F) : Prop :=
  match s.finisher with
  | .body => True
  | .exchange => True
  | .call q => q = p
  | .resume q => q = p ∧ (s.worlds p.1).2.fresh (some fin) = true
  | .finished => (s.worlds p.1).2.owed p.2 = true

theorem WakeComes.of_body {fin : T} {s : JoinState W F T}
    (h : s.finisher = .body) (p : W × F) : WakeComes fin s p := by
  rw [WakeComes, h]
  trivial

structure JoinInv (fin : T) (s : JoinState W F T) : Prop where
  kept : ∀ w, Kept (s.worlds w)
  on_body : ∀ w f, ownCode (s.joiner (w, f)) = true →
    (s.worlds w).1.worker = .on f .body
  off_body : ∀ w f, s.joiner (w, f) = .parked →
    (s.worlds w).1.worker ≠ .on f .body
  alive : ∀ w f, s.joiner (w, f) = .parked → Alive (s.worlds w).1 f
  one : ∀ p q, s.joiner p ≠ .outside → s.joiner q ≠ .outside → p = q
  held : ∀ p, s.joiner p ≠ .outside → s.joined = true
  free : s.joined = true → s.completed = false → ∃ p, s.joiner p ≠ .outside
  not_done : s.done = false → s.finisher = .body
  waiter : ∀ p, s.joinWaiter = some p →
    looping (s.joiner p) = true ∨ s.joiner p = .leave
  registered : ∀ p, looping (s.joiner p) = true →
    s.finisher = .body ∨ s.finisher = .exchange → s.joinWaiter = some p
  calling : ∀ q, s.finisher = .call q ∨ s.finisher = .resume q →
    s.joinWaiter = none ∧ s.joined = true ∧ ∀ p, s.joiner p ≠ .register
  idle : ∀ w, (∀ f, s.finisher ≠ .resume (w, f)) →
    (s.worlds w).1.resumes (some fin) = none
  resuming : ∀ w f, s.finisher = .resume (w, f) →
    ∃ r, (s.worlds w).1.resumes (some fin) = some (f, r)
  wake : ∀ p, s.joiner p = .park ∨ s.joiner p = .parked → WakeComes fin s p
  abandoned : ∀ p, s.abandoned p = true →
    s.joiner p = .outside ∨ s.joiner p = .register
  live : ∀ p, s.abandoned p = true →
    s.finisher ≠ .call p ∧ s.finisher ≠ .resume p

variable [DecidableEq W] [DecidableEq F] [DecidableEq T]

/-- The cancel exit clears the slot while it still names its fiber, or after
the finishing thread is through; parks do not pass over a latch. -/
def JoinAllowed (act : JoinAction W F T) (s : JoinState W F T) : Prop :=
  (∀ w a, act = .fiber w a → LatchSeen a (s.worlds w).1) ∧
  ∀ w f, act = .join w → (s.worlds w).1.worker = .on f .body →
    s.joiner (w, f) = .clear →
      s.joinWaiter = some (w, f) ∨ s.finisher = .finished

omit [DecidableEq T] in
/-- What a worker's step does to the joiners. -/
theorem joinerAfter_cases (s : JoinState W F T) (w : W) (act : Action F T)
    (p : W × F) :
    joinerAfter s w act p = s.joiner p ∨
      (s.joiner p = .parked ∧ p.1 = w ∧
        RunsAgain act (s.worlds w).1 p.2 ∧
        (joinerAfter s w act p = .outcome ∨
          joinerAfter s w act p = .loadDone)) := by
  cases act with
  | work =>
    simp only [joinerAfter]
    split_ifs with hp hstart hlatch
    · exact .inr ⟨hp.2, hp.1, .inl ⟨rfl, .inl hstart⟩, .inl rfl⟩
    · exact .inr ⟨hp.2, hp.1, .inl ⟨rfl, .inr hlatch⟩, .inr rfl⟩
    · exact .inl hp.2.symm
    · exact .inl rfl
  | _ => exact .inl rfl

omit [DecidableEq T] in
/-- A parked joiner that runs again is parked no more. -/
theorem joinerAfter_runs {s : JoinState W F T} {w : W} {act : Action F T}
    {f : F} (hbody : (s.worlds w).1.worker ≠ .on f .body)
    (hruns : RunsAgain act (s.worlds w).1 f) :
    joinerAfter s w act (w, f) ≠ .parked := by
  rcases hruns with ⟨rfl, hw | ⟨hw, hlatch⟩⟩ | ⟨-, hw, -⟩
  · simp only [joinerAfter, hw, true_and, if_true]
    split_ifs with hp
    · decide
    · exact hp
  · simp only [joinerAfter, hw, hlatch, true_and, and_true]
    split_ifs with hp
    · simp_all
    · decide
    · exact hp
  · exact absurd hw hbody

omit [DecidableEq T] in
theorem joinerAfter_outside {s : JoinState W F T} {w : W}
    {act : Action F T} {p : W × F} :
    joinerAfter s w act p = .outside ↔ s.joiner p = .outside := by
  rcases joinerAfter_cases s w act p with hsame | ⟨hpark, -, -, hnew⟩
  · rw [hsame]
  · rcases hnew with hnew | hnew <;> simp [hpark, hnew]

omit [DecidableEq T] in
/-- A worker's step sends nobody to its park. -/
theorem joinerAfter_waits {s : JoinState W F T} {w : W} {act : Action F T}
    {p : W × F} (hp : joinerAfter s w act p = .park ∨
      joinerAfter s w act p = .parked) :
    s.joiner p = joinerAfter s w act p := by
  rcases joinerAfter_cases s w act p with hsame | ⟨-, -, -, hnew⟩
  · exact hsame.symm
  · rcases hnew with hnew | hnew <;> simp [hnew] at hp

omit [DecidableEq T] in
theorem joinerAfter_looping {s : JoinState W F T} {w : W}
    {act : Action F T} {p : W × F} :
    looping (joinerAfter s w act p) = looping (s.joiner p) := by
  rcases joinerAfter_cases s w act p with hsame | ⟨hpark, -, -, hnew⟩
  · rw [hsame]
  · rcases hnew with hnew | hnew <;> rw [hpark, hnew] <;> rfl

namespace JoinInv

variable {fin : T} {s s' : JoinState W F T}

omit [DecidableEq W] [DecidableEq F] [DecidableEq T] in
/-- A fiber waiting for its wake does not run again in a step of its worker
that leaves it waiting. -/
theorem not_runsAgain (h : JoinInv fin s) {w : W} {f : F} {act : Action F T}
    (hown : inJoin s w = true → ownChoice act = false)
    (hpark : s.joiner (w, f) = .park) :
    ¬RunsAgain act (s.worlds w).1 f := by
  have hbody := h.on_body w f (by rw [hpark]; rfl)
  have hin : inJoin s w = true := by
    simp [inJoin, hbody, hpark]
  rintro (⟨-, hw | ⟨hw, -⟩⟩ | ⟨rfl, -, -⟩)
  · rw [hbody] at hw
    cases hw
  · rw [hbody] at hw
    cases hw
  · exact absurd (hown hin) (by simp [ownChoice])

/-- A step of a worker, of a fiber's own code, or of a resumer. -/
theorem fiberStep (h : JoinInv fin s) {w : W} {act : Action F T}
    (hlatch : LatchSeen act (s.worlds w).1)
    (hs : Fiber.fiberStep fin w act s = some s') : JoinInv fin s' := by
  unfold Fiber.fiberStep at hs
  split at hs
  · cases hs
  rename_i hguard
  simp only [not_or, not_and, Bool.not_eq_true] at hguard
  obtain ⟨hfin, hown⟩ := hguard
  obtain ⟨x, hx, rfl⟩ := Option.map_eq_some_iff.mp hs
  obtain ⟨e, hstep⟩ := trackedStep_step hx
  have hself : (s.setWorld w x).worlds w = x := s.setWorld_self w x
  have hother (v : W) (hv : v ≠ w) :
      (s.setWorld w x).worlds v = s.worlds v := s.setWorld_other hv x
  have hresumes : x.1.resumes (some fin) =
      (s.worlds w).1.resumes (some fin) := by
    refine step_resumes hstep ?_ ?_
    · rintro g c rfl
      simp [finishing] at hfin
    · rintro rfl
      simp [finishing] at hfin
  constructor
  case kept =>
    intro v
    by_cases hv : v = w
    · subst hv
      rw [hself]
      exact (h.kept v).step hlatch hx
    · rw [hother v hv]
      exact h.kept v
  case on_body =>
    intro v f hcode
    dsimp only at hcode ⊢
    rcases joinerAfter_cases s w act (v, f) with
      hsame | ⟨-, rfl, hruns, -⟩
    · rw [hsame] at hcode
      have hbody := h.on_body v f hcode
      by_cases hv : v = w
      · subst hv
        rw [hself]
        have hin : inJoin s v = true := by
          have hne : s.joiner (v, f) ≠ .outside := by
            intro hout
            rw [hout] at hcode
            cases hcode
          simp [inJoin, hbody, hne]
        refine step_staysOnBody hstep hbody ?_
        have hchoice := hown hin
        cases act <;> first | rfl | exact absurd hchoice (by simp [ownChoice])
      · rw [hother v hv]
        exact hbody
    · rw [hself]
      exact step_runsAgain hstep hruns
  case off_body =>
    intro v f hpark hw
    dsimp only at hpark hw
    have hsame := joinerAfter_waits (.inr hpark)
    have hbefore := h.off_body v f (hsame.trans hpark)
    by_cases hv : v = w
    · subst hv
      rw [hself] at hw
      rcases step_comesToBody hstep hw with hbody | hruns
      · exact hbefore hbody
      · exact joinerAfter_runs hbefore hruns hpark
    · rw [hother v hv] at hw
      exact hbefore hw
  case alive =>
    intro v f hpark
    dsimp only at hpark ⊢
    have hsame := joinerAfter_waits (.inr hpark)
    have hbefore := h.alive v f (hsame.trans hpark)
    by_cases hv : v = w
    · subst hv
      rw [hself]
      exact hbefore.step hstep (h.off_body v f (hsame.trans hpark))
    · rw [hother v hv]
      exact hbefore
  case one =>
    intro p q hp hq
    refine h.one p q (mt joinerAfter_outside.mpr hp) ?_
    exact mt joinerAfter_outside.mpr hq
  case held => exact fun p hp => h.held p (mt joinerAfter_outside.mpr hp)
  case free =>
    intro hj hc
    obtain ⟨p, hp⟩ := h.free hj hc
    exact ⟨p, mt joinerAfter_outside.mp hp⟩
  case not_done => exact h.not_done
  case waiter =>
    intro p hp
    dsimp only
    rcases h.waiter p hp with hl | hl
    · exact .inl (joinerAfter_looping.trans hl)
    · rcases joinerAfter_cases s w act p with hsame | ⟨hpark, -, -, -⟩
      · exact .inr (hsame.trans hl)
      · rw [hl] at hpark
        cases hpark
  case registered =>
    exact fun p hp => h.registered p (joinerAfter_looping.symm.trans hp)
  case calling =>
    intro q hq
    obtain ⟨hnone, hj, hreg⟩ := h.calling q hq
    refine ⟨hnone, hj, fun p hp => ?_⟩
    dsimp only at hp
    rcases joinerAfter_cases s w act p with hsame | ⟨-, -, -, hnew⟩
    · exact hreg p (hsame.symm.trans hp)
    · rcases hnew with hnew | hnew <;> simp [hnew] at hp
  case idle =>
    intro v hv
    by_cases hvw : v = w
    · subst hvw
      rw [hself, hresumes]
      exact h.idle v hv
    · rw [hother v hvw]
      exact h.idle v hv
  case resuming =>
    intro v f hf
    by_cases hvw : v = w
    · subst hvw
      rw [hself, hresumes]
      exact h.resuming v f hf
    · rw [hother v hvw]
      exact h.resuming v f hf
  case wake =>
    intro p hp
    dsimp only at hp
    have hsame := joinerAfter_waits hp
    rw [← hsame] at hp
    have hcomes := h.wake p hp
    obtain ⟨v, f⟩ := p
    by_cases hvw : v = w
    · subst hvw
      have hnot : ¬RunsAgain act (s.worlds v).1 f := by
        rcases hp with hpark | hpark
        · exact h.not_runsAgain hown hpark
        · intro hruns
          refine joinerAfter_runs (h.off_body v f hpark) hruns ?_
          rw [← hsame, hpark]
      unfold WakeComes at hcomes ⊢
      have hsamePc : (s.setWorld v x).finisher = s.finisher := rfl
      dsimp only at hcomes ⊢
      rw [hself, hsamePc]
      cases hf : s.finisher with
      | body => trivial
      | exchange => trivial
      | call q =>
        rw [hf] at hcomes
        exact hcomes
      | resume q =>
        rw [hf] at hcomes
        obtain ⟨rfl, hfresh⟩ := hcomes
        obtain ⟨r, hr⟩ := h.resuming v f hf
        exact ⟨rfl, (trackedStep_fresh hx hr hfresh).resolve_right hnot⟩
      | finished =>
        rw [hf] at hcomes
        exact (trackedStep_owed hx hcomes).resolve_right hnot
    · unfold WakeComes at hcomes ⊢
      dsimp only at hcomes ⊢
      rw [hother v hvw]
      exact hcomes
  case abandoned =>
    intro p hp
    dsimp only
    rcases joinerAfter_cases s w act p with hsame | ⟨hpark, -, -, -⟩
    · rw [hsame]
      exact h.abandoned p hp
    · rcases h.abandoned p hp with hout | hreg
      · rw [hpark] at hout
        cases hout
      · rw [hpark] at hreg
        cases hreg
  case live => exact h.live

omit [DecidableEq W] [DecidableEq F] [DecidableEq T] in
/-- Two fibers in the join are one. -/
theorem inside_eq (h : JoinInv fin s) {p q : W × F} {a : JoinPc}
    (hp : s.joiner p = a) (ha : a ≠ .outside) (hq : s.joiner q ≠ .outside) :
    q = p :=
  h.one q p hq (by rw [hp]; exact ha)

omit [DecidableEq W] [DecidableEq F] [DecidableEq T] in
/-- A fiber that waits for its wake can be resumed. -/
theorem alive_of_waiting (h : JoinInv fin s) {w : W} {f : F}
    (hp : s.joiner (w, f) = .park ∨ s.joiner (w, f) = .parked) :
    Alive (s.worlds w).1 f := by
  rcases hp with hp | hp
  · have hbody := h.on_body w f (by rw [hp]; rfl)
    obtain ⟨R, I, C, -, hc⟩ := (h.kept w).placed
    have hst := hc.on_state f .body hbody
    exact ⟨by simp [hst], by simp [hst, phase], by simp [hbody]⟩
  · exact h.alive w f hp

omit [DecidableEq W] [DecidableEq F] [DecidableEq T] in
/-- The finishing thread's steps before the resume. -/
theorem publish (h : JoinInv fin s) (hf : s.finisher = .body) :
    JoinInv fin { s with done := true, finisher := .exchange } where
  kept := h.kept
  on_body := h.on_body
  off_body := h.off_body
  alive := h.alive
  one := h.one
  held := h.held
  free := h.free
  not_done := by
    intro hd
    cases hd
  waiter := h.waiter
  registered := fun p hp _ => h.registered p hp (.inl hf)
  calling := by
    rintro q (hq | hq) <;> cases hq
  idle := by
    intro w _
    exact h.idle w (by simp [hf])
  resuming := by
    intro w f hq
    cases hq
  wake := fun _ _ => trivial
  abandoned := h.abandoned
  live := fun p _ => ⟨by simp, by simp⟩

omit [DecidableEq W] [DecidableEq F] [DecidableEq T] in
theorem exchangeNone (h : JoinInv fin s) (hf : s.finisher = .exchange)
    (hw : s.joinWaiter = none) :
    JoinInv fin { s with finisher := .finished } where
  kept := h.kept
  on_body := h.on_body
  off_body := h.off_body
  alive := h.alive
  one := h.one
  held := h.held
  free := h.free
  not_done := by
    intro hd
    rw [h.not_done hd] at hf
    cases hf
  waiter := h.waiter
  registered := by
    rintro p - (hq | hq) <;> cases hq
  calling := by
    rintro q (hq | hq) <;> cases hq
  idle := fun w _ => h.idle w (by simp [hf])
  resuming := by
    intro w f hq
    cases hq
  wake := by
    intro p hp
    have hloop : looping (s.joiner p) = true := by
      rcases hp with hp | hp <;> (dsimp only at hp; rw [hp]; rfl)
    rw [h.registered p hloop (.inr hf)] at hw
    cases hw
  abandoned := h.abandoned
  live := fun p _ => ⟨by simp, by simp⟩

omit [DecidableEq W] [DecidableEq F] [DecidableEq T] in
/-- The finishing thread takes the waiter. -/
theorem exchangeSome (h : JoinInv fin s) (hf : s.finisher = .exchange)
    {p : W × F} (hw : s.joinWaiter = some p) :
    JoinInv fin { s with joinWaiter := none, finisher := .call p } where
  kept := h.kept
  on_body := h.on_body
  off_body := h.off_body
  alive := h.alive
  one := h.one
  held := h.held
  free := h.free
  not_done := by
    intro hd
    rw [h.not_done hd] at hf
    cases hf
  waiter := by
    intro q hq
    cases hq
  registered := by
    rintro q - (hq | hq) <;> cases hq
  calling := by
    intro q _
    have hp := h.waiter p hw
    refine ⟨rfl, h.held p ?_, ?_⟩
    · intro hout
      rw [hout] at hp
      rcases hp with hp | hp <;> cases hp
    · intro r hr
      dsimp only at hr
      have hne : s.joiner p ≠ .outside := by
        intro hout
        rw [hout] at hp
        rcases hp with hp | hp <;> cases hp
      rw [h.inside_eq hr (by decide) hne, hr] at hp
      rcases hp with hp | hp <;> cases hp
  idle := fun w _ => h.idle w (by simp [hf])
  resuming := by
    intro w f hq
    cases hq
  wake := by
    intro q hq
    have hloop : looping (s.joiner q) = true := by
      rcases hq with hq | hq <;> (dsimp only at hq; rw [hq]; rfl)
    have hreg := h.registered q hloop (.inr hf)
    rw [hw] at hreg
    exact Option.some_inj.mp hreg
  abandoned := h.abandoned
  live := by
    intro q hq
    refine ⟨?_, by simp⟩
    intro heq
    cases heq
    have hp := h.waiter p hw
    rcases h.abandoned p hq with hout | hout
    · rw [hout] at hp
      rcases hp with hp | hp <;> cases hp
    · rw [hout] at hp
      rcases hp with hp | hp <;> cases hp

omit [DecidableEq F] [DecidableEq T] in
theorem worker_setWorld {w : W} {x : Tracked F T}
    (hx : x.1.worker = (s.worlds w).1.worker) (v : W) :
    ((s.setWorld w x).worlds v).1.worker = (s.worlds v).1.worker := by
  by_cases hv : v = w
  · subst hv
    rw [s.setWorld_self, hx]
  · rw [s.setWorld_other hv]

/-- What a resume or a call of the finishing thread leaves as it was. -/
theorem kept_setWorld (h : JoinInv fin s) {w : W} {act : Action F T}
    {x : Tracked F T} (hx : trackedStep act (s.worlds w) = some x)
    (hact : act ≠ .work) (v : W) : Kept ((s.setWorld w x).worlds v) := by
  by_cases hv : v = w
  · subst hv
    rw [s.setWorld_self]
    exact (h.kept v).step (fun hwork => absurd hwork hact) hx
  · rw [s.setWorld_other hv]
    exact h.kept v

theorem alive_setWorld (h : JoinInv fin s) {w : W} {act : Action F T}
    {x : Tracked F T} (hx : trackedStep act (s.worlds w) = some x) (v : W)
    (f : F) (hp : s.joiner (v, f) = .parked) :
    Alive ((s.setWorld w x).worlds v).1 f := by
  by_cases hv : v = w
  · subst hv
    obtain ⟨e, hstep⟩ := trackedStep_step hx
    rw [s.setWorld_self]
    exact (h.alive v f hp).step hstep (h.off_body v f hp)
  · rw [s.setWorld_other hv]
    exact h.alive v f hp

/-- The finishing thread calls `beans_fiber_resume`. -/
theorem callResume (h : JoinInv fin s) {w : W} {f : F}
    (hf : s.finisher = .call (w, f)) {x : Tracked F T}
    (hx : trackedStep (.call (some fin) f false) (s.worlds w) = some x) :
    JoinInv fin { s.setWorld w x with finisher := .resume (w, f) } := by
  obtain ⟨e, hstep⟩ := trackedStep_step hx
  obtain ⟨hload, hfresh⟩ := trackedStep_call hx
  have hworker : x.1.worker = (s.worlds w).1.worker := by
    simp only [step, Option.map_eq_some_iff, Prod.mk.injEq] at hstep
    obtain ⟨t, ht, rfl, -⟩ := hstep
    exact callStep_worker ht
  have hself : (s.setWorld w x).worlds w = x := s.setWorld_self w x
  have hother (v : W) (hv : v ≠ w) :
      (s.setWorld w x).worlds v = s.worlds v := s.setWorld_other hv x
  obtain ⟨hnone, hj, hreg⟩ := h.calling (w, f) (.inl hf)
  constructor
  case kept => exact h.kept_setWorld hx (by simp)
  case on_body =>
    intro v g hg
    exact (worker_setWorld hworker v).trans (h.on_body v g hg)
  case off_body =>
    intro v g hg
    dsimp only
    rw [worker_setWorld hworker v]
    exact h.off_body v g hg
  case alive => exact h.alive_setWorld hx
  case one => exact h.one
  case held => exact h.held
  case free => exact h.free
  case not_done =>
    intro hd
    have hbody := h.not_done hd
    rw [hf] at hbody
    cases hbody
  case waiter => exact h.waiter
  case registered =>
    rintro p - (hq | hq) <;> cases hq
  case calling => exact fun q _ => ⟨hnone, hj, hreg⟩
  case idle =>
    intro v hv
    have hne : v ≠ w := by
      rintro rfl
      exact hv f rfl
    dsimp only
    rw [hother v hne]
    exact h.idle v (by simp [hf])
  case resuming =>
    rintro v g hg
    cases hg
    dsimp only
    rw [hself]
    exact ⟨.load, hload⟩
  case wake =>
    intro p hp
    have hcomes := h.wake p hp
    unfold WakeComes at hcomes ⊢
    rw [hf] at hcomes
    subst hcomes
    dsimp only
    rw [hself]
    exact ⟨rfl, hfresh⟩
  case abandoned => exact h.abandoned
  case live =>
    intro p hp
    refine ⟨by simp, ?_⟩
    intro heq
    cases heq
    exact (h.live (w, f) hp).1 hf

omit [DecidableEq W] in
/-- A fiber that cannot be resumed does not wait. -/
theorem callNothing (h : JoinInv fin s) {w : W} {f : F}
    (hf : s.finisher = .call (w, f))
    (hx : trackedStep (.call (some fin) f false) (s.worlds w) = none) :
    JoinInv fin { s with finisher := .finished } where
  kept := h.kept
  on_body := h.on_body
  off_body := h.off_body
  alive := h.alive
  one := h.one
  held := h.held
  free := h.free
  not_done := by
    intro hd
    have hbody := h.not_done hd
    rw [hf] at hbody
    cases hbody
  waiter := h.waiter
  registered := by
    rintro p - (hq | hq) <;> cases hq
  calling := by
    rintro q (hq | hq) <;> cases hq
  idle := fun v _ => h.idle v (by simp [hf])
  resuming := by
    intro v g hq
    cases hq
  wake := by
    intro p hp
    have hcomes := h.wake p hp
    unfold WakeComes at hcomes
    rw [hf] at hcomes
    subst hcomes
    obtain ⟨x, hsome⟩ := trackedStep_call_alive (c := false)
      (h.idle w (by simp [hf])) (h.alive_of_waiting hp)
    rw [hx] at hsome
    cases hsome
  abandoned := h.abandoned
  live := fun p _ => ⟨by simp, by simp⟩

/-- The next operation of the finishing thread's resume. -/
theorem resumeNext (h : JoinInv fin s) {w : W} {f : F}
    (hf : s.finisher = .resume (w, f)) {x : Tracked F T}
    (hx : trackedStep (.resume (some fin)) (s.worlds w) = some x) :
    JoinInv fin { s.setWorld w x with
      finisher := if x.1.resumes (some fin) = none then .finished
        else .resume (w, f) } := by
  obtain ⟨e, hstep⟩ := trackedStep_step hx
  obtain ⟨r, hr⟩ := h.resuming w f hf
  have hresume : resumeStep (s.worlds w).1 (some fin) = some x.1 := by
    simp only [step, Option.map_eq_some_iff, Prod.mk.injEq] at hstep
    obtain ⟨t, ht, rfl, -⟩ := hstep
    exact ht
  have hworker := resumeStep_worker hresume
  have hself : (s.setWorld w x).worlds w = x := s.setWorld_self w x
  have hother (v : W) (hv : v ≠ w) :
      (s.setWorld w x).worlds v = s.worlds v := s.setWorld_other hv x
  have hcalling := h.calling (w, f) (.inr hf)
  have hidle (v : W) (hv : v ≠ w) :
      (s.worlds v).1.resumes (some fin) = none := by
    refine h.idle v fun g hg => hv ?_
    rw [hf] at hg
    cases hg
    rfl
  have hfinisher (pc : FinishPc (W × F))
      (hpc : (if x.1.resumes (some fin) = none then FinishPc.finished
        else .resume (w, f)) = pc) : pc = .finished ∨ pc = .resume (w, f) := by
    subst hpc
    split
    · exact .inl rfl
    · exact .inr rfl
  constructor
  case kept => exact h.kept_setWorld hx (by simp)
  case on_body =>
    intro v g hg
    exact (worker_setWorld hworker v).trans (h.on_body v g hg)
  case off_body =>
    intro v g hg
    dsimp only
    rw [worker_setWorld hworker v]
    exact h.off_body v g hg
  case alive => exact h.alive_setWorld hx
  case one => exact h.one
  case held => exact h.held
  case free => exact h.free
  case not_done =>
    intro hd
    have hbody := h.not_done hd
    rw [hf] at hbody
    cases hbody
  case waiter => exact h.waiter
  case registered =>
    rintro p - (hq | hq) <;> rcases hfinisher _ hq with hq' | hq' <;> cases hq'
  case calling => exact fun q _ => hcalling
  case idle =>
    intro v hv
    dsimp only at hv ⊢
    by_cases hvw : v = w
    · subst hvw
      rw [hself]
      by_contra hsome
      exact hv f (if_neg hsome)
    · rw [hother v hvw]
      exact hidle v hvw
  case resuming =>
    intro v g hg
    dsimp only at hg ⊢
    rcases resumeStep_target hr hresume with hnone | ⟨r', hsome⟩
    · rw [if_pos hnone] at hg
      cases hg
    · rw [if_neg (by simp [hsome])] at hg
      cases hg
      exact ⟨r', by rw [hself]; exact hsome⟩
  case wake =>
    intro p hp
    have hcomes := h.wake p hp
    unfold WakeComes at hcomes ⊢
    rw [hf] at hcomes
    obtain ⟨rfl, hfresh⟩ := hcomes
    dsimp only
    rw [hself]
    rcases trackedStep_returns hx hr hfresh with
      ⟨hnone, howed⟩ | ⟨r', hsome, hfresh'⟩
    · rw [if_pos hnone]
      exact howed
    · rw [if_neg (by simp [hsome])]
      exact ⟨rfl, hfresh'⟩
  case abandoned => exact h.abandoned
  case live =>
    intro p hp
    constructor
    · intro hq
      rcases hfinisher _ hq with hq' | hq' <;> cases hq'
    · intro hq
      rcases hfinisher _ hq with hq' | hq'
      · cases hq'
      · cases hq'
        exact (h.live (w, f) hp).2 hf

/-- The finishing thread's next step. -/
theorem finisherStep (h : JoinInv fin s)
    (hs : Fiber.finisherStep fin s = some s') : JoinInv fin s' := by
  cases hf : s.finisher with
  | body =>
    simp only [Fiber.finisherStep, hf] at hs
    cases hs
    exact h.publish hf
  | exchange =>
    cases hw : s.joinWaiter with
    | none =>
      simp only [Fiber.finisherStep, hf, hw] at hs
      cases hs
      rw [← hw]
      exact h.exchangeNone hf hw
    | some p =>
      simp only [Fiber.finisherStep, hf, hw] at hs
      cases hs
      exact h.exchangeSome hf hw
  | call p =>
    obtain ⟨w, f⟩ := p
    cases hx : trackedStep (.call (some fin) f false) (s.worlds w) with
    | none =>
      simp only [Fiber.finisherStep, hf, hx] at hs
      cases hs
      exact h.callNothing hf hx
    | some x =>
      simp only [Fiber.finisherStep, hf, hx] at hs
      cases hs
      exact h.callResume hf hx
  | resume p =>
    obtain ⟨w, f⟩ := p
    simp only [Fiber.finisherStep, hf, Option.map_eq_some_iff] at hs
    obtain ⟨x, hx, rfl⟩ := hs
    exact h.resumeNext hf hx
  | finished =>
    simp only [Fiber.finisherStep, hf] at hs
    cases hs

end JoinInv

end Fiber
end Beans
