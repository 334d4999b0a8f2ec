import Mathlib

/-!
# The netpoller of a worker

A fiber that waits for a descriptor arms a one-shot registration that names it.  With
epoll the kernel keeps one registration for a descriptor, with kqueue one for a
descriptor and a direction, and changes are queued until the next wait.  Whatever order
fibers arm, leave and are delivered in, a registration that can still fire names an
armed fiber and what that fiber waits for.
-/

namespace Beans
namespace FiberIo

open Function

/-- The kernel poller of the build. -/
inductive Netpoll where
  | epoll
  | kqueue
deriving DecidableEq

/-- What epoll holds for a descriptor; one that fired is disabled. -/
structure Registration (F : Type*) where
  fiber : F
  write : Bool
  enabled : Bool
deriving DecidableEq

/-- A registration queued for kqueue. -/
structure Change (F : Type*) where
  fd : ℤ
  write : Bool
  fiber : F
deriving DecidableEq

/-- The fields of the fibers and of the worker that the netpoller uses, and the kernel's
registrations. -/
structure Poller (F : Type*) where
  ioArmed : F → Bool
  ioSignalled : F → Bool
  ioFd : F → ℤ
  ioWrite : F → Bool
  /-- From one on, the slot of the queue. -/
  ioQueued : F → ℕ
  ioWaiters : ℤ
  pollQueue : List (Change F)
  epoll : ℤ → Option (Registration F)
  kqueue : ℤ × Bool → Option F

namespace Poller

variable {F : Type*}

def initial : Poller F where
  ioArmed _ := false
  ioSignalled _ := false
  ioFd _ := 0
  ioWrite _ := false
  ioQueued _ := 0
  ioWaiters := 0
  pollQueue := []
  epoll _ := none
  kqueue _ := none

variable [DecidableEq F]

/-- `EPOLL_CTL_ADD`; `none` is `EEXIST`. -/
def ctlAdd (table : ℤ → Option (Registration F)) (fd : ℤ) (ev : Registration F) :
    Option (ℤ → Option (Registration F)) :=
  match table fd with
  | some _ => none
  | none => some (update table fd (some ev))

/-- `EPOLL_CTL_MOD`; `none` is `ENOENT`. -/
def ctlMod (table : ℤ → Option (Registration F)) (fd : ℤ) (ev : Registration F) :
    Option (ℤ → Option (Registration F)) :=
  match table fd with
  | some _ => some (update table fd (some ev))
  | none => none

/-- `poller_arm`; `none` where the registration is refused. -/
def arm (b : Netpoll) (p : Poller F) (f : F) (fd : ℤ) (write : Bool) : Option (Poller F) :=
  match b with
  | .kqueue =>
    some { p with
      pollQueue := p.pollQueue ++ [⟨fd, write, f⟩]
      ioQueued := update p.ioQueued f (p.pollQueue.length + 1) }
  | .epoll =>
    ((ctlAdd p.epoll fd ⟨f, write, true⟩) <|> (ctlMod p.epoll fd ⟨f, write, true⟩)).map
      fun table => { p with epoll := table }

/-- What `beans_fiber_wait_io` does before it looks at the clock. -/
def beginWait (b : Netpoll) (p : Poller F) (f : F) (fd : ℤ) (write : Bool) :
    Option (Poller F) :=
  (p.arm b f fd write).map fun p =>
    { p with
      ioArmed := update p.ioArmed f true
      ioWaiters := if p.ioArmed f then p.ioWaiters else p.ioWaiters + 1
      ioSignalled := update p.ioSignalled f false
      ioFd := update p.ioFd f fd
      ioWrite := update p.ioWrite f write }

/-- A queued slot is dropped, and the last one swapped down into it. -/
def dropSlot (p : Poller F) (f : F) : Poller F :=
  let slot := p.ioQueued f - 1
  let last := p.pollQueue.length - 1
  let swapped : Poller F :=
    if slot = last then p
    else
      match p.pollQueue[last]? with
      | none => p
      | some moved =>
        { p with
          pollQueue := p.pollQueue.set slot moved
          ioQueued := update p.ioQueued moved.fiber (slot + 1) }
  { swapped with
    pollQueue := swapped.pollQueue.take last
    ioQueued := update swapped.ioQueued f 0 }

/-- The kernel or the queue forgets what the fiber registered. -/
def unregister (b : Netpoll) (p : Poller F) (f : F) : Poller F :=
  match b with
  | .kqueue =>
    if p.ioQueued f ≠ 0 then p.dropSlot f
    else { p with kqueue := update p.kqueue (p.ioFd f, p.ioWrite f) none }
  | .epoll => { p with epoll := update p.epoll (p.ioFd f) none }

/-- `poller_disarm`. -/
def disarm (b : Netpoll) (p : Poller F) (f : F) : Poller F :=
  let p := p.unregister b f
  { p with
    ioArmed := update p.ioArmed f false
    ioWaiters := p.ioWaiters - 1 }

/-- A registration fires: the kernel is done with it, and the event names the fiber. -/
def event (b : Netpoll) (p : Poller F) (fd : ℤ) (write : Bool) : Option (F × Poller F) :=
  match b with
  | .kqueue =>
    (p.kqueue (fd, write)).map fun f =>
      (f, { p with kqueue := update p.kqueue (fd, write) none })
  | .epoll =>
    match p.epoll fd with
    | none => none
    | some r =>
      if r.enabled = true ∧ r.write = write then
        some (r.fiber,
          { p with epoll := update p.epoll fd (some { r with enabled := false }) })
      else none

/-- With kqueue `poller_drain` skips a fiber that gave up the wait. -/
def wakes (b : Netpoll) (p : Poller F) (f : F) : Bool :=
  match b with
  | .kqueue => p.ioArmed f
  | .epoll => true

/-- What `poller_drain` does to the fiber that an event names. -/
def deliver (p : Poller F) (f : F) : Poller F :=
  { p with
    ioSignalled := update p.ioSignalled f true
    ioArmed := update p.ioArmed f false
    ioWaiters := p.ioWaiters - 1 }

/-- An event resumes the fiber it names; with kqueue only one that is armed. -/
def drain (b : Netpoll) (p : Poller F) (f : F) : Poller F :=
  if p.wakes b f then p.deliver f else p

/-- The kernel takes a queued change. -/
def register (table : ℤ × Bool → Option F) (c : Change F) : ℤ × Bool → Option F :=
  update table (c.fd, c.write) (some c.fiber)

/-- The queue is handed to the kernel, which refuses the changes of some fibers. -/
def submit (p : Poller F) (refused : F → Bool) : Poller F :=
  { p with
    pollQueue := []
    ioQueued := p.pollQueue.foldl (fun queued c => update queued c.fiber 0) p.ioQueued
    kqueue := (p.pollQueue.filter fun c => !refused c.fiber).foldl register p.kqueue }

/-- A refused change comes back as an event that names its fiber. -/
def refusals (p : Poller F) (refused : F → Bool) : List F :=
  (p.pollQueue.filter fun c => refused c.fiber).map Change.fiber

/-- The `memset` of a record that is used again. -/
def reset (p : Poller F) (f : F) : Poller F :=
  { p with
    ioArmed := update p.ioArmed f false
    ioSignalled := update p.ioSignalled f false
    ioFd := update p.ioFd f 0
    ioWrite := update p.ioWrite f false
    ioQueued := update p.ioQueued f 0 }

section Sound

/-- What can still fire names a fiber that is armed for just that. -/
structure SoundEpoll (p : Poller F) : Prop where
  names : ∀ fd r, p.epoll fd = some r → r.enabled = true →
    p.ioArmed r.fiber = true ∧ p.ioFd r.fiber = fd ∧ p.ioWrite r.fiber = r.write

/-- Kernel and queue name armed fibers, and a fiber's slot is where its change is. -/
structure SoundKqueue (p : Poller F) : Prop where
  names : ∀ key f, p.kqueue key = some f →
    p.ioArmed f = true ∧ (p.ioFd f, p.ioWrite f) = key ∧ p.ioQueued f = 0
  queued : ∀ k c, p.pollQueue[k]? = some c →
    p.ioArmed c.fiber = true ∧ p.ioFd c.fiber = c.fd ∧ p.ioWrite c.fiber = c.write ∧
      p.ioQueued c.fiber = k + 1
  slot : ∀ f k, p.ioQueued f = k + 1 → ∃ c, p.pollQueue[k]? = some c ∧ c.fiber = f

/-- What a registration may name, for each of the two pollers. -/
def Sound (b : Netpoll) (p : Poller F) : Prop :=
  match b with
  | .epoll => SoundEpoll p
  | .kqueue => SoundKqueue p

variable {b : Netpoll} {p p' : Poller F} {f g : F} {fd : ℤ} {write : Bool}

omit [DecidableEq F] in
theorem sound_initial (b : Netpoll) : Sound b (initial : Poller F) := by
  cases b with
  | epoll =>
    refine ⟨fun fd r h => ?_⟩
    cases h
  | kqueue =>
    refine ⟨fun key f h => ?_, fun k c h => ?_, fun f k h => ?_⟩
    all_goals cases h

/-- With epoll the descriptor is registered anew, whatever was registered before. -/
theorem arm_epoll (p : Poller F) (f : F) (fd : ℤ) (write : Bool) :
    p.arm .epoll f fd write =
      some { p with epoll := update p.epoll fd (some ⟨f, write, true⟩) } := by
  rw [arm, ctlAdd, ctlMod]
  cases p.epoll fd
  all_goals rfl

/-- The registration that an arm adds, or queues, names the fiber that it arms. -/
theorem sound_beginWait (h : Sound b p) (hf : p.ioArmed f = false)
    (hbegin : p.beginWait b f fd write = some p') :
    Sound b p' := by
  have hne : ∀ g, p.ioArmed g = true → g ≠ f := by
    rintro g hg rfl
    rw [hf] at hg
    cases hg
  cases b with
  | epoll =>
    rw [beginWait, arm_epoll] at hbegin
    obtain rfl := Option.some.inj hbegin
    refine ⟨fun fd' r hr henabled => ?_⟩
    dsimp only at hr ⊢
    rw [update_apply] at hr
    split_ifs at hr with heq
    · obtain rfl := Option.some.inj hr
      simp [heq]
    · obtain ⟨harmed, hfd, hwrite⟩ := h.names fd' r hr henabled
      have hother := hne r.fiber harmed
      simp only [update_of_ne hother]
      exact ⟨harmed, hfd, hwrite⟩
  | kqueue =>
    rw [beginWait, arm] at hbegin
    obtain rfl := Option.some.inj hbegin
    refine ⟨fun key g hg => ?_, fun k c hc => ?_, fun g k hg => ?_⟩
    · obtain ⟨harmed, hkey, hqueued⟩ := h.names key g hg
      have hother := hne g harmed
      simp only [update_of_ne hother]
      exact ⟨harmed, hkey, hqueued⟩
    · dsimp only at hc ⊢
      by_cases hk : k < p.pollQueue.length
      · rw [List.getElem?_append_left hk] at hc
        obtain ⟨harmed, hfd, hwrite, hqueued⟩ := h.queued k c hc
        have hother := hne c.fiber harmed
        simp only [update_of_ne hother]
        exact ⟨harmed, hfd, hwrite, hqueued⟩
      · have hlt := (List.getElem?_eq_some_iff.mp hc).1
        rw [List.length_append, List.length_singleton] at hlt
        obtain rfl : k = p.pollQueue.length := by omega
        rw [List.getElem?_concat_length] at hc
        obtain rfl := Option.some.inj hc
        simp
    · dsimp only at hg ⊢
      rw [update_apply] at hg
      split_ifs at hg with heq
      · obtain rfl : p.pollQueue.length = k := by omega
        exact ⟨_, List.getElem?_concat_length, heq.symm⟩
      · obtain ⟨c, hc, hfiber⟩ := h.slot g k hg
        have hlt := (List.getElem?_eq_some_iff.mp hc).1
        exact ⟨c, by rw [List.getElem?_append_left hlt]; exact hc, hfiber⟩

theorem beginWait_fields (hbegin : p.beginWait b f fd write = some p') :
    p'.ioArmed = update p.ioArmed f true ∧ p'.ioSignalled = update p.ioSignalled f false ∧
      p'.ioWaiters = if p.ioArmed f then p.ioWaiters else p.ioWaiters + 1 := by
  cases b with
  | epoll =>
    rw [beginWait, arm_epoll] at hbegin
    obtain rfl := Option.some.inj hbegin
    exact ⟨rfl, rfl, rfl⟩
  | kqueue =>
    rw [beginWait, arm] at hbegin
    obtain rfl := Option.some.inj hbegin
    exact ⟨rfl, rfl, rfl⟩

/-- Nothing that can still fire names the fiber. -/
def Unnamed (b : Netpoll) (p : Poller F) (f : F) : Prop :=
  match b with
  | .epoll => ∀ fd r, p.epoll fd = some r → r.enabled = true → r.fiber ≠ f
  | .kqueue => (∀ key, p.kqueue key ≠ some f) ∧ ∀ c ∈ p.pollQueue, c.fiber ≠ f

omit [DecidableEq F] in
theorem unnamed_of_unarmed (h : Sound b p) (hf : p.ioArmed f = false) :
    Unnamed b p f := by
  have hne : ∀ g, p.ioArmed g = true → g ≠ f := by
    rintro g hg rfl
    rw [hf] at hg
    cases hg
  cases b with
  | epoll => exact fun fd r hr henabled => hne r.fiber (h.names fd r hr henabled).1
  | kqueue =>
    refine ⟨fun key hkey => hne f (h.names key f hkey).1 rfl, fun c hc => ?_⟩
    obtain ⟨k, hk⟩ := List.mem_iff_getElem?.mp hc
    exact hne c.fiber (h.queued k c hk).1

/-- The registrations, the queue and what the fibers wait for are the same. -/
structure SameTables (p p' : Poller F) : Prop where
  epoll : p'.epoll = p.epoll
  kqueue : p'.kqueue = p.kqueue
  pollQueue : p'.pollQueue = p.pollQueue
  ioQueued : p'.ioQueued = p.ioQueued
  ioFd : p'.ioFd = p.ioFd
  ioWrite : p'.ioWrite = p.ioWrite

omit [DecidableEq F] in
theorem Unnamed.same (h : Unnamed b p f) (hsame : SameTables p p') :
    Unnamed b p' f := by
  cases b with
  | epoll => exact fun fd r hr => h fd r (hsame.epoll ▸ hr)
  | kqueue => exact ⟨fun key => hsame.kqueue ▸ h.1 key, fun c hc => h.2 c (hsame.pollQueue ▸ hc)⟩

/-- What the fibers wait for and how many of them do is the same. -/
structure SameFibers (p p' : Poller F) : Prop where
  ioArmed : p'.ioArmed = p.ioArmed
  ioSignalled : p'.ioSignalled = p.ioSignalled
  ioFd : p'.ioFd = p.ioFd
  ioWrite : p'.ioWrite = p.ioWrite
  ioWaiters : p'.ioWaiters = p.ioWaiters

theorem dropSlot_frame (p : Poller F) (f : F) :
    SameFibers p (p.dropSlot f) ∧ (p.dropSlot f).kqueue = p.kqueue := by
  rw [dropSlot]
  split_ifs
  · exact ⟨⟨rfl, rfl, rfl, rfl, rfl⟩, rfl⟩
  · cases p.pollQueue[p.pollQueue.length - 1]?
    all_goals exact ⟨⟨rfl, rfl, rfl, rfl, rfl⟩, rfl⟩

theorem unregister_same (b : Netpoll) (p : Poller F) (f : F) :
    SameFibers p (p.unregister b f) := by
  cases b with
  | epoll => exact ⟨rfl, rfl, rfl, rfl, rfl⟩
  | kqueue =>
    rw [unregister]
    split_ifs
    · exact (dropSlot_frame p f).1
    · exact ⟨rfl, rfl, rfl, rfl, rfl⟩

/-- A fiber that nothing names may stop to be armed. -/
theorem sound_unarmed (h : Sound b p) (hun : Unnamed b p f) (hsame : SameTables p p')
    (harmed : p'.ioArmed = update p.ioArmed f false) :
    Sound b p' := by
  have hkeep : ∀ g, g ≠ f → p.ioArmed g = true → p'.ioArmed g = true := by
    intro g hg harm
    rw [harmed, update_of_ne hg]
    exact harm
  cases b with
  | epoll =>
    refine ⟨fun fd r hr henabled => ?_⟩
    rw [hsame.epoll] at hr
    obtain ⟨harm, hfd, hwrite⟩ := h.names fd r hr henabled
    rw [hsame.ioFd, hsame.ioWrite]
    exact ⟨hkeep _ (hun fd r hr henabled) harm, hfd, hwrite⟩
  | kqueue =>
    refine ⟨fun key g hg => ?_, fun k c hc => ?_, fun g k hg => ?_⟩
    · rw [hsame.kqueue] at hg
      obtain ⟨harm, hkey, hqueued⟩ := h.names key g hg
      rw [hsame.ioFd, hsame.ioWrite, hsame.ioQueued]
      exact ⟨hkeep g (fun heq => hun.1 key (heq ▸ hg)) harm, hkey, hqueued⟩
    · rw [hsame.pollQueue] at hc
      obtain ⟨harm, hfd, hwrite, hqueued⟩ := h.queued k c hc
      rw [hsame.ioFd, hsame.ioWrite, hsame.ioQueued]
      exact ⟨hkeep _ (hun.2 c (List.mem_of_getElem? hc)) harm, hfd, hwrite, hqueued⟩
    · rw [hsame.ioQueued] at hg
      rw [hsame.pollQueue]
      exact h.slot g k hg

/-- The slot of a fiber is dropped: the others keep theirs, but for the one swapped down. -/
theorem sound_dropSlot {k : ℕ} (h : SoundKqueue p) (hk : p.ioQueued f = k + 1) :
    SoundKqueue (p.dropSlot f) ∧ Unnamed .kqueue (p.dropSlot f) f := by
  obtain ⟨c, hc, hcf⟩ := h.slot f k hk
  have hlt := (List.getElem?_eq_some_iff.mp hc).1
  have hnames : ∀ key g, p.kqueue key = some g → g ≠ f := by
    rintro key g hg rfl
    rw [(h.names key g hg).2.2] at hk
    cases hk
  have hother : ∀ j d, p.pollQueue[j]? = some d → j ≠ k → d.fiber ≠ f := by
    intro j d hd hjk heq
    have hslot := (h.queued j d hd).2.2.2
    rw [heq, hk] at hslot
    omega
  have hslot : p.ioQueued f - 1 = k := by
    rw [hk]
    rfl
  rw [dropSlot, hslot]
  by_cases hlast : k = p.pollQueue.length - 1
  · rw [if_pos hlast]
    have htake : ∀ j d, (p.pollQueue.take (p.pollQueue.length - 1))[j]? = some d →
        p.pollQueue[j]? = some d ∧ j ≠ k := by
      intro j d hd
      rw [List.getElem?_take] at hd
      split_ifs at hd with hj
      exact ⟨hd, by omega⟩
    refine ⟨⟨fun key g hg => ?_, fun j d hd => ?_, fun g j hg => ?_⟩,
      fun key hkey => hnames key f hkey rfl, fun d hd => ?_⟩
    · obtain ⟨harm, hkey, hqueued⟩ := h.names key g hg
      refine ⟨harm, hkey, ?_⟩
      simp only [update_of_ne (hnames key g hg), hqueued]
    · obtain ⟨hd', hj⟩ := htake j d hd
      obtain ⟨harm, hfd, hwrite, hqueued⟩ := h.queued j d hd'
      refine ⟨harm, hfd, hwrite, ?_⟩
      simp only [update_of_ne (hother j d hd' hj), hqueued]
    · dsimp only at hg ⊢
      rw [update_apply] at hg
      split_ifs at hg with heq
      obtain ⟨d, hd, hdg⟩ := h.slot g j hg
      have hjk : j ≠ k := by
        rintro rfl
        rw [hc] at hd
        exact heq (hdg ▸ Option.some.inj hd ▸ hcf)
      have hj := (List.getElem?_eq_some_iff.mp hd).1
      exact ⟨d, by rw [List.getElem?_take, if_pos (by omega)]; exact hd, hdg⟩
    · obtain ⟨j, hj⟩ := List.mem_iff_getElem?.mp hd
      obtain ⟨hd', hjk⟩ := htake j d hj
      exact hother j d hd' hjk
  · rw [if_neg hlast]
    obtain ⟨moved, hmoved⟩ : ∃ moved, p.pollQueue[p.pollQueue.length - 1]? = some moved :=
      ⟨_, List.getElem?_eq_getElem (by omega)⟩
    have hmf := hother _ moved hmoved (Ne.symm hlast)
    have hmslot := (h.queued _ moved hmoved).2.2.2
    rw [hmoved]
    dsimp only
    have htake : ∀ j d, ((p.pollQueue.set k moved).take (p.pollQueue.length - 1))[j]? = some d →
        (j = k ∧ d = moved) ∨ (p.pollQueue[j]? = some d ∧ j ≠ k ∧ d.fiber ≠ moved.fiber) := by
      intro j d hd
      rw [List.getElem?_take] at hd
      split_ifs at hd with hj
      rw [List.getElem?_set] at hd
      split_ifs at hd with hjk
      · exact .inl ⟨hjk.symm, (Option.some.inj hd).symm⟩
      · refine .inr ⟨hd, Ne.symm hjk, fun heq => ?_⟩
        have hdslot := (h.queued j d hd).2.2.2
        rw [heq, hmslot] at hdslot
        omega
    refine ⟨⟨fun key g hg => ?_, fun j d hd => ?_, fun g j hg => ?_⟩,
      fun key hkey => hnames key f hkey rfl, fun d hd => ?_⟩
    · obtain ⟨harm, hkey, hqueued⟩ := h.names key g hg
      refine ⟨harm, hkey, ?_⟩
      have hgm : g ≠ moved.fiber := by
        rintro rfl
        rw [hqueued] at hmslot
        cases hmslot
      simp only [update_of_ne (hnames key g hg), update_of_ne hgm, hqueued]
    · rcases htake j d hd with ⟨rfl, rfl⟩ | ⟨hd', hj, hdm⟩
      · obtain ⟨harm, hfd, hwrite, -⟩ := h.queued _ d hmoved
        refine ⟨harm, hfd, hwrite, ?_⟩
        simp only [update_of_ne hmf, update_self]
      · obtain ⟨harm, hfd, hwrite, hqueued⟩ := h.queued j d hd'
        refine ⟨harm, hfd, hwrite, ?_⟩
        simp only [update_of_ne (hother j d hd' hj), update_of_ne hdm, hqueued]
    · dsimp only at hg ⊢
      rw [update_apply] at hg
      split_ifs at hg with heq
      rw [update_apply] at hg
      split_ifs at hg with heqm
      · obtain rfl : k = j := by omega
        refine ⟨moved, ?_, heqm.symm⟩
        rw [List.getElem?_take, if_pos (by omega), List.getElem?_set_self hlt]
      · obtain ⟨d, hd, hdg⟩ := h.slot g j hg
        have hjk : j ≠ k := by
          rintro rfl
          rw [hc] at hd
          exact heq (hdg ▸ Option.some.inj hd ▸ hcf)
        have hjlast : j ≠ p.pollQueue.length - 1 := by
          rintro rfl
          rw [hmoved] at hd
          exact heqm (hdg ▸ Option.some.inj hd ▸ rfl)
        have hj := (List.getElem?_eq_some_iff.mp hd).1
        refine ⟨d, ?_, hdg⟩
        rw [List.getElem?_take, if_pos (by omega), List.getElem?_set_ne (Ne.symm hjk), hd]
    · obtain ⟨j, hj⟩ := List.mem_iff_getElem?.mp hd
      rcases htake j d hj with ⟨-, rfl⟩ | ⟨hd', hjk, -⟩
      · exact hmf
      · exact hother j d hd' hjk

/-- Whatever it registered, nothing that can fire names the fiber any more. -/
theorem sound_unregister (h : Sound b p) (f : F) :
    Sound b (p.unregister b f) ∧ Unnamed b (p.unregister b f) f := by
  cases b with
  | epoll =>
    have hsub : ∀ fd r, (p.unregister .epoll f).epoll fd = some r →
        fd ≠ p.ioFd f ∧ p.epoll fd = some r := by
      intro fd r hr
      rw [unregister] at hr
      dsimp only at hr
      rw [update_apply] at hr
      split_ifs at hr with heq
      exact ⟨heq, hr⟩
    refine ⟨⟨fun fd r hr henabled => ?_⟩, fun fd r hr henabled heq => ?_⟩
    · exact h.names fd r (hsub fd r hr).2 henabled
    · obtain ⟨hne, hr⟩ := hsub fd r hr
      rw [← heq, (h.names fd r hr henabled).2.1] at hne
      exact hne rfl
  | kqueue =>
    rw [unregister]
    split_ifs with hqueued
    · obtain ⟨k, hk⟩ := Nat.exists_eq_succ_of_ne_zero hqueued
      exact sound_dropSlot h hk
    rw [not_not] at hqueued
    have hqueue : ∀ c ∈ p.pollQueue, c.fiber ≠ f := by
      rintro c hc rfl
      obtain ⟨k, hk⟩ := List.mem_iff_getElem?.mp hc
      rw [(h.queued k c hk).2.2.2] at hqueued
      cases hqueued
    have hsub : ∀ key g, update p.kqueue (p.ioFd f, p.ioWrite f) none key = some g →
        key ≠ (p.ioFd f, p.ioWrite f) ∧ p.kqueue key = some g := by
      intro key g hg
      rw [update_apply] at hg
      split_ifs at hg with heq
      exact ⟨heq, hg⟩
    refine ⟨⟨fun key g hg => h.names key g (hsub key g hg).2, h.queued, h.slot⟩,
      fun key hkey => ?_, hqueue⟩
    obtain ⟨hne, hkey⟩ := hsub key f hkey
    exact hne (h.names key f hkey).2.1.symm

theorem sound_disarm (h : Sound b p) (f : F) :
    Sound b (p.disarm b f) ∧ Unnamed b (p.disarm b f) f := by
  obtain ⟨hsound, hun⟩ := sound_unregister h f
  have hsame : SameTables (p.unregister b f) (p.disarm b f) := ⟨rfl, rfl, rfl, rfl, rfl, rfl⟩
  exact ⟨sound_unarmed hsound hun hsame rfl, hun.same hsame⟩

omit [DecidableEq F] in
/-- A delivery resumes the fiber that the registration names, which is armed. -/
theorem sound_event (h : Sound b p) (hevent : p.event b fd write = some (f, p')) :
    Sound b p' ∧ Unnamed b p' f ∧ p.ioArmed f = true ∧ p.ioFd f = fd ∧
      p.ioWrite f = write := by
  cases b with
  | epoll =>
    rw [event] at hevent
    cases hr : p.epoll fd with
    | none =>
      rw [hr] at hevent
      cases hevent
    | some r =>
      rw [hr] at hevent
      dsimp only at hevent
      split_ifs at hevent with hfires
      obtain ⟨rfl, rfl⟩ := Prod.mk.inj (Option.some.inj hevent)
      obtain ⟨harmed, hfd, hwrite⟩ := h.names fd r hr hfires.1
      have hsub : ∀ fd' r', update p.epoll fd (some { r with enabled := false }) fd' = some r' →
          r'.enabled = true → fd' ≠ fd ∧ p.epoll fd' = some r' := by
        intro fd' r' hr' henabled
        rw [update_apply] at hr'
        split_ifs at hr' with heq
        · obtain rfl := Option.some.inj hr'
          cases henabled
        · exact ⟨heq, hr'⟩
      refine ⟨⟨fun fd' r' hr' henabled => ?_⟩, fun fd' r' hr' henabled heq => ?_, harmed, hfd,
        hwrite.trans hfires.2⟩
      · exact h.names fd' r' (hsub fd' r' hr' henabled).2 henabled
      · obtain ⟨hne, hr'⟩ := hsub fd' r' hr' henabled
        rw [← (h.names fd' r' hr' henabled).2.1, heq, hfd] at hne
        exact hne rfl
  | kqueue =>
    rw [event] at hevent
    obtain ⟨g, hg, heq⟩ := Option.map_eq_some_iff.mp hevent
    obtain ⟨rfl, rfl⟩ := Prod.mk.inj heq
    obtain ⟨harmed, hkey, hqueued⟩ := h.names (fd, write) g hg
    have hsub : ∀ key g', update p.kqueue (fd, write) none key = some g' →
        key ≠ (fd, write) ∧ p.kqueue key = some g' := by
      intro key g' hg'
      rw [update_apply] at hg'
      split_ifs at hg' with hk
      exact ⟨hk, hg'⟩
    refine ⟨⟨fun key g' hg' => h.names key g' (hsub key g' hg').2, h.queued, h.slot⟩,
      ⟨fun key hk => ?_, ?_⟩, harmed, congrArg Prod.fst hkey, congrArg Prod.snd hkey⟩
    · obtain ⟨hne, hk⟩ := hsub key g hk
      exact hne ((h.names key g hk).2.1.symm.trans hkey)
    · rintro c hc rfl
      obtain ⟨k, hk⟩ := List.mem_iff_getElem?.mp hc
      rw [(h.queued k c hk).2.2.2] at hqueued
      cases hqueued

omit [DecidableEq F] in
theorem event_same (hevent : p.event b fd write = some (f, p')) : SameFibers p p' := by
  cases b with
  | epoll =>
    rw [event] at hevent
    cases hr : p.epoll fd with
    | none =>
      rw [hr] at hevent
      cases hevent
    | some r =>
      rw [hr] at hevent
      dsimp only at hevent
      split_ifs at hevent
      obtain ⟨-, rfl⟩ := Prod.mk.inj (Option.some.inj hevent)
      exact ⟨rfl, rfl, rfl, rfl, rfl⟩
  | kqueue =>
    rw [event] at hevent
    obtain ⟨g, -, heq⟩ := Option.map_eq_some_iff.mp hevent
    obtain ⟨-, rfl⟩ := Prod.mk.inj heq
    exact ⟨rfl, rfl, rfl, rfl, rfl⟩

theorem sound_deliver (h : Sound b p) (hun : Unnamed b p f) :
    Sound b (p.deliver f) :=
  sound_unarmed h hun ⟨rfl, rfl, rfl, rfl, rfl, rfl⟩ rfl

/-- Where the last of a list of updates wins. -/
theorem foldl_update_cases {α β γ : Type*} [DecidableEq α] (key : β → α) (val : β → γ)
    (cs : List β) (t : α → γ) (a : α) :
    (∃ c ∈ cs, key c = a ∧ cs.foldl (fun t c => update t (key c) (val c)) t a = val c) ∨
      ((∀ c ∈ cs, key c ≠ a) ∧
        cs.foldl (fun t c => update t (key c) (val c)) t a = t a) := by
  induction cs generalizing t with
  | nil => exact .inr ⟨fun c hc => absurd hc List.not_mem_nil, rfl⟩
  | cons c cs ih =>
    rw [List.foldl_cons]
    rcases ih (update t (key c) (val c)) with ⟨d, hd, hkey, heq⟩ | ⟨hnone, heq⟩
    · exact .inl ⟨d, List.mem_cons_of_mem c hd, hkey, heq⟩
    by_cases hc : key c = a
    · exact .inl ⟨c, List.mem_cons_self, hc, by rw [heq, ← hc, update_self]⟩
    · refine .inr ⟨?_, by rw [heq, update_of_ne (Ne.symm hc)]⟩
      rintro d hd
      rcases List.mem_cons.mp hd with rfl | hd
      · exact hc
      · exact hnone d hd

variable {refused : F → Bool}

/-- What the kernel has for a key was queued and taken, or was there before. -/
theorem submit_kqueue (p : Poller F) (refused : F → Bool) (key : ℤ × Bool) :
    (∃ c ∈ p.pollQueue, refused c.fiber = false ∧ (c.fd, c.write) = key ∧
        (p.submit refused).kqueue key = some c.fiber) ∨
      ((∀ c ∈ p.pollQueue, refused c.fiber = false → (c.fd, c.write) ≠ key) ∧
        (p.submit refused).kqueue key = p.kqueue key) := by
  rcases foldl_update_cases (fun c : Change F => (c.fd, c.write)) (fun c => some c.fiber)
      (p.pollQueue.filter fun c => !refused c.fiber) p.kqueue key with
    ⟨c, hc, hkey, heq⟩ | ⟨hnone, heq⟩
  · obtain ⟨hmem, hok⟩ := List.mem_filter.mp hc
    exact .inl ⟨c, hmem, by simpa using hok, hkey, heq⟩
  · refine .inr ⟨fun c hc hok => hnone c ?_, heq⟩
    exact List.mem_filter.mpr ⟨hc, by simpa using hok⟩

theorem submit_ioQueued (h : SoundKqueue p) (refused : F → Bool) (f : F) :
    (p.submit refused).ioQueued f = 0 := by
  rcases foldl_update_cases Change.fiber (fun _ => 0) p.pollQueue p.ioQueued f with
    ⟨c, -, -, heq⟩ | ⟨hnone, heq⟩
  · exact heq
  · refine heq.trans ?_
    by_contra hne
    obtain ⟨k, hk⟩ := Nat.exists_eq_succ_of_ne_zero hne
    obtain ⟨c, hc, hcf⟩ := h.slot f k hk
    exact hnone c (List.mem_of_getElem? hc) hcf

theorem sound_submit (h : SoundKqueue p) (refused : F → Bool) :
    SoundKqueue (p.submit refused) := by
  refine ⟨fun key f hf => ?_, fun k c hc => ?_, fun f k hk => ?_⟩
  · have hqueued := submit_ioQueued h refused f
    rcases submit_kqueue p refused key with ⟨c, hc, -, hkey, heq⟩ | ⟨-, heq⟩
    · rw [heq] at hf
      obtain rfl := Option.some.inj hf
      obtain ⟨k, hk⟩ := List.mem_iff_getElem?.mp hc
      obtain ⟨harmed, hfd, hwrite, -⟩ := h.queued k c hk
      exact ⟨harmed, by rw [← hkey, ← hfd, ← hwrite]; rfl, hqueued⟩
    · rw [heq] at hf
      obtain ⟨harmed, hkey, -⟩ := h.names key f hf
      exact ⟨harmed, hkey, hqueued⟩
  · cases hc
  · rw [submit_ioQueued h] at hk
    cases hk

omit [DecidableEq F] in
theorem mem_refusals {refused : F → Bool} :
    f ∈ p.refusals refused ↔ ∃ c ∈ p.pollQueue, c.fiber = f ∧ refused f = true := by
  rw [refusals, List.mem_map]
  constructor
  · rintro ⟨c, hc, rfl⟩
    obtain ⟨hmem, href⟩ := List.mem_filter.mp hc
    exact ⟨c, hmem, rfl, href⟩
  · rintro ⟨c, hc, rfl, href⟩
    exact ⟨c, List.mem_filter.mpr ⟨hc, href⟩, rfl⟩

theorem unnamed_refused (h : SoundKqueue p) (hf : f ∈ p.refusals refused) :
    Unnamed .kqueue (p.submit refused) f := by
  obtain ⟨c, hc, rfl, href⟩ := mem_refusals.mp hf
  refine ⟨fun key hkey => ?_, fun c hc => absurd hc List.not_mem_nil⟩
  rcases submit_kqueue p refused key with ⟨d, -, hok, -, heq⟩ | ⟨-, heq⟩
  · rw [heq] at hkey
    rw [Option.some.inj hkey, href] at hok
    cases hok
  · rw [heq] at hkey
    obtain ⟨k, hk⟩ := List.mem_iff_getElem?.mp hc
    have hslot := (h.queued k c hk).2.2.2
    rw [(h.names key c.fiber hkey).2.2] at hslot
    cases hslot

theorem sound_reset (h : Sound b p) (hf : p.ioArmed f = false) :
    Sound b (p.reset f) := by
  have hne : ∀ g, p.ioArmed g = true → g ≠ f := by
    rintro g hg rfl
    rw [hf] at hg
    cases hg
  cases b with
  | epoll =>
    refine ⟨fun fd r hr henabled => ?_⟩
    obtain ⟨harmed, hfd, hwrite⟩ := h.names fd r hr henabled
    simp only [reset, update_of_ne (hne _ harmed)]
    exact ⟨harmed, hfd, hwrite⟩
  | kqueue =>
    refine ⟨fun key g hg => ?_, fun k c hc => ?_, fun g k hk => ?_⟩
    · obtain ⟨harmed, hkey, hqueued⟩ := h.names key g hg
      simp only [reset, update_of_ne (hne _ harmed)]
      exact ⟨harmed, hkey, hqueued⟩
    · obtain ⟨harmed, hfd, hwrite, hqueued⟩ := h.queued k c hc
      simp only [reset, update_of_ne (hne _ harmed)]
      exact ⟨harmed, hfd, hwrite, hqueued⟩
    · have hgf : g ≠ f := by
        rintro rfl
        simp [reset] at hk
      simp only [reset, update_of_ne hgf] at hk ⊢
      exact h.slot g k hk

end Sound

section Registered

/-- The kernel has a registration that can fire for what the fiber waits for, and it names
the fiber. -/
def InKernel (b : Netpoll) (p : Poller F) (f : F) : Prop :=
  match b with
  | .epoll => p.epoll (p.ioFd f) = some ⟨f, p.ioWrite f, true⟩
  | .kqueue => p.kqueue (p.ioFd f, p.ioWrite f) = some f

/-- With kqueue the registration may still be queued for the next wait. -/
def Registered (b : Netpoll) (p : Poller F) (f : F) : Prop :=
  InKernel b p f ∨ (b = .kqueue ∧ ⟨p.ioFd f, p.ioWrite f, f⟩ ∈ p.pollQueue)

/-- Every armed fiber is named by a registration, or a queued one. -/
def AllRegistered (b : Netpoll) (p : Poller F) : Prop :=
  ∀ f, p.ioArmed f = true → Registered b p f

/-- What goes when the fiber is disarmed is no registration of another armed fiber. -/
def Alone (b : Netpoll) (p : Poller F) (f : F) : Prop :=
  match b with
  | .epoll => ∀ g, g ≠ f → p.ioArmed g = true → p.ioFd g ≠ p.ioFd f
  | .kqueue => p.ioQueued f = 0 → ∀ g, g ≠ f → p.ioArmed g = true → p.ioQueued g = 0 →
      (p.ioFd g, p.ioWrite g) ≠ (p.ioFd f, p.ioWrite f)

variable {b : Netpoll} {p p' : Poller F} {f g : F} {fd : ℤ} {write : Bool}

omit [DecidableEq F] in
theorem InKernel.same (h : InKernel b p f) (hsame : SameTables p p') :
    InKernel b p' f := by
  cases b with
  | epoll =>
    rw [InKernel, hsame.ioFd, hsame.ioWrite, hsame.epoll]
    exact h
  | kqueue =>
    rw [InKernel, hsame.ioFd, hsame.ioWrite, hsame.kqueue]
    exact h

omit [DecidableEq F] in
theorem Registered.same (h : Registered b p f) (hsame : SameTables p p') :
    Registered b p' f := by
  rw [Registered] at h ⊢
  rw [hsame.ioFd, hsame.ioWrite, hsame.pollQueue]
  exact h.imp_left fun hker => hker.same hsame

omit [DecidableEq F] in
/-- The registration fires when its descriptor is ready. -/
theorem event_of_inKernel (h : InKernel b p f) :
    ∃ p', p.event b (p.ioFd f) (p.ioWrite f) = some (f, p') := by
  cases b with
  | epoll =>
    rw [InKernel] at h
    rw [event, h]
    exact ⟨_, if_pos ⟨rfl, rfl⟩⟩
  | kqueue =>
    rw [InKernel] at h
    rw [event, h]
    exact ⟨_, rfl⟩

/-- One fiber stops to be armed, and the others are registered. -/
theorem registered_unarmed (h : ∀ g, g ≠ f → p.ioArmed g = true → Registered b p g)
    (hsame : SameTables p p') (harmed : p'.ioArmed = update p.ioArmed f false) :
    AllRegistered b p' := by
  intro g hg
  rw [harmed, update_apply] at hg
  split_ifs at hg with hgf
  exact (h g hgf hg).same hsame

theorem registered_beginWait (h : AllRegistered b p)
    (hfree : b = .epoll → ∀ g, p.ioArmed g = true → p.ioFd g ≠ fd)
    (hbegin : p.beginWait b f fd write = some p') :
    AllRegistered b p' := by
  intro g hg
  cases b with
  | epoll =>
    rw [beginWait, arm_epoll] at hbegin
    obtain rfl := Option.some.inj hbegin
    left
    by_cases hgf : g = f
    · rw [hgf]
      simp [InKernel]
    · simp only [update_of_ne hgf] at hg
      have hker := (h g hg).resolve_right (by simp)
      simp only [InKernel, update_of_ne hgf, update_of_ne (hfree rfl g hg)]
      exact hker
  | kqueue =>
    rw [beginWait, arm] at hbegin
    obtain rfl := Option.some.inj hbegin
    by_cases hgf : g = f
    · right
      rw [hgf]
      simp
    · simp only [update_of_ne hgf] at hg
      simp only [Registered, InKernel, update_of_ne hgf]
      exact (h g hg).imp_right fun hqueued =>
        ⟨trivial, List.mem_append_left _ hqueued.2⟩

omit [DecidableEq F] in
/-- Under its key the kernel has the registration of an armed fiber. -/
theorem alone_of_armed (hs : Sound b p) (h : AllRegistered b p) (hf : p.ioArmed f = true) :
    Alone b p f := by
  cases b with
  | epoll =>
    intro g hgf hg heq
    have hkf := (h f hf).resolve_right (by simp)
    have hkg := (h g hg).resolve_right (by simp)
    rw [InKernel, ← heq] at hkf
    rw [InKernel, hkf] at hkg
    exact hgf (congrArg Registration.fiber (Option.some.inj hkg)).symm
  | kqueue =>
    have hker : ∀ g, p.ioArmed g = true → p.ioQueued g = 0 → InKernel .kqueue p g := by
      intro g hg hqueued
      refine (h g hg).resolve_right ?_
      rintro ⟨-, hmem⟩
      obtain ⟨k, hk⟩ := List.mem_iff_getElem?.mp hmem
      rw [(hs.queued k _ hk).2.2.2] at hqueued
      cases hqueued
    intro hfq g hgf hg hgq heq
    have hkf := hker f hf hfq
    have hkg := hker g hg hgq
    rw [InKernel, ← heq] at hkf
    rw [InKernel, hkf] at hkg
    exact hgf (Option.some.inj hkg).symm

theorem mem_dropSlot {c : Change F} {k : ℕ} (hk : p.ioQueued f = k + 1)
    (hslot : ∃ d, p.pollQueue[k]? = some d ∧ d.fiber = f) (hc : c ∈ p.pollQueue)
    (hcf : c.fiber ≠ f) :
    c ∈ (p.dropSlot f).pollQueue := by
  obtain ⟨d, hd, hdf⟩ := hslot
  obtain ⟨j, hj⟩ := List.mem_iff_getElem?.mp hc
  have hlt := (List.getElem?_eq_some_iff.mp hj).1
  have hklt := (List.getElem?_eq_some_iff.mp hd).1
  have hjk : j ≠ k := by
    rintro rfl
    rw [hd] at hj
    exact hcf (Option.some.inj hj ▸ hdf)
  have hsub : p.ioQueued f - 1 = k := by
    rw [hk]
    rfl
  rw [dropSlot, hsub]
  by_cases hlast : k = p.pollQueue.length - 1
  · rw [if_pos hlast]
    refine List.mem_iff_getElem?.mpr ⟨j, ?_⟩
    rw [List.getElem?_take, if_pos (by omega), hj]
  · rw [if_neg hlast, List.getElem?_eq_getElem (by omega)]
    by_cases hjlast : j = p.pollQueue.length - 1
    · refine List.mem_iff_getElem?.mpr ⟨k, ?_⟩
      dsimp only
      rw [List.getElem?_take, if_pos (by omega), List.getElem?_set_self hklt,
        ← List.getElem?_eq_getElem, ← hjlast, hj]
    · refine List.mem_iff_getElem?.mpr ⟨j, ?_⟩
      dsimp only
      rw [List.getElem?_take, if_pos (by omega), List.getElem?_set_ne (Ne.symm hjk), hj]

theorem registered_disarm (hs : Sound b p) (h : AllRegistered b p) (halone : Alone b p f) :
    AllRegistered b (p.disarm b f) := by
  refine registered_unarmed (p := p.unregister b f) (fun g hgf hg => ?_)
    ⟨rfl, rfl, rfl, rfl, rfl, rfl⟩ rfl
  cases b with
  | epoll =>
    left
    have hker := (h g hg).resolve_right (by simp)
    rw [unregister]
    simp only [InKernel, update_of_ne (halone g hgf hg)]
    exact hker
  | kqueue =>
    rw [(unregister_same _ p f).ioArmed] at hg
    have hreg := h g hg
    rw [unregister]
    split_ifs with hqueued
    · obtain ⟨k, hk⟩ := Nat.exists_eq_succ_of_ne_zero hqueued
      obtain ⟨hfibers, hkq⟩ := dropSlot_frame p f
      rw [Registered, InKernel, hkq, hfibers.ioFd, hfibers.ioWrite]
      refine hreg.imp_right fun hmem => ⟨rfl, ?_⟩
      exact mem_dropSlot hk (hs.slot f k hk) hmem.2 hgf
    · rw [not_not] at hqueued
      refine hreg.imp_left fun hker => ?_
      have hapart := halone hqueued g hgf hg (hs.names _ g hker).2.2
      simp only [InKernel, update_of_ne hapart]
      exact hker

omit [DecidableEq F] in
theorem registered_event (hs : Sound b p) (h : AllRegistered b p)
    (hevent : p.event b fd write = some (f, p')) :
    ∀ g, g ≠ f → p'.ioArmed g = true → Registered b p' g := by
  intro g hgf hg
  obtain ⟨-, -, hf, hfd, hwrite⟩ := sound_event hs hevent
  have halone := alone_of_armed hs h hf
  cases b with
  | epoll =>
    rw [event] at hevent
    cases hr : p.epoll fd with
    | none =>
      rw [hr] at hevent
      cases hevent
    | some r =>
      rw [hr] at hevent
      dsimp only at hevent
      split_ifs at hevent with hfires
      obtain ⟨rfl, rfl⟩ := Prod.mk.inj (Option.some.inj hevent)
      have hker := (h g hg).resolve_right (by simp)
      have hapart := halone g hgf hg
      rw [hfd] at hapart
      left
      simp only [InKernel, update_of_ne hapart]
      exact hker
  | kqueue =>
    rw [event] at hevent
    obtain ⟨r, hr, heq⟩ := Option.map_eq_some_iff.mp hevent
    obtain ⟨rfl, rfl⟩ := Prod.mk.inj heq
    refine (h g hg).imp_left fun hker => ?_
    have hapart := halone (hs.names _ r hr).2.2 g hgf hg (hs.names _ g hker).2.2
    rw [hfd, hwrite] at hapart
    simp only [InKernel, update_of_ne hapart]
    exact hker

/-- Once the queue is submitted, the kernel has the registrations of the armed fibers. -/
theorem inKernel_submit {refused : F → Bool} (hs : SoundKqueue p) (h : AllRegistered .kqueue p)
    (hapart : ∀ f g, p.ioArmed f = true → p.ioArmed g = true → f ∉ p.refusals refused →
      g ∉ p.refusals refused → p.ioFd f = p.ioFd g → p.ioWrite f = p.ioWrite g → f = g)
    (hf : p.ioArmed f = true)
    (hok : f ∉ p.refusals refused) :
    InKernel .kqueue (p.submit refused) f := by
  rw [InKernel]
  change (p.submit refused).kqueue (p.ioFd f, p.ioWrite f) = some f
  rcases submit_kqueue p refused (p.ioFd f, p.ioWrite f) with
    ⟨c, hc, href, hkey, heq⟩ | ⟨hnone, heq⟩
  · obtain ⟨k, hk⟩ := List.mem_iff_getElem?.mp hc
    obtain ⟨harmed, hfd, hwrite, -⟩ := hs.queued k c hk
    have hcok : c.fiber ∉ p.refusals refused := by
      intro hmem
      obtain ⟨-, -, -, htrue⟩ := mem_refusals.mp hmem
      rw [href] at htrue
      cases htrue
    rw [heq, hapart f c.fiber hf harmed hok hcok (by rw [hfd]; exact (congrArg Prod.fst hkey).symm)
      (by rw [hwrite]; exact (congrArg Prod.snd hkey).symm)]
  · rw [heq]
    refine (h f hf).resolve_right ?_
    rintro ⟨-, hmem⟩
    refine hnone _ hmem ?_ rfl
    by_contra hne
    exact hok (mem_refusals.mpr ⟨_, hmem, rfl, by simpa using hne⟩)

theorem registered_reset (h : AllRegistered b p) (hf : p.ioArmed f = false) :
    AllRegistered b (p.reset f) := by
  intro g hg
  have hgf : g ≠ f := by
    rintro rfl
    simp [reset] at hg
  simp only [reset, update_of_ne hgf] at hg
  have hreg := h g hg
  cases b with
  | epoll =>
    simp only [Registered, InKernel, reset, update_of_ne hgf]
    exact hreg
  | kqueue =>
    simp only [Registered, InKernel, reset, update_of_ne hgf] at hreg ⊢
    exact hreg

end Registered

end Poller
end FiberIo
end Beans
