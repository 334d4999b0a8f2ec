import Beans.Parking.ParkInvariant

/-!
# Notifications are not lost

A notifier marks waiters of its address only, and reports how many; a marked
waiter answers 1; a waiter whose value is gone is not left in the condition
wait by a notifier of all.  A condition wait that reports its timeout after a
notifier marked the waiter makes the wait answer 0 although it took the
notification.

**Results.**
* `parkingLot_losesNoNotify`: every run in which no timeout is reported to a marked waiter.
* `parkingLot_losesNotify`: a run with one.
-/

namespace Beans
namespace Parking

open StepSystem

variable {T : Type*} [DecidableEq T]

/-- The step marks the thread's node. -/
def NewlyMarked (s s' : ParkState T) (t : T) : Prop :=
  (s.node t).signalled = false ∧ (s'.node t).signalled = true

/-- What a notifier that reports `woken` has done. -/
structure Notified (s s' : ParkState T) (address : UInt64) (all : Bool)
    (woken : ℕ) : Prop where
  onAddress : ∀ t, NewlyMarked s s' t → WaitsOn s t address
  count : Set.ncard {t | NewlyMarked s s' t} = woken
  one : all = false → woken ≤ 1
  every : all = true → ∀ t, WaitsOn s t address →
    (s'.node t).signalled = true
  nobody : woken = 0 → ∀ t, WaitsOn s t address → (s.node t).signalled = true

/-- A thread whose node is marked: it is not left in the condition wait, or it
has answered 1. -/
def TookNotification (s : ParkState T) (t : T) : Prop :=
  (∃ c, (s.node t).signalled = true ∧
    (s.pc t = .looping c ∨ s.pc t = .parked c true)) ∨
  s.pc t = .returned 1 true

/-- Some steps make the thread answer 1. -/
def CanAnswer (s : ParkState T) (t : T) : Prop :=
  ∃ acts s' m, run parkStep acts s = some s' ∧ s'.pc t = .returned 1 m

/-- The parking lot loses no notification. -/
structure ParkSafe (s : ParkState T) : Prop where
  nodup : ∀ b, (s.bucket b).nodes.Nodup
  listed : ∀ t b, t ∈ (s.bucket b).nodes ↔
    ∃ c, (s.pc t).waiting = some c ∧ c.home = b
  notified : ∀ address all s' woken,
    beansAtomicNotify address all s = some (s', woken) →
      Notified s s' address all woken
  answers : ∀ t n m, s.pc t = .returned n m →
    (n = 0 ∨ n = 1) ∧ (m = true → n = 1)
  /-- A marked waiter answers 1, whatever the others do. -/
  marked : ∀ t c s', (s.pc t).waiting = some c →
    (s.node t).signalled = true →
    Reachable parkStep (fun x => x = s)
      (fun act x => ParkAllowed act x ∧ ∀ d, act ≠ .call t d) s' →
    TookNotification s' t
  /-- A waiter that is marked, or whose value is gone, can go on to answer. -/
  served : ∀ t c, (s.pc t).waiting = some c →
    ((s.node t).signalled = true ∨ s.value c.address ≠ c.expected) →
    CanAnswer s t
  /-- While the value stays away after a notifier of all, every waiter for it
  is released from the condition wait. -/
  unparked : ∀ address value s₁ s₂ woken,
    beansAtomicNotify address true s = some (s₁, woken) →
    Reachable parkStep (fun x => x = s₁)
      (fun act x => ParkAllowed act x ∧ x.value address ≠ value) s₂ →
    ∀ t c, s₂.pc t = .parked c false → c.address = address →
      c.expected ≠ value

variable {s s' : ParkState T}

omit [DecidableEq T] in
theorem ParkInv.waitsOn_iff (h : ParkInv s) {t : T} {address : UInt64} :
    WaitsOn s t address ↔
      t ∈ (s.bucket (beansParkBucket address)).nodes ∧
        (s.node t).address = address := by
  constructor
  · rintro ⟨c, hc, rfl⟩
    exact ⟨h.linked hc, h.address t c hc⟩
  · rintro ⟨hmem, haddress⟩
    obtain ⟨c, hc, -⟩ := (h.listed t _).mp hmem
    exact ⟨c, hc, (h.address t c hc).symm.trans haddress⟩

omit [DecidableEq T] in
theorem ParkInv.mem_markable_iff (h : ParkInv s) {t : T} {address : UInt64} :
    t ∈ markable address s.node
        (s.bucket (beansParkBucket address)).nodes ↔
      WaitsOn s t address ∧ (s.node t).signalled = false := by
  rw [mem_markable, h.waitsOn_iff, and_assoc]

theorem NotifyStep.newlyMarked_iff {address : UInt64} {all : Bool}
    {woken : ℕ} {l : List T} (hs : NotifyStep s s' address all woken l)
    {t : T} : NewlyMarked s s' t ↔ t ∈ l := by
  rw [NewlyMarked, hs.signalled]
  constructor
  · rintro ⟨hbefore, ht | hmarked⟩
    · exact ht
    · rw [hbefore] at hmarked
      cases hmarked
  · intro ht
    exact ⟨(Parking.mem_markable.mp (hs.mem_markable ht)).2.2, .inl ht⟩

/-- A walk of the bucket marks waiters of the address, one or all of them. -/
theorem NotifyStep.notified {address : UInt64} {all : Bool} {woken : ℕ}
    {l : List T} (h : ParkInv s) (hs : NotifyStep s s' address all woken l) :
    Notified s s' address all woken := by
  have hl := hs.chosen_eq
  have hnodup : l.Nodup := by
    have hm : (markable address s.node
        (s.bucket (beansParkBucket address)).nodes).Nodup :=
      (h.nodup _).filter _
    rw [hl]
    cases all with
    | true => exact hm
    | false => exact hm.sublist (List.take_sublist _ _)
  constructor
  case onAddress =>
    intro t ht
    exact (h.mem_markable_iff.mp
      (hs.mem_markable (hs.newlyMarked_iff.mp ht))).1
  case count =>
    have hset : {t | NewlyMarked s s' t} = (l.toFinset : Set T) := by
      ext t
      rw [List.coe_toFinset]
      exact hs.newlyMarked_iff
    rw [hset, Set.ncard_coe_finset, List.toFinset_card_of_nodup hnodup,
      hs.woken_eq]
  case one =>
    rintro rfl
    rw [hs.woken_eq, hl]
    exact List.length_take_le 1 _
  case every =>
    rintro rfl t ht
    rw [hs.signalled]
    by_cases hmarked : (s.node t).signalled = true
    · exact .inr hmarked
    · left
      rw [hl]
      exact h.mem_markable_iff.mpr ⟨ht, Bool.eq_false_iff.mpr hmarked⟩
  case nobody =>
    intro hnone t ht
    by_contra hunmarked
    have hmem := h.mem_markable_iff.mpr ⟨ht, Bool.eq_false_iff.mpr hunmarked⟩
    have hnil : l = [] := by
      rw [hs.woken_eq] at hnone
      exact List.length_eq_zero_iff.mp hnone
    rw [hl] at hnil
    cases all with
    | true =>
      have hempty : markable address s.node
          (s.bucket (beansParkBucket address)).nodes = [] := hnil
      rw [hempty] at hmem
      cases hmem
    | false =>
      rcases List.take_eq_nil_iff.mp hnil with hzero | hempty
      · cases hzero
      · rw [hempty] at hmem
        cases hmem

/-- A step of another thread leaves the mark. -/
theorem TookNotification.other {t u : T} {b : UInt64} {pc : WaitPc}
    {node : BParkNode} {x : BParkBucket T} (h : TookNotification s t)
    (hs : ThreadStep s s' u b pc node x) (hne : t ≠ u) :
    TookNotification s' t := by
  rw [TookNotification, hs.node_other hne, hs.pc_other hne]
  exact h

theorem TookNotification.own {act : ParkAction T} {t : T} {b : UInt64}
    {pc : WaitPc} {node : BParkNode} {x : BParkBucket T}
    (h : TookNotification s t) (hallowed : ParkAllowed act s)
    (hcall : ∀ d, act ≠ .call t d) (hm : OwnMove s t act b pc node x)
    (hs : ThreadStep s s' t b pc node x) : TookNotification s' t := by
  rcases h with ⟨c, hmarked, hpc⟩ | hpc
  · cases hm with
    | away hold =>
      rcases hpc with hpc | hpc <;> (rw [hpc] at hold; cases hold)
    | link d hold =>
      rcases hpc with hpc | hpc <;> (rw [hpc] at hold; cases hold)
    | wait d hold hunmarked =>
      rw [hmarked] at hunmarked
      cases hunmarked
    | resume d r hold =>
      refine .inl ⟨d, ?_, .inl hs.pc_self⟩
      rw [hs.node_self]
      exact hmarked
    | leave d hold =>
      right
      rw [hs.pc_self, hmarked]
    | timeOut d r hold =>
      rw [hallowed t rfl] at hmarked
      cases hmarked
  · cases hm with
    | away hold hnew hanswer hkept =>
      exact absurd hpc (hkept hcall 1 true)
    | link d hold => simp [hold] at hpc
    | wait d hold => simp [hold] at hpc
    | resume d r hold => simp [hold] at hpc
    | leave d hold => simp [hold] at hpc
    | timeOut d r hold => simp [hold] at hpc

theorem TookNotification.notify {address : UInt64} {all : Bool} {woken : ℕ}
    {l : List T} {t : T} (h : TookNotification s t)
    (hs : NotifyStep s s' address all woken l) : TookNotification s' t := by
  rcases h with ⟨c, hmarked, hpc⟩ | hpc
  · refine .inl ⟨c, (hs.signalled t).mpr (.inr hmarked), ?_⟩
    rcases hpc with hpc | hpc
    · exact .inl ((hs.pc_iff (by simp)).mpr hpc)
    · exact .inr (hs.stays_released hpc)
  · exact .inr ((hs.pc_iff (by simp)).mpr hpc)

theorem TookNotification.step {act : ParkAction T} {t : T}
    (hinv : ParkInv s) (h : TookNotification s t)
    (hallowed : ParkAllowed act s) (hcall : ∀ d, act ≠ .call t d)
    (hs : parkStep act s = some s') : TookNotification s' t := by
  rcases step_cases hinv hs with ⟨a, v, -, rfl⟩ |
    ⟨u, b, pc, node, x, -, hm, hstep⟩ | ⟨a, all, woken, l, -, hn⟩
  · exact h
  · by_cases hne : t = u
    · subst hne
      exact h.own hallowed hcall hm hstep
    · exact h.other hstep hne
  · exact h.notify hn

omit [DecidableEq T] in
theorem ParkInv.tookNotification (h : ParkInv s) {t : T} {c : WaitCall}
    (hc : (s.pc t).waiting = some c) (hmarked : (s.node t).signalled = true) :
    TookNotification s t := by
  refine .inl ⟨c, hmarked, ?_⟩
  cases hpc : s.pc t with
  | looping d =>
    rw [hpc] at hc
    cases hc
    exact .inl rfl
  | parked d r =>
    obtain rfl := h.released t d r hpc hmarked
    rw [hpc] at hc
    cases hc
    exact .inr rfl
  | _ =>
    rw [hpc] at hc
    cases hc

/-- A marked waiter answers 1, whatever the others do. -/
theorem ParkInv.marked (h : ParkInv s) {t : T} {c : WaitCall} {s₂ : ParkState T}
    (hc : (s.pc t).waiting = some c) (hmarked : (s.node t).signalled = true)
    (hrun : Reachable parkStep (fun x => x = s)
      (fun act x => ParkAllowed act x ∧ ∀ d, act ≠ .call t d) s₂) :
    TookNotification s₂ t := by
  have hboth : ParkInv s₂ ∧ TookNotification s₂ t := by
    refine hrun.invariant (P := fun x => ParkInv x ∧ TookNotification x t)
      ?_ ?_
    · rintro x rfl
      exact ⟨h, h.tookNotification hc hmarked⟩
    · rintro x act x' ⟨hx, ht⟩ ⟨hallowed, hcall⟩ hs
      exact ⟨hx.step hallowed hs, ht.step hx hallowed hcall hs⟩
  exact hboth.2

/-- Every waiter for the value on the address is released. -/
def Unparked (s : ParkState T) (address value : UInt64) : Prop :=
  ∀ t c, s.pc t = .parked c false → c.address = address → c.expected ≠ value

theorem Unparked.step {act : ParkAction T} {address value : UInt64}
    (hinv : ParkInv s) (h : Unparked s address value)
    (hvalue : s.value address ≠ value) (hs : parkStep act s = some s') :
    Unparked s' address value := by
  intro t c hpc haddress
  rcases step_cases hinv hs with ⟨a, v, -, rfl⟩ |
    ⟨u, b, pc, node, x, -, hm, hstep⟩ | ⟨a, all, woken, l, -, hn⟩
  · exact h t c hpc haddress
  · by_cases hne : t = u
    · subst hne
      rw [hstep.pc_self] at hpc
      subst hpc
      cases hm with
      | away hold hnew => cases hnew
      | wait _ hold hunmarked hequal =>
        intro heq
        rw [haddress, heq] at hequal
        exact hvalue hequal
    · rw [hstep.pc_other hne] at hpc
      exact h t c hpc haddress
  · rcases hn.parked hpc with hr | ⟨-, hold⟩
    · cases hr
    · exact h t c hold haddress

theorem NotifyStep.unparked {address value : UInt64} {woken : ℕ}
    {l : List T} (hinv : ParkInv s)
    (hs : NotifyStep s s' address true woken l) :
    Unparked s' address value := by
  intro t c hpc haddress
  have hwaits : WaitsOn s t address :=
    ⟨c, by rw [← hs.waiting_eq, hpc]; rfl, haddress⟩
  have hmarked := (hs.notified hinv).every rfl t hwaits
  cases (hinv.notify hs).released t c false hpc hmarked

theorem CanAnswer.of_step {act : ParkAction T} {t : T}
    (hs : parkStep act s = some s') (h : CanAnswer s' t) : CanAnswer s t := by
  obtain ⟨acts, s₂, m, hrun, hpc⟩ := h
  refine ⟨act :: acts, s₂, m, ?_, hpc⟩
  rw [run, hs]
  exact hrun

/-- At the loop's condition the thread answers at once. -/
theorem canAnswer_looping {t : T} {c : WaitCall} (hpc : s.pc t = .looping c)
    (hdue : (s.node t).signalled = true ∨ s.value c.address ≠ c.expected) :
    CanAnswer s t := by
  have hleaves : ¬((s.node t).signalled = false ∧
      s.value c.address = c.expected) := by
    rintro ⟨hunmarked, hvalue⟩
    rcases hdue with hmarked | hmoved
    · rw [hunmarked] at hmarked
      cases hmarked
    · exact hmoved hvalue
  refine ⟨[.loop t], waitUnlink t c 1 s, (s.node t).signalled, ?_,
    Function.update_self _ _ _⟩
  simp only [run, parkStep, waitLoop, hpc, if_neg hleaves]
  rfl

/-- In the condition wait, with the mutex free. -/
theorem canAnswer_parked {t : T} {c : WaitCall} {r : Bool}
    (hpc : s.pc t = .parked c r) (hfree : (s.bucket c.home).holder = none)
    (hdue : (s.node t).signalled = true ∨ s.value c.address ≠ c.expected) :
    CanAnswer s t := by
  have hstep : parkStep (.resume t false) s =
      some ((s.setBucket c.home ⟨some t, (s.bucket c.home).nodes⟩).setPc t
        (.looping c)) := by
    simp [parkStep, waitResume, hpc, hfree]
  refine .of_step hstep (canAnswer_looping ?_ hdue)
  exact Function.update_self _ _ _

/-- The thread that holds the mutex gives it back in its next step. -/
theorem loop_frees {u : T} {d : WaitCall} (hpc : s.pc u = .looping d) :
    ∃ s' pc x, parkStep (.loop u) s = some s' ∧ x.holder = none ∧
      ThreadStep s s' u d.home pc (s.node u) x := by
  by_cases hstay : (s.node u).signalled = false ∧
      s.value d.address = d.expected
  · refine ⟨_, .parked d false, ⟨none, (s.bucket d.home).nodes⟩, ?_, rfl,
      threadStep_setBucket s u d.home _ _⟩
    simp only [parkStep, waitLoop, hpc, if_pos hstay]
  · refine ⟨_, .returned 1 (s.node u).signalled,
      ⟨none, (s.bucket d.home).nodes.erase u⟩, ?_, rfl,
      threadStep_setBucket s u d.home _ _⟩
    simp only [parkStep, waitLoop, hpc, if_neg hstay]
    rfl

theorem ParkInv.served (h : ParkInv s) {t : T} {c : WaitCall}
    (hc : (s.pc t).waiting = some c)
    (hdue : (s.node t).signalled = true ∨ s.value c.address ≠ c.expected) :
    CanAnswer s t := by
  cases hpc : s.pc t with
  | looping d =>
    rw [hpc] at hc
    cases hc
    exact canAnswer_looping hpc hdue
  | parked d r =>
    rw [hpc] at hc
    cases hc
    cases hheld : (s.bucket c.home).holder with
    | none => exact canAnswer_parked hpc hheld hdue
    | some u =>
      obtain ⟨d, hd, hhome⟩ := (h.held u c.home).mp hheld
      obtain ⟨s', pc, x, hs, hx, hstep⟩ := loop_frees hd
      have hne : t ≠ u := by
        rintro rfl
        rw [hpc] at hd
        cases hd
      refine .of_step hs (canAnswer_parked (c := c) (r := r) ?_ ?_ ?_)
      · rw [hstep.pc_other hne, hpc]
      · rw [← hhome, hstep.bucket_self, hx]
      · rw [hstep.node_other hne, hstep.value_eq]
        exact hdue
  | _ =>
    rw [hpc] at hc
    cases hc

theorem ParkInv.parkSafe (h : ParkInv s) : ParkSafe s where
  nodup := h.nodup
  listed := h.listed
  notified address all s' woken hs := by
    obtain ⟨l, hl⟩ := notify_cases h hs
    exact hl.notified h
  answers := h.answer
  marked t c s' hc hmarked hrun := h.marked hc hmarked hrun
  served t c hc hdue := h.served hc hdue
  unparked address value s₁ s₂ woken hs hrun := by
    obtain ⟨l, hl⟩ := notify_cases h hs
    have hboth : ParkInv s₂ ∧ Unparked s₂ address value := by
      refine hrun.invariant
        (P := fun x => ParkInv x ∧ Unparked x address value) ?_ ?_
      · rintro x rfl
        exact ⟨h.notify hl, hl.unparked h⟩
      · rintro x act x' ⟨hx, hu⟩ ⟨hallowed, hvalue⟩ hstep
        exact ⟨hx.step hallowed hstep, hu.step hx hvalue hstep⟩
    exact hboth.2

/-- Every run in which no timeout is reported to a marked waiter loses no
notification. -/
theorem parkingLot_losesNoNotify
    (h : Reachable parkStep parkInit ParkAllowed s) : ParkSafe s := by
  have hinv : ParkInv s := h.invariant (fun _ h₀ => ParkInv.init h₀)
    fun _ _ _ hx hallowed hs => hx.step hallowed hs
  exact hinv.parkSafe

/-- Cells that hold zero, and no waiter. -/
def parkStart : ParkState Bool where
  value _ := 0
  bucket _ := ⟨none, []⟩
  node _ := ⟨0, false⟩
  pc _ := .outside

/-- A wait for the zero at the address 64, for a microsecond. -/
def waitZero : WaitCall := ⟨64, 0, 1000, true⟩

/-- Both threads park, one after the other, and one is notified. -/
def notifiedRun : List (ParkAction Bool) :=
  [.call true waitZero, .enter true, .lock true, .loop true,
    .call false waitZero, .enter false, .lock false, .loop false,
    .notify 64 false]

theorem parkStart_init : parkInit parkStart := ⟨fun _ => rfl, fun _ => rfl⟩

/-- The notified waiter answers 1. -/
theorem parkingLot_losesNoNotify_notified :
    ∃ s, run parkStep (notifiedRun ++ [.resume false false, .loop false])
        parkStart = some s ∧ s.pc false = .returned 1 true ∧ ParkSafe s := by
  have hrun : ∃ s,
      run parkStep (notifiedRun ++ [.resume false false, .loop false])
        parkStart = some s ∧ s.pc false = .returned 1 true := ⟨_, rfl, rfl⟩
  obtain ⟨s, hs, hpc⟩ := hrun
  have hreach : Reachable parkStep parkInit ParkAllowed s := by
    refine Reachable.runAllowed _ (.start parkStart_init) ?_ hs
    intro act hact x t ht
    subst ht
    simp [notifiedRun] at hact
  exact ⟨s, hs, hpc, parkingLot_losesNoNotify hreach⟩

/-- The condition wait reports its timeout to the notified waiter: it answers
0, and the other waiter goes back to its condition wait. -/
theorem parkingLot_losesNotify :
    ∃ s : ParkState Bool, Reachable parkStep parkInit anyStep s ∧
      s.pc false = .returned 0 true ∧ s.pc true = .parked waitZero false ∧
      (s.node true).signalled = false ∧ ¬ParkSafe s := by
  have hrun : ∃ s, run parkStep (notifiedRun ++ [.resume false true,
        .resume true false, .loop true]) parkStart = some s ∧
      s.pc false = .returned 0 true ∧ s.pc true = .parked waitZero false ∧
      (s.node true).signalled = false := ⟨_, rfl, rfl, rfl, rfl⟩
  obtain ⟨s, hs, hpc, hother, hunmarked⟩ := hrun
  refine ⟨s, Reachable.run _ (.start parkStart_init) hs, hpc, hother,
    hunmarked, fun hsafe => ?_⟩
  exact absurd ((hsafe.answers false 0 true hpc).2 rfl) (by decide)

end Parking
end Beans
