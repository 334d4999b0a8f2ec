import Beans.Parking.ParkingLot

/-!
# The invariant of the parking lot

A bucket's list is that of the threads that wait on one of its addresses, the
owner of its mutex is the thread at the loop's condition, and a marked waiter
has been released by a broadcast.  A marked waiter answers 1 under the condition
that no timeout is reported to it.
-/

namespace Beans
namespace Parking

open StepSystem

/-- The call of a thread whose node is linked. -/
def WaitPc.waiting : WaitPc → Option WaitCall
  | .looping c => some c
  | .parked c _ => some c
  | _ => none

/-- The thread waits on the address. -/
def WaitsOn {T : Type*} (s : ParkState T) (t : T) (address : UInt64) : Prop :=
  ∃ c, (s.pc t).waiting = some c ∧ c.address = address

structure ParkInv {T : Type*} (s : ParkState T) : Prop where
  nodup : ∀ b, (s.bucket b).nodes.Nodup
  listed : ∀ t b, t ∈ (s.bucket b).nodes ↔
    ∃ c, (s.pc t).waiting = some c ∧ c.home = b
  address : ∀ t c, (s.pc t).waiting = some c →
    (s.node t).address = c.address
  held : ∀ t b, (s.bucket b).holder = some t ↔
    ∃ c, s.pc t = .looping c ∧ c.home = b
  released : ∀ t c r, s.pc t = .parked c r →
    (s.node t).signalled = true → r = true
  answer : ∀ t n m, s.pc t = .returned n m →
    (n = 0 ∨ n = 1) ∧ (m = true → n = 1)

variable {T : Type*} [DecidableEq T]

/-- No timeout is reported to a waiter that a notifier has marked. -/
def ParkAllowed (act : ParkAction T) (s : ParkState T) : Prop :=
  ∀ t, act = .resume t true → (s.node t).signalled = false

/-- A thread's own step: its place, its node and the bucket of its call. -/
structure ThreadStep (s s' : ParkState T) (t : T) (b : UInt64) (pc : WaitPc)
    (node : BParkNode) (x : BParkBucket T) : Prop where
  pc_eq : s'.pc = Function.update s.pc t pc
  node_eq : s'.node = Function.update s.node t node
  bucket_eq : s'.bucket = Function.update s.bucket b x
  value_eq : s'.value = s.value

namespace ThreadStep

variable {s s' : ParkState T} {t : T} {b : UInt64} {pc : WaitPc}
  {node : BParkNode} {x : BParkBucket T}

theorem pc_self (h : ThreadStep s s' t b pc node x) : s'.pc t = pc := by
  rw [h.pc_eq, Function.update_self]

theorem pc_other (h : ThreadStep s s' t b pc node x) {u : T} (hu : u ≠ t) :
    s'.pc u = s.pc u := by
  rw [h.pc_eq, Function.update_of_ne hu]

theorem node_self (h : ThreadStep s s' t b pc node x) : s'.node t = node := by
  rw [h.node_eq, Function.update_self]

theorem node_other (h : ThreadStep s s' t b pc node x) {u : T} (hu : u ≠ t) :
    s'.node u = s.node u := by
  rw [h.node_eq, Function.update_of_ne hu]

theorem bucket_self (h : ThreadStep s s' t b pc node x) : s'.bucket b = x := by
  rw [h.bucket_eq, Function.update_self]

theorem bucket_other (h : ThreadStep s s' t b pc node x) {d : UInt64}
    (hd : d ≠ b) : s'.bucket d = s.bucket d := by
  rw [h.bucket_eq, Function.update_of_ne hd]

end ThreadStep

/-- The steps of a waiting thread, with its new place and node and its
bucket. -/
inductive OwnMove (s : ParkState T) (t : T) :
    ParkAction T → UInt64 → WaitPc → BParkNode → BParkBucket T → Prop
  /-- Outside the list before and after. -/
  | away {act : ParkAction T} {b : UInt64} {pc : WaitPc}
      (hold : (s.pc t).waiting = none) (hpc : pc.waiting = none)
      (hanswer : ∀ n m, pc = .returned n m → (n = 0 ∨ n = 1) ∧ m = false)
      (hcall : (∀ c, act ≠ .call t c) → ∀ n m, s.pc t ≠ .returned n m) :
      OwnMove s t act b pc (s.node t) (s.bucket b)
  | link (c : WaitCall) (hold : s.pc t = .locking c)
      (hfree : (s.bucket c.home).holder = none)
      (hvalue : s.value c.address = c.expected) :
      OwnMove s t (.lock t) c.home (.looping c) ⟨c.address, false⟩
        ⟨some t, t :: (s.bucket c.home).nodes⟩
  | wait (c : WaitCall) (hold : s.pc t = .looping c)
      (hunmarked : (s.node t).signalled = false)
      (hvalue : s.value c.address = c.expected) :
      OwnMove s t (.loop t) c.home (.parked c false) (s.node t)
        ⟨none, (s.bucket c.home).nodes⟩
  | resume (c : WaitCall) (r : Bool) (hold : s.pc t = .parked c r)
      (hfree : (s.bucket c.home).holder = none) :
      OwnMove s t (.resume t false) c.home (.looping c) (s.node t)
        ⟨some t, (s.bucket c.home).nodes⟩
  | leave (c : WaitCall) (hold : s.pc t = .looping c) :
      OwnMove s t (.loop t) c.home (.returned 1 (s.node t).signalled)
        (s.node t) ⟨none, (s.bucket c.home).nodes.erase t⟩
  | timeOut (c : WaitCall) (r : Bool) (hold : s.pc t = .parked c r)
      (hfree : (s.bucket c.home).holder = none) :
      OwnMove s t (.resume t true) c.home
        (.returned 0 (s.node t).signalled) (s.node t)
        ⟨none, (s.bucket c.home).nodes.erase t⟩

/-- A place outside the list taken by a step that touches no bucket. -/
theorem threadStep_setPc (s : ParkState T) (t : T) (b : UInt64) (pc : WaitPc) :
    ThreadStep s (s.setPc t pc) t b pc (s.node t) (s.bucket b) :=
  ⟨rfl, (Function.update_eq_self _ _).symm,
    (Function.update_eq_self _ _).symm, rfl⟩

theorem threadStep_setBucket (s : ParkState T) (t : T) (b : UInt64)
    (pc : WaitPc) (x : BParkBucket T) :
    ThreadStep s ((s.setBucket b x).setPc t pc) t b pc (s.node t) x :=
  ⟨rfl, (Function.update_eq_self _ _).symm, rfl, rfl⟩

/-- The waiting thread of a step. -/
def ParkAction.owner : ParkAction T → Option T
  | .call t _ => some t
  | .enter t => some t
  | .lock t => some t
  | .loop t => some t
  | .resume t _ => some t
  | _ => none

variable {act : ParkAction T} {nodes : List T} {c : WaitCall}

/-- What a waiting thread's step can do. -/
theorem own_cases {s s' : ParkState T} {t : T}
    (hact : act.owner = some t) (hs : parkStep act s = some s') :
    ∃ b pc node x, OwnMove s t act b pc node x ∧
      ThreadStep s s' t b pc node x := by
  cases act with
  | store a v => cases hact
  | notify a all => cases hact
  | call u c =>
    obtain rfl : u = t := Option.some_inj.mp hact
    simp only [parkStep, waitCall] at hs
    have hmove (hold : (s.pc u).waiting = none) :
        OwnMove s u (.call u c) 0 (.entered c) (s.node u) (s.bucket 0) :=
      .away hold rfl (by simp) (fun h => absurd rfl (h c))
    split at hs
    case h_3 => cases hs
    case h_1 hpc =>
      obtain rfl := Option.some_inj.mp hs
      exact ⟨_, _, _, _, hmove (by rw [hpc]; rfl), threadStep_setPc s u 0 _⟩
    case h_2 hpc =>
      obtain rfl := Option.some_inj.mp hs
      exact ⟨_, _, _, _, hmove (by rw [hpc]; rfl), threadStep_setPc s u 0 _⟩
  | enter u =>
    obtain rfl : u = t := Option.some_inj.mp hact
    simp only [parkStep, waitEnter] at hs
    split at hs
    case h_2 => cases hs
    case h_1 c hpc =>
      have hmove (pc : WaitPc) (hw : pc.waiting = none)
          (ha : ∀ n m, pc = .returned n m → (n = 0 ∨ n = 1) ∧ m = false) :
          OwnMove s u (.enter u) 0 pc (s.node u) (s.bucket 0) :=
        .away (by rw [hpc]; rfl) hw ha (by simp [hpc])
      split_ifs at hs <;> obtain rfl := Option.some_inj.mp hs
      all_goals
        refine ⟨_, _, _, _, hmove _ rfl ?_, threadStep_setPc s u 0 _⟩
        intro n m h
        cases h
      · exact ⟨.inr rfl, rfl⟩
      · exact ⟨.inl rfl, rfl⟩
      · exact ⟨.inr rfl, rfl⟩
  | lock u =>
    obtain rfl : u = t := Option.some_inj.mp hact
    simp only [parkStep, waitLock] at hs
    split at hs
    case h_2 => cases hs
    case h_1 c hpc =>
      split_ifs at hs with hheld hvalue <;> obtain rfl := Option.some_inj.mp hs
      · exact ⟨_, _, _, _,
          .away (by rw [hpc]; rfl) rfl (by simp) (by simp [hpc]),
          threadStep_setPc s u 0 _⟩
      · exact ⟨_, _, _, _,
          .link c hpc (by simpa using hheld) (not_not.mp hvalue),
          rfl, rfl, rfl, rfl⟩
  | loop u =>
    obtain rfl : u = t := Option.some_inj.mp hact
    simp only [parkStep, waitLoop] at hs
    split at hs
    case h_2 => cases hs
    case h_1 c hpc =>
      split_ifs at hs with hstay <;> obtain rfl := Option.some_inj.mp hs
      · exact ⟨_, _, _, _, .wait c hpc hstay.1 hstay.2,
          threadStep_setBucket s u c.home _ _⟩
      · exact ⟨_, _, _, _, .leave c hpc,
          threadStep_setBucket s u c.home _ _⟩
  | resume u timedOut =>
    obtain rfl : u = t := Option.some_inj.mp hact
    simp only [parkStep, waitResume] at hs
    split at hs
    case h_2 => cases hs
    case h_1 c r hpc =>
      split_ifs at hs with hheld hout htimed <;>
        obtain rfl := Option.some_inj.mp hs
      · obtain rfl : timedOut = true := hout
        exact ⟨_, _, _, _, .timeOut c r hpc (by simpa using hheld),
          threadStep_setBucket s u c.home _ _⟩
      · obtain rfl : timedOut = false := by simpa using hout
        exact ⟨_, _, _, _, .resume c r hpc (by simpa using hheld),
          threadStep_setBucket s u c.home _ _⟩

/-- The nodes a notifier may mark. -/
def markable (address : UInt64) (node : T → BParkNode) (nodes : List T) :
    List T :=
  nodes.filter fun t =>
    decide ((node t).address = address) && !(node t).signalled

/-- The nodes a notifier marks. -/
def chosen (address : UInt64) (all : Bool) (node : T → BParkNode)
    (nodes : List T) : List T :=
  if all then markable address node nodes
  else (markable address node nodes).take 1

omit [DecidableEq T] in
theorem mem_markable {address : UInt64} {node : T → BParkNode}
    {t : T} : t ∈ markable address node nodes ↔
      t ∈ nodes ∧ (node t).address = address ∧ (node t).signalled = false := by
  simp [markable]

omit [DecidableEq T] in
theorem mem_markable_of_chosen {address : UInt64} {all : Bool}
    {node : T → BParkNode} {t : T}
    (h : t ∈ chosen address all node nodes) :
    t ∈ markable address node nodes := by
  cases all with
  | true => exact h
  | false => exact List.mem_of_mem_take h

/-- The nodes after those of a list are marked. -/
def markAll (l : List T) (node : T → BParkNode) : T → BParkNode := fun t =>
  if t ∈ l then ⟨(node t).address, true⟩ else node t

theorem markable_update {address : UInt64} {node : T → BParkNode}
    {t : T} {x : BParkNode} (ht : t ∉ nodes) :
    markable address (Function.update node t x) nodes =
      markable address node nodes := by
  refine List.filter_congr fun u hu => ?_
  have hne : u ≠ t := fun h => ht (h ▸ hu)
  rw [Function.update_of_ne hne]

/-- The walk marks the nodes that it chooses, and counts them. -/
theorem notifyWalk_eq (address : UInt64) (all : Bool) (nodes : List T)
    (hnodup : nodes.Nodup) (node : T → BParkNode) :
    notifyWalk address all nodes node =
      (markAll (chosen address all node nodes) node,
        (chosen address all node nodes).length) := by
  induction nodes generalizing node with
  | nil =>
    have hnil : chosen address all node [] = [] := by cases all <;> rfl
    rw [hnil]
    refine Prod.ext ?_ rfl
    funext t
    simp [notifyWalk, markAll]
  | cons t rest ih =>
    obtain ⟨ht, hrest⟩ := List.nodup_cons.mp hnodup
    rw [notifyWalk]
    split_ifs with hskip hall
    · rw [ih hrest node]
      have hcut : markable address node (t :: rest) =
          markable address node rest := by
        apply List.filter_cons_of_neg
        rcases hskip with h | h <;> simp [h]
      simp only [chosen, hcut]
    all_goals
      have hkeep : markable address node (t :: rest) =
          t :: markable address node rest := by
        apply List.filter_cons_of_pos
        simpa [not_or] using hskip
    · subst hall
      have hout : t ∉ markable address node rest := fun h =>
        ht (mem_markable.mp h).1
      simp only [ih hrest, chosen, if_true, markable_update ht, hkeep]
      refine Prod.ext ?_ rfl
      funext u
      by_cases hu : u = t
      · subst hu
        simp [markAll, hout]
      · simp [markAll, hu]
    · have hone : chosen address all node (t :: rest) = [t] := by
        simp only [chosen, hall, hkeep]
        rfl
      rw [hone]
      refine Prod.ext ?_ rfl
      funext u
      by_cases hu : u = t
      · subst hu
        simp [markAll]
      · simp [markAll, hu]

namespace ParkInv

variable {s s' : ParkState T}

omit [DecidableEq T] in
theorem init (h : parkInit s) : ParkInv s := by
  constructor
  case nodup =>
    intro b
    rw [h.1 b]
    exact List.nodup_nil
  case listed =>
    intro t b
    simp [h.1 b, h.2 t, WaitPc.waiting]
  case address =>
    intro t c hc
    rw [h.2 t] at hc
    cases hc
  case held =>
    intro t b
    simp [h.1 b, h.2 t]
  case released =>
    intro t c r hc
    rw [h.2 t] at hc
    cases hc
  case answer =>
    intro t n m hn
    rw [h.2 t] at hn
    cases hn

/-- A thread's own step, when its bucket shows where it stands. -/
theorem threadStep (h : ParkInv s) {t : T} {b : UInt64} {pc : WaitPc}
    {node : BParkNode} {x : BParkBucket T}
    (hs : ThreadStep s s' t b pc node x)
    (hold : ∀ c, (s.pc t).waiting = some c → c.home = b)
    (hnew : ∀ c, pc.waiting = some c → c.home = b)
    (hnodup : x.nodes.Nodup)
    (hothers : ∀ u, u ≠ t → (u ∈ x.nodes ↔ u ∈ (s.bucket b).nodes))
    (hself : t ∈ x.nodes ↔ ∃ c, pc.waiting = some c)
    (haddress : ∀ c, pc.waiting = some c → node.address = c.address)
    (hheld : ∀ u, u ≠ t →
      (x.holder = some u ↔ (s.bucket b).holder = some u))
    (hholds : x.holder = some t ↔ ∃ c, pc = .looping c)
    (hreleased : ∀ c r, pc = .parked c r → node.signalled = true → r = true)
    (hanswer : ∀ n m, pc = .returned n m →
      (n = 0 ∨ n = 1) ∧ (m = true → n = 1)) : ParkInv s' := by
  have helsewhere {d : UInt64} (hd : d ≠ b) :
      t ∉ (s.bucket d).nodes ∧ (s.bucket d).holder ≠ some t := by
    constructor
    · intro hmem
      obtain ⟨c, hc, hhome⟩ := (h.listed t d).mp hmem
      exact hd (hhome.symm.trans (hold c hc))
    · intro hmem
      obtain ⟨c, hc, hhome⟩ := (h.held t d).mp hmem
      exact hd (hhome.symm.trans (hold c (by rw [hc]; rfl)))
  constructor
  case nodup =>
    intro d
    by_cases hd : d = b
    · subst hd
      rw [hs.bucket_self]
      exact hnodup
    · rw [hs.bucket_other hd]
      exact h.nodup d
  case listed =>
    intro u d
    by_cases hu : u = t
    · subst hu
      rw [hs.pc_self]
      by_cases hd : d = b
      · subst hd
        rw [hs.bucket_self, hself]
        exact ⟨fun ⟨c, hc⟩ => ⟨c, hc, hnew c hc⟩, fun ⟨c, hc, _⟩ => ⟨c, hc⟩⟩
      · rw [hs.bucket_other hd]
        refine iff_of_false (helsewhere hd).1 ?_
        rintro ⟨c, hc, hhome⟩
        exact hd (hhome.symm.trans (hnew c hc))
    · rw [hs.pc_other hu, ← h.listed u d]
      by_cases hd : d = b
      · subst hd
        rw [hs.bucket_self, hothers u hu]
      · rw [hs.bucket_other hd]
  case address =>
    intro u c hc
    by_cases hu : u = t
    · subst hu
      rw [hs.pc_self] at hc
      rw [hs.node_self]
      exact haddress c hc
    · rw [hs.pc_other hu] at hc
      rw [hs.node_other hu]
      exact h.address u c hc
  case held =>
    intro u d
    by_cases hu : u = t
    · subst hu
      rw [hs.pc_self]
      by_cases hd : d = b
      · subst hd
        rw [hs.bucket_self, hholds]
        exact ⟨fun ⟨c, hc⟩ => ⟨c, hc, hnew c (by rw [hc]; rfl)⟩,
          fun ⟨c, hc, _⟩ => ⟨c, hc⟩⟩
      · rw [hs.bucket_other hd]
        refine iff_of_false (helsewhere hd).2 ?_
        rintro ⟨c, hc, hhome⟩
        exact hd (hhome.symm.trans (hnew c (by rw [hc]; rfl)))
    · rw [hs.pc_other hu, ← h.held u d]
      by_cases hd : d = b
      · subst hd
        rw [hs.bucket_self, hheld u hu]
      · rw [hs.bucket_other hd]
  case released =>
    intro u c r hc hmarked
    by_cases hu : u = t
    · subst hu
      rw [hs.pc_self] at hc
      rw [hs.node_self] at hmarked
      exact hreleased c r hc hmarked
    · rw [hs.pc_other hu] at hc
      rw [hs.node_other hu] at hmarked
      exact h.released u c r hc hmarked
  case answer =>
    intro u n m hn
    by_cases hu : u = t
    · subst hu
      rw [hs.pc_self] at hn
      exact hanswer n m hn
    · rw [hs.pc_other hu] at hn
      exact h.answer u n m hn

variable {c : WaitCall}

omit [DecidableEq T] in
/-- A thread at the loop's condition holds its bucket's mutex. -/
theorem holds (h : ParkInv s) {t : T}
    (hpc : s.pc t = .looping c) : (s.bucket c.home).holder = some t :=
  (h.held t c.home).mpr ⟨c, hpc, rfl⟩

omit [DecidableEq T] in
theorem linked (h : ParkInv s) {t : T}
    (hpc : (s.pc t).waiting = some c) : t ∈ (s.bucket c.home).nodes :=
  (h.listed t c.home).mpr ⟨c, hpc, rfl⟩

/-- A thread that unlinks its node and returns. -/
theorem unlink (h : ParkInv s) {t : T} {n : Int}
    (hs : ThreadStep s s' t c.home (.returned n (s.node t).signalled)
      (s.node t) ⟨none, (s.bucket c.home).nodes.erase t⟩)
    (hold : (s.pc t).waiting = some c)
    (hheld : ∀ u, u ≠ t → (s.bucket c.home).holder ≠ some u)
    (hn : n = 0 ∨ n = 1) (hmarked : (s.node t).signalled = true → n = 1) :
    ParkInv s' := by
  have hnd := h.nodup c.home
  refine h.threadStep hs ?_ (by simp [WaitPc.waiting]) (hnd.erase t) ?_ ?_
    (by simp [WaitPc.waiting]) ?_ (by simp) (by simp) ?_
  · intro d hd
    rw [hold] at hd
    cases hd
    rfl
  · intro u hu
    exact List.mem_erase_of_ne hu
  · exact iff_of_false hnd.not_mem_erase (by simp [WaitPc.waiting])
  · intro u hu
    exact iff_of_false (Option.some_ne_none u).symm (hheld u hu)
  · rintro m k hk
    cases hk
    exact ⟨hn, hmarked⟩

/-- The moves of a waiting thread keep the invariant, its own bucket first. -/
theorem own (h : ParkInv s) {act : ParkAction T} {t : T} {b : UInt64}
    {pc : WaitPc} {node : BParkNode} {x : BParkBucket T}
    (hallowed : ParkAllowed act s) (hm : OwnMove s t act b pc node x)
    (hs : ThreadStep s s' t b pc node x) : ParkInv s' := by
  cases hm with
  | away hold hpc hanswer hcall =>
    have hout : t ∉ (s.bucket b).nodes := by
      intro hmem
      obtain ⟨c, hc, -⟩ := (h.listed t b).mp hmem
      rw [hold] at hc
      cases hc
    have hnone : (s.bucket b).holder ≠ some t := by
      intro hheld
      obtain ⟨c, hc, -⟩ := (h.held t b).mp hheld
      rw [hc] at hold
      cases hold
    refine h.threadStep hs (by simp [hold]) (by simp [hpc]) (h.nodup b)
      (fun _ _ => Iff.rfl) (iff_of_false hout (by simp [hpc]))
      (by simp [hpc]) (fun _ _ => Iff.rfl) (iff_of_false hnone ?_) ?_ ?_
    · rintro ⟨c, rfl⟩
      cases hpc
    · rintro c r rfl
      cases hpc
    · intro n m hn
      obtain ⟨hn', rfl⟩ := hanswer n m hn
      exact ⟨hn', fun h => absurd h Bool.false_ne_true⟩
  | link c hold hfree hvalue =>
    have hout : t ∉ (s.bucket c.home).nodes := by
      intro hmem
      obtain ⟨d, hd, -⟩ := (h.listed t c.home).mp hmem
      rw [hold] at hd
      cases hd
    refine h.threadStep hs (by simp [hold, WaitPc.waiting])
      (by simp [WaitPc.waiting]) (List.nodup_cons.mpr ⟨hout, h.nodup _⟩)
      ?_ (by simp [WaitPc.waiting]) (by simp [WaitPc.waiting]) ?_ (by simp)
      (by simp) (by simp)
    · intro u hu
      rw [List.mem_cons, or_iff_right hu]
    · intro u hu
      rw [hfree]
      exact iff_of_false (fun h => hu (Option.some_inj.mp h).symm)
        (Option.some_ne_none u).symm
  | wait c hold hunmarked hvalue =>
    have hlinked := h.linked (t := t) (c := c) (by rw [hold]; rfl)
    have haddress := h.address t c (by rw [hold]; rfl)
    have hholds := h.holds hold
    refine h.threadStep hs (by simp [hold, WaitPc.waiting])
      (by simp [WaitPc.waiting]) (h.nodup _) (fun _ _ => Iff.rfl)
      (by simp [hlinked, WaitPc.waiting]) (by simp [haddress, WaitPc.waiting])
      ?_ (by simp) (by simp [hunmarked]) (by simp)
    intro u hu
    rw [hholds]
    exact iff_of_false (Option.some_ne_none u).symm
      fun h => hu (Option.some_inj.mp h).symm
  | resume c r hold hfree =>
    have hlinked := h.linked (t := t) (c := c) (by rw [hold]; rfl)
    have haddress := h.address t c (by rw [hold]; rfl)
    refine h.threadStep hs (by simp [hold, WaitPc.waiting])
      (by simp [WaitPc.waiting]) (h.nodup _) (fun _ _ => Iff.rfl)
      (by simp [hlinked, WaitPc.waiting]) (by simp [haddress, WaitPc.waiting])
      ?_ (by simp) (by simp) (by simp)
    intro u hu
    rw [hfree]
    exact iff_of_false (fun h => hu (Option.some_inj.mp h).symm)
      (Option.some_ne_none u).symm
  | leave c hold =>
    refine h.unlink hs (by rw [hold]; rfl) ?_ (.inr rfl) fun _ => rfl
    intro u hu hheld
    rw [h.holds hold] at hheld
    exact hu (Option.some_inj.mp hheld).symm
  | timeOut c r hold hfree =>
    refine h.unlink hs (by rw [hold]; rfl) (by simp [hfree]) (.inl rfl) ?_
    intro hmarked
    rw [hallowed t rfl] at hmarked
    cases hmarked

end ParkInv

/-- What a notifier's critical section does; `l` are the nodes it marks. -/
structure NotifyStep (s s' : ParkState T) (address : UInt64) (all : Bool)
    (woken : ℕ) (l : List T) : Prop where
  free : (s.bucket (beansParkBucket address)).holder = none
  chosen_eq : l =
    chosen address all s.node (s.bucket (beansParkBucket address)).nodes
  woken_eq : woken = l.length
  node_eq : s'.node = markAll l s.node
  pc_eq : s'.pc =
    if l ≠ [] then broadcast (beansParkBucket address) s.pc else s.pc
  bucket_eq : s'.bucket = s.bucket
  value_eq : s'.value = s.value

theorem notify_cases {s s' : ParkState T} {address : UInt64} {all : Bool}
    {woken : ℕ} (hinv : ParkInv s)
    (h : beansAtomicNotify address all s = some (s', woken)) :
    ∃ l, NotifyStep s s' address all woken l := by
  have hwalk := notifyWalk_eq address all
    (s.bucket (beansParkBucket address)).nodes (hinv.nodup _) s.node
  simp only [beansAtomicNotify] at h
  split_ifs at h with hheld hmoved <;>
    obtain ⟨rfl, rfl⟩ := Prod.mk.inj (Option.some_inj.mp h)
  all_goals
    have hfree := Option.not_isSome_iff_eq_none.mp hheld
    simp only [hwalk] at hmoved ⊢
    refine ⟨_, hfree, rfl, rfl, rfl, ?_, rfl, rfl⟩
  · exact (if_pos fun hnil => hmoved (by rw [hnil]; rfl)).symm
  · exact (if_neg fun hne => hmoved
      fun hlen => hne (List.length_eq_zero_iff.mp hlen)).symm

omit [DecidableEq T] in
/-- A broadcast releases threads and moves none. -/
theorem broadcast_waiting (b : UInt64) (pc : T → WaitPc) (t : T) :
    (broadcast b pc t).waiting = (pc t).waiting := by
  unfold broadcast
  cases pc t with
  | parked c r =>
    simp only
    split <;> rfl
  | _ => rfl

omit [DecidableEq T] in
theorem broadcast_parked {b : UInt64} {pc : T → WaitPc} {t : T}
    {r : Bool} (h : broadcast b pc t = .parked c r) :
    (c.home = b ∧ r = true) ∨ (c.home ≠ b ∧ pc t = .parked c r) := by
  unfold broadcast at h
  cases hpc : pc t with
  | parked d k =>
    rw [hpc] at h
    simp only at h
    split_ifs at h with hb
    · cases h
      exact .inl ⟨hb, rfl⟩
    · cases h
      exact .inr ⟨hb, rfl⟩
  | _ =>
    rw [hpc] at h
    cases h

omit [DecidableEq T] in
theorem broadcast_of_not_parked {b : UInt64} {pc : T → WaitPc} {t : T}
    {p : WaitPc} (h : ∀ c r, p ≠ .parked c r) :
    broadcast b pc t = p ↔ pc t = p := by
  unfold broadcast
  cases hpc : pc t with
  | parked c r =>
    simp only
    split
    · exact iff_of_false (fun he => h _ _ he.symm) fun he => h _ _ he.symm
    · exact iff_of_false (fun he => h _ _ he.symm) fun he => h _ _ he.symm
  | _ => exact Iff.rfl

omit [DecidableEq T] in
theorem broadcast_released {b : UInt64} {pc : T → WaitPc} {t : T}
    (h : pc t = .parked c true) :
    broadcast b pc t = .parked c true := by
  rw [broadcast, h]
  exact ite_self _

namespace NotifyStep

variable {s s' : ParkState T} {address : UInt64} {all : Bool} {woken : ℕ}
  {l : List T}

theorem waiting_eq (hs : NotifyStep s s' address all woken l) (t : T) :
    (s'.pc t).waiting = (s.pc t).waiting := by
  rw [hs.pc_eq]
  split
  · exact broadcast_waiting _ _ _
  · rfl

theorem pc_iff (hs : NotifyStep s s' address all woken l) {t : T}
    {p : WaitPc} (h : ∀ c r, p ≠ .parked c r) : s'.pc t = p ↔ s.pc t = p := by
  rw [hs.pc_eq]
  split
  · exact broadcast_of_not_parked h
  · exact Iff.rfl

theorem parked (hs : NotifyStep s s' address all woken l) {t : T}
    {c : WaitCall} {r : Bool} (h : s'.pc t = .parked c r) :
    r = true ∨ ((l = [] ∨ c.home ≠ beansParkBucket address) ∧
      s.pc t = .parked c r) := by
  rw [hs.pc_eq] at h
  split at h
  · rcases broadcast_parked h with ⟨-, hr⟩ | ⟨hb, hpc⟩
    · exact .inl hr
    · exact .inr ⟨.inr hb, hpc⟩
  · rename_i hl
    exact .inr ⟨.inl (not_not.mp hl), h⟩

theorem stays_released (hs : NotifyStep s s' address all woken l) {t : T}
    {c : WaitCall} (h : s.pc t = .parked c true) :
    s'.pc t = .parked c true := by
  rw [hs.pc_eq]
  split
  · exact broadcast_released h
  · exact h

theorem node_address (hs : NotifyStep s s' address all woken l) (t : T) :
    (s'.node t).address = (s.node t).address := by
  rw [hs.node_eq, markAll]
  split <;> rfl

theorem signalled (hs : NotifyStep s s' address all woken l) (t : T) :
    (s'.node t).signalled = true ↔
      t ∈ l ∨ (s.node t).signalled = true := by
  rw [hs.node_eq, markAll]
  split
  · rename_i ht
    exact iff_of_true rfl (.inl ht)
  · rename_i ht
    exact (or_iff_right ht).symm

theorem mem_markable (hs : NotifyStep s s' address all woken l) {t : T}
    (ht : t ∈ l) : t ∈ markable address s.node
      (s.bucket (beansParkBucket address)).nodes := by
  rw [hs.chosen_eq] at ht
  exact mem_markable_of_chosen ht

end NotifyStep

theorem ParkInv.notify {s s' : ParkState T} {address : UInt64} {all : Bool}
    {woken : ℕ} {l : List T} (h : ParkInv s)
    (hs : NotifyStep s s' address all woken l) : ParkInv s' := by
  constructor
  case nodup =>
    intro b
    rw [hs.bucket_eq]
    exact h.nodup b
  case listed =>
    intro t b
    rw [hs.bucket_eq, hs.waiting_eq]
    exact h.listed t b
  case address =>
    intro t c hc
    rw [hs.waiting_eq] at hc
    rw [hs.node_address]
    exact h.address t c hc
  case held =>
    intro t b
    rw [hs.bucket_eq, h.held]
    refine exists_congr fun c => and_congr_left fun _ => ?_
    exact (hs.pc_iff (by simp)).symm
  case released =>
    intro t c r hpc hmarked
    rcases hs.parked hpc with hr | ⟨haway, hold⟩
    · exact hr
    · rcases (hs.signalled t).mp hmarked with hl | hmarked
      · have hmem := (Parking.mem_markable.mp (hs.mem_markable hl)).1
        obtain ⟨d, hd, hhome⟩ := (h.listed t _).mp hmem
        rw [hold] at hd
        cases hd
        rcases haway with hnil | hne
        · rw [hnil] at hl
          cases hl
        · exact absurd hhome hne
      · exact h.released t c r hold hmarked
  case answer =>
    intro t n m hn
    exact h.answer t n m ((hs.pc_iff (by simp)).mp hn)

/-- A step is a store, a waiting thread's own, or a notifier's. -/
theorem step_cases {s s' : ParkState T} (h : ParkInv s)
    (hs : parkStep act s = some s') :
    (∃ a v, act = .store a v ∧
      s' = { s with value := Function.update s.value a v }) ∨
    (∃ t b pc node x, act.owner = some t ∧ OwnMove s t act b pc node x ∧
      ThreadStep s s' t b pc node x) ∨
    ∃ a all woken l, act = .notify a all ∧ NotifyStep s s' a all woken l := by
  cases howner : act.owner with
  | some t =>
    obtain ⟨b, pc, node, x, hm, hstep⟩ := own_cases howner hs
    exact .inr (.inl ⟨t, b, pc, node, x, rfl, hm, hstep⟩)
  | none =>
    cases act with
    | store a v => exact .inl ⟨a, v, rfl, (Option.some_inj.mp hs).symm⟩
    | notify a all =>
      obtain ⟨⟨s₁, woken⟩, hn, rfl⟩ := Option.map_eq_some_iff.mp hs
      obtain ⟨l, hl⟩ := notify_cases h hn
      exact .inr (.inr ⟨a, all, woken, l, rfl, hl⟩)
    | _ => cases howner

theorem ParkInv.step {act : ParkAction T} {s s' : ParkState T} (h : ParkInv s)
    (hallowed : ParkAllowed act s) (hs : parkStep act s = some s') :
    ParkInv s' := by
  rcases step_cases h hs with ⟨a, v, -, rfl⟩ |
    ⟨t, b, pc, node, x, -, hm, hstep⟩ | ⟨a, all, woken, l, -, hn⟩
  · exact ⟨h.nodup, h.listed, h.address, h.held, h.released, h.answer⟩
  · exact h.own hallowed hm hstep
  · exact h.notify hn

end Parking
end Beans
