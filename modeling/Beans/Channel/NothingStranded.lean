import Beans.Channel.WaitLines

/-!
# Channels lose nothing

What was received and what is buffered is what was sent, in order, whoever sends and receives,
waits, is cancelled or closes.  While somebody waits unsignalled, at least as many parties of
that side are on their way back as there are values, or free slots: a wake may be spent on a
party that finds nothing, but never while something is left for the others.

**Input.**  Every interleaving of sends, receives, their returns, cancels and closes by any
number of fibers and threads.

**Results.**
* `channel_fifo`: a step adds to one end of what was sent, or to none.
* `channel_linesExact`: the lines hold the fibers that wait unsignalled, as they came.
* `channel_strandsNobody`: somebody is on the way back for whatever a sleeper could take.
* `channel_wakesOldest`: a fiber is woken before those that came after it.
* `closedChannel_answers`: whoever waits at a closed channel comes back with an answer.
-/

namespace Beans
namespace Channel

open Function StepSystem

variable {P V : Type*}

/-- The values in the ring, the oldest first. -/
def ChanState.buffered (s : ChanState P V) : List V :=
  (List.range s.count).map fun i => s.q ((s.head + i) % s.cap)

/-- What a side waits for: free slots, or values. -/
def ChanState.free (s : ChanState P V) : Side → ℕ
  | .send => s.cap - s.count
  | .recv => s.count

/-- The parties that are on their way back from a wait. -/
def ChanState.awake (s : ChanState P V) (l : Side → List P) (side : Side) : Set P :=
  {p | s.WaitsFor p side ∧ p ∉ l side ∧ p ∉ s.cond side}

/-- The buffer stands between what was received and what was sent. -/
structure Flow (s : ChanState P V) : Prop where
  head_lt : s.head < s.cap
  count_le : s.count ≤ s.cap
  fifo : s.received ++ s.buffered = s.sent

/-- Nobody waits at a closed channel, and enough are on their way back at an open one. -/
structure Served (s : ChanState P V) (l : Side → List P) : Prop where
  shut : s.closed = true → ∀ side, l side = [] ∧ s.cond side = []
  enough : ∀ side, l side ≠ [] ∨ s.cond side ≠ [] →
    (s.free side : ℕ∞) ≤ (s.awake l side).encard

variable {fiber : P → Bool} {clear : V → V} {s s' : ChanState P V} {l : Side → List P}
  {p : P} {side d : Side}

/-- The party has the mutex: it makes a call, or comes back from its wait. -/
def LetGo (fiber : P → Bool) (s : ChanState P V) (p : P) (side : Side) : Prop :=
  (s.place p).free = true ∨ (s.WaitsFor p side ∧ ¬s.Asleep fiber p side)

theorem LetGo.rests (hp : LetGo fiber s p side) (h : Lined fiber s l) : Rests s l p :=
  hp.elim h.rests_of_free fun hgo => h.rests_of_waits hgo.1 hgo.2

theorem LetGo.other (hp : LetGo fiber s p side) (hd : d ≠ side) : ¬s.WaitsFor p d := by
  rcases hp with hfree | ⟨hwaits, -⟩
  · exact not_waitsFor_of_free hfree
  · exact fun h => hd (h.unique hwaits)

/-- Within one turn of the ring every offset has its own slot. -/
theorem slot_injective {head cap i j : ℕ} (hi : i < cap) (hj : j < cap)
    (h : (head + i) % cap = (head + j) % cap) : i = j :=
  (Nat.ModEq.add_left_cancel' head h).eq_of_lt_of_lt hi hj

/-- The first value of the buffer and the others. -/
theorem buffered_eq (h : Flow s) (hsome : s.count ≠ 0) :
    s.buffered = s.q s.head :: (List.range (s.count - 1)).map fun i =>
      s.q ((s.head + (i + 1)) % s.cap) := by
  obtain ⟨n, hn⟩ := Nat.exists_eq_succ_of_ne_zero hsome
  rw [ChanState.buffered, hn, Nat.succ_sub_one, List.range_succ_eq_map, List.map_cons,
    List.map_map, Nat.add_zero, Nat.mod_eq_of_lt h.head_lt]
  rfl

theorem awake_subset {l' : Side → List P} (hl : ∀ r ∈ l' d, r ∈ l d)
    (hcond : ∀ r ∈ s'.cond d, r ∈ s.cond d)
    (hwaits : ∀ r ∈ s.awake l d, s'.place r = s.place r) : s.awake l d ⊆ s'.awake l' d := by
  intro r hr
  obtain ⟨⟨c, hc, hside⟩, hout, hfree⟩ := hr
  exact ⟨⟨c, (hwaits r ⟨⟨c, hc, hside⟩, hout, hfree⟩).trans hc, hside⟩,
    fun h => hout (hl r h), fun h => hfree (hcond r h)⟩

namespace Served

theorem of_empty (hl : ∀ side, l side = [] ∧ s.cond side = []) : Served s l where
  shut _ := hl
  enough side hwait := (hwait.elim (absurd (hl side).1) (absurd (hl side).2))

/-- Nobody begins to wait. -/
theorem of_subset (h : Served s l) {l' : Side → List P} (hclosed : s'.closed = s.closed)
    (hl : ∀ d, l' d ⊆ l d) (hcond : ∀ d, s'.cond d ⊆ s.cond d)
    (henough : ∀ d, l d ≠ [] ∨ s.cond d ≠ [] → (s'.free d : ℕ∞) ≤ (s'.awake l' d).encard) :
    Served s' l' where
  shut hshut d := by
    obtain ⟨hnone, hidle⟩ := h.shut (hclosed ▸ hshut) d
    exact ⟨List.subset_nil.mp (hnone ▸ hl d), List.subset_nil.mp (hidle ▸ hcond d)⟩
  enough d hwait := henough d (hwait.imp (mt fun hnone => List.subset_nil.mp (hnone ▸ hl d))
    (mt fun hnone => List.subset_nil.mp (hnone ▸ hcond d)))

/-- Fewer wait and no more is there for them. -/
theorem mono (h : Served s l) {l' : Side → List P} (hclosed : s'.closed = s.closed)
    (hfree : ∀ d, s'.free d = s.free d) (hl : ∀ d, l' d ⊆ l d)
    (hcond : ∀ d, s'.cond d ⊆ s.cond d)
    (hwaits : ∀ d, ∀ r ∈ s.awake l d, s'.place r = s.place r) : Served s' l' :=
  h.of_subset hclosed hl hcond fun d hwait => by
    rw [hfree d]
    exact (h.enough d hwait).trans (Set.encard_le_encard
      (awake_subset (fun _ hr => hl d hr) (fun _ hr => hcond d hr) (hwaits d)))

/-- A party that finds nothing on its side begins to wait there. -/
theorem wait (h : Served s l) {c : Call V} {l' : Side → List P}
    (hp : LetGo fiber s p c.side) (hwait : ¬s.Ready c.side) (hclosed : s'.closed = s.closed)
    (hfree : ∀ d, s'.free d = s.free d) (hplace : ∀ r, r ≠ p → s'.place r = s.place r)
    (hother : ∀ d, d ≠ c.side → l' d = l d ∧ s'.cond d = s.cond d) : Served s' l' where
  shut hshut := by
    refine (hwait ?_).elim
    cases c.side <;> exact .inr (hclosed ▸ hshut)
  enough d hd := by
    rw [hfree d]
    by_cases hown : d = c.side
    · subst hown
      have hzero : s.free c.side = 0 := by
        revert hwait
        cases c.side <;> simp only [ChanState.Ready, ChanState.free] <;> omega
      rw [hzero]
      exact bot_le
    · obtain ⟨hl, hcond⟩ := hother d hown
      rw [hl, hcond] at hd
      refine (h.enough d hd).trans (Set.encard_le_encard (awake_subset ?_ ?_ fun r hr => ?_))
      · exact fun r hr => hl ▸ hr
      · exact fun r hr => hcond ▸ hr
      · exact hplace r fun he => hp.other hown (he ▸ hr.1)

end Served

variable [DecidableEq P]

/-- What a step can be. -/
inductive Moved (fiber : P → Bool) (clear : V → V) (s : ChanState P V) :
    ChanState P V → Prop
  | put (p : P) (v : V) (pick : ℕ) (hp : LetGo fiber s p .send)
      (hopen : s.closed = false) (hroom : s.count < s.cap) : Moved fiber clear s (s.put p v pick)
  | take (p : P) (pick : ℕ) (hp : LetGo fiber s p .recv) (hsome : s.count ≠ 0) :
      Moved fiber clear s (s.take p clear pick)
  | answer (p : P) (a : Answer V) (side : Side) (hp : LetGo fiber s p side)
      (hidle : s.closed = true ∨ (s.place p).free = true) (ha : a = .refused ∨ a = .nothing) :
      Moved fiber clear s (s.setPlace p (.returned a))
  | push (p : P) (c : Call V) (hp : LetGo fiber s p c.side) (hfiber : fiber p = true)
      (hwait : ¬s.Ready c.side) :
      Moved fiber clear s ((s.fiberLinePush c.side p).setPlace p (.waiting c))
  | block (p : P) (c : Call V) (hp : LetGo fiber s p c.side) (hthread : fiber p = false)
      (hwait : ¬s.Ready c.side) :
      Moved fiber clear s { s.setPlace p (.waiting c) with
        cond := update s.cond c.side (s.cond c.side ++ [p]) }
  | cancel (p : P) (side : Side) (hwaits : s.WaitsFor p side) (hfiber : fiber p = true)
      (hunmarked : s.signalled p = false) {s' : ChanState P V}
      (hs : s.fiberLineRemove side p = some s') : Moved fiber clear s (s'.setPlace p .cancelled)
  | stay : Moved fiber clear s s
  | spurious (p : P) (side : Side) (hwaits : s.WaitsFor p side) (hp : p ∈ s.cond side) :
      Moved fiber clear s { s with cond := update s.cond side ((s.cond side).erase p) }
  | close : Moved fiber clear s s.close

theorem enter_moved {c : Call V} (pick : ℕ) (hp : LetGo fiber s p c.side) :
    Moved fiber clear s (s.enter p fiber clear c pick) := by
  rw [ChanState.enter]
  split_ifs with hready hfiber
  · cases c with
    | send v =>
      rw [ChanState.finish]
      split_ifs with hclosed
      · exact .answer p _ .send hp (.inl hclosed) (.inl rfl)
      · exact .put p v pick hp (Bool.eq_false_iff.mpr hclosed) (hready.resolve_right hclosed)
    | recv =>
      rw [ChanState.finish]
      split_ifs with hnone
      · exact .answer p _ .recv hp (.inl (hready.resolve_left (not_not.mpr hnone))) (.inr rfl)
      · exact .take p pick hp hnone
  · exact .push p c hp hfiber hready
  · exact .block p c hp (Bool.eq_false_iff.mpr hfiber) hready

/-- Each step either leaves the values alone, puts one in or takes one out. -/
theorem step_moved {a : ChanAction P V} (hflow : Flow s)
    (hs : chanStep fiber clear a s = some s') : Moved fiber clear s s' := by
  cases a with
  | call p c pick =>
    simp only [chanStep] at hs
    split_ifs at hs with hfree
    obtain rfl := Option.some_inj.mp hs
    exact enter_moved pick (.inl hfree)
  | tryCall p c pick =>
    simp only [chanStep] at hs
    split_ifs at hs with hfree
    obtain rfl := Option.some_inj.mp hs
    cases c with
    | send v =>
      rw [ChanState.tryCall]
      split_ifs with hrefused
      · exact .answer p _ .send (.inl hfree) (.inr hfree) (.inl rfl)
      · obtain ⟨hopen, hroom⟩ := not_or.mp hrefused
        exact .put p v pick (.inl hfree) (Bool.eq_false_iff.mpr hopen)
          (hflow.count_le.lt_of_ne hroom)
    | recv =>
      rw [ChanState.tryCall]
      split_ifs with hnone
      · exact .answer p _ .recv (.inl hfree) (.inr hfree) (.inr rfl)
      · exact .take p pick (.inl hfree) hnone
  | back p cancelled pick =>
    simp only [chanStep] at hs
    split at hs
    case h_2 => cases hs
    case h_1 c hplace =>
      have hwaits : s.WaitsFor p c.side := ⟨c, hplace, rfl⟩
      split_ifs at hs with hfiber hsignalled hcancelled hblocked
      · obtain rfl := Option.some_inj.mp hs
        exact enter_moved pick (.inr ⟨hwaits, by simp [ChanState.Asleep, hfiber, hsignalled]⟩)
      · obtain ⟨s₁, hremoved, rfl⟩ := Option.map_eq_some_iff.mp hs
        exact .cancel p c.side hwaits hfiber (Bool.eq_false_iff.mpr hsignalled) hremoved
      · obtain rfl := Option.some_inj.mp hs
        exact .stay
      · obtain rfl := Option.some_inj.mp hs
        exact enter_moved pick (.inr ⟨hwaits, by simp [ChanState.Asleep, hfiber, hblocked]⟩)
  | spurious p =>
    simp only [chanStep] at hs
    split at hs
    case h_2 => cases hs
    case h_1 c hplace =>
      split_ifs at hs with hblocked
      obtain rfl := Option.some_inj.mp hs
      exact .spurious p c.side ⟨c, hplace, rfl⟩ hblocked
  | close =>
    obtain rfl := Option.some_inj.mp hs
    exact .close

theorem chanWake_frame (s : ChanState P V) (side : Side) (pick : ℕ) :
    ∃ line blocked next signalled, blocked.Sublist (s.cond side) ∧ s.chanWake side pick =
      { s with
        line := line, cond := update s.cond side blocked, next := next
        signalled := signalled } := by
  rw [ChanState.chanWake]
  cases (s.line side).head with
  | none => exact ⟨_, _, _, _, List.eraseIdx_sublist _ _, rfl⟩
  | some f =>
    have hsame := update_eq_self side s.cond
    exact ⟨_, s.cond side, _, _, .refl _, by rw [hsame]; rfl⟩

theorem popAll_frame (side : Side) (n : ℕ) (s : ChanState P V) :
    ∃ line next signalled, ChanState.popAll side n s =
      { s with line := line, next := next, signalled := signalled } := by
  induction n generalizing s with
  | zero => exact ⟨_, _, _, rfl⟩
  | succ n ih =>
    rw [ChanState.popAll]
    cases (s.line side).head with
    | none => exact ⟨_, _, _, rfl⟩
    | some f =>
      obtain ⟨line, next, signalled, heq⟩ := ih (s.fiberLinePop side f)
      exact ⟨line, next, signalled, heq⟩

theorem close_frame (s : ChanState P V) :
    ∃ line next signalled, s.close =
      { s with
        closed := true, cond := fun _ => [], line := line, next := next
        signalled := signalled } := by
  obtain ⟨_, _, _, hsend⟩ := popAll_frame .send s.pushes { s with closed := true }
  obtain ⟨line, next, signalled, hrecv⟩ := popAll_frame .recv s.pushes
    (ChanState.popAll .send s.pushes { s with closed := true })
  refine ⟨line, next, signalled, ?_⟩
  rw [ChanState.close]
  have hpushes : (ChanState.popAll .send s.pushes { s with closed := true }).pushes =
      s.pushes := by rw [hsend]
  rw [hpushes, hrecv, hsend]

/-- A put appends to the buffer. -/
theorem Flow.put (h : Flow s) (hroom : s.count < s.cap) (v : V) (pick : ℕ) :
    Flow (s.put p v pick) := by
  obtain ⟨_, _, _, _, -, heq⟩ := chanWake_frame (s.store p v) .recv pick
  rw [ChanState.put, heq]
  refine ⟨h.head_lt, hroom, ?_⟩
  have hold : (List.range s.count).map (fun i =>
      update s.q ((s.head + s.count) % s.cap) v ((s.head + i) % s.cap)) = s.buffered := by
    refine List.map_congr_left fun i hi => update_of_ne (fun hslot => ?_) _ _
    have hlt := List.mem_range.mp hi
    exact hlt.ne (slot_injective (hlt.trans hroom) hroom hslot)
  simp only [ChanState.buffered, ChanState.store, ChanState.setPlace, List.range_succ,
    List.map_append, List.map_singleton, update_self, hold]
  rw [← List.append_assoc, ← h.fifo]
  rfl

/-- A take gives the first value away and keeps the others. -/
theorem Flow.take (h : Flow s) (hsome : s.count ≠ 0) (pick : ℕ) :
    Flow (s.take p clear pick) := by
  obtain ⟨_, _, _, _, -, heq⟩ := chanWake_frame (s.fetch p clear) .send pick
  rw [ChanState.take, heq]
  have hcount := h.count_le
  refine ⟨Nat.mod_lt _ (by omega), (Nat.sub_le _ _).trans hcount, ?_⟩
  have hrest : (List.range (s.count - 1)).map (fun i =>
      update s.q s.head (clear (s.q s.head)) (((s.head + 1) % s.cap + i) % s.cap)) =
      (List.range (s.count - 1)).map fun i => s.q ((s.head + (i + 1)) % s.cap) := by
    refine List.map_congr_left fun i hi => ?_
    have hlt := List.mem_range.mp hi
    rw [Nat.mod_add_mod, Nat.add_right_comm, Nat.add_assoc]
    refine update_of_ne (fun hslot => ?_) _ _
    have hwrap : (s.head + (i + 1)) % s.cap = (s.head + 0) % s.cap := by
      rw [hslot, Nat.add_zero, Nat.mod_eq_of_lt h.head_lt]
    have hzero := slot_injective (by omega) (by omega) hwrap
    omega
  simp only [ChanState.buffered, ChanState.fetch, ChanState.setPlace, hrest]
  rw [List.append_assoc, List.singleton_append, ← buffered_eq h hsome, h.fifo]

/-- What a step does to the values: nothing, or one is sent before the close, or one is handed
to a receiver.  Nobody else learns of a value. -/
inductive Passing (s s' : ChanState P V) : Prop
  | still (hsent : s'.sent = s.sent) (hreceived : s'.received = s.received)
      (hplace : ∀ p a, s'.place p = .returned a →
        s.place p = .returned a ∨ a = .refused ∨ a = .nothing)
  | sends (p : P) (v : V) (hopen : s.closed = false) (hsent : s'.sent = s.sent ++ [v])
      (hreceived : s'.received = s.received)
      (hplace : s'.place = update s.place p (.returned .sent))
  | hands (p : P) (v : V) (hsent : s'.sent = s.sent) (hreceived : s'.received = s.received ++ [v])
      (hplace : s'.place = update s.place p (.returned (.received v)))

theorem Passing.still_setPlace {x : Place V} (hsent : s'.sent = s.sent)
    (hreceived : s'.received = s.received) (hplace : s'.place = update s.place p x)
    (hx : ∀ a, x = .returned a → a = .refused ∨ a = .nothing) : Passing s s' := by
  refine .still hsent hreceived fun r a hr => ?_
  rw [hplace] at hr
  by_cases hrp : r = p
  · subst hrp
    rw [update_self] at hr
    exact .inr (hx a hr)
  · rw [update_of_ne hrp] at hr
    exact .inl hr

/-- The first fiber's removal touches the links only. -/
theorem fiberLineRemove_frame (h : s.fiberLineRemove side p = some s') :
    s' = { s with line := s'.line, next := s'.next } := by
  rw [ChanState.fiberLineRemove] at h
  split at h
  · cases h
  · obtain rfl := Option.some_inj.mp h
    rfl
  · obtain rfl := Option.some_inj.mp h
    rfl

theorem Moved.flow (hmoved : Moved fiber clear s s') (h : Flow s) : Flow s' := by
  cases hmoved with
  | put p v pick _ _ hroom => exact h.put hroom v pick
  | take p pick _ hsome => exact h.take hsome pick
  | cancel p side _ _ _ hs =>
    rw [fiberLineRemove_frame hs]
    exact ⟨h.head_lt, h.count_le, h.fifo⟩
  | stay => exact h
  | close =>
    obtain ⟨_, _, _, heq⟩ := close_frame s
    rw [heq]
    exact ⟨h.head_lt, h.count_le, h.fifo⟩
  | _ => exact ⟨h.head_lt, h.count_le, h.fifo⟩

theorem Moved.passing (hmoved : Moved fiber clear s s') :
    (s.closed = true → s'.closed = true) ∧ Passing s s' := by
  cases hmoved with
  | put p v pick _ hopen _ =>
    obtain ⟨_, _, _, _, -, heq⟩ := chanWake_frame (s.store p v) .recv pick
    rw [ChanState.put, heq]
    exact ⟨id, .sends p v hopen rfl rfl rfl⟩
  | take p pick _ _ =>
    obtain ⟨_, _, _, _, -, heq⟩ := chanWake_frame (s.fetch p clear) .send pick
    rw [ChanState.take, heq]
    exact ⟨id, .hands p _ rfl rfl rfl⟩
  | answer p a _ _ _ ha =>
    refine ⟨id, .still_setPlace rfl rfl rfl fun b hb => ?_⟩
    cases hb
    exact ha
  | push p c _ _ _ => exact ⟨id, .still_setPlace rfl rfl rfl nofun⟩
  | block p c _ _ _ => exact ⟨id, .still_setPlace rfl rfl rfl nofun⟩
  | cancel p side _ _ _ hs =>
    rw [fiberLineRemove_frame hs]
    exact ⟨id, .still_setPlace rfl rfl rfl nofun⟩
  | close =>
    obtain ⟨_, _, _, heq⟩ := close_frame s
    rw [heq]
    exact ⟨fun _ => rfl, .still rfl rfl fun _ _ => .inl⟩
  | _ => exact ⟨id, .still rfl rfl fun _ _ => .inl⟩

/-- A wake finds somebody where somebody waits. -/
theorem awake_wake (h : Lined fiber s l) (pick : ℕ) (hwait : l side ≠ [] ∨ s.cond side ≠ []) :
    (s.awake l side).encard + 1 ≤
      ((s.chanWake side pick).awake (update l side (l side).tail) side).encard := by
  have hwoken : ∃ f, (f ∈ l side ∨ f ∈ s.cond side) ∧
      f ∈ (s.chanWake side pick).awake (update l side (l side).tail) side := by
    have hhead := (h.linked side).head_eq
    have hnodup := (h.linked side).nodup
    cases hl : l side with
    | cons f rest =>
      have hf := (h.listed f side).mp (hl ▸ List.mem_cons_self)
      rw [hl] at hhead hnodup
      rw [ChanState.chanWake, hhead]
      refine ⟨f, .inl List.mem_cons_self, hf.2.2, ?_, fun hc => ?_⟩
      · rw [update_self]
        exact (List.nodup_cons.mp hnodup).1
      · have hthread := (h.blocked f side hc).1
        rw [hf.1] at hthread
        cases hthread
    | nil =>
      rw [hl] at hhead
      rw [ChanState.chanWake, hhead]
      have hlt := Nat.mod_lt pick
        (List.length_pos_iff.mpr (hwait.resolve_left (not_not.mpr hl)))
      have hmem := List.getElem_mem hlt
      have hkept : (s.cond side)[pick % (s.cond side).length] ∉
          (s.cond side).eraseIdx (pick % (s.cond side).length) := by
        rw [← (h.distinct side).erase_getElem _ hlt]
        exact (h.distinct side).not_mem_erase
      refine ⟨_, .inr hmem, (h.blocked _ side hmem).2, by simp, fun hc => hkept ?_⟩
      simpa only [List.head?_nil, update_self] using hc
  obtain ⟨f, hf, hawake⟩ := hwoken
  have hnew : f ∉ s.awake l side := fun hold => hf.elim hold.2.1 hold.2.2
  obtain ⟨_, _, _, _, hsub, heq⟩ := chanWake_frame s side pick
  rw [← Set.encard_insert_of_notMem hnew]
  refine Set.encard_le_encard (Set.insert_subset hawake (awake_subset ?_ ?_ ?_))
  · rw [update_self]
    exact fun r hr => List.mem_of_mem_tail hr
  · rw [heq]
    simp only [update_self]
    exact hsub.subset
  · rw [heq]
    exact fun _ _ => rfl

/-- A party takes what is on its side and wakes one of the other side for what it leaves. -/
theorem Served.exchange (h : Served s l) {own other : Side} (hp : LetGo fiber s p own)
    (hside : ∀ d, d ≠ other ↔ d = own) {s₁ : ChanState P V} (hlined : Lined fiber s₁ l)
    (hclosed : s₁.closed = s.closed) (hcond : s₁.cond = s.cond)
    (hplace : ∀ r, r ≠ p → s₁.place r = s.place r)
    (hown : s₁.free own + 1 ≤ s.free own) (hleft : s₁.free other ≤ s.free other + 1)
    (pick : ℕ) : Served (s₁.chanWake other pick) (update l other (l other).tail) := by
  obtain ⟨_, blocked, _, _, hsub, heq⟩ := chanWake_frame s₁ other pick
  have hcond' (d) : (s₁.chanWake other pick).cond d ⊆ s.cond d := by
    rw [heq, ← hcond]
    exact (Lined.update_sublist hsub d).subset
  have hline' (d) : update l other (l other).tail d ⊆ l d :=
    (Lined.update_sublist (List.tail_sublist _) d).subset
  have hfree' (d) : (s₁.chanWake other pick).free d = s₁.free d := by
    rw [heq]
    cases d <;> rfl
  have hshut' : (s₁.chanWake other pick).closed = s.closed := by
    rw [heq]
    exact hclosed
  refine h.of_subset hshut' hline' hcond' fun d hold => ?_
  have henough := h.enough d hold
  rw [hfree' d]
  by_cases hd : d = other
  · subst hd
    have hsame : s.awake l d ⊆ s₁.awake l d := by
      refine awake_subset (fun _ => id) (fun r hr => hcond ▸ hr) fun r hr => ?_
      exact hplace r fun he =>
        hp.other (fun hd => (hside d).mpr hd rfl) (he ▸ hr.1)
    calc (s₁.free d : ℕ∞) ≤ s.free d + 1 := by exact_mod_cast hleft
      _ ≤ (s₁.awake l d).encard + 1 :=
          add_le_add_left (henough.trans (Set.encard_le_encard hsame)) 1
      _ ≤ _ := awake_wake hlined pick (by rwa [hcond])
  · obtain rfl := (hside d).mp hd
    have hkept : s.awake l d \ {p} ⊆
        (s₁.chanWake other pick).awake (update l other (l other).tail) d := by
      rintro r ⟨⟨⟨c, hc, hcside⟩, hout, hfreed⟩, hr⟩
      refine ⟨⟨c, ?_, hcside⟩, fun hm => hout (hline' d hm), fun hm => hfreed (hcond' d hm)⟩
      rw [heq]
      exact (hplace r hr).trans hc
    refine le_trans ?_ (Set.encard_le_encard hkept)
    refine le_trans ?_ (Set.encard_tsub_one_le_encard_sdiff_singleton _ p)
    refine ENat.le_sub_of_add_le_right ENat.one_ne_top ?_
    calc (s₁.free d : ℕ∞) + 1 ≤ s.free d := by exact_mod_cast hown
      _ ≤ (s.awake l d).encard := henough

/-- The lines after a step, and what is on its way to them. -/
theorem Moved.served (hmoved : Moved fiber clear s s') (hlined : Lined fiber s l)
    (hserved : Served s l) : ∃ l', Lined fiber s' l' ∧ Served s' l' := by
  cases hmoved with
  | put p v pick hp hopen hroom =>
    have hstored : Lined fiber (s.store p v) l :=
      (hlined.setPlace (hp.rests hlined) (x := .returned .sent) (by simp)).ring
    refine ⟨_, hstored.wake .recv pick, hserved.exchange hp ?_ hstored rfl rfl ?_ ?_ ?_ pick⟩
    · exact fun d => by cases d <;> simp
    · exact fun r hr => update_of_ne hr _ _
    · simp only [ChanState.free, ChanState.store, ChanState.setPlace]
      omega
    · exact le_rfl
  | take p pick hp hsome =>
    have hfetched : Lined fiber (s.fetch p clear) l :=
      (hlined.setPlace (hp.rests hlined)
        (x := .returned (.received (s.q s.head))) (by simp)).ring
    refine ⟨_, hfetched.wake .send pick, hserved.exchange hp ?_ hfetched rfl rfl ?_ ?_ ?_ pick⟩
    · exact fun d => by cases d <;> simp
    · exact fun r hr => update_of_ne hr _ _
    · simp only [ChanState.free, ChanState.fetch, ChanState.setPlace]
      omega
    · simp only [ChanState.free, ChanState.fetch, ChanState.setPlace]
      omega
  | answer p a side hp hidle _ =>
    refine ⟨l, hlined.setPlace (hp.rests hlined) (by simp), ?_⟩
    rcases hidle with hclosed | hfree
    · exact .of_empty (hserved.shut hclosed)
    · refine hserved.mono rfl (fun d => by cases d <;> rfl) (fun _ => .refl _)
        (fun _ => .refl _) fun d r hr => update_of_ne (fun he => ?_) _ _
      exact not_waitsFor_of_free hfree (he ▸ hr.1)
  | push p c hp hfiber hwait =>
    refine ⟨_, hlined.push (hp.rests hlined) hfiber c, hserved.wait hp hwait rfl
      (fun d => by cases d <;> rfl) (fun r hr => update_of_ne hr _ _) fun d hd => ?_⟩
    exact ⟨update_of_ne hd _ _, rfl⟩
  | block p c hp hthread hwait =>
    refine ⟨l, hlined.block (hp.rests hlined) hthread c, hserved.wait hp hwait rfl
      (fun d => by cases d <;> rfl) (fun r hr => update_of_ne hr _ _) fun d hd => ?_⟩
    exact ⟨rfl, update_of_ne hd _ _⟩
  | cancel p side hwaits hfiber hunmarked hs =>
    have hp := (hlined.listed p side).mpr ⟨hfiber, hunmarked, hwaits⟩
    obtain ⟨_, hs', heq, hremoved⟩ := hlined.remove hp
    obtain rfl := Option.some_inj.mp (hs.symm.trans hs')
    refine ⟨_, hremoved, hserved.mono (by rw [heq]; rfl) (fun d => ?_) (fun d => ?_)
      (fun d => by rw [heq]; exact .refl _) fun d r hr => ?_⟩
    · rw [heq]
      cases d <;> rfl
    · exact (Lined.update_sublist List.erase_sublist d).subset
    · rw [heq]
      refine update_of_ne (fun he => ?_) _ _
      rw [he] at hr
      exact hr.2.1 (hwaits.unique hr.1 ▸ hp)
  | stay => exact ⟨l, hlined, hserved⟩
  | spurious p side hwaits hp =>
    have hsub (d) : (update s.cond side ((s.cond side).erase p) d).Sublist (s.cond d) :=
      Lined.update_sublist List.erase_sublist d
    exact ⟨l, hlined.release hsub, hserved.mono rfl (fun d => by cases d <;> rfl)
      (fun _ => .refl _) (fun d => (hsub d).subset) fun _ _ _ => rfl⟩
  | close =>
    have hclosed : Lined fiber { s with closed := true } l := hlined.ring
    have hsend := hclosed.popAll .send s.pushes (hlined.short .send)
    have hrecv := hsend.popAll .recv _ (hsend.short .recv)
    have hnone : update (update l .send []) .recv [] = fun _ => [] := by
      funext d
      cases d <;> rfl
    rw [hnone] at hrecv
    exact ⟨_, hrecv.release fun _ => List.nil_sublist _, .of_empty fun _ => ⟨rfl, rfl⟩⟩

def channelInit (s : ChanState P V) : Prop := ∃ cap zero, s = beansChanNew cap zero

/-- Between two turns of the mutex. -/
def Sound (fiber : P → Bool) (s : ChanState P V) : Prop :=
  Flow s ∧ ∃ l, Lined fiber s l ∧ Served s l

theorem reachable_sound (h : Reachable (chanStep fiber clear) channelInit anyStep s) :
    Sound fiber s := by
  refine h.invariant ?_ ?_
  · rintro _ ⟨cap, zero, rfl⟩
    refine ⟨⟨?_, Nat.zero_le _, rfl⟩, _, lined_new fiber cap zero, .of_empty fun _ => ⟨rfl, rfl⟩⟩
    simp only [beansChanNew]
    split_ifs <;> omega
  · rintro s a s' ⟨hflow, l, hlined, hserved⟩ - hs
    have hmoved := step_moved hflow hs
    exact ⟨hmoved.flow hflow, hmoved.served hlined hserved⟩

/-- A party that was let go and finds its side ready leaves its wait with an answer. -/
theorem back_returns (hwaits : s.WaitsFor p side) (hgone : ¬s.Asleep fiber p side)
    (hready : s.Ready side) (cancelled : Bool) (pick : ℕ) :
    ∃ s' a, chanStep fiber clear (.back p cancelled pick) s = some s' ∧
      s'.place p = .returned a ∧ (s.closed = false → a ≠ .refused ∧ a ≠ .nothing) := by
  obtain ⟨c, hc, rfl⟩ := hwaits
  have hgo := not_and.mp hgone ⟨c, hc, rfl⟩
  have hstep : chanStep fiber clear (.back p cancelled pick) s =
      some (s.finish p clear pick c) := by
    cases hf : fiber p <;> simp_all [chanStep, ChanState.enter]
  cases c with
  | send v =>
    rw [ChanState.finish] at hstep
    split_ifs at hstep with hclosed
    · exact ⟨_, _, hstep, update_self _ _ _, fun hopen => absurd hclosed (by simp [hopen])⟩
    · obtain ⟨_, _, _, _, -, heq⟩ := chanWake_frame (s.store p v) .recv pick
      exact ⟨_, .sent, hstep, by rw [ChanState.put, heq]; exact update_self _ _ _, by simp⟩
  | recv =>
    rw [ChanState.finish] at hstep
    split_ifs at hstep with hnone
    · exact ⟨_, _, hstep, update_self _ _ _,
        fun hopen => absurd (hready.resolve_left (not_not.mpr hnone)) (by simp [hopen])⟩
    · obtain ⟨_, _, _, _, -, heq⟩ := chanWake_frame (s.fetch p clear) .send pick
      exact ⟨_, .received _, hstep, by rw [ChanState.take, heq]; exact update_self _ _ _,
        by simp⟩

/-- What was received and what is buffered is what was sent, and a step adds to one end of it or
to none. -/
theorem channel_fifo (h : Reachable (chanStep fiber clear) channelInit anyStep s) :
    s.received ++ s.buffered = s.sent ∧ s.buffered.length ≤ s.cap ∧
      ∀ a s', chanStep fiber clear a s = some s' →
        (s.closed = true → s'.closed = true) ∧ Passing s s' := by
  obtain ⟨hflow, -⟩ := reachable_sound h
  refine ⟨hflow.fifo, ?_, fun a s' hs => (step_moved hflow hs).passing⟩
  simpa [ChanState.buffered] using hflow.count_le

/-- Three fibers send into one slot. -/
def Senders (more : List (ChanAction ℕ ℕ)) (s : ChanState ℕ ℕ) : Prop :=
  run (chanStep (fun _ => true) id)
    ([.call 0 (.send 5) 0, .call 1 (.send 6) 0, .call 2 (.send 7) 0] ++ more)
    (beansChanNew 1 0) = some s

theorem Senders.reachable {more : List (ChanAction ℕ ℕ)} {s : ChanState ℕ ℕ}
    (h : Senders more s) : Reachable (chanStep (fun _ => true) id) channelInit anyStep s :=
  Reachable.run _ (.start ⟨1, 0, rfl⟩) h

/-- The first value sent is the first received. -/
theorem channel_fifo_senders : ∃ s, Senders [.tryCall 0 .recv 0] s ∧ s.received = [5] ∧
    s.received ++ s.buffered = s.sent := by
  obtain ⟨s, hs, hreceived⟩ : ∃ s, Senders [.tryCall 0 .recv 0] s ∧ s.received = [5] :=
    ⟨_, rfl, rfl⟩
  exact ⟨s, hs, hreceived, (channel_fifo hs.reachable).1⟩

/-- The lines hold the fibers that wait unsignalled, as they came. -/
theorem channel_linesExact (h : Reachable (chanStep fiber clear) channelInit anyStep s) :
    ∃ l, Lined fiber s l := by
  obtain ⟨-, l, hlined, -⟩ := reachable_sound h
  exact ⟨l, hlined⟩

/-- The first of the two waiting fibers is cancelled. -/
theorem channel_linesExact_senders : ∃ s, Senders [.back 1 true 0] s ∧
    ∃ l, Lined (fun _ => true) s l := by
  obtain ⟨s, hs⟩ : ∃ s, Senders [.back 1 true 0] s := ⟨_, rfl⟩
  exact ⟨s, hs, channel_linesExact hs.reachable⟩

/-- While a party sleeps although there is something for its side, another one is on its way
back there and will find it, cancelled or not. -/
theorem channel_strandsNobody (h : Reachable (chanStep fiber clear) channelInit anyStep s)
    (hp : s.Asleep fiber p side) (hfree : 0 < s.free side) :
    ∃ q, s.WaitsFor q side ∧ ∀ cancelled pick, ∃ s' a,
      chanStep fiber clear (.back q cancelled pick) s = some s' ∧
        s'.place q = .returned a ∧ a ≠ .refused ∧ a ≠ .nothing := by
  obtain ⟨-, l, hlined, hserved⟩ := reachable_sound h
  have hwait := hlined.asleep_iff.mp hp
  have hone : (1 : ℕ∞) ≤ (s.awake l side).encard :=
    le_trans (by exact_mod_cast hfree)
      (hserved.enough side (hwait.imp List.ne_nil_of_mem List.ne_nil_of_mem))
  obtain ⟨q, hq, hout, hthread⟩ := Set.one_le_encard_iff_nonempty.mp hone
  have hopen : s.closed = false := by
    refine Bool.eq_false_iff.mpr fun hclosed => ?_
    obtain ⟨hl, hcond⟩ := hserved.shut hclosed side
    simp [hl, hcond] at hwait
  have hready : s.Ready side := by
    cases side <;> simp only [ChanState.free, ChanState.Ready] at hfree ⊢ <;> omega
  refine ⟨q, hq, fun cancelled pick => ?_⟩
  obtain ⟨s', a, hs, ha, hgood⟩ := back_returns hq
    (fun hasleep => (hlined.asleep_iff.mp hasleep).elim hout hthread) hready cancelled pick
  exact ⟨s', a, hs, ha, hgood hopen⟩

/-- The fiber 1 was woken and the fiber 2 sleeps at a free slot. -/
theorem channel_strandsNobody_senders : ∃ s, Senders [.tryCall 0 .recv 0] s ∧
    ∃ q, s.WaitsFor q .send := by
  obtain ⟨s, hs, hplace, hasleep, hfree⟩ : ∃ s, Senders [.tryCall 0 .recv 0] s ∧
    s.place 2 = .waiting (.send 7) ∧ s.signalled 2 = false ∧ s.free .send = 1 :=
    ⟨_, rfl, rfl, rfl, rfl⟩
  obtain ⟨q, hq, -⟩ := channel_strandsNobody hs.reachable ⟨⟨_, hplace, rfl⟩, hasleep⟩
    (hfree ▸ Nat.one_pos)
  exact ⟨s, hs, q, hq⟩

theorem chanWake_signalled (hhead : (s.line side).head = (l side).head?) {pick : ℕ}
    (hwas : s.signalled p = false) (hnow : (s.chanWake side pick).signalled p = true) :
    (l side).head? = some p := by
  rw [ChanState.chanWake] at hnow
  rw [← hhead]
  cases hline : (s.line side).head with
  | none =>
    rw [hline] at hnow
    exact absurd (hwas.symm.trans hnow) Bool.false_ne_true
  | some f =>
    rw [hline] at hnow
    by_contra hne
    refine absurd (hwas.symm.trans ?_) Bool.false_ne_true
    exact (update_of_ne (fun he => hne (congrArg some he.symm)) _ _).symm.trans hnow

/-- While the channel is open, a step signals no fiber but the first of a line. -/
theorem Moved.woken (hmoved : Moved fiber clear s s') (hlined : Lined fiber s l)
    (hopen : s'.closed = false) (hwas : s.signalled p = false) (hnow : s'.signalled p = true) :
    ∃ side, (l side).head? = some p := by
  cases hmoved with
  | put q v pick =>
    exact ⟨.recv, chanWake_signalled (s := s.store q v) (hlined.linked _).head_eq hwas hnow⟩
  | take q pick =>
    exact ⟨.send, chanWake_signalled (s := s.fetch q clear) (hlined.linked _).head_eq hwas hnow⟩
  | push q c =>
    refine absurd hnow (Bool.eq_false_iff.mp ?_)
    exact (update_apply s.signalled q false p).trans (by simp [hwas])
  | cancel q side _ _ _ hs =>
    rw [fiberLineRemove_frame hs] at hnow
    exact absurd (hwas.symm.trans hnow) Bool.false_ne_true
  | close =>
    obtain ⟨_, _, _, heq⟩ := close_frame s
    rw [heq] at hopen
    cases hopen
  | _ => exact absurd (hwas.symm.trans hnow) Bool.false_ne_true

/-- A fiber is woken before those that went into its line after it. -/
theorem channel_wakesOldest (h : Reachable (chanStep fiber clear) channelInit anyStep s)
    {a : ChanAction P V} (hs : chanStep fiber clear a s = some s') (hopen : s'.closed = false)
    {r : P} (hfiber : fiber p = true ∧ fiber r = true) (hp : s.Asleep fiber p side)
    (hr : s.Asleep fiber r side) (hne : r ≠ p) (hwoken : s'.signalled p = true) :
    s.since p < s.since r := by
  obtain ⟨hflow, l, hlined, -⟩ := reachable_sound h
  have hmem (q : P) (hf : fiber q = true) (hq : s.Asleep fiber q side) : q ∈ l side :=
    (hlined.listed q side).mpr ⟨hf, by simpa [hf] using hq.2, hq.1⟩
  obtain ⟨d, hd⟩ := (step_moved hflow hs).woken hlined hopen (by simpa [hfiber] using hp.2) hwoken
  obtain ⟨rest, hl⟩ := List.head?_eq_some_iff.mp hd
  have hside : d = side := by
    by_contra hdne
    exact hlined.disjoint hdne (hl ▸ List.mem_cons_self) (hmem p hfiber.1 hp)
  subst hside
  have hrest : r ∈ rest := (List.mem_cons.mp (hl ▸ hmem r hfiber.2 hr)).resolve_left hne
  exact (List.pairwise_cons.mp (hl ▸ hlined.ordered d)).1 r hrest

/-- Of the two senders that wait, the one that came first is woken. -/
theorem channel_wakesOldest_senders : ∃ s, Senders [] s ∧ s.since 1 < s.since 2 := by
  obtain ⟨s, hs, s', hstep, hone, htwo, hmarks, hafter⟩ : ∃ s, Senders [] s ∧ ∃ s',
    chanStep (fun _ => true) id (.tryCall 0 .recv 0) s = some s' ∧
      s.place 1 = .waiting (.send 6) ∧ s.place 2 = .waiting (.send 7) ∧
      (s.signalled 1 = false ∧ s.signalled 2 = false) ∧
      s'.closed = false ∧ s'.signalled 1 = true :=
    ⟨_, rfl, _, rfl, rfl, rfl, ⟨rfl, rfl⟩, rfl, rfl⟩
  exact ⟨s, hs, channel_wakesOldest hs.reachable hstep hafter.1 ⟨rfl, rfl⟩
    ⟨⟨_, hone, rfl⟩, hmarks.1⟩ ⟨⟨_, htwo, rfl⟩, hmarks.2⟩ (by decide) hafter.2⟩

/-- Whoever waits at a closed channel comes back with an answer at its next turn. -/
theorem closedChannel_answers (h : Reachable (chanStep fiber clear) channelInit anyStep s)
    (hclosed : s.closed = true) (hp : s.WaitsFor p side) (cancelled : Bool) (pick : ℕ) :
    ∃ s' a, chanStep fiber clear (.back p cancelled pick) s = some s' ∧
      s'.place p = .returned a := by
  obtain ⟨-, l, hlined, hserved⟩ := reachable_sound h
  obtain ⟨hl, hcond⟩ := hserved.shut hclosed side
  have hgone : ¬s.Asleep fiber p side := by
    rw [hlined.asleep_iff, hl, hcond]
    simp
  have hready : s.Ready side := by cases side <;> exact .inr hclosed
  obtain ⟨s', a, hs, ha, -⟩ := back_returns hp hgone hready cancelled pick
  exact ⟨s', a, hs, ha⟩

/-- A sender that waits when the channel is closed comes back. -/
theorem closedChannel_answers_senders : ∃ s s' a, Senders [.close] s ∧
    chanStep (fun _ => true) id (.back 2 true 0) s = some s' ∧ s'.place 2 = .returned a := by
  obtain ⟨s, hs, hplace, hclosed⟩ : ∃ s, Senders [.close] s ∧
    s.place 2 = .waiting (.send 7) ∧ s.closed = true := ⟨_, rfl, rfl, rfl⟩
  obtain ⟨s', a, hback⟩ := closedChannel_answers hs.reachable hclosed ⟨_, hplace, rfl⟩ true 0
  exact ⟨s, s', a, hs, hback⟩

end Channel
end Beans
