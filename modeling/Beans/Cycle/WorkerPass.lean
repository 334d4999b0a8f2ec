import Beans.Cycle.Collect

/-!
# A walk that meets another thread's graph

Marking takes counts away while another thread may use the objects.  A pass of a thread's
collector that reached a shared object puts every count back, frees nothing that it walked, and
hands the candidates it took to the global collector.

The inputs are a heap, the buffer of the thread and a budget for the walk.  The pass first
drops the candidates that are dead or shared; then it marks from the oldest of the others, as
many as the budget lets it.  If the marking met a shared object, blackening from the gray
candidates is its exact inverse: both follow the same edges once, and between them no colour
but gray was given.

The results speak of the pass up to the release of what the shells of dead `Shared` handles
hand back, which lowers counts of their payloads as any other release does, and up to the
sweeps of dead shells in the global buffer.

**Results.**
* `ccWorkerCollect_undoes`: the counts, the objects walked and the candidates after such a
  pass.
-/

namespace Beans
namespace Cycle

open Worklist CountedGraph

variable {N C : Type*} [DecidableEq N] {g : CcShape N C} {t : Tracer N}
  {s s' s₀ sm : CcState N C} {seeds l : List N} {p : N} {fuel : ℕ}

/-- The candidates that the cheap pass keeps. -/
def CcState.workerCandidates (g : CcShape N C) (s : CcState N C) : List N :=
  s.workerRoots.filter fun p => ccOwnerLocalNode g p && s.candidate p

/-- The state after a pass that took the candidates `walked` and undid its marking. -/
structure Undone (g : CcShape N C) (s s' : CcState N C) (walked : List N) : Prop where
  count : s'.count = s.count
  rested : ∀ p, s'.color p ≠ .gray
  freed : ∀ p ∈ s'.freed, p ∈ s.freed ∨ s.count p = 0
  published : s'.ccRoots =
    s.ccRoots ++ (s.workerRoots.filter fun p => !ccOwnerLocalNode g p) ++ walked
  parked : ∀ r ∈ walked, s'.buf r = true ∧ s'.color r = .purple
  left : walked ++ s'.workerRoots = s.workerCandidates g

omit [DecidableEq N] in
theorem ccFreeShell_frame [DecidableEq C] (p : N) (s : CcState N C) :
    ∃ strong deferred, ccFreeShell g p s =
      { s with freed := s.freed ++ [p], strong := strong, deferred := deferred } := by
  rw [ccFreeShell]
  cases g.handle p with
  | none => exact ⟨_, _, rfl⟩
  | some c =>
    dsimp only
    split_ifs <;> exact ⟨_, _, rfl⟩

/-- Candidates stay in the buffer, and only dead shells go. -/
theorem ccWorkerFilter_spec [DecidableEq C] (l : List N) (s : CcState N C) :
    ∃ buf freed strong deferred, ccWorkerFilter g l s =
      ((l.filter (fun p => ccOwnerLocalNode g p && s.candidate p),
        l.filter fun p => !ccOwnerLocalNode g p),
        { s with buf := buf, freed := freed, strong := strong, deferred := deferred }) ∧
      (∀ p, s.candidate p = true → buf p = s.buf p) ∧
      ∀ p ∈ freed, p ∈ s.freed ∨ s.count p = 0 := by
  induction l generalizing s with
  | nil => exact ⟨_, _, _, _, rfl, fun _ _ => rfl, fun _ => .inl⟩
  | cons p rest ih =>
    rw [ccWorkerFilter]
    split_ifs with hlocal hkeep
    · obtain ⟨_, _, strong, deferred, heq, hrest⟩ := ih s
      exact ⟨_, _, strong, deferred, by simp [heq, hlocal], hrest⟩
    · obtain ⟨_, _, strong, deferred, heq, hrest⟩ := ih s
      exact ⟨_, _, strong, deferred, by simp [heq, hlocal, CcState.candidate_iff.mpr hkeep], hrest⟩
    · have hnot : s.candidate p = false :=
        Bool.eq_false_iff.mpr (mt CcState.candidate_iff.mp hkeep)
      have hdrop : ∃ freed strong deferred,
          (if (s.clearBuf p).count p = 0 then ccFreeShell g p (s.clearBuf p)
            else s.clearBuf p) =
            { s.clearBuf p with
              freed := freed, strong := strong, deferred := deferred } ∧
            ∀ q ∈ freed, q ∈ s.freed ∨ s.count q = 0 := by
        split_ifs with hzero
        · obtain ⟨_, _, heq⟩ := ccFreeShell_frame (g := g) p (s.clearBuf p)
          refine ⟨_, _, _, heq, fun q hq => ?_⟩
          refine (List.mem_append.mp hq).imp_right fun hq => ?_
          rw [List.mem_singleton.mp hq]
          exact hzero
        · exact ⟨_, _, _, rfl, fun _ => .inl⟩
      obtain ⟨freed, strong, deferred, hstate, hold⟩ := hdrop
      obtain ⟨buf, freed', strong', deferred', heq, hbuf, hfreed⟩ := ih
        { s.clearBuf p with freed := freed, strong := strong, deferred := deferred }
      refine ⟨buf, freed', strong', deferred', ?_, fun q hq => ?_, fun q hq => ?_⟩
      · simp only [hstate, heq]
        rw [List.filter_cons_of_neg (by simp [hnot]), List.filter_cons_of_neg (by simp [hlocal])]
        rfl
      · rw [hbuf q hq]
        refine (s.clearBuf_buf p q).trans (if_neg ?_)
        rintro rfl
        rw [hnot] at hq
        cases hq
      · exact (hfreed q hq).elim (hold q) .inr

theorem scanBlack_buf (h : scanBlack t fuel p s = some s') : s'.buf = s.buf := by
  refine drain_keeps (P := fun x => x.buf = s.buf) ?_ rfl h
  rintro q st x st' x' hx hbody
  obtain ⟨_, hwalk, -⟩ := ccWalk_visitIncPush t q st x
  rw [scanBlackBody, hwalk] at hbody
  cases hbody
  exact hx

/-- A held root is restored by the scan as by the undoing loop. -/
theorem scan_root (hheld : t.holdsBuffered = true) (hp : s.buf p = true) (hfuel : 0 < fuel) :
    scan t fuel p s = if s.color p = .gray then scanBlack t fuel p s else some s := by
  obtain ⟨n, rfl⟩ := Nat.exists_eq_succ_of_ne_zero hfuel.ne'
  rw [scan, drain, scanBody]
  by_cases hgray : s.color p = .gray
  · rw [if_neg (not_not.mpr hgray), if_pos (.inl ⟨hheld, hp⟩), if_pos hgray]
    cases scanBlack t (n + 1) p s <;> simp [drain_nil]
  · simp [hgray, drain_nil]

theorem forEach_undo {f : N → CcState N C → Option (CcState N C)}
    (hheld : t.holdsBuffered = true) (hfuel : 0 < fuel)
    (hf : ∀ r ∈ l, ∀ s, f r s = if s.color r = .gray then scanBlack t fuel r s else some s)
    (hl : ∀ r ∈ l, s.buf r = true) : forEach f l s = forEach (scan t fuel) l s := by
  induction l generalizing s with
  | nil => rfl
  | cons p rest ih =>
    rw [forEach, forEach, scan_root hheld (hl p List.mem_cons_self) hfuel,
      hf p List.mem_cons_self]
    refine Option.bind_congr fun s' hs => ih ?_ fun r hr => ?_
    · exact fun r hr => hf r (List.mem_cons_of_mem p hr)
    · have hbuf : s'.buf = s.buf := by
        split_ifs at hs
        · exact scanBlack_buf hs
        · cases hs
          rfl
      rw [hbuf]
      exact hl r (List.mem_cons_of_mem p hr)

/-- Undoing the marks puts all counts back. -/
theorem undo_spec [Fintype N] {f : N → CcState N C → Option (CcState N C)}
    (hm : MarkInv t s₀ seeds [] [] sm) (hheld : t.holdsBuffered = true)
    (hf : ∀ r ∈ seeds, ∀ s,
      f r s = if s.color r = .gray then scanBlack t fuel r s else some s)
    (hbuf : ∀ r ∈ seeds, sm.buf r = true) (hrested : ∀ p, s₀.color p ≠ .gray)
    (hfuel : t.fuel ≤ fuel) :
    ∃ s₂, forEach f seeds sm = some s₂ ∧
      s₂ = { sm with count := s₀.count, color := s₂.color } ∧ ∀ p, s₂.color p ≠ .gray := by
  obtain ⟨s₂, W, hs₂, h⟩ := trial_spec hm rfl rfl hfuel
  have hkept : ∀ p, p ∉ W := by
    intro p hp
    obtain ⟨⟨r, hr, hreach⟩, hnot⟩ := (h.mem p).mp hp
    exact hnot ⟨r, (h.gray r).mpr ⟨r, hr, .refl r⟩, .inl ⟨hheld, hbuf r hr⟩, hreach⟩
  have hcount : s₂.count = s₀.count := by
    funext p
    rw [h.count p, Finset.eq_empty_of_forall_notMem hkept, refs_empty, sub_zero]
  have hpos : 0 < fuel := lt_of_lt_of_le (by rw [Tracer.fuel]; omega) hfuel
  refine ⟨s₂, (forEach_undo hheld hpos hf hbuf).trans hs₂, ?_, h.not_gray hrested⟩
  rw [← hcount]
  exact h.frame

omit [DecidableEq N] in
/-- Whoever marks an object next to a boundary remembers it. -/
def Seen (t : Tracer N) (s : CcState N C) : Prop :=
  ∀ p, s.color p = .gray → t.bounded (t.children p) = true → s.sawShared = true

theorem markGray_seen (h : Seen t s) (hs : forEach (markGray t fuel) l s = some s') :
    Seen t s' := by
  refine forEach_keeps (fun r s s' h hs => drain_keeps ?_ h hs) h hs
  intro p st s st' s' h hbody
  rw [markGrayBody, ccWalk_visitDecPush] at hbody
  split_ifs at hbody <;> cases hbody
  · exact h
  · exact h
  · intro q hq hbound
    refine (Bool.or_eq_true _ _).mpr ?_
    by_cases hqp : q = p
    · exact .inr (hqp ▸ hbound)
    · exact .inl (h q ((s.setColor_color p q _).symm.trans hq |>.symm.trans
        (if_neg hqp) |>.symm) hbound)

omit [DecidableEq N] in
theorem workerTracer_works {c : N} (h : (workerTracer g).edge c = .follow) :
    (workerTracer g).works c = true := by
  simp only [workerTracer] at h ⊢
  split_ifs at h with hlocal
  exact hlocal

theorem foldl_setColor (c : Color) (l : List N) (s : CcState N C) :
    l.foldl (fun s p => s.setColor p c) s =
      { s with color := fun q => if q ∈ l then c else s.color q } := by
  induction l generalizing s with
  | nil => simp
  | cons p rest ih =>
    rw [List.foldl_cons, ih]
    have hcolor (q : N) : (if q ∈ rest then c else (s.setColor p c).color q) =
        if q ∈ p :: rest then c else s.color q := by
      rw [s.setColor_color]
      by_cases hq : q = p <;> simp [hq]
    rw [funext hcolor]
    rfl

/-- A pass whose candidates reach a shared object through the thread's own objects
leaves every count as it was, up to the release of what the shells handed back and the
husk sweeps, and hands over what it walked. -/
theorem ccWorkerCollect_undoes [Fintype N] [DecidableEq C] {budget : ℕ}
    (hbuf : ∀ r ∈ s.workerRoots, s.buf r = true) (hrested : ∀ p, s.color p ≠ .gray)
    (hmin : s.workerWalkMin ≤ ((s.workerCandidates g).length : ℤ))
    (hmeets : ∃ p, Marked (workerTracer g) ((s.workerCandidates g).take budget) p ∧
      (workerTracer g).bounded (g.children p) = true)
    (hfuel : (workerTracer g).fuel ≤ fuel) :
    ∃ s', ccWorkerCollect g budget fuel s = some s' ∧
      Undone g s s' ((s.workerCandidates g).take budget) := by
  obtain ⟨buf, freed, strong, deferred, hfilter, hkeep, hfreed⟩ :=
    ccWorkerFilter_spec (g := g) s.workerRoots s
  obtain ⟨walked, hwalked⟩ : ∃ l, l = (s.workerCandidates g).take budget := ⟨_, rfl⟩
  have htaken : ∀ r ∈ walked, r ∈ s.workerRoots ∧
      ccOwnerLocalNode g r = true ∧ s.candidate r = true := by
    intro r hr
    rw [hwalked] at hr
    obtain ⟨hroot, hkept⟩ := List.mem_filter.mp (List.mem_of_mem_take hr)
    exact ⟨hroot, (Bool.and_eq_true _ _).mp hkept⟩
  have hparked : ∀ r ∈ walked, buf r = true := fun r hr =>
    (hkeep r (htaken r hr).2.2).trans (hbuf r (htaken r hr).1)
  change ccWorkerFilter g s.workerRoots s = ((s.workerCandidates g, _), _) at hfilter
  rw [← hwalked] at hmeets ⊢
  rw [ccWorkerCollect]
  simp only [hfilter]
  rw [if_pos hmin, ← hwalked]
  generalize hs₀ : ({ s with
    buf := buf, freed := freed, strong := strong, deferred := deferred, sawShared := false
    workerRoots := s.workerCandidates g
    ccRoots := s.ccRoots ++ s.workerRoots.filter fun p => !ccOwnerLocalNode g p } :
      CcState N C) = s₀
  have hrested₀ : ∀ p, s₀.color p ≠ .gray := by
    rw [← hs₀]
    exact hrested
  obtain ⟨sm, hsm, hm⟩ := markGray_spec (fun _ => workerTracer_works)
    (fun r hr => (htaken r hr).2.1) hrested₀ hfuel
  have hsaw : sm.sawShared = true := by
    obtain ⟨p, hp, hbound⟩ := hmeets
    exact markGray_seen (fun p hp => absurd hp (hrested₀ p)) hsm p (hm.gray_iff.mpr hp) hbound
  have hbufm : sm.buf = buf := by
    rw [hm.frame, ← hs₀]
  obtain ⟨s₂, hs₂, hframe, hgray⟩ := undo_spec
    (f := fun p s => if s.color p = .gray then ccWorkerScanBlack g fuel p s else some s)
    hm rfl (fun r hr s => by rw [ccWorkerScanBlack, if_pos (htaken r hr).2.1])
    (by rwa [hbufm]) hrested₀ hfuel
  refine ⟨{ s₂ with
    color := fun q => if q ∈ walked then .purple else s₂.color q
    ccRoots := s₂.ccRoots ++ walked
    workerRoots := (s.workerCandidates g).drop budget }, ?_, ?_⟩
  · change (forEach (markGray _ _) _ _).bind _ = _
    rw [hsm, Option.bind_some, if_pos hsaw, ccWorkerUndo, hs₂]
    simp only [Option.bind_eq_bind, Option.bind_some, foldl_setColor]
    rfl
  · rw [hframe, hm.frame, ← hs₀]
    refine ⟨rfl, fun p => ?_, hfreed, rfl, fun r hr => ⟨hparked r hr, if_pos hr⟩, ?_⟩
    · dsimp only
      split_ifs
      · decide
      · exact hgray p
    · rw [hwalked]
      exact List.take_append_drop _ _

/-- An object of the thread that refers to a shared one. -/
def meetingShape : CcShape (Fin 2) Unit :=
  { ringShape with shared := fun p => p.val == 1 }

/-- The pass meets the shared object and hands its one candidate back. -/
theorem ccWorkerCollect_undoes_pair : ∃ s', ccWorkerCollect meetingShape 1 4
    { pairState (fun _ => 1) with workerRoots := [0], workerWalkMin := 1 } = some s' ∧
      Undone meetingShape { pairState (fun _ => 1) with workerRoots := [0], workerWalkMin := 1 }
        s' [0] :=
  ccWorkerCollect_undoes (by decide) (by decide) (by decide)
    ⟨0, ⟨0, by decide, .refl 0⟩, by decide⟩ (by decide)

end Cycle
end Beans
