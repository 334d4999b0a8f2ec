import Beans.Cycle.Heap

/-!
# Giving shells back

Freeing a shell touches no head: the counts, the colours and the buffer bits
stay, and the shell is added to those that were given back.
-/

namespace Beans
namespace Cycle

variable {N C : Type*} [DecidableEq N]

/-- The heads of two states agree. -/
structure SameHeads (s s' : CcState N C) : Prop where
  count : s'.count = s.count
  color : s'.color = s.color
  buf : s'.buf = s.buf

omit [DecidableEq N] in
theorem SameHeads.refl (s : CcState N C) : SameHeads s s := ⟨rfl, rfl, rfl⟩

omit [DecidableEq N] in
theorem SameHeads.trans {s₁ s₂ s₃ : CcState N C} (h : SameHeads s₁ s₂)
    (h' : SameHeads s₂ s₃) : SameHeads s₁ s₃ :=
  ⟨h'.count.trans h.count, h'.color.trans h.color, h'.buf.trans h.buf⟩

variable [DecidableEq C] {g : CcShape N C}

omit [DecidableEq N] in
theorem ccFreeShell_heads (p : N) (s : CcState N C) :
    SameHeads s (ccFreeShell g p s) := by
  unfold ccFreeShell
  cases g.handle p with
  | none => exact ⟨rfl, rfl, rfl⟩
  | some c =>
    dsimp only
    split <;> exact ⟨rfl, rfl, rfl⟩

omit [DecidableEq N] in
theorem ccFreeShell_freed (p : N) (s : CcState N C) :
    (ccFreeShell g p s).freed = s.freed ++ [p] := by
  unfold ccFreeShell
  cases g.handle p with
  | none => rfl
  | some c =>
    dsimp only
    split <;> rfl

omit [DecidableEq N] in
theorem ccFreeShell_roots (p : N) (s : CcState N C) :
    (ccFreeShell g p s).ccRoots = s.ccRoots ∧
      (ccFreeShell g p s).workerRoots = s.workerRoots := by
  unfold ccFreeShell
  cases g.handle p with
  | none => exact ⟨rfl, rfl⟩
  | some c =>
    dsimp only
    split <;> exact ⟨rfl, rfl⟩

/-- A dead set without a buffered member is given back. -/
theorem ccFreeCycleShells_spec (dead : List N) (s : CcState N C)
    (hbuf : ∀ p ∈ dead, s.buf p = false) :
    SameHeads s (ccFreeCycleShells g dead s) ∧
      (ccFreeCycleShells g dead s).freed = s.freed ++ dead ∧
      (ccFreeCycleShells g dead s).ccRoots = s.ccRoots ∧
      (ccFreeCycleShells g dead s).workerRoots = s.workerRoots := by
  induction dead generalizing s with
  | nil => exact ⟨.refl s, (List.append_nil _).symm, rfl, rfl⟩
  | cons p rest ih =>
    have hp := hbuf p List.mem_cons_self
    have hstep : ccFreeCycleShells g (p :: rest) s =
        ccFreeCycleShells g rest (ccFreeShell g p s) := by
      rw [ccFreeCycleShells, List.foldl_cons, if_neg (by simp [hp])]
      rfl
    have hheads := ccFreeShell_heads (g := g) p s
    have hroots := ccFreeShell_roots (g := g) p s
    obtain ⟨hsame, hfreed, hcc, hworker⟩ := ih (ccFreeShell g p s)
      fun q hq => by
        rw [hheads.buf]
        exact hbuf q (List.mem_cons_of_mem p hq)
    rw [hstep]
    refine ⟨hheads.trans hsame, ?_, hcc.trans hroots.1,
      hworker.trans hroots.2⟩
    rw [hfreed, ccFreeShell_freed, List.append_assoc]
    rfl

/-- A live purple candidate. -/
def CcState.candidate (s : CcState N C) (p : N) : Bool :=
  decide (s.color p = .purple) && decide (0 < s.count p)

/-- The filter of `cc_collect`: live candidates stay, dead shells go. -/
theorem ccFilter_spec (l : List N) (hl : l.Nodup) (s : CcState N C) :
    (ccFilter g l s).1 = l.filter s.candidate ∧
      (ccFilter g l s).2.count = s.count ∧
      (ccFilter g l s).2.color = s.color ∧
      (∀ p, (ccFilter g l s).2.buf p = true ↔
        s.buf p = true ∧ (p ∈ l → s.candidate p = true)) ∧
      (ccFilter g l s).2.freed =
        s.freed ++ l.filter fun p => decide (s.count p = 0) := by
  induction l generalizing s with
  | nil => simp [ccFilter]
  | cons p rest ih =>
    obtain ⟨hp, hrest⟩ := List.nodup_cons.mp hl
    have hcandidate : s.candidate p = true ↔
        s.color p = .purple ∧ 0 < s.count p := by
      simp [CcState.candidate]
    rw [ccFilter]
    by_cases hkeep : s.color p = .purple ∧ 0 < s.count p
    · obtain ⟨hkept, hcount, hcolor, hbuf, hfreed⟩ := ih hrest s
      rw [if_pos hkeep]
      refine ⟨?_, hcount, hcolor, ?_, ?_⟩
      · rw [List.filter_cons_of_pos (hcandidate.mpr hkeep), ← hkept]
      · intro q
        rw [hbuf, List.mem_cons]
        by_cases hq : q = p
        · subst hq
          simp [hp, hcandidate.mpr hkeep]
        · simp [hq]
      · rw [hfreed, List.filter_cons_of_neg]
        simp [hkeep.2.ne']
    · rw [if_neg hkeep]
      have hnot : ¬s.candidate p = true := mt hcandidate.mp hkeep
      have hsame : SameHeads (s.clearBuf p)
          (if (s.clearBuf p).count p = 0 then
            ccFreeShell g p (s.clearBuf p) else s.clearBuf p) := by
        split
        · exact ccFreeShell_heads p _
        · exact .refl _
      obtain ⟨hkept, hcount, hcolor, hbuf, hfreed⟩ := ih hrest
        (if (s.clearBuf p).count p = 0 then
            ccFreeShell g p (s.clearBuf p) else s.clearBuf p)
      have hcand : CcState.candidate (if (s.clearBuf p).count p = 0 then
            ccFreeShell g p (s.clearBuf p) else s.clearBuf p) =
          s.candidate := by
        funext q
        simp only [CcState.candidate, hsame.count, hsame.color]
        rfl
      refine ⟨?_, hcount.trans hsame.count, hcolor.trans hsame.color, ?_, ?_⟩
      · rw [hkept, hcand, List.filter_cons_of_neg hnot]
      · intro q
        rw [hbuf, hsame.buf, hcand, CcState.clearBuf_buf, List.mem_cons]
        by_cases hq : q = p
        · subst hq
          simp [hnot]
        · simp [hq]
      · rw [hfreed, hsame.count]
        change _ ++ List.filter (fun q => decide (s.count q = 0)) rest = _
        by_cases hzero : s.count p = 0
        · have hz : (s.clearBuf p).count p = 0 := hzero
          rw [if_pos hz, ccFreeShell_freed, List.filter_cons_of_pos
            (by simpa using hzero), List.append_assoc]
          rfl
        · have hz : ¬(s.clearBuf p).count p = 0 := hzero
          rw [if_neg hz, List.filter_cons_of_neg (by simpa using hzero)]
          rfl

end Cycle
end Beans
