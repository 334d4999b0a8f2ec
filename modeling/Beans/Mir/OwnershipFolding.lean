import Beans.Mir.OwnershipVerdict

/-!
# Folding the live flags

Where the live state is known the flag has that value, and where it is not the
flag is kept.  An execution without the folded flags therefore releases at the
same places as one with every flag, step by step.

**Results.**
* `verify_local_ownership_sound`: the verifier ends; without a report every use is right, and
  where an elided bind has its local to itself the states and the folding are.
* `elided_rebind_release_lost`: an elided bind of a local that is set loses its release.
-/

namespace Beans
namespace Mir

open MirLocalState

variable {function : MirFunction}

/-- The frames have the same flags, as far as the flags are kept. -/
def Agrees (emission : Emission) (frame folded : Frame) : Prop :=
  ∀ index, emission.keeps index = true →
    folded.flag index = frame.flag index

theorem startFrame_agrees (emission : Emission) :
    Agrees emission (startFrame function flagged)
      (startFrame function emission) := by
  intro index hkeeps
  unfold startFrame flagged
  dsimp only
  rw [hkeeps]

variable {emission : Emission}

theorem Agrees.exec {frame folded : Frame} (h : Agrees emission frame folded)
    (instruction : MirInstruction) :
    Agrees emission (execInstruction function flagged instruction frame)
      (execInstruction function emission instruction folded) := by
  intro index hkeeps
  rw [exec_flag, exec_flag]
  cases touched function instruction with
  | none => exact h index hkeeps
  | some p =>
    dsimp only
    rw [h index hkeeps]
    by_cases hi : index = p.1
    · rw [if_pos ⟨hi ▸ hkeeps, hi⟩, if_pos ⟨rfl, hi⟩]
    · rw [if_neg fun hk => hi hk.2, if_neg fun hk => hi hk.2]

theorem releases_known (instruction : MirInstruction) (l : MirLocal) {liveState : ℕ}
    {flag folded : Bool} (hzero : liveState = 0 → flag = false)
    (hone : liveState = 1 → flag = true)
    (htwo : liveState ≠ 0 → liveState ≠ 1 → folded = flag) :
    releases instruction l liveState folded =
      releases instruction l 2 flag := by
  unfold releases
  congr 2
  rw [if_neg (show ¬ 2 = 0 by omega), if_neg (show ¬ 2 = 1 by omega)]
  by_cases h₀ : liveState = 0
  · rw [if_pos h₀, hzero h₀]
  · by_cases h₁ : liveState = 1
    · rw [if_neg h₀, if_pos h₁, hone h₁]
    · rw [if_neg h₀, if_neg h₁, htwo h₀ h₁]

theorem releases_eq_false {instruction : MirInstruction}
    (h : ¬ (instruction.op = .dropLocal ∨
      (instruction.op = .assign ∧ instruction.text = "=")))
    (l : MirLocal)
    (liveState : ℕ)
    (flag : Bool) :
    releases instruction l liveState flag = false := by
  unfold releases
  rw [Bool.and_eq_false_iff]
  left
  rw [← Bool.not_eq_true]
  simpa using h

theorem flagOf_lt {flow : Flow} (hflow : Settled function flow) {b : ℕ}
    (hreached : (flow.input.getD b (fresh function)).reached = true) (k index : ℕ) :
    (stateAt function flow b k).flagOf index < 3 := by
  have hword := ((stateAt_fit hflow hreached k).words index).1
  unfold flagOf flagOfWord
  rw [Nat.shiftRight_eq_div_pow]
  unfold word at hword
  omega

section Simulation

variable {usesFibers : Bool} {flow : Flow}
variable {result : MirFunction × List Diagnostic}

variable {b k : ℕ} {trace : List (ℕ × ℕ)}

/-- One instruction releases the same with the flags and without. -/
theorem Verified.releasedAt_eq (hflow : Settled function flow)
    (h : Verified function usesFibers flow result) (helided : ElidedBindsAlone function)
    {frame folded : Frame} {block : MirBlock} {instruction : MirInstruction}
    (hrun : Runs function flagged b k frame trace) (hblock : function.blocks[b]? = some block)
    (hinstruction : block.instructions[k]? = some instruction)
    (hagrees : Agrees result.1.emission frame folded) :
    releasedAt function result.1.emission instruction folded b k =
      releasedAt function flagged instruction frame b k := by
  have hreached := (hrun.covers hflow).1
  unfold releasedAt
  cases htouched : touched function instruction with
  | none => rfl
  | some p =>
    dsimp only
    have hsame : releases instruction p.2 (result.1.emission.liveState b k)
        (folded.flag p.1) =
        releases instruction p.2 2 (frame.flag p.1) := by
      by_cases hop : instruction.op = .dropLocal ∨
          (instruction.op = .assign ∧ instruction.text = "=")
      · have hstamped : instruction.op = .dropLocal ∨
            instruction.op = .assign := hop.imp_right And.left
        obtain ⟨hzero, hone⟩ := h.liveStatesExact hflow helided b k frame
          trace hrun block hblock instruction p.1 p.2 hinstruction htouched
          hstamped
        have hlive := h.liveState hblock hreached hinstruction htouched
          hstamped
        have hlt := flagOf_lt hflow hreached k p.1
        refine releases_known instruction p.2 hzero hone fun h₀ h₁ => ?_
        refine hagrees p.1 (h.keeps hblock hreached hinstruction htouched
          hop ?_)
        omega
      · rw [releases_eq_false hop, releases_eq_false hop]
    rw [hsame]
    rfl

/-- Every execution with the flags has one without that releases alike. -/
theorem Verified.folded (hflow : Settled function flow)
    (h : Verified function usesFibers flow result) (helided : ElidedBindsAlone function)
    {b k : ℕ} {frame : Frame} {trace : List (ℕ × ℕ)}
    (hrun : Runs function flagged b k frame trace) :
    ∃ folded, Runs function result.1.emission b k folded trace ∧
      Agrees result.1.emission frame folded := by
  induction hrun with
  | enter hd he hbody =>
    exact ⟨_, Runs.enter hd he hbody, startFrame_agrees _⟩
  | step hrun hblock hinstruction ih =>
    obtain ⟨folded, hfolded, hagrees⟩ := ih
    rw [← h.releasedAt_eq hflow helided hrun hblock hinstruction hagrees]
    exact ⟨_, Runs.step hfolded hblock hinstruction, hagrees.exec _⟩
  | leave hrun hblock hend htarget hlt ih =>
    obtain ⟨folded, hfolded, hagrees⟩ := ih
    exact ⟨folded, Runs.leave hfolded hblock hend htarget hlt, hagrees⟩

/-- Every execution without the flags has one with them that releases alike. -/
theorem Verified.unfolded (hflow : Settled function flow)
    (h : Verified function usesFibers flow result) (helided : ElidedBindsAlone function)
    {folded : Frame} (hrun : Runs function result.1.emission b k folded trace) :
    ∃ frame, Runs function flagged b k frame trace ∧
      Agrees result.1.emission frame folded := by
  induction hrun with
  | enter hd he hbody =>
    exact ⟨_, Runs.enter hd he hbody, startFrame_agrees _⟩
  | step hrun hblock hinstruction ih =>
    obtain ⟨frame, hframe, hagrees⟩ := ih
    rw [h.releasedAt_eq hflow helided hframe hblock hinstruction hagrees]
    exact ⟨_, Runs.step hframe hblock hinstruction, hagrees.exec _⟩
  | leave hrun hblock hend htarget hlt ih =>
    obtain ⟨frame, hframe, hagrees⟩ := ih
    exact ⟨frame, Runs.leave hframe hblock hend htarget hlt, hagrees⟩

theorem Verified.foldingIsInvisible (hflow : Settled function flow)
    (h : Verified function usesFibers flow result) (helided : ElidedBindsAlone function) :
    FoldingIsInvisible function result.1 := by
  intro b k trace
  constructor
  · rintro ⟨frame, hrun⟩
    obtain ⟨folded, hfolded, -⟩ := h.folded hflow helided hrun
    exact ⟨folded, hfolded⟩
  · rintro ⟨folded, hrun⟩
    obtain ⟨frame, hframe, -⟩ := h.unfolded hflow helided hrun
    exact ⟨frame, hframe⟩

end Simulation

theorem Runs.hasBody {b k : ℕ} {frame : Frame} {trace : List (ℕ × ℕ)}
    (hrun : Runs function emission b k frame trace) :
    function.declaration = false ∧ function.external = false ∧
      function.blocks ≠ [] := by
  induction hrun with
  | enter hd he hbody => exact ⟨hd, he, hbody⟩
  | step _ _ _ ih => exact ih
  | leave _ _ _ _ _ ih => exact ih

/-- The verifier ends.  Without a report every use finds its local as it should;
and where an elided bind has its local to itself the live states are the flags
and the folded flags are not missed. -/
theorem verify_local_ownership_sound
    (usesFibers : Bool)
    (function : MirFunction) :
    ∃ (result : MirFunction × List Diagnostic) (n : ℕ),
      (∀ fuel ≥ n,
        verifyLocalOwnership usesFibers fuel function = some result) ∧
      (result.2 = [] → UsesAreLive function) ∧
      (ElidedBindsAlone function →
        LiveStatesExact function result.1 ∧
          FoldingIsInvisible function result.1) := by
  by_cases hopen : function.declaration = false ∧
      function.external = false ∧ function.blocks ≠ []
  · obtain ⟨hdeclaration, hexternal, hbody⟩ := hopen
    obtain ⟨flow, n, hflow, hsettles⟩ := fixpoint_settles hbody
    obtain ⟨result, hresult, hverified⟩ := verify_returns hdeclaration
      hexternal hbody usesFibers (hsettles n le_rfl)
    refine ⟨result, n, fun fuel hfuel => ?_, hverified.usesAreLive hflow,
      fun helided => ⟨hverified.liveStatesExact hflow helided,
        hverified.foldingIsInvisible hflow helided⟩⟩
    rw [← hresult]
    exact verify_congr usesFibers
      ((hsettles fuel hfuel).trans (hsettles n le_rfl).symm)
  · have hempty : ∀ {emission b k frame trace},
        ¬ Runs function emission b k frame trace :=
      fun hrun => hopen hrun.hasBody
    refine ⟨(function, []), 0, fun fuel _ => ?_, ?_, ?_⟩
    · unfold verifyLocalOwnership
      refine if_pos ?_
      rw [List.length_eq_zero_iff]
      by_contra hnot
      rw [not_or, not_or, Bool.not_eq_true, Bool.not_eq_true] at hnot
      exact hopen hnot
    · intro _ b k frame trace hrun
      exact absurd hrun hempty
    · refine fun _ => ⟨fun b k frame trace hrun => absurd hrun hempty, ?_⟩
      intro b k trace
      constructor
      · rintro ⟨frame, hrun⟩
        exact absurd hrun hempty
      · rintro ⟨frame, hrun⟩
        exact absurd hrun hempty

/-- The rounds that settle the flow are enough for the verifier. -/
theorem verify_of_stable {usesFibers : Bool} {function : MirFunction} {flow : Flow} {fuel n : ℕ}
    {result : MirFunction × List Diagnostic}
    (hflow : untilStable (flowRound function) fuel (startFlow function) = some flow)
    (hresult : ∀ fuel ≥ n, verifyLocalOwnership usesFibers fuel function = some result) :
    verifyLocalOwnership usesFibers fuel function = some result := by
  rw [← hresult (n + fuel) (Nat.le_add_right _ _)]
  exact verify_congr usesFibers
    (hflow.trans (untilStable_of_le (Nat.le_add_left _ _) hflow).symm)

/-- A pattern borrows into an owned local, which is read and dropped. -/
def elidedBind : MirFunction where
  declaration := false
  external := false
  entry := 0
  locals := [⟨.owned, false, true, true⟩]
  blocks := [⟨[⟨.patternBind, "", 0, true, false, 2, "", 1, 1⟩,
      ⟨.borrow, "", 0, false, false, 2, "", 2, 1⟩,
      ⟨.dropLocal, "", 0, false, false, 2, "", 3, 1⟩],
    ⟨.returned, [], "", 4, 1⟩⟩]
  entry_lt := by decide

theorem elidedBind_alone : ElidedBindsAlone elidedBind := by
  have hquiet : ∀ block ∈ elidedBind.blocks, ∀ instruction ∈ block.instructions,
      ¬ SetsFlag instruction := by
    unfold SetsFlag
    decide
  have hlocals : ∀ l ∈ elidedBind.locals, l.parameter = false := by decide
  intro block _ bind _ index l htouched _ _
  unfold touched at htouched
  split_ifs at htouched
  obtain ⟨l', howned, heq⟩ := Option.map_eq_some_iff.mp htouched
  cases heq
  refine ⟨hlocals l (List.mem_of_getElem? (ownedLocal_some howned).2.2.1), ?_⟩
  intro other hother instruction hinstruction _ _
  exact hquiet other hother instruction hinstruction

/-- The verifier reports nothing of it and folds the flag of its drop. -/
theorem verify_local_ownership_sound_elided :
    ∃ result n, (∀ fuel ≥ n, verifyLocalOwnership false fuel elidedBind = some result) ∧
      UsesAreLive elidedBind ∧ LiveStatesExact elidedBind result.1 ∧
      FoldingIsInvisible elidedBind result.1 ∧ result.1.emission.liveState 0 2 = 0 := by
  obtain ⟨result, n, hresult, huses, hfolding⟩ := verify_local_ownership_sound false elidedBind
  obtain ⟨flow, hflow⟩ : ∃ flow, untilStable (flowRound elidedBind) 3
      (startFlow elidedBind) = some flow := ⟨_, rfl⟩
  have hverdict : (verifyLocalOwnership false 3 elidedBind).map
      (fun r => (r.2, r.1.emission.liveState 0 2)) = some ([], 0) := by
    decide
  rw [verify_of_stable hflow hresult, Option.map_some] at hverdict
  obtain ⟨hnone, hlive⟩ := Prod.mk.inj (Option.some.inj hverdict)
  exact ⟨result, n, hresult, huses hnone, (hfolding elidedBind_alone).1,
    (hfolding elidedBind_alone).2, hlive⟩

/-- An owned local is set, bound again by an elided bind and dropped. -/
def elidedRebind : MirFunction where
  declaration := false
  external := false
  entry := 0
  locals := [⟨.owned, false, true, true⟩]
  blocks := [⟨[⟨.localInit, "", 0, false, false, 2, "", 1, 1⟩,
      ⟨.patternBind, "", 0, true, false, 2, "", 2, 1⟩,
      ⟨.dropLocal, "", 0, false, false, 2, "", 3, 1⟩],
    ⟨.returned, [], "", 4, 1⟩⟩]
  entry_lt := by decide

/-- `elidedRebind` passes the verifier, but the flag of its drop is folded dead where a run has
it live. -/
theorem elided_rebind_release_lost :
    ¬ ∀ (usesFibers : Bool) (function : MirFunction),
      ∃ (result : MirFunction × List Diagnostic) (n : ℕ),
        (∀ fuel ≥ n,
          verifyLocalOwnership usesFibers fuel function = some result) ∧
        (result.2 = [] → UsesAreLive function ∧
          LiveStatesExact function result.1 ∧
          FoldingIsInvisible function result.1) := by
  intro h
  obtain ⟨result, n, hresult, hsound⟩ := h false elidedRebind
  obtain ⟨flow, hflow⟩ : ∃ flow, untilStable (flowRound elidedRebind) 3
      (startFlow elidedRebind) = some flow := ⟨_, rfl⟩
  have hverdict : (verifyLocalOwnership false 3 elidedRebind).map
      (fun r => (r.2, r.1.emission.liveState 0 2)) = some ([], 0) := by
    decide
  rw [verify_of_stable hflow hresult, Option.map_some] at hverdict
  obtain ⟨hnone, hlive⟩ := Prod.mk.inj (Option.some.inj hverdict)
  have hrun : ∃ frame trace, Runs elidedRebind flagged 0 2 frame trace ∧
      frame.flag 0 = true :=
    ⟨_, _, .step (.step (.enter rfl rfl (by decide)) rfl rfl) rfl rfl, rfl⟩
  obtain ⟨frame, trace, hrun, hflag⟩ := hrun
  have hexact := (hsound hnone).2.1 0 2 frame trace hrun _ rfl _ 0 _ rfl rfl
    (Or.inl rfl)
  rw [hexact.1 hlive] at hflag
  cases hflag

end Mir
end Beans
