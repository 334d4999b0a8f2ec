import Beans.Mir.OwnershipSound

/-!
# Executions under the settled states, and the verdict

The state in front of an instruction covers the frame of every execution that
comes there: it does at the entry, an instruction keeps it, and a target opens
at least what its predecessors leave.

The reports and the live states of an instruction come from the state in front
of it.  No report means that state answers every use, and a live state that is
known is the flag of every execution there.
-/

namespace Beans
namespace Mir

open MirLocalState

variable {function : MirFunction}

/-- The state in front of instruction `k` of block `b`. -/
def stateAt (function : MirFunction) (flow : Flow) (b k : ℕ) :
    MirLocalState :=
  transferAll function
    (((function.blocks[b]?.map MirBlock.instructions).getD []).take k)
    (flow.input.getD b (fresh function))

theorem stateAt_zero (flow : Flow) (b : ℕ) :
    stateAt function flow b 0 = flow.input.getD b (fresh function) := by
  unfold stateAt
  rw [List.take_zero]
  rfl

variable {b index k : ℕ}

theorem stateAt_of_block (flow : Flow) {block : MirBlock}
    (hblock : function.blocks[b]? = some block) (k : ℕ) :
    stateAt function flow b k =
      transferAll function (block.instructions.take k)
        (flow.input.getD b (fresh function)) := by
  unfold stateAt
  rw [hblock]
  rfl

theorem transferAll_take_succ {is : List MirInstruction} {instruction : MirInstruction}
    (h : is[k]? = some instruction) (state : MirLocalState) :
    transferAll function (is.take (k + 1)) state =
      transferLocalState function instruction
        (transferAll function (is.take k) state) := by
  unfold transferAll
  rw [List.take_add_one, h, Option.toList_some, List.foldl_append]
  rfl

theorem stateAt_succ (flow : Flow) {block : MirBlock} {instruction : MirInstruction}
    (hblock : function.blocks[b]? = some block)
    (hinstruction : block.instructions[k]? = some instruction) :
    stateAt function flow b (k + 1) =
      transferLocalState function instruction
        (stateAt function flow b k) := by
  rw [stateAt_of_block flow hblock, stateAt_of_block flow hblock]
  exact transferAll_take_succ hinstruction _

theorem stateAt_end (flow : Flow) {block : MirBlock} (hblock : function.blocks[b]? = some block)
    (hend : block.instructions.length = k) :
    stateAt function flow b k =
      transferBlock function b (flow.input.getD b (fresh function)) := by
  rw [stateAt_of_block flow hblock, transferBlock_eq hblock, ← hend,
    List.take_length]

theorem stateAt_reached {flow : Flow}
    (h : (flow.input.getD b (fresh function)).reached = true) :
    (stateAt function flow b k).reached = true :=
  (transferAll_reached _ _).trans h

theorem stateAt_fit {flow : Flow} (hflow : Settled function flow)
    (hreached : (flow.input.getD b (fresh function)).reached = true) (k : ℕ) :
    Fit function.locals.length (stateAt function flow b k) :=
  transferAll_fit (hflow.inv.inputFit b) hreached _

/-- A target opens at least what its predecessor leaves. -/
theorem Settled.leave {flow : Flow} (hflow : Settled function flow) {target : ℕ}
    {block : MirBlock} (hblock : function.blocks[b]? = some block)
    (hend : block.instructions.length = k)
    (hreached : (flow.input.getD b (fresh function)).reached = true)
    (htarget : (target : ℤ) ∈ block.terminator.targets)
    (hlt : target < function.blocks.length) :
    Le (stateAt function flow b k)
      (flow.input.getD target (fresh function)) := by
  obtain ⟨hb, -⟩ := List.getElem?_eq_some_iff.mp hblock
  rw [stateAt_end flow hblock hend, ← hflow.output b hb hreached,
    hflow.input target hlt]
  exact (incomingState_spec hflow.inv.outputFit target).2.2 b
    (mem_blockSources.mpr ⟨_, hblock, htarget⟩)

variable {trace : List (ℕ × ℕ)}

/-- A relation of states and frames that an instruction keeps and that more open
states keep too, kept by every execution. -/
theorem Runs.related {R : MirLocalState → Frame → Prop} {emission : Emission} {flow : Flow}
    (hflow : Settled function flow)
    (hstart : R (localEntryState function) (startFrame function emission))
    (hmono : ∀ s t frame, s.reached = true → Le s t → R s frame → R t frame)
    (hstep : ∀ s frame, ∀ block ∈ function.blocks,
      ∀ instruction ∈ block.instructions, Fit function.locals.length s →
      R s frame → R (transferLocalState function instruction s)
        (execInstruction function emission instruction frame))
    {frame : Frame}
    (hrun : Runs function emission b k frame trace) :
    (flow.input.getD b (fresh function)).reached = true ∧
      R (stateAt function flow b k) frame := by
  induction hrun with
  | enter _ _ hbody =>
    have hreached := (localEntryState_spec function).2.1
    have hle : Le (localEntryState function)
        (flow.input.getD function.entry (fresh function)) := by
      rw [hflow.input _ (function.entry_lt hbody)]
      have hbase := (incomingState_spec hflow.inv.outputFit
        function.entry).2.1
      unfold entryBase at hbase
      rw [if_pos rfl] at hbase
      exact hbase
    refine ⟨(hle hreached).1, ?_⟩
    rw [stateAt_zero]
    exact hmono _ _ _ hreached hle hstart
  | step _ hblock hinstruction ih =>
    refine ⟨ih.1, ?_⟩
    rw [stateAt_succ flow hblock hinstruction]
    exact hstep _ _ _ (List.mem_of_getElem? hblock) _
      (List.mem_of_getElem? hinstruction) (stateAt_fit hflow ih.1 _) ih.2
  | leave _ hblock hend htarget hlt ih =>
    have hle := hflow.leave hblock hend ih.1 htarget hlt
    refine ⟨(hle (stateAt_reached ih.1)).1, ?_⟩
    rw [stateAt_zero]
    exact hmono _ _ _ (stateAt_reached ih.1) hle ih.2

theorem Runs.covers {emission : Emission} {flow : Flow} (hflow : Settled function flow)
    {frame : Frame} (hrun : Runs function emission b k frame trace) :
    (flow.input.getD b (fresh function)).reached = true ∧
      Covers function (stateAt function flow b k) frame := by
  refine Runs.related hflow (startFrame_covers emission) ?_ ?_ hrun
  · intro s t frame _ hle h
    exact h.mono hle
  · intro s frame _ _ instruction _ hfit h
    exact h.step hfit emission instruction

/-- Some elided bind binds the local. -/
def BoundByElided (function : MirFunction) (index : ℕ) : Prop :=
  ∃ block ∈ function.blocks, ∃ bind ∈ block.instructions, ∃ l,
    touched function bind = some (index, l) ∧ bind.op = .patternBind ∧
      bind.borrowElided = true

theorem flagAfter_of_not_sets {instruction : MirInstruction} (h : ¬ SetsFlag instruction)
    (l : MirLocal) :
    flagAfter instruction l false = false := by
  unfold SetsFlag at h
  unfold flagAfter
  cases hop : instruction.op with
  | localInit => exact absurd (Or.inl hop) h
  | patternBind =>
    cases hb : instruction.borrowElided with
    | true => rfl
    | false => exact absurd (Or.inr (Or.inr ⟨hop, hb⟩)) h
  | assign =>
    by_cases ht : instruction.text = "="
    · exact absurd (Or.inr (Or.inl ⟨hop, ht⟩)) h
    · exact if_neg ht
  | move => rfl
  | dropLocal => rfl
  | retain => simp
  | borrow => rfl
  | other => rfl

/-- The flags are covered, and those of locals with an elided bind stay
clear. -/
def FlagsKnown (function : MirFunction) (state : MirLocalState)
    (frame : Frame) : Prop :=
  CoversFlags function state frame ∧
    ∀ index, BoundByElided function index → frame.flag index = false

theorem Runs.flagsKnown (helided : ElidedBindsAlone function) {flow : Flow}
    (hflow : Settled function flow) {frame : Frame}
    (hrun : Runs function flagged b k frame trace) :
    (flow.input.getD b (fresh function)).reached = true ∧
      FlagsKnown function (stateAt function flow b k) frame := by
  have hstart : FlagsKnown function (localEntryState function)
      (startFrame function flagged) := by
    refine ⟨startFrame_coversFlags, ?_⟩
    rintro index ⟨block, hblock, bind, hbind, l, htouched, hop, hb⟩
    have hparam := (helided block hblock bind hbind index l htouched hop hb).1
    have hl := (touched_some htouched).2.2.2.1
    unfold startFrame flagged
    dsimp only
    rw [hl, Option.map_some, Option.getD_some, Bool.true_and, hparam]
  refine Runs.related hflow hstart ?_ ?_ hrun
  · intro s t frame hreached hle h
    exact ⟨h.1.mono hreached hle, h.2⟩
  · intro s frame block hblock instruction hinstruction hfit h
    refine ⟨h.1.step hfit instruction ?_, ?_⟩
    · intro index l htouched hop hb
      exact h.2 index
        ⟨block, hblock, instruction, hinstruction, l, htouched, hop, hb⟩
    · intro index hbound
      have hold := h.2 index hbound
      obtain ⟨block', hblock', bind, hbind, l, htouched, hop, hb⟩ := hbound
      rw [exec_flag]
      cases ht : touched function instruction with
      | none => exact hold
      | some p =>
        dsimp only
        split_ifs with hi
        · rw [hold]
          refine flagAfter_of_not_sets ?_ p.2
          refine (helided block' hblock' bind hbind index l htouched hop
            hb).2 block hblock instruction hinstruction p.2 ?_
          rw [ht, hi.2]
        · exact hold

theorem verifyInstructions_spec (is : List MirInstruction) (state : MirLocalState) :
    (verifyInstructions function is state).2.2 =
        transferAll function is state ∧
      ∀ (k : ℕ) (instruction : MirInstruction), is[k]? = some instruction →
        (verifyInstructions function is state).2.1[k]? =
            some (verifyInstruction function instruction
              (transferAll function (is.take k) state)).2 ∧
          (verifyInstruction function instruction
              (transferAll function (is.take k) state)).1 ⊆
            (verifyInstructions function is state).1 := by
  induction is generalizing state with
  | nil => exact ⟨rfl, fun k instruction h => by simp at h⟩
  | cons i is ih =>
    obtain ⟨hstate, hrest⟩ := ih (transferLocalState function i state)
    refine ⟨hstate, ?_⟩
    rintro (_ | k) instruction h
    · cases h
      exact ⟨rfl, List.subset_append_left _ _⟩
    · obtain ⟨hget, hsub⟩ := hrest k instruction h
      exact ⟨hget, List.Subset.trans hsub (List.subset_append_right _ _)⟩

/-- What the verifier returns once the fixpoint has settled in `flow`. -/
structure Verified (function : MirFunction) (usesFibers : Bool) (flow : Flow)
    (result : MirFunction × List Diagnostic) : Prop where
  blocks : result.1.blocks = function.blocks.mapIdx fun index block =>
    (verifyBlock function flow.input block index).2
  locals : result.1.locals = function.locals.mapIdx fun index l =>
    foldFlag usesFibers result.1.blocks l index
  errors : result.2 = (function.blocks.mapIdx fun index block =>
    verifyBlock function flow.input block index).flatMap Prod.fst

theorem verify_returns (hdeclaration : function.declaration = false)
    (hexternal : function.external = false) (hbody : function.blocks ≠ []) (usesFibers : Bool)
    {flow : Flow} {fuel : ℕ}
    (h : untilStable (flowRound function) fuel (startFlow function) =
      some flow) :
    ∃ result, verifyLocalOwnership usesFibers fuel function = some result ∧
      Verified function usesFibers flow result := by
  have hopen : ¬ (function.declaration = true ∨ function.external = true ∨
      function.blocks.length = 0) := by
    rw [hdeclaration, hexternal, List.length_eq_zero_iff]
    simp [hbody]
  unfold verifyLocalOwnership
  rw [if_neg hopen, h, Option.map_some]
  refine ⟨_, rfl, ?_, rfl, rfl⟩
  refine List.ext_getElem? fun b => ?_
  simp only [List.getElem?_map, List.getElem?_mapIdx, Option.map_map]
  rfl

/-- More rounds than the fixpoint needs change nothing. -/
theorem verify_congr (usesFibers : Bool) {n m : ℕ}
    (h : untilStable (flowRound function) n (startFlow function) =
      untilStable (flowRound function) m (startFlow function)) :
    verifyLocalOwnership usesFibers n function =
      verifyLocalOwnership usesFibers m function := by
  unfold verifyLocalOwnership
  rw [h]

theorem verifyBlock_reached {flow : Flow}
    (hreached : (flow.input.getD b (fresh function)).reached = true) (block : MirBlock) :
    verifyBlock function flow.input block b =
      ((verifyInstructions function block.instructions
          (flow.input.getD b (fresh function))).1 ++
        checkReturn function block.terminator
          (transferAll function block.instructions
            (flow.input.getD b (fresh function))),
        { block with
          instructions := (verifyInstructions function block.instructions
            (flow.input.getD b (fresh function))).2.1 }) := by
  unfold verifyBlock
  rw [← (verifyInstructions_spec block.instructions _).1]
  exact if_neg (not_not.mpr hreached)

variable {usesFibers : Bool} {result : MirFunction × List Diagnostic}

/-- The reports of a reached block are among those returned. -/
theorem Verified.reports {flow : Flow} (h : Verified function usesFibers flow result)
    {block : MirBlock} (hblock : function.blocks[b]? = some block) :
    (verifyBlock function flow.input block b).1 ⊆ result.2 := by
  intro e he
  rw [h.errors]
  refine List.mem_flatMap.mpr
    ⟨verifyBlock function flow.input block b, ?_, he⟩
  refine List.mem_of_getElem? (i := b) ?_
  rw [List.getElem?_mapIdx, hblock, Option.map_some]

theorem Verified.instruction {usesFibers : Bool} {flow : Flow}
    {result : MirFunction × List Diagnostic} (h : Verified function usesFibers flow result)
    {b k : ℕ} {block : MirBlock} {instruction : MirInstruction}
    (hblock : function.blocks[b]? = some block)
    (hreached : (flow.input.getD b (fresh function)).reached = true)
    (hinstruction : block.instructions[k]? = some instruction) :
    (∃ block', result.1.blocks[b]? = some block' ∧
        block'.instructions[k]? = some (verifyInstruction function instruction
          (stateAt function flow b k)).2) ∧
      (verifyInstruction function instruction
        (stateAt function flow b k)).1 ⊆ result.2 := by
  obtain ⟨-, hspec⟩ := @verifyInstructions_spec function
    block.instructions (flow.input.getD b (fresh function))
  obtain ⟨hget, hsub⟩ := hspec k instruction hinstruction
  rw [← stateAt_of_block flow hblock] at hget hsub
  have hreports := h.reports hblock
  rw [verifyBlock_reached hreached] at hreports
  refine ⟨⟨(verifyBlock function flow.input block b).2, ?_, ?_⟩, ?_⟩
  · rw [h.blocks, List.getElem?_mapIdx, hblock, Option.map_some]
  · rw [verifyBlock_reached hreached]
    exact hget
  · intro e he
    exact hreports (List.mem_append_left _ (hsub he))

variable {l : MirLocal}

theorem verifyInstruction_touched {instruction : MirInstruction}
    (h : touched function instruction = some (index, l)) (state : MirLocalState) :
    verifyInstruction function instruction state =
      (checkInstruction instruction l (state.valueOf index),
        if instruction.op = .dropLocal ∨ instruction.op = .assign then
          { instruction with liveState := state.flagOf index }
        else instruction) := by
  obtain ⟨hremoved, hid, -, hl, howned⟩ := touched_some h
  unfold verifyInstruction
  rw [if_neg (by rw [hremoved]; exact Bool.false_ne_true), hid,
    ownedLocal_natCast hl howned]
  rfl

theorem checkInstruction_nil {instruction : MirInstruction} {before : ℕ}
    (h : checkInstruction instruction l before = []) :
    ((instruction.op = .borrow ∨ instruction.op = .move) → before = 1) ∧
      (instruction.op = .localInit → before = 0) ∧
      (instruction.op = .dropLocal → l.needsLiveFlag = false →
        before = 1) := by
  unfold checkInstruction at h
  simp only [List.append_eq_nil_iff] at h
  obtain ⟨⟨⟨huse, hinit⟩, hdrop⟩, -⟩ := h
  refine ⟨fun hop => ?_, fun hop => ?_, fun hop hflag => ?_⟩
  · by_contra hne
    rw [if_pos ⟨hop, hne⟩] at huse
    cases huse
  · by_contra hne
    rw [if_pos ⟨hop, hne⟩] at hinit
    cases hinit
  · by_contra hne
    rw [if_pos ⟨hop, hne, by simp [hflag]⟩] at hdrop
    cases hdrop

theorem checkReturn_nil {terminator : MirTerminator} {state : MirLocalState}
    (h : checkReturn function terminator state = []) (hkind : terminator.kind = .returned)
    (hl : function.locals[index]? = some l) (howned : l.ownership = .owned) :
    state.valueOf index = 0 := by
  unfold checkReturn at h
  rw [if_pos hkind, List.filterMap_eq_nil_iff] at h
  have hget := h (l, index) (List.mem_zipIdx_iff_getElem?.mpr hl)
  by_contra hne
  rw [if_pos ⟨howned, hne⟩] at hget
  cases hget

theorem Verified.usesAreLive {flow : Flow} (hflow : Settled function flow)
    (h : Verified function usesFibers flow result) (hnone : result.2 = []) :
    UsesAreLive function := by
  intro b k frame trace hrun block hblock
  obtain ⟨hreached, hcovers⟩ := hrun.covers hflow
  refine ⟨fun instruction index l hinstruction htouched => ?_,
    fun hkind hend index l hl howned => ?_⟩
  · obtain ⟨-, hreports⟩ := h.instruction hblock hreached hinstruction
    rw [hnone, verifyInstruction_touched htouched,
      List.subset_nil] at hreports
    obtain ⟨huse, hinit, hdrop⟩ := checkInstruction_nil hreports
    obtain ⟨-, -, -, hl, howned⟩ := touched_some htouched
    have hallows := hcovers.holds index l hl howned
    refine ⟨fun hop => ?_, fun hop => ?_, fun hop hflag => ?_⟩
    · exact hallows.of_one (huse hop)
    · exact hallows.of_zero (hinit hop)
    · exact hallows.of_one (hdrop hop hflag)
  · have hreports := h.reports hblock
    rw [verifyBlock_reached hreached, hnone, List.subset_nil,
      List.append_eq_nil_iff] at hreports
    have hzero := checkReturn_nil hreports.2 hkind hl howned
    rw [← transferBlock_eq hblock, ← stateAt_end flow hblock hend] at hzero
    exact (hcovers.holds index l hl howned).of_zero hzero

theorem Verified.liveState {usesFibers : Bool} {flow : Flow}
    {result : MirFunction × List Diagnostic} (h : Verified function usesFibers flow result)
    {b k : ℕ} {block : MirBlock} {instruction : MirInstruction} {index : ℕ} {l : MirLocal}
    (hblock : function.blocks[b]? = some block)
    (hreached : (flow.input.getD b (fresh function)).reached = true)
    (hinstruction : block.instructions[k]? = some instruction)
    (htouched : touched function instruction = some (index, l))
    (hop : instruction.op = .dropLocal ∨ instruction.op = .assign) :
    result.1.emission.liveState b k =
      (stateAt function flow b k).flagOf index := by
  obtain ⟨⟨block', hblock', hget⟩, -⟩ :=
    h.instruction hblock hreached hinstruction
  rw [verifyInstruction_touched htouched, if_pos hop] at hget
  unfold MirFunction.emission
  dsimp only
  rw [hblock', Option.bind_some, hget]
  rfl

theorem Verified.liveStatesExact {flow : Flow} (hflow : Settled function flow)
    (h : Verified function usesFibers flow result) (helided : ElidedBindsAlone function) :
    LiveStatesExact function result.1 := by
  intro b k frame trace hrun block hblock instruction index l hinstruction
    htouched hop
  obtain ⟨hreached, hflags, -⟩ := hrun.flagsKnown helided hflow
  obtain ⟨-, -, -, hl, howned⟩ := touched_some htouched
  have hallows := hflags index l hl howned
  rw [h.liveState hblock hreached hinstruction htouched hop]
  exact ⟨hallows.of_zero, hallows.of_one⟩

/-- An instruction that still loads the flag keeps it. -/
theorem Verified.keeps {usesFibers : Bool} {flow : Flow}
    {result : MirFunction × List Diagnostic} (h : Verified function usesFibers flow result)
    {b k : ℕ} {block : MirBlock} {instruction : MirInstruction} {index : ℕ} {l : MirLocal}
    (hblock : function.blocks[b]? = some block)
    (hreached : (flow.input.getD b (fresh function)).reached = true)
    (hinstruction : block.instructions[k]? = some instruction)
    (htouched : touched function instruction = some (index, l))
    (hop : instruction.op = .dropLocal ∨
      (instruction.op = .assign ∧ instruction.text = "="))
    (htwo : (stateAt function flow b k).flagOf index = 2) :
    result.1.emission.keeps index = true := by
  obtain ⟨⟨block', hblock', hget⟩, -⟩ :=
    h.instruction hblock hreached hinstruction
  obtain ⟨hremoved, hid, -, hl, -⟩ := touched_some htouched
  have hstamped : instruction.op = .dropLocal ∨ instruction.op = .assign :=
    hop.imp_right And.left
  rw [verifyInstruction_touched htouched, if_pos hstamped, htwo] at hget
  have hreads : (result.1.blocks.any fun block =>
      block.instructions.any fun instruction =>
        readsFlag instruction index) = true := by
    refine List.any_eq_true.mpr ⟨block', List.mem_of_getElem? hblock', ?_⟩
    refine List.any_eq_true.mpr ⟨_, List.mem_of_getElem? hget, ?_⟩
    unfold readsFlag
    simpa [hremoved, hid] using hop
  unfold MirFunction.emission
  dsimp only
  rw [h.locals, List.getElem?_mapIdx, hl, Option.map_some, Option.map_some,
    Option.getD_some]
  unfold foldFlag
  dsimp only
  rw [hreads, Bool.or_true]

end Mir
end Beans
