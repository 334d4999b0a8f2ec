import Beans.Foundation.Stabilize
import Beans.Mir.LocalState

/-!
# The local ownership verifier

`verify_local_ownership` runs a forward fixpoint over the blocks of a function,
reports every use of an owned local that some path reaches in the wrong state,
hands every reader of a live flag what the fixpoint knows of it, and drops the
flags that have no reader left.
-/

namespace Beans
namespace Mir

open MirLocalState

namespace MirFunction

variable (function : MirFunction)

/-- The local an instruction names, when the function owns what it holds. -/
def ownedLocal (localId : ℤ) : Option MirLocal :=
  if localId < 0 ∨ localId ≥ function.locals.length then none
  else
    (function.locals[localId.toNat]?).filter fun l =>
      l.ownership = .owned

end MirFunction

variable (function : MirFunction)

/-- What an instruction does to the state of its local. -/
def transferLocalState (instruction : MirInstruction)
    (state : MirLocalState) : MirLocalState :=
  if instruction.removed then state
  else
    match function.ownedLocal instruction.localId with
    | none => state
    | some l =>
      let index := instruction.localId.toNat
      let state :=
        if instruction.op = .localInit ∨ instruction.op = .patternBind ∨
            instruction.op = .assign then
          state.setValue index 1
        else if instruction.op = .move ∨ instruction.op = .dropLocal then
          state.setValue index 0
        else state
      if instruction.op = .localInit ∨
          (instruction.op = .assign ∧ instruction.text = "=") then
        state.setFlag index 1
      else if instruction.op = .patternBind then
        state.setFlag index (if instruction.borrowElided then 0 else 1)
      else if instruction.op = .move ∨ instruction.op = .dropLocal then
        state.setFlag index 0
      else if instruction.op = .retain ∧ ¬ l.parameter then
        state.setFlag index 0
      else state

/-- A parameter the function owns holds a value and has its flag set. -/
def localEntryState : MirLocalState :=
  let result := { MirLocalState.empty function.locals.length with
    reached := true }
  function.locals.zipIdx.foldl
    (fun result l =>
      if l.1.ownership = .owned ∧ l.1.parameter then
        (result.setValue l.2 1).setFlag l.2 1
      else result)
    result

/-- The states before and after every block. -/
structure Flow where
  input : List MirLocalState
  output : List MirLocalState

/-- The blocks that leave for `target`, once for each time they name it. -/
def blockSources (target : ℕ) : List ℕ :=
  function.blocks.zipIdx.flatMap fun block =>
    block.1.terminator.targets.filterMap fun t =>
      if t = (target : ℤ) then some block.2 else none

variable {function} in
theorem mem_blockSources {p target : ℕ} :
    p ∈ blockSources function target ↔
      ∃ block, function.blocks[p]? = some block ∧
        (target : ℤ) ∈ block.terminator.targets := by
  rw [blockSources, List.mem_flatMap]
  constructor
  · rintro ⟨⟨block, b⟩, hblock, hmem⟩
    obtain ⟨t, ht, hb⟩ := List.mem_filterMap.mp hmem
    obtain ⟨rfl, h⟩ := Option.ite_none_right_eq_some.mp hb
    obtain rfl := Option.some.inj h
    exact ⟨block, List.mem_zipIdx_iff_getElem?.mp hblock, ht⟩
  · rintro ⟨block, hblock, htarget⟩
    exact ⟨(block, p), List.mem_zipIdx_iff_getElem?.mpr hblock,
      List.mem_filterMap.mpr ⟨target, htarget, if_pos rfl⟩⟩

/-- What the predecessors of a block hand it. -/
def incomingState (output : List MirLocalState) (blockIndex : ℕ) :
    MirLocalState :=
  (blockSources function blockIndex).foldl
    (fun incoming predecessor =>
      incoming.merge (output.getD predecessor
        (MirLocalState.empty function.locals.length)))
    (if blockIndex = function.entry then localEntryState function
      else MirLocalState.empty function.locals.length)

def transferBlock (blockIndex : ℕ) (state : MirLocalState) : MirLocalState :=
  ((function.blocks[blockIndex]?.map MirBlock.instructions).getD []).foldl
    (fun state instruction => transferLocalState function instruction state)
    state

/-- One block of a round, and whether its states changed. -/
def visitBlock (flow : Flow) (blockIndex : ℕ) : Flow × Bool :=
  let fresh := MirLocalState.empty function.locals.length
  let incoming := incomingState function flow.output blockIndex
  let inputChanged := incoming ≠ flow.input.getD blockIndex fresh
  let input := flow.input.set blockIndex incoming
  if ¬ incoming.reached then
    ({ flow with input := input }, inputChanged)
  else
    let next := transferBlock function blockIndex incoming
    let outputChanged := next ≠ flow.output.getD blockIndex fresh
    ({ input := input, output := flow.output.set blockIndex next },
      inputChanged || outputChanged)

/-- One round over the blocks, in their order. -/
def flowRound (flow : Flow) : Flow × Bool :=
  sweep (visitBlock function) (List.range function.blocks.length) flow

def startFlow : Flow :=
  let fresh := function.blocks.map fun _ =>
    MirLocalState.empty function.locals.length
  { input := fresh.set function.entry (localEntryState function)
    output := fresh }

def failAt (instruction : MirInstruction) (message : String) : Diagnostic :=
  ⟨instruction.file, instruction.line, instruction.col, message⟩

/-- What the verifier reports about one instruction. -/
def checkInstruction (instruction : MirInstruction) (l : MirLocal)
    (before : ℕ) : List Diagnostic :=
  (if (instruction.op = .borrow ∨ instruction.op = .move) ∧ before ≠ 1 then
    [failAt instruction
      s!"MIR reads owned local l{instruction.localId} while it is not live"]
   else []) ++
  (if instruction.op = .localInit ∧ before ≠ 0 then
    [failAt instruction
      s!"MIR initializes live local l{instruction.localId}"]
   else []) ++
  (if instruction.op = .dropLocal ∧ before ≠ 1 ∧ ¬ l.needsLiveFlag then
    [failAt instruction
      s!"MIR drops dead local l{instruction.localId} without a live flag"]
   else []) ++
  (if instruction.op = .dropLocal ∧ before = 2 ∧ ¬ l.needsLiveFlag then
    [failAt instruction
      s!"MIR conditionally live local l{instruction.localId} needs a live flag"]
   else [])

/-- One instruction in the state before it: the reports, and the instruction
with what the fixpoint knows of the flag it reads. -/
def verifyInstruction (instruction : MirInstruction)
    (state : MirLocalState) : List Diagnostic × MirInstruction :=
  if instruction.removed then ([], instruction)
  else
    match function.ownedLocal instruction.localId with
    | none => ([], instruction)
    | some l =>
      let index := instruction.localId.toNat
      (checkInstruction instruction l (state.valueOf index),
        if instruction.op = .dropLocal ∨ instruction.op = .assign then
          { instruction with liveState := state.flagOf index }
        else instruction)

/-- The reports of the instructions of a block, and the instructions with their live states. -/
def verifyInstructions :
    List MirInstruction → MirLocalState →
      List Diagnostic × List MirInstruction × MirLocalState
  | [], state => ([], [], state)
  | instruction :: rest, state =>
    let done := verifyInstruction function instruction state
    let after := verifyInstructions rest
      (transferLocalState function instruction state)
    (done.1 ++ after.1, done.2 :: after.2.1, after.2.2)

/-- Owned locals that a return leaves holding a value. -/
def checkReturn (terminator : MirTerminator) (state : MirLocalState) :
    List Diagnostic :=
  if terminator.kind = .returned then
    function.locals.zipIdx.filterMap fun l =>
      if l.1.ownership = .owned ∧ state.valueOf l.2 ≠ 0 then
        some ⟨terminator.file, terminator.line, terminator.col,
          s!"MIR return leaves owned local l{l.2} live"⟩
      else none
  else []

def verifyBlock (input : List MirLocalState) (block : MirBlock)
    (blockIndex : ℕ) : List Diagnostic × MirBlock :=
  let state := input.getD blockIndex
    (MirLocalState.empty function.locals.length)
  if ¬ state.reached then ([], block)
  else
    let done := verifyInstructions function block.instructions state
    (done.1 ++ checkReturn function block.terminator done.2.2,
      { block with instructions := done.2.1 })

/-- The instruction still loads the flag of the local at `index`. -/
def readsFlag (instruction : MirInstruction) (index : ℕ) : Bool :=
  !instruction.removed && instruction.liveState == 2 &&
    (instruction.op == .dropLocal ||
      (instruction.op == .assign && instruction.text == "=")) &&
    instruction.localId == (index : ℤ)

/-- A flag that no drop and no assignment loads any more is dropped, unless the
program can unwind. -/
def foldFlag (usesFibers : Bool) (blocks : List MirBlock) (l : MirLocal)
    (index : ℕ) : MirLocal :=
  let used := if l.needsLiveFlag then usesFibers else l.liveFlagUsed
  { l with
    liveFlagUsed := used ||
      blocks.any fun block =>
        block.instructions.any fun instruction => readsFlag instruction index }

/-- The verified function and the errors found; `none` when the fixpoint did not
settle in `fuel` rounds. -/
def verifyLocalOwnership (usesFibers : Bool) (fuel : ℕ)
    (function : MirFunction) : Option (MirFunction × List Diagnostic) :=
  if function.declaration ∨ function.external ∨ function.blocks.length = 0 then
    some (function, [])
  else
    (untilStable (flowRound function) fuel (startFlow function)).map fun flow =>
      let done := function.blocks.mapIdx fun index block =>
        verifyBlock function flow.input block index
      let blocks := done.map Prod.snd
      ({ function with
          locals := function.locals.mapIdx fun index l =>
            foldFlag usesFibers blocks l index
          blocks := blocks
          entry_lt := by
            intro hne
            have hlen : blocks.length = function.blocks.length := by
              simp [blocks, done]
            have hblocks : function.blocks ≠ [] := by
              intro hnil
              apply hne
              rw [← List.length_eq_zero_iff, hlen, hnil]
              rfl
            rw [hlen]
            exact function.entry_lt hblocks },
        done.flatMap Prod.fst)

end Mir
end Beans
