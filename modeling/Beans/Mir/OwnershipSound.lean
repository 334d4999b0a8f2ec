import Beans.Mir.OwnershipFlow

/-!
# What the ownership verifier promises

A frame says which locals hold a value and which live flags are set.  Executions
follow the blocks of a function; they record where a reference is released.  A
function the verifier accepts never uses a local in the wrong state, the live
states it hands out are the values of the flags, and an execution without the
folded flags releases at the same places.
-/

namespace Beans
namespace Mir

open MirLocalState

structure Frame where
  holds : ℕ → Bool
  flag : ℕ → Bool

/-- What the emitter reads: the flags that exist, and the live state at the
instructions of every block. -/
structure Emission where
  keeps : ℕ → Bool
  liveState : ℕ → ℕ → ℕ

/-- Every flag exists, and every reader loads it. -/
def flagged : Emission :=
  ⟨fun _ => true, fun _ _ => 2⟩

def MirFunction.emission (function : MirFunction) : Emission where
  keeps index := (function.locals[index]?.map MirLocal.liveFlagUsed).getD false
  liveState b k :=
    ((function.blocks[b]?.bind fun block => block.instructions[k]?).map
      MirInstruction.liveState).getD 2

def heldAfter (op : MirOp) (held : Bool) : Bool :=
  match op with
  | .localInit | .patternBind | .assign => true
  | .move | .dropLocal => false
  | .retain | .borrow | .other => held

/-- The stores the emitter makes to the flag of a local. -/
def flagAfter (instruction : MirInstruction) (l : MirLocal) (flag : Bool) :
    Bool :=
  match instruction.op with
  | .localInit => true
  | .assign => if instruction.text = "=" then true else flag
  | .patternBind => if instruction.borrowElided then flag else true
  | .move | .dropLocal => false
  | .retain => if l.parameter then flag else false
  | .borrow | .other => flag

variable (function : MirFunction)

/-- A parameter the function owns arrives with a value and its flag set. -/
def startFrame (emission : Emission) : Frame where
  holds index := ((function.locals[index]?).map fun l =>
    decide (l.ownership = .owned) && l.parameter).getD false
  flag index := emission.keeps index &&
    ((function.locals[index]?).map MirLocal.parameter).getD false

def execInstruction (emission : Emission) (instruction : MirInstruction)
    (frame : Frame) : Frame :=
  match touched function instruction with
  | none => frame
  | some (index, l) =>
    { holds := Function.update frame.holds index
        (heldAfter instruction.op (frame.holds index))
      flag :=
        if emission.keeps index then
          Function.update frame.flag index
            (flagAfter instruction l (frame.flag index))
        else frame.flag }

/-- A drop and an overwrite release what the local holds: at once when the flag
is known, else when it is set. -/
def releases (instruction : MirInstruction) (l : MirLocal) (liveState : ℕ)
    (flag : Bool) : Bool :=
  (instruction.op == .dropLocal ||
      (instruction.op == .assign && instruction.text == "=")) &&
    (!l.needsLiveFlag ||
      (if liveState = 0 then false
       else if liveState = 1 then true
       else flag))

/-- The place, when the instruction there releases. -/
def releasedAt (emission : Emission) (instruction : MirInstruction)
    (frame : Frame) (b k : ℕ) : List (ℕ × ℕ) :=
  match touched function instruction with
  | none => []
  | some (index, l) =>
    if releases instruction l (emission.liveState b k) (frame.flag index) then
      [(b, k)]
    else []

/-- An execution has come to instruction `k` of block `b` in `frame`, having
released at the places of `trace`. -/
inductive Runs (emission : Emission) :
    ℕ → ℕ → Frame → List (ℕ × ℕ) → Prop
  | enter :
      function.declaration = false →
      function.external = false →
      function.blocks ≠ [] →
      Runs emission function.entry 0 (startFrame function emission) []
  | step {b k : ℕ} {frame : Frame} {trace : List (ℕ × ℕ)} {block : MirBlock}
      {instruction : MirInstruction} :
      Runs emission b k frame trace →
      function.blocks[b]? = some block →
      block.instructions[k]? = some instruction →
      Runs emission b (k + 1)
        (execInstruction function emission instruction frame)
        (trace ++ releasedAt function emission instruction frame b k)
  | leave {b k target : ℕ} {frame : Frame} {trace : List (ℕ × ℕ)}
      {block : MirBlock} :
      Runs emission b k frame trace →
      function.blocks[b]? = some block →
      block.instructions.length = k →
      (target : ℤ) ∈ block.terminator.targets →
      target < function.blocks.length →
      Runs emission target 0 frame trace

/-- No execution uses an owned local in the wrong state. -/
def UsesAreLive : Prop :=
  ∀ b k frame trace, Runs function flagged b k frame trace →
    ∀ block, function.blocks[b]? = some block →
      (∀ instruction index l, block.instructions[k]? = some instruction →
        touched function instruction = some (index, l) →
        ((instruction.op = .borrow ∨ instruction.op = .move) →
          frame.holds index = true) ∧
        (instruction.op = .localInit → frame.holds index = false) ∧
        (instruction.op = .dropLocal → l.needsLiveFlag = false →
          frame.holds index = true)) ∧
      (block.terminator.kind = .returned → block.instructions.length = k →
        ∀ index l, function.locals[index]? = some l → l.ownership = .owned →
          frame.holds index = false)

/-- A live state of 0 or 1 is the value of the flag on every path there. -/
def LiveStatesExact (verified : MirFunction) : Prop :=
  ∀ b k frame trace, Runs function flagged b k frame trace →
    ∀ block, function.blocks[b]? = some block →
      ∀ instruction index l, block.instructions[k]? = some instruction →
        touched function instruction = some (index, l) →
        (instruction.op = .dropLocal ∨ instruction.op = .assign) →
        (verified.emission.liveState b k = 0 → frame.flag index = false) ∧
        (verified.emission.liveState b k = 1 → frame.flag index = true)

/-- Without the folded flags the executions release at the same places. -/
def FoldingIsInvisible (verified : MirFunction) : Prop :=
  ∀ b k trace,
    (∃ frame, Runs function flagged b k frame trace) ↔
      ∃ frame, Runs function verified.emission b k frame trace

/-- The instruction sets the flag of the local it names. -/
def SetsFlag (instruction : MirInstruction) : Prop :=
  instruction.op = .localInit ∨
    (instruction.op = .assign ∧ instruction.text = "=") ∨
    (instruction.op = .patternBind ∧ instruction.borrowElided = false)

/-- A local that an elided bind binds is no parameter, and nothing sets its
flag. -/
def ElidedBindsAlone : Prop :=
  ∀ block ∈ function.blocks, ∀ bind ∈ block.instructions, ∀ index l,
    touched function bind = some (index, l) →
    bind.op = .patternBind → bind.borrowElided = true →
    l.parameter = false ∧
      ∀ other ∈ function.blocks, ∀ instruction ∈ other.instructions,
        ∀ l', touched function instruction = some (index, l') →
          ¬ SetsFlag instruction

variable {function}

/-- Every answer of the state leaves open what the frame has. -/
structure Covers (function : MirFunction) (state : MirLocalState)
    (frame : Frame) : Prop where
  reached : state.reached = true
  holds : ∀ index l, function.locals[index]? = some l →
    l.ownership = .owned → Allows (state.valueOf index) (frame.holds index)

/-- The same for the flags. -/
def CoversFlags (function : MirFunction) (state : MirLocalState)
    (frame : Frame) : Prop :=
  ∀ index l, function.locals[index]? = some l → l.ownership = .owned →
    Allows (state.flagOf index) (frame.flag index)

variable {frame : Frame} {s t : MirLocalState} {answer : ℕ}

theorem Covers.mono (h : Covers function s frame) (hle : Le s t) :
    Covers function t frame where
  reached := (hle h.reached).1
  holds index l hl howned :=
    ((hle h.reached).2 index).1.allows (h.holds index l hl howned)

theorem CoversFlags.mono (h : CoversFlags function s frame) (hreached : s.reached = true)
    (hle : Le s t) :
    CoversFlags function t frame :=
  fun index l hl howned =>
    ((hle hreached).2 index).2.allows (h index l hl howned)

theorem startFrame_covers (emission : Emission) :
    Covers function (localEntryState function)
      (startFrame function emission) where
  reached := (localEntryState_spec function).2.1
  holds index l hl howned := by
    obtain ⟨-, -, hall⟩ := localEntryState_spec function
    have hholds :
        (startFrame function emission).holds index = l.parameter := by
      unfold startFrame
      dsimp only
      rw [hl, Option.map_some, Option.getD_some, decide_eq_true howned,
        Bool.true_and]
    rw [hholds]
    exact Or.inr (hall index l hl howned).1

theorem startFrame_coversFlags :
    CoversFlags function (localEntryState function)
      (startFrame function flagged) := by
  obtain ⟨-, -, hall⟩ := localEntryState_spec function
  intro index l hl howned
  have hflag : (startFrame function flagged).flag index = l.parameter := by
    unfold startFrame flagged
    dsimp only
    rw [hl, Option.map_some, Option.getD_some, Bool.true_and]
  rw [hflag]
  exact Or.inr (hall index l hl howned).2

theorem valueStep_allows (op : MirOp) {held : Bool} (h : Allows answer held) :
    Allows ((valueStep op).getD answer) (heldAfter op held) := by
  cases op with
  | localInit => exact Or.inr rfl
  | patternBind => exact Or.inr rfl
  | assign => exact Or.inr rfl
  | move => exact Or.inr rfl
  | dropLocal => exact Or.inr rfl
  | retain => exact h
  | borrow => exact h
  | other => exact h

/-- The flag after an instruction, when an elided bind finds it clear. -/
theorem flagStep_allows (instruction : MirInstruction) (l : MirLocal) {flag : Bool}
    (h : Allows answer flag)
    (helided : instruction.op = .patternBind →
      instruction.borrowElided = true → flag = false) :
    Allows ((flagStep instruction l).getD answer)
      (flagAfter instruction l flag) := by
  unfold flagStep flagAfter
  cases hop : instruction.op with
  | localInit => exact Or.inr rfl
  | patternBind =>
    cases hb : instruction.borrowElided with
    | true =>
      rw [helided hop hb]
      exact Or.inr rfl
    | false => exact Or.inr rfl
  | assign =>
    by_cases ht : instruction.text = "="
    · simp only [ht, if_true]
      exact Or.inr rfl
    · simpa [ht] using h
  | move => exact Or.inr rfl
  | dropLocal => exact Or.inr rfl
  | retain =>
    cases hp : l.parameter with
    | true => simpa [hp] using h
    | false =>
      simp only [reduceCtorEq, false_and, or_self, Bool.false_eq_true,
        not_false_eq_true, and_self, if_true, if_false]
      exact Or.inr rfl
  | borrow => exact h
  | other => exact h

theorem exec_holds (emission : Emission) (instruction : MirInstruction) (frame : Frame)
    (i : ℕ) :
    (execInstruction function emission instruction frame).holds i =
      match touched function instruction with
      | some (index, _) => if i = index then
          heldAfter instruction.op (frame.holds i) else frame.holds i
      | none => frame.holds i := by
  unfold execInstruction
  cases touched function instruction with
  | none => rfl
  | some p =>
    dsimp only
    rw [Function.update_apply]
    split_ifs with h
    · rw [h]
    · rfl

theorem exec_flag (emission : Emission) (instruction : MirInstruction) (frame : Frame) (i : ℕ) :
    (execInstruction function emission instruction frame).flag i =
      match touched function instruction with
      | some (index, l) => if emission.keeps index = true ∧ i = index then
          flagAfter instruction l (frame.flag i) else frame.flag i
      | none => frame.flag i := by
  unfold execInstruction
  cases touched function instruction with
  | none => rfl
  | some p =>
    dsimp only
    by_cases hk : emission.keeps p.1 = true
    · rw [if_pos hk, Function.update_apply]
      by_cases hi : i = p.1
      · rw [if_pos hi, if_pos ⟨hk, hi⟩, hi]
      · rw [if_neg hi, if_neg fun h => hi h.2]
    · rw [if_neg hk, if_neg fun h => hk h.1]

theorem Covers.step {state : MirLocalState} {frame : Frame}
    (hfit : Fit function.locals.length state) (h : Covers function state frame)
    (emission : Emission) (instruction : MirInstruction) :
    Covers function (transferLocalState function instruction state)
      (execInstruction function emission instruction frame) where
  reached := (transfer_reached instruction state).trans h.reached
  holds index l hl howned := by
    have hold := h.holds index l hl howned
    unfold valueOf at hold ⊢
    have hword := (transfer_word hfit instruction index).2.1
    unfold word at hword
    rw [hword, exec_holds]
    cases touched function instruction with
    | none => exact hold
    | some p =>
      dsimp only
      split_ifs
      · exact valueStep_allows _ hold
      · exact hold

theorem CoversFlags.step {state : MirLocalState} {frame : Frame}
    (hfit : Fit function.locals.length state) (h : CoversFlags function state frame)
    (instruction : MirInstruction)
    (helided : ∀ index l, touched function instruction = some (index, l) →
      instruction.op = .patternBind → instruction.borrowElided = true →
      frame.flag index = false) :
    CoversFlags function (transferLocalState function instruction state)
      (execInstruction function flagged instruction frame) := by
  intro index l hl howned
  have hold := h index l hl howned
  unfold flagOf at hold ⊢
  have hword := (transfer_word hfit instruction index).2.2
  unfold word at hword
  rw [hword, exec_flag]
  cases ht : touched function instruction with
  | none => exact hold
  | some p =>
    dsimp only
    by_cases hi : index = p.1
    · rw [if_pos hi, if_pos ⟨rfl, hi⟩]
      refine flagStep_allows instruction p.2 hold fun hop hb => ?_
      rw [hi]
      exact helided p.1 p.2 ht hop hb
    · rw [if_neg hi, if_neg fun hk => hi hk.2]
      exact hold

end Mir
end Beans
