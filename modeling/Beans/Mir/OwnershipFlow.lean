import Beans.Mir.LocalOwnership

/-!
# The ownership fixpoint settles

The transfer of an instruction either fixes an answer of the local it names or
carries it through, so it is monotone.  The rounds therefore only ever open
answers, and they stop.
-/

namespace Beans
namespace Mir

open MirLocalState

variable {function : MirFunction}

/-- What an operation leaves of the question whether the local holds a value. -/
def valueStep (op : MirOp) : Option ℕ :=
  if op = .localInit ∨ op = .patternBind ∨ op = .assign then some 1
  else if op = .move ∨ op = .dropLocal then some 0
  else none

/-- What an instruction leaves of the question whether the flag is set. -/
def flagStep (instruction : MirInstruction) (l : MirLocal) : Option ℕ :=
  if instruction.op = .localInit ∨
      (instruction.op = .assign ∧ instruction.text = "=") then some 1
  else if instruction.op = .patternBind then
    some (if instruction.borrowElided then 0 else 1)
  else if instruction.op = .move ∨ instruction.op = .dropLocal then some 0
  else if instruction.op = .retain ∧ ¬ l.parameter then some 0
  else none

variable {b index v : ℕ} {instruction : MirInstruction} {l : MirLocal} {s state t : MirLocalState}
  {flow : Flow}

theorem valueStep_lt {op : MirOp} (h : valueStep op = some v) :
    v < 2 := by
  unfold valueStep at h
  split_ifs at h <;> cases h <;> decide

theorem flagStep_lt (h : flagStep instruction l = some v) :
    v < 2 := by
  unfold flagStep at h
  split_ifs at h <;> cases h <;> decide

/-- The local whose answers an instruction changes. -/
def touched (function : MirFunction) (instruction : MirInstruction) :
    Option (ℕ × MirLocal) :=
  if instruction.removed then none
  else (function.ownedLocal instruction.localId).map fun l =>
    (instruction.localId.toNat, l)

theorem ownedLocal_some {localId : ℤ} (h : function.ownedLocal localId = some l) :
    0 ≤ localId ∧ localId.toNat < function.locals.length ∧
      function.locals[localId.toNat]? = some l ∧ l.ownership = .owned := by
  unfold MirFunction.ownedLocal at h
  split_ifs at h with hrange
  obtain ⟨hget, howned⟩ := Option.filter_eq_some_iff.mp h
  exact ⟨by omega, by omega, hget, of_decide_eq_true howned⟩

theorem ownedLocal_natCast (h : function.locals[index]? = some l)
    (howned : l.ownership = .owned) :
    function.ownedLocal index = some l := by
  obtain ⟨hlt, -⟩ := List.getElem?_eq_some_iff.mp h
  unfold MirFunction.ownedLocal
  rw [if_neg (by omega), Int.toNat_natCast, h, Option.filter_some,
    if_pos (decide_eq_true howned)]

def writeValue (index : ℕ) (state : MirLocalState) :
    Option ℕ → MirLocalState
  | some v => state.setValue index v
  | none => state

def writeFlag (index : ℕ) (state : MirLocalState) : Option ℕ → MirLocalState
  | some v => state.setFlag index v
  | none => state

/-- The transfer as one write of each answer. -/
def writeAnswers (index : ℕ) (value flag : Option ℕ)
    (state : MirLocalState) : MirLocalState :=
  writeFlag index (writeValue index state value) flag

theorem transferLocalState_eq (instruction : MirInstruction) (state : MirLocalState) :
    transferLocalState function instruction state =
      match touched function instruction with
      | some (index, l) =>
        writeAnswers index (valueStep instruction.op)
          (flagStep instruction l) state
      | none => state := by
  unfold transferLocalState touched
  cases instruction.removed with
  | true => rfl
  | false =>
    cases function.ownedLocal instruction.localId with
    | none => rfl
    | some l =>
      simp only [Bool.false_eq_true, if_false, Option.map_some]
      unfold valueStep flagStep writeAnswers writeValue writeFlag
      split_ifs <;> rfl

theorem writeAnswers_reached (index : ℕ) (value flag : Option ℕ) (state : MirLocalState) :
    (writeAnswers index value flag state).reached = state.reached := by
  cases value <;> cases flag <;> rfl

theorem writeAnswers_length (index : ℕ) (value flag : Option ℕ) (state : MirLocalState) :
    (writeAnswers index value flag state).values.length =
      state.values.length := by
  cases value <;> cases flag <;>
    simp [writeAnswers, writeValue, writeFlag, setValue, setFlag]

/-- The word of the written local, and every other word. -/
theorem writeAnswers_word (hindex : index < state.values.length)
    (hwords : ∀ i, Word (state.word i)) {value flag : Option ℕ}
    (hvalue : ∀ v, value = some v → v < 2) (hflag : ∀ v, flag = some v → v < 2) (i : ℕ) :
    Word ((writeAnswers index value flag state).word i) ∧
      valueOfWord ((writeAnswers index value flag state).word i) =
        (if i = index then value.getD (valueOfWord (state.word i))
          else valueOfWord (state.word i)) ∧
      flagOfWord ((writeAnswers index value flag state).word i) =
        (if i = index then flag.getD (flagOfWord (state.word i))
          else flagOfWord (state.word i)) := by
  obtain ⟨first, hfirst⟩ :
      ∃ s, s = writeValue index state value := ⟨_, rfl⟩
  have hlen : first.values.length = state.values.length := by
    rw [hfirst]
    cases value <;> simp [writeValue, setValue]
  have hone : Word (first.word i) ∧
      valueOfWord (first.word i) =
        (if i = index then value.getD (valueOfWord (state.word i))
          else valueOfWord (state.word i)) ∧
      flagOfWord (first.word i) = flagOfWord (state.word i) := by
    rw [hfirst]
    cases value with
    | none => exact ⟨hwords i, by simp [writeValue], rfl⟩
    | some v =>
      have hv := hvalue v rfl
      obtain ⟨hw, hval, hfl⟩ :=
        wordWithValue_spec (show v < 3 by omega) (hwords i)
      unfold writeValue setValue
      rw [modify_word state _ index i hindex]
      split_ifs
      · exact ⟨hw, hval, hfl⟩
      · exact ⟨hwords i, rfl, rfl⟩
  obtain ⟨hw, hval, hfl⟩ := hone
  unfold writeAnswers
  rw [← hfirst]
  cases flag with
  | none => exact ⟨hw, hval, by simp [writeFlag, hfl]⟩
  | some v =>
    have hv := hflag v rfl
    obtain ⟨hw', hval', hfl'⟩ := wordWithFlag_spec (show v < 3 by omega) hw
    unfold writeFlag setFlag
    rw [modify_word first _ index i (by rw [hlen]; exact hindex)]
    split_ifs with hi
    · refine ⟨hw', ?_, hfl'⟩
      rw [hval', hval, if_pos hi]
    · refine ⟨hw, ?_, hfl⟩
      rw [hval, if_neg hi]

theorem touched_some (h : touched function instruction = some (index, l)) :
    instruction.removed = false ∧ instruction.localId = index ∧
      index < function.locals.length ∧
      function.locals[index]? = some l ∧ l.ownership = .owned := by
  unfold touched at h
  split_ifs at h with hremoved
  obtain ⟨l', howned, heq⟩ := Option.map_eq_some_iff.mp h
  cases heq
  obtain ⟨h₁, h₂, h₃, h₄⟩ := ownedLocal_some howned
  exact ⟨Bool.not_eq_true _ ▸ hremoved, (Int.toNat_of_nonneg h₁).symm, h₂, h₃,
    h₄⟩

/-- What an instruction does to the answers of one local. -/
theorem transfer_word (hfit : Fit function.locals.length state) (instruction : MirInstruction)
    (i : ℕ) :
    Word ((transferLocalState function instruction state).word i) ∧
      valueOfWord ((transferLocalState function instruction state).word i) =
        (match touched function instruction with
          | some (index, _) => if i = index then
              (valueStep instruction.op).getD (valueOfWord (state.word i))
              else valueOfWord (state.word i)
          | none => valueOfWord (state.word i)) ∧
      flagOfWord ((transferLocalState function instruction state).word i) =
        (match touched function instruction with
          | some (index, l) => if i = index then
              (flagStep instruction l).getD (flagOfWord (state.word i))
              else flagOfWord (state.word i)
          | none => flagOfWord (state.word i)) := by
  rw [transferLocalState_eq]
  cases h : touched function instruction with
  | none => exact ⟨hfit.words i, rfl, rfl⟩
  | some p =>
    obtain ⟨index, l⟩ := p
    have hlt := (touched_some h).2.2.1
    rw [← hfit.length] at hlt
    exact writeAnswers_word hlt hfit.words (fun v => valueStep_lt)
      (fun v => flagStep_lt) i

theorem transfer_reached (instruction : MirInstruction) (state : MirLocalState) :
    (transferLocalState function instruction state).reached =
      state.reached := by
  rw [transferLocalState_eq]
  cases touched function instruction with
  | none => rfl
  | some p => exact writeAnswers_reached _ _ _ state

theorem transfer_fit (hfit : Fit function.locals.length state) (hreached : state.reached = true)
    (instruction : MirInstruction) :
    Fit function.locals.length
      (transferLocalState function instruction state) where
  length := by
    rw [transferLocalState_eq]
    cases touched function instruction with
    | none => exact hfit.length
    | some p => exact (writeAnswers_length _ _ _ state).trans hfit.length
  words i := (transfer_word hfit instruction i).1
  unreached h := by
    rw [transfer_reached, hreached] at h
    cases h

theorem answerLe_getD {a : ℕ} (h : AnswerLe a b) (o : Option ℕ) :
    AnswerLe (o.getD a) (o.getD b) := by
  cases o with
  | none => exact h
  | some v => exact AnswerLe.refl v

theorem transfer_mono (hs : Fit function.locals.length s) (ht : Fit function.locals.length t)
    (hle : Le s t) (instruction : MirInstruction) :
    Le (transferLocalState function instruction s)
      (transferLocalState function instruction t) := by
  intro hreached
  rw [transfer_reached] at hreached
  obtain ⟨htr, hwords⟩ := hle hreached
  refine ⟨by rw [transfer_reached, htr], fun i => ?_⟩
  obtain ⟨-, hv, hf⟩ := transfer_word hs instruction i
  obtain ⟨-, hv', hf'⟩ := transfer_word ht instruction i
  unfold WordLe
  rw [hv, hf, hv', hf']
  cases touched function instruction with
  | none => exact hwords i
  | some p =>
    dsimp only
    split_ifs
    · exact ⟨answerLe_getD (hwords i).1 _, answerLe_getD (hwords i).2 _⟩
    · exact hwords i

def transferAll (function : MirFunction) (is : List MirInstruction)
    (state : MirLocalState) : MirLocalState :=
  is.foldl (fun state i => transferLocalState function i state) state

theorem transferAll_reached (is : List MirInstruction) (state : MirLocalState) :
    (transferAll function is state).reached = state.reached := by
  induction is generalizing state with
  | nil => rfl
  | cons i is ih => exact (ih _).trans (transfer_reached i state)

theorem transferAll_fit (hfit : Fit function.locals.length state)
    (hreached : state.reached = true) (is : List MirInstruction) :
    Fit function.locals.length (transferAll function is state) := by
  induction is generalizing state with
  | nil => exact hfit
  | cons i is ih =>
    exact ih (transfer_fit hfit hreached i)
      ((transfer_reached i state).trans hreached)

theorem transferAll_mono (hs : Fit function.locals.length s) (ht : Fit function.locals.length t)
    (hreached : s.reached = true) (hle : Le s t) (is : List MirInstruction) :
    Le (transferAll function is s) (transferAll function is t) := by
  induction is generalizing s t with
  | nil => exact hle
  | cons i is ih =>
    have htr := (hle hreached).1
    exact ih (transfer_fit hs hreached i) (transfer_fit ht htr i)
      ((transfer_reached i s).trans hreached) (transfer_mono hs ht hle i)

theorem transferBlock_eq {block : MirBlock} {blockIndex : ℕ}
    (h : function.blocks[blockIndex]? = some block) (state : MirLocalState) :
    transferBlock function blockIndex state =
      transferAll function block.instructions state := by
  unfold transferBlock
  rw [h]
  rfl

theorem setBoth_word (hindex : index < state.values.length) (hwords : ∀ i, Word (state.word i))
    (i : ℕ) :
    Word (((state.setValue index 1).setFlag index 1).word i) ∧
      (i ≠ index →
        ((state.setValue index 1).setFlag index 1).word i = state.word i) ∧
      (i = index →
        valueOfWord (((state.setValue index 1).setFlag index 1).word i) = 1 ∧
          flagOfWord (((state.setValue index 1).setFlag index 1).word i) =
            1) := by
  have hone : ∀ v, (some 1 : Option ℕ) = some v → v < 2 := by simp
  have hspec := writeAnswers_word hindex hwords hone hone i
  have hdef : writeAnswers index (some 1) (some 1) state =
      (state.setValue index 1).setFlag index 1 := rfl
  rw [hdef] at hspec
  refine ⟨hspec.1, fun hne => ?_, fun heq => ?_⟩
  · unfold setFlag
    rw [modify_word _ _ _ _ (by simpa [setValue] using hindex), if_neg hne]
    unfold setValue
    rw [modify_word _ _ _ _ hindex, if_neg hne]
  · rw [if_pos heq, if_pos heq] at hspec
    exact hspec.2

/-- The entry state after the first locals were looked at. -/
theorem entryFold_spec (n k : ℕ) (ls : List MirLocal) (state : MirLocalState)
    (hlen : state.values.length = n) (hbound : k + ls.length ≤ n)
    (hwords : ∀ i, Word (state.word i)) :
    ∃ r, (ls.zipIdx k).foldl
        (fun result l =>
          if l.1.ownership = .owned ∧ l.1.parameter then
            (result.setValue l.2 1).setFlag l.2 1
          else result) state = r ∧
      r.values.length = n ∧ r.reached = state.reached ∧
      (∀ i, Word (r.word i)) ∧
      (∀ i, i < k → r.word i = state.word i) ∧
      ∀ i, ∀ l, ls[i]? = some l →
        (l.ownership = .owned ∧ l.parameter = true →
          valueOfWord (r.word (k + i)) = 1 ∧ flagOfWord (r.word (k + i)) = 1) ∧
        (¬ (l.ownership = .owned ∧ l.parameter = true) →
          r.word (k + i) = state.word (k + i)) := by
  induction ls generalizing k state with
  | nil =>
    exact ⟨state, rfl, hlen, rfl, hwords, fun _ _ => rfl,
      fun i l h => by simp at h⟩
  | cons l ls ih =>
    rw [List.length_cons] at hbound
    have hk : k < state.values.length := by omega
    obtain ⟨next, hnext⟩ : ∃ s, s =
        (if l.ownership = .owned ∧ l.parameter = true then
          (state.setValue k 1).setFlag k 1 else state) := ⟨_, rfl⟩
    have hnlen : next.values.length = n := by
      rw [hnext]
      split_ifs
      · simp [setFlag, setValue, hlen]
      · exact hlen
    have hnreached : next.reached = state.reached := by
      rw [hnext]
      split_ifs <;> rfl
    have hnwords : ∀ i, Word (next.word i) := by
      intro i
      rw [hnext]
      split_ifs
      · exact (setBoth_word hk hwords i).1
      · exact hwords i
    have hnother : ∀ i, i ≠ k → next.word i = state.word i := by
      intro i hi
      rw [hnext]
      split_ifs
      · exact (setBoth_word hk hwords i).2.1 hi
      · rfl
    obtain ⟨r, hfold, hrlen, hrreached, hrwords, hrlow, hrest⟩ :=
      ih (k + 1) next hnlen (by omega) hnwords
    refine ⟨r, ?_, hrlen, hrreached.trans hnreached, hrwords, ?_, ?_⟩
    · rw [List.zipIdx_cons, List.foldl_cons, ← hfold, hnext]
    · intro i hi
      rw [hrlow i (by omega), hnother i (by omega)]
    · intro i l' hl'
      cases i with
      | zero =>
        cases hl'
        rw [Nat.add_zero, hrlow k (Nat.lt_succ_self k), hnext]
        constructor
        · intro hparam
          rw [if_pos hparam]
          exact (setBoth_word hk hwords k).2.2 rfl
        · intro hparam
          rw [if_neg hparam]
      | succ i =>
        have hget := hrest i l' hl'
        rw [show k + (i + 1) = k + 1 + i by omega]
        refine ⟨hget.1, fun hparam => ?_⟩
        rw [hget.2 hparam, hnother _ (by omega)]

theorem localEntryState_spec (function : MirFunction) :
    Fit function.locals.length (localEntryState function) ∧
      (localEntryState function).reached = true ∧
      ∀ i, ∀ l, function.locals[i]? = some l → l.ownership = .owned →
        valueOfWord ((localEntryState function).word i) = l.parameter.toNat ∧
        flagOfWord ((localEntryState function).word i) =
          l.parameter.toNat := by
  obtain ⟨r, hfold, hlen, hreached, hwords, -, hall⟩ :=
    entryFold_spec function.locals.length 0 function.locals
      { MirLocalState.empty function.locals.length with reached := true }
      (empty_fit _).length (by omega) (empty_fit _).words
  have hdef : localEntryState function = r := hfold
  rw [hdef]
  refine ⟨⟨hlen, hwords, fun h => ?_⟩, hreached, fun i l hl howned => ?_⟩
  · rw [hreached] at h
    cases h
  · have hget := hall i l hl
    rw [Nat.zero_add] at hget
    cases hparam : l.parameter with
    | true => exact hget.1 ⟨howned, hparam⟩
    | false =>
      rw [hget.2 (by simp [hparam])]
      have hzero := empty_word function.locals.length i
      unfold word at hzero ⊢
      rw [hzero]
      exact ⟨rfl, rfl⟩

section Incoming

theorem mergeAll_spec {n : ℕ} {output output' : ℕ → MirLocalState}
    (hfit : ∀ p, Fit n (output p)) (hfit' : ∀ p, Fit n (output' p))
    (hle : ∀ p, Le (output p) (output' p)) (sources : List ℕ) {base base' : MirLocalState}
    (hbase : Fit n base) (hbase' : Fit n base') (hbb : Le base base') :
    Fit n (sources.foldl (fun s p => s.merge (output p)) base) ∧
      Le base (sources.foldl (fun s p => s.merge (output p)) base) ∧
      (∀ p ∈ sources,
        Le (output p) (sources.foldl (fun s p => s.merge (output p)) base)) ∧
      Le (sources.foldl (fun s p => s.merge (output p)) base)
        (sources.foldl (fun s p => s.merge (output' p)) base') := by
  induction sources generalizing base base' with
  | nil => exact ⟨hbase, Le.refl base, fun _ h => absurd h List.not_mem_nil, hbb⟩
  | cons p sources ih =>
    obtain ⟨hf, hb, hall, hmono⟩ := ih (merge_fit hbase (hfit p))
      (merge_fit hbase' (hfit' p))
      (merge_mono hbase hbase' (hfit p) (hfit' p) hbb (hle p))
    refine ⟨hf, (le_merge_left hbase (hfit p)).trans hb, ?_, hmono⟩
    intro q hq
    rcases List.mem_cons.mp hq with rfl | hq
    · exact (le_merge_right hbase (hfit q)).trans hb
    · exact hall q hq

variable (function : MirFunction)

def fresh : MirLocalState :=
  MirLocalState.empty function.locals.length

def entryBase (blockIndex : ℕ) : MirLocalState :=
  if blockIndex = function.entry then localEntryState function
  else fresh function

variable {function}

theorem entryBase_fit (blockIndex : ℕ) :
    Fit function.locals.length (entryBase function blockIndex) := by
  unfold entryBase
  split_ifs
  · exact (localEntryState_spec function).1
  · exact empty_fit _

/-- What a block receives covers its base and every predecessor. -/
theorem incomingState_spec {output : List MirLocalState}
    (hfit : ∀ p, Fit function.locals.length (output.getD p (fresh function))) (blockIndex : ℕ) :
    Fit function.locals.length (incomingState function output blockIndex) ∧
      Le (entryBase function blockIndex)
        (incomingState function output blockIndex) ∧
      ∀ p ∈ blockSources function blockIndex,
        Le (output.getD p (fresh function))
          (incomingState function output blockIndex) := by
  obtain ⟨hf, hb, hall, -⟩ := mergeAll_spec hfit hfit (fun p => Le.refl _)
    (blockSources function blockIndex) (entryBase_fit blockIndex)
    (entryBase_fit blockIndex) (Le.refl _)
  exact ⟨hf, hb, hall⟩

theorem incomingState_mono {output output' : List MirLocalState}
    (hfit : ∀ p, Fit function.locals.length (output.getD p (fresh function)))
    (hfit' : ∀ p, Fit function.locals.length (output'.getD p (fresh function)))
    (hle : ∀ p, Le (output.getD p (fresh function))
      (output'.getD p (fresh function)))
    (blockIndex : ℕ) :
    Le (incomingState function output blockIndex)
      (incomingState function output' blockIndex) :=
  (mergeAll_spec hfit hfit' hle (blockSources function blockIndex)
    (entryBase_fit blockIndex) (entryBase_fit blockIndex) (Le.refl _)).2.2.2

end Incoming

theorem sum_map_set {α : Type*} (f : α → ℕ) (l : List α) {i : ℕ} (hi : i < l.length) (x d : α) :
    ((l.set i x).map f).sum + f (l.getD i d) = (l.map f).sum + f x := by
  induction l generalizing i with
  | nil => exact absurd hi (Nat.not_lt_zero i)
  | cons a l ih =>
    cases i with
    | zero =>
      simp only [List.set_cons_zero, List.map_cons, List.sum_cons,
        List.getD_cons_zero]
      omega
    | succ i =>
      have := ih (show i < l.length by simpa using hi)
      simp only [List.set_cons_succ, List.map_cons, List.sum_cons,
        List.getD_cons_succ]
      omega

/-- Every state of a flow is one that the states before it lead to. -/
structure FlowInv (function : MirFunction) (flow : Flow) : Prop where
  inputLength : flow.input.length = function.blocks.length
  outputLength : flow.output.length = function.blocks.length
  inputFit : ∀ b, Fit function.locals.length
    (flow.input.getD b (fresh function))
  outputFit : ∀ b, Fit function.locals.length
    (flow.output.getD b (fresh function))
  received : ∀ b, Le (flow.input.getD b (fresh function))
    (incomingState function flow.output b)
  carried : ∀ b, (flow.input.getD b (fresh function)).reached = true →
    Le (flow.output.getD b (fresh function))
      (transferBlock function b (flow.input.getD b (fresh function)))
  unreached : ∀ b, (flow.input.getD b (fresh function)).reached = false →
    (flow.output.getD b (fresh function)).reached = false

def flowRank (flow : Flow) : ℕ :=
  (flow.input.map rank).sum + (flow.output.map rank).sum

theorem transferBlock_fit (hfit : Fit function.locals.length state)
    (hreached : state.reached = true) (blockIndex : ℕ) :
    Fit function.locals.length (transferBlock function blockIndex state) :=
  transferAll_fit hfit hreached _

theorem transferBlock_mono (hs : Fit function.locals.length s)
    (ht : Fit function.locals.length t) (hreached : s.reached = true) (hle : Le s t)
    (blockIndex : ℕ) :
    Le (transferBlock function blockIndex s)
      (transferBlock function blockIndex t) :=
  transferAll_mono hs ht hreached hle _

/-- The flow after a visit, with the output a visit leaves. -/
def visitOutput (function : MirFunction) (flow : Flow) (blockIndex : ℕ) :
    MirLocalState :=
  if (incomingState function flow.output blockIndex).reached then
    transferBlock function blockIndex
      (incomingState function flow.output blockIndex)
  else flow.output.getD blockIndex (fresh function)

theorem visitBlock_eq {flow : Flow} {b : ℕ} (hb : b < flow.output.length) :
    (visitBlock function flow b).1 =
        { input := flow.input.set b (incomingState function flow.output b)
          output := flow.output.set b (visitOutput function flow b) } ∧
      ((visitBlock function flow b).2 = true ↔
        incomingState function flow.output b ≠
            flow.input.getD b (fresh function) ∨
          visitOutput function flow b ≠
            flow.output.getD b (fresh function)) := by
  have hsame : flow.output.set b (flow.output.getD b (fresh function)) =
      flow.output := by
    rw [List.getD_eq_getElem _ _ hb, List.set_getElem_self]
  unfold visitBlock visitOutput
  dsimp only
  by_cases hreached :
      (incomingState function flow.output b).reached = true
  · rw [if_neg (not_not.mpr hreached), if_pos hreached]
    exact ⟨rfl, by simp [fresh]⟩
  · rw [if_pos hreached, if_neg hreached, hsame]
    exact ⟨rfl, by simp [fresh]⟩

theorem visitOutput_fit (hflow : FlowInv function flow) (b : ℕ) :
    Fit function.locals.length (visitOutput function flow b) := by
  unfold visitOutput
  split_ifs with hreached
  · exact transferBlock_fit (incomingState_spec hflow.outputFit b).1 hreached b
  · exact hflow.outputFit b

/-- A visit only opens answers. -/
theorem visitOutput_le (hflow : FlowInv function flow) (b : ℕ) :
    Le (flow.output.getD b (fresh function)) (visitOutput function flow b) := by
  unfold visitOutput
  split_ifs with hreached
  · cases hin : (flow.input.getD b (fresh function)).reached with
    | true =>
      exact (hflow.carried b hin).trans (transferBlock_mono (hflow.inputFit b)
        (incomingState_spec hflow.outputFit b).1 hin (hflow.received b) b)
    | false =>
      intro hout
      rw [hflow.unreached b hin] at hout
      cases hout
  · exact Le.refl _

/-- A visit joins the outputs of the predecessors and transfers the join. -/
theorem visitBlock_inv (hb : b < function.blocks.length) (hflow : FlowInv function flow) :
    FlowInv function (visitBlock function flow b).1 := by
  have hbin : b < flow.input.length := by rw [hflow.inputLength]; exact hb
  have hbout : b < flow.output.length := by rw [hflow.outputLength]; exact hb
  have hincoming := incomingState_spec hflow.outputFit b
  have hin := getD_set flow.input hbin
    (incomingState function flow.output b) (fresh function)
  have hout := getD_set flow.output hbout (visitOutput function flow b)
    (fresh function)
  have houtFit : ∀ p, Fit function.locals.length
      ((flow.output.set b (visitOutput function flow b)).getD p
        (fresh function)) := by
    intro p
    rw [hout]
    split_ifs
    · exact visitOutput_fit hflow b
    · exact hflow.outputFit p
  have houtLe : ∀ p, Le (flow.output.getD p (fresh function))
      ((flow.output.set b (visitOutput function flow b)).getD p
        (fresh function)) := by
    intro p
    rw [hout]
    split_ifs with hp
    · rw [hp]
      exact visitOutput_le hflow b
    · exact Le.refl _
  have hmore := incomingState_mono hflow.outputFit houtFit houtLe
  rw [(visitBlock_eq hbout).1]
  refine ⟨?_, ?_, ?_, houtFit, ?_, ?_, ?_⟩
  · rw [List.length_set, hflow.inputLength]
  · rw [List.length_set, hflow.outputLength]
  · intro p
    rw [hin]
    split_ifs
    · exact hincoming.1
    · exact hflow.inputFit p
  · intro p
    rw [hin]
    split_ifs with hp
    · rw [hp]
      exact hmore b
    · exact (hflow.received p).trans (hmore p)
  · intro p
    rw [hin, hout]
    split_ifs with hp
    · intro hreached
      unfold visitOutput
      rw [if_pos hreached, hp]
      exact Le.refl _
    · exact hflow.carried p
  · intro p
    rw [hin, hout]
    split_ifs with hp
    · intro hreached
      unfold visitOutput
      rw [if_neg (by rw [hreached]; exact Bool.false_ne_true)]
      refine hflow.unreached b ?_
      by_contra hwas
      rw [Bool.not_eq_false] at hwas
      rw [(hflow.received b hwas).1] at hreached
      cases hreached
    · exact hflow.unreached p

theorem visitBlock_rank (hb : b < function.blocks.length) (hflow : FlowInv function flow) :
    flowRank flow ≤ flowRank (visitBlock function flow b).1 ∧
      ((visitBlock function flow b).2 = true →
        flowRank flow < flowRank (visitBlock function flow b).1) := by
  have hbin : b < flow.input.length := by rw [hflow.inputLength]; exact hb
  have hbout : b < flow.output.length := by rw [hflow.outputLength]; exact hb
  obtain ⟨hvisit, hchanged⟩ := @visitBlock_eq function flow b hbout
  have hin := (hflow.received b).rank (hflow.inputFit b)
    (incomingState_spec hflow.outputFit b).1
  have hout := (visitOutput_le hflow b).rank (hflow.outputFit b)
    (visitOutput_fit hflow b)
  have hsumIn := sum_map_set rank flow.input hbin
    (incomingState function flow.output b) (fresh function)
  have hsumOut := sum_map_set rank flow.output hbout
    (visitOutput function flow b) (fresh function)
  rw [hvisit, hchanged]
  unfold flowRank
  dsimp only
  refine ⟨by omega, fun hne => ?_⟩
  rcases hne with hne | hne
  · have := hin.2 (Ne.symm hne)
    omega
  · have := hout.2 (Ne.symm hne)
    omega

/-- A visit that changed nothing leaves the flow as it was. -/
theorem visitBlock_same (hbin : b < flow.input.length) (hbout : b < flow.output.length)
    (h : (visitBlock function flow b).2 = false) :
    (visitBlock function flow b).1 = flow ∧
      incomingState function flow.output b =
        flow.input.getD b (fresh function) ∧
      visitOutput function flow b =
        flow.output.getD b (fresh function) := by
  obtain ⟨hvisit, hchanged⟩ := @visitBlock_eq function flow b hbout
  have hnot : ¬ (visitBlock function flow b).2 = true := by
    rw [h]
    exact Bool.false_ne_true
  rw [hchanged, not_or, not_not, not_not] at hnot
  refine ⟨?_, hnot⟩
  rw [hvisit, hnot.1, hnot.2, List.getD_eq_getElem _ _ hbin,
    List.getD_eq_getElem _ _ hbout, List.set_getElem_self,
    List.set_getElem_self]

theorem startFlow_inv (hbody : function.blocks ≠ []) :
    FlowInv function (startFlow function) := by
  have hentry := function.entry_lt hbody
  obtain ⟨hfit, -, -⟩ := localEntryState_spec function
  have hfresh : ∀ b, (function.blocks.map fun _ =>
      MirLocalState.empty function.locals.length).getD b (fresh function) =
      fresh function := by
    intro b
    rw [List.getD_eq_getElem?_getD, List.getElem?_map]
    cases function.blocks[b]? <;> rfl
  have hin : ∀ b, (startFlow function).input.getD b (fresh function) =
      entryBase function b := by
    intro b
    unfold startFlow entryBase
    rw [getD_set _ (by simpa using hentry), hfresh]
  have hout : ∀ b, (startFlow function).output.getD b (fresh function) =
      fresh function := hfresh
  have houtFit : ∀ b, Fit function.locals.length
      ((startFlow function).output.getD b (fresh function)) := by
    intro b
    rw [hout]
    exact empty_fit _
  refine ⟨?_, ?_, ?_, houtFit, ?_, ?_, ?_⟩
  · unfold startFlow
    simp
  · unfold startFlow
    simp
  · intro b
    rw [hin]
    exact entryBase_fit b
  · intro b
    rw [hin]
    exact (incomingState_spec houtFit b).2.1
  · intro b _
    rw [hout]
    exact empty_le _ _
  · intro b _
    rw [hout]
    rfl

theorem flowRank_le (hflow : FlowInv function flow) :
    flowRank flow ≤
      2 * function.blocks.length * (1 + 2 * function.locals.length) := by
  have hbound : ∀ l : List MirLocalState,
      (∀ i, Fit function.locals.length (l.getD i (fresh function))) →
      (l.map rank).sum ≤ l.length * (1 + 2 * function.locals.length) := by
    intro l hl
    refine (List.sum_le_card_nsmul _ (1 + 2 * function.locals.length) ?_).trans
      (by simp)
    intro r hr
    obtain ⟨s, hs, rfl⟩ := List.mem_map.mp hr
    obtain ⟨i, hi, rfl⟩ := List.getElem_of_mem hs
    have := hl i
    rw [List.getD_eq_getElem _ _ hi] at this
    exact rank_le this
  have hin := hbound flow.input hflow.inputFit
  have hout := hbound flow.output hflow.outputFit
  rw [hflow.inputLength] at hin
  rw [hflow.outputLength] at hout
  unfold flowRank
  rw [Nat.mul_assoc, Nat.two_mul]
  exact Nat.add_le_add hin hout

theorem flowRound_inv (hflow : FlowInv function flow) :
    FlowInv function (flowRound function flow).1 :=
  sweep_inv (fun _ _ hb hs => visitBlock_inv (List.mem_range.mp hb) hs) hflow

/-- The states the rounds end with. -/
structure Settled (function : MirFunction) (flow : Flow) : Prop where
  inv : FlowInv function flow
  input : ∀ b < function.blocks.length,
    flow.input.getD b (fresh function) =
      incomingState function flow.output b
  output : ∀ b < function.blocks.length,
    (flow.input.getD b (fresh function)).reached = true →
    flow.output.getD b (fresh function) =
      transferBlock function b (flow.input.getD b (fresh function))

/-- The fixpoint loop of every function with a body ends, settled. -/
theorem fixpoint_settles (hbody : function.blocks ≠ []) :
    ∃ flow n, Settled function flow ∧
      ∀ fuel ≥ n, untilStable (flowRound function) fuel (startFlow function) =
        some flow := by
  have hstart := startFlow_inv hbody
  have hrank : ∀ flow, FlowInv function flow →
      (flowRound function flow).2 = true →
      flowRank flow < flowRank (flowRound function flow).1 := fun flow hflow =>
    (sweep_rank (fun _ _ hb hs => visitBlock_inv (List.mem_range.mp hb) hs)
      (fun _ _ hb hs => visitBlock_rank (List.mem_range.mp hb) hs) hflow).2
  obtain ⟨flow, hflow⟩ := untilStable_returns (fun _ => flowRound_inv) hrank
    (fun _ => flowRank_le) hstart
  refine ⟨flow, _, ?_, fun fuel hfuel => untilStable_of_le hfuel hflow⟩
  obtain ⟨last, hlast, hstable, heq⟩ :=
    untilStable_spec (fun _ => flowRound_inv) hstart hflow
  have hsame : ∀ b ∈ List.range function.blocks.length,
      (visitBlock function last b).2 = false →
        (visitBlock function last b).1 = last := by
    intro b hb h
    rw [List.mem_range] at hb
    exact (visitBlock_same (by rw [hlast.inputLength]; exact hb)
      (by rw [hlast.outputLength]; exact hb) h).1
  have hsweep : (flowRound function last).1 = last ∧
      ∀ b ∈ List.range function.blocks.length,
        (visitBlock function last b).2 = false :=
    sweep_stable hsame hstable
  rw [heq, hsweep.1]
  have hvisit : ∀ b < function.blocks.length,
      incomingState function last.output b =
          last.input.getD b (fresh function) ∧
        visitOutput function last b =
          last.output.getD b (fresh function) := by
    intro b hb
    exact (visitBlock_same (by rw [hlast.inputLength]; exact hb)
      (by rw [hlast.outputLength]; exact hb)
      (hsweep.2 b (List.mem_range.mpr hb))).2
  refine ⟨hlast, fun b hb => (hvisit b hb).1.symm, fun b hb hreached => ?_⟩
  obtain ⟨hin, hout⟩ := hvisit b hb
  rw [← hout]
  unfold visitOutput
  rw [hin, if_pos hreached]

end Mir
end Beans
