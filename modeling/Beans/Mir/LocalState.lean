import Mathlib

/-!
# The middle representation

A function is a list of blocks.  A block runs its instructions and leaves
through its terminator for one of the target blocks.  Instructions name the
locals of the function by position; `-1` is no local.

The verifier follows, for every local, whether it holds a value and whether the
backend's live flag is set.  Each answer is 0 for no on every path, 1 for yes on
every path and 2 for paths that disagree, and the two answers of a local share
one word, two bits apart.
-/

namespace Beans
namespace Mir

/-- Who releases what a local or a value holds. -/
inductive Ownership where
  | owned
  | borrowed
  | trivial
deriving DecidableEq

structure MirLocal where
  ownership : Ownership
  parameter : Bool
  needsLiveFlag : Bool
  liveFlagUsed : Bool
deriving DecidableEq

/-- The operations that touch a local's reference; the rest are `other`. -/
inductive MirOp where
  | localInit
  | patternBind
  | assign
  | move
  | dropLocal
  | retain
  | borrow
  | other
deriving DecidableEq

/-- An instruction with the local it names and what the verifier writes into it. -/
structure MirInstruction where
  op : MirOp
  text : String
  localId : ℤ
  borrowElided : Bool
  removed : Bool
  liveState : ℕ
  file : String
  line : ℤ
  col : ℤ
deriving DecidableEq

inductive MirTerminatorKind where
  | opened
  | jump
  | branch
  | matched
  | tryBranch
  | returned
  | unreachable
deriving DecidableEq

structure MirTerminator where
  kind : MirTerminatorKind
  targets : List ℤ
  file : String
  line : ℤ
  col : ℤ
deriving DecidableEq

structure MirBlock where
  instructions : List MirInstruction
  terminator : MirTerminator
deriving DecidableEq

/-- A function with a body enters it at one of its blocks. -/
structure MirFunction where
  declaration : Bool
  external : Bool
  entry : ℕ
  locals : List MirLocal
  blocks : List MirBlock
  entry_lt : blocks ≠ [] → entry < blocks.length

/-- An error of a pass, at a place in the source. -/
structure Diagnostic where
  file : String
  line : ℤ
  col : ℤ
  message : String
deriving DecidableEq

/-- What is known of each local at a place, one word a local. -/
structure MirLocalState where
  values : List ℕ
  reached : Bool
deriving DecidableEq

namespace MirLocalState

/-- `new MirLocalState(size)`. -/
def empty (size : ℕ) : MirLocalState :=
  ⟨List.replicate size 0, false⟩

/-- The lower two bits: dead, live, or unknown. -/
def valueOfWord (word : ℕ) : ℕ := word &&& 3

/-- The upper two: the live flag, likewise. -/
def flagOfWord (word : ℕ) : ℕ := word >>> 2

def wordWithValue (value word : ℕ) : ℕ := value ||| (word &&& 12)

def wordWithFlag (flag word : ℕ) : ℕ := (word &&& 3) ||| (flag <<< 2)

def valueOf (state : MirLocalState) (index : ℕ) : ℕ :=
  valueOfWord (state.values.getD index 0)

def flagOf (state : MirLocalState) (index : ℕ) : ℕ :=
  flagOfWord (state.values.getD index 0)

def setValue (state : MirLocalState) (index value : ℕ) : MirLocalState :=
  { state with values := state.values.modify index (wordWithValue value) }

def setFlag (state : MirLocalState) (index flag : ℕ) : MirLocalState :=
  { state with values := state.values.modify index (wordWithFlag flag) }

/-- The halves disagree independently: a path that agrees about the slot can
still disagree about the flag. -/
def mergeWord (mine theirs : ℕ) : ℕ :=
  if mine = theirs then mine
  else
    let merged := mine
    let merged :=
      if mine &&& 3 ≠ theirs &&& 3 then (merged &&& 12) ||| 2 else merged
    if mine &&& 12 ≠ theirs &&& 12 then (merged &&& 3) ||| 8 else merged

/-- Where two paths meet, what they do not agree on is unknown. -/
def merge (state other : MirLocalState) : MirLocalState :=
  if ¬ other.reached then state
  else if ¬ state.reached then ⟨other.values, true⟩
  else ⟨List.zipWith mergeWord state.values other.values, true⟩

/-- The paths that `answer` leaves open include one where it is `b`. -/
def Allows (answer : ℕ) (b : Bool) : Prop :=
  answer = 2 ∨ answer = b.toNat

instance (answer : ℕ) (b : Bool) : Decidable (Allows answer b) :=
  inferInstanceAs (Decidable (_ ∨ _))

theorem Allows.of_zero {answer : ℕ} {b : Bool} (h : Allows answer b) (hzero : answer = 0) :
    b = false := by
  cases b with
  | false => rfl
  | true => rcases h with h | h <;> rw [hzero] at h <;> cases h

theorem Allows.of_one {answer : ℕ} {b : Bool} (h : Allows answer b) (hone : answer = 1) :
    b = true := by
  cases b with
  | true => rfl
  | false => rcases h with h | h <;> rw [hone] at h <;> cases h

/-- The second answer leaves open what the first does. -/
def AnswerLe (a b : ℕ) : Prop :=
  a = b ∨ b = 2

instance (a b : ℕ) : Decidable (AnswerLe a b) :=
  inferInstanceAs (Decidable (_ ∨ _))

def mergeAnswer (a b : ℕ) : ℕ :=
  if a = b then a else 2

theorem AnswerLe.refl (a : ℕ) : AnswerLe a a := Or.inl rfl

variable {a b n : ℕ} {s t : MirLocalState}

theorem AnswerLe.allows (h : AnswerLe a b) {c : Bool} (ha : Allows a c) :
    Allows b c := by
  rcases h with rfl | rfl
  · exact ha
  · exact Or.inl rfl

theorem answerLe_merge_left (a b : ℕ) : AnswerLe a (mergeAnswer a b) := by
  unfold AnswerLe mergeAnswer
  split_ifs
  · exact Or.inl rfl
  · exact Or.inr rfl

theorem answerLe_merge_right (a b : ℕ) : AnswerLe b (mergeAnswer a b) := by
  unfold AnswerLe mergeAnswer
  split_ifs with h
  · exact Or.inl h.symm
  · exact Or.inr rfl

theorem mergeAnswer_mono {a' b' : ℕ} (ha : AnswerLe a a') (hb : AnswerLe b b') :
    AnswerLe (mergeAnswer a b) (mergeAnswer a' b') := by
  unfold AnswerLe mergeAnswer at *
  split_ifs <;> omega

/-- A word whose two answers are each 0, 1 or 2. -/
def Word (word : ℕ) : Prop :=
  word < 12 ∧ word % 4 < 3

instance (word : ℕ) : Decidable (Word word) :=
  inferInstanceAs (Decidable (_ ∧ _))

theorem word_zero : Word 0 := by decide

theorem wordWithValue_spec {value word : ℕ} (hv : value < 3) (hw : Word word) :
    Word (wordWithValue value word) ∧
      valueOfWord (wordWithValue value word) = value ∧
      flagOfWord (wordWithValue value word) = flagOfWord word := by
  have hall : ∀ value : Fin 3, ∀ word : Fin 12, Word word →
      Word (wordWithValue value word) ∧
        valueOfWord (wordWithValue value word) = value ∧
        flagOfWord (wordWithValue value word) = flagOfWord word := by
    decide
  exact hall ⟨value, hv⟩ ⟨word, hw.1⟩ hw

theorem wordWithFlag_spec {flag word : ℕ} (hf : flag < 3) (hw : Word word) :
    Word (wordWithFlag flag word) ∧
      valueOfWord (wordWithFlag flag word) = valueOfWord word ∧
      flagOfWord (wordWithFlag flag word) = flag := by
  have hall : ∀ flag : Fin 3, ∀ word : Fin 12, Word word →
      Word (wordWithFlag flag word) ∧
        valueOfWord (wordWithFlag flag word) = valueOfWord word ∧
        flagOfWord (wordWithFlag flag word) = flag := by
    decide
  exact hall ⟨flag, hf⟩ ⟨word, hw.1⟩ hw

theorem mergeWord_spec (ha : Word a) (hb : Word b) :
    Word (mergeWord a b) ∧
      valueOfWord (mergeWord a b) =
        mergeAnswer (valueOfWord a) (valueOfWord b) ∧
      flagOfWord (mergeWord a b) =
        mergeAnswer (flagOfWord a) (flagOfWord b) := by
  have hall : ∀ a b : Fin 12, Word a → Word b →
      Word (mergeWord a b) ∧
        valueOfWord (mergeWord a b) =
          mergeAnswer (valueOfWord a) (valueOfWord b) ∧
        flagOfWord (mergeWord a b) =
          mergeAnswer (flagOfWord a) (flagOfWord b) := by
    decide
  exact hall ⟨a, ha.1⟩ ⟨b, hb.1⟩ ha hb

/-- The second word leaves open what the first does. -/
def WordLe (a b : ℕ) : Prop :=
  AnswerLe (valueOfWord a) (valueOfWord b) ∧
    AnswerLe (flagOfWord a) (flagOfWord b)

instance (a b : ℕ) : Decidable (WordLe a b) :=
  inferInstanceAs (Decidable (_ ∧ _))

theorem WordLe.refl (a : ℕ) : WordLe a a :=
  ⟨AnswerLe.refl _, AnswerLe.refl _⟩

/-- How many of the two answers are open. -/
def rankWord (word : ℕ) : ℕ :=
  (if valueOfWord word = 2 then 1 else 0) +
    if flagOfWord word = 2 then 1 else 0

theorem rankWord_le (word : ℕ) : rankWord word ≤ 2 := by
  unfold rankWord
  split_ifs <;> decide

/-- Leaving more open raises the rank. -/
theorem WordLe.rank {a b : ℕ} (ha : Word a) (hb : Word b) (h : WordLe a b) :
    rankWord a ≤ rankWord b ∧ (a ≠ b → rankWord a < rankWord b) := by
  have hall : ∀ a b : Fin 12, Word a → Word b → WordLe a b →
      rankWord a ≤ rankWord b ∧
        ((a : ℕ) ≠ b → rankWord a < rankWord b) := by
    decide
  exact hall ⟨a, ha.1⟩ ⟨b, hb.1⟩ ha hb h

def word (state : MirLocalState) (index : ℕ) : ℕ :=
  state.values.getD index 0

/-- A state over `n` locals; one no path reaches is the fresh one. -/
structure Fit (n : ℕ) (state : MirLocalState) : Prop where
  length : state.values.length = n
  words : ∀ i, Word (state.word i)
  unreached : state.reached = false → state = empty n

/-- The second state leaves open what the first does. -/
def Le (s t : MirLocalState) : Prop :=
  s.reached = true → t.reached = true ∧ ∀ i, WordLe (s.word i) (t.word i)

theorem empty_word (n i : ℕ) : (empty n).word i = 0 := by
  unfold word empty
  rw [List.getD_eq_getElem?_getD, List.getElem?_replicate]
  split_ifs <;> rfl

theorem empty_fit (n : ℕ) : Fit n (empty n) where
  length := List.length_replicate
  words i := by
    rw [empty_word]
    exact word_zero
  unreached _ := rfl

theorem Le.refl (s : MirLocalState) : Le s s :=
  fun h => ⟨h, fun _ => WordLe.refl _⟩

theorem empty_le (n : ℕ) (s : MirLocalState) : Le (empty n) s :=
  fun h => absurd h Bool.false_ne_true

theorem AnswerLe.trans {c : ℕ} (h : AnswerLe a b) (h' : AnswerLe b c) :
    AnswerLe a c := by
  unfold AnswerLe at *
  omega

theorem Le.trans {s t u : MirLocalState} (h : Le s t) (h' : Le t u) :
    Le s u := by
  intro hs
  obtain ⟨ht, hst⟩ := h hs
  obtain ⟨hu, htu⟩ := h' ht
  exact ⟨hu, fun i => ⟨(hst i).1.trans (htu i).1, (hst i).2.trans (htu i).2⟩⟩

/-- How far a state is from the fresh one. -/
def rank (s : MirLocalState) : ℕ :=
  if s.reached then 1 + (s.values.map rankWord).sum else 0

theorem sum_rankWord_le (l : List ℕ) :
    (l.map rankWord).sum ≤ 2 * l.length := by
  induction l with
  | nil => exact Nat.le_refl 0
  | cons w l ih =>
    have := rankWord_le w
    rw [List.map_cons, List.sum_cons, List.length_cons]
    omega

theorem rank_le (h : Fit n s) :
    rank s ≤ 1 + 2 * n := by
  have := sum_rankWord_le s.values
  rw [h.length] at this
  unfold rank
  split_ifs <;> omega

theorem sum_rankWord_mono {l l' : List ℕ} (hlen : l.length = l'.length)
    (hw : ∀ i, Word (l.getD i 0)) (hw' : ∀ i, Word (l'.getD i 0))
    (h : ∀ i, WordLe (l.getD i 0) (l'.getD i 0)) :
    (l.map rankWord).sum ≤ (l'.map rankWord).sum ∧
      (l ≠ l' → (l.map rankWord).sum < (l'.map rankWord).sum) := by
  induction l generalizing l' with
  | nil =>
    cases l' with
    | nil => exact ⟨Nat.le_refl 0, fun hne => absurd rfl hne⟩
    | cons w' l' => exact absurd hlen (by simp)
  | cons w l ih =>
    cases l' with
    | nil => exact absurd hlen (by simp)
    | cons w' l' =>
      have hhead := WordLe.rank (hw 0) (hw' 0) (h 0)
      have htail := ih (Nat.succ.inj hlen) (fun i => hw (i + 1))
        (fun i => hw' (i + 1)) (fun i => h (i + 1))
      have h₀ : (w :: l).getD 0 0 = w := rfl
      have h₀' : (w' :: l').getD 0 0 = w' := rfl
      rw [h₀, h₀'] at hhead
      rw [List.map_cons, List.map_cons, List.sum_cons, List.sum_cons]
      refine ⟨Nat.add_le_add hhead.1 htail.1, fun hne => ?_⟩
      by_cases hww : w = w'
      · subst hww
        have := htail.2 fun hll => hne (by rw [hll])
        omega
      · have := hhead.2 hww
        omega

/-- Leaving more open raises the rank of a state. -/
theorem Le.rank {n : ℕ} {s t : MirLocalState} (hs : Fit n s) (ht : Fit n t) (h : Le s t) :
    rank s ≤ rank t ∧ (s ≠ t → MirLocalState.rank s < MirLocalState.rank t) := by
  cases hreached : s.reached with
  | false =>
    have hfresh := hs.unreached hreached
    have hzero : MirLocalState.rank s = 0 := by
      rw [hfresh]
      rfl
    rw [hzero]
    refine ⟨Nat.zero_le _, fun hne => ?_⟩
    cases htr : t.reached with
    | false => exact absurd (hfresh.trans (ht.unreached htr).symm) hne
    | true =>
      unfold MirLocalState.rank
      rw [if_pos htr]
      omega
  | true =>
    obtain ⟨htr, hwords⟩ := h hreached
    have hsum := sum_rankWord_mono (hs.length.trans ht.length.symm) hs.words
      ht.words hwords
    unfold MirLocalState.rank
    rw [if_pos hreached, if_pos htr]
    refine ⟨by omega, fun hne => ?_⟩
    have hvalues : s.values ≠ t.values := by
      intro heq
      apply hne
      cases s
      cases t
      simp_all
    have := hsum.2 hvalues
    omega

theorem merge_word (hs : Fit n s) (ht : Fit n t) (hsr : s.reached = true)
    (htr : t.reached = true) (i : ℕ) :
    (merge s t).word i = mergeWord (s.word i) (t.word i) := by
  have hmerge : merge s t =
      ⟨List.zipWith mergeWord s.values t.values, true⟩ := by
    unfold merge
    rw [if_neg (not_not.mpr htr), if_neg (not_not.mpr hsr)]
  have hls := hs.length
  have hlt := ht.length
  rw [hmerge]
  unfold word
  rw [List.getD_eq_getElem?_getD, List.getD_eq_getElem?_getD,
    List.getD_eq_getElem?_getD, List.getElem?_zipWith]
  by_cases hi : i < n
  · rw [List.getElem?_eq_getElem (by omega), List.getElem?_eq_getElem (by omega)]
    rfl
  · rw [List.getElem?_eq_none (by omega), List.getElem?_eq_none (by omega)]
    rfl

theorem merge_of_unreached (h : t.reached = false) :
    merge s t = s := by
  unfold merge
  rw [if_pos (by rw [h]; exact Bool.false_ne_true)]

theorem merge_into_unreached (h : s.reached = false) :
    merge s t = if t.reached then t else s := by
  unfold merge
  cases ht : t.reached with
  | false => simp
  | true =>
    simp only [h]
    cases t
    simp_all

theorem merge_reached (s t : MirLocalState) :
    (merge s t).reached = (s.reached || t.reached) := by
  unfold merge
  cases hs : s.reached <;> cases ht : t.reached <;> simp [hs]

theorem merge_fit (hs : Fit n s) (ht : Fit n t) :
    Fit n (merge s t) := by
  cases htr : t.reached with
  | false => rwa [merge_of_unreached htr]
  | true =>
    cases hsr : s.reached with
    | false => rwa [merge_into_unreached hsr, if_pos htr]
    | true =>
      refine ⟨?_, fun i => ?_, fun h => ?_⟩
      · unfold merge
        rw [if_neg (not_not.mpr htr), if_neg (not_not.mpr hsr),
          List.length_zipWith, hs.length, ht.length, min_self]
      · rw [merge_word hs ht hsr htr]
        exact (mergeWord_spec (hs.words i) (ht.words i)).1
      · rw [merge_reached, hsr] at h
        exact absurd h (by simp)

theorem le_merge_left (hs : Fit n s) (ht : Fit n t) :
    Le s (merge s t) := by
  intro hsr
  cases htr : t.reached with
  | false =>
    rw [merge_of_unreached htr]
    exact Le.refl s hsr
  | true =>
    refine ⟨by rw [merge_reached, hsr, Bool.true_or], fun i => ?_⟩
    obtain ⟨-, hv, hf⟩ := mergeWord_spec (hs.words i) (ht.words i)
    rw [merge_word hs ht hsr htr]
    unfold WordLe
    rw [hv, hf]
    exact ⟨answerLe_merge_left _ _, answerLe_merge_left _ _⟩

theorem le_merge_right (hs : Fit n s) (ht : Fit n t) :
    Le t (merge s t) := by
  intro htr
  cases hsr : s.reached with
  | false =>
    rw [merge_into_unreached hsr, if_pos htr]
    exact Le.refl t htr
  | true =>
    refine ⟨by rw [merge_reached, hsr, Bool.true_or], fun i => ?_⟩
    obtain ⟨-, hv, hf⟩ := mergeWord_spec (hs.words i) (ht.words i)
    rw [merge_word hs ht hsr htr]
    unfold WordLe
    rw [hv, hf]
    exact ⟨answerLe_merge_right _ _, answerLe_merge_right _ _⟩

theorem merge_mono {s' t' : MirLocalState} (hs : Fit n s) (hs' : Fit n s') (ht : Fit n t)
    (ht' : Fit n t') (hss : Le s s') (htt : Le t t') :
    Le (merge s t) (merge s' t') := by
  cases hsr : s.reached with
  | false =>
    rw [merge_into_unreached hsr]
    split_ifs with htr
    · exact htt.trans (le_merge_right hs' ht')
    · exact hss.trans (le_merge_left hs' ht')
  | true =>
    cases htr : t.reached with
    | false =>
      rw [merge_of_unreached htr]
      exact hss.trans (le_merge_left hs' ht')
    | true =>
      intro _
      obtain ⟨hsr', hsw⟩ := hss hsr
      obtain ⟨htr', htw⟩ := htt htr
      refine ⟨by rw [merge_reached, hsr', Bool.true_or], fun i => ?_⟩
      obtain ⟨-, hv, hf⟩ := mergeWord_spec (hs.words i) (ht.words i)
      obtain ⟨-, hv', hf'⟩ := mergeWord_spec (hs'.words i) (ht'.words i)
      rw [merge_word hs ht hsr htr, merge_word hs' ht' hsr' htr']
      unfold WordLe
      rw [hv, hf, hv', hf']
      exact ⟨mergeAnswer_mono (hsw i).1 (htw i).1,
        mergeAnswer_mono (hsw i).2 (htw i).2⟩

theorem modify_word (s : MirLocalState) (g : ℕ → ℕ) (index i : ℕ)
    (h : index < s.values.length) :
    word { s with values := s.values.modify index g } i =
      if i = index then g (s.word i) else s.word i := by
  unfold word
  rw [List.getD_eq_getElem?_getD, List.getD_eq_getElem?_getD,
    List.getElem?_modify]
  by_cases hi : index = i
  · subst hi
    simp [List.getElem?_eq_getElem h]
  · simp [hi, Ne.symm hi]

end MirLocalState

end Mir
end Beans
