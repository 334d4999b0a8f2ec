import Beans.Foundation.Loop
import Beans.Foundation.Tokens
import Beans.Runtime.Text

/-!
# Reading lines through a buffer

The reader refills its buffer from a file that gives out its content in pieces and
may fail at any time.  A call that fails has already moved the start of its line
out of the buffer, so a line is lost unless the file only fails between lines.

**Results.**
* `losesNothing_iff`: every call ends, and no line is lost exactly for files that fail between
  lines.
* `line_lost`: a file that fails inside of one.
-/

namespace Beans
namespace LineReading

open Tokens

/-- A file of some content.  What a read gives depends on how many were made before. -/
structure File (content : Text) where
  readAt : ℕ → ℕ → ℕ → Result Text
  piece : ∀ {reads offset count : ℕ} {bytes : Text}, 0 < count →
    readAt reads offset count = .ok bytes →
      bytes <+: content.drop offset ∧ bytes.length ≤ count ∧
        (bytes = [] → content.drop offset = [])

structure Reader where
  buffer : Text
  position : ℕ
  limit : ℕ
  offset : ℕ
  eof : Bool

def Reader.init : Reader :=
  ⟨[], 0, 0, 0, false⟩

/-- A call of `read_line` in progress. -/
structure Call where
  reader : Reader
  reads : ℕ
  output : Text
  answer : Option (Result (Option Text))

/-- The scan for the end of a line, over as many bytes as there are before the limit. -/
def lineEnd (buffer : Text) (stop : ℕ) : ℕ → ℕ
  | 0 => stop
  | n + 1 => if buffer.getD stop 0 ≠ 10 then lineEnd buffer (stop + 1) n else stop

def takeBuffered (s : Call) : Call :=
  let stop := lineEnd s.reader.buffer s.reader.position (s.reader.limit - s.reader.position)
  let output := s.output ++ (s.reader.buffer.take stop).drop s.reader.position
  if stop < s.reader.limit then
    { s with
      reader := { s.reader with position := stop + 1 }
      output := output
      answer := some (.ok (some output)) }
  else { s with reader := { s.reader with position := stop }, output := output }

/-- The call with the next piece of the content in the buffer. -/
def refill (s : Call) (next : Text) : Call :=
  { s with
    reader :=
      { s.reader with
        offset := s.reader.offset + next.length
        position := 0
        limit := next.length
        buffer := next }
    reads := s.reads + 1 }

def atEnd (output : Text) : Result (Option Text) :=
  if output.length = 0 then .ok none else .ok (some output)

variable {content : Text}

/-- A turn of the loop of `read_line`. -/
def turn (file : File content) (s : Call) : Option Call :=
  if s.answer.isSome then none
  else if s.reader.position = s.reader.limit then
    if s.reader.eof then some { s with answer := some (atEnd s.output) }
    else
      match file.readAt s.reads s.reader.offset 8192 with
      | .error e => some { s with reads := s.reads + 1, answer := some (.error e) }
      | .ok next =>
        if next.length = 0 then
          some { s with
            reader := { s.reader with eof := true }
            reads := s.reads + 1
            answer := some (atEnd s.output) }
        else
          some (takeBuffered (refill s next))
  else some (takeBuffered s)

def begin (reader : Reader) (reads : ℕ) : Call :=
  ⟨reader, reads, [], none⟩

/-- A call, with more turns than the content has bytes. -/
def readLine (file : File content) (reader : Reader) (reads : ℕ) : Call :=
  Loop.run (turn file) (content.length + 2) (begin reader reads)

/-- The reader and the reads made before the `n`-th call. -/
def session (file : File content) : ℕ → Reader × ℕ
  | 0 => (.init, 0)
  | n + 1 =>
    let call := readLine file (session file n).1 (session file n).2
    (call.reader, call.reads)

def answer (file : File content) (n : ℕ) : Result (Option Text) :=
  (readLine file (session file n).1 (session file n).2).answer.getD (.ok none)

/-- What was not yet read of the content. -/
def unread (content : Text) (r : Reader) : Text :=
  r.buffer.drop r.position ++ content.drop r.offset

structure Valid (content : Text) (r : Reader) : Prop where
  position_le : r.position ≤ r.limit
  limit_eq : r.limit = r.buffer.length
  eof_end : r.eof = true → content.drop r.offset = []

variable {s s' : Call} {r : Reader} {a : Result (Option Text)} {e : BeansError} {n : ℕ}

theorem refill_valid (heof : ¬ s.reader.eof = true) (next : Text) :
    Valid content (refill s next).reader :=
  ⟨Nat.zero_le _, rfl, fun h => absurd h heof⟩

theorem lineEnd_append (before rest : Text) :
    (10 ∉ rest ∧ lineEnd (before ++ rest) before.length rest.length =
        (before ++ rest).length) ∨
      ∃ moved more, rest = moved ++ 10 :: more ∧ 10 ∉ moved ∧
        lineEnd (before ++ rest) before.length rest.length = (before ++ moved).length := by
  induction rest generalizing before with
  | nil =>
    refine .inl ⟨List.not_mem_nil, ?_⟩
    rw [List.append_nil]
    rfl
  | cons b rest ih =>
    have hget : (before ++ b :: rest).getD before.length 0 = b := by
      rw [List.getD_eq_getElem?_getD, List.getElem?_append_right le_rfl, Nat.sub_self]
      rfl
    rw [List.length_cons, lineEnd, hget]
    by_cases hb : b = 10
    · rw [if_neg (not_not.mpr hb), hb]
      exact .inr ⟨[], rest, rfl, List.not_mem_nil, by rw [List.append_nil]⟩
    · rw [if_pos hb]
      have hshift : before ++ b :: rest = before ++ [b] ++ rest := by
        rw [List.append_assoc, List.singleton_append]
      have hlength : before.length + 1 = (before ++ [b]).length := by
        rw [List.length_append, List.length_singleton]
      rw [hshift, hlength]
      rcases ih (before ++ [b]) with ⟨hnot, hend⟩ | ⟨moved, more, rfl, hnot, hend⟩
      · refine .inl ⟨?_, hend⟩
        rw [List.mem_cons, not_or]
        exact ⟨Ne.symm hb, hnot⟩
      · refine .inr ⟨b :: moved, more, rfl, ?_, ?_⟩
        · rw [List.mem_cons, not_or]
          exact ⟨Ne.symm hb, hnot⟩
        · rw [hend, List.append_assoc, List.singleton_append]

/-- The rest of the buffer is moved to the output, up to a line end if it has one. -/
theorem takeBuffered_spec (h : Valid content s.reader) :
    (10 ∉ s.reader.buffer.drop s.reader.position ∧
        takeBuffered s =
          { s with
            reader := { s.reader with position := s.reader.limit }
            output := s.output ++ s.reader.buffer.drop s.reader.position }) ∨
      ∃ moved more, s.reader.buffer.drop s.reader.position = moved ++ 10 :: more ∧ 10 ∉ moved ∧
        takeBuffered s =
          { s with
            reader := { s.reader with position := s.reader.position + moved.length + 1 }
            output := s.output ++ moved
            answer := some (.ok (some (s.output ++ moved))) } := by
  obtain ⟨⟨buffer, position, limit, offset, eof⟩, reads, output, ans⟩ := s
  obtain ⟨hposition, hlimit, -⟩ := h
  simp only at hposition hlimit ⊢
  subst hlimit
  obtain ⟨before, rest, rfl, rfl⟩ : ∃ before rest, buffer = before ++ rest ∧
      position = before.length :=
    ⟨buffer.take position, buffer.drop position, (List.take_append_drop _ _).symm,
      (List.length_take_of_le hposition).symm⟩
  have hturns : (before ++ rest).length - before.length = rest.length := by
    rw [List.length_append, Nat.add_sub_cancel_left]
  rw [takeBuffered, List.drop_left]
  simp only [hturns]
  rcases lineEnd_append before rest with ⟨hnot, hend⟩ | ⟨moved, more, rfl, hnot, hend⟩
  · refine .inl ⟨hnot, ?_⟩
    rw [hend, if_neg (lt_irrefl _), List.take_length, List.drop_left]
  · refine .inr ⟨moved, more, rfl, hnot, ?_⟩
    have hlt : (before ++ moved).length < (before ++ (moved ++ 10 :: more)).length := by
      rw [← List.append_assoc, @List.length_append _ (before ++ moved), List.length_cons]
      omega
    have htake : ((before ++ (moved ++ 10 :: more)).take (before ++ moved).length).drop
        before.length = moved := by
      rw [← List.append_assoc, List.take_left, List.drop_left]
    rw [hend, if_pos hlt, htake, List.length_append]

/-- The next turn asks the file for more, and the file fails. -/
def Fails (file : File content) (s : Call) : Prop :=
  s.answer = none ∧ s.reader.position = s.reader.limit ∧ s.reader.eof = false ∧
    ∃ e, file.readAt s.reads s.reader.offset 8192 = .error e

/-- What a call has done since it began with the reader `r`. -/
structure Progress (content : Text) (r : Reader) (s : Call) : Prop where
  valid : Valid content s.reader
  eof_mono : r.eof = true → s.reader.eof = true
  pending : s.answer = none →
    unread content r = s.output ++ unread content s.reader ∧ 10 ∉ s.output
  line : ∀ line, s.answer = some (.ok (some line)) → 10 ∉ line ∧
    (unread content r = line ++ 10 :: unread content s.reader ∨
      line ≠ [] ∧ unread content r = line ∧ unread content s.reader = [] ∧ s.reader.eof = true)
  nothing : s.answer = some (.ok none) →
    unread content r = [] ∧ unread content s.reader = [] ∧ s.reader.eof = true
  failed : ∀ e, s.answer = some (.error e) →
    unread content r = s.output ++ unread content s.reader ∧ 10 ∉ s.output ∧
      s.reader.position = s.reader.limit ∧ s.reader.eof = false

theorem takeBuffered_progress (hvalid : Valid content s.reader)
    (heof : r.eof = true → s.reader.eof = true) (hanswer : s.answer = none)
    (hunread : unread content r = s.output ++ unread content s.reader)
    (houtput : 10 ∉ s.output) :
    Progress content r (takeBuffered s) := by
  rcases takeBuffered_spec hvalid with ⟨hnot, htake⟩ | ⟨moved, more, hmoved, hnot, htake⟩
  · have hempty : s.reader.buffer.drop s.reader.limit = [] := by
      rw [hvalid.limit_eq, List.drop_length]
    rw [htake]
    refine ⟨⟨le_rfl, hvalid.limit_eq, hvalid.eof_end⟩, heof, fun _ => ⟨?_, ?_⟩,
      fun line h => ?_, fun h => ?_, fun e h => ?_⟩
    · rw [hunread, unread, unread, hempty, List.nil_append, List.append_assoc]
    · rw [List.mem_append, not_or]
      exact ⟨houtput, hnot⟩
    all_goals exact absurd (hanswer.symm.trans h) (by simp)
  · have hlength : s.reader.position + moved.length + 1 ≤ s.reader.limit := by
      have hdrop := congrArg List.length hmoved
      rw [List.length_drop, List.length_append, List.length_cons] at hdrop
      rw [hvalid.limit_eq]
      omega
    have hmore : s.reader.buffer.drop (s.reader.position + moved.length + 1) = more := by
      rw [Nat.add_assoc, ← List.drop_drop, hmoved, ← List.drop_drop, List.drop_left]
      rfl
    rw [htake]
    refine ⟨⟨hlength, hvalid.limit_eq, hvalid.eof_end⟩, heof, fun h => ?_,
      fun line h => ?_, fun h => ?_, fun e h => ?_⟩
    · exact absurd h (by simp)
    · have hline : s.output ++ moved = line := by
        injection h with h
        injection h with h
        exact Option.some.inj h
      rw [← hline]
      refine ⟨?_, .inl ?_⟩
      · rw [List.mem_append, not_or]
        exact ⟨houtput, hnot⟩
      · rw [hunread, unread, unread, hmoved, hmore]
        simp only [List.append_assoc, List.cons_append]
    all_goals exact absurd h (by simp)

/-- What is answered where the content ends. -/
theorem atEnd_progress (hvalid : Valid content s.reader) (heof : s.reader.eof = true)
    (hunread : unread content r = s.output) (hrest : unread content s.reader = [])
    (houtput : 10 ∉ s.output) (hanswer : s.answer = some (atEnd s.output)) :
    Progress content r s := by
  rw [atEnd] at hanswer
  refine ⟨hvalid, fun _ => heof, fun h => ?_, fun line h => ?_, fun h => ?_, fun e h => ?_⟩
  · exact absurd (hanswer.symm.trans h) (by simp)
  · rw [hanswer] at h
    split_ifs at h with hzero
    · exact absurd h (by simp)
    · have hline : s.output = line := by
        injection h with h
        injection h with h
        exact Option.some.inj h
      rw [← hline]
      exact ⟨houtput, .inr ⟨fun hnil => hzero (by rw [hnil]; rfl), hunread, hrest, heof⟩⟩
  · rw [hanswer] at h
    split_ifs at h with hzero
    · exact ⟨hunread.trans (List.length_eq_zero_iff.mp hzero), hrest, heof⟩
    · exact absurd h (by simp)
  · rw [hanswer] at h
    split_ifs at h
    all_goals exact absurd h (by simp)

/-- The cases of a turn that is taken. -/
theorem turn_progress {file : File content} (h : Progress content r s)
    (hturn : turn file s = some s') :
    Progress content r s' := by
  have hanswer : s.answer = none := by
    rw [turn] at hturn
    split_ifs at hturn with hsome
    all_goals exact Option.not_isSome_iff_eq_none.mp hsome
  obtain ⟨hunread, houtput⟩ := h.pending hanswer
  have hvalid := h.valid
  rw [turn, hanswer] at hturn
  simp only [Option.isSome_none, Bool.false_eq_true, if_false] at hturn
  by_cases hfull : s.reader.position = s.reader.limit
  · have hrest : unread content s.reader = content.drop s.reader.offset := by
      rw [unread, hfull, hvalid.limit_eq, List.drop_length, List.nil_append]
    rw [if_pos hfull] at hturn
    cases heof : s.reader.eof with
    | true =>
      rw [if_pos heof] at hturn
      have hnil : unread content s.reader = [] := hrest.trans (hvalid.eof_end heof)
      rw [← Option.some.inj hturn]
      rw [hnil, List.append_nil] at hunread
      exact atEnd_progress hvalid heof hunread hnil houtput rfl
    | false =>
      rw [if_neg (by rw [heof]; decide)] at hturn
      cases hread : file.readAt s.reads s.reader.offset 8192 with
      | error e =>
        rw [hread] at hturn
        rw [← Option.some.inj hturn]
        refine ⟨hvalid, h.eof_mono, fun hnone => ?_, fun line hline => ?_, fun hnone => ?_,
          fun e' _ => ⟨hunread, houtput, hfull, heof⟩⟩
        · exact absurd hnone (by simp)
        · exact absurd hline (by simp)
        · exact absurd hnone (by simp)
      | ok next =>
        obtain ⟨hpiece, -, hempty⟩ := file.piece (by decide) hread
        simp only [hread] at hturn
        by_cases hzero : next.length = 0
        · have hend := hempty (List.length_eq_zero_iff.mp hzero)
          have hnil : unread content s.reader = [] := hrest.trans hend
          rw [if_pos hzero] at hturn
          rw [← Option.some.inj hturn]
          rw [hnil, List.append_nil] at hunread
          exact atEnd_progress ⟨hvalid.position_le, hvalid.limit_eq, fun _ => hend⟩ rfl
            hunread hnil houtput rfl
        · rw [if_neg hzero] at hturn
          rw [← Option.some.inj hturn]
          refine takeBuffered_progress (refill_valid (by rw [heof]; decide) next) h.eof_mono
            hanswer ?_ houtput
          obtain ⟨more, hmore⟩ := hpiece
          have hnext : unread content (refill s next).reader =
              next ++ (content.drop s.reader.offset).drop next.length := by
            rw [List.drop_drop]
            rfl
          rw [hunread, hrest, hnext, ← hmore, List.drop_left]
          rfl
  · rw [if_neg hfull] at hturn
    rw [← Option.some.inj hturn]
    exact takeBuffered_progress hvalid h.eof_mono hanswer hunread houtput

/-- The turns that a call can still take. -/
def turnsLeft (content : Text) (s : Call) : ℕ :=
  if s.answer.isSome then 0
  else content.length - s.reader.offset +
    (if s.reader.position < s.reader.limit then 1 else 0) + 1

theorem turnsLeft_answered (h : s.answer = some a) :
    turnsLeft content s = 0 := by
  rw [turnsLeft, h]
  rfl

theorem turnsLeft_pos (h : ¬ s.answer.isSome = true) :
    0 < turnsLeft content s := by
  rw [turnsLeft, if_neg h]
  exact Nat.succ_pos _

theorem turnsLeft_takeBuffered (h : Valid content s.reader) :
    turnsLeft content (takeBuffered s) ≤ content.length - s.reader.offset + 1 := by
  rcases takeBuffered_spec h with ⟨-, htake⟩ | ⟨moved, more, -, -, htake⟩
  · rw [htake, turnsLeft]
    simp only [lt_irrefl, if_false]
    split_ifs <;> omega
  · rw [htake, turnsLeft]
    exact Nat.zero_le _

theorem turn_turnsLeft {file : File content} (h : Progress content r s)
    (hturn : turn file s = some s') :
    turnsLeft content s' < turnsLeft content s := by
  have hvalid := h.valid
  rw [turn] at hturn
  split_ifs at hturn with hsome hfull heof
  · rw [← Option.some.inj hturn, turnsLeft_answered rfl]
    exact turnsLeft_pos hsome
  · cases hread : file.readAt s.reads s.reader.offset 8192 with
    | error e =>
      rw [hread] at hturn
      rw [← Option.some.inj hturn, turnsLeft_answered rfl]
      exact turnsLeft_pos hsome
    | ok next =>
      simp only [hread] at hturn
      split_ifs at hturn with hzero
      · rw [← Option.some.inj hturn, turnsLeft_answered rfl]
        exact turnsLeft_pos hsome
      · obtain ⟨hpiece, -, -⟩ := file.piece (by decide) hread
        have hlength := hpiece.length_le
        rw [List.length_drop] at hlength
        rw [← Option.some.inj hturn]
        refine (turnsLeft_takeBuffered (refill_valid heof next)).trans_lt ?_
        rw [turnsLeft, if_neg hsome]
        change content.length - (s.reader.offset + next.length) + 1 < _
        omega
  · have hlt : s.reader.position < s.reader.limit :=
      lt_of_le_of_ne hvalid.position_le hfull
    rw [← Option.some.inj hturn]
    refine (turnsLeft_takeBuffered hvalid).trans_lt ?_
    rw [turnsLeft, if_neg hsome, if_pos hlt]
    exact Nat.lt_succ_self _

theorem begin_progress (h : Valid content r) (reads : ℕ) :
    Progress content r (begin r reads) := by
  refine ⟨h, id, fun _ => ⟨rfl, List.not_mem_nil⟩, fun line hline => ?_, fun hnone => ?_,
    fun e herror => ?_⟩
  · exact absurd hline (by simp [begin])
  · exact absurd hnone (by simp [begin])
  · exact absurd herror (by simp [begin])

/-- A call ends with an answer, and what it has done is told by it. -/
theorem readLine_spec (file : File content) (h : Valid content r) (reads : ℕ) :
    Progress content r (readLine file r reads) ∧ turn file (readLine file r reads) = none := by
  refine ⟨Loop.run_invariant (fun _ _ => turn_progress) (begin_progress h reads) _, ?_⟩
  refine @Loop.step_run_on _ _ (turnsLeft content) (Progress content r)
    (fun _ _ => turn_progress) (fun _ _ => turn_turnsLeft) _ _ (begin_progress h reads) ?_
  rw [turnsLeft, begin]
  simp only [Option.isSome_none, Bool.false_eq_true, if_false]
  split_ifs <;> omega

theorem answered_of_turn_none {file : File content} (h : turn file s = none) :
    ∃ a, s.answer = some a := by
  cases hanswer : s.answer with
  | some a => exact ⟨a, rfl⟩
  | none =>
    rw [turn, hanswer] at h
    simp only [Option.isSome_none, Bool.false_eq_true, if_false] at h
    split_ifs at h
    cases hread : file.readAt s.reads s.reader.offset 8192 with
    | error e =>
      rw [hread] at h
      cases h
    | ok next =>
      simp only [hread] at h
      split_ifs at h

theorem turn_answered (file : File content) (h : s.answer = some a) :
    turn file s = none := by
  rw [turn, h]
  rfl

/-- The turn at a file that fails. -/
theorem turn_fails {file : File content} (h : Fails file s) :
    ∃ e, turn file s = some { s with reads := s.reads + 1, answer := some (.error e) } := by
  obtain ⟨hanswer, hfull, heof, e, hread⟩ := h
  refine ⟨e, ?_⟩
  rw [turn, hanswer, if_neg (by decide), if_pos hfull, heof, if_neg (by decide), hread]

/-- An error is the answer of a turn at a file that fails. -/
theorem fails_of_turn {file : File content} (hturn : turn file s = some s')
    (h : s'.answer = some (.error e)) :
    Fails file s ∧ s'.reader = s.reader ∧ s'.output = s.output := by
  have hatEnd : ∀ output, atEnd output ≠ .error e := by
    intro output
    rw [atEnd]
    split_ifs <;> simp
  have htake : ∀ s, (takeBuffered s).answer = some (.error e) → s.answer = some (.error e) := by
    intro s hs
    rw [takeBuffered] at hs
    split_ifs at hs
    · exact absurd hs (by simp)
    · exact hs
  rw [turn] at hturn
  split_ifs at hturn with hsome hfull heof
  · rw [← Option.some.inj hturn] at h
    exact absurd (Option.some.inj h) (hatEnd _)
  · cases hread : file.readAt s.reads s.reader.offset 8192 with
    | error e' =>
      rw [hread] at hturn
      rw [← Option.some.inj hturn]
      exact ⟨⟨Option.not_isSome_iff_eq_none.mp hsome, hfull, Bool.not_eq_true _ ▸ heof,
        e', hread⟩, rfl, rfl⟩
    | ok next =>
      simp only [hread] at hturn
      split_ifs at hturn with hzero
      · rw [← Option.some.inj hturn] at h
        exact absurd (Option.some.inj h) (hatEnd _)
      · rw [← Option.some.inj hturn] at h
        have hbefore : s.answer = some (.error e) := htake (refill s next) h
        rw [hbefore] at hsome
        exact absurd rfl hsome
  · rw [← Option.some.inj hturn] at h
    rw [htake _ h] at hsome
    exact absurd rfl hsome

theorem fails_of_run {file : File content} (hs : s.answer ≠ some (.error e))
    (h : (Loop.run (turn file) n s).answer = some (.error e)) :
    ∃ k, Fails file (Loop.run (turn file) k s) ∧
      (Loop.run (turn file) n s).reader.offset = (Loop.run (turn file) k s).reader.offset := by
  induction n generalizing s with
  | zero => exact absurd h hs
  | succ n ih =>
    cases hturn : turn file s with
    | none =>
      rw [Loop.run_none hturn] at h
      exact absurd h hs
    | some s' =>
      rw [Loop.run_some hturn] at h ⊢
      by_cases herror : s'.answer = some (.error e)
      · obtain ⟨hfails, hreader, -⟩ := fails_of_turn hturn herror
        refine ⟨0, hfails, ?_⟩
        rw [Loop.run_none (turn_answered file herror), hreader]
        rfl
      · obtain ⟨k, hfails, hoffset⟩ := ih herror h
        refine ⟨k + 1, ?_, ?_⟩
        · rwa [Loop.run_some hturn]
        · rwa [Loop.run_some hturn]

/-- A call in which the file fails answers the error. -/
theorem error_of_fails {file : File content} (h : Valid content r) {reads k : ℕ}
    (hfails : Fails file (Loop.run (turn file) k (begin r reads))) :
    (∃ e, (readLine file r reads).answer = some (.error e)) ∧
      (readLine file r reads).reader.offset =
        (Loop.run (turn file) k (begin r reads)).reader.offset := by
  obtain ⟨e, hturn⟩ := turn_fails hfails
  have hended := (readLine_spec file h reads).2
  rcases Nat.lt_or_ge k (content.length + 2) with hlt | hge
  · obtain ⟨more, hmore⟩ := Nat.exists_eq_add_of_lt hlt
    have hcall : readLine file r reads = Loop.run (turn file) (more + 1)
        (Loop.run (turn file) k (begin r reads)) := by
      rw [readLine, hmore, Nat.add_assoc, Loop.run_add]
    rw [hcall, Loop.run_some hturn, Loop.run_none (turn_answered file rfl)]
    exact ⟨⟨e, rfl⟩, rfl⟩
  · obtain ⟨more, rfl⟩ := Nat.exists_eq_add_of_le hge
    have hstuck : Loop.run (turn file) (content.length + 2 + more) (begin r reads) =
        readLine file r reads := by
      rw [Loop.run_add]
      exact Loop.run_none hended more
    rw [hstuck, hended] at hturn
    cases hturn

/-- The content up to here ends with a line, or is empty. -/
def EndsLine (before : Text) : Prop :=
  before = [] ∨ before.getLast? = some 10

def AtLineStart (content : Text) (offset : ℕ) : Prop :=
  EndsLine (content.take offset)

/-- Between calls the reader stands at the start of a line, or at the end. -/
def Between (content : Text) (r : Reader) : Prop :=
  (r.eof = true ∧ unread content r = []) ∨
    ∃ before, content = before ++ unread content r ∧ EndsLine before

theorem endsLine_append {before output : Text} (hbefore : EndsLine before)
    (houtput : 10 ∉ output) :
    EndsLine (before ++ output) ↔ output = [] := by
  constructor
  · rintro (hnil | hlast)
    · exact (List.append_eq_nil_iff.mp hnil).2
    · by_contra hne
      rw [List.getLast?_append_of_ne_nil _ hne] at hlast
      exact houtput (List.mem_of_getLast? hlast)
  · rintro rfl
    rwa [List.append_nil]

/-- A failed call keeps what is unread exactly when the file failed between lines. -/
theorem atLineStart_iff (hbetween : Between content r) (h : Progress content r s)
    (herror : s.answer = some (.error e)) :
    AtLineStart content s.reader.offset ↔ unread content s.reader = unread content r := by
  obtain ⟨hunread, houtput, hfull, heof⟩ := h.failed e herror
  rcases hbetween with ⟨heof', -⟩ | ⟨before, hcontent, hbefore⟩
  · rw [h.eof_mono heof'] at heof
    cases heof
  · have hrest : unread content s.reader = content.drop s.reader.offset := by
      rw [unread, hfull, h.valid.limit_eq, List.drop_length, List.nil_append]
    have htake : content.take s.reader.offset = before ++ s.output := by
      refine (List.append_left_inj (content.drop s.reader.offset)).mp ?_
      rw [List.take_append_drop, List.append_assoc, ← hrest, ← hunread]
      exact hcontent
    rw [AtLineStart, htake, endsLine_append hbefore houtput, hunread, List.self_eq_append_left]

theorem between_step (hbetween : Between content r) (h : Progress content r s)
    (hanswer : s.answer = some a)
    (hkeeps : ∀ e, a = .error e → unread content s.reader = unread content r) :
    Between content s.reader := by
  rcases a with e | (_ | line)
  · have hsame := hkeeps e rfl
    rcases hbetween with ⟨heof, hnil⟩ | ⟨before, hcontent, hbefore⟩
    · exact .inl ⟨h.eof_mono heof, hsame.trans hnil⟩
    · exact .inr ⟨before, by rw [hsame]; exact hcontent, hbefore⟩
  · obtain ⟨-, hrest, heof⟩ := h.nothing hanswer
    exact .inl ⟨heof, hrest⟩
  · obtain ⟨-, hmark | ⟨-, -, hrest, heof⟩⟩ := h.line line hanswer
    · rcases hbetween with ⟨-, hnil⟩ | ⟨before, hcontent, -⟩
      · rw [hnil] at hmark
        exact absurd hmark (by simp)
      · refine .inr ⟨before ++ line ++ [10], ?_, .inr List.getLast?_concat⟩
        refine hcontent.trans ((congrArg (before ++ ·) hmark).trans ?_)
        simp only [List.append_assoc, List.singleton_append]
    · exact .inl ⟨heof, hrest⟩

variable (file : File content)

theorem session_valid (n : ℕ) :
    Valid content (session file n).1 := by
  induction n with
  | zero => exact ⟨le_rfl, rfl, fun h => Bool.noConfusion h⟩
  | succ n ih => exact (readLine_spec file ih _).1.valid

theorem session_progress (n : ℕ) :
    Progress content (session file n).1
      (readLine file (session file n).1 (session file n).2) :=
  (readLine_spec file (session_valid file n) _).1

theorem readLine_answer (n : ℕ) :
    (readLine file (session file n).1 (session file n).2).answer = some (answer file n) := by
  obtain ⟨a, ha⟩ := answered_of_turn_none (readLine_spec file (session_valid file n) _).2
  rw [answer, ha]
  rfl

/-- The strings that the first `n` calls answer. -/
def answered (n : ℕ) : List Text :=
  (List.range n).filterMap fun i => (answer file i).toOption.join

theorem answered_succ (n : ℕ) :
    answered file (n + 1) = answered file n ++ (answer file n).toOption.join.toList := by
  rw [answered, List.range_succ, List.filterMap_append]
  cases h : (answer file n).toOption.join with
  | none => simp [answered, h]
  | some line => simp [answered, h]

/-- The file never fails where a line has been begun. -/
def FailsBetweenLines : Prop :=
  ∀ n k, Fails file (Loop.run (turn file) k (begin (session file n).1 (session file n).2)) →
    AtLineStart content
      (Loop.run (turn file) k (begin (session file n).1 (session file n).2)).reader.offset

/-- No byte of the content gets lost. -/
structure LosesNothing : Prop where
  some_line : ∀ n line, answer file n = .ok (some line) →
    answered file n ++ [line] <+: lines 10 content
  none_line : ∀ n, answer file n = .ok none →
    answered file n = lines 10 content ∧ ∀ m ≥ n, answer file m = .ok none
  error_keeps : ∀ n e, answer file n = .error e →
    unread content (session file (n + 1)).1 = unread content (session file n).1

section Keeps

variable {file} (hkeeps : ∀ n e, answer file n = .error e →
  unread content (session file (n + 1)).1 = unread content (session file n).1)
include hkeeps

theorem session_between (n : ℕ) :
    Between content (session file n).1 := by
  induction n with
  | zero => exact .inr ⟨[], rfl, .inl rfl⟩
  | succ n ih => exact between_step ih (session_progress file n) (readLine_answer file n) (hkeeps n)

/-- The lines of the content are those answered and those unread. -/
theorem lines_session (n : ℕ) :
    lines 10 content = answered file n ++ lines 10 (unread content (session file n).1) := by
  induction n with
  | zero => rfl
  | succ n ih =>
    have hprogress := session_progress file n
    have hanswer := readLine_answer file n
    rw [ih, answered_succ, List.append_assoc]
    congr 1
    rcases ha : answer file n with e | (_ | line)
    · rw [hkeeps n e ha]
      rfl
    · rw [ha] at hanswer
      obtain ⟨hnil, hrest, -⟩ := hprogress.nothing hanswer
      rw [hnil, session, hrest]
      rfl
    · rw [ha] at hanswer
      obtain ⟨hline, hmark | ⟨hne, hlast, hrest, -⟩⟩ := hprogress.line line hanswer
      · rw [hmark, lines_append_mark hline]
        rfl
      · rw [hlast, lines_eq_singleton hline hne, session, hrest, lines_nil]
        rfl

end Keeps

/-- At the end of the content nothing is answered for ever. -/
theorem answer_none_forever (h : answer file n = .ok none) {m : ℕ} (hm : n ≤ m) :
    answer file m = .ok none := by
  suffices hend : answer file m = .ok none ∧ (session file (m + 1)).1.eof = true ∧
      unread content (session file (m + 1)).1 = [] from hend.1
  induction m, hm using Nat.le_induction with
  | base =>
    have hanswer := readLine_answer file n
    rw [h] at hanswer
    obtain ⟨-, hrest, heof⟩ := (session_progress file n).nothing hanswer
    exact ⟨h, heof, hrest⟩
  | succ m hm ih =>
    obtain ⟨-, heof, hrest⟩ := ih
    have hprogress := session_progress file (m + 1)
    have hanswer := readLine_answer file (m + 1)
    rcases ha : answer file (m + 1) with e | (_ | line)
    · rw [ha] at hanswer
      have heof' := (hprogress.failed e hanswer).2.2.2
      rw [hprogress.eof_mono heof] at heof'
      cases heof'
    · rw [ha] at hanswer
      obtain ⟨-, hrest', heof'⟩ := hprogress.nothing hanswer
      exact ⟨rfl, heof', hrest'⟩
    · rw [ha] at hanswer
      obtain ⟨-, hmark | ⟨hne, hlast, -, -⟩⟩ := hprogress.line line hanswer
      · rw [hrest] at hmark
        exact absurd hmark (by simp)
      · exact absurd (hlast.symm.trans hrest) hne

theorem losesNothing_of_keeps
    (hkeeps : ∀ n e, answer file n = .error e →
      unread content (session file (n + 1)).1 = unread content (session file n).1) :
    LosesNothing file := by
  refine ⟨fun n line h => ?_, fun n h => ⟨?_, fun m hm => answer_none_forever file h hm⟩, hkeeps⟩
  · have hlines := lines_session hkeeps (n + 1)
    rw [answered_succ, h] at hlines
    exact ⟨_, hlines.symm⟩
  · have hanswer := readLine_answer file n
    rw [h] at hanswer
    have hlines := lines_session hkeeps n
    rw [((session_progress file n).nothing hanswer).1, lines_nil, List.append_nil] at hlines
    exact hlines.symm

theorem keeps_of_failsBetweenLines (h : FailsBetweenLines file) (n : ℕ) :
    Between content (session file n).1 ∧
      ∀ e, answer file n = .error e →
        unread content (session file (n + 1)).1 = unread content (session file n).1 := by
  have hkeep : ∀ n, Between content (session file n).1 → ∀ e, answer file n = .error e →
      unread content (session file (n + 1)).1 = unread content (session file n).1 := by
    intro n hbetween e herror
    have hanswer := readLine_answer file n
    rw [herror] at hanswer
    obtain ⟨k, hfails, hoffset⟩ := fails_of_run (by simp [begin]) hanswer
    refine (atLineStart_iff hbetween (session_progress file n) hanswer).mp ?_
    rw [readLine, hoffset]
    exact h n k hfails
  induction n with
  | zero => exact ⟨.inr ⟨[], rfl, .inl rfl⟩, hkeep 0 (.inr ⟨[], rfl, .inl rfl⟩)⟩
  | succ n ih =>
    have hbetween := between_step ih.1 (session_progress file n) (readLine_answer file n) ih.2
    exact ⟨hbetween, hkeep (n + 1) hbetween⟩

/-- Every call ends, and no line is lost exactly when the file only fails between lines. -/
theorem losesNothing_iff :
    (∀ n, turn file (readLine file (session file n).1 (session file n).2) = none) ∧
    (LosesNothing file ↔ FailsBetweenLines file) := by
  refine ⟨fun n => (readLine_spec file (session_valid file n) _).2, fun h n k hfails => ?_,
    fun h => losesNothing_of_keeps file fun n => (keeps_of_failsBetweenLines file h n).2⟩
  obtain ⟨⟨e, herror⟩, hoffset⟩ := error_of_fails (session_valid file n) hfails
  have hanswer : answer file n = .error e := by
    have hsome := readLine_answer file n
    rw [herror] at hsome
    exact (Option.some.inj hsome).symm
  rw [← hoffset]
  exact (atLineStart_iff (session_between h.error_keeps n) (session_progress file n) herror).mpr
    (h.error_keeps n e hanswer)

/-- A file `abc` of one line that is given out in two pieces, with a failure between them. -/
def failsOnce : File [97, 98, 99, 10] where
  readAt reads offset count :=
    if reads = 1 then .error ⟨ascii "input/output error", ascii "io"⟩
    else .ok (([97, 98, 99, 10].drop offset).take (if reads = 0 then min 2 count else count))
  piece := by
    intro reads offset count bytes hcount h
    by_cases hone : reads = 1
    · rw [if_pos hone] at h
      cases h
    · rw [if_neg hone] at h
      have hbytes := Except.ok.inj h
      have hpos : 0 < (if reads = 0 then min 2 count else count) := by
        split_ifs <;> omega
      have hle : (if reads = 0 then min 2 count else count) ≤ count := by
        split_ifs <;> omega
      rw [← hbytes]
      refine ⟨List.take_prefix _ _, (List.length_take_le _ _).trans hle, fun hnil => ?_⟩
      rcases List.take_eq_nil_iff.mp hnil with hzero | hend
      · omega
      · exact hend

/-- The first call has taken `ab` out of the buffer when it fails. -/
theorem line_lost : ¬ ∀ content, ∀ file : File content, LosesNothing file := by
  intro h
  have herror : answer failsOnce 0 = .error ⟨ascii "input/output error", ascii "io"⟩ := by
    rfl
  exact absurd ((h _ failsOnce).error_keeps 0 _ herror) (by decide)

end LineReading
end Beans
