import Beans.Foundation.Loop
import Beans.Term.WidthDecode

/-!
# Display width

The columns of a string are counted along its units.  What a unit adds depends on
what was drawn before it: a joiner welds the next scalar on, a selector changes the
width of the pictograph before it, and regional indicators pair up.

**Input.**  Any bytes, and tables of ranges, which are sorted and apart: the generated tables
are values of `Tables`.

**Results.**
* `widthInRanges_iff`: the binary search ends, and finds exactly the scalars in the ranges.
* `display_width`: decoding, bounds, the selector, joining texts, and flags.
-/

namespace Beans
namespace Width

open Utf8

/-- A table of ranges that are disjoint and sorted. -/
structure Ranges where
  ranges : List (ℕ × ℕ)
  ordered : ∀ r ∈ ranges, r.1 ≤ r.2
  sorted : ranges.Pairwise fun r r' => r.2 < r'.1

/-- The turns of the binary search; nothing when they do not suffice. -/
def searchFrom (ranges : List (ℕ × ℕ)) (cp : ℕ) : ℕ → ℤ → ℤ → Option Bool
  | 0, _, _ => none
  | turns + 1, low, high =>
    if low ≤ high then
      let mid := low + (high - low) / 2
      let range := ranges.getD mid.toNat (0, 0)
      if cp < range.1 then searchFrom ranges cp turns low (mid - 1)
      else if cp > range.2 then searchFrom ranges cp turns (mid + 1) high
      else some true
    else some false

/-- The search over a whole table, with a turn for each range and one to stop. -/
def widthInRanges (table : Ranges) (cp : ℕ) : Bool :=
  (searchFrom table.ranges cp (table.ranges.length + 1) 0 (table.ranges.length - 1)).getD false

/-- The generated tables. -/
structure Tables where
  zero : Ranges
  wide : Ranges
  pict : Ranges

/-- No column, two, or one. -/
def widthOfScalar (tables : Tables) (cp : ℕ) : ℕ :=
  if cp < 0x80 then if cp < 0x20 ∨ cp = 0x7F then 0 else 1
  else if widthInRanges tables.zero cp then 0
  else if widthInRanges tables.wide cp then 2
  else 1

section Search

variable {table : Ranges} {cp : ℕ}

theorem ranges_lt {i j : ℕ} (hij : i < j) (hj : j < table.ranges.length) :
    (table.ranges.getD i (0, 0)).2 < (table.ranges.getD j (0, 0)).1 := by
  have hsorted := List.pairwise_iff_getElem.mp table.sorted i j (hij.trans hj) hj hij
  rwa [List.getD_eq_getElem _ _ (hij.trans hj), List.getD_eq_getElem _ _ hj]

theorem ranges_le {i : ℕ} (hi : i < table.ranges.length) :
    (table.ranges.getD i (0, 0)).1 ≤ (table.ranges.getD i (0, 0)).2 := by
  rw [List.getD_eq_getElem _ _ hi]
  exact table.ordered _ (List.getElem_mem hi)

/-- The search ends, and answers whether a range between its bounds holds the scalar. -/
theorem searchFrom_spec {turns low : ℕ} {high : ℤ} (hturns : high - low + 1 < turns)
    (hlow : (low : ℤ) ≤ high + 1) (hhigh : high < table.ranges.length) :
    ∃ answer, searchFrom table.ranges cp turns low high = some answer ∧
      (answer = true ↔ ∃ i : ℕ, low ≤ i ∧ (i : ℤ) ≤ high ∧
        (table.ranges.getD i (0, 0)).1 ≤ cp ∧ cp ≤ (table.ranges.getD i (0, 0)).2) := by
  induction turns generalizing low high with
  | zero => omega
  | succ turns ih =>
    rw [searchFrom]
    by_cases hgo : (low : ℤ) ≤ high
    · rw [if_pos hgo]
      obtain ⟨mid, hmid⟩ : ∃ mid : ℕ, (low : ℤ) + (high - low) / 2 = mid :=
        ⟨((low : ℤ) + (high - low) / 2).toNat, by omega⟩
      simp only [hmid, Int.toNat_natCast]
      have hin : mid < table.ranges.length := by omega
      have hrange := ranges_le hin
      split_ifs with hbelow habove
      · obtain ⟨answer, hanswer, hiff⟩ := @ih low (mid - 1) (by omega) (by omega) (by omega)
        refine ⟨answer, hanswer, hiff.trans (exists_congr fun i => and_congr_right fun _ =>
          ⟨fun h => ⟨by omega, h.2⟩, fun h => ⟨?_, h.2⟩⟩)⟩
        -- The ranges from the middle on start past the scalar.
        rcases Nat.lt_trichotomy i mid with hlt | rfl | hgt
        · omega
        · omega
        · have hafter := ranges_lt hgt (by omega : i < table.ranges.length)
          omega
      · obtain ⟨answer, hanswer, hiff⟩ := @ih (mid + 1) high (by push_cast; omega) (by push_cast; omega) hhigh
        rw [Nat.cast_succ] at hanswer
        refine ⟨answer, hanswer, hiff.trans (exists_congr fun i =>
          ⟨fun h => ⟨by omega, h.2⟩, fun h => ⟨?_, h.2⟩⟩)⟩
        rcases Nat.lt_trichotomy i mid with hlt | rfl | hgt
        · have hbefore := ranges_lt hlt hin
          omega
        · omega
        · omega
      · exact ⟨true, rfl, iff_of_true rfl ⟨mid, by omega, by omega, by omega, by omega⟩⟩
    · rw [if_neg hgo]
      refine ⟨false, rfl, iff_of_false Bool.false_ne_true ?_⟩
      rintro ⟨i, hlow, hi, -⟩
      omega

/-- The binary search ends before it runs out of turns, and what it answers is
whether some range of the table holds the scalar. -/
theorem widthInRanges_iff :
    ∃ answer,
      searchFrom table.ranges cp (table.ranges.length + 1) 0 (table.ranges.length - 1) =
        some answer ∧
      widthInRanges table cp = answer ∧
      (answer = true ↔ ∃ r ∈ table.ranges, r.1 ≤ cp ∧ cp ≤ r.2) := by
  obtain ⟨answer, hanswer, hiff⟩ :=
    @searchFrom_spec table cp (table.ranges.length + 1) 0 (table.ranges.length - 1)
      (by push_cast; omega) (by omega) (by omega)
  rw [Nat.cast_zero] at hanswer
  refine ⟨answer, hanswer, by rw [widthInRanges, hanswer, Option.getD_some], hiff.trans ⟨?_, ?_⟩⟩
  · rintro ⟨i, -, hi, hrange⟩
    have hlt : i < table.ranges.length := by omega
    rw [List.getD_eq_getElem _ _ hlt] at hrange
    exact ⟨_, List.getElem_mem hlt, hrange⟩
  · rintro ⟨r, hr, hrange⟩
    obtain ⟨i, hi, rfl⟩ := List.getElem_of_mem hr
    refine ⟨i, Nat.zero_le _, by omega, ?_⟩
    rwa [List.getD_eq_getElem _ _ hi]

/-- The first ranges of the generated table of scalars without a column. -/
def zeroRanges : Ranges where
  ranges := [(0x0, 0x1F), (0x7F, 0x9F), (0x300, 0x36F), (0x483, 0x489), (0x591, 0x5BD)]
  ordered := by decide
  sorted := by decide

/-- A combining accent is found among them, the letter behind the block is not. -/
theorem widthInRanges_iff_zeroRanges :
    widthInRanges zeroRanges 0x301 = true ∧ widthInRanges zeroRanges 0x370 = false := by
  obtain ⟨accent, -, haccent, hheld⟩ := @widthInRanges_iff zeroRanges 0x301
  obtain ⟨letter, -, hletter, hfree⟩ := @widthInRanges_iff zeroRanges 0x370
  refine ⟨haccent.trans (hheld.mpr ⟨(0x300, 0x36F), by decide, by decide⟩), hletter.trans ?_⟩
  rw [← Bool.not_eq_true, hfree]
  decide

end Search

theorem widthOfScalar_le_two (tables : Tables) (cp : ℕ) :
    widthOfScalar tables cp ≤ 2 := by
  rw [widthOfScalar]
  split_ifs <;> omega

/-- What the walk remembers between units. -/
structure State where
  total : ℤ
  joined : Bool
  regional : Bool
  prevPict : Bool
  prevWidth : ℤ

def start : State :=
  ⟨0, false, false, false, 0⟩

def IsJoiner (cp : ℕ) : Prop :=
  cp = 0x200D

def IsSelector (cp : ℕ) : Prop :=
  cp = 0xFE0F ∨ cp = 0xFE0E

def IsRegional (cp : ℕ) : Prop :=
  0x1F1E6 ≤ cp ∧ cp ≤ 0x1F1FF

instance (cp : ℕ) : Decidable (IsJoiner cp) :=
  inferInstanceAs (Decidable (_ = _))

instance (cp : ℕ) : Decidable (IsSelector cp) :=
  inferInstanceAs (Decidable (_ ∨ _))

instance (cp : ℕ) : Decidable (IsRegional cp) :=
  inferInstanceAs (Decidable (_ ∧ _))

variable (tables : Tables)

/-- A byte that is drawn as a replacement. -/
def advanceBad (s : State) : State :=
  { total := s.total + 1, joined := false, regional := false, prevPict := false, prevWidth := 1 }

/-- A selector gives the pictograph before it the other width. -/
def advanceSelector (s : State) (cp : ℕ) : State :=
  let wanted : ℤ := if cp = 0xFE0F then 2 else 1
  if s.prevPict = true ∧ s.prevWidth ≠ wanted then
    { s with
      total := s.total + (wanted - s.prevWidth)
      prevWidth := wanted
      prevPict := false
      joined := false }
  else { s with prevPict := false, joined := false }

/-- The parity of a run of regional indicators. -/
def regionalAfter (s : State) (cp : ℕ) : Bool :=
  if IsRegional cp then !s.regional else false

/-- The columns that a scalar adds. -/
def addedWidth (s : State) (cp : ℕ) : ℕ :=
  if s.joined = true then 0
  else if IsRegional cp ∧ regionalAfter s cp = false then 0
  else widthOfScalar tables cp

/-- Any other scalar adds its columns. -/
def advanceDrawn (s : State) (cp : ℕ) : State :=
  { total := s.total + addedWidth tables s cp
    joined := false
    regional := regionalAfter s cp
    prevPict := decide (addedWidth tables s cp ≠ 0) && widthInRanges tables.pict cp
    prevWidth := addedWidth tables s cp }

/-- One unit: a scalar, or a byte that is none. -/
def advance (s : State) : Option ℕ → State
  | none => advanceBad s
  | some cp =>
    if IsJoiner cp then { s with joined := true, prevPict := false, regional := false }
    else if IsSelector cp then advanceSelector s cp
    else advanceDrawn tables s cp

def unitOf (d : Decoded) : Option ℕ :=
  if d.bad then none else some d.scalar

/-- A turn of the walk over what is left of the bytes. -/
def walkStep (s : Text × State) : Option (Text × State) :=
  if s.1.length = 0 then none
  else some (s.1.drop (widthDecode s.1).len, advance tables s.2 (unitOf (widthDecode s.1)))

/-- The columns of a text. -/
def beansWidthUtf8 (p : Text) : ℤ :=
  (Loop.run (walkStep tables) p.length (p, start)).2.total

/-- The units that bytes consist of. -/
inductive Units : Text → List (Option ℕ) → Prop
  | nil : Units [] []
  | char (c : Char) {rest : Text} {us : List (Option ℕ)} : Units rest us →
      Units (String.utf8EncodeChar c ++ rest) (some c.val.toNat :: us)
  | bad {a : UInt8} {rest : Text} {us : List (Option ℕ)} :
      (∀ c, ¬ String.utf8EncodeChar c <+: a :: rest) → Units rest us →
      Units (a :: rest) (none :: us)

theorem units_exist (p : Text) :
    ∃ us, Units p us := by
  induction hlen : p.length using Nat.strong_induction_on generalizing p with
  | _ len ih =>
    cases p with
    | nil => exact ⟨[], .nil⟩
    | cons a tail =>
      by_cases hchar : ∃ c, String.utf8EncodeChar c <+: a :: tail
      · obtain ⟨c, rest, hrest⟩ := hchar
        have hpos : 0 < (String.utf8EncodeChar c).length := by
          rw [String.length_utf8EncodeChar]
          exact c.utf8Size_pos
        have hshort := congrArg List.length hrest
        rw [List.length_append] at hshort
        obtain ⟨us, hus⟩ := ih rest.length (by omega) rest rfl
        rw [← hrest]
        exact ⟨_, .char c hus⟩
      · rw [List.length_cons] at hlen
        obtain ⟨us, hus⟩ := ih tail.length (by omega) tail rfl
        exact ⟨_, .bad (fun c hc => hchar ⟨c, hc⟩) hus⟩

variable {p : Text} {us : List (Option ℕ)} {u : Option ℕ} {c : Char}

/-- The walk takes one turn for every unit and ends behind the last byte. -/
theorem run_walkStep (h : Units p us) {fuel : ℕ} (hfuel : p.length ≤ fuel) (s : State) :
    Loop.run (walkStep tables) fuel (p, s) = ([], us.foldl (advance tables) s) := by
  induction h generalizing fuel s with
  | nil =>
    have hnone : walkStep tables ([], s) = none := if_pos rfl
    exact Loop.run_none hnone fuel
  | @char c rest us hrest ih =>
    have hpos : 0 < (String.utf8EncodeChar c).length := by
      rw [String.length_utf8EncodeChar]
      exact c.utf8Size_pos
    rw [List.length_append] at hfuel
    obtain ⟨fuel, rfl⟩ := Nat.exists_eq_add_of_lt (by omega : 0 < fuel)
    rw [Nat.zero_add] at hfuel ⊢
    have hstep : walkStep tables (String.utf8EncodeChar c ++ rest, s) =
        some (rest, advance tables s (some c.val.toNat)) := by
      rw [walkStep, if_neg (by rw [List.length_append]; omega), widthDecode_char, List.drop_left]
      rfl
    rw [Loop.run_some hstep, ih (by omega), List.foldl_cons]
  | @bad a rest us hbad hrest ih =>
    rw [List.length_cons] at hfuel
    obtain ⟨fuel, rfl⟩ := Nat.exists_eq_add_of_lt (by omega : 0 < fuel)
    rw [Nat.zero_add] at hfuel ⊢
    have hstep : walkStep tables (a :: rest, s) = some (rest, advance tables s none) := by
      rw [walkStep, if_neg (by rw [List.length_cons]; omega), widthDecode_bad hbad]
      rfl
    rw [Loop.run_some hstep, ih (by omega), List.foldl_cons]

/-- The running total behind some units. -/
def totalOf (us : List (Option ℕ)) : ℤ :=
  (us.foldl (advance tables) start).total

theorem beansWidthUtf8_eq (h : Units p us) :
    beansWidthUtf8 tables p = totalOf tables us := by
  rw [beansWidthUtf8, run_walkStep tables h le_rfl]
  rfl

theorem totalOf_concat (us : List (Option ℕ)) (u : Option ℕ) :
    totalOf tables (us ++ [u]) =
      (advance tables (us.foldl (advance tables) start) u).total := by
  rw [totalOf, List.foldl_append]
  rfl

section Cases

variable {cp : ℕ} {s : State}

theorem advance_joiner (h : IsJoiner cp) :
    advance tables s (some cp) =
      { s with joined := true, prevPict := false, regional := false } :=
  if_pos h

theorem advance_selector (h : IsSelector cp) :
    advance tables s (some cp) = advanceSelector s cp := by
  have hnot : ¬ IsJoiner cp := by
    rw [IsSelector] at h
    rw [IsJoiner]
    omega
  exact (if_neg hnot).trans (if_pos h)

theorem advance_drawn (hjoiner : ¬ IsJoiner cp) (hselector : ¬ IsSelector cp) :
    advance tables s (some cp) = advanceDrawn tables s cp :=
  (if_neg hjoiner).trans (if_neg hselector)

/-- A selector leaves nothing to change, and gives a pictograph one column or two. -/
theorem advanceSelector_spec (s : State) (cp : ℕ) :
    (advanceSelector s cp).prevPict = false ∧ (advanceSelector s cp).joined = false ∧
      (((advanceSelector s cp).total = s.total ∧
          (advanceSelector s cp).prevWidth = s.prevWidth) ∨
        (s.prevPict = true ∧ 1 ≤ (advanceSelector s cp).prevWidth ∧
          (advanceSelector s cp).prevWidth ≤ 2 ∧
          (advanceSelector s cp).total =
            s.total + ((advanceSelector s cp).prevWidth - s.prevWidth))) := by
  have hwanted : ∃ wanted : ℤ, (if cp = 0xFE0F then 2 else 1) = wanted ∧
      1 ≤ wanted ∧ wanted ≤ 2 := by
    split_ifs
    · exact ⟨2, rfl, by decide, by decide⟩
    · exact ⟨1, rfl, by decide, by decide⟩
  obtain ⟨wanted, hwanted, hlow, hhigh⟩ := hwanted
  rw [advanceSelector, hwanted]
  by_cases hchange : s.prevPict = true ∧ s.prevWidth ≠ wanted
  · rw [if_pos hchange]
    exact ⟨rfl, rfl, .inr ⟨hchange.1, hlow, hhigh, rfl⟩⟩
  · rw [if_neg hchange]
    exact ⟨rfl, rfl, .inl ⟨rfl, rfl⟩⟩

theorem addedWidth_le_two (s : State) (cp : ℕ) :
    addedWidth tables s cp ≤ 2 := by
  rw [addedWidth]
  split_ifs
  · omega
  · omega
  · exact widthOfScalar_le_two tables cp

end Cases

/-- The total is between 0 and two columns for each of `n` units, and a pictograph that a
selector could change is part of it. -/
structure Bounded (n : ℕ) (s : State) : Prop where
  total_nonneg : 0 ≤ s.total
  total_le : s.total ≤ 2 * n
  width_nonneg : 0 ≤ s.prevWidth
  width_le : s.prevPict = true → s.prevWidth ≤ s.total

theorem bounded_advance {n : ℕ} {s : State} (h : Bounded n s) (u : Option ℕ) :
    Bounded (n + 1) (advance tables s u) := by
  obtain ⟨hnonneg, hle, hwidth, hpict⟩ := h
  cases u with
  | none =>
    refine ⟨?_, ?_, Int.one_nonneg, fun h => Bool.noConfusion h⟩
    · exact Int.add_nonneg hnonneg Int.one_nonneg
    · change s.total + 1 ≤ 2 * ((n + 1 : ℕ) : ℤ)
      push_cast
      omega
  | some cp =>
    by_cases hjoiner : IsJoiner cp
    · rw [advance_joiner tables hjoiner]
      exact ⟨hnonneg, by push_cast; omega, hwidth, fun h => Bool.noConfusion h⟩
    · by_cases hselector : IsSelector cp
      · rw [advance_selector tables hselector]
        obtain ⟨hplain, -, hsame | hchange⟩ := advanceSelector_spec s cp
        · refine ⟨by omega, by push_cast; omega, by omega, fun h => ?_⟩
          rw [hplain] at h
          exact Bool.noConfusion h
        · have hpart := hpict hchange.1
          refine ⟨by omega, by push_cast; omega, by omega, fun h => ?_⟩
          rw [hplain] at h
          exact Bool.noConfusion h
      · have hadded := addedWidth_le_two tables s cp
        rw [advance_drawn tables hjoiner hselector, advanceDrawn]
        refine ⟨?_, ?_, Int.natCast_nonneg _, fun _ => ?_⟩
        all_goals push_cast
        all_goals omega

theorem bounded_units (us : List (Option ℕ)) :
    Bounded us.length (us.foldl (advance tables) start) := by
  induction us using List.reverseRecOn with
  | nil => exact ⟨le_rfl, le_rfl, le_rfl, fun h => Bool.noConfusion h⟩
  | append_singleton us u ih =>
    rw [List.length_append, List.length_singleton, List.foldl_append]
    exact bounded_advance tables ih u

/-- Only a drawn pictograph can be changed, and it keeps a column. -/
theorem selector_keeps {s : State} {cp : ℕ} (hselector : IsSelector cp)
    (h : (advance tables (advance tables s u) (some cp)).total ≠ (advance tables s u).total) :
    s.total < (advance tables s u).total ∧
      s.total < (advance tables (advance tables s u) (some cp)).total := by
  rw [advance_selector tables hselector] at h ⊢
  obtain ⟨-, -, ⟨hsame, -⟩ | ⟨hpict, hlow, -, hchange⟩⟩ :=
    advanceSelector_spec (advance tables s u) cp
  · exact absurd hsame h
  have hdrawn : (advance tables s u).total = s.total + (advance tables s u).prevWidth ∧
      0 < (advance tables s u).prevWidth := by
    cases u with
    | none => exact Bool.noConfusion hpict
    | some c =>
      by_cases hjoiner : IsJoiner c
      · rw [advance_joiner tables hjoiner] at hpict
        exact Bool.noConfusion hpict
      · by_cases hselector' : IsSelector c
        · rw [advance_selector tables hselector', (advanceSelector_spec s c).1] at hpict
          exact Bool.noConfusion hpict
        · rw [advance_drawn tables hjoiner hselector'] at hpict ⊢
          rw [advanceDrawn] at hpict ⊢
          rw [Bool.and_eq_true, decide_eq_true_eq] at hpict
          exact ⟨rfl, Int.natCast_pos.mpr (Nat.pos_of_ne_zero hpict.1)⟩
  obtain ⟨htotal, hpos⟩ := hdrawn
  exact ⟨by omega, by omega⟩

def State.shift (s : State) (columns : ℤ) : State :=
  { s with total := s.total + columns }

/-- What was counted before does not matter. -/
theorem advance_shift (s : State) (columns : ℤ) (u : Option ℕ) :
    advance tables (s.shift columns) u = (advance tables s u).shift columns := by
  cases u with
  | none =>
    change advanceBad (s.shift columns) = (advanceBad s).shift columns
    simp only [advanceBad, State.shift, State.mk.injEq, and_self, and_true]
    omega
  | some cp =>
    by_cases hjoiner : IsJoiner cp
    · rw [advance_joiner tables hjoiner, advance_joiner tables hjoiner]
      rfl
    · by_cases hselector : IsSelector cp
      · rw [advance_selector tables hselector, advance_selector tables hselector]
        simp only [advanceSelector, State.shift]
        split_ifs
        · simp only [State.mk.injEq, and_self, and_true]
          omega
        · rfl
        · simp only [State.mk.injEq, and_self, and_true]
          omega
        · rfl
      · rw [advance_drawn tables hjoiner hselector, advance_drawn tables hjoiner hselector]
        have hadded : addedWidth tables (s.shift columns) cp = addedWidth tables s cp := rfl
        simp only [advanceDrawn, hadded]
        simp only [State.shift, State.mk.injEq, regionalAfter, and_self, and_true]
        omega

theorem foldl_shift (s : State) (columns : ℤ) (us : List (Option ℕ)) :
    us.foldl (advance tables) (s.shift columns) =
      (us.foldl (advance tables) s).shift columns := by
  induction us generalizing s with
  | nil => rfl
  | cons u us ih => rw [List.foldl_cons, List.foldl_cons, advance_shift, ih]

/-- No joiner, no selector and no regional indicator. -/
def IsOrdinary (cp : ℕ) : Prop :=
  ¬ IsJoiner cp ∧ ¬ IsSelector cp ∧ ¬ IsRegional cp

/-- An ordinary scalar is drawn as at the start, unless it is welded on. -/
theorem advance_ordinary {s : State} {cp : ℕ} (hjoined : s.joined = false) (h : IsOrdinary cp) :
    advance tables s (some cp) = (advance tables start (some cp)).shift s.total := by
  obtain ⟨hjoiner, hselector, hregional⟩ := h
  have hadded : ∀ s : State, s.joined = false →
      addedWidth tables s cp = widthOfScalar tables cp := by
    intro s hs
    rw [addedWidth, hs, if_neg (by decide), if_neg fun hr => hregional hr.1]
  rw [advance_drawn tables hjoiner hselector, advance_drawn tables hjoiner hselector, advanceDrawn,
    advanceDrawn, hadded s hjoined, hadded start rfl, regionalAfter, regionalAfter,
    if_neg hregional, if_neg hregional]
  simp only [State.shift, start, State.mk.injEq, and_self, and_true]
  omega

/-- Only a joiner leaves something to weld on. -/
theorem joined_advance {s : State} (h : (advance tables s u).joined = true) :
    ∃ cp, IsJoiner cp ∧ u = some cp := by
  cases u with
  | none => exact Bool.noConfusion h
  | some cp =>
    by_cases hjoiner : IsJoiner cp
    · exact ⟨cp, hjoiner, rfl⟩
    · by_cases hselector : IsSelector cp
      · rw [advance_selector tables hselector, (advanceSelector_spec s cp).2.1] at h
        exact Bool.noConfusion h
      · rw [advance_drawn tables hjoiner hselector] at h
        exact Bool.noConfusion h

theorem joined_units (h : (us.foldl (advance tables) start).joined = true) :
    us.getLast? = some (some 0x200D) := by
  induction us using List.reverseRecOn with
  | nil => exact Bool.noConfusion h
  | append_singleton us u _ =>
    rw [List.foldl_append] at h
    obtain ⟨cp, hjoiner, rfl⟩ := joined_advance tables h
    rw [List.getLast?_concat, hjoiner]

/-- The bytes of U+200D. -/
def joinerBytes : Text :=
  [0xE2, 0x80, 0x8D]

theorem encode_joiner (h : c.val.toNat = 0x200D) :
    String.utf8EncodeChar c = joinerBytes := by
  rw [String.utf8EncodeChar, h]
  rfl

theorem ends_with_joiner (h : Units p us) (hlast : us.getLast? = some (some 0x200D)) :
    joinerBytes <:+ p := by
  induction h with
  | nil => cases hlast
  | @char c rest us hrest ih =>
    cases hus : us with
    | nil =>
      rw [hus] at hrest hlast
      cases hrest
      rw [encode_joiner (Option.some.inj (Option.some.inj hlast)), List.append_nil]
    | cons u us' =>
      rw [hus, List.getLast?_cons_cons, ← hus] at hlast
      exact (ih hlast).trans (List.suffix_append _ _)
  | @bad a rest us hbad hrest ih =>
    cases hus : us with
    | nil =>
      rw [hus] at hlast
      cases hlast
    | cons u us' =>
      rw [hus, List.getLast?_cons_cons, ← hus] at hlast
      exact (ih hlast).trans (List.suffix_cons a rest)

/-- Where no character starts, none starts when one follows. -/
theorem not_starts_append {a : UInt8} {rest : Text}
    (h : ∀ c, ¬ String.utf8EncodeChar c <+: a :: rest) (c : Char) (more : Text) (c' : Char) :
    ¬ String.utf8EncodeChar c' <+: a :: (rest ++ (String.utf8EncodeChar c ++ more)) := by
  intro hinitial
  have hchar := character_encode c
  have hchar' := character_encode c'
  rw [← List.cons_append] at hinitial
  rcases Nat.le_total (String.utf8EncodeChar c').length (a :: rest).length with hle | hle
  · exact h c' (List.prefix_of_prefix_length_le hinitial (List.prefix_append _ _) hle)
  · obtain ⟨tail, htail⟩ :=
      List.prefix_of_prefix_length_le (List.prefix_append (a :: rest) _) hinitial hle
    have htail' : tail <+: String.utf8EncodeChar c ++ more := by
      rw [← htail] at hinitial
      exact (List.prefix_append_right_inj _).mp hinitial
    cases tail with
    | nil =>
      rw [List.append_nil] at htail
      exact h c' (htail ▸ List.prefix_rfl)
    | cons b tail =>
      -- The byte that leads `c` would continue `c'`.
      have hcontinues : Continues b := by
        refine hchar'.continues htail.symm b ?_
        exact List.mem_append_right _ List.mem_cons_self
      obtain ⟨lead, more', hlead⟩ := hchar.exists_lead
      rw [hlead.1] at htail'
      obtain ⟨_, htail'⟩ := htail'
      rw [List.cons_append, List.cons_append, List.cons.injEq] at htail'
      exact hlead.2 (htail'.1 ▸ hcontinues)

theorem units_append {vs : List (Option ℕ)} (h : Units p us) (c : Char) (more : Text)
    (h' : Units (String.utf8EncodeChar c ++ more) vs) :
    Units (p ++ (String.utf8EncodeChar c ++ more)) (us ++ vs) := by
  induction h with
  | nil => exact h'
  | char d hrest ih =>
    rw [List.append_assoc]
    exact .char d ih
  | bad hbad hrest ih => exact .bad (not_starts_append hbad c more) ih

theorem units_encode (chars : List Char) :
    Units (encode chars) (chars.map fun c => some c.val.toNat) := by
  induction chars with
  | nil => exact .nil
  | cons c chars ih =>
    rw [encode, List.flatMap_cons]
    exact .char c ih

/-- The scalars that start the pairs of a run. -/
def leaders : List Char → List Char
  | [] => []
  | [c] => [c]
  | c :: _ :: chars => c :: leaders chars

theorem length_leaders (chars : List Char) :
    (leaders chars).length = (chars.length + 1) / 2 := by
  induction chars using leaders.induct with
  | case1 => rfl
  | case2 c => exact (by decide : 1 = (1 + 1) / 2)
  | case3 c d chars ih =>
    rw [leaders, List.length_cons, List.length_cons, List.length_cons, ih]
    omega

theorem advance_regional {s : State} {cp : ℕ} (hjoined : s.joined = false) (h : IsRegional cp) :
    (advance tables s (some cp)).joined = false ∧
      (advance tables s (some cp)).regional = !s.regional ∧
      (advance tables s (some cp)).total =
        s.total + (if s.regional = true then 0 else widthOfScalar tables cp : ℕ) := by
  have hjoiner : ¬ IsJoiner cp := by
    rw [IsRegional] at h
    rw [IsJoiner]
    omega
  have hselector : ¬ IsSelector cp := by
    rw [IsRegional] at h
    rw [IsSelector]
    omega
  have hregional : regionalAfter s cp = !s.regional := if_pos h
  rw [advance_drawn tables hjoiner hselector]
  refine ⟨rfl, hregional, ?_⟩
  rw [advanceDrawn, addedWidth, hjoined, hregional, if_neg (by decide)]
  cases hs : s.regional with
  | true => rw [if_pos ⟨h, rfl⟩, if_pos rfl]
  | false => rw [if_neg (fun hr => Bool.noConfusion hr.2), if_neg (by decide)]

/-- A run of regional indicators counts the first of every pair. -/
theorem total_regional {chars : List Char} (h : ∀ c ∈ chars, IsRegional c.val.toNat) {s : State}
    (hjoined : s.joined = false) (hregional : s.regional = false) :
    ((chars.map fun c => some c.val.toNat).foldl (advance tables) s).total =
      s.total + ((leaders chars).map fun c => widthOfScalar tables c.val.toNat).sum := by
  induction chars using leaders.induct generalizing s with
  | case1 => exact (Int.add_zero _).symm
  | case2 c =>
    obtain ⟨-, -, htotal⟩ := advance_regional tables hjoined (h c (by simp))
    rw [List.map_singleton, List.foldl_cons, List.foldl_nil, htotal, hregional,
      if_neg (by decide)]
    rfl
  | case3 c d chars ih =>
    obtain ⟨hjoined₁, hregional₁, htotal₁⟩ := advance_regional tables hjoined (h c (by simp))
    obtain ⟨hjoined₂, hregional₂, htotal₂⟩ :=
      advance_regional tables hjoined₁ (h d (by simp))
    rw [hregional] at hregional₁ htotal₁
    rw [hregional₁] at hregional₂ htotal₂
    rw [List.map_cons, List.map_cons, List.foldl_cons, List.foldl_cons,
      ih (fun c' hc' => h c' (by simp [hc'])) hjoined₂ hregional₂, htotal₂, htotal₁, leaders,
      List.map_cons, List.sum_cons]
    simp only [Bool.false_eq_true, if_false, Bool.not_false, if_true]
    push_cast
    ring

theorem width_append (hjoiner : ¬ joinerBytes <:+ p) (hc : IsOrdinary c.val.toNat)
    (rest : Text) :
    beansWidthUtf8 tables (p ++ (String.utf8EncodeChar c ++ rest)) =
      beansWidthUtf8 tables p + beansWidthUtf8 tables (String.utf8EncodeChar c ++ rest) := by
  obtain ⟨us, hus⟩ := units_exist p
  obtain ⟨vs, hvs⟩ := units_exist rest
  have hjoined : (us.foldl (advance tables) start).joined = false := by
    cases hj : (us.foldl (advance tables) start).joined with
    | false => rfl
    | true => exact absurd (ends_with_joiner hus (joined_units tables hj)) hjoiner
  have hrest := Units.char c hvs
  rw [beansWidthUtf8_eq tables (units_append hus c rest hrest), beansWidthUtf8_eq tables hus,
    beansWidthUtf8_eq tables hrest, totalOf, totalOf, totalOf, List.foldl_append, List.foldl_cons,
    List.foldl_cons, advance_ordinary tables hjoined hc, foldl_shift]
  exact Int.add_comm _ _

/-- What holds of the display width, whatever ranges the tables hold. -/
structure WidthLaws : Prop where
  decode_char : ∀ (c : Char) (rest : Text),
    widthDecode (String.utf8EncodeChar c ++ rest) =
      ⟨(String.utf8EncodeChar c).length, c.val.toNat, false⟩
  decode_bad : ∀ (a : UInt8) (tail : Text), (∀ c, ¬ String.utf8EncodeChar c <+: a :: tail) →
    widthDecode (a :: tail) = ⟨1, 0xFFFD, true⟩
  consumes : ∀ p, ∃ us, Units p us ∧
    Loop.run (walkStep tables) p.length (p, start) = ([], us.foldl (advance tables) start)
  bounds : ∀ p us, Units p us →
    0 ≤ beansWidthUtf8 tables p ∧ beansWidthUtf8 tables p ≤ 2 * us.length
  selector : ∀ us u cp, IsSelector cp →
    totalOf tables (us ++ [u, some cp]) ≠ totalOf tables (us ++ [u]) →
      totalOf tables us < totalOf tables (us ++ [u]) ∧
        totalOf tables us < totalOf tables (us ++ [u, some cp])
  append : ∀ (p : Text) (c : Char) (rest : Text), ¬ joinerBytes <:+ p →
    IsOrdinary c.val.toNat →
      beansWidthUtf8 tables (p ++ (String.utf8EncodeChar c ++ rest)) =
        beansWidthUtf8 tables p + beansWidthUtf8 tables (String.utf8EncodeChar c ++ rest)
  flags : ∀ chars : List Char, (∀ c ∈ chars, IsRegional c.val.toNat) →
    beansWidthUtf8 tables (encode chars) =
      ((leaders chars).map fun c => widthOfScalar tables c.val.toNat).sum ∧
    (leaders chars).length = (chars.length + 1) / 2

/-- **The display width obeys its laws over any tables of sorted ranges.** -/
theorem display_width : WidthLaws tables where
  decode_char := widthDecode_char
  decode_bad _ _ h := widthDecode_bad h
  consumes p := by
    obtain ⟨us, hus⟩ := units_exist p
    exact ⟨us, hus, run_walkStep tables hus le_rfl start⟩
  bounds p us h := by
    rw [beansWidthUtf8_eq tables h]
    have hbounded := bounded_units tables us
    exact ⟨hbounded.total_nonneg, hbounded.total_le⟩
  selector us u cp hselector := by
    have hpair : us ++ [u, some cp] = us ++ [u] ++ [some cp] := by
      rw [List.append_assoc, List.singleton_append]
    rw [hpair, totalOf_concat, totalOf_concat, List.foldl_append, List.foldl_cons, List.foldl_nil]
    exact selector_keeps tables hselector
  append _ _ rest hjoiner hc := width_append tables hjoiner hc rest
  flags chars h := by
    rw [beansWidthUtf8_eq tables (units_encode chars), totalOf,
      total_regional tables h rfl rfl]
    exact ⟨Int.zero_add _, length_leaders chars⟩

/-- Tables of some generated ranges. -/
def someTables : Tables where
  zero := zeroRanges
  wide := ⟨[(0x1100, 0x115F), (0x231A, 0x231B), (0x1F1E6, 0x1F202)], by decide, by decide⟩
  pict := ⟨[(0xA9, 0xA9), (0xAE, 0xAE), (0x231A, 0x231B)], by decide, by decide⟩

/-- Two regional indicators are one flag of two columns. -/
theorem display_width_flag :
    beansWidthUtf8 someTables (encode [Char.ofNat 0x1F1EB, Char.ofNat 0x1F1F7]) = 2 := by
  refine ((display_width someTables).flags _ ?_).1.trans (by decide)
  intro c hc
  fin_cases hc <;> decide

end Width
end Beans
