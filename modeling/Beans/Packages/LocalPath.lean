import Beans.Foundation.LexicalPlaces
import Beans.Runtime.Text

/-!
# Local paths

The manifest names directories by path.  A path is brought into one form before it
identifies a module; where it leads to is read off the path alone, below a root if
it has one.

**Results.**
* `normalize_local_path`: the normal form is idempotent, leads to the same place and is one for
  each place, exactly where the root of the path survives.
* `lost_drive`: `C:/..` loses its drive.
-/

namespace Beans
namespace Packages

open Lexical

def dot : Text := [0x2E]

def dotDot : Text := [0x2E, 0x2E]

/-- What a segment of the path does to the parts. -/
def normalizePart (absolute : Bool) (parts : List Text) (part : Text) : List Text :=
  if part = [] ∨ part = dot then parts
  else if part = dotDot ∧ parts.length ≠ 0 ∧ parts.getLast? ≠ some dotDot then parts.dropLast
  else if part = dotDot ∧ ¬ absolute then parts ++ [part]
  else if part ≠ dotDot then parts ++ [part]
  else parts

/-- Puts a part behind the result. -/
def joinPart (result part : Text) : Text :=
  (if result ≠ [] ∧ result.getLast? ≠ some 0x2F then result ++ [0x2F] else result) ++ part

def normalizeLocalPath (value : Text) : Text :=
  let absolute : Bool := value.head? = some 0x2F
  let raw := (value.map fun b => if b = 0x5C then 0x2F else b).splitOn 0x2F
  let parts := raw.foldl (normalizePart absolute) []
  let result := parts.foldl joinPart (if absolute then [0x2F] else [])
  if result = [] then (if absolute then [0x2F] else dot) else result

/-- A slash of either kind. -/
def isSlash (b : UInt8) : Bool :=
  b == 0x2F || b == 0x5C

def isLetter (b : UInt8) : Bool :=
  (0x41 ≤ b && b ≤ 0x5A) || (0x61 ≤ b && b ≤ 0x7A)

/-- Where a path starts. -/
inductive Root where
  | here
  | slash
  | drive (letter : UInt8)
deriving DecidableEq

/-- The root a path names, and what follows it. -/
def splitRoot : Text → Root × Text
  | [] => (.here, [])
  | a :: rest =>
    if isSlash a then (.slash, rest)
    else
      match rest with
      | b :: c :: more =>
        if isLetter a && b == 0x3A && isSlash c then (.drive a, more)
        else (.here, a :: rest)
      | _ => (.here, a :: rest)

def IsAbsolute (path : Text) : Prop :=
  (splitRoot path).1 ≠ .here

/-- The segments of a path, between its slashes. -/
def segments (path : Text) : List Text :=
  path.splitOnP isSlash

def toMove (segment : Text) : Move Text :=
  if segment = [] ∨ segment = dot then .stay
  else if segment = dotDot then .up
  else .down segment

/-- The lexical location of a path. -/
def location (path : Text) : Root × Place Text :=
  let (root, rest) := splitRoot path
  (root, Place.walk (root ≠ .here) ((segments rest).map toMove))

/-- What is written behind the root. -/
def spelled (path : Text) : List Text :=
  let rest := (splitRoot path).2
  if rest = [] then [] else segments rest

/-- Names behind leading `..`, and none behind a root. -/
def Tidy (path : Text) : Prop :=
  ∃ ups names, spelled path = List.replicate ups dotDot ++ names ∧
    (∀ name ∈ names, name ≠ [] ∧ name ≠ dot ∧ name ≠ dotDot) ∧
    (IsAbsolute path → ups = 0)

/-- A path and its normal form: the same location, spelled in one way. -/
structure Normalizes (path result : Text) : Prop where
  location : location result = location path
  absolute : IsAbsolute result ↔ IsAbsolute path
  /-- The place where a path starts is spelled by a single dot. -/
  tidy : result = dot ∨ Tidy result
  fixed : normalizeLocalPath result = result

/-- A path whose root survives: it starts with a slash, or it stays below its drive, or
it has no root and does not come to start with a drive. -/
def KeepsRoot (path : Text) : Prop :=
  path.head? = some 0x2F ∨
    match splitRoot path with
    | (.slash, _) => False
    | (.drive _, rest) =>
      (Place.walk false ((segments rest).map toMove)).ups = 0 ∧
        (Place.walk false ((segments rest).map toMove)).names ≠ []
    | (.here, rest) =>
      ¬ ∃ letter name names, isLetter letter = true ∧
        Place.walk false ((segments rest).map toMove) =
          ⟨0, [letter, 0x3A] :: name :: names⟩

/-- The segments that spell a place. -/
def spell (place : Place Text) : List Text :=
  List.replicate place.ups dotDot ++ place.names

/-- A segment that can stand for a name. -/
def IsName (name : Text) : Prop :=
  (name ≠ [] ∧ name ≠ dot ∧ name ≠ dotDot) ∧ ∀ b ∈ name, isSlash b = false

variable {name part path result : Text} {absolute : Bool} {place : Place Text} {parts : List Text}

theorem toMove_eq_down {segment : Text} (h : toMove segment = .down name) :
    name = segment ∧ segment ≠ [] ∧ segment ≠ dot ∧ segment ≠ dotDot := by
  rw [toMove] at h
  split_ifs at h with hstay hup
  cases h
  exact ⟨rfl, fun h => hstay (Or.inl h), fun h => hstay (Or.inr h), hup⟩

theorem toMove_name (h : IsName name) : toMove name = .down name := by
  obtain ⟨⟨hne, hdot, hup⟩, -⟩ := h
  rw [toMove, if_neg (not_or.mpr ⟨hne, hdot⟩), if_neg hup]

theorem toMove_dotDot : toMove dotDot = .up := by decide

theorem normalizePart_spell (hnames : ∀ name ∈ place.names, IsName name)
    (hups : absolute = true → place.ups = 0) (part : Text) :
    normalizePart absolute (spell place) part =
      spell (Place.step absolute place (toMove part)) := by
  obtain ⟨ups, names⟩ := place
  rw [normalizePart, toMove]
  by_cases hstay : part = [] ∨ part = dot
  · rw [if_pos hstay, if_pos hstay]
    rfl
  rw [if_neg hstay, if_neg hstay]
  by_cases hup : part = dotDot
  · subst hup
    rw [if_pos rfl, Place.step]
    by_cases hempty : names = []
    · subst hempty
      have hlast : ¬ (dotDot = dotDot ∧ (spell ⟨ups, []⟩).length ≠ 0 ∧
          (spell ⟨ups, []⟩).getLast? ≠ some dotDot) := by
        rintro ⟨-, hlength, hlast⟩
        cases ups with
        | zero => exact hlength rfl
        | succ ups => exact hlast (by simp [spell, List.getLast?_replicate])
      rw [if_neg hlast]
      cases absolute with
      | false => simp [spell, List.replicate_succ']
      | true => simp
    · obtain ⟨front, last, rfl⟩ := names.eq_nil_or_concat'.resolve_left hempty
      have hlast : dotDot = dotDot ∧ (spell ⟨ups, front ++ [last]⟩).length ≠ 0 ∧
          (spell ⟨ups, front ++ [last]⟩).getLast? ≠ some dotDot := by
        refine ⟨rfl, by simp [spell], ?_⟩
        have hname := (hnames last (by simp)).1.2.2
        simp [spell, hname]
      rw [if_pos hlast, if_pos hempty]
      simp [spell, ← List.append_assoc]
  · rw [if_neg (fun h => hup h.1), if_neg (fun h => hup h.1), if_pos hup, if_neg hup]
    simp [spell, Place.step]

theorem isName_step (hnames : ∀ name ∈ place.names, IsName name)
    (hpart : ∀ b ∈ part, isSlash b = false) :
    ∀ name ∈ (Place.step absolute place (toMove part)).names, IsName name := by
  intro name hmem
  have hwalk : name ∈ (Place.walkFrom absolute place [toMove part]).names := hmem
  rcases Place.mem_names_walkFrom hwalk with hmem | hmem
  · exact hnames name hmem
  · obtain ⟨rfl, hne, hdot, hup⟩ := toMove_eq_down (List.mem_singleton.mp hmem).symm
    exact ⟨⟨hne, hdot, hup⟩, hpart⟩

theorem ups_step (h : place.ups = 0) (move : Move Text) :
    (Place.step true place move).ups = 0 := by
  cases move with
  | stay => exact h
  | up =>
    rw [Place.step]
    split_ifs with hempty hrooted
    · exact h
    · exact h
    · exact absurd rfl hrooted
  | down name => exact h

/-- The parts of a path spell the place it leads to. -/
theorem foldl_normalizePart {absolute : Bool} {raw : List Text} {place : Place Text}
    (hnames : ∀ name ∈ place.names, IsName name)
    (hups : absolute = true → place.ups = 0)
    (hraw : ∀ part ∈ raw, ∀ b ∈ part, isSlash b = false) :
    raw.foldl (normalizePart absolute) (spell place) =
      spell (Place.walkFrom absolute place (raw.map toMove)) := by
  induction raw generalizing place with
  | nil => rfl
  | cons part raw ih =>
    rw [List.forall_mem_cons] at hraw
    rw [List.foldl_cons, normalizePart_spell hnames hups]
    refine ih (isName_step hnames hraw.1) (fun h => ?_) hraw.2
    subst h
    exact ups_step (hups rfl) _

theorem segments_noSlash :
    ∀ part ∈ segments path, ∀ b ∈ part, isSlash b = false := by
  induction path with
  | nil => simp [segments]
  | cons b path ih =>
    rw [segments, List.splitOnP_cons_eq_if_modifyHead]
    rw [segments] at ih
    cases hb : isSlash b with
    | true =>
      rw [if_pos rfl, List.forall_mem_cons]
      exact ⟨by simp, ih⟩
    | false =>
      rw [if_neg (by simp)]
      cases hsplit : path.splitOnP isSlash with
      | nil => exact absurd hsplit (List.splitOnP_ne_nil isSlash path)
      | cons first parts =>
        rw [hsplit, List.forall_mem_cons] at ih
        rw [List.modifyHead_cons, List.forall_mem_cons, List.forall_mem_cons]
        exact ⟨⟨hb, ih.1⟩, ih.2⟩

/-- Replacing one kind of slash and splitting at the other. -/
theorem splitOn_replace (path : Text) :
    (path.map fun b => if b = 0x5C then 0x2F else b).splitOn 0x2F = segments path := by
  induction path with
  | nil => rfl
  | cons b path ih =>
    rw [List.map_cons, List.splitOn_cons_eq_if_modifyHead, segments,
      List.splitOnP_cons_eq_if_modifyHead, ih]
    by_cases hb : b = 0x5C
    · subst hb
      rfl
    · rw [if_neg hb]
      by_cases hslash : b = 0x2F
      · subst hslash
        rfl
      · have hneither : isSlash b = false := by simp [isSlash, hb, hslash]
        rw [hneither, if_neg (by simpa using hslash), if_neg (by simp)]
        rfl

/-- Parts with slashes in between. -/
def joined : List Text → Text
  | [] => []
  | part :: parts => part ++ parts.flatMap fun part => 0x2F :: part

theorem segments_joined (hne : parts ≠ []) (h : ∀ part ∈ parts, ∀ b ∈ part, isSlash b = false) :
    segments (joined parts) = parts := by
  induction parts with
  | nil => exact absurd rfl hne
  | cons part parts ih =>
    rw [List.forall_mem_cons] at h
    cases parts with
    | nil => simpa [joined, segments] using List.splitOnP_eq_singleton h.1
    | cons next parts =>
      have hjoined : joined (part :: next :: parts) =
          part ++ 0x2F :: joined (next :: parts) := by
        simp [joined]
      rw [hjoined, segments, List.splitOnP_append_cons_of_forall_mem h.1 _ rfl]
      exact congrArg _ (ih (by simp) h.2)

theorem getLast?_name {b : UInt8}
    (hne : part ≠ [])
    (h : ∀ b ∈ part, isSlash b = false)
    (result : Text)
    (hlast : (result ++ part).getLast? = some b) :
    isSlash b = false := by
  obtain ⟨front, last, rfl⟩ := part.eq_nil_or_concat'.resolve_left hne
  rw [← List.append_assoc, List.getLast?_concat] at hlast
  rw [← Option.some.inj hlast]
  exact h last (by simp)

/-- What ends in no slash gets one in front of the next part. -/
theorem foldl_joinPart (hresult : result ≠ [] ∧ result.getLast? ≠ some 0x2F)
    (h : ∀ part ∈ parts, part ≠ [] ∧ ∀ b ∈ part, isSlash b = false) :
    parts.foldl joinPart result = result ++ parts.flatMap fun part => 0x2F :: part := by
  induction parts generalizing result with
  | nil => simp
  | cons part parts ih =>
    rw [List.forall_mem_cons] at h
    obtain ⟨⟨hne, hnoSlash⟩, hparts⟩ := h
    have hlast : (result ++ 0x2F :: part).getLast? ≠ some 0x2F := by
      intro hlast
      rw [List.append_cons] at hlast
      exact absurd (getLast?_name hne hnoSlash _ hlast) (by decide)
    have hstep : joinPart result part = result ++ 0x2F :: part := by
      rw [joinPart, if_pos hresult]
      simp
    rw [List.foldl_cons, hstep, ih ⟨by simp, hlast⟩ hparts]
    simp

theorem joinPart_start (h : result = [] ∨ result = [0x2F]) :
    joinPart result part = result ++ part := by
  rw [joinPart, if_neg]
  rintro ⟨hne, hlast⟩
  rcases h with rfl | rfl
  · exact hne rfl
  · exact hlast rfl

theorem foldl_joinPart_start {result : Text} {parts : List Text}
    (hresult : result = [] ∨ result = [0x2F])
    (h : ∀ part ∈ parts, part ≠ [] ∧ ∀ b ∈ part, isSlash b = false) :
    parts.foldl joinPart result = result ++ joined parts := by
  cases parts with
  | nil => simp [joined]
  | cons part parts =>
    rw [List.forall_mem_cons] at h
    have hlast : (result ++ part).getLast? ≠ some 0x2F := by
      intro hlast
      exact absurd (getLast?_name h.1.1 h.1.2 result hlast) (by decide)
    rw [List.foldl_cons, joinPart_start hresult,
      foldl_joinPart ⟨by simp [h.1.1], hlast⟩ h.2, joined, List.append_assoc]

/-- What is written for a place below a root, or for one that starts here. -/
def written (absolute : Bool) (place : Place Text) : Text :=
  if absolute then 0x2F :: joined (spell place)
  else if spell place = [] then dot
  else joined (spell place)

theorem joined_eq_nil {parts : List Text} (h : ∀ part ∈ parts, part ≠ []) :
    joined parts = [] ↔ parts = [] := by
  cases parts with
  | nil => simp [joined]
  | cons part parts =>
    have := h part List.mem_cons_self
    simp [joined, this]

theorem spell_parts (h : ∀ name ∈ place.names, IsName name) :
    ∀ part ∈ spell place, part ≠ [] ∧ part ≠ dot ∧ ∀ b ∈ part, isSlash b = false := by
  intro part hmem
  rcases List.mem_append.mp hmem with hup | hname
  · rw [List.eq_of_mem_replicate hup]
    exact ⟨by simp [dotDot], by simp [dotDot, dot], by simp [dotDot, isSlash]⟩
  · exact ⟨(h part hname).1.1, (h part hname).1.2.1, (h part hname).2⟩

/-- The names a path leads through. -/
theorem walk_names (rooted : Bool) (path : Text) :
    ∀ name ∈ (Place.walk rooted ((segments path).map toMove)).names, IsName name := by
  intro name hmem
  obtain ⟨segment, hsegment, hmove⟩ := List.mem_map.mp (Place.mem_names_walk hmem)
  obtain ⟨rfl, hne, hdot, hup⟩ := toMove_eq_down hmove
  exact ⟨⟨hne, hdot, hup⟩, segments_noSlash _ hsegment⟩

/-- What the function writes. -/
theorem normalizeLocalPath_eq (path : Text) :
    normalizeLocalPath path =
      written (path.head? = some 0x2F)
        (Place.walk (path.head? = some 0x2F) ((segments path).map toMove)) := by
  rw [normalizeLocalPath]
  generalize (decide (path.head? = some 0x2F)) = absolute
  simp only [splitOn_replace]
  have hparts : (segments path).foldl (normalizePart absolute) [] =
      spell (Place.walk absolute ((segments path).map toMove)) :=
    @foldl_normalizePart absolute (segments path) Place.start (by simp [Place.start])
      (fun _ => rfl) segments_noSlash
  rw [hparts]
  have hnames := walk_names absolute path
  generalize Place.walk absolute ((segments path).map toMove) = place at hnames ⊢
  have hspell := spell_parts hnames
  have hjoin := @foldl_joinPart_start (if absolute then [0x2F] else []) (spell place)
    (by cases absolute <;> simp) fun part hmem => ⟨(hspell part hmem).1, (hspell part hmem).2.2⟩
  rw [hjoin, written]
  have hempty := @joined_eq_nil (spell place) fun part hmem => (hspell part hmem).1
  cases absolute with
  | true => simp
  | false =>
    simp only [Bool.false_eq_true, if_false, List.nil_append]
    by_cases hnil : spell place = []
    · rw [if_pos (hempty.mpr hnil), if_pos hnil]
    · rw [if_neg (fun h => hnil (hempty.mp h)), if_neg hnil]

/-- The moves of what is written are the shortest ones. -/
theorem map_toMove_spell (h : ∀ name ∈ place.names, IsName name) :
    (spell place).map toMove = place.moves := by
  rw [spell, List.map_append, List.map_replicate, toMove_dotDot, Place.moves]
  congr 1
  exact List.map_congr_left fun name hmem => toMove_name (h name hmem)

theorem segments_written {place : Place Text}
    (h : ∀ name ∈ place.names, IsName name)
    (hne : spell place ≠ []) :
    segments (joined (spell place)) = spell place :=
  segments_joined hne fun part hmem => (spell_parts h part hmem).2.2

/-- The first byte of what is joined is no slash. -/
theorem head?_joined (h : ∀ part ∈ parts, part ≠ [] ∧ ∀ b ∈ part, isSlash b = false) :
    ∀ b ∈ (joined parts).head?, isSlash b = false := by
  intro b hb
  cases parts with
  | nil => simp [joined] at hb
  | cons part parts =>
    obtain ⟨hne, hnoSlash⟩ := h part List.mem_cons_self
    cases part with
    | nil => exact absurd rfl hne
    | cons a part =>
      obtain rfl : a = b := by simpa [joined] using hb
      exact hnoSlash a List.mem_cons_self

/-- A drive in front of more parts is a root. -/
theorem splitRoot_drive {letter : UInt8} {name : Text} {names : List Text}
    (hletter : isLetter letter = true) :
    splitRoot (joined ([letter, 0x3A] :: name :: names)) =
      (.drive letter, joined (name :: names)) := by
  have hslash : isSlash letter = false := by
    revert hletter
    revert letter
    decide +kernel
  have hbetween : isSlash 0x2F = true := rfl
  simp [joined, splitRoot, hslash, hletter, hbetween]

/-- Other parts name no root. -/
theorem splitRoot_joined (h : ∀ part ∈ parts, part ≠ [] ∧ ∀ b ∈ part, isSlash b = false)
    (hdrive : ¬ ∃ letter name names, isLetter letter = true ∧
      parts = [letter, 0x3A] :: name :: names) :
    splitRoot (joined parts) = (.here, joined parts) := by
  have hbetween : (0x2F : UInt8) ≠ 0x3A := by decide
  match parts with
  | [] => rfl
  | [] :: _ => exact absurd rfl (h [] List.mem_cons_self).1
  | [a] :: [] =>
    have ha := (h [a] List.mem_cons_self).2 a List.mem_cons_self
    simp [joined, splitRoot, ha]
  | [a] :: [] :: _ => exact absurd rfl (h [] (by simp)).1
  | [a] :: (c :: name) :: names =>
    have ha := (h [a] List.mem_cons_self).2 a List.mem_cons_self
    simp [joined, splitRoot, ha]
  | [a, b] :: [] =>
    have ha := (h [a, b] List.mem_cons_self).2 a List.mem_cons_self
    simp [joined, splitRoot, ha]
  | [a, b] :: name :: names =>
    have ha := (h [a, b] List.mem_cons_self).2 a List.mem_cons_self
    have hnot : ¬ (isLetter a = true ∧ b = 0x3A) := by
      rintro ⟨hletter, rfl⟩
      exact hdrive ⟨a, name, names, hletter, rfl⟩
    simp only [joined, splitRoot, ha, List.flatMap_cons, List.cons_append, List.nil_append]
    simp only [Bool.false_eq_true, if_false, Bool.and_eq_true, beq_iff_eq]
    rw [if_neg fun hall => hnot hall.1]
  | (a :: b :: c :: part) :: names =>
    have ha := (h _ List.mem_cons_self).2 a (by simp)
    have hc := (h _ List.mem_cons_self).2 c (by simp)
    simp [joined, splitRoot, ha, hc]

/-- What a root leaves of its path. -/
theorem splitRoot_cases (path : Text) :
    (∃ a rest, path = a :: rest ∧ isSlash a = true ∧ splitRoot path = (.slash, rest)) ∨
    (∃ a c rest, path = a :: 0x3A :: c :: rest ∧ isSlash a = false ∧ isLetter a = true ∧
      isSlash c = true ∧ splitRoot path = (.drive a, rest)) ∨
    ((∀ b ∈ path.head?, isSlash b = false) ∧ splitRoot path = (.here, path)) := by
  match path with
  | [] => exact Or.inr (Or.inr ⟨by simp, rfl⟩)
  | [a] =>
    cases ha : isSlash a with
    | true => exact Or.inl ⟨a, [], rfl, ha, by simp [splitRoot, ha]⟩
    | false => exact Or.inr (Or.inr ⟨by simpa using ha, by simp [splitRoot, ha]⟩)
  | [a, b] =>
    cases ha : isSlash a with
    | true => exact Or.inl ⟨a, [b], rfl, ha, by simp [splitRoot, ha]⟩
    | false => exact Or.inr (Or.inr ⟨by simpa using ha, by simp [splitRoot, ha]⟩)
  | a :: b :: c :: rest =>
    cases ha : isSlash a with
    | true => exact Or.inl ⟨a, b :: c :: rest, rfl, ha, by simp [splitRoot, ha]⟩
    | false =>
      by_cases hdrive : isLetter a && b == 0x3A && isSlash c
      · have hparts := hdrive
        rw [Bool.and_eq_true, Bool.and_eq_true, beq_iff_eq] at hparts
        obtain ⟨⟨hletter, rfl⟩, hc⟩ := hparts
        exact Or.inr (Or.inl ⟨a, c, rest, rfl, ha, hletter, hc, by
          simp [splitRoot, ha, hletter, hc]⟩)
      · refine Or.inr (Or.inr ⟨by simpa using ha, ?_⟩)
        rw [splitRoot, if_neg (by simp [ha]), if_neg hdrive]

/-- What is written for a place leads there. -/
theorem walk_joined (rooted : Bool) {place : Place Text}
    (h : ∀ name ∈ place.names, IsName name) :
    Place.walk rooted ((segments (joined (spell place))).map toMove) =
      Place.walk rooted place.moves := by
  by_cases hne : spell place = []
  · obtain ⟨ups, names⟩ := place
    obtain ⟨hups, hnames⟩ := List.append_eq_nil_iff.mp hne
    simp only at hnames hups
    subst hnames
    cases ups with
    | zero => rfl
    | succ ups => simp [List.replicate_succ] at hups
  · rw [segments_written h hne, map_toMove_spell h]

theorem walk_slash (rooted : Bool) {a : UInt8} (ha : isSlash a = true) (rest : Text) :
    Place.walk rooted ((segments (a :: rest)).map toMove) =
      Place.walk rooted ((segments rest).map toMove) := by
  rw [segments, List.splitOnP_cons_eq_if_modifyHead, if_pos ha]
  rfl

theorem walk_drive {a c : UInt8} (ha : isSlash a = false) (hc : isSlash c = true)
    (rest : Text) :
    Place.walk false ((segments (a :: 0x3A :: c :: rest)).map toMove) =
      (Place.walk false ((segments rest).map toMove)).inside [a, 0x3A] := by
  have hsplit : segments (a :: 0x3A :: c :: rest) = [a, 0x3A] :: segments rest := by
    have hpart : ∀ b ∈ [a, (0x3A : UInt8)], isSlash b = false := by
      rw [List.forall_mem_cons, List.forall_mem_singleton]
      exact ⟨ha, rfl⟩
    exact List.splitOnP_append_cons_of_forall_mem hpart c hc rest
  have hmove : toMove [a, 0x3A] = .down [a, 0x3A] := by
    simp [toMove, dot, dotDot]
  rw [hsplit, List.map_cons, hmove, Place.walk_cons_down]

/-- Reading back what is written. -/
theorem written_back (h : ∀ name ∈ place.names, IsName name)
    (hups : absolute = true → place.ups = 0) :
    decide ((written absolute place).head? = some 0x2F) = absolute ∧
      Place.walk absolute ((segments (written absolute place)).map toMove) = place := by
  have hparts := spell_parts h
  cases absolute with
  | true =>
    refine ⟨by simp [written], ?_⟩
    rw [written, if_pos rfl, walk_slash true rfl, walk_joined true h, Place.walk_rooted,
      Place.walk_moves]
    exact Place.ext (hups rfl).symm rfl
  | false =>
    rw [written, if_neg (by simp)]
    split_ifs with hnil
    · refine ⟨by decide, ?_⟩
      have hback := walk_joined false h
      rw [hnil, Place.walk_moves] at hback
      rw [← hback]
      rfl
    · refine ⟨decide_eq_false fun hhead => ?_, ?_⟩
      · exact absurd (head?_joined (fun part hmem => ⟨(hparts part hmem).1,
          (hparts part hmem).2.2⟩) 0x2F hhead) (by decide)
      · rw [walk_joined false h, Place.walk_moves]

theorem written_fixed {absolute : Bool} {place : Place Text}
    (h : ∀ name ∈ place.names, IsName name)
    (hups : absolute = true → place.ups = 0) :
    normalizeLocalPath (written absolute place) = written absolute place := by
  obtain ⟨hhead, hwalk⟩ := written_back h hups
  rw [normalizeLocalPath_eq, hhead, hwalk]

/-- A place whose first name is a drive and not the last. -/
def StartsAtDrive (place : Place Text) : Prop :=
  ∃ letter name names, isLetter letter = true ∧ place = ⟨0, [letter, 0x3A] :: name :: names⟩

theorem location_eq (path : Text) :
    location path =
      ((splitRoot path).1, Place.walk ((splitRoot path).1 ≠ .here)
        ((segments (splitRoot path).2).map toMove)) :=
  rfl

theorem spell_startsAtDrive :
    (∃ letter name names, isLetter letter = true ∧
      spell place = [letter, 0x3A] :: name :: names) ↔ StartsAtDrive place := by
  obtain ⟨ups, names⟩ := place
  constructor
  · rintro ⟨letter, name, names', hletter, hspell⟩
    cases ups with
    | zero => exact ⟨letter, name, names', hletter, by simpa [spell] using hspell⟩
    | succ ups => simp [spell, List.replicate_succ, dotDot] at hspell
  · rintro ⟨letter, name, names', hletter, hplace⟩
    cases hplace
    exact ⟨letter, name, names', hletter, rfl⟩

/-- Below the root. -/
theorem location_rooted (h : ∀ name ∈ place.names, IsName name) (hups : place.ups = 0) :
    location (written true place) = (.slash, place) ∧ Tidy (written true place) := by
  have hroot : splitRoot (written true place) = (.slash, joined (spell place)) := by
    simp [written, splitRoot, isSlash]
  constructor
  · rw [location_eq, hroot]
    simp only [ne_eq, reduceCtorEq, not_false_eq_true, decide_true]
    rw [walk_joined true h, Place.walk_rooted, Place.walk_moves]
    exact congrArg _ (Place.ext hups.symm rfl)
  · refine ⟨0, place.names, ?_, fun name hmem => (h name hmem).1, fun _ => rfl⟩
    rw [spelled, hroot]
    have hspell : spell place = place.names := by rw [spell, hups]; rfl
    have hempty := @joined_eq_nil (spell place) fun part hmem => (spell_parts h part hmem).1
    simp only
    split_ifs with hnil
    · rw [← hspell, hempty.mp hnil]
      rfl
    · rw [segments_written h (fun h => hnil (hempty.mpr h)), hspell]
      rfl

/-- Without a root. -/
theorem location_relative (h : ∀ name ∈ place.names, IsName name)
    (hdrive : ¬ StartsAtDrive place) :
    location (written false place) = (.here, place) ∧
      (written false place = dot ∨ Tidy (written false place)) := by
  have hparts := spell_parts h
  by_cases hnil : spell place = []
  · have hwritten : written false place = dot := by simp [written, hnil]
    have hback := walk_joined false h
    rw [hnil, Place.walk_moves] at hback
    rw [hwritten]
    refine ⟨?_, Or.inl rfl⟩
    rw [← hback]
    rfl
  · have hwritten : written false place = joined (spell place) := by simp [written, hnil]
    have hroot : splitRoot (joined (spell place)) = (.here, joined (spell place)) :=
      splitRoot_joined (fun part hmem => ⟨(hparts part hmem).1, (hparts part hmem).2.2⟩)
        fun hstarts => hdrive (spell_startsAtDrive.mp hstarts)
    rw [hwritten]
    constructor
    · rw [location_eq, hroot]
      simp only [ne_eq, not_true_eq_false, decide_false]
      rw [walk_joined false h, Place.walk_moves]
    · right
      refine ⟨place.ups, place.names, ?_, fun name hmem => (h name hmem).1, fun habsolute => ?_⟩
      · have hne : joined (spell place) ≠ [] := fun h =>
          hnil ((joined_eq_nil fun part hmem => (hparts part hmem).1).mp h)
        rw [spelled, hroot]
        simp only
        rw [if_neg hne, segments_written h hnil, spell]
      · rw [IsAbsolute, hroot] at habsolute
        exact absurd rfl habsolute

/-- What starts at a drive is read as below it. -/
theorem location_drive {letter : UInt8} {name : Text} {names : List Text}
    (hletter : isLetter letter = true)
    (h : ∀ other ∈ name :: names, IsName other) :
    location (written false ⟨0, [letter, 0x3A] :: name :: names⟩) =
        (.drive letter, ⟨0, name :: names⟩) ∧
      Tidy (written false ⟨0, [letter, 0x3A] :: name :: names⟩) := by
  have hwritten : written false ⟨0, [letter, 0x3A] :: name :: names⟩ =
      joined ([letter, 0x3A] :: name :: names) := by
    simp [written, spell]
  have hroot := @splitRoot_drive letter name names hletter
  have hinner : Place.walk true ((segments (joined (name :: names))).map toMove) =
      ⟨0, name :: names⟩ := by
    have hjoined := @walk_joined true ⟨0, name :: names⟩ h
    rwa [Place.walk_rooted (Place.moves _), Place.walk_moves] at hjoined
  rw [hwritten]
  constructor
  · rw [location_eq, hroot]
    simp only [ne_eq, reduceCtorEq, not_false_eq_true, decide_true]
    exact congrArg _ hinner
  · refine ⟨0, name :: names, ?_, fun other hmem => (h other hmem).1, fun _ => rfl⟩
    have hne : joined (name :: names) ≠ [] := fun hnil => by
      have := (@joined_eq_nil (name :: names) fun part hmem => (h part hmem).1.1).mp hnil
      exact absurd this (by simp)
    rw [spelled, hroot]
    simp only
    rw [if_neg hne]
    exact @segments_written ⟨0, name :: names⟩ h (by simp [spell])

theorem normalizes_of_location (hlocation : location result = location path)
    (htidy : result = dot ∨ Tidy result) (hfixed : normalizeLocalPath result = result) :
    Normalizes path result := by
  refine ⟨hlocation, ?_, htidy, hfixed⟩
  have hroot := congrArg Prod.fst hlocation
  rw [location_eq, location_eq] at hroot
  rw [IsAbsolute, IsAbsolute, hroot]

/-- A path without a slash in front is written as the place its segments lead to. -/
theorem normalize_relative (h : path.head? ≠ some 0x2F) :
    normalizeLocalPath path =
      written false (Place.walk false ((segments path).map toMove)) := by
  rw [normalizeLocalPath_eq, decide_eq_false h]

/-- Where the written form starts: at a drive or here. -/
theorem location_written (h : ∀ name ∈ place.names, IsName name) :
    (∃ letter name names, isLetter letter = true ∧
      place = ⟨0, [letter, 0x3A] :: name :: names⟩ ∧
      location (written false place) = (.drive letter, ⟨0, name :: names⟩) ∧
      Tidy (written false place)) ∨
    (¬ StartsAtDrive place ∧ location (written false place) = (.here, place) ∧
      (written false place = dot ∨ Tidy (written false place))) := by
  by_cases hdrive : StartsAtDrive place
  · obtain ⟨letter, name, names, hletter, rfl⟩ := hdrive
    obtain ⟨hlocation, htidy⟩ := @location_drive letter name names hletter
      fun other hmem => h other (List.mem_cons_of_mem _ hmem)
    exact Or.inl ⟨letter, name, names, hletter, rfl, hlocation, htidy⟩
  · obtain ⟨hlocation, htidy⟩ := location_relative h hdrive
    exact Or.inr ⟨hdrive, hlocation, htidy⟩

/-- A path at a drive keeps it as long as no `..` reaches it, and if there is more. -/
theorem normalizes_drive {letter : UInt8} {inner : Place Text}
    (hletter : isLetter letter = true)
    (hnames : ∀ name ∈ (inner.inside [letter, 0x3A]).names, IsName name)
    (hlocation : location path = (.drive letter, ⟨0, inner.names⟩)) :
    Normalizes path (written false (inner.inside [letter, 0x3A])) ↔
      inner.ups = 0 ∧ inner.names ≠ [] := by
  have hfixed := @written_fixed false _ hnames fun h => absurd h (by simp)
  obtain ⟨ups, names⟩ := inner
  rcases location_written hnames with ⟨letter', name, names', -, hplace, hdrive, htidy⟩ |
    ⟨hdrive, hsame, -⟩
  · cases ups with
    | zero =>
      obtain ⟨hsame, hrest⟩ := List.cons_eq_cons.mp (congrArg Place.names hplace)
      obtain rfl : letter = letter' := List.head_eq_of_cons_eq hsame
      obtain rfl : names = name :: names' := hrest
      exact iff_of_true
        (normalizes_of_location (hdrive.trans hlocation.symm) (Or.inr htidy) hfixed)
        ⟨rfl, by simp⟩
    | succ ups =>
      obtain rfl : names = [letter', 0x3A] :: name :: names' := congrArg Place.names hplace
      refine iff_of_false (fun h => ?_) (fun h => absurd h.1 (by simp))
      have hlocations := h.location
      rw [hdrive, hlocation] at hlocations
      have := congrArg (fun l : Root × Place Text => l.2.names.length) hlocations
      simp at this
  · refine iff_of_false (fun h => ?_) fun h => ?_
    · have hlocations := h.location
      rw [hsame, hlocation] at hlocations
      exact absurd (congrArg Prod.fst hlocations) (by simp)
    · obtain ⟨rfl, hne⟩ := h
      obtain ⟨name, names', rfl⟩ := List.exists_cons_of_ne_nil hne
      exact hdrive ⟨letter, name, names', hletter, rfl⟩

/-- The one spelling of a location. -/
def rendered : Root × Place Text → Text
  | (.here, place) => written false place
  | (.slash, place) => written true place
  | (.drive letter, place) => written false ⟨0, [letter, 0x3A] :: place.names⟩

/-- Where the root survives, the location decides what is written. -/
theorem normalize_eq_rendered (h : KeepsRoot path) :
    normalizeLocalPath path = rendered (location path) := by
  by_cases hhead : path.head? = some 0x2F
  · rw [normalizeLocalPath_eq, decide_eq_true hhead]
    cases path with
    | nil => exact absurd hhead (by simp)
    | cons b rest =>
      obtain rfl : b = 0x2F := Option.some.inj hhead
      rw [walk_slash true rfl]
      rfl
  · rw [KeepsRoot, or_iff_right hhead] at h
    rw [normalize_relative hhead, location_eq]
    rcases splitRoot_cases path with ⟨a, rest, rfl, ha, hroot⟩ |
      ⟨a, c, rest, rfl, ha, hletter, hc, hroot⟩ | ⟨-, hroot⟩
    · rw [hroot] at h
      exact absurd h not_false
    · rw [hroot] at h ⊢
      rw [walk_drive ha hc, Place.inside, if_pos h.1]
      simp only [ne_eq, reduceCtorEq, not_false_eq_true, decide_true, rendered]
      rw [Place.walk_rooted]
    · rw [hroot]
      rfl

/-- The three kinds of roots, each with the walk below it. -/
theorem normalizes_iff (path : Text) :
    Normalizes path (normalizeLocalPath path) ↔ KeepsRoot path := by
  by_cases hhead : path.head? = some 0x2F
  · refine iff_of_true ?_ (Or.inl hhead)
    obtain ⟨rest, rfl⟩ : ∃ rest, path = 0x2F :: rest := by
      cases path with
      | nil => exact absurd hhead (by simp)
      | cons b rest => exact ⟨rest, congrArg (· :: rest) (Option.some.inj hhead)⟩
    have hnames := walk_names true rest
    have hwalk := walk_slash true (a := 0x2F) rfl rest
    have hups : (Place.walk true ((segments rest).map toMove)).ups = 0 := by
      rw [Place.walk_rooted]
    rw [normalizeLocalPath_eq, decide_eq_true hhead, hwalk]
    obtain ⟨hlocation, htidy⟩ := location_rooted hnames hups
    refine normalizes_of_location (hlocation.trans ?_) (Or.inr htidy)
      (written_fixed hnames fun _ => hups)
    rfl
  · rw [normalize_relative hhead, KeepsRoot, or_iff_right hhead]
    have hnames := walk_names false path
    have hfixed := @written_fixed false _ hnames fun h => absurd h (by simp)
    rcases splitRoot_cases path with ⟨a, rest, rfl, ha, hroot⟩ |
      ⟨a, c, rest, rfl, ha, hletter, hc, hroot⟩ | ⟨-, hroot⟩
    · -- the slash in front is a backslash, and what is written has none
      rw [hroot]
      refine iff_of_false (fun h => ?_) not_false
      have hslash := h.location
      rw [location_eq (a :: rest), hroot] at hslash
      rcases location_written hnames with ⟨letter, name, names, -, -, hlocation, -⟩ |
        ⟨-, hlocation, -⟩
      · rw [hlocation] at hslash
        exact absurd (congrArg Prod.fst hslash) (by simp)
      · rw [hlocation] at hslash
        exact absurd (congrArg Prod.fst hslash) (by simp)
    · rw [walk_drive ha hc] at hnames ⊢
      have hlocation : location (a :: 0x3A :: c :: rest) =
          (.drive a, ⟨0, (Place.walk false ((segments rest).map toMove)).names⟩) := by
        rw [location_eq, hroot, ← Place.walk_rooted]
        rfl
      rw [hroot]
      exact normalizes_drive hletter hnames hlocation
    · rw [hroot]
      have hlocation : location path =
          (.here, Place.walk false ((segments path).map toMove)) := by
        rw [location_eq, hroot]
        rfl
      rcases location_written hnames with ⟨letter, name, names, hletter, hplace, hdrive, -⟩ |
        ⟨hdrive, hsame, htidy⟩
      · refine iff_of_false (fun h => ?_) fun h => h ⟨letter, name, names, hletter, hplace⟩
        have hroots := h.location
        rw [hdrive, hlocation] at hroots
        exact absurd (congrArg Prod.fst hroots) (by simp)
      · refine iff_of_true ?_ hdrive
        exact normalizes_of_location (hsame.trans hlocation.symm) htidy hfixed

/-- The normal form has the properties asked of it exactly where the root of the path
survives, and there it is one for each location. -/
theorem normalize_local_path (path : Text) :
    (Normalizes path (normalizeLocalPath path) ↔ KeepsRoot path) ∧
      ∀ other, KeepsRoot path → KeepsRoot other →
        (normalizeLocalPath path = normalizeLocalPath other ↔
          location path = location other) := by
  refine ⟨normalizes_iff path, fun other hpath hother => ⟨fun h => ?_, fun h => ?_⟩⟩
  · rw [← ((normalizes_iff path).mpr hpath).location, h,
      ((normalizes_iff other).mpr hother).location]
  · rw [normalize_eq_rendered hpath, normalize_eq_rendered hother, h]

/-- Two spellings of `/a/c` have one normal form. -/
theorem normalize_local_path_spellings :
    normalizeLocalPath (ascii "/a//b/../c") = normalizeLocalPath (ascii "/a/./c") :=
  ((normalize_local_path (ascii "/a//b/../c")).2 (ascii "/a/./c") (Or.inl (by decide))
    (Or.inl (by decide))).mpr (by decide)

/-- The drive is lost to `..`. -/
theorem lost_drive : ¬ ∀ path, Normalizes path (normalizeLocalPath path) := by
  intro hall
  have hlost : location (normalizeLocalPath (ascii "C:/..")) ≠ location (ascii "C:/..") := by
    decide
  exact hlost (hall _).location

end Packages
end Beans
