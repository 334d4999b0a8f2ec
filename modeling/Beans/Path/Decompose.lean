import Beans.Foundation.Tokens
import Beans.Runtime.Text

/-!
# Paths taken apart

A path is cut at its last slash before which a name ends.  What the parent and the
name are joined to is the same path, unless the path is the root of a drive: its
parent is empty, and the name of the drive alone is no absolute path.

**Results.**
* `decomposes_iff`: every path but the root of a drive is put together again.
* `drive_root_lost`: `C:/` is not.
-/

namespace Beans
namespace Path

open Tokens

/-- The turns of `end_without_slashes`. -/
def trimSlashes (value : Text) : ℕ → ℕ
  | 0 => 0
  | stop + 1 => if value.getD stop 0 = 0x2F then trimSlashes value stop else stop + 1

/-- Where the path ends without the slashes behind it. -/
def endWithoutSlashes (value : Text) : ℕ :=
  trimSlashes value value.length

/-- The last slash before a position, or -1. -/
def lastSlash (value : Text) : ℕ → ℤ
  | 0 => -1
  | index + 1 => if value.getD index 0 = 0x2F then index else lastSlash value index

def slice (value : Text) (start stop : ℕ) : Text :=
  (value.take stop).drop start

/-- A letter that names a drive. -/
def IsDrive (drive : UInt8) : Prop :=
  (65 ≤ drive ∧ drive ≤ 90) ∨ (97 ≤ drive ∧ drive ≤ 122)

instance (drive : UInt8) : Decidable (IsDrive drive) :=
  inferInstanceAs (Decidable (_ ∨ _))

/-- A slash in front, or a drive with its slash. -/
def isAbsolute (value : Text) : Bool :=
  if value.isEmpty then false
  else if value.getD 0 0 = 0x2F then true
  else if value.length < 3 ∨ value.getD 1 0 ≠ 0x3A ∨ value.getD 2 0 ≠ 0x2F then false
  else decide (IsDrive (value.getD 0 0))

def baseName (value : Text) : Text :=
  if value.isEmpty then []
  else
    let stop := endWithoutSlashes value
    if stop = 0 then [0x2F]
    else slice value (lastSlash value stop + 1).toNat stop

/-- An absolute second path replaces the first. -/
def join (first second : Text) : Text :=
  if isAbsolute second then second
  else if first.isEmpty then second
  else if second.isEmpty then first
  else slice first 0 (endWithoutSlashes first) ++ 0x2F :: second

/-- The path up to the slash before its last name. -/
def parent (value : Text) : Text :=
  let stop := endWithoutSlashes value
  if stop = 0 then
    if value.isEmpty then [] else [0x2F]
  else
    let slash := lastSlash value stop
    if slash < 0 then []
    else if slash = 0 then [0x2F]
    else slice value 0 slash.toNat

def name (value : Text) : Text :=
  baseName value

/-- The turns of `extension`. -/
def extensionFrom (last : Text) : ℕ → Text
  | 0 => []
  | index + 1 =>
    if last.getD index 0 = 0x2E then
      if index = 0 then [] else slice last index last.length
    else extensionFrom last index

def extension (value : Text) : Text :=
  extensionFrom (baseName value) (baseName value).length

/-- The turns of `stem`. -/
def stemFrom (last : Text) : ℕ → Text
  | 0 => last
  | index + 1 =>
    if last.getD index 0 = 0x2E then
      if index = 0 then last else slice last 0 index
    else stemFrom last index

def stem (value : Text) : Text :=
  stemFrom (baseName value) (baseName value).length

theorem getD_length (p : Text) (b : UInt8) (rest : Text) :
    (p ++ b :: rest).getD p.length 0 = b := by
  rw [List.getD_eq_getElem?_getD, List.getElem?_append_right le_rfl, Nat.sub_self]
  rfl

/-- The slashes at the end of what is looked at are dropped. -/
theorem trimSlashes_spec (p rest : Text) :
    ∃ q n, p = q ++ List.replicate n 0x2F ∧ q.getLast? ≠ some 0x2F ∧
      trimSlashes (p ++ rest) p.length = q.length := by
  induction p using List.reverseRecOn generalizing rest with
  | nil => exact ⟨[], 0, rfl, by simp, rfl⟩
  | append_singleton p b ih =>
    have hstep : trimSlashes (p ++ [b] ++ rest) (p ++ [b]).length =
        if b = 0x2F then trimSlashes (p ++ b :: rest) p.length else p.length + 1 := by
      rw [List.append_assoc, List.singleton_append, List.length_append, List.length_singleton,
        trimSlashes, getD_length]
    rw [hstep]
    by_cases hslash : b = 0x2F
    · obtain ⟨q, n, rfl, hlast, htrim⟩ := ih (b :: rest)
      refine ⟨q, n + 1, ?_, hlast, ?_⟩
      · rw [hslash, List.append_assoc, List.replicate_succ']
      · rw [if_pos hslash, htrim]
    · refine ⟨p ++ [b], 0, by simp, ?_, ?_⟩
      · rw [List.getLast?_concat]
        exact fun h => hslash (Option.some.inj h)
      · rw [if_neg hslash, List.length_append, List.length_singleton]

theorem endWithoutSlashes_spec (p : Text) :
    ∃ q n, p = q ++ List.replicate n 0x2F ∧ q.getLast? ≠ some 0x2F ∧
      endWithoutSlashes p = q.length := by
  have h := trimSlashes_spec p []
  rwa [List.append_nil] at h

theorem lastSlash_spec (q rest : Text) :
    (0x2F ∉ q ∧ lastSlash (q ++ rest) q.length = -1) ∨
      ∃ x segment, q = x ++ 0x2F :: segment ∧ 0x2F ∉ segment ∧
        lastSlash (q ++ rest) q.length = x.length := by
  induction q using List.reverseRecOn generalizing rest with
  | nil => exact .inl ⟨by simp, rfl⟩
  | append_singleton q b ih =>
    have hstep : lastSlash (q ++ [b] ++ rest) (q ++ [b]).length =
        if b = 0x2F then (q.length : ℤ) else lastSlash (q ++ b :: rest) q.length := by
      rw [List.append_assoc, List.singleton_append, List.length_append, List.length_singleton,
        lastSlash, getD_length]
    rw [hstep]
    by_cases hslash : b = 0x2F
    · rw [if_pos hslash, hslash]
      exact .inr ⟨q, [], rfl, by simp, rfl⟩
    · rw [if_neg hslash]
      rcases ih (b :: rest) with ⟨hnot, hlast⟩ | ⟨x, segment, rfl, hnot, hlast⟩
      · refine .inl ⟨?_, hlast⟩
        rw [List.mem_append, List.mem_singleton]
        rintro (h | h)
        · exact hnot h
        · exact hslash h.symm
      · refine .inr ⟨x, segment ++ [b], by simp, ?_, hlast⟩
        rw [List.mem_append, List.mem_singleton]
        rintro (h | h)
        · exact hnot h
        · exact hslash h.symm

/-- The parent of a name behind `x` and a slash. -/
def directory (x : Text) : Text :=
  if x.isEmpty then [0x2F] else x

/-- How a path, its parent and its name are related. -/
inductive Shape : Text → Text → Text → Prop
  | empty : Shape [] [] []
  | root (n : ℕ) : Shape (List.replicate (n + 1) 0x2F) [0x2F] [0x2F]
  | single (segment : Text) (n : ℕ) : segment ≠ [] → 0x2F ∉ segment →
      Shape (segment ++ List.replicate n 0x2F) [] segment
  | inner (x segment : Text) (n : ℕ) : segment ≠ [] → 0x2F ∉ segment →
      Shape (x ++ 0x2F :: segment ++ List.replicate n 0x2F) (directory x) segment

theorem slice_middle (x y z : Text) :
    slice (x ++ y ++ z) x.length (x ++ y).length = y := by
  rw [slice, List.take_left, List.drop_left]

theorem slice_start (x y : Text) :
    slice (x ++ y) 0 x.length = x := by
  rw [slice, List.take_left, List.drop_zero]

/-- A path is a parent, the slashes behind it, and a name with slashes behind that. -/
theorem shape (p : Text) :
    Shape p (parent p) (name p) := by
  obtain ⟨q, n, hp, hlast, hstop⟩ := endWithoutSlashes_spec p
  rcases List.eq_nil_or_concat' q with rfl | ⟨q', b, rfl⟩
  · rw [List.nil_append] at hp
    rw [parent, name, baseName, hstop, hp]
    cases n with
    | zero => exact .empty
    | succ n => exact .root n
  · have hne : p.isEmpty = false := by
      rw [hp]
      simp
    have hb : b ≠ 0x2F := by
      rw [List.getLast?_concat] at hlast
      exact fun h => hlast (congrArg some h)
    rw [parent, name, baseName, hstop, hne]
    simp only [Bool.false_eq_true, if_false]
    have hpos : ¬ (q' ++ [b]).length = 0 := by
      rw [List.length_append, List.length_singleton]
      omega
    rw [if_neg hpos, if_neg hpos]
    rcases lastSlash_spec (q' ++ [b]) (List.replicate n 0x2F) with
      ⟨hnot, hslash⟩ | ⟨x, segment, hq, hnot, hslash⟩
    · rw [← hp] at hslash
      rw [hslash, if_pos (by decide), hp]
      have hslice := slice_start (q' ++ [b]) (List.replicate n 0x2F)
      have hzero : ((-1 : ℤ) + 1).toNat = 0 := rfl
      rw [hzero, hslice]
      exact .single _ n (by simp) hnot
    · have hsegment : segment ≠ [] := by
        rintro rfl
        have hend := congrArg List.getLast? hq
        rw [List.getLast?_concat, List.getLast?_concat] at hend
        exact hb (Option.some.inj hend)
      rw [← hp, hq] at hslash
      have hnext : ((x.length : ℤ) + 1).toNat = (x ++ [0x2F]).length := by
        rw [List.length_append, List.length_singleton]
        omega
      have hsplit : x ++ 0x2F :: segment = x ++ [0x2F] ++ segment := by
        rw [List.append_assoc, List.singleton_append]
      have hname : slice p (x ++ [0x2F]).length (x ++ 0x2F :: segment).length = segment := by
        rw [hp, hq, hsplit, slice_middle]
      have hparent : (if (x.length : ℤ) = 0 then [0x2F] else slice p 0 x.length) =
          directory x := by
        cases x with
        | nil => rfl
        | cons a x =>
          rw [if_neg (by rw [List.length_cons]; omega), hp, hq, List.append_assoc, slice_start]
          rfl
      rw [hq, hslash, hnext, hname, if_neg (by omega), Int.toNat_natCast, hparent, hp, hq]
      exact .inner x segment n hsegment hnot

theorem isAbsolute_iff (p : Text) :
    isAbsolute p = true ↔
      (∃ rest, p = 0x2F :: rest) ∨ ∃ drive rest, IsDrive drive ∧ p = drive :: 0x3A :: 0x2F :: rest := by
  rcases p with _ | ⟨a, _ | ⟨b, _ | ⟨c, rest⟩⟩⟩
  · simp [isAbsolute]
  · simp [isAbsolute]
  · simp [isAbsolute]
  · by_cases ha : a = 0x2F
    · simp [isAbsolute, ha]
    · by_cases hb : b = 0x3A
      · by_cases hc : c = 0x2F
        · simp [isAbsolute, ha, hb, hc]
        · simp [isAbsolute, ha, hb, hc]
      · simp [isAbsolute, ha, hb]

theorem not_isDrive_slash : ¬ IsDrive 0x2F := by
  decide

/-- Whether a path is absolute is decided before its second slash. -/
theorem isAbsolute_append_slash (x y z : Text) :
    isAbsolute (x ++ 0x2F :: y) = isAbsolute (x ++ 0x2F :: z) := by
  rw [Bool.eq_iff_iff, isAbsolute_iff, isAbsolute_iff]
  rcases x with _ | ⟨a, _ | ⟨b, _ | ⟨c, rest⟩⟩⟩
  · simp
  · simp
  · simp
  · simp

variable {p second segment : Text}

theorem isAbsolute_append (h : isAbsolute p = true) (rest : Text) :
    isAbsolute (p ++ rest) = true := by
  rw [isAbsolute_iff] at h ⊢
  rcases h with ⟨tail, rfl⟩ | ⟨drive, tail, hdrive, rfl⟩
  · exact .inl ⟨_, rfl⟩
  · exact .inr ⟨drive, _, hdrive, rfl⟩

theorem isAbsolute_segment (h : 0x2F ∉ segment) :
    isAbsolute segment = false := by
  rw [← Bool.not_eq_true, isAbsolute_iff]
  rintro (⟨rest, rfl⟩ | ⟨drive, rest, -, rfl⟩)
  · exact h List.mem_cons_self
  · exact h (by simp)

theorem join_empty (second : Text) :
    join [] second = second := by
  rw [join]
  split_ifs <;> simp_all

/-- One slash stands between a directory and a name. -/
theorem join_spec {first : Text} (hfirst : first ≠ []) (hsecond : second ≠ [])
    (hrel : isAbsolute second = false) :
    ∃ q n, first = q ++ List.replicate n 0x2F ∧ join first second = q ++ 0x2F :: second := by
  obtain ⟨q, n, hq, -, hstop⟩ := endWithoutSlashes_spec first
  refine ⟨q, n, hq, ?_⟩
  rw [join, hrel, hstop, if_neg (by decide), if_neg (by simpa using hfirst),
    if_neg (by simpa using hsecond)]
  conv_lhs => rw [hq]
  rw [slice_start]

theorem join_directory (x : Text) (hsecond : second ≠ []) (hrel : isAbsolute second = false) :
    ∃ q n, x = q ++ List.replicate n 0x2F ∧ join (directory x) second = q ++ 0x2F :: second := by
  cases x with
  | nil =>
    refine ⟨[], 0, rfl, ?_⟩
    rw [join, hrel, if_neg (by decide), if_neg (by decide), if_neg (by simpa using hsecond)]
    rfl
  | cons a x => exact join_spec (List.cons_ne_nil a x) hsecond hrel

theorem join_absolute {first : Text} (h : isAbsolute first = true ∨ isAbsolute second = true) :
    isAbsolute (join first second) = true := by
  cases hsecond : isAbsolute second with
  | true =>
    rw [join, if_pos hsecond]
    exact hsecond
  | false =>
    have hfirst : isAbsolute first = true := by
      rcases h with h | h
      · exact h
      · rw [hsecond] at h
        cases h
    have hne : first ≠ [] := by
      rintro rfl
      cases hfirst
    by_cases hempty : second = []
    · have hjoin : join first [] = first := by
        rw [join, if_neg (by decide), if_neg (by simpa using hne)]
        rfl
      rw [hempty, hjoin]
      exact hfirst
    · obtain ⟨q, n, hq, hjoin⟩ := join_spec hne hempty hsecond
      rw [hjoin]
      rw [hq] at hfirst
      cases n with
      | zero =>
        rw [List.replicate_zero, List.append_nil] at hfirst
        exact isAbsolute_append hfirst _
      | succ n =>
        rw [List.replicate_succ] at hfirst
        rw [isAbsolute_append_slash q second (List.replicate n 0x2F)]
        exact hfirst

def segments (path : Text) : List Text :=
  words 0x2F path

/-- The root of a drive, such as `C:/`. -/
def IsDriveRoot (path : Text) : Prop :=
  ∃ drive n, IsDrive drive ∧ path = drive :: 0x3A :: List.replicate (n + 1) 0x2F

theorem isDriveRoot_absolute {path : Text} (h : IsDriveRoot path) :
    isAbsolute path = true := by
  obtain ⟨drive, n, hdrive, rfl⟩ := h
  exact (isAbsolute_iff _).mpr (.inr ⟨drive, _, hdrive, rfl⟩)

theorem single_absolute_iff (hne : segment ≠ []) (h : 0x2F ∉ segment) (n : ℕ) :
    isAbsolute (segment ++ List.replicate n 0x2F) = true ↔
      IsDriveRoot (segment ++ List.replicate n 0x2F) := by
  refine ⟨fun habs => ?_, isDriveRoot_absolute⟩
  rw [isAbsolute_iff] at habs
  rcases segment with _ | ⟨a, _ | ⟨b, _ | ⟨c, rest⟩⟩⟩
  · exact absurd rfl hne
  · cases n with
    | zero => simp_all
    | succ n => simp_all [List.replicate_succ]
  · cases n with
    | zero => simp_all
    | succ n =>
      obtain ⟨rest, hrest⟩ | ⟨drive, rest, hdrive, hrest⟩ := habs
      · simp_all
      · rw [List.cons_append, List.cons_append, List.nil_append, List.replicate_succ] at hrest
        injection hrest with ha hrest
        injection hrest with hb hrest
        exact ⟨drive, n, hdrive, by rw [ha, hb]; rfl⟩
  · rw [List.mem_cons, List.mem_cons, List.mem_cons, not_or, not_or, not_or] at h
    obtain ⟨tail, htail⟩ | ⟨drive, tail, -, htail⟩ := habs
    · injection htail with ha
      exact absurd ha.symm h.1
    · injection htail with ha htail
      injection htail with hb htail
      injection htail with hc
      exact absurd hc.symm h.2.2.1

/-- A segment behind a slash is no drive. -/
theorem not_isDriveRoot_inner {x : Text} (hne : segment ≠ []) (h : 0x2F ∉ segment) (n : ℕ) :
    ¬ IsDriveRoot (x ++ 0x2F :: segment ++ List.replicate n 0x2F) := by
  rintro ⟨drive, m, hdrive, hpath⟩
  rcases x with _ | ⟨a, _ | ⟨b, rest⟩⟩
  · injection hpath with ha
    rw [← ha] at hdrive
    exact not_isDrive_slash hdrive
  · injection hpath with ha hpath
    injection hpath with hb
    exact absurd hb (by decide)
  · injection hpath with ha hpath
    injection hpath with hb hpath
    obtain ⟨c, hc⟩ := List.exists_mem_of_ne_nil segment hne
    have hmem : c ∈ List.replicate (m + 1) (0x2F : UInt8) := by
      rw [← hpath]
      simp [hc]
    rw [List.eq_of_mem_replicate hmem] at hc
    exact h hc

/-- The parent and the name join to the same path, but for the root of a drive. -/
theorem join_shape {directory last : Text} (h : Shape p directory last) :
    segments (join directory last) = segments p ∧
      (isAbsolute (join directory last) = isAbsolute p ↔ ¬ IsDriveRoot p) := by
  rw [segments, segments]
  cases h with
  | empty =>
    refine ⟨rfl, iff_of_true rfl ?_⟩
    rintro ⟨drive, n, -, hnil⟩
    cases hnil
  | root n =>
    have hjoin : join [0x2F] [0x2F] = [0x2F] := rfl
    refine ⟨?_, iff_of_true ?_ ?_⟩
    · rw [hjoin, ← List.nil_append (List.replicate (n + 1) (0x2F : UInt8)),
        words_append_replicate]
      rfl
    · rw [hjoin, List.replicate_succ]
      exact isAbsolute_append_slash [] [] _
    · rintro ⟨drive, m, hdrive, hpath⟩
      injection hpath with ha
      rw [← ha] at hdrive
      exact not_isDrive_slash hdrive
  | single segment n hne hnot =>
    rw [join_empty, words_append_replicate, isAbsolute_segment hnot,
      ← single_absolute_iff hne hnot n, Bool.not_eq_true]
    exact ⟨rfl, eq_comm⟩
  | inner x segment n hne hnot =>
    obtain ⟨q, m, rfl, hjoin⟩ := join_directory x hne (isAbsolute_segment hnot)
    refine ⟨?_, iff_of_true ?_ (not_isDriveRoot_inner hne hnot n)⟩
    · rw [hjoin, words_append_sep, words_append_replicate, words_append_sep,
        words_append_replicate]
    · rw [hjoin, List.append_assoc, List.cons_append]
      cases m with
      | zero =>
        rw [List.replicate_zero, List.append_nil]
        exact isAbsolute_append_slash _ _ _
      | succ m =>
        rw [List.replicate_succ, List.append_assoc]
        exact isAbsolute_append_slash _ _ _

theorem stemFrom_append_extensionFrom {last : Text} {index : ℕ} (h : index ≤ last.length) :
    stemFrom last index ++ extensionFrom last index = last := by
  induction index with
  | zero => exact List.append_nil last
  | succ index ih =>
    rw [stemFrom, extensionFrom]
    split_ifs with hdot hzero
    · exact List.append_nil last
    · rw [slice, slice, List.drop_zero, List.take_length, List.take_append_drop]
    · exact ih (Nat.le_of_succ_le h)

theorem stem_append_extension (p : Text) :
    stem p ++ extension p = name p :=
  stemFrom_append_extensionFrom le_rfl

theorem name_slash {directory last : Text} (h : Shape p directory last) (hslash : 0x2F ∈ last) :
    ∀ b ∈ p, b = 0x2F := by
  cases h with
  | empty => exact absurd hslash List.not_mem_nil
  | root n => exact fun b hb => List.eq_of_mem_replicate hb
  | single segment n hne hnot => exact absurd hslash hnot
  | inner x segment n hne hnot => exact absurd hslash hnot

/-- A parent is shorter, unless the walk has ended. -/
theorem parent_shorter {directory last : Text} (h : Shape p directory last) :
    directory = p ∨ directory.length < p.length := by
  cases h with
  | empty => exact .inl rfl
  | root n =>
    cases n with
    | zero => exact .inl rfl
    | succ n =>
      right
      rw [List.length_replicate, List.length_singleton]
      omega
  | single segment n hne hnot =>
    right
    have hpos := List.length_pos_of_ne_nil hne
    rw [List.length_append, List.length_nil]
    omega
  | inner x segment n hne hnot =>
    right
    have hpos := List.length_pos_of_ne_nil hne
    cases x with
    | nil =>
      rw [List.length_append, List.nil_append, List.length_cons]
      exact (by omega : 1 < last.length + 1 + (List.replicate n (0x2F : UInt8)).length)
    | cons a x =>
      rw [List.append_assoc, List.length_append]
      exact Nat.lt_add_of_pos_right (Nat.succ_pos _)

theorem parent_fixed (p : Text) :
    ∃ n, parent (parent^[n] p) = parent^[n] p := by
  induction hlen : p.length using Nat.strong_induction_on generalizing p with
  | _ len ih =>
    rcases parent_shorter (shape p) with hfixed | hshorter
    · exact ⟨0, hfixed⟩
    · obtain ⟨n, hn⟩ := ih _ (hlen ▸ hshorter) (parent p) rfl
      exact ⟨n + 1, hn⟩

/-- What taking a path apart keeps. -/
structure Decomposes (p : Text) : Prop where
  segments_eq : segments (join (parent p) (name p)) = segments p
  absolute_eq : isAbsolute (join (parent p) (name p)) = isAbsolute p
  stem_extension : stem p ++ extension p = name p
  name_noSlash : 0x2F ∈ name p → ∀ b ∈ p, b = 0x2F
  parent_ends : ∃ n, parent (parent^[n] p) = parent^[n] p

/-- Every path but the root of a drive is taken apart without changing it. -/
theorem decomposes_iff (p : Text) :
    (Decomposes p ↔ ¬ IsDriveRoot p) ∧
    ∀ first second, isAbsolute first = true ∨ isAbsolute second = true →
      isAbsolute (join first second) = true := by
  refine ⟨?_, fun first second => join_absolute⟩
  obtain ⟨hsegments, habsolute⟩ := join_shape (shape p)
  refine ⟨fun h => habsolute.mp h.absolute_eq, fun h => ?_⟩
  exact ⟨hsegments, habsolute.mpr h, stem_append_extension p, name_slash (shape p),
    parent_fixed p⟩

/-- The parent `""` and the name `C:` of `C:/` join to `C:`, which is not absolute. -/
theorem drive_root_lost : ¬ Decomposes (ascii "C:/") := by
  intro h
  have habsolute : isAbsolute (join (parent (ascii "C:/")) (name (ascii "C:/"))) = false := by
    decide
  rw [h.absolute_eq] at habsolute
  exact absurd habsolute (by decide)

end Path
end Beans
