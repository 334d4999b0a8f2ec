import Beans.Runtime.Text

/-!
# Splitting and building a command line

The documented rules of the C runtime of Microsoft.  Blanks outside of quotes
separate arguments.  Backslashes stand for themselves unless a quote follows; then
every two of them are one backslash, and one left over makes the quote stand for
itself.  In the name of the program no backslash is special.

Windows hands a process one line, which its runtime splits again.  An argument that
needs it is put between quotes, with the backslashes doubled that a quote follows,
so that what the line is split into is the list it was built from.

**Results.**
* `cmdline_round_trip`: for the name of a program and any arguments, the empty one among them;
  the line fits the buffer it is written to.
-/

namespace Beans
namespace Process

def backslash : UInt8 := 0x5C

def quote : UInt8 := 0x22

def space : UInt8 := 0x20

def IsBlank (b : UInt8) : Prop :=
  b = space ∨ b = 0x09

instance (b : UInt8) : Decidable (IsBlank b) :=
  inferInstanceAs (Decidable (_ ∨ _))

def slashes (n : ℕ) : Text :=
  List.replicate n backslash

/-- The argument that ends here, if one has begun, with the backslashes still held back. -/
def finish (held : ℕ) (current : Option Text) : List Text :=
  match current with
  | none => []
  | some argument => [argument ++ slashes held]

/-- Splits a line, inside of quotes or not, with `held` backslashes read whose meaning
depends on what follows and with the argument that has begun. -/
def arguments (quoted : Bool) (held : ℕ) (current : Option Text) : Text → List Text
  | [] => finish held current
  | b :: line =>
    if b = backslash then arguments quoted (held + 1) (some (current.getD [])) line
    else if b = quote then
      if held % 2 = 0 then
        arguments (!quoted) 0 (some (current.getD [] ++ slashes (held / 2))) line
      else arguments quoted 0 (some (current.getD [] ++ slashes (held / 2) ++ [quote])) line
    else if IsBlank b ∧ quoted = false then finish held current ++ arguments false 0 none line
    else arguments quoted 0 (some (current.getD [] ++ slashes held ++ [b])) line

/-- The name of the program and what follows it. -/
def programName (quoted : Bool) (name : Text) : Text → Text × Text
  | [] => (name, [])
  | b :: line =>
    if b = quote then programName (!quoted) name line
    else if IsBlank b ∧ quoted = false then (name, line)
    else programName quoted (name ++ [b]) line

def splitLine (line : Text) : List Text :=
  let program := programName false [] line
  program.1 :: arguments false 0 none program.2

section OneByte

variable {quoted : Bool} {held : ℕ} {current : Option Text} {b : UInt8} {line name : Text}

theorem quote_ne_backslash : quote ≠ backslash := by
  decide

theorem space_ne_backslash : space ≠ backslash := by
  decide

theorem space_ne_quote : space ≠ quote := by
  decide

theorem arguments_backslash :
    arguments quoted held current (backslash :: line) =
      arguments quoted (held + 1) (some (current.getD [])) line :=
  if_pos rfl

theorem arguments_delimiter (h : held % 2 = 0) :
    arguments quoted held current (quote :: line) =
      arguments (!quoted) 0 (some (current.getD [] ++ slashes (held / 2))) line :=
  (if_neg quote_ne_backslash).trans ((if_pos rfl).trans (if_pos h))

theorem arguments_quote (h : held % 2 = 1) :
    arguments quoted held current (quote :: line) =
      arguments quoted 0 (some (current.getD [] ++ slashes (held / 2) ++ [quote])) line :=
  (if_neg quote_ne_backslash).trans ((if_pos rfl).trans (if_neg (by omega)))

theorem arguments_space :
    arguments false held current (space :: line) =
      finish held current ++ arguments false 0 none line :=
  (if_neg space_ne_backslash).trans ((if_neg space_ne_quote).trans (if_pos ⟨.inl rfl, rfl⟩))

theorem arguments_plain (hslash : b ≠ backslash) (hquote : b ≠ quote)
    (hblank : ¬ (IsBlank b ∧ quoted = false)) :
    arguments quoted held current (b :: line) =
      arguments quoted 0 (some (current.getD [] ++ slashes held ++ [b])) line :=
  (if_neg hslash).trans ((if_neg hquote).trans (if_neg hblank))

theorem programName_quote :
    programName quoted name (quote :: line) = programName (!quoted) name line :=
  if_pos rfl

theorem programName_space :
    programName false name (space :: line) = (name, line) :=
  (if_neg space_ne_quote).trans (if_pos ⟨.inl rfl, rfl⟩)

theorem programName_plain (hquote : b ≠ quote) (hblank : ¬ (IsBlank b ∧ quoted = false)) :
    programName quoted name (b :: line) = programName quoted (name ++ [b]) line :=
  (if_neg hquote).trans (if_neg hblank)

end OneByte

@[simp] theorem slashes_zero : slashes 0 = [] :=
  rfl

theorem slashes_succ (n : ℕ) (line : Text) :
    slashes n ++ backslash :: line = slashes (n + 1) ++ line := by
  rw [slashes, slashes, List.replicate_succ', List.append_assoc]
  rfl

/-- Backslashes are held back. -/
theorem arguments_slashes (quoted : Bool) (held n : ℕ) (argument line : Text) :
    arguments quoted held (some argument) (slashes n ++ line) =
      arguments quoted (held + n) (some argument) line := by
  induction n generalizing held with
  | zero => rfl
  | succ n ih =>
    rw [slashes, List.replicate_succ, List.cons_append, arguments_backslash]
    exact (ih (held + 1)).trans (by rw [Nat.add_right_comm, Nat.add_assoc])

/-- An argument begins with what is no blank. -/
theorem arguments_begin {b : UInt8} (h : ¬ IsBlank b) (line : Text) :
    arguments false 0 none (b :: line) = arguments false 0 (some []) (b :: line) := by
  by_cases hslash : b = backslash
  · rw [hslash, arguments_backslash, arguments_backslash]
    rfl
  · by_cases hquote : b = quote
    · rw [hquote, arguments_delimiter rfl, arguments_delimiter rfl]
      rfl
    · rw [arguments_plain hslash hquote fun hb => h hb.1,
        arguments_plain hslash hquote fun hb => h hb.1]
      rfl

variable {text : Text}

/-- Without quotes and blanks an argument stands for itself. -/
theorem arguments_bare (h : ∀ b ∈ text, b ≠ quote ∧ ¬ IsBlank b) (held : ℕ) (argument : Text) :
    ∃ held' argument', argument' ++ slashes held' = argument ++ slashes held ++ text ∧
      ∀ line, arguments false held (some argument) (text ++ line) =
        arguments false held' (some argument') line := by
  induction text generalizing held argument with
  | nil => exact ⟨held, argument, (List.append_nil _).symm, fun _ => rfl⟩
  | cons b text ih =>
    rw [List.forall_mem_cons] at h
    obtain ⟨⟨hquote, hblank⟩, hrest⟩ := h
    by_cases hslash : b = backslash
    · obtain ⟨held', argument', hread, hline⟩ := ih hrest (held + 1) argument
      refine ⟨held', argument', ?_, fun line => ?_⟩
      · rw [hread, hslash, List.append_assoc, List.append_assoc, ← slashes_succ]
      · rw [hslash, List.cons_append, arguments_backslash]
        exact hline line
    · obtain ⟨held', argument', hread, hline⟩ := ih hrest 0 (argument ++ slashes held ++ [b])
      refine ⟨held', argument', ?_, fun line => ?_⟩
      · rw [hread, slashes_zero, List.append_nil, List.append_assoc, List.singleton_append]
      · rw [List.cons_append, arguments_plain hslash hquote fun hb => hblank hb.1]
        exact hline line

theorem programName_bare (h : ∀ b ∈ text, b ≠ quote ∧ ¬ IsBlank b) (name line : Text) :
    programName false name (text ++ line) = programName false (name ++ text) line := by
  induction text generalizing name with
  | nil => rw [List.nil_append, List.append_nil]
  | cons b text ih =>
    rw [List.forall_mem_cons] at h
    rw [List.cons_append, programName_plain h.1.1 fun hb => h.1.2 hb.1, ih h.2,
      List.append_assoc, List.singleton_append]

/-- Between quotes a name without quotes stands for itself. -/
theorem programName_quoted (h : quote ∉ text) (name line : Text) :
    programName true name (text ++ line) = programName true (name ++ text) line := by
  induction text generalizing name with
  | nil => rw [List.nil_append, List.append_nil]
  | cons b text ih =>
    rw [List.mem_cons, not_or] at h
    rw [List.cons_append, programName_plain (Ne.symm h.1) fun hb => Bool.noConfusion hb.2, ih h.2,
      List.append_assoc, List.singleton_append]

/-- A string of C: no byte of it is the one that ends it. -/
abbrev CString := { text : Text // 0 ∉ text }

/-- The bytes that `strpbrk` looks for. -/
def IsSpecial (b : UInt8) : Prop :=
  b = space ∨ b = 0x09 ∨ b = 0x0A ∨ b = 0x0B ∨ b = quote

instance (b : UInt8) : Decidable (IsSpecial b) :=
  inferInstanceAs (Decidable (_ ∨ _))

def NeedsQuotes (arg : Text) : Prop :=
  arg = [] ∨ ∃ b ∈ arg, IsSpecial b

instance (arg : Text) : Decidable (NeedsQuotes arg) :=
  inferInstanceAs (Decidable (_ ∨ _))

/-- The loop over a quoted argument, after some backslashes. -/
def escape (count : ℕ) : Text → Text
  | [] => slashes (count * 2)
  | b :: p =>
    if b = backslash then escape (count + 1) p
    else if b = quote then slashes (count * 2 + 1) ++ quote :: escape 0 p
    else slashes count ++ b :: escape 0 p

def written (arg : Text) : Text :=
  if NeedsQuotes arg then quote :: (escape 0 arg ++ [quote]) else arg

/-- The arguments from the `i`-th on. -/
def cmdlineFrom (i : ℕ) : List CString → Text
  | [] => []
  | arg :: argv => (if i ≠ 0 then [space] else []) ++ written arg.val ++ cmdlineFrom (i + 1) argv

def procWinCmdline (argv : List CString) : Text :=
  cmdlineFrom 0 argv

/-- The bytes allocated for the line and its end. -/
def need (argv : List CString) : ℕ :=
  1 + (argv.map fun arg => arg.val.length * 2 + 4).sum

section Escape

variable {count : ℕ} {b : UInt8} {p : Text}

theorem escape_backslash :
    escape count (backslash :: p) = escape (count + 1) p :=
  if_pos rfl

theorem escape_quote :
    escape count (quote :: p) = slashes (count * 2 + 1) ++ quote :: escape 0 p :=
  (if_neg quote_ne_backslash).trans (if_pos rfl)

theorem escape_plain (hslash : b ≠ backslash) (hquote : b ≠ quote) :
    escape count (b :: p) = slashes count ++ b :: escape 0 p :=
  (if_neg hslash).trans (if_neg hquote)

end Escape

/-- What is escaped, up to the quote that closes it. -/
theorem arguments_escape (text : Text) (count : ℕ) (argument line : Text) :
    arguments true 0 (some argument) (escape count text ++ quote :: line) =
      arguments false 0 (some (argument ++ slashes count ++ text)) line := by
  induction text generalizing count argument with
  | nil =>
    rw [escape, arguments_slashes, Nat.zero_add, arguments_delimiter (Nat.mul_mod_left count 2),
      Nat.mul_div_cancel _ (by decide), List.append_nil]
    rfl
  | cons b text ih =>
    by_cases hslash : b = backslash
    · rw [hslash, escape_backslash, ih, List.append_assoc, List.append_assoc, slashes_succ]
    · by_cases hquote : b = quote
      · have hhalf : (count * 2 + 1) / 2 = count := by omega
        rw [hquote, escape_quote, List.append_assoc, List.cons_append, arguments_slashes,
          Nat.zero_add, arguments_quote (by omega), hhalf, ih]
        rw [Option.getD_some, slashes_zero, List.append_nil, List.append_assoc _ [quote],
          List.singleton_append]
      · rw [escape_plain hslash hquote, List.append_assoc, List.cons_append, arguments_slashes,
          Nat.zero_add, arguments_plain hslash hquote fun hb => Bool.noConfusion hb.2, ih]
        rw [Option.getD_some, slashes_zero, List.append_nil, List.append_assoc _ [b],
          List.singleton_append]

theorem not_special {arg : Text} (h : ¬ NeedsQuotes arg) :
    ∀ b ∈ arg, b ≠ quote ∧ ¬ IsBlank b := by
  intro b hb
  have hspecial : ¬ IsSpecial b := fun hs => h (.inr ⟨b, hb, hs⟩)
  refine ⟨fun hquote => hspecial ?_, fun hblank => hspecial ?_⟩
  · exact .inr (.inr (.inr (.inr hquote)))
  · rcases hblank with hspace | htab
    · exact .inl hspace
    · exact .inr (.inl htab)

/-- A written argument is read as itself. -/
theorem arguments_written (arg : Text) :
    ∃ held argument, argument ++ slashes held = arg ∧
      ∀ line, arguments false 0 none (written arg ++ line) =
        arguments false held (some argument) line := by
  rw [written]
  split_ifs with hneeds
  · refine ⟨0, arg, List.append_nil arg, fun line => ?_⟩
    rw [List.cons_append, List.append_assoc, List.singleton_append, arguments_delimiter rfl]
    exact arguments_escape arg 0 [] line
  · obtain ⟨held, argument, hread, hline⟩ := arguments_bare (not_special hneeds) 0 []
    refine ⟨held, argument, hread, fun line => ?_⟩
    cases arg with
    | nil => exact absurd (.inl rfl) hneeds
    | cons b arg =>
      rw [← hline line, List.cons_append]
      exact arguments_begin (not_special hneeds b List.mem_cons_self).2 _

theorem arguments_cmdlineFrom (argv : List CString) (i held : ℕ) (current : Option Text) :
    arguments false held current (cmdlineFrom (i + 1) argv) =
      finish held current ++ argv.map Subtype.val := by
  induction argv generalizing i held current with
  | nil => exact (List.append_nil _).symm
  | cons arg argv ih =>
    obtain ⟨held', argument, hread, hline⟩ := arguments_written arg.val
    rw [cmdlineFrom, if_pos (Nat.succ_ne_zero i), List.append_assoc, List.singleton_append,
      arguments_space, hline, ih, finish, hread]
    rfl

/-- A name that ends in no backslash and has no quote is not changed by escaping. -/
theorem escape_eq (hquote : quote ∉ text) (count : ℕ)
    (hlast : (slashes count ++ text).getLast? ≠ some backslash) :
    escape count text = slashes count ++ text := by
  induction text generalizing count with
  | nil =>
    cases count with
    | zero => rfl
    | succ count =>
      rw [List.append_nil, slashes, List.replicate_succ', List.getLast?_concat] at hlast
      exact absurd rfl hlast
  | cons b text ih =>
    rw [List.mem_cons, not_or] at hquote
    by_cases hslash : b = backslash
    · rw [hslash] at hlast ⊢
      rw [slashes_succ] at hlast ⊢
      rw [escape_backslash]
      exact ih hquote.2 (count + 1) hlast
    · rw [escape_plain hslash (Ne.symm hquote.1)]
      have hrest : escape 0 text = text := by
        cases text with
        | nil => rfl
        | cons c text =>
          refine ih hquote.2 0 fun h => hlast ?_
          rw [slashes_zero, List.nil_append] at h
          rw [List.getLast?_append, List.getLast?_cons_cons, h]
          rfl
      rw [hrest]

/-- What the first argument must be to be read as the name of the program. -/
structure IsProgram (first : Text) : Prop where
  noQuote : quote ∉ first
  noBackslash : NeedsQuotes first → first.getLast? ≠ some backslash

theorem programName_written {first : Text} (h : IsProgram first) (line : Text) :
    programName false [] (written first ++ line) = programName false first line := by
  rw [written]
  split_ifs with hneeds
  · have hescape : escape 0 first = first := escape_eq h.noQuote 0 (h.noBackslash hneeds)
    rw [hescape, List.cons_append, List.append_assoc, List.singleton_append, programName_quote,
      Bool.not_false, programName_quoted h.noQuote, programName_quote]
    rfl
  · exact programName_bare (not_special hneeds) [] line

theorem length_slashes (n : ℕ) :
    (slashes n).length = n :=
  List.length_replicate

theorem length_escape_le (text : Text) (count : ℕ) :
    (escape count text).length ≤ (count + text.length) * 2 := by
  induction text generalizing count with
  | nil =>
    rw [escape, length_slashes]
    exact le_rfl
  | cons b text ih =>
    rw [List.length_cons]
    by_cases hslash : b = backslash
    · have hrest := ih (count + 1)
      rw [hslash, escape_backslash]
      omega
    · have hrest := ih 0
      by_cases hquote : b = quote
      · rw [hquote, escape_quote, List.length_append, List.length_cons, length_slashes]
        omega
      · rw [escape_plain hslash hquote, List.length_append, List.length_cons, length_slashes]
        omega

theorem length_written_le (arg : Text) :
    (written arg).length ≤ arg.length * 2 + 2 := by
  rw [written]
  split_ifs
  · have hescape := length_escape_le arg 0
    rw [List.length_cons, List.length_append, List.length_singleton]
    omega
  · omega

theorem length_cmdlineFrom_le (argv : List CString) (i : ℕ) :
    (cmdlineFrom i argv).length + 1 ≤ need argv := by
  induction argv generalizing i with
  | nil => exact le_rfl
  | cons arg argv ih =>
    have hrest := ih (i + 1)
    have hwritten := length_written_le arg.val
    have hblank : (if i ≠ 0 then [space] else []).length ≤ 1 := by
      split_ifs <;> simp
    rw [need] at hrest
    rw [cmdlineFrom, need, List.map_cons, List.sum_cons, List.length_append, List.length_append]
    omega

theorem zero_notMem_slashes (n : ℕ) :
    0 ∉ slashes n := by
  rw [slashes, List.mem_replicate]
  exact fun h => absurd h.2 (by decide)

theorem zero_notMem_escape (h : 0 ∉ text) (count : ℕ) :
    0 ∉ escape count text := by
  induction text generalizing count with
  | nil => exact zero_notMem_slashes _
  | cons b text ih =>
    rw [List.mem_cons, not_or] at h
    by_cases hslash : b = backslash
    · rw [hslash, escape_backslash]
      exact ih h.2 _
    · by_cases hquote : b = quote
      · rw [hquote, escape_quote, List.mem_append, List.mem_cons, not_or, not_or]
        exact ⟨zero_notMem_slashes _, by decide, ih h.2 0⟩
      · rw [escape_plain hslash hquote, List.mem_append, List.mem_cons, not_or, not_or]
        exact ⟨zero_notMem_slashes _, h.1, ih h.2 0⟩

theorem zero_notMem_cmdlineFrom (argv : List CString) (i : ℕ) :
    0 ∉ cmdlineFrom i argv := by
  induction argv generalizing i with
  | nil => exact List.not_mem_nil
  | cons arg argv ih =>
    have hwritten : 0 ∉ written arg.val := by
      rw [written]
      split_ifs
      · rw [List.mem_cons, List.mem_append, List.mem_singleton, not_or, not_or]
        exact ⟨by decide, zero_notMem_escape arg.property 0, by decide⟩
      · exact arg.property
    have hblank : 0 ∉ (if i ≠ 0 then [space] else []) := by
      split_ifs
      · decide
      · exact List.not_mem_nil
    rw [cmdlineFrom, List.mem_append, List.mem_append, not_or, not_or]
    exact ⟨⟨hblank, hwritten⟩, ih (i + 1)⟩

/-- The line is split into the arguments it was built from, fits where it is written and
holds no byte that would end it early. -/
theorem cmdline_round_trip
    (first : CString)
    (rest : List CString)
    (h : IsProgram first.val) :
    splitLine (procWinCmdline (first :: rest)) = (first :: rest).map Subtype.val ∧
      (procWinCmdline (first :: rest)).length + 1 ≤ need (first :: rest) ∧
      0 ∉ procWinCmdline (first :: rest) := by
  refine ⟨?_, length_cmdlineFrom_le _ 0, zero_notMem_cmdlineFrom _ 0⟩
  have hprogram := programName_written h (cmdlineFrom 1 rest)
  rw [procWinCmdline, cmdlineFrom, if_neg (by simp), List.nil_append, splitLine, hprogram,
    List.map_cons]
  cases rest with
  | nil => rfl
  | cons arg argv =>
    have hrest := arguments_cmdlineFrom (arg :: argv) 0 0 none
    have hcons : cmdlineFrom 1 (arg :: argv) =
        space :: (written arg.val ++ cmdlineFrom 2 argv) := by
      rw [cmdlineFrom, if_pos (by decide), List.append_assoc, List.singleton_append]
    rw [hcons, arguments_space] at hrest
    rw [hcons, programName_space]
    exact congrArg (first.val :: ·) hrest

/-- A program with a blank in its path and arguments with quotes and backslashes. -/
theorem cmdline_round_trip_quoted :
    splitLine (procWinCmdline [⟨ascii "a b", by decide⟩, ⟨ascii "\\\"c\\", by decide⟩,
        ⟨[], by decide⟩]) = [ascii "a b", ascii "\\\"c\\", []] ∧
      (procWinCmdline [⟨ascii "a b", by decide⟩, ⟨ascii "\\\"c\\", by decide⟩,
        ⟨[], by decide⟩]).length + 1 ≤ 27 ∧
      0 ∉ procWinCmdline [⟨ascii "a b", by decide⟩, ⟨ascii "\\\"c\\", by decide⟩,
        ⟨[], by decide⟩] :=
  cmdline_round_trip ⟨ascii "a b", by decide⟩
    [⟨ascii "\\\"c\\", by decide⟩, ⟨[], by decide⟩] ⟨by decide, fun _ => by decide⟩

end Process
end Beans
