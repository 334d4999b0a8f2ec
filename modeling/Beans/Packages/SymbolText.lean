import Beans.Runtime.Text
import Beans.Foundation.SelfDelimiting

/-!
# Names of declarations

A canonical name is the package a declaration stands in, two colons, and its own
name; a builtin name stands alone.  For a person the colons become a dot.  For the
linker they become a dollar sign, and bytes no linker takes are escaped.

The dollar sign of a linker name both separates and escapes, so a name that begins
with a letter of an escape can be mistaken for one.  Where that happens, the rest of
the key gives it away: nothing an escape ends with can follow an identifier.

**Results.**
* `symbol_text`: keys with one linker name are one key, and no linker name has a byte that a
  linker refuses.
-/

namespace Beans
namespace Packages

/-- `text.find(piece)`. -/
def find (piece : Text) : Text → Option ℕ
  | [] => if piece.isPrefixOf [] then some 0 else none
  | byte :: rest =>
    if piece.isPrefixOf (byte :: rest) then some 0
    else (find piece rest).map (· + 1)

def packageSymbol (packageId name : Text) : Text :=
  packageId ++ ascii "::" ++ name

def symbolPackage (key : Text) : Text :=
  match find (ascii "::") key with
  | some cut => key.take cut
  | none => []

def symbolName (key : Text) : Text :=
  match find (ascii "::") key with
  | some cut => key.drop (cut + 2)
  | none => key

def displaySymbol (key : Text) : Text :=
  if symbolPackage key = [] then key
  else symbolPackage key ++ ascii "." ++ symbolName key

/-- Bytes that stand for themselves. -/
def plain (byte : UInt8) : Bool :=
  (97 ≤ byte && byte ≤ 122) || (65 ≤ byte && byte ≤ 90) || (48 ≤ byte && byte ≤ 57) ||
    byte == 95 || byte == 46

def symbolEscapeByte (byte : UInt8) : Text :=
  if plain byte then [byte]
  else if byte = 36 then ascii "$$"
  else if byte = 47 then ascii "$s"
  else if byte = 45 then ascii "$d"
  else ascii "$u" ++ Text.ofNat byte.toNat ++ ascii "."

def symbolEscape (text : Text) : Text :=
  text.flatMap symbolEscapeByte

def symbolText (key : Text) : Text :=
  match find (ascii "::") key with
  | some cut =>
    symbolEscape (key.take cut) ++ ascii "$" ++ symbolEscape (key.drop (cut + 2))
  | none => symbolEscape key

variable {front key name other packageId rest separator tail text : Text} {arguments : List Text}
  {b byte : UInt8}

theorem find_colons (h : (58 : UInt8) ∉ front) :
    find (ascii "::") (front ++ ascii "::" ++ rest) = some front.length := by
  induction front with
  | nil => rfl
  | cons byte front ih =>
    rw [List.mem_cons, not_or] at h
    have hno : (ascii "::").isPrefixOf (byte :: (front ++ ascii "::" ++ rest)) = false := by
      change ((58 : UInt8) == byte && _) = false
      rw [beq_eq_false_iff_ne.mpr h.1, Bool.false_and]
    rw [List.cons_append, List.cons_append, find, if_neg (by rw [hno]; decide), ih h.2]
    rfl

theorem find_colons_none (h : (58 : UInt8) ∉ text) :
    find (ascii "::") text = none := by
  induction text with
  | nil => rfl
  | cons byte text ih =>
    rw [List.mem_cons, not_or] at h
    have hno : (ascii "::").isPrefixOf (byte :: text) = false := by
      change ((58 : UInt8) == byte && _) = false
      rw [beq_eq_false_iff_ne.mpr h.1, Bool.false_and]
    rw [find, if_neg (by rw [hno]; decide), ih h.2]
    rfl

open SelfDelimiting

def isIdentifierStart (byte : UInt8) : Bool :=
  (97 ≤ byte && byte ≤ 122) || (65 ≤ byte && byte ≤ 90) || byte == 95

def isIdentifierByte (byte : UInt8) : Bool :=
  isIdentifierStart byte || (48 ≤ byte && byte ≤ 57)

def isPackageByte (byte : UInt8) : Bool :=
  isIdentifierByte byte || byte == 46 || byte == 45 || byte == 47 || byte == 36

structure IsIdentifier (name : Text) : Prop where
  start : ∃ first rest, name = first :: rest ∧ isIdentifierStart first = true
  all : ∀ byte ∈ name, isIdentifierByte byte = true

def IsPackageId (packageId : Text) : Prop :=
  ∀ byte ∈ packageId, isPackageByte byte = true

/-- A list of type arguments, as it is rendered. -/
def renderedArguments (separator : Text) (arguments : List Text) : Text :=
  ascii "<" ++ List.intercalate separator arguments ++ ascii ">"

/-- The names the compiler makes linker names of. -/
inductive CanonicalKey : Text → Prop
  | builtin (name : Text) :
      IsIdentifier name → CanonicalKey name
  | declared (packageId name : Text) :
      IsPackageId packageId → IsIdentifier name →
      CanonicalKey (packageSymbol packageId name)
  | builtinOf (name separator : Text) (arguments : List Text) :
      IsIdentifier name → separator = ascii "," ∨ separator = ascii ", " →
      (∀ argument ∈ arguments, CanonicalKey argument) →
      CanonicalKey (name ++ renderedArguments separator arguments)
  | declaredOf (packageId name separator : Text) (arguments : List Text) :
      IsPackageId packageId → IsIdentifier name →
      separator = ascii "," ∨ separator = ascii ", " →
      (∀ argument ∈ arguments, CanonicalKey argument) →
      CanonicalKey (packageSymbol packageId name ++ renderedArguments separator arguments)

/-- What a list of arguments is written with beside its arguments. -/
def isListByte (byte : UInt8) : Bool :=
  byte == 60 || byte == 62 || byte == 44 || byte == 32

/-- Identifiers and the marks of lists. -/
def Flat (text : Text) : Prop :=
  ∀ byte ∈ text, isIdentifierByte byte = true ∨ isListByte byte = true

/-- An identifier ends here. -/
def Stops (text : Text) : Prop :=
  ∀ byte ∈ text.head?, isListByte byte = true

/-- A text with the first colons of a key. -/
structure Cut (text : Text) where
  front : Text
  packageId : Text
  name : Text
  tail : Text
  eq : text = front ++ packageId ++ ascii "::" ++ (name ++ tail)
  flat : Flat front
  package : IsPackageId packageId
  identifier : IsIdentifier name
  stops : Stops tail

def Shape (text : Text) : Prop :=
  Flat text ∨ Nonempty (Cut text)

theorem flat_of_all
    (h : text.all (fun byte => isIdentifierByte byte || isListByte byte) = true) :
    Flat text :=
  fun byte hbyte => (Bool.or_eq_true _ _).mp (List.all_eq_true.mp h byte hbyte)

theorem stops_cons {byte : UInt8} (h : isListByte byte = true) (rest : Text) :
    Stops (byte :: rest) := by
  intro first hfirst
  rwa [← Option.some.inj hfirst]

theorem Flat.append {text other : Text} (h : Flat text) (h' : Flat other) :
    Flat (text ++ other) := by
  intro byte hbyte
  rcases List.mem_append.mp hbyte with hin | hin
  · exact h byte hin
  · exact h' byte hin

theorem IsIdentifier.flat (h : IsIdentifier name) :
    Flat name :=
  fun byte hbyte => .inl (h.all byte hbyte)

theorem Stops.append {tail more : Text} (h : Stops tail) (h' : Stops more) :
    Stops (tail ++ more) := by
  cases tail with
  | nil => exact h'
  | cons byte tail => exact h

theorem Flat.append_shape (h : Flat text) (h' : Shape other) :
    Shape (text ++ other) := by
  rcases h' with hflat | ⟨⟨cut⟩⟩
  · exact .inl (h.append hflat)
  · refine .inr (.intro { cut with front := text ++ cut.front, eq := ?_, flat := h.append cut.flat })
    simp only [cut.eq, List.append_assoc]

theorem Shape.append {text more : Text} (h : Shape text) (hstops : Stops more)
    (hmore : Shape more) :
    Shape (text ++ more) := by
  rcases h with hflat | ⟨⟨cut⟩⟩
  · exact hflat.append_shape hmore
  · refine .inr (.intro { cut with tail := cut.tail ++ more, eq := ?_, stops := cut.stops.append hstops })
    simp only [cut.eq, List.append_assoc]

theorem Shape.declared (hpackage : IsPackageId packageId) (hname : IsIdentifier name) :
    Shape (packageSymbol packageId name) :=
  .inr ⟨{ front := [], packageId, name, tail := []
          eq := by rw [packageSymbol, List.append_nil, List.nil_append]
          flat := fun byte hbyte => absurd hbyte List.not_mem_nil
          package := hpackage
          identifier := hname
          stops := fun byte hbyte => absurd hbyte (by simp) }⟩

theorem flat_separator (h : separator = ascii "," ∨ separator = ascii ", ") :
    Flat separator ∧ ∀ rest, Stops (separator ++ rest) := by
  rcases h with rfl | rfl
  · exact ⟨flat_of_all (by decide), fun rest => @stops_cons 44 (by decide) rest⟩
  · exact ⟨flat_of_all (by decide), fun rest => @stops_cons 44 (by decide) (32 :: rest)⟩

theorem shape_closing : Shape (ascii ">") ∧ Stops (ascii ">") :=
  ⟨.inl (flat_of_all (by decide)), @stops_cons 62 (by decide) []⟩

/-- Arguments one after the other, up to the end of the list. -/
theorem shape_arguments (hseparator : separator = ascii "," ∨ separator = ascii ", ")
    (h : ∀ argument ∈ arguments, Shape argument) :
    Shape (List.intercalate separator arguments ++ ascii ">") := by
  obtain ⟨hflat, hstops⟩ := flat_separator hseparator
  induction arguments with
  | nil => exact shape_closing.1
  | cons argument rest ih =>
    rw [List.forall_mem_cons] at h
    cases rest with
    | nil =>
      have hone : List.intercalate separator [argument] = argument := by
        simp [List.intercalate]
      rw [hone]
      exact h.1.append shape_closing.2 shape_closing.1
    | cons next rest =>
      have hcons : List.intercalate separator (argument :: next :: rest) =
          argument ++ (separator ++ List.intercalate separator (next :: rest)) := by
        simp [List.intercalate]
      rw [hcons, List.append_assoc, List.append_assoc]
      exact h.1.append (hstops _) (hflat.append_shape (ih h.2))

theorem shape_renderedArguments (hseparator : separator = ascii "," ∨ separator = ascii ", ")
    (h : ∀ argument ∈ arguments, Shape argument) :
    Shape (renderedArguments separator arguments) ∧ Stops (renderedArguments separator arguments) := by
  have hopening : Flat (ascii "<") := flat_of_all (by decide)
  rw [renderedArguments, List.append_assoc]
  exact ⟨hopening.append_shape (shape_arguments hseparator h), @stops_cons 60 (by decide) _⟩

theorem CanonicalKey.shape (h : CanonicalKey key) :
    Shape key := by
  induction h with
  | builtin name hname => exact .inl hname.flat
  | declared packageId name hpackage hname => exact .declared hpackage hname
  | builtinOf name separator arguments hname hseparator _ ih =>
    exact hname.flat.append_shape (shape_renderedArguments hseparator ih).1
  | declaredOf packageId name separator arguments hpackage hname hseparator _ ih =>
    obtain ⟨hshape, hstops⟩ := shape_renderedArguments hseparator ih
    exact (Shape.declared hpackage hname).append hstops hshape

theorem numerals_dot : Numerals Text.ofNat 46 where
  injective := Text.ofNat_injective
  avoids n h := by
    have := Text.mem_ofNat h
    revert this
    decide

/-- What stands between the dollar sign of an escape and the rest. -/
inductive Escape : UInt8 → Text → Prop
  | dollar : Escape 36 [36]
  | slash : Escape 47 [115]
  | dash : Escape 45 [100]
  | code (byte : UInt8) : byte ≠ 36 → byte ≠ 47 → byte ≠ 45 →
      Escape byte (117 :: (Text.ofNat byte.toNat ++ [46]))

theorem symbolEscapeByte_plain (h : plain byte = true) :
    symbolEscapeByte byte = [byte] :=
  if_pos h

theorem symbolEscapeByte_escape {byte : UInt8} (h : plain byte ≠ true) :
    ∃ text, Escape byte text ∧ symbolEscapeByte byte = 36 :: text := by
  rw [symbolEscapeByte, if_neg h]
  split_ifs with hdollar hslash hdash
  · exact ⟨_, hdollar ▸ .dollar, rfl⟩
  · exact ⟨_, hslash ▸ .slash, rfl⟩
  · exact ⟨_, hdash ▸ .dash, rfl⟩
  · exact ⟨_, .code byte hdollar hslash hdash, rfl⟩

theorem plain_ne_dollar (h : plain byte = true) :
    byte ≠ 36 := by
  rintro rfl
  revert h
  decide

theorem Escape.append_inj {other : UInt8} {text' r q : Text} (h : Escape byte text)
    (h' : Escape other text') (heq : text ++ r = text' ++ q) :
    byte = other ∧ r = q := by
  cases h with
  | dollar =>
    cases h' with
    | dollar => exact ⟨rfl, (List.cons.inj heq).2⟩
    | slash => exact absurd (List.cons.inj heq).1 (by decide)
    | dash => exact absurd (List.cons.inj heq).1 (by decide)
    | code _ _ _ _ => exact absurd (List.cons.inj heq).1 (by decide)
  | slash =>
    cases h' with
    | dollar => exact absurd (List.cons.inj heq).1 (by decide)
    | slash => exact ⟨rfl, (List.cons.inj heq).2⟩
    | dash => exact absurd (List.cons.inj heq).1 (by decide)
    | code _ _ _ _ => exact absurd (List.cons.inj heq).1 (by decide)
  | dash =>
    cases h' with
    | dollar => exact absurd (List.cons.inj heq).1 (by decide)
    | slash => exact absurd (List.cons.inj heq).1 (by decide)
    | dash => exact ⟨rfl, (List.cons.inj heq).2⟩
    | code _ _ _ _ => exact absurd (List.cons.inj heq).1 (by decide)
  | code _ _ _ _ =>
    cases h' with
    | dollar => exact absurd (List.cons.inj heq).1 (by decide)
    | slash => exact absurd (List.cons.inj heq).1 (by decide)
    | dash => exact absurd (List.cons.inj heq).1 (by decide)
    | code _ _ _ _ =>
      rw [List.cons_append, List.cons_append, List.append_assoc, List.append_assoc] at heq
      have hrest := (List.cons.inj heq).2
      obtain ⟨hdigits, hrest⟩ := split_at_mark (numerals_dot.avoids _) (numerals_dot.avoids _) hrest
      exact ⟨UInt8.toNat_inj.mp (Text.ofNat_injective hdigits), hrest⟩

theorem delimited_symbolEscapeByte : Delimited symbolEscapeByte where
  ne_nil byte := by
    by_cases h : plain byte = true
    · rw [symbolEscapeByte_plain h]
      exact List.cons_ne_nil _ _
    · obtain ⟨text, -, htext⟩ := symbolEscapeByte_escape h
      rw [htext]
      exact List.cons_ne_nil _ _
  append_inj byte other r q heq := by
    by_cases h : plain byte = true
    · rw [symbolEscapeByte_plain h] at heq
      by_cases h' : plain other = true
      · rw [symbolEscapeByte_plain h'] at heq
        exact List.cons.inj heq
      · obtain ⟨text, -, htext⟩ := symbolEscapeByte_escape h'
        rw [htext] at heq
        exact absurd (List.cons.inj heq).1 (plain_ne_dollar h)
    · obtain ⟨text, hescape, htext⟩ := symbolEscapeByte_escape h
      rw [htext] at heq
      by_cases h' : plain other = true
      · rw [symbolEscapeByte_plain h'] at heq
        exact absurd (List.cons.inj heq).1.symm (plain_ne_dollar h')
      · obtain ⟨text', hescape', htext'⟩ := symbolEscapeByte_escape h'
        rw [htext'] at heq
        exact hescape.append_inj hescape' (List.cons.inj heq).2

theorem plain_iff
    :
    plain byte = true ↔
      (97 ≤ byte.toNat ∧ byte.toNat ≤ 122) ∨ (65 ≤ byte.toNat ∧ byte.toNat ≤ 90) ∨
        (48 ≤ byte.toNat ∧ byte.toNat ≤ 57) ∨ byte.toNat = 95 ∨ byte.toNat = 46 := by
  simp only [plain, Bool.or_eq_true, Bool.and_eq_true, decide_eq_true_iff, beq_iff_eq,
    UInt8.le_iff_toNat_le, ← UInt8.toNat_inj, UInt8.reduceToNat, or_assoc]

theorem isIdentifierByte_iff
    :
    isIdentifierByte byte = true ↔
      (97 ≤ byte.toNat ∧ byte.toNat ≤ 122) ∨ (65 ≤ byte.toNat ∧ byte.toNat ≤ 90) ∨
        byte.toNat = 95 ∨ (48 ≤ byte.toNat ∧ byte.toNat ≤ 57) := by
  simp only [isIdentifierByte, isIdentifierStart, Bool.or_eq_true, Bool.and_eq_true,
    decide_eq_true_iff, beq_iff_eq, UInt8.le_iff_toNat_le, ← UInt8.toNat_inj, UInt8.reduceToNat,
    or_assoc]

theorem plain_of_identifierByte (h : isIdentifierByte byte = true) :
    plain byte = true := by
  have hbyte := isIdentifierByte_iff.mp h
  refine plain_iff.mpr ?_
  omega

/-- The bytes of a package are plain or have escapes of their own. -/
theorem plain_of_packageByte (h : isPackageByte byte = true) :
    plain byte = true ∨ byte = 36 ∨ byte = 47 ∨ byte = 45 := by
  simp only [isPackageByte, Bool.or_eq_true, beq_iff_eq] at h
  rcases h with (((hident | hdot) | hdash) | hslash) | hdollar
  · exact .inl (plain_of_identifierByte hident)
  · refine .inl ?_
    rw [hdot]
    rfl
  · exact .inr (.inr (.inr hdash))
  · exact .inr (.inr (.inl hslash))
  · exact .inr (.inl hdollar)

theorem symbolEscape_identifier (h : ∀ byte ∈ name, isIdentifierByte byte = true) :
    symbolEscape name = name := by
  induction name with
  | nil => rfl
  | cons byte name ih =>
    rw [List.forall_mem_cons] at h
    have hrest : name.flatMap symbolEscapeByte = name := ih h.2
    rw [symbolEscape, List.flatMap_cons, symbolEscapeByte_plain (plain_of_identifierByte h.1), hrest]
    rfl

theorem symbolEscape_append (text other : Text) :
    symbolEscape (text ++ other) = symbolEscape text ++ symbolEscape other :=
  List.flatMap_append

theorem symbolEscape_cons (byte : UInt8) (text : Text) :
    symbolEscape (byte :: text) = symbolEscapeByte byte ++ symbolEscape text :=
  List.flatMap_cons

theorem isListByte_spec (h : isListByte byte = true) :
    isPackageByte byte = false ∧ plain byte = false ∧ byte ≠ 36 ∧ byte ≠ 47 ∧ byte ≠ 45 := by
  simp only [isListByte, Bool.or_eq_true, beq_iff_eq] at h
  rcases h with ((rfl | rfl) | rfl) | rfl
  all_goals decide

/-- Where an identifier ends, no byte of one follows, nor a dot. -/
theorem Stops.symbolEscape_head (h : Stops tail) :
    ∀ byte ∈ (symbolEscape tail).head?, byte = 36 := by
  cases tail with
  | nil => exact fun byte hbyte => absurd hbyte (by simp [symbolEscape])
  | cons first tail =>
    have hfirst := isListByte_spec (h first rfl)
    obtain ⟨text, -, htext⟩ := @symbolEscapeByte_escape first (by rw [hfirst.2.1]; decide)
    rw [symbolEscape_cons, htext]
    exact fun byte hbyte => (Option.some.inj hbyte).symm

/-- An escape with a number is not the separator and a name: a dot follows the number. -/
theorem separator_ne_code (hname : IsIdentifier name) (htail : Stops tail)
    (h : isListByte byte = true) :
    36 :: symbolEscape (name ++ tail) ≠ symbolEscapeByte byte ++ rest := by
  intro heq
  obtain ⟨hpackage, hplain, hdollar, hslash, hdash⟩ := isListByte_spec h
  obtain ⟨text, hescape, htext⟩ := @symbolEscapeByte_escape byte (by rw [hplain]; decide)
  rw [htext] at heq
  cases hescape with
  | dollar => exact hdollar rfl
  | slash => exact hslash rfl
  | dash => exact hdash rfl
  | code _ _ _ _ =>
    have hread : name ++ symbolEscape tail = (117 :: Text.ofNat byte.toNat) ++ (46 :: rest) := by
      rw [symbolEscape_append, symbolEscape_identifier hname.all, List.cons_append] at heq
      rw [(List.cons.inj heq).2, List.cons_append, List.append_assoc, List.cons_append]
      rfl
    have hdigits : ∀ b ∈ 117 :: Text.ofNat byte.toNat, isIdentifierByte b = true := by
      intro b hb
      rcases List.mem_cons.mp hb with rfl | hb
      · decide
      · exact isIdentifierByte_iff.mpr (.inr (.inr (.inr (Text.mem_ofNat hb))))
    have hafter : ∀ b ∈ (symbolEscape tail).head?, ¬ isIdentifierByte b = true := by
      intro b hb
      rw [htail.symbolEscape_head b hb]
      decide
    have hdot : ∀ b ∈ (46 :: rest : Text).head?, ¬ isIdentifierByte b = true := by
      intro b hb
      rw [← Option.some.inj hb]
      decide
    obtain ⟨-, hend⟩ := @split_at_run _ (fun b => isIdentifierByte b = true) _ _ _ _
      hname.all hdigits hafter hdot hread
    have hhead := htail.symbolEscape_head 46 (by rw [hend]; rfl)
    exact absurd hhead (by decide)

/-- A separator reads as a slash or a dash only when the name is what follows it
in the other package, and then that package has no name of its own. -/
theorem separator_ne_letter {letter : UInt8} {packageRest name' tail' : Text}
    (hpackage : IsPackageId packageRest) (hname : IsIdentifier name) (htail : Stops tail)
    (hname' : IsIdentifier name') (htail' : Stops tail') :
    symbolEscape (name ++ tail) ≠
      letter :: (symbolEscape packageRest ++ 36 :: symbolEscape (name' ++ tail')) := by
  intro heq
  obtain ⟨first, after, rfl, -⟩ := hname.start
  have hafter : ∀ byte ∈ after, isIdentifierByte byte = true :=
    fun byte hbyte => hname.all byte (List.mem_cons_of_mem _ hbyte)
  have hfirst := plain_of_identifierByte (hname.all first List.mem_cons_self)
  rw [List.cons_append, symbolEscape_cons, symbolEscapeByte_plain hfirst] at heq
  have hread : List.flatMap symbolEscapeByte (after ++ tail) ++ [] =
      List.flatMap symbolEscapeByte packageRest ++ 36 :: symbolEscape (name' ++ tail') := by
    rw [List.append_nil]
    exact (List.cons.inj heq).2
  rcases delimited_symbolEscapeByte.flatMap_append hread with ⟨more, -, hmore⟩ | ⟨more, hsplit, hmore⟩
  · exact absurd hmore.symm (by simp)
  · rw [List.append_nil] at hmore
    change _ = symbolEscape more at hmore
    rcases List.append_eq_append_iff.mp hsplit with ⟨middle, hrest, htailEq⟩ | ⟨middle, hrest, hmoreEq⟩
    · -- the package goes on where the name has ended
      cases middle with
      | cons byte middle =>
        have hlist := htail byte (by rw [htailEq]; rfl)
        have hbyte := hpackage byte (by rw [hrest]; simp)
        rw [(isListByte_spec hlist).1] at hbyte
        exact absurd hbyte (by decide)
      | nil =>
        rw [List.nil_append] at htailEq
        cases more with
        | nil => exact absurd hmore (by simp [symbolEscape])
        | cons byte more =>
          have hlist := htail byte (by rw [htailEq]; rfl)
          rw [symbolEscape_cons] at hmore
          exact separator_ne_code hname' htail' hlist hmore
    · -- the name goes on where the package has ended
      cases middle with
      | cons byte middle =>
        have hbyte := plain_of_identifierByte (hafter byte (by rw [hrest]; simp))
        rw [hmoreEq, List.cons_append, symbolEscape_cons, symbolEscapeByte_plain hbyte] at hmore
        exact plain_ne_dollar hbyte (List.cons.inj hmore).1.symm
      | nil =>
        rw [List.nil_append] at hmoreEq
        subst hmoreEq
        cases more with
        | nil => exact absurd hmore (by simp [symbolEscape])
        | cons byte more =>
          have hlist := htail byte rfl
          rw [symbolEscape_cons] at hmore
          exact separator_ne_code hname' htail' hlist hmore

theorem Flat.no_colon (h : Flat text) :
    (58 : UInt8) ∉ text :=
  fun hcolon => absurd (h 58 hcolon) (by decide)

theorem IsPackageId.no_colon (h : IsPackageId packageId) :
    (58 : UInt8) ∉ packageId :=
  fun hcolon => absurd (h 58 hcolon) (by decide)

theorem symbolText_flat (h : Flat text) :
    symbolText text = symbolEscape text := by
  rw [symbolText, find_colons_none h.no_colon]

theorem symbolText_cut (cut : Cut text) :
    symbolText text =
      symbolEscape (cut.front ++ cut.packageId) ++ 36 :: symbolEscape (cut.name ++ cut.tail) := by
  obtain ⟨front, packageId, name, tail, rfl, hflat, hpackage, -, -⟩ := cut
  have hcolon : (58 : UInt8) ∉ front ++ packageId := by
    intro hmem
    rcases List.mem_append.mp hmem with h | h
    · exact hflat.no_colon h
    · exact hpackage.no_colon h
  have htake : (front ++ packageId ++ ascii "::" ++ (name ++ tail)).take
      (front ++ packageId).length = front ++ packageId := by
    rw [List.append_assoc (front ++ packageId)]
    exact List.take_left
  have hdrop : (front ++ packageId ++ ascii "::" ++ (name ++ tail)).drop
      ((front ++ packageId).length + 2) = name ++ tail :=
    List.drop_left' (by rw [List.length_append]; rfl)
  rw [symbolText, find_colons hcolon]
  simp only [htake, hdrop]
  rw [List.append_assoc]
  rfl

/-- The slash of a package, and what the package goes on with. -/
theorem Cut.package_rest (cut : Cut text)
    (h : cut.front ++ cut.packageId = front ++ byte :: rest) (hbyte : byte = 47 ∨ byte = 45) :
    IsPackageId rest := by
  rcases List.append_eq_append_iff.mp h with ⟨middle, -, hpackage⟩ | ⟨middle, hfront, hrest⟩
  · intro b hb
    exact cut.package b (by rw [hpackage]; simp [hb])
  · cases middle with
    | nil =>
      intro b hb
      refine cut.package b ?_
      rw [List.nil_append] at hrest
      rw [← hrest]
      exact List.mem_cons_of_mem _ hb
    | cons c middle =>
      have hflat := cut.flat byte (by rw [hfront, (List.cons.inj hrest).1]; simp)
      rcases hbyte with rfl | rfl
      · exact absurd hflat (by decide)
      · exact absurd hflat (by decide)

theorem Cut.mem_front (cut : Cut text)
    (h : cut.front ++ cut.packageId = front ++ byte :: rest) :
    byte = 36 ∨ byte = 47 ∨ byte = 45 ∨ plain byte = true ∨ isListByte byte = true := by
  have hmem : byte ∈ cut.front ++ cut.packageId := by
    rw [h]
    simp
  rcases List.mem_append.mp hmem with hin | hin
  · rcases cut.flat byte hin with hident | hlist
    · exact .inr (.inr (.inr (.inl (plain_of_identifierByte hident))))
    · exact .inr (.inr (.inr (.inr hlist)))
  · rcases plain_of_packageByte (cut.package byte hin) with hplain | hdollar | hslash | hdash
    · exact .inr (.inr (.inr (.inl hplain)))
    · exact .inl hdollar
    · exact .inr (.inl hslash)
    · exact .inr (.inr (.inl hdash))

/-- No package of a key goes on where that of another key with its linker name ends. -/
theorem Cut.not_longer {more : Text} (cut : Cut text) (cut' : Cut other)
    (h : cut'.front ++ cut'.packageId = cut.front ++ cut.packageId ++ byte :: more) :
    36 :: symbolEscape (cut.name ++ cut.tail) ≠
      symbolEscape (byte :: more) ++ 36 :: symbolEscape (cut'.name ++ cut'.tail) := by
  intro heq
  rw [symbolEscape_cons, List.append_assoc] at heq
  rcases cut'.mem_front h with rfl | rfl | rfl | hplain | hlist
  · obtain ⟨first, after, hname, hstart⟩ := cut.identifier.start
    have hfirst := plain_of_identifierByte
      (cut.identifier.all first (by rw [hname]; exact List.mem_cons_self))
    rw [hname, List.cons_append, symbolEscape_cons, symbolEscapeByte_plain hfirst] at heq
    exact plain_ne_dollar hfirst (List.cons.inj (List.cons.inj heq).2).1
  · exact separator_ne_letter (cut'.package_rest h (.inl rfl)) cut.identifier cut.stops
      cut'.identifier cut'.stops (List.cons.inj heq).2
  · exact separator_ne_letter (cut'.package_rest h (.inr rfl)) cut.identifier cut.stops
      cut'.identifier cut'.stops (List.cons.inj heq).2
  · rw [symbolEscapeByte_plain hplain] at heq
    exact plain_ne_dollar hplain (List.cons.inj heq).1.symm
  · exact separator_ne_code cut.identifier cut.stops hlist heq

theorem symbolText_cut_inj (cut : Cut text) (cut' : Cut other)
    (h : symbolText text = symbolText other) :
    text = other := by
  rw [symbolText_cut cut, symbolText_cut cut'] at h
  rcases delimited_symbolEscapeByte.flatMap_append h with ⟨more, hmore, heq⟩ | ⟨more, hmore, heq⟩
  · cases more with
    | cons byte more => exact absurd heq (cut.not_longer cut' hmore)
    | nil =>
      have hname := delimited_symbolEscapeByte.flatMap_inj (List.cons.inj heq).2
      rw [cut.eq, cut'.eq, hmore, hname, List.append_nil]
  · cases more with
    | cons byte more => exact absurd heq (cut'.not_longer cut hmore)
    | nil =>
      have hname := delimited_symbolEscapeByte.flatMap_inj (List.cons.inj heq).2
      rw [cut.eq, cut'.eq, hmore, hname, List.append_nil]

/-- Without colons a linker name has no separator. -/
theorem symbolText_flat_ne_cut (h : Flat text) (cut : Cut other) :
    symbolText text ≠ symbolText other := by
  intro heq
  rw [symbolText_flat h, symbolText_cut cut] at heq
  have hread : List.flatMap symbolEscapeByte text ++ [] =
      List.flatMap symbolEscapeByte (cut.front ++ cut.packageId) ++
        36 :: symbolEscape (cut.name ++ cut.tail) := by
    rw [List.append_nil]
    exact heq
  rcases delimited_symbolEscapeByte.flatMap_append hread with ⟨more, -, hmore⟩ | ⟨more, hsplit, hmore⟩
  · exact absurd hmore.symm (by simp)
  · rw [List.append_nil] at hmore
    change _ = symbolEscape more at hmore
    cases more with
    | nil => exact absurd hmore (by simp [symbolEscape])
    | cons byte more =>
      rw [symbolEscape_cons] at hmore
      rcases h byte (by rw [hsplit]; simp) with hident | hlist
      · have hplain := plain_of_identifierByte hident
        rw [symbolEscapeByte_plain hplain] at hmore
        exact plain_ne_dollar hplain (List.cons.inj hmore).1.symm
      · exact separator_ne_code cut.identifier cut.stops hlist hmore

theorem symbolText_inj (h : Shape text) (h' : Shape other)
    (heq : symbolText text = symbolText other) :
    text = other := by
  rcases h with hflat | ⟨⟨cut⟩⟩
  · rcases h' with hflat' | ⟨⟨cut'⟩⟩
    · rw [symbolText_flat hflat, symbolText_flat hflat'] at heq
      exact delimited_symbolEscapeByte.flatMap_inj heq
    · exact absurd heq (symbolText_flat_ne_cut hflat cut')
  · rcases h' with hflat' | ⟨⟨cut'⟩⟩
    · exact absurd heq.symm (symbolText_flat_ne_cut hflat' cut)
    · exact symbolText_cut_inj cut cut' heq

/-- Letters, digits, underscores, dots and dollar signs. -/
def isSymbolByte (byte : UInt8) : Bool :=
  plain byte || byte == 36

theorem symbolEscapeByte_legal (h : b ∈ symbolEscapeByte byte) :
    isSymbolByte b = true := by
  have hdigit : ∀ b : UInt8, 48 ≤ b.toNat ∧ b.toNat ≤ 57 → isSymbolByte b = true := by
    intro b hrange
    rw [isSymbolByte, plain_iff.mpr (.inr (.inr (.inl hrange))), Bool.true_or]
  by_cases hplain : plain byte = true
  · rw [symbolEscapeByte_plain hplain] at h
    rw [List.mem_singleton.mp h, isSymbolByte, hplain, Bool.true_or]
  · obtain ⟨text, hescape, htext⟩ := symbolEscapeByte_escape hplain
    rw [htext] at h
    rcases List.mem_cons.mp h with rfl | h
    · decide
    · cases hescape with
      | dollar => rw [List.mem_singleton.mp h]; decide
      | slash => rw [List.mem_singleton.mp h]; decide
      | dash => rw [List.mem_singleton.mp h]; decide
      | code _ _ _ _ =>
        rcases List.mem_cons.mp h with rfl | h
        · decide
        · rcases List.mem_append.mp h with h | h
          · exact hdigit b (Text.mem_ofNat h)
          · rw [List.mem_singleton.mp h]
            decide

theorem symbolEscape_legal (h : b ∈ symbolEscape text) :
    isSymbolByte b = true := by
  obtain ⟨byte, -, hb⟩ := List.mem_flatMap.mp h
  exact symbolEscapeByte_legal hb

theorem symbolText_legal (h : b ∈ symbolText key) :
    isSymbolByte b = true := by
  rw [symbolText] at h
  cases hfind : find (ascii "::") key with
  | none =>
    rw [hfind] at h
    exact symbolEscape_legal h
  | some cut =>
    rw [hfind] at h
    rcases List.mem_append.mp h with h | h
    · rcases List.mem_append.mp h with h | h
      · exact symbolEscape_legal h
      · rw [List.mem_singleton.mp h]
        decide
    · exact symbolEscape_legal h

/-- Keys with one linker name are one key, and no linker name has a byte that a
linker refuses. -/
theorem symbol_text
    {key other : Text}
    (hkey : CanonicalKey key)
    (hother : CanonicalKey other) :
    (symbolText key = symbolText other → key = other) ∧
      ∀ byte ∈ symbolText key, isSymbolByte byte = true :=
  ⟨symbolText_inj hkey.shape hother.shape, fun _ hbyte => symbolText_legal hbyte⟩

/-- A name in a package that begins as the escape of a slash does. -/
theorem symbol_text_sale :
    (symbolText (ascii "shop::sale") = symbolText (ascii "shop/ale::x") →
        ascii "shop::sale" = ascii "shop/ale::x") ∧
      ∀ byte ∈ symbolText (ascii "shop::sale"), isSymbolByte byte = true := by
  have hletters : ∀ text : Text, text.all isIdentifierByte = true →
      ∀ byte ∈ text, isIdentifierByte byte = true :=
    fun text h => List.all_eq_true.mp h
  have hpackages : ∀ text : Text, text.all isPackageByte = true → IsPackageId text :=
    fun text h => List.all_eq_true.mp h
  exact symbol_text
    (.declared (ascii "shop") (ascii "sale") (hpackages _ (by decide))
      ⟨⟨115, ascii "ale", rfl, by decide⟩, hletters _ (by decide)⟩)
    (.declared (ascii "shop/ale") (ascii "x") (hpackages _ (by decide))
      ⟨⟨120, [], rfl, by decide⟩, hletters _ (by decide)⟩)

end Packages
end Beans
