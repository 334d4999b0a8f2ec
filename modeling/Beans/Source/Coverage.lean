import Beans.Source.Movement

/-!
# The lexer covers its input

A source is covered by blanks, comments and tokens that follow each other from
its first byte.  The cover is built as the lexer goes, one turn at a time; an
unclosed block comment can only be the last part of it.
-/

namespace Beans
namespace Source

/-- Two adjacent bytes. -/
def PairAt (source : Text) (p a b : Nat) : Prop :=
  p + 1 < source.length ∧ byteAt source p = a ∧ byteAt source (p + 1) = b

/-- The bytes from `p` to a position are inside as many block comments as the
depth there, the outermost of which opens at `p`. -/
inductive InBlock (source : Text) (p : Nat) : Nat → Nat → Prop
  | opened (hpair : PairAt source p 47 42) : InBlock source p (p + 2) 1
  | nested {q depth : Nat} (hin : InBlock source p q (depth + 1))
      (hpair : PairAt source q 47 42) : InBlock source p (q + 2) (depth + 2)
  | ended {q depth : Nat} (hin : InBlock source p q (depth + 1))
      (hpair : PairAt source q 42 47) : InBlock source p (q + 2) depth
  | byte {q depth : Nat} (hin : InBlock source p q (depth + 1))
      (hlt : q < source.length) (hopen : ¬ PairAt source q 47 42)
      (hend : ¬ PairAt source q 42 47) : InBlock source p (q + 1) (depth + 1)

theorem InBlock.lt {source : Text} {p q depth : Nat}
    (h : InBlock source p q depth) : p < q := by
  induction h with
  | opened => omega
  | nested _ _ ih => omega
  | ended _ _ ih => omega
  | byte _ _ _ _ ih => omega

/-- A line comment from `p` up to a newline or the end of the source. -/
structure LineComment (source : Text) (p q : Nat) : Prop where
  opened : PairAt source p 47 47
  le : q ≤ source.length
  lt : p < q
  line : ∀ i, p ≤ i → i < q → byteAt source i ≠ 10
  ended : q = source.length ∨ byteAt source q = 10

/-- A string literal from quote to quote. -/
def ordinaryLiteral (body : Text) : Text := 34 :: (body ++ [34])

/-- A raw literal with so many hashes. -/
def rawLiteral (hashes : Nat) (body : Text) : Text :=
  114 :: (List.replicate hashes 35 ++
    34 :: (body ++ 34 :: List.replicate hashes 35))

inductive ClosedLiteral : Text → Prop
  | ordinary (body : Text) : ClosedLiteral (ordinaryLiteral body)
  | raw (hashes : Nat) (body : Text) : ClosedLiteral (rawLiteral hashes body)

/-- A literal opens, whether or not it is closed. -/
def OpensLiteral (text : Text) : Prop :=
  text.head? = some 34 ∨ (rawHashesAt text 0 text.length).isSome

/-- A kind of token that the source is cut into. -/
def Kind.Significant (kind : Kind) : Prop := kind ≠ .newline ∧ kind ≠ .eof

instance : DecidablePred Kind.Significant := fun _ =>
  inferInstanceAs (Decidable (_ ∧ _))

/-- A token is the text from `p` to `q`, where it says it is. -/
structure Lexeme (source : Text) (p q : Nat) (tok : Token) : Prop where
  lt : p < q
  le : q ≤ source.length
  text : tok.text = slice source p q
  line : tok.line = lineAt source p
  col : tok.col = colAt source p
  kind : tok.kind.Significant
  closed : tok.kind = .string → ClosedLiteral tok.text
  opened : OpensLiteral tok.text → tok.kind = .string ∨ tok.kind = .lexError

/-- The bytes before a position are blanks, comments and these tokens. -/
inductive Covered (source : Text) : Nat → List Token → Prop
  | start : Covered source 0 []
  | blank {p : Nat} {toks : List Token} (hbefore : Covered source p toks)
      (hlt : p < source.length) (hblank : byteAt source p ∈ [32, 9, 13, 10]) :
      Covered source (p + 1) toks
  | lineComment {p q : Nat} {toks : List Token}
      (hbefore : Covered source p toks) (hcomment : LineComment source p q) :
      Covered source q toks
  | blockComment {p q : Nat} {toks : List Token}
      (hbefore : Covered source p toks) (hcomment : InBlock source p q 0) :
      Covered source q toks
  | token {p q : Nat} {toks : List Token} {tok : Token}
      (hbefore : Covered source p toks) (htoken : Lexeme source p q tok) :
      Covered source q (toks ++ [tok])

/-- The source ends inside a block comment, behind these tokens. -/
def EndsInComment (source : Text) (toks : List Token) : Prop :=
  ∃ p depth, Covered source p toks ∧ InBlock source p source.length (depth + 1)

/-- The tokens that the source is cut into. -/
def significant (toks : List Token) : List Token :=
  toks.filter fun tok => decide tok.kind.Significant

/-- No newline token comes first, and no two are adjacent. -/
structure NewlinesSeparate (toks : List Token) : Prop where
  first : ∀ tok ∈ toks.head?, tok.kind ≠ .newline
  apart : toks.IsChain fun a b => a.kind = .newline → b.kind ≠ .newline

namespace Lexer

/-- A source that ended early, or a string that did, has been reported. -/
def Reported (lx : Lexer) : Prop :=
  lx.sourceEndedInError = true ∨ 0 < lx.openStringLine → lx.errors ≠ []

/-- Where the text of a string token comes from. -/
inductive StringFrom (lx : Lexer) : Text → Prop
  | ordinary (hquote : lx.peek = 34) (hclosed : lx.stringRun.closed = true) :
      StringFrom lx (slice lx.source lx.pos lx.stringRun.lexer.pos)
  | raw {n : Nat}
      (hopen : rawHashesAt lx.source lx.pos lx.source.length = some n)
      (hclosed : lx.consumeRawLiteral.2 = true) :
      StringFrom lx (slice lx.source lx.pos lx.consumeRawLiteral.1.pos)

/-- A turn that appends the text it moves over as one token. -/
structure Emits (lx : Lexer) (out : List Token) (r : Lexer × List Token) :
    Prop where
  source : r.1.source = lx.source
  lt : lx.pos < r.1.pos
  placed : lx.Placed → r.1.Placed
  errors : lx.errors <+: r.1.errors
  reported : lx.Reported → r.1.Reported
  token : ∃ tok, r.2 = out ++ [tok] ∧ r.1.lastKind = some tok.kind ∧
    r.1.haveToken = true ∧ (tok.kind = .lexError → lx.Reported → r.1.errors ≠ []) ∧
    (lx.Placed → Lexeme lx.source lx.pos r.1.pos tok) ∧
    (tok.kind = .string → StringFrom lx tok.text)

/-- What the kind of a token promises about its text. -/
structure KindFits (lx : Lexer) (kind : Kind) (text : Text) : Prop where
  significant : kind.Significant
  closed : kind = .string → ClosedLiteral text
  origin : kind = .string → StringFrom lx text
  opened : OpensLiteral text → kind = .string ∨ kind = .lexError

section Emit

variable {lx lx' : Lexer} {out : List Token} {kind : Kind}

/-- `add` at the start of the token. -/
theorem emits_add (hsource : lx'.source = lx.source) (hlt : lx.pos < lx'.pos)
    (hplaced : lx.Placed → lx'.Placed) (herrors : lx.errors <+: lx'.errors)
    (hreported : lx.Reported → lx'.Reported)
    (hfits : KindFits lx kind (slice lx.source lx.pos lx'.pos))
    (herror : kind = .lexError → lx.Reported → lx'.errors ≠ []) :
    Emits lx out (lx'.add out kind lx.pos lx.line lx.col) where
  source := hsource
  lt := hlt
  placed hp := ⟨(hplaced hp).le, (hplaced hp).line, (hplaced hp).col⟩
  errors := herrors
  reported := hreported
  token := by
    refine ⟨⟨kind, slice lx'.source lx.pos lx'.pos, lx.line, lx.col⟩, rfl, rfl,
      rfl, herror, fun hp => ?_, ?_⟩
    · rw [hsource]
      refine ⟨hlt, ?_, rfl, hp.line, hp.col, hfits.significant, hfits.closed,
        hfits.opened⟩
      have := (hplaced hp).le
      rwa [hsource] at this
    · rw [hsource]
      exact hfits.origin

/-- Moving on reports nothing and leaves nothing to report. -/
theorem Moves.reported (h : Moves lx lx') (hreported : lx.Reported) :
    lx'.Reported := by
  have hframe := h.frame
  simp only [Lexer.frame, Prod.mk.injEq] at hframe
  intro hopen
  rw [hframe.2.2.1, hframe.2.2.2] at hopen
  exact fun hnil => hreported hopen (List.prefix_nil.mp (hnil ▸ h.errors))

theorem Moves.emits (h : Moves lx lx') (hlt : lx.pos < lx'.pos)
    (hfits : KindFits lx kind (slice lx.source lx.pos lx'.pos))
    (herror : kind = .lexError → lx'.errors ≠ []) :
    Emits lx out (lx'.add out kind lx.pos lx.line lx.col) :=
  emits_add h.source hlt h.placed h.errors h.reported hfits
    fun hkind _ => herror hkind

/-- A kind that is no string fits a text that opens no literal. -/
theorem kindFits_plain {text : Text} (hsignificant : kind.Significant)
    (hstring : kind ≠ .string) (hopen : ¬ OpensLiteral text) :
    KindFits lx kind text :=
  ⟨hsignificant, fun h => absurd h hstring, fun h => absurd h hstring,
    fun h => absurd h hopen⟩

theorem kindFits_lexError (text : Text) : KindFits lx .lexError text :=
  ⟨by decide, nofun, nofun, fun _ => .inr rfl⟩

/-- A text opens a literal only by its first byte. -/
theorem not_opensLiteral {c : UInt8} {text : Text} (hquote : c ≠ 34)
    (hr : c ≠ 114) : ¬ OpensLiteral (c :: text) := by
  rintro (h | h)
  · exact hquote (Option.some.inj h)
  · obtain ⟨n, hn⟩ := Option.isSome_iff_exists.mp h
    have hbyte := ((rawHashesAt_iff (Nat.le_refl _)).mp hn).2.1
    exact hr (UInt8.toNat_inj.mp hbyte)

/-- Names hold no quote. -/
theorem not_opens_ident {text : Text}
    (h : ∀ c ∈ text, isIdentByte c.toNat = true) : ¬ OpensLiteral text := by
  have hquote : ∀ c ∈ text, c ≠ 34 := by
    rintro c hc rfl
    exact absurd (h 34 hc) (by decide)
  rintro (hhead | hraw)
  · exact hquote 34 (List.mem_of_mem_head? hhead) rfl
  · obtain ⟨n, hn⟩ := Option.isSome_iff_exists.mp hraw
    obtain ⟨hlt, -, -, hbyte⟩ := (rawHashesAt_iff (Nat.le_refl _)).mp hn
    rw [byteAt_eq hlt] at hbyte
    exact hquote _ (List.getElem_mem hlt) (UInt8.toNat_inj.mp hbyte)

/-- A token that starts with neither a quote nor an `r`. -/
theorem Moves.emits_other (h : Moves lx lx') (hlt : lx.pos < lx'.pos)
    (hin : lx.pos < lx.source.length) (hquote : lx.peek ≠ 34)
    (hr : lx.peek ≠ 114) (hsignificant : kind.Significant)
    (hstring : kind ≠ .string) (herror : kind = .lexError → lx'.errors ≠ []) :
    Emits lx out (lx'.add out kind lx.pos lx.line lx.col) := by
  rw [peek_eq hin] at hquote hr
  refine h.emits hlt ?_ herror
  rw [slice_cons hlt hin]
  exact kindFits_plain hsignificant hstring
    (not_opensLiteral (fun heq => hquote (by rw [heq]; rfl))
      (fun heq => hr (by rw [heq]; rfl)))

theorem errorAt_ne (lx : Lexer) (line col : Nat) (message : Text) :
    (lx.errorAt line col message).errors ≠ [] :=
  List.append_ne_nil_of_right_ne_nil _ (List.cons_ne_nil _ _)

theorem Moves.errors_ne (h : Moves lx lx') (hne : lx.errors ≠ []) :
    lx'.errors ≠ [] :=
  fun hnil => hne (List.prefix_nil.mp (hnil ▸ h.errors))

end Emit

section Scanners

variable {lx : Lexer} (out : List Token)

/-- The loop that takes bytes takes the longest run of them. -/
theorem advanceWhile_slice {p : Nat → Bool} (hp : p 0 = false) (lx : Lexer) :
    slice lx.source lx.pos (lx.advanceWhile p).pos =
      (lx.source.drop lx.pos).takeWhile fun c => p c.toNat := by
  have hleads := List.takeWhile_prefix (fun c : UInt8 => p c.toNat)
    (l := lx.source.drop lx.pos)
  have hlen := hleads.length_le
  rw [List.length_drop] at hlen
  rw [advanceWhile_eq hp, slice, List.drop_take]
  by_cases hle : lx.pos ≤ lx.source.length
  · rw [(advanceN_moves (by omega)).2, Nat.add_sub_cancel_left,
      ← List.prefix_iff_eq_take.mp hleads]
  · have hnil : lx.source.drop lx.pos = [] :=
      List.drop_eq_nil_of_le (by omega)
    simp [hnil]

theorem keywordKind_significant (text : Text) :
    (keywordKind text).Significant ∧ keywordKind text ≠ .string ∧
      keywordKind text ≠ .lexError := by
  rw [keywordKind]
  split <;> exact ⟨⟨nofun, nofun⟩, nofun, nofun⟩

theorem scanIdent_emits (hlt : lx.pos < lx.source.length)
    (halpha : isAlpha lx.peek = true) :
    Emits lx out (lx.scanIdent out lx.pos lx.line lx.col) := by
  have hmoves := advanceWhile_moves (p := isIdentByte) (by decide) lx
  have hslice := advanceWhile_slice (p := isIdentByte) (by decide) lx
  have hident : isIdentByte lx.source[lx.pos].toNat = true := by
    rw [← peek_eq hlt, isIdentByte, halpha, Bool.true_or]
  have hne : slice lx.source lx.pos (lx.advanceWhile isIdentByte).pos ≠ [] := by
    rw [hslice, List.drop_eq_getElem_cons hlt, List.takeWhile_cons,
      if_pos hident]
    exact List.cons_ne_nil _ _
  have hpos : lx.pos < (lx.advanceWhile isIdentByte).pos := by
    refine Nat.lt_of_le_of_ne hmoves.le fun heq => hne ?_
    rw [← heq, slice_self]
  have hbytes : ∀ c ∈ slice lx.source lx.pos (lx.advanceWhile isIdentByte).pos,
      isIdentByte c.toNat = true := by
    rw [hslice]
    exact fun c hc => List.mem_takeWhile_imp (p := fun c : UInt8 =>
      isIdentByte c.toNat) hc
  obtain ⟨hsignificant, hstring, hlexError⟩ := keywordKind_significant
    (slice lx.source lx.pos (lx.advanceWhile isIdentByte).pos)
  have hemits : Emits lx out _ := hmoves.emits hpos
    (kindFits_plain hsignificant hstring (not_opens_ident hbytes))
    (fun h => absurd h hlexError)
  rwa [← hmoves.source] at hemits

/-- A literal with a base prefix. -/
theorem scanBased_emits {digit : Nat → Bool} (hdigit : digit 0 = false)
    (message : Text) (hzero : lx.peek = 48) (hnext : lx.peekNext ≠ 0) :
    Emits lx out (scanBased digit message lx out lx.pos lx.line lx.col) := by
  have hlt := lt_of_peekNext hnext
  have hin : lx.pos < lx.source.length := by omega
  have hpos := advance_pos hin
  have hleads : Moves lx lx.advance.advance :=
    (advance_moves hin).trans (advance_moves (by
      rw [hpos, advance_source]
      exact hlt))
  have hdigits := hleads.trans (scanDigits_moves hdigit lx.advance.advance)
  have hmore : lx.pos < (scanDigits digit lx.advance.advance).1.pos := by
    have hle := (scanDigits_moves hdigit lx.advance.advance).le
    rw [advance_pos (by rw [hpos, advance_source]; exact hlt), hpos] at hle
    omega
  simp only [scanBased]
  split
  · exact hdigits.emits_other hmore hin (by omega) (by omega) ⟨nofun, nofun⟩
      nofun nofun
  · have htail := advanceWhile_moves (p := isIdentByte) (by decide)
      ((scanDigits digit lx.advance.advance).1.errorAt lx.line lx.col message)
    have hall := hdigits.trans ((errorAt_moves _ _ _).trans htail)
    have hpos' := htail.le
    exact hall.emits_other (Nat.lt_of_lt_of_le hmore hpos') hin (by omega)
      (by omega) ⟨nofun, nofun⟩ nofun
      (fun _ => htail.errors_ne (errorAt_ne _ _ _ _))

theorem scanNumber_emits (hlt : lx.pos < lx.source.length)
    (hdigit : isDigit lx.peek = true) :
    Emits lx out (lx.scanNumber out lx.pos lx.line lx.col) := by
  have hrange : 48 ≤ lx.peek ∧ lx.peek ≤ 57 := by
    simpa [isDigit] using hdigit
  rw [scanNumber]
  split
  · rename_i h
    exact scanBased_emits out (by decide) _ h.1 (by omega)
  split
  · rename_i h
    exact scanBased_emits out (by decide) _ h.1 (by omega)
  · have hdigits := advanceWhile_moves (p := isDigitOrUnderscore) (by decide) lx
    have hmore : lx.pos < (lx.advanceWhile isDigitOrUnderscore).pos := by
      refine Nat.lt_of_le_of_ne hdigits.le fun heq => ?_
      have hslice :=
        advanceWhile_slice (p := isDigitOrUnderscore) (by decide) lx
      rw [← heq, slice_self, List.drop_eq_getElem_cons hlt,
        List.takeWhile_cons, ← peek_eq hlt, isDigitOrUnderscore, hdigit] at hslice
      cases hslice
    have hfraction := scanFraction_moves (lx.advanceWhile isDigitOrUnderscore)
    have hexponent :=
      scanExponent_moves (lx.advanceWhile isDigitOrUnderscore).scanFraction.1
    refine (hdigits.trans (hfraction.trans hexponent)).emits_other ?_ hlt
      (by omega) (by omega) ?_ ?_ ?_
    · exact Nat.lt_of_lt_of_le hmore (hfraction.le.trans hexponent.le)
    · split <;> exact ⟨nofun, nofun⟩
    · split <;> nofun
    · split <;> nofun

theorem punctuation_emits (hlt : lx.pos < lx.source.length)
    (hquote : lx.peek ≠ 34) (hr : lx.peek ≠ 114) :
    Emits lx out (lx.punctuation out lx.pos lx.line lx.col) := by
  have hadvance := advance_moves hlt
  have hpos := advance_pos hlt
  simp only [punctuation]
  split
  · have hrest := unexpectedSourceCharacter_moves lx.advance lx.peek
    have hall := hadvance.trans (hrest.trans (errorAt_moves lx.line lx.col
      (lx.advance.unexpectedSourceCharacter lx.peek).2))
    refine hall.emits_other ?_ hlt hquote hr ⟨nofun, nofun⟩ nofun
      (fun _ => errorAt_ne _ _ _ _)
    have := hrest.le
    simp only [errorAt]
    omega
  split
  · rename_i hpair
    have hin : lx.advance.pos < lx.advance.source.length :=
      not_atEnd_iff.mp (by rw [hpair.1]; decide)
    have hdot := scanThirdDot_moves lx.advance.advance
      (slice lx.advance.source lx.pos (lx.advance.pos + 1))
    refine (hadvance.trans ((advance_moves hin).trans hdot)).emits_other ?_ hlt
      hquote hr ⟨nofun, nofun⟩ nofun nofun
    refine Nat.lt_of_lt_of_le ?_ hdot.le
    rw [advance_pos hin, hpos]
    omega
  · exact hadvance.emits_other (by omega) hlt hquote hr ⟨nofun, nofun⟩ nofun
      nofun

end Scanners

section Strings

variable {source : Text} {p q n : Nat}

/-- A quote, some bytes and a quote. -/
theorem ordinary_slice (hpq : p < q) (hopen : byteAt source p = 34)
    (hclose : byteAt source q = 34) :
    slice source p (q + 1) = ordinaryLiteral (slice source (p + 1) q) := by
  have hq : q < source.length := lt_of_byteAt (by rw [hclose]; decide)
  rw [slice_cons (by omega) (by omega), ordinaryLiteral,
    getElem_of_byteAt (v := 34) (by omega) hopen,
    ← slice_append (by omega : p + 1 ≤ q) (Nat.le_succ q), slice_one hq,
    getElem_of_byteAt (v := 34) hq hclose]

/-- An opening, some bytes and a terminator. -/
theorem raw_slice (hopen : rawHashesAt source p source.length = some n)
    (hpq : p + n + 2 ≤ q) (hclose : RawClosed source n q) :
    slice source p (q + 1 + n) =
      rawLiteral n (slice source (p + n + 2) q) := by
  obtain ⟨hlt, hr, hhashes, hquote⟩ := (rawHashesAt_iff (Nat.le_refl _)).mp hopen
  have hq : q < source.length := lt_of_byteAt (by rw [hclose.quote]; decide)
  rw [slice_cons (by omega) (by omega),
    getElem_of_byteAt (v := 114) (by omega) hr,
    ← slice_append (by omega : p + 1 ≤ p + 1 + n) (by omega), hhashes,
    slice_cons (by omega) (by omega),
    getElem_of_byteAt (v := 34) (by omega) hquote,
    ← slice_append (by omega : p + 1 + n + 1 ≤ q) (by omega),
    slice_cons (by omega) hq, getElem_of_byteAt (v := 34) hq hclose.quote,
    hclose.hashes, show p + 1 + n + 1 = p + n + 2 by omega]
  rfl

variable {lx : Lexer} (out : List Token)

theorem rawHashes_of_ahead (hr : lx.peek = 114)
    (h : lx.rawStringAhead = true) :
    ∃ n, rawHashesAt lx.source lx.pos lx.source.length = some n := by
  have hlt : lx.pos < lx.source.length := lt_of_peek (by rw [hr]; decide)
  rw [peek_eq hlt, ← byteAt_eq hlt] at hr
  simp only [rawStringAhead, Bool.and_eq_true, decide_eq_true_eq, beq_iff_eq]
    at h
  exact ⟨_, (rawHashesAt_iff (Nat.le_refl _)).mpr
    ⟨h.1, hr, slice_hashRun, h.2⟩⟩

theorem scanRawString_emits (h : rawHashesAt lx.source lx.pos lx.source.length = some n) :
    Emits lx out (lx.scanRawString out lx.pos lx.line lx.col) := by
  obtain ⟨hmoves, hpos, hfound, -⟩ := consumeRawLiteral_spec h
  simp only [scanRawString]
  split
  · rename_i hclosed
    obtain ⟨q, hend, hclose⟩ := hfound hclosed
    refine hmoves.emits (by omega) ⟨⟨nofun, nofun⟩, fun _ => ?_,
      fun _ => .raw h hclosed, fun _ => .inl rfl⟩ nofun
    rw [hend, raw_slice h hclose.le hclose.closed]
    exact .raw n _
  · exact emits_add hmoves.source (by simp only [errorAt]; omega)
      (fun hp => ⟨(hmoves.placed hp).le, (hmoves.placed hp).line,
        (hmoves.placed hp).col⟩)
      (hmoves.errors.trans (List.prefix_append _ _))
      (fun _ _ => errorAt_ne _ _ _ _) (kindFits_lexError _)
      (fun _ _ => errorAt_ne _ _ _ _)

/-- The report of an open string is in the errors, now or from before. -/
theorem reportOpenString_spec (ended : Bool) (line col : Nat) :
    (lx.reportOpenString ended line col).source = lx.source ∧
      (lx.reportOpenString ended line col).pos = lx.pos ∧
      (lx.Placed → (lx.reportOpenString ended line col).Placed) ∧
      lx.errors <+: (lx.reportOpenString ended line col).errors ∧
      (lx.Reported → (lx.reportOpenString ended line col).errors ≠ []) := by
  simp only [reportOpenString]
  by_cases hopen : lx.openStringLine > 0 ∧ lx.openStringLine + 1 = line
  · rw [if_pos hopen]
    split <;> exact ⟨rfl, rfl, fun hp => ⟨hp.le, hp.line, hp.col⟩,
      List.prefix_rfl, fun hreported => hreported (.inr hopen.1)⟩
  · rw [if_neg hopen]
    split <;> exact ⟨rfl, rfl, fun hp => ⟨hp.le, hp.line, hp.col⟩,
      List.prefix_append _ _, fun _ => errorAt_ne _ _ _ _⟩

theorem scanString_emits (hquote : lx.peek = 34) :
    Emits lx out (lx.scanString out lx.pos lx.line lx.col) := by
  have hlt : lx.pos < lx.source.length := lt_of_peek (by rw [hquote]; decide)
  obtain ⟨hmoves, hpos, hfound⟩ := stringRun_spec hlt
  simp only [scanString]
  split
  · rename_i hclosed
    obtain ⟨q, hq, hend, hclose⟩ := hfound hclosed
    refine hmoves.emits hpos ⟨⟨nofun, nofun⟩, fun _ => ?_,
      fun _ => .ordinary hquote hclosed, fun _ => .inl rfl⟩ nofun
    rw [peek_eq hlt, ← byteAt_eq hlt] at hquote
    rw [hend, ordinary_slice hq hquote hclose]
    exact .ordinary _
  · obtain ⟨hsource, hsame, hplaced, herrors, hreport⟩ :=
      @reportOpenString_spec lx.stringRun.lexer lx.stringRun.endedAtLine lx.line
        lx.col
    exact emits_add (hsource.trans hmoves.source) (by rw [hsame]; exact hpos)
      (hplaced ∘ hmoves.placed) (hmoves.errors.trans herrors)
      (fun hreported _ => hreport (hmoves.reported hreported))
      (kindFits_lexError _)
      (fun _ hreported => hreport (hmoves.reported hreported))

end Strings

section Comments

variable {lx : Lexer}

theorem pairAt_iff {a b : Nat} (hb : b ≠ 0) :
    PairAt lx.source lx.pos a b ↔ lx.peek = a ∧ lx.peekNext = b := by
  constructor
  · rintro ⟨hlt, hfirst, hsecond⟩
    refine ⟨?_, ?_⟩
    · rw [peek_eq (by omega), ← byteAt_eq (by omega), hfirst]
    · rw [peekNext, if_neg (by omega), hsecond]
  · rintro ⟨hfirst, hsecond⟩
    have hlt := @lt_of_peekNext lx (by rwa [hsecond])
    rw [peek_eq (by omega), ← byteAt_eq (by omega)] at hfirst
    rw [peekNext, if_neg (by omega)] at hsecond
    exact ⟨hlt, hfirst, hsecond⟩

theorem advance_advance (hlt : lx.pos + 1 < lx.source.length) :
    Moves lx lx.advance.advance ∧ lx.advance.advance.pos = lx.pos + 2 := by
  have hin : lx.pos < lx.source.length := by omega
  have hpos := advance_pos hin
  have hnext : lx.advance.pos < lx.advance.source.length := by
    rw [hpos, advance_source]
    exact hlt
  exact ⟨(advance_moves hin).trans (advance_moves hnext),
    by rw [advance_pos hnext, hpos]⟩

theorem lineCommentStep_some {s s' : Lexer} (h : lineCommentStep s = some s') :
    s.pos < s.source.length ∧ s.peek ≠ 10 ∧ s' = s.advance := by
  rw [lineCommentStep] at h
  split at h
  · cases h
  · rename_i hopen
    cases h
    exact ⟨not_atEnd_iff.mp fun hend => hopen (.inl hend),
      fun hnewline => hopen (.inr hnewline), rfl⟩

theorem lineCommentStep_measure (s s' : Lexer)
    (h : lineCommentStep s = some s') : s'.remaining < s.remaining := by
  obtain ⟨hlt, -, rfl⟩ := lineCommentStep_some h
  exact remaining_advance hlt

/-- What holds in a line comment. -/
structure OnLine (lx s : Lexer) : Prop where
  moves : Moves lx s
  line : ∀ i, lx.pos ≤ i → i < s.pos → byteAt lx.source i ≠ 10

theorem lineCommentStep_onLine {s s' : Lexer} (hs : OnLine lx s)
    (h : lineCommentStep s = some s') : OnLine lx s' := by
  obtain ⟨hlt, hpeek, rfl⟩ := lineCommentStep_some h
  refine ⟨hs.moves.trans (advance_moves hlt), fun i hfrom hto => ?_⟩
  rw [advance_pos hlt] at hto
  obtain hi | rfl : i < s.pos ∨ i = s.pos := by omega
  · exact hs.line i hfrom hi
  · rwa [peek_eq hlt, ← byteAt_eq hlt, hs.moves.source] at hpeek

theorem skipLineComment_spec (hp : lx.Placed)
    (hpair : PairAt lx.source lx.pos 47 47) :
    Moves lx lx.skipLineComment ∧
      LineComment lx.source lx.pos lx.skipLineComment.pos := by
  have hstart : OnLine lx lx := ⟨.rfl, fun i hfrom hto => by omega⟩
  have hline : OnLine lx lx.skipLineComment :=
    Loop.run_invariant (fun s s' => lineCommentStep_onLine) hstart _
  have hend : lineCommentStep lx.skipLineComment = none :=
    Loop.step_run lineCommentStep_measure (Nat.sub_le _ _)
  have hle := (hline.moves.placed hp).le
  have hended : lx.skipLineComment.pos = lx.source.length ∨
      byteAt lx.source lx.skipLineComment.pos = 10 := by
    rw [hline.moves.source] at hle
    by_cases hlt : lx.skipLineComment.pos < lx.source.length
    · right
      rw [lineCommentStep] at hend
      split at hend
      · rename_i hstop
        have hin : lx.skipLineComment.pos < lx.skipLineComment.source.length := by
          rwa [hline.moves.source]
        have hpeek := hstop.resolve_left (not_atEnd_iff.mpr hin)
        rwa [peek_eq hin, ← byteAt_eq hin, hline.moves.source] at hpeek
      · cases hend
    · left
      omega
  refine ⟨hline.moves, hpair, ?_, ?_, hline.line, hended⟩
  · rwa [hline.moves.source] at hle
  · refine Nat.lt_of_le_of_ne hline.moves.le fun heq => ?_
    rw [← heq] at hended
    obtain ⟨hlt, hbyte, -⟩ := hpair
    omega

/-- A turn inside block comments moves on, and stays inside. -/
theorem blockStep_some {s s' : Lexer × Nat} (h : blockStep s = some s') :
    Moves s.1 s'.1 ∧ s.1.pos < s'.1.pos ∧
      ∀ p, InBlock s.1.source p s.1.pos s.2 →
        InBlock s.1.source p s'.1.pos s'.2 := by
  rw [blockStep] at h
  split at h
  · cases h
  rename_i hopen
  have hlt : s.1.pos < s.1.source.length :=
    not_atEnd_iff.mp fun hend => hopen (.inl hend)
  obtain ⟨depth, hdepth⟩ : ∃ depth, s.2 = depth + 1 :=
    Nat.exists_eq_succ_of_ne_zero fun hzero => hopen (.inr hzero)
  split at h
  · rename_i hnest
    cases h
    have hpair := (pairAt_iff (by decide)).mpr hnest
    obtain ⟨hmoves, hpos⟩ := advance_advance hpair.1
    refine ⟨hmoves, by simp only; omega, fun p hin => ?_⟩
    rw [hdepth] at hin
    simp only [hpos, hdepth]
    exact .nested hin hpair
  rename_i hnest
  split at h
  · rename_i hend
    cases h
    have hpair := (pairAt_iff (by decide)).mpr hend
    obtain ⟨hmoves, hpos⟩ := advance_advance hpair.1
    refine ⟨hmoves, by simp only; omega, fun p hin => ?_⟩
    rw [hdepth] at hin
    simp only [hpos, hdepth]
    exact .ended hin hpair
  · rename_i hend
    cases h
    refine ⟨advance_moves hlt, by simp only [advance_pos hlt]; omega,
      fun p hin => ?_⟩
    rw [hdepth] at hin
    simp only [advance_pos hlt, hdepth]
    exact .byte hin hlt
      (fun hpair => hnest ((pairAt_iff (by decide)).mp hpair))
      (fun hpair => hend ((pairAt_iff (by decide)).mp hpair))

theorem blockStep_measure (s s' : Lexer × Nat) (h : blockStep s = some s') :
    s'.1.remaining < s.1.remaining := by
  obtain ⟨hmoves, hlt, -⟩ := blockStep_some h
  have hin : s.1.pos < s.1.source.length := by
    by_contra hend
    rw [blockStep, if_pos (.inl (atEnd_iff.mpr (Nat.not_lt.mp hend)))] at h
    cases h
  rw [remaining, remaining, hmoves.source]
  omega

/-- What holds inside a block comment. -/
structure InComment (lx : Lexer) (s : Lexer × Nat) : Prop where
  moves : Moves lx s.1
  inside : InBlock lx.source lx.pos s.1.pos s.2

theorem blockStep_inComment {s s' : Lexer × Nat} (hs : InComment lx s)
    (h : blockStep s = some s') : InComment lx s' := by
  obtain ⟨hmoves, -, hinside⟩ := blockStep_some h
  refine ⟨hs.moves.trans hmoves, ?_⟩
  have := hinside lx.pos
  rw [hs.moves.source] at this
  exact this hs.inside

/-- A block comment is skipped to its end, or to the end of the source. -/
theorem skipBlockComment_spec (hp : lx.Placed)
    (hpair : PairAt lx.source lx.pos 47 42) :
    lx.skipBlockComment.source = lx.source ∧
      lx.pos < lx.skipBlockComment.pos ∧
      lx.skipBlockComment.Placed ∧
      lx.errors <+: lx.skipBlockComment.errors ∧
      (lx.Reported → lx.skipBlockComment.Reported) ∧
      lx.skipBlockComment.lastKind = lx.lastKind ∧
      (InBlock lx.source lx.pos lx.skipBlockComment.pos 0 ∨
        lx.skipBlockComment.pos = lx.source.length ∧
          lx.skipBlockComment.errors ≠ [] ∧
          ∃ depth, InBlock lx.source lx.pos lx.source.length (depth + 1)) := by
  obtain ⟨hopened, hpos⟩ := advance_advance hpair.1
  have hstart : InComment lx (lx.advance.advance, 1) := by
    refine ⟨hopened, ?_⟩
    simp only [hpos]
    exact .opened hpair
  have hin : InComment lx lx.blockRun :=
    Loop.run_invariant (fun s s' => blockStep_inComment) hstart _
  have hend : blockStep lx.blockRun = none := by
    refine Loop.step_run (μ := fun s => s.1.remaining) blockStep_measure ?_
    simp only [remaining, hopened.source]
    omega
  have hplaced := hin.moves.placed hp
  have hframe := hin.moves.frame
  simp only [frame, Prod.mk.injEq] at hframe
  simp only [skipBlockComment]
  split
  · rename_i hdepth
    have hlast : lx.blockRun.1.pos = lx.source.length := by
      have hle := hplaced.le
      have hnot : ¬ lx.blockRun.1.pos < lx.blockRun.1.source.length := by
        intro hlt
        simp only [blockStep] at hend
        rw [if_neg (by
          rintro (h | h)
          · exact not_atEnd_iff.mpr hlt h
          · omega)] at hend
        split_ifs at hend
      rw [hin.moves.source] at hle hnot
      omega
    obtain ⟨depth, hdepth'⟩ : ∃ depth, lx.blockRun.2 = depth + 1 :=
      ⟨lx.blockRun.2 - 1, by omega⟩
    have hinside := hin.inside
    rw [hlast, hdepth'] at hinside
    exact ⟨hin.moves.source, hin.inside.lt,
      ⟨hplaced.le, hplaced.line, hplaced.col⟩,
      hin.moves.errors.trans (List.prefix_append _ _),
      fun _ _ => errorAt_ne _ _ _ _, hframe.1,
      .inr ⟨hlast, errorAt_ne _ _ _ _, depth, hinside⟩⟩
  · rename_i hdepth
    have hinside := hin.inside
    rw [Nat.eq_zero_of_not_pos hdepth] at hinside
    exact ⟨hin.moves.source, hin.inside.lt, hplaced, hin.moves.errors,
      hin.moves.reported, hframe.1, .inl hinside⟩

end Comments

end Lexer
end Source
end Beans
