import Beans.Source.Pieces

/-!
# Quoting

The ordinary spelling of some bytes escapes just those that are special to the
lexer, to the escapes and to the slots.  It is one token without slots, and its
value is the bytes; a raw literal's value is the bytes between its delimiters.

**Results.**
* `quoting_decoding_inverse`: for the lexer, the walkers and the decoder.
-/

namespace Beans
namespace Source

/-- The byte that a one-letter escape stands for. -/
def markerByte (marker : UInt8) : UInt8 :=
  if marker = 110 then 10
  else if marker = 114 then 13
  else if marker = 116 then 9
  else if marker = 48 then 0
  else marker

/-- A byte is escaped by one letter, or stands for itself. -/
theorem quoteByte_cases (byte : UInt8) :
    (∃ marker : UInt8, quoteByte byte = [92, marker] ∧
      marker ∈ ([34, 92, 123, 125, 110, 114, 116, 48] : List UInt8) ∧
      markerByte marker = byte) ∨
      quoteByte byte = [byte] ∧
        byte ∉ ([34, 92, 123, 125, 10, 13, 9, 0] : List UInt8) := by
  simp only [quoteByte]
  split
  · rename_i h
    obtain rfl | rfl | rfl | rfl := h
    all_goals exact .inl ⟨_, rfl, by decide, by decide⟩
  rename_i hspecial
  split
  · rename_i h
    exact .inl ⟨110, rfl, by decide, by rw [h]; decide⟩
  split
  · rename_i h
    exact .inl ⟨114, rfl, by decide, by rw [h]; decide⟩
  split
  · rename_i h
    exact .inl ⟨116, rfl, by decide, by rw [h]; decide⟩
  split
  · rename_i h
    exact .inl ⟨48, rfl, by decide, by rw [h]; decide⟩
  · refine .inr ⟨rfl, ?_⟩
    simp only [List.mem_cons, List.not_mem_nil, or_false, not_or] at hspecial ⊢
    tauto

section Escapes

variable {source : Text} {index stop : Nat} {marker : UInt8}

/-- An escape by one letter takes two bytes. -/
theorem marker_length (hmarker : marker ∈ ([34, 92, 123, 125, 110, 114, 116, 48] : List UInt8))
    (hslash : byteAt source index = 92) (hbyte : byteAt source (index + 1) = marker.toNat)
    (hlt : index + 1 < stop) : stringEscapeLength source index stop = 2 := by
  have hhex : marker.toNat ≠ 120 ∧ marker.toNat ≠ 117 := by
    simp only [List.mem_cons, List.not_mem_nil, or_false] at hmarker
    obtain rfl | rfl | rfl | rfl | rfl | rfl | rfl | rfl := hmarker <;> decide
  simp only [stringEscapeLength, hbyte]
  rw [if_neg (by omega), if_neg (by omega), if_neg hhex.1, if_neg hhex.2]

theorem marker_text (hmarker : marker ∈ ([34, 92, 123, 125, 110, 114, 116, 48] : List UInt8))
    (hbyte : byteAt source (index + 1) = marker.toNat)
    (hlt : index + 1 < stop) (hin : index + 1 < source.length) :
    stringEscapeText source index stop = [markerByte marker] := by
  have hitself : slice source (index + 1) (index + 2) = [marker] := by
    rw [slice_one hin, getElem_of_byteAt hin hbyte]
  simp only [stringEscapeText, hbyte, hitself]
  rw [if_neg (by omega)]
  simp only [List.mem_cons, List.not_mem_nil, or_false] at hmarker
  obtain rfl | rfl | rfl | rfl | rfl | rfl | rfl | rfl := hmarker <;> rfl

theorem marker_known (hmarker : marker ∈ ([34, 92, 123, 125, 110, 114, 116, 48] : List UInt8))
    (hbyte : byteAt source (index + 1) = marker.toNat) (length : Nat) :
    Lexer.escapeError source index length = none := by
  simp only [Lexer.escapeError, hbyte]
  simp only [List.mem_cons, List.not_mem_nil, or_false] at hmarker
  obtain rfl | rfl | rfl | rfl | rfl | rfl | rfl | rfl := hmarker <;> rfl

/-- The first bytes of what is left. -/
theorem drop_cons {c : UInt8} {rest : Text} (h : source.drop index = c :: rest) :
    index < source.length ∧ byteAt source index = c.toNat ∧
      source.drop (index + 1) = rest := by
  have hlt : index < source.length := by
    by_contra hle
    rw [List.drop_eq_nil_of_le (Nat.not_lt.mp hle)] at h
    cases h
  rw [List.drop_eq_getElem_cons hlt] at h
  obtain ⟨rfl, rfl⟩ := List.cons.inj h
  exact ⟨hlt, byteAt_eq hlt, rfl⟩

end Escapes

/-- The value of a quoted body. -/
theorem run_decodeStep {source : Text} (t : Text) {fuel index : Nat}
    (hfuel : t.length ≤ fuel)
    (hrest : source.drop index = t.flatMap quoteByte ++ [34]) (acc : Text) :
    Loop.run (decodeStep source (source.length - 1)) fuel (index, acc) =
      (source.length - 1, acc ++ t) := by
  induction t generalizing fuel index acc with
  | nil =>
    obtain ⟨hlt, -, hnil⟩ := drop_cons hrest
    have hend := List.drop_eq_nil_iff.mp hnil
    have hdone : decodeStep source (source.length - 1) (index, acc) = none :=
      if_pos (by simp only; omega)
    rw [Loop.run_none hdone, List.append_nil]
    congr 1
    omega
  | cons byte t ih =>
    obtain ⟨fuel, rfl⟩ : ∃ f, fuel = f + 1 :=
      ⟨fuel - 1, by rw [List.length_cons] at hfuel; omega⟩
    have hfuel' : t.length ≤ fuel := Nat.le_of_succ_le_succ hfuel
    rw [List.flatMap_cons, List.append_assoc] at hrest
    obtain ⟨marker, hquote, hmarker, hvalue⟩ | ⟨hquote, hplain⟩ :=
      quoteByte_cases byte
    · rw [hquote] at hrest
      obtain ⟨-, hslash, hnext⟩ := drop_cons hrest
      obtain ⟨hin, hbyte, hafter⟩ := drop_cons hnext
      have hmore : index + 2 < source.length := by
        by_contra hle
        rw [List.drop_eq_nil_of_le (by omega)] at hafter
        simp at hafter
      have hturn : decodeStep source (source.length - 1) (index, acc) =
          some (index + 2, acc ++ [byte]) := by
        simp only [decodeStep]
        rw [if_neg (by omega), if_neg (by rw [hslash]; simp; omega),
          marker_length hmarker hslash hbyte (by omega),
          marker_text hmarker hbyte (by omega) hin, hvalue]
      rw [Loop.run_some hturn, ih hfuel' hafter, List.append_assoc]
      rfl
    · rw [hquote] at hrest
      obtain ⟨hin, hbyte, hafter⟩ := drop_cons hrest
      have hmore : index + 1 < source.length := by
        by_contra hle
        rw [List.drop_eq_nil_of_le (by omega)] at hafter
        simp at hafter
      have hslash : byteAt source index ≠ 92 := by
        rw [hbyte]
        intro heq
        have h92 : byte = 92 := UInt8.toNat_inj.mp heq
        exact hplain (by rw [h92]; decide)
      have hturn : decodeStep source (source.length - 1) (index, acc) =
          some (index + 1, acc ++ [byte]) := by
        simp only [decodeStep]
        rw [if_neg (by omega), if_pos (.inl hslash), slice_one hin,
          getElem_of_byteAt hin hbyte]
      rw [Loop.run_some hturn, ih hfuel' hafter, List.append_assoc]
      rfl

theorem quote_ordinary (t : Text) :
    stringLiteralQuote t = ordinaryLiteral (t.flatMap quoteByte) := rfl

theorem length_le_quoted (t : Text) :
    t.length ≤ (t.flatMap quoteByte).length := by
  induction t with
  | nil => exact Nat.le_refl _
  | cons byte t ih =>
    have hone : 1 ≤ (quoteByte byte).length := by
      obtain ⟨_, h, -⟩ | ⟨h, -⟩ := quoteByte_cases byte
      · rw [h]
        exact Nat.le_succ 1
      · rw [h]
        exact Nat.le_refl _
    rw [List.flatMap_cons, List.length_append, List.length_cons]
    omega

/-- Decoding undoes quoting. -/
theorem decode_quote (t : Text) :
    stringLiteralDecode (stringLiteralQuote t) = t := by
  have hlen : (ordinaryLiteral (t.flatMap quoteByte)).length - 1 =
      (t.flatMap quoteByte).length + 1 := by
    rw [ordinary_length]
    omega
  have hfuel := length_le_quoted t
  have hrun := @run_decodeStep (ordinaryLiteral (t.flatMap quoteByte)) t
    ((t.flatMap quoteByte).length + 1) 1 (by omega) rfl []
  rw [hlen] at hrun
  have hraw : stringLiteralIsRaw (ordinaryLiteral (t.flatMap quoteByte)) =
      false := by
    rw [stringLiteralIsRaw, hashes_ordinary]
    rfl
  simp only [stringLiteralDecode, quote_ordinary, bodyStart_ordinary,
    bodyEnd_ordinary, hraw, hrun]
  rfl

/-- The value of a raw literal is its body. -/
theorem decode_raw (n : Nat) (body : Text) :
    stringLiteralDecode (rawLiteral n body) = body := by
  have hlen : (rawLiteral n body).length = body.length + 2 * n + 3 := by
    simp [rawLiteral]
    omega
  have hraw : stringLiteralIsRaw (rawLiteral n body) = true := by
    rw [stringLiteralIsRaw, hashes_raw]
    rfl
  have hstart : stringLiteralBodyStart (rawLiteral n body) = n + 2 := by
    rw [stringLiteralBodyStart, hashes_raw]
  have hstop : stringLiteralBodyEnd (rawLiteral n body) =
      n + 2 + body.length := by
    rw [stringLiteralBodyEnd, hashes_raw]
    simp only [hstart, hlen]
    omega
  have hopening : (114 :: (List.replicate n 35 ++ [34]) : Text).length =
      n + 2 := by simp
  have hparts : rawLiteral n body = (114 :: (List.replicate n 35 ++ [34])) ++
      (body ++ 34 :: List.replicate n 35) := by
    simp [rawLiteral]
  simp only [stringLiteralDecode, hraw, if_true, hstart, hstop]
  rw [slice, List.drop_take, Nat.add_sub_cancel_left, hparts,
    List.drop_left' hopening, List.take_left' rfl]

namespace Lexer

section Turns

variable {source : Text} {s : StringScan}

@[simp] theorem advanceN_errors (n : Nat) (lx : Lexer) :
    (advanceN n lx).errors = lx.errors := by
  induction n generalizing lx with
  | zero => rfl
  | succ n ih => rw [advanceN, ih, advance_errors]

/-- The turn on a one-letter escape outside slots. -/
theorem stringStep_marker {marker : UInt8} (hs : Open source s)
    (hdepth : s.depth = 0)
    (hmarker : marker ∈ ([34, 92, 123, 125, 110, 114, 116, 48] : List UInt8))
    (hslash : byteAt source s.lexer.pos = 92)
    (hbyte : byteAt source (s.lexer.pos + 1) = marker.toNat)
    (hlt : s.lexer.pos + 1 < source.length) :
    ∃ s', stringStep s = some s' ∧ Open source s' ∧ s'.depth = 0 ∧
      s'.lexer.pos = s.lexer.pos + 2 ∧ s'.lexer.errors = s.lexer.errors := by
  have hin : s.lexer.pos < s.lexer.source.length := by
    rw [hs.same]
    omega
  have hpeek : s.lexer.peek = 92 := by
    rw [peek_eq_byteAt hin, hs.same, hslash]
  obtain ⟨hmoves, hpos⟩ := scanEscape_moves hin s.lexer.line s.lexer.col
  rw [hs.same, marker_length hmarker hslash hbyte hlt] at hpos
  have herrors : (s.lexer.scanEscape s.lexer.line s.lexer.col).errors =
      s.lexer.errors := by
    simp only [scanEscape, hs.same, marker_known hmarker hbyte]
    rw [if_neg (by omega), advanceN_errors]
  have hopen : ¬ (s.lexer.atEnd = true ∨ s.closed = true ∨
      s.endedAtLine = true) := by
    rw [hs.closed, hs.line]
    simpa using not_atEnd_iff.mpr hin
  refine ⟨{ s with lexer := s.lexer.scanEscape s.lexer.line s.lexer.col }, ?_,
    ⟨hmoves.source.trans hs.same, hs.closed, hs.line⟩, hdepth, hpos, herrors⟩
  simp only [stringStep, hpeek, hdepth]
  rw [if_neg hopen]
  rfl

/-- The turn on a byte that is not special outside slots. -/
theorem stringStep_byte {byte : UInt8} (hs : Open source s)
    (hdepth : s.depth = 0)
    (hplain : byte ∉ ([34, 92, 123, 125, 10, 13, 9, 0] : List UInt8))
    (hbyte : byteAt source s.lexer.pos = byte.toNat)
    (hlt : s.lexer.pos < source.length) :
    ∃ s', stringStep s = some s' ∧ Open source s' ∧ s'.depth = 0 ∧
      s'.lexer.pos = s.lexer.pos + 1 ∧ s'.lexer.errors = s.lexer.errors := by
  have hin : s.lexer.pos < s.lexer.source.length := by rwa [hs.same]
  have hpeek : s.lexer.peek = byte.toNat := by
    rw [peek_eq_byteAt hin, hs.same, hbyte]
  have hne : ∀ v : UInt8,
      v ∈ ([34, 92, 123, 125, 10, 13, 9, 0] : List UInt8) →
        s.lexer.peek ≠ v.toNat := by
    rintro v hv heq
    rw [hpeek] at heq
    rw [UInt8.toNat_inj.mp heq] at hplain
    exact hplain hv
  have hopen : ¬ (s.lexer.atEnd = true ∨ s.closed = true ∨
      s.endedAtLine = true) := by
    rw [hs.closed, hs.line]
    simpa using not_atEnd_iff.mpr hin
  refine ⟨{ s with lexer := s.lexer.advance }, ?_,
    ⟨advance_source.trans hs.same, hs.closed, hs.line⟩, hdepth,
    advance_pos hin, advance_errors⟩
  have hline : s.lexer.peek ≠ 10 := hne 10 (by decide)
  have hescape : s.lexer.peek ≠ 92 := hne 92 (by decide)
  have hbrace : s.lexer.peek ≠ 123 := hne 123 (by decide)
  have hquote : s.lexer.peek ≠ 34 := hne 34 (by decide)
  simp only [stringStep, hdepth]
  rw [if_neg hopen, if_neg hline, if_neg (by simp), if_neg hescape,
    if_neg (by omega), if_neg hbrace, if_neg hquote]

/-- The turn on the closing quote. -/
theorem stringStep_quote (hs : Open source s) (hdepth : s.depth = 0)
    (hbyte : byteAt source s.lexer.pos = 34) :
    stringStep s =
      some { s with lexer := s.lexer.advance, closed := true } := by
  have hlt : s.lexer.pos < source.length :=
    lt_of_byteAt (by rw [hbyte]; decide)
  have hin : s.lexer.pos < s.lexer.source.length := by rwa [hs.same]
  have hpeek : s.lexer.peek = 34 := by
    rw [peek_eq_byteAt hin, hs.same, hbyte]
  have hopen : ¬ (s.lexer.atEnd = true ∨ s.closed = true ∨
      s.endedAtLine = true) := by
    rw [hs.closed, hs.line]
    simpa using not_atEnd_iff.mpr hin
  simp only [stringStep, hpeek, hdepth]
  rw [if_neg hopen]
  rfl

/-- The lexer goes through a quoted body without a slot or a report. -/
theorem run_quoted (t : Text) {n : Nat} (hfuel : t.length < n)
    (hs : Open source s) (hdepth : s.depth = 0)
    (hrest : source.drop s.lexer.pos = t.flatMap quoteByte ++ [34]) :
    Closes (source.length - 1) n s ∧
      (Loop.run stringStep n s).lexer.errors = s.lexer.errors ∧
      ∀ start, slotsFrom n start s = [] := by
  induction t generalizing n s with
  | nil =>
    obtain ⟨n, rfl⟩ : ∃ m, n = m + 1 := ⟨n - 1, by omega⟩
    obtain ⟨hlt, hbyte, hnil⟩ := drop_cons hrest
    have hend := List.drop_eq_nil_iff.mp hnil
    have hturn := stringStep_quote hs hdepth hbyte
    have hdone : stringStep
        { s with lexer := s.lexer.advance, closed := true } = none :=
      stringStep_done (.inl rfl)
    have hpos : s.lexer.advance.pos = s.lexer.pos + 1 :=
      advance_pos (by rwa [hs.same])
    have hslots : ∀ m start, slotsFrom m start
        { s with lexer := s.lexer.advance, closed := true } = [] := by
      intro m start
      cases m with
      | zero => rfl
      | succ m => simp only [slotsFrom, hdone]
    rw [Closes, Loop.run_some hturn, Loop.run_none hdone]
    refine ⟨⟨rfl, by simp only [hpos]; omega⟩, advance_errors,
      fun start => ?_⟩
    rw [slotsFrom]
    simp only [hturn]
    rw [if_pos hdepth, hslots]
  | cons byte t ih =>
    obtain ⟨n, rfl⟩ : ∃ m, n = m + 1 := ⟨n - 1, by omega⟩
    have hfuel' : t.length < n := Nat.lt_of_succ_lt_succ hfuel
    rw [List.flatMap_cons, List.append_assoc] at hrest
    have hturn : ∃ s', stringStep s = some s' ∧ Open source s' ∧
        s'.depth = 0 ∧ s'.lexer.errors = s.lexer.errors ∧
        source.drop s'.lexer.pos = t.flatMap quoteByte ++ [34] := by
      obtain ⟨marker, hquote, hmarker, -⟩ | ⟨hquote, hplain⟩ :=
        quoteByte_cases byte
      · rw [hquote] at hrest
        obtain ⟨-, hslash, hnext⟩ := drop_cons hrest
        obtain ⟨hin, hbyte, hafter⟩ := drop_cons hnext
        obtain ⟨s', hstep, hs', hzero, hpos, herrors⟩ :=
          stringStep_marker hs hdepth hmarker hslash hbyte hin
        exact ⟨s', hstep, hs', hzero, herrors, by rw [hpos]; exact hafter⟩
      · rw [hquote] at hrest
        obtain ⟨hin, hbyte, hafter⟩ := drop_cons hrest
        obtain ⟨s', hstep, hs', hzero, hpos, herrors⟩ :=
          stringStep_byte hs hdepth hplain hbyte hin
        exact ⟨s', hstep, hs', hzero, herrors, by rw [hpos]; exact hafter⟩
    obtain ⟨s', hstep, hs', hzero, herrors, hrest'⟩ := hturn
    obtain ⟨hcloses, hsame, hslots⟩ := ih hfuel' hs' hzero hrest'
    rw [Closes, Loop.run_some hstep]
    refine ⟨hcloses, hsame.trans herrors, fun start => ?_⟩
    simp only [slotsFrom, hstep, hdepth, if_true, hslots]

end Turns

/-- The turn of `scan` at a quote. -/
theorem scanStep_quote {lx : Lexer} (hin : lx.atEnd = false)
    (hquote : lx.peek = 34) (out : List Token) :
    scanStep (lx, out) = some (lx.scanString out lx.pos lx.line lx.col) := by
  simp [scanStep, hin, hquote, isAlpha, isDigit]

theorem scanString_closed {lx : Lexer} (hclosed : lx.stringRun.closed = true)
    (out : List Token) (start line col : Nat) :
    lx.scanString out start line col =
      ({ lx.stringRun.lexer with lastKind := some .string, haveToken := true },
        out ++ [⟨.string, slice lx.stringRun.lexer.source start
          lx.stringRun.lexer.pos, line, col⟩]) := by
  simp only [scanString]
  rw [if_pos hclosed]
  rfl

/-- The first turn of `scan` takes the quoted literal. -/
theorem scanStep_quoted (t : Text) :
    ∃ lx : Lexer, scanStep (init (stringLiteralQuote t), []) =
        some (lx, [⟨.string, stringLiteralQuote t, 1, 1⟩]) ∧
      lx.atEnd = true ∧ lx.errors = [] ∧ lx.haveToken = true ∧
      lx.lastKind = some .string ∧ lx.sourceEndedInError = false ∧
      (init (stringLiteralQuote t)).stringRun.closed = true ∧
      (init (stringLiteralQuote t)).stringRun.lexer.pos =
        (stringLiteralQuote t).length ∧
      (init (stringLiteralQuote t)).stringSlots = [] := by
  have hlength : (stringLiteralQuote t).length =
      (t.flatMap quoteByte).length + 2 := ordinary_length _
  have hin : (init (stringLiteralQuote t)).pos <
      (init (stringLiteralQuote t)).source.length := by
    change 0 < (stringLiteralQuote t).length
    omega
  have hpeek : (init (stringLiteralQuote t)).peek = 34 := by
    rw [peek_eq hin]
    rfl
  have hpos := advance_pos hin
  have hstart : Open (stringLiteralQuote t)
      ⟨(init (stringLiteralQuote t)).advance, 0, false, false, false⟩ :=
    ⟨advance_source, rfl, rfl⟩
  have hfuel := length_le_quoted t
  obtain ⟨hcloses, herrors, hslots⟩ := run_quoted t
    (n := (stringLiteralQuote t).length + 1) (by omega) hstart rfl (by
      simp only [hpos]
      rfl)
  obtain ⟨hmoves, -, -⟩ := stringRun_spec hin
  have hend : (init (stringLiteralQuote t)).stringRun.lexer.pos =
      (stringLiteralQuote t).length := by
    rw [show (init (stringLiteralQuote t)).stringRun.lexer.pos = _ from
      hcloses.2]
    omega
  have hframe := hmoves.frame
  simp only [frame, Prod.mk.injEq] at hframe
  have htext : slice (init (stringLiteralQuote t)).stringRun.lexer.source 0
      (init (stringLiteralQuote t)).stringRun.lexer.pos =
        stringLiteralQuote t := by
    rw [hend, hmoves.source]
    exact List.take_length
  refine ⟨{ (init (stringLiteralQuote t)).stringRun.lexer with
    lastKind := some .string, haveToken := true }, ?_, ?_, ?_, rfl, rfl,
    hframe.2.2.1, hcloses.1, hend, hslots 0⟩
  · have hnot : (init (stringLiteralQuote t)).atEnd = false :=
      Bool.eq_false_iff.mpr (not_atEnd_iff.mpr hin)
    have hclosed : (init (stringLiteralQuote t)).stringRun.closed = true :=
      hcloses.1
    rw [scanStep_quote hnot hpeek, scanString_closed hclosed]
    change some (_, [] ++ [_]) = _
    rw [List.nil_append]
    congr 4
  · rw [atEnd_iff]
    simp only
    rw [hmoves.source, hend]
    exact Nat.le_refl _
  · exact herrors.trans advance_errors

/-- A quoted literal is one token, without a report. -/
theorem scan_quoted (t : Text) :
    ∃ (lx : Lexer) (line col : Nat), scan (init (stringLiteralQuote t)) =
        (lx, [⟨.string, stringLiteralQuote t, 1, 1⟩, ⟨.newline, [], line, col⟩,
          ⟨.eof, [], line, col⟩]) ∧
      lx.errors = [] ∧ lx.sourceEndedInError = false := by
  obtain ⟨lx, hstep, hatEnd, herrors, htoken, hkind, hended, -⟩ :=
    scanStep_quoted t
  have hdone : scanStep (lx, [⟨.string, stringLiteralQuote t, 1, 1⟩]) = none := by
    simp only [scanStep]
    rw [if_pos hatEnd]
  have hlength : (stringLiteralQuote t).length =
      (t.flatMap quoteByte).length + 1 + 1 := ordinary_length _
  have hrun : scanRun (stringLiteralQuote t) =
      (lx, [⟨.string, stringLiteralQuote t, 1, 1⟩]) := by
    rw [scanRun, hlength, Loop.run_some hstep, Loop.run_none hdone]
  have hends : lx.haveToken = true ∧ lx.lastKind.any endsStatement = true := by
    rw [htoken, hkind]
    exact ⟨rfl, rfl⟩
  refine ⟨{ lx with lastKind := some .newline }, lx.line, lx.col, ?_, herrors,
    hended⟩
  rw [scan_eq, endedRun, hrun]
  simp only [if_pos hends, addNewline]
  rfl

/-- A quoted literal has no slot. -/
theorem walk_quoted (t : Text) :
    WalksBody (stringLiteralQuote t) ∧
      (walkBody (stringLiteralQuote t)).slots = [] := by
  obtain ⟨-, -, -, -, -, -, -, hclosed, hend, hslots⟩ := scanStep_quoted t
  have hquote : (init (stringLiteralQuote t)).peek = 34 := by
    rw [quote_ordinary]
    rfl
  obtain ⟨hwalks, hmap⟩ := walkBody_closed hquote hclosed
  have htext : slice (init (stringLiteralQuote t)).source
      (init (stringLiteralQuote t)).pos
      (init (stringLiteralQuote t)).stringRun.lexer.pos =
        stringLiteralQuote t := by
    rw [hend]
    exact List.take_length
  rw [htext] at hwalks hmap
  rw [hslots] at hmap
  exact ⟨hwalks, List.map_eq_nil_iff.mp hmap.symm⟩

/-- Quoting and decoding are inverse: for the lexer, the walkers and the decoder,
quoted bytes are one literal whose value they are, and a raw literal's value is
the bytes between its delimiters, cooked or not. -/
theorem quoting_decoding_inverse :
    (∀ t : Text, (∃ (lx : Lexer) (line col : Nat),
        scan (init (stringLiteralQuote t)) =
          (lx, [⟨.string, stringLiteralQuote t, 1, 1⟩,
            ⟨.newline, [], line, col⟩, ⟨.eof, [], line, col⟩]) ∧
        lx.errors = [] ∧ lx.sourceEndedInError = false) ∧
      (WalksBody (stringLiteralQuote t) ∧
        (walkBody (stringLiteralQuote t)).slots = []) ∧
      stringLiteralDecode (stringLiteralQuote t) = t) ∧
    ∀ (source : Text) (tok : Token), tok ∈ (scan (init source)).2 →
      tok.kind = .string → stringLiteralIsRaw tok.text = true →
      ∃ n body, tok.text = rawLiteral n body ∧
        stringLiteralDecode tok.text = body ∧
        stringLiteralDecode (stringLiteralCook tok.text) = body := by
  refine ⟨fun t => ⟨scan_quoted t, walk_quoted t, decode_quote t⟩, ?_⟩
  intro source tok htok hkind hraw
  obtain ⟨lx, -, hfrom⟩ := string_token_from htok hkind
  generalize tok.text = text at hfrom hraw
  cases hfrom with
  | ordinary hquote hclosed =>
    have hlt := @lt_of_peek lx (by rw [hquote]; decide)
    obtain ⟨-, -, hfound⟩ := stringRun_spec hlt
    obtain ⟨q, hpq, hend, hclose⟩ := hfound hclosed
    rw [peek_eq_byteAt hlt] at hquote
    rw [hend, ordinary_slice hpq hquote hclose, stringLiteralIsRaw,
      hashes_ordinary] at hraw
    cases hraw
  | @raw n hopen hclosed =>
    obtain ⟨-, -, hfound, -⟩ := consumeRawLiteral_spec hopen
    obtain ⟨q, hend, hfirst⟩ := hfound hclosed
    rw [hend, raw_slice hopen hfirst.le hfirst.closed] at hraw ⊢
    refine ⟨n, _, rfl, decode_raw n _, ?_⟩
    rw [stringLiteralCook, if_pos hraw, decode_raw, decode_quote]

/-- A raw literal with a quote in its body. -/
def rawSource : Text := ascii "r#\"a\"b\"#"

/-- `rawSource` has a quote inside its hash marks. -/
theorem quoting_decoding_inverse_raw :
    ∃ n body, rawSource = rawLiteral n body ∧
      stringLiteralDecode rawSource = body ∧
      stringLiteralDecode (stringLiteralCook rawSource) = body :=
  quoting_decoding_inverse.2 rawSource ⟨.string, rawSource, 1, 1⟩
    (by decide) rfl (by decide)

end Lexer
end Source
end Beans
