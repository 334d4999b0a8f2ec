import Beans.Source.Lexer
import Beans.Source.Slices

/-!
# How the lexer moves

Every part of the lexer moves forward within the source, keeps the line and the
column those of its position, and only adds diagnostics.  Loops inherit this
from one turn.
-/

namespace Beans
namespace Source

/-- The 1-based line of a position. -/
def lineAt (source : Text) (p : Nat) : Nat := 1 + (source.take p).count 10

/-- The 1-based byte column of a position. -/
def colAt (source : Text) (p : Nat) : Nat :=
  1 + ((source.take p).reverse.takeWhile (· != 10)).length

variable {source : Text}

theorem lineAt_succ {p : Nat} (h : p < source.length) :
    lineAt source (p + 1) =
      if source[p] = 10 then lineAt source p + 1 else lineAt source p := by
  rw [lineAt, lineAt, List.take_succ_eq_append_getElem h, List.count_append,
    List.count_singleton]
  by_cases hnl : source[p] = 10
  · simp [hnl, Nat.add_assoc]
  · simp [hnl]

theorem colAt_succ {p : Nat} (h : p < source.length) :
    colAt source (p + 1) =
      if source[p] = 10 then 1 else colAt source p + 1 := by
  rw [colAt, colAt, List.take_succ_eq_append_getElem h, List.reverse_append,
    List.reverse_singleton, List.singleton_append, List.takeWhile_cons]
  by_cases hnl : source[p] = 10
  · simp [hnl]
  · simp [hnl, Nat.add_assoc]

namespace Lexer

/-- The lexer stands in the source, at its line and column. -/
structure Placed (lx : Lexer) : Prop where
  le : lx.pos ≤ lx.source.length
  line : lx.line = lineAt lx.source lx.pos
  col : lx.col = colAt lx.source lx.pos

/-- The fields that only whole tokens change. -/
def frame (lx : Lexer) : Option Kind × Bool × Bool × Nat :=
  (lx.lastKind, lx.haveToken, lx.sourceEndedInError, lx.openStringLine)

/-- The second lexer is the first one further on. -/
structure Moves (lx lx' : Lexer) : Prop where
  source : lx'.source = lx.source
  le : lx.pos ≤ lx'.pos
  placed : lx.Placed → lx'.Placed
  errors : lx.errors <+: lx'.errors
  frame : lx'.frame = lx.frame

theorem Moves.rfl {lx : Lexer} : Moves lx lx :=
  ⟨Eq.refl _, Nat.le_refl _, id, List.prefix_rfl, Eq.refl _⟩

theorem Moves.trans {lx lx' lx'' : Lexer} (h : Moves lx lx')
    (h' : Moves lx' lx'') : Moves lx lx'' :=
  ⟨h'.source.trans h.source, h.le.trans h'.le, h'.placed ∘ h.placed,
    h.errors.trans h'.errors, h'.frame.trans h.frame⟩

section Advance

variable {lx : Lexer}

theorem atEnd_iff : lx.atEnd = true ↔ lx.source.length ≤ lx.pos :=
  decide_eq_true_iff

theorem not_atEnd_iff : ¬ lx.atEnd = true ↔ lx.pos < lx.source.length := by
  rw [atEnd_iff, Nat.not_le]

theorem peek_eq (h : lx.pos < lx.source.length) :
    lx.peek = lx.source[lx.pos].toNat := by
  rw [peek, if_neg (not_atEnd_iff.mpr h), byteAt_eq h]

/-- A byte that is not 0 is looked at within the source. -/
theorem lt_of_peek (h : lx.peek ≠ 0) : lx.pos < lx.source.length := by
  by_contra hend
  exact h (if_pos (atEnd_iff.mpr (Nat.not_lt.mp hend)))

theorem lt_of_peekNext (h : lx.peekNext ≠ 0) :
    lx.pos + 1 < lx.source.length := by
  by_contra hend
  exact h (if_pos (Nat.not_lt.mp hend))

@[simp] theorem advance_source : lx.advance.source = lx.source := by
  rw [advance]
  split_ifs <;> rfl

@[simp] theorem advance_errors : lx.advance.errors = lx.errors := by
  rw [advance]
  split_ifs <;> rfl

@[simp] theorem advance_frame : lx.advance.frame = lx.frame := by
  rw [advance]
  split_ifs <;> rfl

theorem advance_pos (h : lx.pos < lx.source.length) :
    lx.advance.pos = lx.pos + 1 := by
  have hend := not_atEnd_iff.mpr h
  simp only [advance, if_neg hend]
  split_ifs <;> rfl

theorem peek_newline_iff (h : lx.pos < lx.source.length) :
    lx.peek = 10 ↔ lx.source[lx.pos] = 10 := by
  rw [peek_eq h]
  exact ⟨fun heq => UInt8.toNat_inj.mp heq, fun heq => by rw [heq]; rfl⟩

theorem advance_line (h : lx.pos < lx.source.length) : lx.advance.line =
    if lx.source[lx.pos] = 10 then lx.line + 1 else lx.line := by
  simp only [advance, peek_newline_iff h]
  split <;> rfl

theorem advance_col (h : lx.pos < lx.source.length) : lx.advance.col =
    if lx.source[lx.pos] = 10 then 1 else lx.col + 1 := by
  simp only [advance, peek_newline_iff h]
  split <;> rfl

theorem advance_moves (h : lx.pos < lx.source.length) :
    Moves lx lx.advance where
  source := advance_source
  le := by
    rw [advance_pos h]
    omega
  placed hp := by
    refine ⟨?_, ?_, ?_⟩
    · rw [advance_pos h, advance_source]
      omega
    · rw [advance_line h, advance_pos h, advance_source, lineAt_succ h, hp.line]
    · rw [advance_col h, advance_pos h, advance_source, colAt_succ h, hp.col]
  errors := by rw [advance_errors]
  frame := advance_frame

theorem errorAt_moves (line col : Nat) (message : Text) :
    Moves lx (lx.errorAt line col message) where
  source := rfl
  le := Nat.le_refl _
  placed hp := ⟨hp.le, hp.line, hp.col⟩
  errors := List.prefix_append _ _
  frame := rfl

/-- Several bytes within the source. -/
theorem advanceN_moves {n : Nat} (h : lx.pos + n ≤ lx.source.length) :
    Moves lx (advanceN n lx) ∧ (advanceN n lx).pos = lx.pos + n := by
  induction n generalizing lx with
  | zero => exact ⟨.rfl, rfl⟩
  | succ n ih =>
    have hlt : lx.pos < lx.source.length := by omega
    have hpos := advance_pos hlt
    obtain ⟨hmoves, hn⟩ := @ih lx.advance
      (by rw [hpos, advance_source]; omega)
    refine ⟨(advance_moves hlt).trans hmoves, ?_⟩
    rw [advanceN, hn, hpos]
    omega

end Advance

section Loops

variable {lx : Lexer}

/-- A loop whose turns each advance. -/
theorem loop_moves {σ : Type} {step : σ → Option σ} (lexer : σ → Lexer)
    (hstep : ∀ s s', step s = some s' → Moves (lexer s) (lexer s')) (s : σ)
    (n : Nat) : Moves (lexer s) (lexer (Loop.run step n s)) :=
  Loop.run_rel (R := fun s t => Moves (lexer s) (lexer t)) (fun _ => .rfl)
    (fun _ _ _ => .trans) hstep s n

variable {p : Nat → Bool}

theorem byteStep_some (hp : p 0 = false) {s s' : Lexer}
    (h : byteStep p s = some s') :
    s.pos < s.source.length ∧ s' = s.advance := by
  rw [byteStep] at h
  split at h
  · rename_i hpeek
    cases h
    refine ⟨lt_of_peek fun hzero => ?_, rfl⟩
    rw [hzero, hp] at hpeek
    cases hpeek
  · cases h

theorem advanceWhile_moves (hp : p 0 = false) (lx : Lexer) :
    Moves lx (lx.advanceWhile p) := by
  refine loop_moves id (fun s s' h => ?_) lx _
  obtain ⟨hlt, rfl⟩ := byteStep_some hp h
  exact advance_moves hlt

theorem remaining_advance (h : lx.pos < lx.source.length) :
    lx.advance.remaining < lx.remaining := by
  rw [remaining, remaining, advance_pos h, advance_source]
  omega

/-- The loop takes the bytes that satisfy the test. -/
theorem run_byteStep (hp : p 0 = false) {n : Nat}
    {lx : Lexer} (h : lx.remaining ≤ n) :
    Loop.run (byteStep p) n lx = advanceN
      ((lx.source.drop lx.pos).takeWhile fun c => p c.toNat).length lx := by
  induction n generalizing lx with
  | zero =>
    have hnil : lx.source.drop lx.pos = [] := by
      rw [remaining] at h
      exact List.drop_eq_nil_of_le (by omega)
    rw [hnil]
    rfl
  | succ n ih =>
    by_cases hlt : lx.pos < lx.source.length
    · have hcons : lx.source.drop lx.pos =
          lx.source[lx.pos] :: lx.source.drop (lx.pos + 1) :=
        List.drop_eq_getElem_cons hlt
      by_cases hpeek : p lx.peek = true
      · have hturn : byteStep p lx = some lx.advance := if_pos hpeek
        have hless := remaining_advance hlt
        rw [Loop.run_some hturn, @ih lx.advance (by omega), advance_source,
          advance_pos hlt, hcons, List.takeWhile_cons,
          if_pos (by rwa [peek_eq hlt] at hpeek)]
        rfl
      · have hturn : byteStep p lx = none := if_neg hpeek
        rw [Loop.run_none hturn, hcons, List.takeWhile_cons,
          if_neg (by rwa [peek_eq hlt] at hpeek)]
        rfl
    · have hzero : lx.peek = 0 :=
        if_pos (atEnd_iff.mpr (Nat.not_lt.mp hlt))
      have hturn : byteStep p lx = none := if_neg (by rw [hzero, hp]; decide)
      rw [Loop.run_none hturn, List.drop_eq_nil_of_le (Nat.not_lt.mp hlt)]
      rfl

theorem advanceWhile_eq (hp : p 0 = false) (lx : Lexer) :
    lx.advanceWhile p = advanceN
      ((lx.source.drop lx.pos).takeWhile fun c => p c.toNat).length lx :=
  run_byteStep hp (Nat.sub_le _ _)

end Loops

section Numbers

variable {lx : Lexer}

variable {digit : Nat → Bool}

theorem digitStep_some (hdigit : digit 0 = false)
    {s s' : Lexer × Bool} (h : digitStep digit s = some s') :
    s.1.pos < s.1.source.length ∧ s'.1 = s.1.advance := by
  rw [digitStep] at h
  split at h
  · rename_i hpeek
    cases h
    refine ⟨lt_of_peek fun hzero => ?_, rfl⟩
    rw [hzero, hdigit] at hpeek
    exact absurd hpeek (by decide)
  · cases h

theorem scanDigits_moves (hdigit : digit 0 = false)
    (lx : Lexer) : Moves lx (scanDigits digit lx).1 := by
  refine @loop_moves _ (digitStep digit) Prod.fst (fun s s' h => ?_)
    (lx, false) _
  obtain ⟨hlt, heq⟩ := digitStep_some hdigit h
  rw [heq]
  exact advance_moves hlt

theorem scanFraction_moves (lx : Lexer) : Moves lx lx.scanFraction.1 := by
  rw [scanFraction]
  split
  · rename_i h
    have hlt : lx.pos < lx.source.length := lt_of_peek (by rw [h.1]; decide)
    exact (advance_moves hlt).trans (advanceWhile_moves (by decide) _)
  · exact .rfl

/-- The sign of an exponent. -/
theorem sign_moves (lx : Lexer) :
    Moves lx (if lx.peek = 43 ∨ lx.peek = 45 then lx.advance else lx) := by
  split
  · rename_i h
    exact advance_moves (lt_of_peek (by omega))
  · exact .rfl

theorem scanExponent_moves (lx : Lexer) : Moves lx lx.scanExponent.1 := by
  simp only [scanExponent]
  split
  · rename_i h
    have hlt : lx.pos < lx.source.length := lt_of_peek (by omega)
    split
    · exact (advance_moves hlt).trans
        ((sign_moves _).trans (advanceWhile_moves (by decide) _))
    · exact .rfl
  · exact .rfl

end Numbers

section Strings

variable {lx : Lexer}

/-- An escape moves over its length. -/
theorem scanEscape_moves (h : lx.pos < lx.source.length) (line col : Nat) :
    Moves lx (lx.scanEscape line col) ∧ (lx.scanEscape line col).pos =
      lx.pos + stringEscapeLength lx.source lx.pos lx.source.length := by
  have hbounds := @stringEscapeLength_bounds lx.source _ _ h
  rw [scanEscape]
  split
  · rename_i hlast
    have hone : stringEscapeLength lx.source lx.pos lx.source.length = 1 := by
      simp [stringEscapeLength, hlast]
    exact ⟨advance_moves h, by rw [advance_pos h, hone]⟩
  · simp only
    cases escapeError lx.source lx.pos
        (stringEscapeLength lx.source lx.pos lx.source.length) with
    | none => exact advanceN_moves hbounds.2
    | some message =>
      have hmoves := @errorAt_moves lx line col message
      obtain ⟨h', hpos⟩ := @advanceN_moves (lx.errorAt line col message) _
        hbounds.2
      exact ⟨hmoves.trans h', hpos⟩

/-- What one turn of the search for a raw terminator does. -/
theorem rawStep_some {hashes : Nat} {s s' : Lexer × Bool}
    (h : rawStep hashes s = some s') :
    s.1.pos < s.1.source.length ∧ s.2 = false ∧ Moves s.1 s'.1 ∧
      ((s' = (advanceN (1 + hashes) s.1, true) ∧
          s'.1.pos = s.1.pos + 1 + hashes ∧
          RawClosed s.1.source hashes s.1.pos) ∨
        (s' = (s.1.advance, false) ∧
          ¬ RawClosed s.1.source hashes s.1.pos)) := by
  rw [rawStep] at h
  split at h
  · cases h
  rename_i hopen
  have hlt : s.1.pos < s.1.source.length :=
    not_atEnd_iff.mp fun hend => hopen (.inl hend)
  have hnot : s.2 = false := Bool.eq_false_iff.mpr fun hs => hopen (.inr hs)
  have hbyte : s.1.peek = byteAt s.1.source s.1.pos := by
    rw [peek_eq hlt, byteAt_eq hlt]
  rw [hbyte] at h
  split at h
  · rename_i hfound
    cases h
    obtain ⟨hle, hslice⟩ := (hashRun_full_iff (by omega)).mp hfound.2
    obtain ⟨hmoves, hpos⟩ := @advanceN_moves s.1 (1 + hashes) (by omega)
    exact ⟨hlt, hnot, hmoves, .inl ⟨rfl, by rw [hpos]; omega, hfound.1,
      hslice⟩⟩
  · rename_i hmissed
    cases h
    refine ⟨hlt, hnot, advance_moves hlt, .inr ⟨rfl, fun hclosed => ?_⟩⟩
    exact hmissed ⟨hclosed.quote, (hashRun_full_iff (by omega)).mpr
      ⟨hclosed.le, hclosed.hashes⟩⟩

/-- The opening of a raw literal, before the search for its terminator. -/
def rawOpened (lx : Lexer) : Lexer :=
  (lx.advance.advanceWhile (· == 35)).advance

variable {n : Nat} {s s' : StringScan}

theorem consumeRawLiteral_eq (h : rawHashesAt lx.source lx.pos lx.source.length = some n) :
    lx.consumeRawLiteral =
        Loop.run (rawStep n) lx.source.length (lx.rawOpened, false) ∧
      Moves lx lx.rawOpened ∧ lx.rawOpened.pos = lx.pos + n + 2 := by
  obtain ⟨hlt, hr, hhashes, hquote⟩ := (rawHashesAt_iff (Nat.le_refl _)).mp h
  have hpos : lx.pos < lx.source.length := by omega
  have hadv := advance_pos hpos
  have hrun : ((lx.advance.source.drop lx.advance.pos).takeWhile
      fun c => c.toNat == 35).length = n := by
    have := @hashRun_eq lx.source _ _ lx.source.length _
      (Nat.le_refl _) hlt hhashes (by rw [hquote]; decide) (by omega)
    rw [hashRun, slice, List.take_length, List.take_of_length_le (by
      rw [List.length_drop]; omega)] at this
    rw [hadv, advance_source, ← this]
    congr 2
    funext c
    rw [Bool.eq_iff_iff, beq_iff_eq, beq_iff_eq]
    exact ⟨fun hc => UInt8.toNat_inj.mp hc, fun hc => by rw [hc]; rfl⟩
  have heq := advanceWhile_eq (p := fun c => c == 35) (by decide) lx.advance
  rw [hrun] at heq
  obtain ⟨hmoves, hn⟩ := @advanceN_moves lx.advance n (by
    rw [hadv, advance_source]; omega)
  rw [← heq, hadv] at hn
  rw [← heq] at hmoves
  have hsource : (lx.advance.advanceWhile (· == 35)).source = lx.source := by
    rw [hmoves.source, advance_source]
  have hlast : (lx.advance.advanceWhile (· == 35)).pos <
      (lx.advance.advanceWhile (· == 35)).source.length := by
    rw [hn, hsource]
    exact hlt
  refine ⟨?_, (advance_moves hpos).trans (hmoves.trans (advance_moves hlast)),
    ?_⟩
  · rw [consumeRawLiteral]
    simp only [advance_source, hn, hadv, Nat.add_sub_cancel_left]
    rfl
  · rw [rawOpened, advance_pos hlast, hn]
    omega

/-- What holds while a raw literal's terminator is looked for. -/
structure RawSearch (n : Nat) (lx : Lexer) (s : Lexer × Bool) : Prop where
  moves : Moves lx s.1
  missed : s.2 = false →
    ∀ i, lx.pos ≤ i → i < s.1.pos → ¬ RawClosed lx.source n i
  found : s.2 = true →
    ∃ q, s.1.pos = q + 1 + n ∧ FirstClosed lx.source n lx.pos q

theorem rawStep_search {s s' : Lexer × Bool}
    (hs : RawSearch n lx s) (h : rawStep n s = some s') :
    RawSearch n lx s' := by
  obtain ⟨hlt, hnot, hmoves, hcases⟩ := rawStep_some h
  rw [hs.moves.source] at hcases
  have hmissed := hs.missed hnot
  obtain ⟨rfl, hpos, hclosed⟩ | ⟨rfl, hopen⟩ := hcases
  · exact ⟨hs.moves.trans hmoves, nofun, fun _ =>
      ⟨s.1.pos, hpos, hs.moves.le, hclosed, hmissed⟩⟩
  · refine ⟨hs.moves.trans hmoves, fun _ i hfrom hto => ?_, nofun⟩
    rw [advance_pos hlt] at hto
    obtain hi | rfl : i < s.1.pos ∨ i = s.1.pos := by omega
    · exact hmissed i hfrom hi
    · exact hopen

theorem rawStep_measure (s s' : Lexer × Bool)
    (h : rawStep n s = some s') : s'.1.remaining < s.1.remaining := by
  obtain ⟨hlt, -, hmoves, hcases⟩ := rawStep_some h
  rw [remaining, remaining, hmoves.source]
  obtain ⟨-, hpos, -⟩ | ⟨rfl, -⟩ := hcases
  · omega
  · rw [advance_pos hlt]
    omega

/-- A raw literal is consumed to its terminator, or to the end. -/
theorem consumeRawLiteral_spec (h : rawHashesAt lx.source lx.pos lx.source.length = some n) :
    Moves lx lx.consumeRawLiteral.1 ∧
      lx.pos + n + 2 ≤ lx.consumeRawLiteral.1.pos ∧
      (lx.consumeRawLiteral.2 = true → ∃ q,
        lx.consumeRawLiteral.1.pos = q + 1 + n ∧
          FirstClosed lx.source n (lx.pos + n + 2) q) ∧
      rawStep n lx.consumeRawLiteral = none := by
  obtain ⟨heq, hopened, hpos⟩ := consumeRawLiteral_eq h
  have hsearch : RawSearch n lx.rawOpened lx.consumeRawLiteral := by
    rw [heq]
    have hstart : RawSearch n lx.rawOpened (lx.rawOpened, false) :=
      ⟨.rfl, fun _ i hfrom hto => absurd hto (Nat.not_lt.mpr hfrom),
        fun hfound => Bool.noConfusion hfound⟩
    exact Loop.run_invariant (fun s s' => rawStep_search) hstart _
  refine ⟨hopened.trans hsearch.moves, ?_, fun hfound => ?_, ?_⟩
  · have := hsearch.moves.le
    omega
  · obtain ⟨q, hend, hclosed⟩ := hsearch.found hfound
    rw [hopened.source, hpos] at hclosed
    exact ⟨q, hend, hclosed⟩
  · rw [heq]
    refine Loop.step_run (μ := fun s => s.1.remaining) rawStep_measure ?_
    rw [remaining, hopened.source]
    omega

/-- The turn of `scan_string` on a byte that is not special to it. -/
def plainTurn (s : StringScan) : StringScan :=
  let lx := s.lexer.advance
  let value := s.lexer.peek
  if s.depth > 0 then
    if s.innerString then
      { s with lexer := lx, innerString := decide (value ≠ 34) }
    else if value = 34 then { s with lexer := lx, innerString := true }
    else if value = 123 then { s with lexer := lx, depth := s.depth + 1 }
    else if value = 125 then { s with lexer := lx, depth := s.depth - 1 }
    else { s with lexer := lx }
  else if value = 123 then { s with lexer := lx, depth := 1 }
  else if value = 34 then { s with lexer := lx, closed := true }
  else { s with lexer := lx }

/-- A raw literal opens where `scan_string` stands. -/
def RawAhead (s : StringScan) : Prop :=
  s.depth > 0 ∧ s.innerString = false ∧
    rawOpenAt s.lexer.source s.lexer.pos s.lexer.source.length = true

instance (s : StringScan) : Decidable (RawAhead s) :=
  inferInstanceAs (Decidable (_ ∧ _ ∧ _))

/-- What one turn of `scan_string` does. -/
theorem stringStep_some (h : stringStep s = some s') :
    s.lexer.pos < s.lexer.source.length ∧ s.closed = false ∧
      s.endedAtLine = false ∧
      (s.lexer.peek = 10 ∧ s' = { s with endedAtLine := true } ∨
        s.lexer.peek ≠ 10 ∧ RawAhead s ∧
          s' = { s with lexer := s.lexer.consumeRawLiteral.1 } ∨
        s.lexer.peek = 92 ∧ ¬ RawAhead s ∧
          s' = { s with
            lexer := s.lexer.scanEscape s.lexer.line s.lexer.col } ∨
        s.lexer.peek ≠ 10 ∧ s.lexer.peek ≠ 92 ∧ ¬ RawAhead s ∧
          s' = plainTurn s) := by
  simp only [stringStep] at h
  split at h
  · cases h
  rename_i hopen
  simp only [not_or, Bool.not_eq_true] at hopen
  have hlt : s.lexer.pos < s.lexer.source.length :=
    not_atEnd_iff.mp (by rw [hopen.1]; decide)
  refine ⟨hlt, hopen.2.1, hopen.2.2, ?_⟩
  split at h
  · rename_i hnewline
    cases h
    exact .inl ⟨hnewline, rfl⟩
  rename_i hline
  split at h
  · rename_i hraw
    cases h
    exact .inr (.inl ⟨hline, hraw, rfl⟩)
  rename_i hraw
  split at h
  · rename_i hescape
    cases h
    exact .inr (.inr (.inl ⟨hescape, hraw, rfl⟩))
  rename_i hescape
  refine .inr (.inr (.inr ⟨hline, hescape, hraw, ?_⟩))
  rw [plainTurn]
  split_ifs at h ⊢ <;> cases h <;> rfl

theorem rawHashes_of_rawOpenAt {source : Text} {index stop : Nat}
    (h : rawOpenAt source index stop = true) :
    ∃ n, rawHashesAt source index stop = some n := by
  rw [rawOpenAt, Bool.and_eq_true, Option.isSome_iff_exists] at h
  exact h.1

theorem plainTurn_lexer (s : StringScan) :
    (plainTurn s).lexer = s.lexer.advance ∧
      (plainTurn s).endedAtLine = s.endedAtLine := by
  rw [plainTurn]
  split_ifs <;> exact ⟨rfl, rfl⟩

/-- A turn of `scan_string` takes a byte, or ends the loop at a newline. -/
theorem stringStep_moves (h : stringStep s = some s') :
    Moves s.lexer s'.lexer ∧ s.endedAtLine = false ∧
      (s'.lexer.pos = s.lexer.pos ∧ s'.endedAtLine = true ∨
        s.lexer.pos < s'.lexer.pos ∧ s'.endedAtLine = false) := by
  obtain ⟨hlt, -, hended, ⟨-, rfl⟩ | ⟨-, hraw, rfl⟩ | ⟨-, -, rfl⟩ |
    ⟨-, -, -, rfl⟩⟩ := stringStep_some h
  · exact ⟨.rfl, hended, .inl ⟨rfl, rfl⟩⟩
  · obtain ⟨n, hn⟩ := rawHashes_of_rawOpenAt hraw.2.2
    obtain ⟨hmoves, hpos, -⟩ := consumeRawLiteral_spec hn
    exact ⟨hmoves, hended, .inr ⟨by simp only; omega, hended⟩⟩
  · obtain ⟨hmoves, hpos⟩ := scanEscape_moves hlt s.lexer.line s.lexer.col
    have := (@stringEscapeLength_bounds s.lexer.source _ _ hlt).1
    exact ⟨hmoves, hended, .inr ⟨by simp only; omega, hended⟩⟩
  · obtain ⟨hlexer, hline⟩ := plainTurn_lexer s
    rw [hlexer, hline, advance_pos hlt]
    exact ⟨advance_moves hlt, hended, .inr ⟨by omega, hended⟩⟩

/-- The turns of `scan_string` that are left at most. -/
def StringScan.measure (s : StringScan) : Nat :=
  s.lexer.remaining + if s.endedAtLine then 0 else 1

theorem stringStep_measure (s s' : StringScan) (h : stringStep s = some s') :
    s'.measure < s.measure := by
  obtain ⟨hmoves, hopen, hturn⟩ := stringStep_moves h
  rw [StringScan.measure, StringScan.measure, remaining, remaining,
    hmoves.source, hopen]
  obtain ⟨hlt, -⟩ := stringStep_some h
  obtain ⟨hpos, hline⟩ | ⟨hpos, hline⟩ := hturn
  · rw [hline, hpos]
    simp
  · rw [hline]
    simp only [Bool.false_eq_true, if_false]
    omega

/-- What holds in the loop of `scan_string`. -/
structure StringSearch (lx : Lexer) (s : StringScan) : Prop where
  moves : Moves lx s.lexer
  found : s.closed = true → ∃ q, lx.pos ≤ q ∧ s.lexer.pos = q + 1 ∧
    byteAt lx.source q = 34

theorem plainTurn_closed (hopen : s.closed = false)
    (h : (plainTurn s).closed = true) : s.depth = 0 ∧ s.lexer.peek = 34 := by
  simp only [plainTurn] at h
  split_ifs at h with hdepth _ _ _ _ hslot hquote
  all_goals first
    | exact ⟨by omega, hquote⟩
    | exact absurd (hopen.symm.trans h) (by decide)

theorem stringStep_search (hs : StringSearch lx s)
    (h : stringStep s = some s') : StringSearch lx s' := by
  obtain ⟨hmoves, -⟩ := stringStep_moves h
  refine ⟨hs.moves.trans hmoves, fun hclosed => ?_⟩
  obtain ⟨hlt, hopen, -, ⟨-, rfl⟩ | ⟨-, -, rfl⟩ | ⟨-, -, rfl⟩ |
    ⟨-, -, -, rfl⟩⟩ := stringStep_some h
  · exact absurd (hopen.symm.trans hclosed) (by decide)
  · exact absurd (hopen.symm.trans hclosed) (by decide)
  · exact absurd (hopen.symm.trans hclosed) (by decide)
  · have hpeek := (plainTurn_closed hopen hclosed).2
    refine ⟨s.lexer.pos, hs.moves.le, ?_, ?_⟩
    · rw [(plainTurn_lexer s).1, advance_pos hlt]
    · rwa [peek_eq hlt, ← byteAt_eq hlt, hs.moves.source] at hpeek

/-- The loop of `scan_string` ends, at a closing quote if it says so. -/
theorem stringRun_spec (h : lx.pos < lx.source.length) :
    Moves lx lx.stringRun.lexer ∧ lx.pos < lx.stringRun.lexer.pos ∧
      (lx.stringRun.closed = true → ∃ q, lx.pos < q ∧
        lx.stringRun.lexer.pos = q + 1 ∧ byteAt lx.source q = 34) := by
  have hstart : StringSearch lx.advance ⟨lx.advance, 0, false, false, false⟩ :=
    ⟨.rfl, fun hclosed => Bool.noConfusion hclosed⟩
  have hsearch : StringSearch lx.advance lx.stringRun :=
    Loop.run_invariant (fun s s' => stringStep_search) hstart _
  have hpos := advance_pos h
  refine ⟨(advance_moves h).trans hsearch.moves, ?_, fun hclosed => ?_⟩
  · have := hsearch.moves.le
    omega
  · obtain ⟨q, hq, hend, hquote⟩ := hsearch.found hclosed
    rw [advance_source] at hquote
    exact ⟨q, by omega, hend, hquote⟩

end Strings

section Punctuation

variable {lx : Lexer}

theorem continuationStep_some {length : Nat} {s s' : Lexer × Nat × Nat}
    (h : continuationStep length s = some s') :
    s.1.pos < s.1.source.length ∧ s.2.1 < length ∧ s'.1 = s.1.advance ∧
      s'.2.1 = s.2.1 + 1 := by
  rw [continuationStep] at h
  split at h
  · rename_i hbyte
    cases h
    exact ⟨lt_of_peek (by omega), hbyte.1, rfl, rfl⟩
  · cases h

theorem unexpectedSourceCharacter_moves (lx : Lexer) (first : Nat) :
    Moves lx (lx.unexpectedSourceCharacter first).1 := by
  have hloop : ∀ length value, Moves lx
      (Loop.run (continuationStep length) 4 (lx, 1, value)).1 := by
    intro length value
    refine @loop_moves _ (continuationStep length) Prod.fst
      (fun s s' h => ?_) (lx, 1, value) _
    obtain ⟨hlt, -, heq, -⟩ := continuationStep_some h
    rw [heq]
    exact advance_moves hlt
  simp only [unexpectedSourceCharacter]
  split
  · exact .rfl
  split
  · exact hloop _ _
  split
  · exact hloop _ _
  · exact hloop _ _

theorem scanThirdDot_moves (lx : Lexer) (pair : Text) :
    Moves lx (lx.scanThirdDot pair).1 := by
  rw [scanThirdDot]
  split
  · rename_i h
    exact advance_moves (lt_of_peek (by rw [h.2]; decide))
  split
  · rename_i h
    exact advance_moves (lt_of_peek (by rw [h.2]; decide))
  · exact .rfl

end Punctuation

end Lexer
end Source
end Beans
