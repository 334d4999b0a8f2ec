import Beans.Source.Windows
import Beans.Source.WholeScan

/-!
# The pieces of a string

A string token is walked again by the parser, the checker and the backends, which
look for the interpolation slots in its body.  The walk and the lexer's search
for the closing quote go byte by byte in step, so the walk finds the slots that
the lexer went through.

**Results.**
* `walkers_agree`: on every ordinary string token the walk gets through with the slots of the
  lexer.
-/

namespace Beans
namespace Source

/-- The walk over a body: where it stands, the slots so far and whether each of
them closed.  A slot is between its braces, the closing one included. -/
structure Walk where
  index : Nat
  slots : List (Nat × Nat)
  ready : Bool
  deriving DecidableEq, Repr

/-- One turn of `parse_string_pieces`. -/
def walkStep (raw : Text) (stop : Nat) (s : Walk) : Option Walk :=
  if s.index ≥ stop ∨ s.ready = false then none
  else
    let byte := byteAt raw s.index
    if byte = 92 then
      some { s with index := s.index + stringEscapeLength raw s.index stop }
    else if byte ≠ 123 then some { s with index := s.index + 1 }
    else
      match stringInterpolationEnd raw (s.index + 1) stop with
      | none => some { s with ready := false }
      | some cursor =>
        some ⟨cursor, s.slots ++ [(s.index + 1, cursor)], s.ready⟩

/-- The walk over the body of a literal. -/
def walkBody (raw : Text) : Walk :=
  Loop.run (walkStep raw (stringLiteralBodyEnd raw)) (raw.length + 1)
    ⟨stringLiteralBodyStart raw, [], true⟩

namespace Lexer

/-- The slots that `scan_string` goes through, in positions of the source.  The
start is that of the slot, or of what follows the last byte outside. -/
def slotsFrom : Nat → Nat → StringScan → List (Nat × Nat)
  | 0, _, _ => []
  | n + 1, start, s =>
    match stringStep s with
    | none => []
    | some s' =>
      if s.depth = 0 then slotsFrom n s'.lexer.pos s'
      else if s'.depth = 0 then
        (start, s'.lexer.pos) :: slotsFrom n s'.lexer.pos s'
      else slotsFrom n start s'

/-- The slots of the string that opens where the lexer stands. -/
def stringSlots (lx : Lexer) : List (Nat × Nat) :=
  slotsFrom (lx.source.length + 1) 0 ⟨lx.advance, 0, false, false, false⟩

/-- The loop closes the string at the quote at `q`. -/
def Closes (q n : Nat) (s : StringScan) : Prop :=
  (Loop.run stringStep n s).closed = true ∧
    (Loop.run stringStep n s).lexer.pos = q + 1

/-- The loop goes on. -/
structure Open (source : Text) (s : StringScan) : Prop where
  same : s.lexer.source = source
  closed : s.closed = false
  line : s.endedAtLine = false

section Steps

variable {source : Text} {p q n : Nat} {s s' : StringScan}

theorem stringStep_done (h : s.closed = true ∨ s.endedAtLine = true) :
    stringStep s = none :=
  if_pos (.inr h)

/-- A string that will be closed takes a turn. -/
theorem Closes.next (h : Closes q n s) (hs : s.closed = false) :
    ∃ m s', n = m + 1 ∧ stringStep s = some s' ∧ Closes q m s' := by
  cases n with
  | zero => exact absurd (hs.symm.trans h.1) (by decide)
  | succ m =>
    cases hstep : stringStep s with
    | none =>
      rw [Closes, Loop.run_none hstep, hs] at h
      exact absurd h.1 (by decide)
    | some s' =>
      rw [Closes, Loop.run_some hstep] at h
      exact ⟨m, s', rfl, rfl, h⟩

/-- No newline ends a string that will be closed. -/
theorem Closes.line (h : Closes q n s') (hs : s.closed = false)
    (hstep : stringStep s = some s') : s'.endedAtLine = false := by
  by_contra hline
  rw [Bool.not_eq_false] at hline
  rw [Closes, Loop.run_none (stringStep_done (.inr hline))] at h
  obtain ⟨-, -, hopen, hcases⟩ := stringStep_some hstep
  obtain ⟨-, rfl⟩ | ⟨-, -, rfl⟩ | ⟨-, -, rfl⟩ | ⟨-, -, -, rfl⟩ := hcases
  · exact absurd (hs.symm.trans h.1) (by decide)
  · exact absurd (hopen.symm.trans hline) (by decide)
  · exact absurd (hopen.symm.trans hline) (by decide)
  · rw [(plainTurn_lexer s).2] at hline
    exact absurd (hopen.symm.trans hline) (by decide)

theorem run_stringStep_le (s : StringScan) (n : Nat) :
    s.lexer.pos ≤ (Loop.run stringStep n s).lexer.pos :=
  (loop_moves StringScan.lexer
    (fun _ _ hstep => (stringStep_moves hstep).1) s n).le

/-- The closing quote is ahead. -/
theorem Closes.le (h : Closes q n s) (hs : s.closed = false) :
    s.lexer.pos ≤ q := by
  obtain ⟨m, s', rfl, hstep, hnext⟩ := h.next hs
  obtain ⟨-, -, ⟨-, hline⟩ | ⟨hlt, -⟩⟩ := stringStep_moves hstep
  · exact absurd ((hnext.line hs hstep).symm.trans hline) (by decide)
  · have := run_stringStep_le s' m
    rw [hnext.2] at this
    omega

/-- A turn on the way to the closing quote: the last one, at depth 0, or one that
goes on. -/
theorem Closes.turn (h : Closes q n s) (hs : Open source s) :
    ∃ m s', n = m + 1 ∧ stringStep s = some s' ∧ Closes q m s' ∧
      s.lexer.pos < s'.lexer.pos ∧
      (s'.closed = true ∧ s.depth = 0 ∧ s.lexer.pos = q ∧
          s.lexer.peek = 34 ∨
        Open source s' ∧ s'.lexer.pos ≤ q) := by
  obtain ⟨m, s', rfl, hstep, hnext⟩ := h.next hs.closed
  have hline := hnext.line hs.closed hstep
  obtain ⟨hmoves, -, ⟨-, hended⟩ | ⟨hlt, -⟩⟩ := stringStep_moves hstep
  · exact absurd (hline.symm.trans hended) (by decide)
  refine ⟨m, s', rfl, hstep, hnext, hlt, ?_⟩
  cases hclosed : s'.closed with
  | false =>
    exact .inr ⟨⟨hmoves.source.trans hs.same, hclosed, hline⟩,
      hnext.le hclosed⟩
  | true =>
    left
    have hend := hnext.2
    rw [Loop.run_none (stringStep_done (.inl hclosed))] at hend
    obtain ⟨hin, hopen, -, ⟨-, rfl⟩ | ⟨-, -, rfl⟩ | ⟨-, -, rfl⟩ |
      ⟨-, -, -, rfl⟩⟩ := stringStep_some hstep
    · exact absurd (hopen.symm.trans hclosed) (by decide)
    · exact absurd (hopen.symm.trans hclosed) (by decide)
    · exact absurd (hopen.symm.trans hclosed) (by decide)
    · obtain ⟨hdepth, hpeek⟩ := plainTurn_closed hopen hclosed
      rw [(plainTurn_lexer s).1, advance_pos hin] at hend
      exact ⟨rfl, hdepth, by omega, hpeek⟩

end Steps

section InStep

variable {source : Text} {p q k k' : Nat} {s s' : StringScan}

/-- A raw literal opens in a window if and only if it opens in the source before
the window's end. -/
theorem rawOpenAt_slice (hq : q < source.length) (hk : 0 < k) (hkq : p + k ≤ q) :
    rawOpenAt (slice source p (q + 1)) k (q - p) = true ↔
      (∃ n, rawHashesAt source (p + k) q = some n) ∧
        isIdentByte (byteAt source (p + k - 1)) = false := by
  have hstop : p + (q - p) = q := by omega
  have hbefore : p + (k - 1) = p + k - 1 := by omega
  rw [rawOpenAt, rawHashesAt_slice (by omega) (by omega), hstop,
    byteAt_slice (by omega), hbefore, Bool.and_eq_true,
    Option.isSome_iff_exists]
  simp [hk]

theorem rawOpenAt_source (hpos : 0 < k) :
    rawOpenAt source k source.length = true ↔
      (∃ n, rawHashesAt source k source.length = some n) ∧
        isIdentByte (byteAt source (k - 1)) = false := by
  rw [rawOpenAt, Bool.and_eq_true, Option.isSome_iff_exists]
  simp [hpos]

/-- An opening in a window is one in the source. -/
theorem rawHashesAt_widen {index stop n : Nat} (hstop : stop ≤ source.length)
    (h : rawHashesAt source index stop = some n) :
    rawHashesAt source index source.length = some n := by
  obtain ⟨hlt, hopen⟩ := (rawHashesAt_iff hstop).mp h
  exact (rawHashesAt_iff (Nat.le_refl _)).mpr ⟨by omega, hopen⟩

/-- The walker's view of a byte that is not special to the lexer. -/
theorem slotStep_plain {raw : Text} {stop : Nat} (hdepth : 0 < s.depth)
    (hlt : k < stop) (hbyte : byteAt raw k = s.lexer.peek)
    (hescape : s.lexer.peek ≠ 92)
    (hraw : ¬ (s.innerString = false ∧ rawOpenAt raw k stop = true)) :
    slotStep raw stop ⟨k, s.depth, s.innerString⟩ =
        some ⟨k + 1, (plainTurn s).depth, (plainTurn s).innerString⟩ ∧
      ((plainTurn s).depth = 0 → (plainTurn s).innerString = false) := by
  simp only [slotStep, hbyte, plainTurn]
  rw [if_neg (by omega), if_neg hescape, if_neg hraw]
  cases hinner : s.innerString with
  | true =>
    simp only [hdepth, if_pos]
    exact ⟨trivial, fun hzero => absurd hzero (by omega)⟩
  | false =>
    simp only [hdepth, if_pos, Bool.false_eq_true, if_false]
    split_ifs
    · exact ⟨rfl, fun hzero => absurd hzero (by simp only; omega)⟩
    · exact ⟨rfl, fun _ => rfl⟩
    · exact ⟨rfl, fun _ => rfl⟩
    · exact ⟨rfl, fun _ => rfl⟩

theorem peek_eq_byteAt {lx : Lexer} (h : lx.pos < lx.source.length) :
    lx.peek = byteAt lx.source lx.pos := by
  rw [peek_eq h, byteAt_eq h]

/-- A raw literal that the lexer consumes before the closing quote. -/
theorem rawLiteralEnd_slice {lx : Lexer} {n : Nat} (hq : q < lx.source.length)
    (hopen : rawHashesAt lx.source lx.pos lx.source.length = some n)
    (hk : lx.pos = p + k) (hk' : lx.consumeRawLiteral.1.pos = p + k')
    (hle : p + k' ≤ q) :
    rawLiteralEnd (slice lx.source p (q + 1)) k (q - p) = k' ∧
      rawHashesAt lx.source lx.pos q = some n := by
  obtain ⟨hmoves, hmore, hfound, hend⟩ := consumeRawLiteral_spec hopen
  obtain ⟨hlt, hbytes⟩ := (rawHashesAt_iff (Nat.le_refl _)).mp hopen
  have hclosed : lx.consumeRawLiteral.2 = true := by
    by_contra hnot
    rw [rawStep] at hend
    split at hend
    · rename_i hstop
      have hat := atEnd_iff.mp (hstop.resolve_right hnot)
      rw [hmoves.source] at hat
      omega
    · split at hend
      all_goals cases hend
  obtain ⟨e, hpos, hfirst⟩ := hfound hclosed
  have hwindow : rawHashesAt lx.source lx.pos q = some n :=
    (rawHashesAt_iff hq.le).mpr ⟨by omega, hbytes⟩
  refine ⟨?_, hwindow⟩
  have hstop : p + (q - p) = q := by omega
  have hbetween := hfirst.le
  have hopen' : rawHashesAt (slice lx.source p (q + 1)) k (q - p) = some n := by
    rw [rawHashesAt_slice (by omega) (by omega), hstop, ← hk]
    exact hwindow
  have hfirst' : FirstClosed (slice lx.source p (q + 1)) n (k + n + 2)
      (e - p) := by
    refine firstClosed_slice ?_ (by omega)
    rw [show p + (k + n + 2) = lx.pos + n + 2 by omega,
      show p + (e - p) = e by omega]
    exact hfirst
  rw [rawLiteralEnd_eq hopen' hfirst' (by omega)]
  omega

theorem escape_slice (hquote : byteAt source q = 34)
    (hlt : p + k + stringEscapeLength source (p + k) source.length ≤ q)
    (hbyte : byteAt source (p + k) = 92) :
    stringEscapeLength (slice source p (q + 1)) k (q - p) =
      stringEscapeLength source (p + k) source.length := by
  have hq : q < source.length := lt_of_byteAt (by rw [hquote]; decide)
  have hbounds := @stringEscapeLength_bounds source (p + k) source.length
    (by omega)
  have hnext : p + k + 1 < q := by
    refine Nat.lt_of_le_of_ne (by omega) fun heq => ?_
    have htwo : 2 ≤ stringEscapeLength source (p + k) source.length := by
      simp only [stringEscapeLength]
      rw [if_neg (by rw [hbyte]; omega), if_neg (by omega)]
      split
      · split <;> omega
      split
      · cases stringEscapeUnicodeDigits source (p + k) source.length with
        | none => exact Nat.le_refl _
        | some digits => simp only; omega
      · exact Nat.le_refl _
    omega
  rw [stringEscapeLength_slice (by omega), show p + (q - p) = q by omega,
    stringEscapeLength_closing hquote hnext]

/-- In a slot, the lexer and the walker take the same turn. -/
theorem slot_turn (hquote : byteAt source q = 34) (hs : Open source s)
    (hdepth : 0 < s.depth) (hstep : stringStep s = some s')
    (hs' : Open source s') (hle : s'.lexer.pos ≤ q) (hkpos : 0 < k)
    (hk : s.lexer.pos = p + k) (hk' : s'.lexer.pos = p + k') :
    slotStep (slice source p (q + 1)) (q - p) ⟨k, s.depth, s.innerString⟩ =
        some ⟨k', s'.depth, s'.innerString⟩ ∧
      (s'.depth = 0 → s'.innerString = false) := by
  have hq : q < source.length := lt_of_byteAt (by rw [hquote]; decide)
  obtain ⟨hin, -, -, hcases⟩ := stringStep_some hstep
  obtain ⟨-, -, ⟨-, hline⟩ | ⟨hmore, -⟩⟩ := stringStep_moves hstep
  · exact absurd (hs'.line.symm.trans hline) (by decide)
  have hlt : p + k < q := by omega
  have hgoes : ¬ (k ≥ q - p ∨ s.depth = 0) := by omega
  have hpeek := peek_eq_byteAt hin
  rw [hs.same, hk] at hpeek
  have hbyte : byteAt (slice source p (q + 1)) k = s.lexer.peek := by
    rw [byteAt_slice (by omega), hpeek]
  have hraw_iff := @rawOpenAt_slice source p q k hq hkpos (by omega)
  have hnotraw : ¬ RawAhead s → ¬ (s.innerString = false ∧
      rawOpenAt (slice source p (q + 1)) k (q - p) = true) := by
    rintro hnot ⟨hinner, hopen⟩
    obtain ⟨⟨n, hn⟩, hbefore⟩ := hraw_iff.mp hopen
    refine hnot ⟨hdepth, hinner, ?_⟩
    rw [hs.same, hk, rawOpenAt_source (by omega)]
    exact ⟨⟨n, rawHashesAt_widen hq.le hn⟩, hbefore⟩
  obtain ⟨-, rfl⟩ | ⟨-, hraw, rfl⟩ | ⟨hescape, hraw, rfl⟩ |
    ⟨-, hescape, hraw, rfl⟩ := hcases
  · exact absurd hs'.line Bool.noConfusion
  · obtain ⟨-, hinner, hopen⟩ := hraw
    have hopen' := hopen
    rw [hs.same, hk, rawOpenAt_source (by omega)] at hopen'
    obtain ⟨⟨n, hn⟩, hbefore⟩ := hopen'
    rw [← hk, ← hs.same] at hn
    simp only at hle hk'
    rw [hk'] at hle
    obtain ⟨hend, hwindow⟩ := rawLiteralEnd_slice (q := q)
      (by rwa [hs.same]) hn hk hk' hle
    rw [hs.same] at hend hwindow
    rw [hk] at hwindow
    have hr := ((rawHashesAt_iff hq.le).mp hwindow).2.1
    have hopened := hraw_iff.mpr ⟨⟨n, hwindow⟩, hbefore⟩
    refine ⟨?_, fun hzero => absurd hzero (by simp only; omega)⟩
    simp only [slotStep, hbyte, hpeek, hr]
    rw [if_neg hgoes, if_neg (by decide), if_pos ⟨hinner, hopened⟩, hend]
  · have hlen := (scanEscape_moves hin s.lexer.line s.lexer.col).2
    simp only at hle hk'
    rw [hlen, hk, hs.same] at hle hk'
    rw [hescape] at hpeek
    have hlength := escape_slice hquote hle hpeek.symm
    refine ⟨?_, fun hzero => absurd hzero (by simp only; omega)⟩
    simp only [slotStep, hbyte, hescape]
    rw [if_neg hgoes, if_pos trivial, hlength]
    congr 2
    omega
  · obtain ⟨hlexer, -⟩ := plainTurn_lexer s
    rw [hlexer, advance_pos hin] at hk'
    have heq : k' = k + 1 := by omega
    rw [heq]
    exact slotStep_plain hdepth (by omega) hbyte hescape (hnotraw hraw)

/-- Outside a slot, the lexer takes an escape, an opening brace or a byte. -/
theorem outside_turn (hquote : byteAt source q = 34) (hs : Open source s)
    (hdepth : s.depth = 0) (hstep : stringStep s = some s')
    (hs' : Open source s') (hle : s'.lexer.pos ≤ q)
    (hk : s.lexer.pos = p + k) :
    s'.innerString = s.innerString ∧
      (byteAt (slice source p (q + 1)) k = 92 ∧ s'.depth = 0 ∧
          s'.lexer.pos =
            p + (k + stringEscapeLength (slice source p (q + 1)) k (q - p)) ∨
        byteAt (slice source p (q + 1)) k = 123 ∧ s'.depth = 1 ∧
          s'.lexer.pos = p + (k + 1) ∨
        byteAt (slice source p (q + 1)) k ≠ 92 ∧
          byteAt (slice source p (q + 1)) k ≠ 123 ∧ s'.depth = 0 ∧
          s'.lexer.pos = p + (k + 1)) := by
  obtain ⟨hin, -, -, hcases⟩ := stringStep_some hstep
  obtain ⟨-, -, ⟨-, hline⟩ | ⟨hmore, -⟩⟩ := stringStep_moves hstep
  · exact absurd (hs'.line.symm.trans hline) (by decide)
  have hpeek := peek_eq_byteAt hin
  rw [hs.same, hk] at hpeek
  rw [byteAt_slice (by omega), ← hpeek]
  obtain ⟨-, rfl⟩ | ⟨-, hraw, rfl⟩ | ⟨hescape, -, rfl⟩ |
    ⟨-, hescape, -, rfl⟩ := hcases
  · exact absurd hs'.line Bool.noConfusion
  · exact absurd hraw.1 (by omega)
  · have hlen := (scanEscape_moves hin s.lexer.line s.lexer.col).2
    simp only at hle
    rw [hlen, hk, hs.same] at hle
    rw [hescape] at hpeek
    refine ⟨rfl, .inl ⟨hescape, hdepth, ?_⟩⟩
    simp only
    rw [hlen, hk, hs.same, escape_slice hquote hle hpeek.symm, Nat.add_assoc]
  · obtain ⟨hlexer, -⟩ := plainTurn_lexer s
    have hopen := hs'.closed
    rw [hlexer, advance_pos hin, hk, Nat.add_assoc]
    simp only [plainTurn, hdepth, gt_iff_lt, Nat.lt_irrefl, if_false]
      at hopen ⊢
    split_ifs at hopen ⊢ with hbrace hclose
    · exact ⟨rfl, .inr (.inl ⟨hbrace, rfl, trivial⟩)⟩
    · exact ⟨rfl, .inr (.inr ⟨hescape, hbrace, rfl, trivial⟩)⟩

/-- A slot closes where the walker says it does. -/
theorem slot_closes (hquote : byteAt source q = 34) {n : Nat}
    (hs : Open source s) (hdepth : 0 < s.depth) (h : Closes q n s)
    (hkpos : 0 < k) (hk : s.lexer.pos = p + k) :
    ∃ m s' k', m < n ∧ Open source s' ∧ s'.depth = 0 ∧
      s'.innerString = false ∧ Closes q m s' ∧ s'.lexer.pos = p + k' ∧
      k < k' ∧ p + k' ≤ q ∧
      (∀ fuel, q - p - k ≤ fuel → Loop.run
        (slotStep (slice source p (q + 1)) (q - p)) fuel
          ⟨k, s.depth, s.innerString⟩ = ⟨k', 0, false⟩) ∧
      ∀ start, slotsFrom n start s =
        (start, s'.lexer.pos) :: slotsFrom m s'.lexer.pos s' := by
  induction n generalizing s k with
  | zero =>
    obtain ⟨_, _, hzero, -⟩ := h.next hs.closed
    cases hzero
  | succ n ih =>
    obtain ⟨m, s', hm, hstep, hnext, hmore, hturn⟩ := h.turn hs
    cases hm
    obtain ⟨-, hzero, -, -⟩ | ⟨hs', hle⟩ := hturn
    · omega
    obtain ⟨k', hk'⟩ : ∃ k', s'.lexer.pos = p + k' :=
      ⟨s'.lexer.pos - p, by omega⟩
    obtain ⟨hslot, hinner⟩ :=
      slot_turn hquote hs hdepth hstep hs' hle hkpos hk hk'
    have hturns : ∀ fuel, q - p - k ≤ fuel → ∃ fuel', fuel = fuel' + 1 ∧
        q - p - k' ≤ fuel' := fun fuel hfuel =>
      ⟨fuel - 1, by omega, by omega⟩
    cases hzero : s'.depth with
    | zero =>
      have hin := hinner hzero
      refine ⟨n, s', k', Nat.lt_succ_self n, hs', hzero, hin, hnext, hk',
        by omega, by omega, fun fuel hfuel => ?_, fun start => ?_⟩
      · obtain ⟨fuel', rfl, -⟩ := hturns fuel hfuel
        have hdone : slotStep (slice source p (q + 1)) (q - p)
            ⟨k', 0, false⟩ = none := if_pos (.inr rfl)
        rw [Loop.run_some hslot, hzero, hin, Loop.run_none hdone]
      · rw [slotsFrom]
        simp only [hstep, hzero]
        rw [if_neg (by omega), if_pos trivial]
    | succ depth =>
      obtain ⟨m, s2, k2, hlt, hs2, hdepth2, hin2, hnext2, hk2, hkk,
        hle2, hrun, hslots⟩ := ih hs' (by omega) hnext (by omega) hk'
      refine ⟨m, s2, k2, by omega, hs2, hdepth2, hin2, hnext2, hk2,
        by omega, hle2, fun fuel hfuel => ?_, fun start => ?_⟩
      · obtain ⟨fuel', rfl, hfuel'⟩ := hturns fuel hfuel
        rw [Loop.run_some hslot]
        exact hrun fuel' hfuel'
      · rw [slotsFrom]
        simp only [hstep, hzero]
        rw [if_neg (by omega), if_neg (by omega)]
        exact hslots start

/-- The walk from a position outside the slots gets to the closing quote. -/
theorem walk_closes (hquote : byteAt source q = 34) {n : Nat}
    (hs : Open source s) (hdepth : s.depth = 0)
    (hinner : s.innerString = false) (h : Closes q n s)
    (hk : s.lexer.pos = p + k) (slots : List (Nat × Nat)) (start : Nat)
    {fuel : Nat} (hfuel : q - p - k < fuel) :
    ∃ found, Loop.run (walkStep (slice source p (q + 1)) (q - p)) fuel
        ⟨k, slots, true⟩ = ⟨q - p, slots ++ found, true⟩ ∧
      slotsFrom n start s = found.map (fun e => (p + e.1, p + e.2)) ∧
      ∀ slot ∈ found, slot.2 ≤ q - p := by
  induction n using Nat.strong_induction_on generalizing s k slots start fuel
    with
  | _ n ih =>
    obtain ⟨m, s', rfl, hstep, hnext, hmore, hturn⟩ := h.turn hs
    obtain ⟨fuel, rfl⟩ : ∃ f, fuel = f + 1 := ⟨fuel - 1, by omega⟩
    obtain ⟨hclosed, -, hpos, -⟩ | ⟨hs', hle⟩ := hturn
    · have hend : k = q - p := by omega
      have hdone : walkStep (slice source p (q + 1)) (q - p)
          ⟨k, slots, true⟩ = none := if_pos (.inl (by simp only; omega))
      refine ⟨[], ?_, ?_, nofun⟩
      · rw [Loop.run_none hdone, hend, List.append_nil]
      · rw [slotsFrom]
        simp only [hstep, hdepth, if_true]
        cases m with
        | zero => rfl
        | succ m =>
          rw [slotsFrom, stringStep_done (.inl hclosed)]
          rfl
    have hgoes : ¬ (k ≥ q - p ∨ true = false) := by
      simp only [Bool.true_eq_false, or_false]
      omega
    obtain ⟨hsame, ⟨hbyte, hzero, hk'⟩ | ⟨hbyte, hone, hk'⟩ |
      ⟨hbyte, hbrace, hzero, hk'⟩⟩ :=
        outside_turn hquote hs hdepth hstep hs' hle hk
    · have hwalk : walkStep (slice source p (q + 1)) (q - p)
          ⟨k, slots, true⟩ = some ⟨k + stringEscapeLength
            (slice source p (q + 1)) k (q - p), slots, true⟩ := by
        simp only [walkStep, hbyte]
        rw [if_neg hgoes, if_pos trivial]
      rw [Loop.run_some hwalk, slotsFrom]
      simp only [hstep, hdepth, if_true]
      exact ih m (Nat.lt_succ_self m) hs' hzero (hsame.trans hinner) hnext hk'
        slots _ (by omega)
    · -- A slot opens: the walker asks for its end.
      obtain ⟨m', s2, k2, hlt, hs2, hdepth2, hin2, hnext2, hk2, hkk, hle2,
        hrun, hslots⟩ := slot_closes hquote hs' (by omega) hnext
          (Nat.succ_pos k) hk'
      have hend : stringInterpolationEnd (slice source p (q + 1)) (k + 1)
          (q - p) = some k2 := by
        have hslot := hrun (q - p) (by omega)
        rw [hone, hsame, hinner] at hslot
        simp only [stringInterpolationEnd, hslot]
        rfl
      have hwalk : walkStep (slice source p (q + 1)) (q - p)
          ⟨k, slots, true⟩ = some ⟨k2, slots ++ [(k + 1, k2)], true⟩ := by
        simp only [walkStep, hbyte, hend]
        rw [if_neg hgoes, if_neg (by decide), if_neg (by decide)]
      obtain ⟨found, hwalked, hfound, hends⟩ := ih m' (by omega) hs2 hdepth2
        hin2 hnext2 hk2 (slots ++ [(k + 1, k2)]) s2.lexer.pos
        (by omega : q - p - k2 < fuel)
      refine ⟨(k + 1, k2) :: found, ?_, ?_, ?_⟩
      · rw [Loop.run_some hwalk, hwalked, List.append_assoc]
        rfl
      · rw [slotsFrom]
        simp only [hstep, hdepth, if_true]
        rw [hslots, hfound, List.map_cons, hk', hk2]
      · intro slot hslot
        obtain rfl | hslot := List.mem_cons.mp hslot
        · simp only
          omega
        · exact hends slot hslot
    · have hwalk : walkStep (slice source p (q + 1)) (q - p)
          ⟨k, slots, true⟩ = some ⟨k + 1, slots, true⟩ := by
        simp only [walkStep]
        rw [if_neg hgoes, if_neg hbyte, if_pos hbrace]
      rw [Loop.run_some hwalk, slotsFrom]
      simp only [hstep, hdepth, if_true]
      exact ih m (Nat.lt_succ_self m) hs' hzero (hsame.trans hinner) hnext hk'
        slots _ (by omega)

end InStep

end Lexer

section Bodies

theorem hashes_ordinary (body : Text) :
    stringLiteralHashes (ordinaryLiteral body) = none := by
  cases h : stringLiteralHashes (ordinaryLiteral body) with
  | none => rfl
  | some n =>
    have hr := ((rawHashesAt_iff (Nat.le_refl _)).mp h).2.1
    exact absurd hr (by change ¬ (34 = 114); decide)

theorem bodyStart_ordinary (body : Text) :
    stringLiteralBodyStart (ordinaryLiteral body) = 1 := by
  rw [stringLiteralBodyStart, hashes_ordinary]
  rfl

theorem ordinary_length (body : Text) :
    (ordinaryLiteral body).length = body.length + 2 := by
  simp [ordinaryLiteral]

theorem bodyEnd_ordinary (body : Text) :
    stringLiteralBodyEnd (ordinaryLiteral body) = body.length + 1 := by
  have hlast : (ordinaryLiteral body).getLast? = some 34 := by
    rw [ordinaryLiteral, ← List.cons_append, List.getLast?_concat]
  rw [stringLiteralBodyEnd, hashes_ordinary]
  simp only
  rw [if_pos ⟨by rw [ordinary_length]; omega, rfl, hlast⟩, ordinary_length]
  rfl

/-- The parts of a raw literal. -/
theorem hashes_raw (n : Nat) (body : Text) :
    stringLiteralHashes (rawLiteral n body) = some n := by
  have hlen : (rawLiteral n body).length = body.length + 2 * n + 3 := by
    simp [rawLiteral]
    omega
  have hslice : slice (rawLiteral n body) 1 (1 + n) = List.replicate n 35 := by
    have hone : 1 + n - 1 = n := by omega
    rw [slice, List.drop_take, hone, rawLiteral, List.drop_one, List.tail_cons,
      List.take_left' (by simp)]
  have hquote : byteAt (rawLiteral n body) (0 + 1 + n) = 34 := by
    have hsucc : 0 + 1 + n = n + 1 := by omega
    rw [hsucc, byteAt, rawLiteral, List.getD_cons_succ,
      List.getD_append_right _ _ _ _ (by simp), List.length_replicate,
      Nat.sub_self]
    rfl
  exact (rawHashesAt_iff (Nat.le_refl _)).mpr ⟨by omega, rfl, hslice, hquote⟩

end Bodies

/-- The walk gets through: every slot closes in the body, and the walk ends where
the body does. -/
structure WalksBody (raw : Text) : Prop where
  ready : (walkBody raw).ready = true
  index : (walkBody raw).index = stringLiteralBodyEnd raw
  slots : ∀ slot ∈ (walkBody raw).slots, slot.2 ≤ stringLiteralBodyEnd raw

namespace Lexer

theorem walkBody_closed {lx : Lexer} (hquote : lx.peek = 34)
    (hclosed : lx.stringRun.closed = true) :
    WalksBody (slice lx.source lx.pos lx.stringRun.lexer.pos) ∧
      lx.stringSlots =
        (walkBody (slice lx.source lx.pos lx.stringRun.lexer.pos)).slots.map
          fun slot => (lx.pos + slot.1, lx.pos + slot.2) := by
  have hlt : lx.pos < lx.source.length := lt_of_peek (by rw [hquote]; decide)
  obtain ⟨-, -, hfound⟩ := stringRun_spec hlt
  obtain ⟨q, hpq, hend, hclose⟩ := hfound hclosed
  have hq : q < lx.source.length := lt_of_byteAt (by rw [hclose]; decide)
  have hs : Open lx.source ⟨lx.advance, 0, false, false, false⟩ :=
    ⟨advance_source, rfl, rfl⟩
  have hopen : byteAt lx.source lx.pos = 34 := by
    rw [← peek_eq_byteAt hlt, hquote]
  have hlength : (slice lx.source lx.pos (q + 1)).length = q + 1 - lx.pos :=
    slice_length hq
  have hbody := ordinary_slice hpq hopen hclose
  have hstop : stringLiteralBodyEnd (slice lx.source lx.pos (q + 1)) =
      q - lx.pos := by
    rw [hbody, bodyEnd_ordinary, slice_length hq.le]
    omega
  obtain ⟨found, hwalk, hslots, hends⟩ := walk_closes hclose hs rfl rfl
    (n := lx.source.length + 1) ⟨hclosed, hend⟩ (advance_pos hlt) [] 0
    (by omega : q - lx.pos - 1 < (slice lx.source lx.pos (q + 1)).length + 1)
  have hwalked : walkBody (slice lx.source lx.pos (q + 1)) =
      ⟨q - lx.pos, found, true⟩ := by
    rw [walkBody, hstop]
    rw [hbody, bodyStart_ordinary, ← hbody, hwalk, List.nil_append]
  rw [hend]
  refine ⟨⟨?_, ?_, ?_⟩, ?_⟩
  · rw [hwalked]
  · rw [hwalked, hstop]
  · rw [hwalked, hstop]
    exact hends
  · rw [hwalked]
    exact hslots

/-- The walk over an ordinary string token gets through, and its slots are those
that the lexer went through. -/
theorem walkers_agree {source : Text} {tok : Token}
    (htok : tok ∈ (scan (init source)).2) (hkind : tok.kind = .string)
    (hordinary : stringLiteralIsRaw tok.text = false) :
    WalksBody tok.text ∧ ∃ lx : Lexer, lx.source = source ∧
      tok.text = slice source lx.pos lx.stringRun.lexer.pos ∧
      lx.stringSlots = (walkBody tok.text).slots.map
        fun slot => (lx.pos + slot.1, lx.pos + slot.2) := by
  obtain ⟨lx, rfl, hfrom⟩ := string_token_from htok hkind
  generalize tok.text = text at hfrom hordinary
  cases hfrom with
  | ordinary hquote hclosed =>
    obtain ⟨hwalks, hslots⟩ := walkBody_closed hquote hclosed
    exact ⟨hwalks, lx, rfl, rfl, hslots⟩
  | @raw n hopen hclosed =>
    obtain ⟨-, -, hfound, -⟩ := consumeRawLiteral_spec hopen
    obtain ⟨q, hend, hfirst⟩ := hfound hclosed
    rw [hend, raw_slice hopen hfirst.le hfirst.closed, stringLiteralIsRaw,
      hashes_raw] at hordinary
    cases hordinary

/-- A string with a slot that holds a quoted brace. -/
def slottedSource : Text := ascii "\"a\x7bf(\"\x7d\")\x7d\""

/-- A slot with a call, a string and a brace inside it, as `slottedSource` has it. -/
theorem walkers_agree_slotted :
    (walkBody slottedSource).slots = [(3, 10)] ∧ WalksBody slottedSource ∧
      ∃ lx : Lexer, lx.source = slottedSource ∧
        slottedSource = slice slottedSource lx.pos lx.stringRun.lexer.pos ∧
        lx.stringSlots = (walkBody slottedSource).slots.map
          fun slot => (lx.pos + slot.1, lx.pos + slot.2) :=
  ⟨by decide, @walkers_agree slottedSource ⟨.string, slottedSource, 1, 1⟩
    (by decide) rfl (by decide)⟩

end Lexer
end Source
end Beans
