import Beans.Source.Coverage

/-!
# The whole scan

A turn of the lexer steps over a blank or a comment, ends a statement or
appends a token.  Each turn takes a byte at least, so the scan ends at the end of
the source, and the cover it has built by then is that of the whole source.

**Results.**
* `lexer_covers_input`: tokens, blanks and comments are the whole source, for any bytes; the
  newlines, the end and the diagnostics stand where they should.
-/

namespace Beans
namespace Source

theorem NewlinesSeparate.append {toks : List Token} {tok : Token}
    (h : NewlinesSeparate toks)
    (hlast : tok.kind = .newline →
      ∃ last ∈ toks.getLast?, last.kind ≠ .newline) :
    NewlinesSeparate (toks ++ [tok]) where
  first := by
    cases toks with
    | nil =>
      rintro last hmem hkind
      cases hmem
      obtain ⟨_, hnone, -⟩ := hlast hkind
      cases hnone
    | cons first rest => exact h.first
  apart := by
    refine List.isChain_append.mpr ⟨h.apart, List.isChain_singleton _, ?_⟩
    intro last hmem next hnext hkind hnewline
    cases Option.some.inj hnext
    obtain ⟨last', hmem', hne⟩ := hlast hnewline
    cases hmem.symm.trans hmem'
    exact hne hkind

theorem significant_append {toks : List Token} {tok : Token}
    (h : tok.kind.Significant) :
    significant (toks ++ [tok]) = significant toks ++ [tok] := by
  rw [significant, List.filter_append, List.filter_cons_of_pos (by simpa)]
  rfl

theorem significant_newline {toks : List Token} {tok : Token}
    (h : tok.kind = .newline ∨ tok.kind = .eof) :
    significant (toks ++ [tok]) = significant toks := by
  have hnot : ¬ tok.kind.Significant := by
    rintro ⟨hnewline, heof⟩
    exact h.elim hnewline heof
  rw [significant, List.filter_append, List.filter_cons_of_neg (by simpa),
    List.filter_nil, List.append_nil]
  rfl

theorem mem_append_one {P : Token → Prop} {toks : List Token} {tok : Token}
    (h : ∀ t ∈ toks, P t) (htok : P tok) : ∀ t ∈ toks ++ [tok], P t := by
  intro t ht
  obtain ht | ht := List.mem_append.mp ht
  · exact h t ht
  · rwa [List.mem_singleton.mp ht]

namespace Lexer

/-- What a turn of `scan` does. -/
inductive Turn (lx : Lexer) (out : List Token) : Lexer × List Token → Prop
  | blank (hblank : byteAt lx.source lx.pos ∈ [32, 9, 13, 10]) :
      Turn lx out (lx.advance, out)
  | newline (hblank : byteAt lx.source lx.pos ∈ [32, 9, 13, 10])
      (hends : lx.advance.lastKind.any endsStatement = true) :
      Turn lx out (lx.advance.addNewline out lx.line lx.col)
  | lineComment (hpair : PairAt lx.source lx.pos 47 47) :
      Turn lx out (lx.skipLineComment, out)
  | blockComment (hpair : PairAt lx.source lx.pos 47 42) :
      Turn lx out (lx.skipBlockComment, out)
  | token {r : Lexer × List Token} (hemits : Emits lx out r) : Turn lx out r

/-- The cases of a turn, by the byte it starts at. -/
theorem scanStep_turn {s s' : Lexer × List Token} (h : scanStep s = some s') :
    s.1.pos < s.1.source.length ∧ Turn s.1 s.2 s' := by
  simp only [scanStep] at h
  split at h
  · cases h
  rename_i hend
  have hlt := not_atEnd_iff.mp hend
  have hbyte : byteAt s.1.source s.1.pos = s.1.peek := by
    rw [peek_eq hlt, byteAt_eq hlt]
  refine ⟨hlt, ?_⟩
  split at h
  · rename_i hblank
    cases h
    refine .blank ?_
    rw [hbyte]
    simp only [List.mem_cons, List.not_mem_nil]
    omega
  split at h
  · rename_i hnewline
    have hblank : byteAt s.1.source s.1.pos ∈ [32, 9, 13, 10] := by
      rw [hbyte, hnewline]
      decide
    split at h
    · rename_i hends
      cases h
      exact .newline hblank hends.2.1
    · cases h
      exact .blank hblank
  split at h
  · rename_i hpair
    cases h
    exact .lineComment ((pairAt_iff (by decide)).mpr hpair)
  split at h
  · rename_i hpair
    cases h
    exact .blockComment ((pairAt_iff (by decide)).mpr hpair)
  split at h
  · rename_i hraw
    cases h
    obtain ⟨n, hn⟩ := rawHashes_of_ahead hraw.1 hraw.2
    exact .token (scanRawString_emits _ hn)
  split at h
  · rename_i halpha
    cases h
    exact .token (scanIdent_emits _ hlt halpha)
  rename_i halpha
  split at h
  · rename_i hdigit
    cases h
    exact .token (scanNumber_emits _ hlt hdigit)
  split at h
  · rename_i hquote
    cases h
    exact .token (scanString_emits _ hquote)
  · rename_i hquote
    cases h
    exact .token (punctuation_emits _ hlt hquote
      fun hr => halpha (by rw [hr]; decide))

/-- What holds after every turn: the bytes so far are covered. -/
structure Scanned (source : Text) (s : Lexer × List Token) : Prop where
  same : s.1.source = source
  placed : s.1.Placed
  reported : s.1.Reported
  covered : Covered source s.1.pos (significant s.2) ∨
    s.1.pos = source.length ∧ s.1.errors ≠ [] ∧
      EndsInComment source (significant s.2)
  separate : NewlinesSeparate s.2
  last : s.1.lastKind = s.2.getLast?.map Token.kind
  errors : ∀ tok ∈ s.2, tok.kind = .lexError → s.1.errors ≠ []
  eof : ∀ tok ∈ s.2, tok.kind ≠ .eof
  strings : ∀ tok ∈ s.2, tok.kind = .string →
    ∃ lx : Lexer, lx.source = source ∧ lx.StringFrom tok.text

section Turns

variable {source : Text} {s s' : Lexer × List Token}

/-- Before its end, a scan has covered the bytes so far. -/
theorem Scanned.covered_of_lt (h : Scanned source s)
    (hlt : s.1.pos < s.1.source.length) :
    Covered source s.1.pos (significant s.2) := by
  rw [h.same] at hlt
  exact h.covered.resolve_right fun hend => by omega

/-- Stepping over blanks and comments. -/
theorem Scanned.skip (h : Scanned source s) {lx : Lexer}
    (hsource : lx.source = s.1.source) (hplaced : lx.Placed)
    (hreported : lx.Reported) (herrors : s.1.errors <+: lx.errors)
    (hkind : lx.lastKind = s.1.lastKind)
    (hcovered : Covered source lx.pos (significant s.2) ∨
      lx.pos = source.length ∧ lx.errors ≠ [] ∧
        EndsInComment source (significant s.2)) :
    Scanned source (lx, s.2) where
  same := hsource.trans h.same
  placed := hplaced
  reported := hreported
  covered := hcovered
  separate := h.separate
  last := hkind.trans h.last
  errors tok htok hlex hnil :=
    h.errors tok htok hlex (List.prefix_nil.mp (hnil ▸ herrors))
  eof := h.eof
  strings := h.strings

theorem Scanned.moves (h : Scanned source s) {lx : Lexer}
    (hmoves : Moves s.1 lx)
    (hcovered : Covered source lx.pos (significant s.2)) :
    Scanned source (lx, s.2) := by
  have hframe := hmoves.frame
  simp only [Lexer.frame, Prod.mk.injEq] at hframe
  exact h.skip hmoves.source (hmoves.placed h.placed)
    (hmoves.reported h.reported) hmoves.errors hframe.1 (.inl hcovered)

/-- A newline that ends a statement. -/
theorem Scanned.addNewline (h : Scanned source s)
    (hends : s.1.lastKind.any endsStatement = true) (line col : Nat) :
    Scanned source (s.1.addNewline s.2 line col) := by
  refine ⟨h.same, ⟨h.placed.le, h.placed.line, h.placed.col⟩, h.reported,
    ?_, ?_, ?_, mem_append_one h.errors nofun, mem_append_one h.eof nofun,
    mem_append_one h.strings nofun⟩
  · have hsame :=
      @significant_newline s.2 ⟨.newline, [], line, col⟩ (.inl rfl)
    rw [Lexer.addNewline]
    simp only [hsame]
    exact h.covered
  · refine h.separate.append fun _ => ?_
    rw [h.last] at hends
    cases hlast : s.2.getLast? with
    | none =>
      rw [hlast] at hends
      cases hends
    | some last =>
      refine ⟨last, rfl, fun hkind => ?_⟩
      rw [hlast, Option.map_some, Option.any_some, hkind] at hends
      cases hends
  · simp only [Lexer.addNewline, List.getLast?_append_of_ne_nil,
      List.getLast?_singleton, ne_eq, List.cons_ne_nil, not_false_eq_true,
      Option.map_some]

/-- A token that follows what is covered. -/
theorem Scanned.emits (h : Scanned source s) {r : Lexer × List Token}
    (hlt : s.1.pos < s.1.source.length) (hemits : Emits s.1 s.2 r) :
    Scanned source r := by
  obtain ⟨tok, hout, hkind, -, herror, hlexeme, hstring⟩ := hemits.token
  obtain ⟨lx, out⟩ := r
  cases hout
  have hlex := hlexeme h.placed
  rw [h.same] at hlex
  refine ⟨hemits.source.trans h.same, hemits.placed h.placed,
    hemits.reported h.reported, .inl ?_, ?_, ?_, ?_, ?_, ?_⟩
  · have hsignificant := @significant_append s.2 tok hlex.kind
    change Covered source lx.pos (significant (s.2 ++ [tok]))
    rw [hsignificant]
    exact .token (h.covered_of_lt hlt) hlex
  · exact h.separate.append fun hnewline => absurd hnewline hlex.kind.1
  · simpa using hkind
  · refine mem_append_one (fun t ht hlexError hnil => ?_)
      (fun hlexError => herror hlexError h.reported)
    exact h.errors t ht hlexError (List.prefix_nil.mp (hnil ▸ hemits.errors))
  · exact mem_append_one h.eof hlex.kind.2
  · exact mem_append_one h.strings fun hkind' =>
      ⟨s.1, h.same, hstring hkind'⟩

/-- A turn keeps the cover, and moves on. -/
theorem Scanned.step (h : Scanned source s) (hstep : scanStep s = some s') :
    Scanned source s' ∧ s.1.pos < s'.1.pos := by
  obtain ⟨hlt, hturn⟩ := scanStep_turn hstep
  have hcovered := h.covered_of_lt hlt
  have hin := hlt
  rw [h.same] at hin
  have hpos := advance_pos hlt
  cases hturn with
  | blank hblank =>
    rw [h.same] at hblank
    refine ⟨h.moves (advance_moves hlt) ?_, by simp only; omega⟩
    rw [hpos]
    exact .blank hcovered hin hblank
  | newline hblank hends =>
    rw [h.same] at hblank
    have hnext : Scanned source (s.1.advance, s.2) := by
      refine h.moves (advance_moves hlt) ?_
      rw [hpos]
      exact .blank hcovered hin hblank
    exact ⟨hnext.addNewline hends _ _, by simp only [Lexer.addNewline]; omega⟩
  | lineComment hpair =>
    obtain ⟨hmoves, hcomment⟩ := skipLineComment_spec h.placed hpair
    rw [h.same] at hcomment
    exact ⟨h.moves hmoves (.lineComment hcovered hcomment), hcomment.lt⟩
  | blockComment hpair =>
    obtain ⟨hsource, hmore, hplaced, herrors, hreported, hkind, hcomment⟩ :=
      skipBlockComment_spec h.placed hpair
    rw [h.same] at hcomment
    refine ⟨h.skip hsource hplaced (hreported h.reported) herrors hkind ?_,
      hmore⟩
    obtain hclosed | ⟨hend, hne, depth, hopen⟩ := hcomment
    · exact .inl (.blockComment hcovered hclosed)
    · exact .inr ⟨hend, hne, s.1.pos, depth, hcovered, hopen⟩
  | token hemits => exact ⟨h.emits hlt hemits, hemits.lt⟩

end Turns

/-- The turns of `scan`, and where they end. -/
def scanRun (source : Text) : Lexer × List Token :=
  Loop.run scanStep source.length (init source, [])

theorem scanned_init (source : Text) : Scanned source (init source, []) where
  same := rfl
  placed := ⟨Nat.zero_le _, rfl, rfl⟩
  reported hopen := by simp [init] at hopen
  covered := .inl .start
  separate := ⟨nofun, .nil⟩
  last := rfl
  errors := nofun
  eof := nofun
  strings := nofun

theorem scanRun_scanned (source : Text) : Scanned source (scanRun source) :=
  Loop.run_invariant (fun _ _ h hstep => (h.step hstep).1) (scanned_init source) _

theorem scanRun_ends (source : Text) : scanStep (scanRun source) = none := by
  refine Loop.step_run_on (μ := fun s => s.1.remaining)
    (P := Scanned source) (fun _ _ h hstep => (h.step hstep).1)
    (fun s s' h hstep => ?_) (scanned_init source) (Nat.sub_le _ _)
  obtain ⟨hnext, hmore⟩ := h.step hstep
  have hle := hnext.placed.le
  rw [hnext.same] at hle
  rw [remaining, remaining, h.same, hnext.same]
  omega

theorem scanRun_atEnd (source : Text) :
    (scanRun source).1.pos = source.length := by
  have hscanned := scanRun_scanned source
  have hle := hscanned.placed.le
  have hend := scanRun_ends source
  rw [hscanned.same] at hle
  refine Nat.le_antisymm hle (Nat.not_lt.mp fun hlt => ?_)
  have hnot : (scanRun source).1.atEnd = false := by
    rw [Bool.eq_false_iff]
    exact not_atEnd_iff.mpr (by rwa [hscanned.same])
  simp only [scanStep, hnot, Bool.false_eq_true, if_false] at hend
  split_ifs at hend

/-- A loop ends by itself within its fuel, wherever in the source it starts. -/
def Stops {σ : Type} (source : Text) (step : σ → Option σ)
    (lexer : σ → Lexer) (fuel : Nat) : Prop :=
  ∀ s, (lexer s).source = source → step (Loop.run step fuel s) = none

/-- Every loop of the lexer ends. -/
structure LoopsStop (source : Text) : Prop where
  bytes : ∀ p : Nat → Bool, p 0 = false →
    Stops source (byteStep p) id source.length
  digits : ∀ digit : Nat → Bool, digit 0 = false →
    Stops source (digitStep digit) Prod.fst source.length
  raw : ∀ hashes, Stops source (rawStep hashes) Prod.fst source.length
  string : Stops source stringStep StringScan.lexer (source.length + 1)
  line : Stops source lineCommentStep id source.length
  block : Stops source blockStep Prod.fst source.length
  character : ∀ length ≤ 4,
    Stops source (continuationStep length) Prod.fst 4
  turns : scanStep (Loop.run scanStep source.length (init source, [])) = none

/-- What the lexer makes of a source. -/
structure Lexed (source : Text) (lx : Lexer) (toks : List Token) : Prop where
  covered : Covered source source.length (significant toks) ∨
    EndsInComment source (significant toks) ∧ lx.errors ≠ []
  separate : NewlinesSeparate toks
  eof : ∃ body line col, toks = body ++ [⟨.eof, [], line, col⟩] ∧
    ∀ tok ∈ body, tok.kind ≠ .eof
  reported : (∃ tok ∈ toks, tok.kind = .lexError) ∨
    lx.sourceEndedInError = true → lx.errors ≠ []

theorem loops_stop (source : Text) : LoopsStop source where
  bytes p hp s hs := by
    refine Loop.step_run (μ := remaining) (fun s s' h => ?_) ?_
    · obtain ⟨hlt, rfl⟩ := byteStep_some hp h
      exact remaining_advance hlt
    · rw [remaining, ← hs]
      exact Nat.sub_le _ _
  digits digit hdigit s hs := by
    refine Loop.step_run (μ := fun s => s.1.remaining)
      (fun s s' h => ?_) ?_
    · obtain ⟨hlt, heq⟩ := digitStep_some hdigit h
      rw [heq]
      exact remaining_advance hlt
    · rw [remaining, ← hs]
      exact Nat.sub_le _ _
  raw hashes s hs := by
    refine Loop.step_run (μ := fun s => s.1.remaining) rawStep_measure ?_
    rw [remaining, ← hs]
    exact Nat.sub_le _ _
  string s hs := by
    refine Loop.step_run (μ := StringScan.measure) stringStep_measure ?_
    rw [StringScan.measure, remaining, ← hs]
    split <;> omega
  line s hs := by
    refine Loop.step_run lineCommentStep_measure ?_
    rw [remaining, ← hs]
    exact Nat.sub_le _ _
  block s hs := by
    refine Loop.step_run (μ := fun s => s.1.remaining) blockStep_measure ?_
    rw [remaining, ← hs]
    exact Nat.sub_le _ _
  character length hlength s hs := by
    refine Loop.step_run (μ := fun s : Lexer × Nat × Nat =>
      length - s.2.1) (fun s s' h => ?_) (by omega)
    obtain ⟨-, hlt, -, hnext⟩ := continuationStep_some h
    omega
  turns := scanRun_ends source

/-- The tokens and the lexer after the last statement has ended. -/
def endedRun (source : Text) : Lexer × List Token :=
  let r := scanRun source
  if r.1.haveToken ∧ r.1.lastKind.any endsStatement then
    r.1.addNewline r.2 r.1.line r.1.col
  else r

theorem scan_eq (source : Text) : scan (init source) =
    ((endedRun source).1, (endedRun source).2 ++
      [⟨.eof, [], (endedRun source).1.line, (endedRun source).1.col⟩]) :=
  rfl

theorem endedRun_scanned (source : Text) :
    Scanned source (endedRun source) ∧
      (endedRun source).1.pos = source.length := by
  have hscanned := scanRun_scanned source
  have hend := scanRun_atEnd source
  simp only [endedRun]
  split
  · rename_i h
    exact ⟨hscanned.addNewline h.2 _ _, hend⟩
  · exact ⟨hscanned, hend⟩

theorem scan_lexed (source : Text) :
    Lexed source (scan (init source)).1 (scan (init source)).2 := by
  obtain ⟨hscanned, hend⟩ := endedRun_scanned source
  rw [scan_eq]
  refine ⟨?_, hscanned.separate.append nofun, ⟨_, _, _, rfl, hscanned.eof⟩, ?_⟩
  · rw [significant_newline (.inr rfl)]
    have hcovered := hscanned.covered
    rw [hend] at hcovered
    exact hcovered.imp_right fun h => ⟨h.2.2, h.2.1⟩
  · rintro (⟨tok, htok, hkind⟩ | hended)
    · exact mem_append_one (P := fun t => t.kind = .lexError →
        (endedRun source).1.errors ≠ []) hscanned.errors
        (fun heof => by cases heof) tok htok hkind
    · exact hscanned.reported (.inl hended)

/-- The lexer covers its input: its loops end, and its tokens, the blanks and
the comments are the whole source. -/
theorem lexer_covers_input (source : Text) :
    LoopsStop source ∧
      Lexed source (scan (init source)).1 (scan (init source)).2 :=
  ⟨loops_stop source, scan_lexed source⟩

/-- Every string token is one that a string scanner has made. -/
theorem string_token_from {source : Text} {tok : Token}
    (htok : tok ∈ (scan (init source)).2) (hkind : tok.kind = .string) :
    ∃ lx : Lexer, lx.source = source ∧ lx.StringFrom tok.text := by
  rw [scan_eq] at htok
  exact mem_append_one (P := fun t => t.kind = .string →
    ∃ lx : Lexer, lx.source = source ∧ lx.StringFrom t.text)
    (endedRun_scanned source).1.strings (fun heof => by cases heof) tok htok
    hkind

end Lexer
end Source
end Beans
