import Beans.Bindgen.JsonParser

/-!
# The JSON reader on arbitrary bytes

Whatever the bytes, the index stays inside the source and every turn of a loop
consumes a byte or clears the flag.  The nesting of the calls and the turns of
the loops are therefore bounded by the bytes that are left.
-/

namespace Beans
namespace Bindgen

variable {source : Text}

variable {i j : ℕ}

theorem whitespaceStep_index (h : whitespaceStep source i = some j) :
    j = i + 1 ∧ j ≤ source.length := by
  rw [whitespaceStep] at h
  dsimp only at h
  split_ifs at h with hlt hbyte
  obtain rfl := Option.some.inj h
  exact ⟨rfl, hlt⟩

theorem numberStep_index (h : numberStep source i = some j) :
    j = i + 1 ∧ j ≤ source.length := by
  rw [numberStep] at h
  dsimp only at h
  split_ifs at h with hlt hbyte
  obtain rfl := Option.some.inj h
  exact ⟨rfl, hlt⟩

/-- A loop whose turns go one byte on. -/
theorem run_index {step : ℕ → Option ℕ}
    (hstep : ∀ i j, step i = some j → j = i + 1 ∧ j ≤ source.length) (hi : i ≤ source.length)
    (n : ℕ) :
    i ≤ Loop.run step n i ∧ Loop.run step n i ≤ source.length := by
  refine Loop.run_invariant (P := fun k => i ≤ k ∧ k ≤ source.length)
    (fun k l hk hkl => ?_) ⟨le_refl i, hi⟩ n
  obtain ⟨hl, hle⟩ := hstep k l hkl
  exact ⟨by omega, hle⟩

theorem escapedPiece_index {escaped : UInt8} {index : ℕ} (h : index ≤ source.length) :
    index ≤ (escapedPiece source escaped index).2 ∧
      (escapedPiece source escaped index).2 ≤ source.length := by
  rw [escapedPiece]
  split_ifs
  all_goals dsimp only
  all_goals omega

/-- A turn of the string loop consumes at least one byte. -/
theorem stringStep_index {scan scan' : StringScan} (h : stringStep source scan = some scan') :
    scan.index < scan'.index ∧ scan'.index ≤ source.length := by
  rw [stringStep] at h
  dsimp only at h
  split_ifs at h with hend hplain hquote hlast
  · obtain rfl := Option.some.inj h
    dsimp only
    omega
  · obtain rfl := Option.some.inj h
    dsimp only
    omega
  · obtain rfl := Option.some.inj h
    dsimp only
    omega
  · obtain rfl := Option.some.inj h
    have := @escapedPiece_index source (source.getD (scan.index + 1) 0) (scan.index + 1 + 1)
      (by omega)
    dsimp only
    omega

theorem stringScan_index {scan : StringScan} (h : scan.index ≤ source.length) (n : ℕ) :
    scan.index ≤ (Loop.run (stringStep source) n scan).index ∧
      (Loop.run (stringStep source) n scan).index ≤ source.length := by
  refine Loop.run_invariant
    (P := fun s : StringScan => scan.index ≤ s.index ∧ s.index ≤ source.length)
    (fun s s' hs hstep => ?_) ⟨le_refl _, h⟩ n
  obtain ⟨hlt, hle⟩ := stringStep_index hstep
  exact ⟨by omega, hle⟩

/-- From one state of the reader to a later one. -/
structure Moves (source : Text) (parser parser' : BindgenJsonParser) : Prop where
  le : parser.index ≤ parser'.index
  inside : parser'.index ≤ source.length

variable {parser : BindgenJsonParser}

theorem whitespace_moves (h : parser.index ≤ source.length) :
    Moves source parser (whitespace source parser) := by
  obtain ⟨hle, hin⟩ := run_index (fun _ _ => whitespaceStep_index) h source.length
  exact ⟨hle, hin⟩

theorem peek_eq_zero (h : parser.index ≥ source.length) :
    peek source parser = 0 :=
  if_pos h

/-- A byte other than zero was read inside the source. -/
theorem lt_of_peek {byte : UInt8} (h : peek source parser = byte) (hbyte : byte ≠ 0) :
    parser.index < source.length := by
  by_contra hend
  exact hbyte (h.symm.trans (peek_eq_zero (not_lt.mp hend)))

theorem stringValue_moves (h : parser.index < source.length) :
    parser.index < (stringValue source parser).2.index ∧
      (stringValue source parser).2.index ≤ source.length := by
  have hscan := @stringScan_index source ⟨[], parser.index + 1, parser.index + 1, none⟩ h
    (source.length + 1)
  dsimp only at hscan
  rw [stringValue]
  split
  · dsimp only
    omega
  · dsimp only
    omega

theorem numberValue_moves (h : parser.index ≤ source.length) :
    Moves source parser (numberValue source parser).2 ∧
      ((numberValue source parser).2.ok = true →
        parser.index < (numberValue source parser).2.index) := by
  obtain ⟨hle, hin⟩ := run_index (fun _ _ => numberStep_index) h source.length
  rw [numberValue]
  split_ifs with hnone
  · exact ⟨⟨le_refl _, h⟩, fun hok => by cases hok⟩
  · exact ⟨⟨hle, hin⟩, fun _ => lt_of_le_of_ne hle (Ne.symm hnone)⟩

/-- Behind an element the reader goes on, or the flag is cleared. -/
theorem afterElement_moves {close : UInt8} (hclose : close ≠ 0)
    (h : parser.index ≤ source.length) :
    Moves source parser (afterElement source close parser).1 ∧
      ((afterElement source close parser).1.ok = true → parser.ok = true) := by
  obtain ⟨hle, hin⟩ := whitespace_moves h
  rw [afterElement]
  split_ifs with hcomma hend
  · have := lt_of_peek hcomma (by decide)
    exact ⟨⟨by dsimp only; omega, this⟩, id⟩
  · have := lt_of_peek hend hclose
    exact ⟨⟨by dsimp only; omega, this⟩, id⟩
  · exact ⟨⟨hle, hin⟩, fun hok => by cases hok⟩

/-- A call that stays inside the source, and consumes a byte when the flag is
still set behind it. -/
def Consumes {α : Type*} (source : Text)
    (call : BindgenJsonParser → Option (α × BindgenJsonParser)) : Prop :=
  ∀ parser r, parser.index ≤ source.length → call parser = some r →
    Moves source parser r.2 ∧ (r.2.ok = true → parser.index < r.2.index)

/-- The same of a turn of a loop, from any state of its locals. -/
def TurnConsumes {σ : Type} (source : Text)
    (turn : σ → BindgenJsonParser → Option (σ × BindgenJsonParser × Bool)) : Prop :=
  ∀ state parser next, parser.index ≤ source.length → turn state parser = some next →
    Moves source parser next.2.1 ∧ (next.2.1.ok = true → parser.index < next.2.1.index)

section Turns

variable {value : BindgenJsonParser → Option (BindgenJson × BindgenJsonParser)}

theorem arrayTurn_consumes (hvalue : Consumes source value) :
    TurnConsumes source (arrayTurn source value) := by
  intro items parser next hin hnext
  rw [arrayTurn] at hnext
  obtain ⟨item, hitem, rfl⟩ := Option.map_eq_some_iff.mp hnext
  obtain ⟨⟨hle, hin'⟩, hconsumed⟩ := hvalue parser item hin hitem
  obtain ⟨⟨hle', hin''⟩, hok⟩ := @afterElement_moves source item.2 93 (by decide) hin'
  exact ⟨⟨le_trans hle hle', hin''⟩, fun h => lt_of_lt_of_le (hconsumed (hok h)) hle'⟩

theorem objectTurn_consumes (hvalue : Consumes source value) :
    TurnConsumes source (objectTurn source value) := by
  intro fields parser next hin hnext
  obtain ⟨hle, hin'⟩ := whitespace_moves hin
  rw [objectTurn] at hnext
  dsimp only at hnext
  split_ifs at hnext with hquote hcolon
  · obtain rfl := Option.some.inj hnext
    exact ⟨⟨hle, hin'⟩, fun hok => absurd hok Bool.false_ne_true⟩
  · obtain rfl := Option.some.inj hnext
    have hlt := lt_of_peek (not_not.mp hquote) (by decide)
    obtain ⟨hstring, hstring'⟩ := stringValue_moves hlt
    obtain ⟨hle₂, hin₂⟩ := whitespace_moves hstring'
    exact ⟨⟨by dsimp only; omega, hin₂⟩, fun hok => absurd hok Bool.false_ne_true⟩
  · obtain ⟨field, hfield, rfl⟩ := Option.map_eq_some_iff.mp hnext
    have hlt := lt_of_peek (not_not.mp hquote) (by decide)
    obtain ⟨hstring, hstring'⟩ := stringValue_moves hlt
    obtain ⟨hle₂, hin₂⟩ := whitespace_moves hstring'
    have hlt₂ := lt_of_peek (not_not.mp hcolon) (by decide)
    obtain ⟨⟨hle₃, hin₃⟩, -⟩ := hvalue
      ⟨(whitespace source (stringValue source (whitespace source parser)).2).index + 1,
        (whitespace source (stringValue source (whitespace source parser)).2).ok⟩
      field hlt₂ hfield
    obtain ⟨⟨hle₄, hin₄⟩, -⟩ := @afterElement_moves source field.2 125 (by decide) hin₃
    dsimp only at hle₃
    exact ⟨⟨by dsimp only; omega, hin₄⟩, fun _ => by dsimp only; omega⟩

end Turns

section ForOk

variable {σ : Type} {turn : σ → BindgenJsonParser → Option (σ × BindgenJsonParser × Bool)}

variable {state : σ}

theorem forOk_done {fuel : ℕ} {parser : BindgenJsonParser} (h : parser.ok = false) :
    forOk turn fuel state parser = some (state, parser) := by
  cases fuel with
  | zero => exact if_pos h
  | succ fuel => exact if_pos h

theorem forOk_succ {fuel : ℕ} {parser : BindgenJsonParser} (h : ¬ parser.ok = false) :
    forOk turn (fuel + 1) state parser =
      (turn state parser).bind fun next =>
        if next.2.2 then forOk turn fuel next.1 next.2.1 else some (next.1, next.2.1) :=
  if_neg h

theorem forOk_moves (hturn : TurnConsumes source turn) (fuel : ℕ) {parser : BindgenJsonParser}
    {r : σ × BindgenJsonParser} (hin : parser.index ≤ source.length)
    (h : forOk turn fuel state parser = some r) :
    Moves source parser r.2 := by
  induction fuel generalizing state parser with
  | zero =>
    rw [forOk] at h
    split_ifs at h with hok
    obtain rfl := Option.some.inj h
    exact ⟨le_refl _, hin⟩
  | succ fuel ih =>
    by_cases hok : parser.ok = false
    · rw [forOk_done hok] at h
      obtain rfl := Option.some.inj h
      exact ⟨le_refl _, hin⟩
    · rw [forOk_succ hok] at h
      obtain ⟨next, hnext, hr⟩ := Option.bind_eq_some_iff.mp h
      obtain ⟨⟨hle, hin'⟩, -⟩ := hturn state parser next hin hnext
      by_cases hgo : next.2.2 = true
      · rw [if_pos hgo] at hr
        obtain ⟨hle', hin''⟩ := ih hin' hr
        exact ⟨le_trans hle hle', hin''⟩
      · rw [if_neg hgo] at hr
        obtain rfl := Option.some.inj hr
        exact ⟨hle, hin'⟩

/-- The bytes that are left bound the turns. -/
theorem forOk_returns (hturn : TurnConsumes source turn) {start fuel : ℕ}
    (hreturns : ∀ state parser, start ≤ parser.index → parser.index ≤ source.length →
      ∃ next, turn state parser = some next)
    {state : σ}
    {parser : BindgenJsonParser}
    (hstart : start ≤ parser.index)
    (hin : parser.index ≤ source.length)
    (hfuel : source.length - parser.index + 1 ≤ fuel) :
    ∃ r, forOk turn fuel state parser = some r := by
  induction fuel generalizing state parser with
  | zero => omega
  | succ fuel ih =>
    by_cases hok : parser.ok = false
    · exact ⟨_, forOk_done hok⟩
    · obtain ⟨next, hnext⟩ := hreturns state parser hstart hin
      obtain ⟨⟨hle, hin'⟩, hconsumed⟩ := hturn state parser next hin hnext
      rw [forOk_succ hok, hnext, Option.bind_some]
      by_cases hgo : next.2.2 = true
      · rw [if_pos hgo]
        by_cases hok' : next.2.1.ok = false
        · exact ⟨_, forOk_done hok'⟩
        · have := hconsumed (Bool.not_eq_false _ ▸ hok')
          exact ih (le_trans hstart hle) hin' (by omega)
      · rw [if_neg hgo]
        exact ⟨_, rfl⟩

end ForOk

theorem window_eq {index width : ℕ} {word : Text} (h : window source index width = word)
    (hword : word.length = width) (hin : index ≤ source.length) :
    index + width ≤ source.length := by
  rw [window] at h
  split_ifs at h with hfit
  · exact hfit
  · have hlength := congrArg List.length h
    rw [span, List.length_take, List.length_drop, hword] at hlength
    omega

section Brackets

variable {call : BindgenJsonParser → Option (BindgenJson × BindgenJsonParser)} {fuel : ℕ}
  {r : BindgenJson × BindgenJsonParser}

theorem array_consumes (hcall : Consumes source call) (hlt : parser.index < source.length)
    (h : array source call fuel parser = some r) :
    parser.index < r.2.index ∧ r.2.index ≤ source.length := by
  obtain ⟨hle, hin⟩ := @whitespace_moves source { parser with index := parser.index + 1 } hlt
  dsimp only at hle
  rw [array] at h
  split_ifs at h with hclose
  · obtain rfl := Option.some.inj h
    have := lt_of_peek hclose (by decide)
    dsimp only
    omega
  · obtain ⟨result, hresult, rfl⟩ := Option.map_eq_some_iff.mp h
    obtain ⟨hle', hin'⟩ := forOk_moves (arrayTurn_consumes hcall) fuel hin hresult
    exact ⟨lt_of_lt_of_le hle hle', hin'⟩

theorem object_consumes (hcall : Consumes source call) (hlt : parser.index < source.length)
    (h : object source call fuel parser = some r) :
    parser.index < r.2.index ∧ r.2.index ≤ source.length := by
  obtain ⟨hle, hin⟩ := @whitespace_moves source { parser with index := parser.index + 1 } hlt
  dsimp only at hle
  rw [object] at h
  split_ifs at h with hclose
  · obtain rfl := Option.some.inj h
    have := lt_of_peek hclose (by decide)
    dsimp only
    omega
  · obtain ⟨result, hresult, rfl⟩ := Option.map_eq_some_iff.mp h
    obtain ⟨hle', hin'⟩ := forOk_moves (objectTurn_consumes hcall) fuel hin hresult
    exact ⟨lt_of_lt_of_le hle hle', hin'⟩

end Brackets

section Returns

variable {call : BindgenJsonParser → Option (BindgenJson × BindgenJsonParser)} {start : ℕ}

theorem arrayTurn_returns
    (hcall : ∀ parser, start ≤ parser.index → parser.index ≤ source.length →
      ∃ r, call parser = some r)
    {items : List BindgenJson}
    (hstart : start ≤ parser.index)
    (hin : parser.index ≤ source.length) :
    ∃ next, arrayTurn source call items parser = some next := by
  obtain ⟨item, hitem⟩ := hcall parser hstart hin
  rw [arrayTurn, hitem]
  exact ⟨_, rfl⟩

theorem objectTurn_returns
    (hcall : ∀ parser, start ≤ parser.index → parser.index ≤ source.length →
      ∃ r, call parser = some r)
    {fields : List (Text × BindgenJson)}
    (hstart : start ≤ parser.index)
    (hin : parser.index ≤ source.length) :
    ∃ next, objectTurn source call fields parser = some next := by
  obtain ⟨hle, hin'⟩ := whitespace_moves hin
  rw [objectTurn]
  dsimp only
  split_ifs with hquote hcolon
  · exact ⟨_, rfl⟩
  · exact ⟨_, rfl⟩
  · obtain ⟨hstring, hstring'⟩ := stringValue_moves (lt_of_peek (not_not.mp hquote) (by decide))
    obtain ⟨hle₂, hin₂⟩ := whitespace_moves hstring'
    have hlt := lt_of_peek (not_not.mp hcolon) (by decide)
    obtain ⟨field, hfield⟩ := hcall
      ⟨(whitespace source (stringValue source (whitespace source parser)).2).index + 1,
        (whitespace source (stringValue source (whitespace source parser)).2).ok⟩
      (by dsimp only; omega) hlt
    rw [hfield]
    exact ⟨_, rfl⟩

end Returns

theorem value_consumes (fuel : ℕ) : Consumes source (value source fuel) := by
  induction fuel with
  | zero =>
    intro parser r _ h
    cases h
  | succ fuel ih =>
    intro parser r hin h
    obtain ⟨hle, hin'⟩ := whitespace_moves hin
    have hbehind : ∀ {k : ℕ}, (whitespace source parser).index < k →
        k ≤ source.length → ∀ ok, Moves source parser ⟨k, ok⟩ ∧ (ok = true → parser.index < k) :=
      fun hlt hk _ => ⟨⟨by dsimp only; omega, hk⟩, fun _ => by omega⟩
    rw [value] at h
    dsimp only at h
    split_ifs at h with hend hobject harray hstring htrue hfalse hnull
    · obtain rfl := Option.some.inj h
      exact ⟨⟨hle, hin'⟩, fun hok => absurd hok Bool.false_ne_true⟩
    · obtain ⟨hlt, hk⟩ := object_consumes ih (lt_of_peek hobject (by decide)) h
      exact hbehind hlt hk _
    · obtain ⟨hlt, hk⟩ := array_consumes ih (lt_of_peek harray (by decide)) h
      exact hbehind hlt hk _
    · obtain rfl := Option.some.inj h
      obtain ⟨hlt, hk⟩ := stringValue_moves (lt_of_peek hstring (by decide))
      exact hbehind hlt hk _
    · obtain rfl := Option.some.inj h
      exact hbehind (Nat.lt_add_of_pos_right (by decide)) (window_eq htrue rfl hin') _
    · obtain rfl := Option.some.inj h
      exact hbehind (Nat.lt_add_of_pos_right (by decide)) (window_eq hfalse rfl hin') _
    · obtain rfl := Option.some.inj h
      exact hbehind (Nat.lt_add_of_pos_right (by decide)) (window_eq hnull rfl hin') _
    · obtain rfl := Option.some.inj h
      obtain ⟨⟨hle₂, hin₂⟩, hconsumed⟩ := numberValue_moves hin'
      exact ⟨⟨by omega, hin₂⟩, fun hok => lt_of_le_of_lt hle (hconsumed hok)⟩

/-- The bytes that are left bound the nesting. -/
theorem value_returns (fuel : ℕ) {parser : BindgenJsonParser}
    (hin : parser.index ≤ source.length) (hfuel : source.length - parser.index + 1 ≤ fuel) :
    ∃ r, value source fuel parser = some r := by
  induction fuel generalizing parser with
  | zero => omega
  | succ fuel ih =>
    obtain ⟨hle, hin'⟩ := whitespace_moves hin
    rw [value]
    dsimp only
    split_ifs with hend hobject harray hstring htrue hfalse hnull
    · exact ⟨_, rfl⟩
    · have hlt := lt_of_peek hobject (by decide)
      obtain ⟨hle₂, hin₂⟩ := @whitespace_moves source
        ⟨(whitespace source parser).index + 1, (whitespace source parser).ok⟩ hlt
      rw [object]
      dsimp only at hle₂ ⊢
      split_ifs with hclose
      · exact ⟨_, rfl⟩
      · have hturns : ∀ state p, parser.index + 1 ≤ p.index → p.index ≤ source.length →
            ∃ next, objectTurn source (value source fuel) state p = some next :=
          fun _ _ => objectTurn_returns fun p hp hp' => ih hp' (by omega)
        obtain ⟨result, hresult⟩ := @forOk_returns source _ _
          (objectTurn_consumes (value_consumes fuel)) _ fuel hturns [] _
          (by omega) hin₂ (by omega)
        rw [hresult]
        exact ⟨_, rfl⟩
    · have hlt := lt_of_peek harray (by decide)
      obtain ⟨hle₂, hin₂⟩ := @whitespace_moves source
        ⟨(whitespace source parser).index + 1, (whitespace source parser).ok⟩ hlt
      rw [array]
      dsimp only at hle₂ ⊢
      split_ifs with hclose
      · exact ⟨_, rfl⟩
      · have hturns : ∀ state p, parser.index + 1 ≤ p.index → p.index ≤ source.length →
            ∃ next, arrayTurn source (value source fuel) state p = some next :=
          fun _ _ => arrayTurn_returns fun p hp hp' => ih hp' (by omega)
        obtain ⟨result, hresult⟩ := @forOk_returns source _ _
          (arrayTurn_consumes (value_consumes fuel)) _ fuel hturns [] _
          (by omega) hin₂ (by omega)
        rw [hresult]
        exact ⟨_, rfl⟩
    · exact ⟨_, rfl⟩
    · exact ⟨_, rfl⟩
    · exact ⟨_, rfl⟩
    · exact ⟨_, rfl⟩
    · exact ⟨_, rfl⟩

end Bindgen
end Beans
