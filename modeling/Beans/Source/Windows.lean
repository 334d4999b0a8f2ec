import Beans.Source.Coverage

/-!
# Windows

A token is a window of the source.  The string literal functions read the same in
the token as in the source behind it, and what they find does not change when
the window ends at a closing quote instead of the end of the source.
-/

namespace Beans
namespace Source

section Shift

variable {source : Text} {p b : Nat}

theorem slice_slice {i j : Nat} (h : p + j ≤ b) :
    slice (slice source p b) i j = slice source (p + i) (p + j) := by
  rw [slice, slice, slice, List.drop_take, List.drop_take, List.drop_take,
    List.drop_take, List.take_take, List.drop_drop]
  congr 1
  omega

theorem byteAt_slice {i : Nat} (h : p + i < b) :
    byteAt (slice source p b) i = byteAt source (p + i) := by
  rw [byteAt, byteAt, slice, List.getD_eq_getElem?_getD,
    List.getD_eq_getElem?_getD, List.getElem?_drop, List.getElem?_take_of_lt h]

theorem rawHashesAt_slice (hb : b ≤ source.length) {index stop : Nat}
    (h : p + stop ≤ b) : rawHashesAt (slice source p b) index stop =
      rawHashesAt source (p + index) (p + stop) := by
  have hlen : (slice source p b).length = b - p := slice_length hb
  ext n
  rw [rawHashesAt_iff (by omega), rawHashesAt_iff (by omega)]
  by_cases hlt : index + 1 + n < stop
  · rw [byteAt_slice (by omega), byteAt_slice (by omega),
      slice_slice (by omega)]
    simp only [Nat.add_assoc, Nat.add_lt_add_iff_left]
  · exact ⟨fun hopen => absurd hopen.1 hlt, fun hopen => by omega⟩

theorem hexDigitAt_slice {index stop : Nat} (h : p + stop ≤ b) :
    hexDigitAt (slice source p b) index stop =
      hexDigitAt source (p + index) (p + stop) := by
  rw [hexDigitAt, hexDigitAt]
  by_cases hlt : index < stop
  · rw [if_neg (by omega), if_neg (by omega), byteAt_slice (by omega)]
  · rw [if_pos (by omega), if_pos (by omega)]

/-- A test of the byte at a position of the window. -/
theorem outside_slice {index stop v : Nat} (h : p + stop ≤ b) :
    (index ≥ stop ∨ byteAt (slice source p b) index ≠ v) ↔
      (p + index ≥ p + stop ∨ byteAt source (p + index) ≠ v) := by
  by_cases hlt : index < stop
  · rw [byteAt_slice (by omega)]
    omega
  · exact ⟨fun _ => .inl (by omega), fun _ => .inl (by omega)⟩

theorem stringEscapeUnicodeDigits_slice {index stop : Nat} (h : p + stop ≤ b) :
    stringEscapeUnicodeDigits (slice source p b) index stop =
      stringEscapeUnicodeDigits source (p + index) (p + stop) := by
  simp only [stringEscapeUnicodeDigits, outside_slice h, slice_slice h,
    Nat.add_assoc]

theorem stringEscapeLength_slice {index stop : Nat} (h : p + stop ≤ b) :
    stringEscapeLength (slice source p b) index stop =
      stringEscapeLength source (p + index) (p + stop) := by
  simp only [stringEscapeLength, outside_slice h, hexDigitAt_slice h,
    stringEscapeUnicodeDigits_slice h, ge_iff_le, Nat.add_assoc,
    Nat.add_le_add_iff_left]
  by_cases hlt : index + 1 < stop
  · rw [byteAt_slice (by omega)]
  · simp only [if_pos (Nat.not_lt.mp hlt)]

theorem rawClosed_slice {n i : Nat} (h : p + (i + 1 + n) ≤ b) :
    RawClosed (slice source p b) n i ↔ RawClosed source n (p + i) := by
  have hquote := @byteAt_slice source p b i (by omega)
  have hhashes := @slice_slice source p b (i + 1) (i + 1 + n) h
  constructor
  · rintro ⟨hq, hs⟩
    rw [hquote] at hq
    rw [hhashes] at hs
    exact ⟨hq, by simpa only [Nat.add_assoc] using hs⟩
  · rintro ⟨hq, hs⟩
    refine ⟨hquote.trans hq, hhashes.trans ?_⟩
    simpa only [Nat.add_assoc] using hs

/-- The first terminator in the source is the first one in a window that has
it. -/
theorem firstClosed_slice {n start q : Nat}
    (h : FirstClosed source n (p + start) (p + q))
    (hin : p + (q + 1 + n) ≤ b) : FirstClosed (slice source p b) n start q where
  le := by
    have := h.le
    omega
  closed := (rawClosed_slice hin).mpr h.closed
  first i hfrom hto hclosed := by
    have hle := hclosed.le
    have hlen := @slice_length_le source p b
    exact h.first (p + i) (by omega) (by omega)
      ((rawClosed_slice (by omega)).mp hclosed)

end Shift

section RawEnd

variable {source : Text} {stop n start q : Nat}

/-- The search for a terminator finds the first one. -/
theorem run_rawEndStep (hin : q + 1 + n ≤ stop)
    (h : FirstClosed source n start q) {k fuel : Nat} (hk : k ≤ q - start)
    (hfuel : k < fuel) :
    Loop.run (rawEndStep source stop n) fuel (q - k, false) =
      (q + 1 + n, true) := by
  have hle := h.le
  induction k generalizing fuel with
  | zero =>
    obtain ⟨fuel, rfl⟩ : ∃ f, fuel = f + 1 := ⟨fuel - 1, by omega⟩
    have hturn : rawEndStep source stop n (q - 0, false) =
        some (q + 1 + n, true) := by
      rw [rawEndStep, if_neg (by simp only [Nat.sub_zero]; simp; omega),
        if_pos ⟨h.closed.quote, (hashRun_full_iff (by omega)).mpr
          ⟨hin, h.closed.hashes⟩⟩]
      rfl
    have hdone : rawEndStep source stop n (q + 1 + n, true) = none :=
      if_pos (.inr rfl)
    rw [Loop.run_some hturn, Loop.run_none hdone]
  | succ k ih =>
    obtain ⟨fuel, rfl⟩ : ∃ f, fuel = f + 1 := ⟨fuel - 1, by omega⟩
    have hturn : rawEndStep source stop n (q - (k + 1), false) =
        some (q - k, false) := by
      rw [rawEndStep, if_neg (by simp; omega), if_neg]
      · simp only [Option.some.injEq, Prod.mk.injEq, and_true]
        omega
      · rintro ⟨hquote, hhashes⟩
        refine h.first (q - (k + 1)) (by omega) (by omega) ⟨hquote, ?_⟩
        exact ((hashRun_full_iff (by omega)).mp hhashes).2
    rw [Loop.run_some hturn]
    exact ih (by omega) (by omega)

theorem rawLiteralEnd_eq {index : Nat}
    (hopen : rawHashesAt source index stop = some n)
    (h : FirstClosed source n (index + n + 2) q) (hin : q + 1 + n ≤ stop) :
    rawLiteralEnd source index stop = q + 1 + n := by
  have hle := h.le
  have hrun := @run_rawEndStep source stop n _ q hin h (q - (index + n + 2))
    stop (Nat.le_refl _) (by omega)
  rw [Nat.sub_sub_self hle] at hrun
  simp only [rawLiteralEnd, hopen, hrun, if_true]

end RawEnd

section Closing

variable {source : Text} {index stop : Nat}

/-- A list that stops a run stops it as its end does. -/
theorem takeWhile_take_stop {α : Type} {p : α → Bool} {c : α} (hc : p c = false)
    (l r : List α) (n : Nat) :
    ((l ++ c :: r).take n).takeWhile p = (l.take n).takeWhile p := by
  induction l generalizing n with
  | nil =>
    cases n with
    | zero => rfl
    | succ n => simp [hc]
  | cons a l ih =>
    cases n with
    | zero => rfl
    | succ n =>
      rw [List.cons_append, List.take_succ_cons, List.take_succ_cons,
        List.takeWhile_cons, List.takeWhile_cons, ih]

theorem hexDigitAt_closing (hquote : byteAt source stop = 34)
    (h : index ≤ stop) :
    hexDigitAt source index stop = hexDigitAt source index source.length := by
  have hlt : stop < source.length := lt_of_byteAt (by rw [hquote]; decide)
  rw [hexDigitAt, hexDigitAt, if_neg (by omega : ¬ index ≥ source.length)]
  split
  · have heq : index = stop := by omega
    rw [heq, hquote]
    rfl
  · rfl

/-- A test for a byte that is not a quote fails at the closing quote too. -/
theorem outside_closing {v : Nat} (hquote : byteAt source stop = 34)
    (hv : v ≠ 34) (h : index ≤ stop) :
    (index ≥ stop ∨ byteAt source index ≠ v) ↔
      (index ≥ source.length ∨ byteAt source index ≠ v) := by
  have hlt : stop < source.length := lt_of_byteAt (by rw [hquote]; decide)
  constructor
  · rintro (hge | hne)
    · have heq : index = stop := by omega
      rw [heq, hquote]
      exact .inr hv.symm
    · exact .inr hne
  · exact fun hout => hout.imp (fun hge => by omega) id

theorem unicodeDigits_closing (hquote : byteAt source stop = 34)
    (h : index + 2 ≤ stop) : stringEscapeUnicodeDigits source index stop =
      stringEscapeUnicodeDigits source index source.length := by
  have hlt : stop < source.length := lt_of_byteAt (by rw [hquote]; decide)
  simp only [stringEscapeUnicodeDigits, outside_closing hquote
    (by decide : 123 ≠ 34) h]
  split
  · rfl
  rename_i hbrace
  have hmore : index + 3 ≤ stop := by
    refine Nat.lt_of_le_of_ne h fun heq => hbrace (.inr ?_)
    rw [heq, hquote]
    decide
  have hsplit : slice source (index + 3) source.length =
      slice source (index + 3) stop ++
        source[stop] :: slice source (stop + 1) source.length := by
    rw [← slice_cons hlt hlt, slice_append hmore hlt.le]
  have hstop : (fun c : UInt8 => decide (hexDigitValue c.toNat < 16))
      source[stop] = false := by
    simp only [← byteAt_eq hlt, hquote]
    rfl
  have hrun : ((slice source (index + 3) source.length).take 7).takeWhile
      (fun c => decide (hexDigitValue c.toNat < 16)) =
      ((slice source (index + 3) stop).take 7).takeWhile
        (fun c => decide (hexDigitValue c.toNat < 16)) := by
    rw [hsplit]
    exact takeWhile_take_stop (c := source[stop])
      (p := fun c => decide (hexDigitValue c.toNat < 16)) hstop _ _ _
  rw [hrun]
  have hdigits : (((slice source (index + 3) stop).take 7).takeWhile fun c =>
      decide (hexDigitValue c.toNat < 16)).length ≤ stop - (index + 3) :=
    ((List.takeWhile_prefix _).trans (List.take_prefix _ _)).length_le.trans
      slice_length_le
  simp only [outside_closing hquote (by decide : 125 ≠ 34)
    (by omega : index + 3 + (((slice source (index + 3) stop).take 7).takeWhile
      fun c => decide (hexDigitValue c.toNat < 16)).length ≤ stop)]

/-- An escape is as long before the closing quote as in the whole source. -/
theorem stringEscapeLength_closing (hquote : byteAt source stop = 34)
    (h : index + 1 < stop) : stringEscapeLength source index stop =
      stringEscapeLength source index source.length := by
  have hlt : stop < source.length := lt_of_byteAt (by rw [hquote]; decide)
  have hfirst := @hexDigitAt_closing source (index + 2) stop hquote (by omega)
  have hdigits : (hexDigitAt source (index + 2) stop < 16 ∧
      hexDigitAt source (index + 3) stop < 16) ↔
      (hexDigitAt source (index + 2) source.length < 16 ∧
        hexDigitAt source (index + 3) source.length < 16) := by
    rw [hfirst]
    refine and_congr_right fun hhex => ?_
    have hmore : index + 3 ≤ stop := by
      rw [← hfirst] at hhex
      exact lt_of_hexDigitAt hhex
    rw [hexDigitAt_closing hquote hmore]
  simp only [stringEscapeLength, hdigits,
    unicodeDigits_closing hquote (by omega : index + 2 ≤ stop),
    outside_closing hquote (by decide : 92 ≠ 34) (by omega : index ≤ stop),
    if_neg (by omega : ¬ index + 1 ≥ stop),
    if_neg (by omega : ¬ index + 1 ≥ source.length)]

end Closing

end Source
end Beans
