import Beans.Source.StringLiteral

/-!
# Slices of the source

Slices of adjacent windows join, and the runs of `#` and the escapes that the
string literal functions measure stay in the window they are measured in.
-/

namespace Beans
namespace Source

section Slice

variable {source : Text} {a b c : Nat}

theorem slice_append (hab : a ≤ b) (hbc : b ≤ c) :
    slice source a b ++ slice source b c = slice source a c := by
  rw [slice, slice, slice, List.drop_take, List.drop_take, List.drop_take]
  have hsplit : c - a = (b - a) + (c - b) := by omega
  rw [hsplit, List.take_add, List.drop_drop]
  congr 3
  omega

theorem slice_length (hb : b ≤ source.length) :
    (slice source a b).length = b - a := by
  rw [slice, List.length_drop, List.length_take]
  omega

theorem slice_self : slice source a a = [] := by
  rw [slice, List.drop_take, Nat.sub_self, List.take_zero]

/-- The byte at a position starts the slice from there. -/
theorem slice_cons (h : a < b) (ha : a < source.length) :
    slice source a b = source[a] :: slice source (a + 1) b := by
  have hlt : a < (source.take b).length := by
    rw [List.length_take]
    omega
  rw [slice, slice, List.drop_eq_getElem_cons hlt, List.getElem_take]

theorem byteAt_eq (h : a < source.length) : byteAt source a = source[a].toNat := by
  rw [byteAt, List.getD_eq_getElem _ _ h]

/-- A byte with a known value. -/
theorem getElem_of_byteAt (h : a < source.length) {v : UInt8}
    (hv : byteAt source a = v.toNat) : source[a] = v := by
  rw [byteAt_eq h] at hv
  exact UInt8.toNat_inj.mp hv

theorem slice_one (h : a < source.length) :
    slice source a (a + 1) = [source[a]] := by
  rw [slice_cons (Nat.lt_succ_self a) h, slice_self]

end Slice

section Hashes

variable {source : Text} {start stop limit : Nat}

/-- The hashes of a run are the slice from its start. -/
theorem take_hashRun : (slice source start stop).take
    (hashRun source start stop limit) =
      List.replicate (hashRun source start stop limit) 35 := by
  have hleads : ((slice source start stop).take limit).takeWhile (· == 35) <+:
      slice source start stop :=
    (List.takeWhile_prefix _).trans (List.take_prefix _ _)
  rw [hashRun, ← List.prefix_iff_eq_take.mp hleads]
  exact List.eq_replicate_of_mem fun c hc => by
    simpa using List.mem_takeWhile_imp hc

theorem slice_length_le : (slice source start stop).length ≤ stop - start := by
  rw [slice, List.length_drop, List.length_take]
  omega

theorem hashRun_le_window : hashRun source start stop limit ≤ stop - start :=
  ((List.takeWhile_prefix _).trans (List.take_prefix _ _)).length_le.trans
    slice_length_le

theorem slice_hashRun :
    slice source start (start + hashRun source start stop limit) =
      List.replicate (hashRun source start stop limit) 35 := by
  have hwindow :=
    @hashRun_le_window source start stop limit
  rw [← take_hashRun, slice, slice, List.drop_take, List.drop_take,
    List.take_take]
  congr 1
  omega

/-- Hashes and then another byte. -/
theorem hashRun_eq {n : Nat} (hstop : stop ≤ source.length)
    (hlt : start + n < stop)
    (hhashes : slice source start (start + n) = List.replicate n 35)
    (hnext : byteAt source (start + n) ≠ 35) (hlimit : n ≤ limit) :
    hashRun source start stop limit = n := by
  have hsplit : slice source start stop = List.replicate n 35 ++
      source[start + n] :: slice source (start + n + 1) stop := by
    rw [← hhashes, ← slice_cons hlt (by omega),
      slice_append (Nat.le_add_right _ _) hlt.le]
  have hbyte : (source[start + n] == 35) = false := by
    rw [beq_eq_false_iff_ne]
    intro heq
    rw [byteAt_eq (by omega), heq] at hnext
    exact hnext rfl
  obtain ⟨k, rfl⟩ : ∃ k, limit = n + k := ⟨limit - n, by omega⟩
  rw [hashRun, hsplit, List.take_append, List.length_replicate,
    Nat.add_sub_cancel_left, List.take_of_length_le (by simp),
    List.takeWhile_append_of_pos fun c hc => by
      simp [List.eq_of_mem_replicate hc]]
  cases k with
  | zero => simp
  | succ k => simp [hbyte]

/-- As many hashes as are looked for. -/
theorem hashRun_full_iff {n : Nat} (hstart : start ≤ stop) :
    hashRun source start stop n = n ↔ start + n ≤ stop ∧
      slice source start (start + n) = List.replicate n 35 := by
  constructor
  · intro h
    have hwindow := @hashRun_le_window source start stop n
    have hslice := @slice_hashRun source start stop n
    rw [h] at hwindow hslice
    exact ⟨by omega, hslice⟩
  · rintro ⟨hle, hslice⟩
    have htake : (slice source start stop).take n = List.replicate n 35 := by
      rw [← hslice, slice, slice, List.drop_take, List.drop_take,
        List.take_take]
      congr 1
      omega
    rw [hashRun, htake, List.takeWhile_eq_self_iff.mpr, List.length_replicate]
    intro c hc
    simp [List.eq_of_mem_replicate hc]

/-- A raw literal's opening: `r`, the hashes and the quote. -/
theorem rawHashesAt_iff {index n : Nat} (hstop : stop ≤ source.length) :
    rawHashesAt source index stop = some n ↔
      index + 1 + n < stop ∧ byteAt source index = 114 ∧
      slice source (index + 1) (index + 1 + n) = List.replicate n 35 ∧
      byteAt source (index + 1 + n) = 34 := by
  simp only [rawHashesAt]
  constructor
  · intro h
    split at h
    · cases h
    rename_i hopen
    split at h
    · cases h
    rename_i hquote
    cases h
    exact ⟨by omega, by omega, slice_hashRun, by omega⟩
  · rintro ⟨hlt, hr, hhashes, hquote⟩
    have hrun : hashRun source (index + 1) stop (stop - (index + 1)) = n :=
      hashRun_eq hstop hlt hhashes (by rw [hquote]; decide) (by omega)
    rw [hrun, if_neg (by omega), if_neg (by omega)]

/-- The terminator of a raw literal: a quote at `q` and the hashes. -/
structure RawClosed (source : Text) (n q : Nat) : Prop where
  quote : byteAt source q = 34
  hashes : slice source (q + 1) (q + 1 + n) = List.replicate n 35

theorem lt_of_byteAt {p : Nat} (h : byteAt source p ≠ 0) :
    p < source.length := by
  by_contra hle
  rw [byteAt, List.getD_eq_default _ _ (Nat.not_lt.mp hle)] at h
  exact h rfl

theorem RawClosed.le {n q : Nat} (h : RawClosed source n q) :
    q + 1 + n ≤ source.length := by
  have hlt : q < source.length :=
    lt_of_byteAt (by rw [h.quote]; decide)
  have hlength := congrArg List.length h.hashes
  rw [List.length_replicate, slice, List.length_drop, List.length_take]
    at hlength
  omega

/-- The first terminator from a position on. -/
structure FirstClosed (source : Text) (n start q : Nat) : Prop where
  le : start ≤ q
  closed : RawClosed source n q
  first : ∀ i, start ≤ i → i < q → ¬ RawClosed source n i

end Hashes

section Escapes

variable {source : Text} {index stop : Nat}

theorem lt_of_hexDigitAt (h : hexDigitAt source index stop < 16) :
    index < stop := by
  by_contra hle
  rw [hexDigitAt, if_pos (Nat.not_lt.mp hle)] at h
  exact absurd h (Nat.lt_irrefl 16)

theorem stringEscapeUnicodeDigits_lt {digits : Nat}
    (h : stringEscapeUnicodeDigits source index stop = some digits) :
    index + 3 + digits < stop := by
  simp only [stringEscapeUnicodeDigits] at h
  split at h
  · cases h
  split at h
  · cases h
  split at h
  · cases h
  · cases h
    omega

/-- An escape takes a byte at least, and fits. -/
theorem stringEscapeLength_bounds (h : index < stop) :
    1 ≤ stringEscapeLength source index stop ∧
      index + stringEscapeLength source index stop ≤ stop := by
  simp only [stringEscapeLength]
  split
  · omega
  split
  · omega
  split
  · split
    · rename_i hdigits
      have := lt_of_hexDigitAt hdigits.2
      omega
    · omega
  split
  · cases hdigits : stringEscapeUnicodeDigits source index stop with
    | none => simp only; omega
    | some digits =>
      have := stringEscapeUnicodeDigits_lt hdigits
      simp only
      omega
  · omega

end Escapes

end Source
end Beans
