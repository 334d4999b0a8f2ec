import Beans.Foundation.PackedWords

/-!
# Dense sets of ids

`MirValueSet` packs the ids below `size` into words of 64 bits.  Bits at or
above `size` are always zero, so that `equals` may compare raw words.  The sets
of one dataflow problem all have the size of the problem.
-/

namespace Beans
namespace Mir

/-- A set of ids below `size`, whose padding bits are clear. -/
structure MirValueSet (size : ℕ) where
  words : List (BitVec 64)
  length_words : words.length = (size + 63) / 64
  padding : ∀ v, size ≤ v → Packed.bit words v = false

namespace MirValueSet

variable {size : ℕ}

/-- Membership of an id. -/
def has (s : MirValueSet size) (v : ℕ) : Bool := Packed.bit s.words v

variable {v value : ℕ} {words : List (BitVec 64)}

theorem has_lt {s : MirValueSet size} (h : s.has v = true) : v < size := by
  by_contra hv
  rw [has, s.padding v (by omega)] at h
  exact Bool.false_ne_true h

theorem has_ext {s t : MirValueSet size} (h : ∀ v, s.has v = t.has v) : s = t := by
  obtain ⟨words, hlength, hpadding⟩ := s
  obtain ⟨words', hlength', hpadding'⟩ := t
  have hwords : words = words' :=
    Packed.eq_of_bit (by decide) (hlength.trans hlength'.symm) h
  subst hwords
  rfl

theorem word_lt (s : MirValueSet size) (h : v < size) :
    v / 64 < s.words.length := by
  rw [s.length_words]
  omega

/-- The set a `new MirValueSet(size)` starts as. -/
def empty (size : ℕ) : MirValueSet size where
  words := List.replicate ((size + 63) / 64) 0
  length_words := List.length_replicate
  padding _ _ := Packed.bit_replicate_zero _

@[simp] theorem has_empty (v : ℕ) : (empty size).has v = false :=
  Packed.bit_replicate_zero _

theorem bit_map_zero (words : List (BitVec 64)) (v : ℕ) :
    Packed.bit (words.map fun _ => (0 : BitVec 64)) v = false := by
  rw [List.map_const']
  exact Packed.bit_replicate_zero _

def clear (s : MirValueSet size) : MirValueSet size where
  words := s.words.map fun _ => 0
  length_words := by rw [List.length_map, s.length_words]
  padding v _ := bit_map_zero s.words v

@[simp] theorem has_clear (s : MirValueSet size) (v : ℕ) : s.clear.has v = false :=
  bit_map_zero s.words v

/-- An id outside of the set's size is in no set. -/
def contains (s : MirValueSet size) (value : ℤ) : Bool :=
  decide (0 ≤ value) && decide (value < size) &&
    decide (s.words.getD (value.toNat / 64) 0 &&& (1#64 <<< (value.toNat % 64)) ≠ 0#64)

theorem contains_natCast (s : MirValueSet size) (v : ℕ) : s.contains (v : ℤ) = s.has v := by
  have hmask := Packed.and_mask_ne_zero
    (x := s.words.getD (v / 64) 0) (Nat.mod_lt v (by decide : 0 < 64))
  rw [contains, Int.toNat_natCast, decide_eq_true (Int.natCast_nonneg v), Bool.true_and]
  by_cases hv : v < size
  · rw [decide_eq_true (Int.ofNat_lt.mpr hv), Bool.true_and]
    exact Bool.eq_iff_iff.mpr (decide_eq_true_iff.trans hmask)
  · rw [decide_eq_false (fun h => hv (Int.ofNat_lt.mp h)), Bool.false_and, has,
      s.padding v (by omega)]

theorem contains_iff (s : MirValueSet size) (value : ℤ) :
    s.contains value = true ↔ ∃ v : ℕ, value = v ∧ s.has v = true := by
  constructor
  · intro h
    have hvalue : 0 ≤ value := by
      rw [contains, Bool.and_eq_true, Bool.and_eq_true, decide_eq_true_eq] at h
      exact h.1.1
    obtain ⟨v, rfl⟩ := Int.eq_ofNat_of_zero_le hvalue
    exact ⟨v, rfl, by rw [← contains_natCast]; exact h⟩
  · rintro ⟨v, rfl, h⟩
    rw [contains_natCast]
    exact h

def add (s : MirValueSet size) (value : ℤ) : MirValueSet size :=
  if h : 0 ≤ value ∧ value < size then
    { words := s.words.set (value.toNat / 64)
        (s.words.getD (value.toNat / 64) 0 ||| (1#64 <<< (value.toNat % 64)))
      length_words := by rw [List.length_set, s.length_words]
      padding := fun v hv => by
        rw [Packed.bit_set_or (by decide) (s.word_lt (by omega)), s.padding v hv,
          Bool.or_false]
        exact decide_eq_false (by omega) }
  else s

theorem has_add (s : MirValueSet size) (h : value < size) (v : ℕ) :
    (s.add (value : ℤ)).has v = (decide (v = value) || s.has v) := by
  rw [add, dif_pos ⟨Int.natCast_nonneg value, Int.ofNat_lt.mpr h⟩]
  exact Packed.bit_set_or (by decide) (s.word_lt h)

def remove (s : MirValueSet size) (value : ℤ) : MirValueSet size :=
  if h : 0 ≤ value ∧ value < size then
    { words := s.words.set (value.toNat / 64)
        (s.words.getD (value.toNat / 64) 0 &&& ~~~(1#64 <<< (value.toNat % 64)))
      length_words := by rw [List.length_set, s.length_words]
      padding := fun v hv => by
        rw [Packed.bit_set_and_not (by decide) (s.word_lt (by omega)), s.padding v hv,
          Bool.and_false] }
  else s

theorem has_remove (s : MirValueSet size) (h : value < size) (v : ℕ) :
    (s.remove (value : ℤ)).has v = (!decide (v = value) && s.has v) := by
  rw [remove, dif_pos ⟨Int.natCast_nonneg value, Int.ofNat_lt.mpr h⟩]
  exact Packed.bit_set_and_not (by decide) (s.word_lt h)

/-- Bitwise or; the padding stays clear. -/
def merge (s other : MirValueSet size) : MirValueSet size where
  words := List.zipWith (· ||| ·) s.words other.words
  length_words := by
    rw [List.length_zipWith, s.length_words, other.length_words, Nat.min_self]
  padding v hv := by
    rw [Packed.bit_zipWith (fun _ _ _ => BitVec.getLsbD_or) rfl
        (s.length_words.trans other.length_words.symm),
      s.padding v hv, other.padding v hv, Bool.or_false]

theorem has_merge (s other : MirValueSet size) (v : ℕ) :
    (s.merge other).has v = (s.has v || other.has v) :=
  Packed.bit_zipWith (fun _ _ _ => BitVec.getLsbD_or) rfl
    (s.length_words.trans other.length_words.symm)

/-- Bitwise and. -/
def intersect (s other : MirValueSet size) : MirValueSet size where
  words := List.zipWith (· &&& ·) s.words other.words
  length_words := by
    rw [List.length_zipWith, s.length_words, other.length_words, Nat.min_self]
  padding v hv := by
    rw [Packed.bit_zipWith (fun _ _ _ => BitVec.getLsbD_and) rfl
        (s.length_words.trans other.length_words.symm),
      s.padding v hv, other.padding v hv, Bool.and_false]

theorem has_intersect (s other : MirValueSet size) (v : ℕ) :
    (s.intersect other).has v = (s.has v && other.has v) :=
  Packed.bit_zipWith (fun _ _ _ => BitVec.getLsbD_and) rfl
    (s.length_words.trans other.length_words.symm)

/-- What is in `other` and not in `excluded` is added. -/
def mergeWithout (s other excluded : MirValueSet size) : MirValueSet size where
  words := List.zipWith (· ||| ·) s.words
    (List.zipWith (fun word word' => word &&& ~~~word') other.words excluded.words)
  length_words := by
    rw [List.length_zipWith, List.length_zipWith, s.length_words, other.length_words,
      excluded.length_words, Nat.min_self, Nat.min_self]
  padding v hv := by
    rw [Packed.bit_zipWith (fun _ _ _ => BitVec.getLsbD_or) rfl
        (by rw [List.length_zipWith, s.length_words, other.length_words,
          excluded.length_words, Nat.min_self]),
      Packed.bit_zipWith (g := fun a b => a && !b) Packed.getLsbD_and_not rfl
        (other.length_words.trans excluded.length_words.symm),
      s.padding v hv, other.padding v hv, Bool.false_and, Bool.or_false]

theorem has_mergeWithout (s other excluded : MirValueSet size) (v : ℕ) :
    (s.mergeWithout other excluded).has v = (s.has v || (other.has v && !excluded.has v)) := by
  have hwithout := Packed.bit_zipWith (v := v) (g := fun a b => a && !b) Packed.getLsbD_and_not
    rfl (other.length_words.trans excluded.length_words.symm)
  have hor := @Packed.bit_zipWith 64 s.words
    (List.zipWith (fun word word' => word &&& ~~~word') other.words excluded.words) v
    _ _ (fun _ _ _ => BitVec.getLsbD_or) rfl
    (by rw [List.length_zipWith, s.length_words, other.length_words,
      excluded.length_words, Nat.min_self])
  rw [hwithout] at hor
  exact hor

def copyFrom (s other : MirValueSet size) : MirValueSet size where
  words := List.zipWith (fun _ word => word) s.words other.words
  length_words := by
    rw [List.length_zipWith, s.length_words, other.length_words, Nat.min_self]
  padding v hv := by
    rw [Packed.bit_zipWith (g := fun _ b => b) (fun _ _ _ => rfl) rfl
        (s.length_words.trans other.length_words.symm),
      other.padding v hv]

theorem copyFrom_eq (s other : MirValueSet size) : s.copyFrom other = other :=
  has_ext fun _ => Packed.bit_zipWith (g := fun _ b => b) (fun _ _ _ => rfl) rfl
    (s.length_words.trans other.length_words.symm)

def equals (s other : MirValueSet size) : Bool :=
  (List.zipWith (fun word word' => decide (word = word')) s.words other.words).all id

theorem equals_iff (s other : MirValueSet size) : s.equals other = true ↔ s = other := by
  constructor
  · intro h
    have hlength := s.length_words.trans other.length_words.symm
    have hwords : s.words = other.words := by
      refine List.ext_getElem hlength fun n hs ho => ?_
      have hzip : n < (List.zipWith (fun word word' => decide (word = word'))
          s.words other.words).length := by
        rw [List.length_zipWith]
        omega
      have hn := List.all_eq_true.mp h _ (List.getElem_mem hzip)
      rw [List.getElem_zipWith] at hn
      exact of_decide_eq_true hn
    refine has_ext fun v => ?_
    rw [has, has, hwords]
  · rintro rfl
    refine List.all_eq_true.mpr fun b hb => ?_
    rw [List.zipWith_self] at hb
    obtain ⟨word, -, rfl⟩ := List.mem_map.mp hb
    exact decide_eq_true rfl

/-- All ones, and in a last word that is only partly used its low bits. -/
def fillWords (size : ℕ) (words : List (BitVec 64)) : List (BitVec 64) :=
  let filled := words.map fun _ => (-1 : BitVec 64)
  let tail := size % 64
  if tail ≠ 0 ∧ words.length > 0 then
    filled.set (words.length - 1) ((1#64 <<< tail) - 1#64)
  else filled

theorem length_fillWords (words : List (BitVec 64)) :
    (fillWords size words).length = words.length := by
  rw [fillWords]
  split
  · rw [List.length_set, List.length_map]
  · rw [List.length_map]

theorem bit_map_ones (v : ℕ) (h : v / 64 < words.length) :
    Packed.bit (words.map fun _ => (-1 : BitVec 64)) v = true := by
  rw [Packed.bit_of_lt (by rw [List.length_map]; exact h), List.get_eq_getElem,
    List.getElem_map, show (-1 : BitVec 64) = BitVec.allOnes 64 from rfl,
    BitVec.getLsbD_allOnes]
  exact decide_eq_true (Nat.mod_lt v (by decide))

theorem bit_fillWords (hlength : words.length = (size + 63) / 64)
    (v : ℕ) : Packed.bit (fillWords size words) v = decide (v < size) := by
  by_cases hin : v / 64 < words.length
  · rw [fillWords]
    by_cases htail : size % 64 ≠ 0 ∧ words.length > 0
    · have hlast : words.length - 1 < (words.map fun _ => (-1 : BitVec 64)).length := by
        rw [List.length_map]
        omega
      rw [if_pos htail, Packed.bit_set hlast]
      by_cases hword : v / 64 = words.length - 1
      · rw [if_pos hword, Packed.getLsbD_low_ones (Nat.mod_lt size (by decide))]
        refine decide_eq_decide.mpr ?_
        omega
      · rw [if_neg hword, bit_map_ones v hin]
        exact (decide_eq_true (by omega)).symm
    · rw [if_neg htail, bit_map_ones v hin]
      exact (decide_eq_true (by omega)).symm
  · rw [Packed.bit_of_length_le (by rw [length_fillWords]; omega)]
    exact (decide_eq_false (by omega)).symm

/-- All ids below the size, and no padding bit. -/
def fill (s : MirValueSet size) : MirValueSet size where
  words := fillWords size s.words
  length_words := (length_fillWords s.words).trans s.length_words
  padding v hv := by
    rw [bit_fillWords s.length_words]
    exact decide_eq_false (by omega)

theorem has_fill (s : MirValueSet size) (v : ℕ) : s.fill.has v = decide (v < size) :=
  bit_fillWords s.length_words v

end MirValueSet
end Mir
end Beans
