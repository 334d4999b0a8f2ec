import Beans.Mir.ValueSet

/-!
# Value sets refine finite sets

The objects of the source take any size and loop over the words that both sets
have.  Between objects of one size the loops cover all words, so that every
sequence of calls does to the objects what it does to subsets of `0..size-1`.

**Results.**
* `value_sets_refine`: every sequence of calls, the bits above the size included.
-/

namespace Beans
namespace Mir

/-- A `MirValueSet` as the source lays it out. -/
structure ValueSetObject where
  words : List (BitVec 64)
  size : ℤ

namespace ValueSetObject

/-- `value >> 6` -/
def wordIndex (value : ℤ) : ℕ := (value / 64).toNat

/-- `value & 63` -/
def bitIndex (value : ℤ) : ℕ := (value % 64).toNat

/-- Words for `size` bits, all clear. -/
def init (size : ℤ) : ValueSetObject where
  words := List.replicate (wordIndex (size + 63)) 0
  size := size

variable (self other excluded : ValueSetObject)

/-- The words that both sets have. -/
def wordSpan : ℕ :=
  if self.words.length < other.words.length then self.words.length
  else other.words.length

/-- `for index in 0..span`, with a new word for each of the first `span`. -/
def updateWords (f : BitVec 64 → BitVec 64 → BitVec 64) (span : ℕ)
    (words words' : List (BitVec 64)) : List (BitVec 64) :=
  List.zipWith f (words.take span) (words'.take span) ++ words.drop span

def copy : ValueSetObject :=
  let result := init self.size
  { result with
    words := updateWords (fun _ word => word) self.words.length result.words self.words }

/-- Words that the other set lacks are cleared. -/
def copyFrom : ValueSetObject :=
  let span := self.wordSpan other
  let copied := updateWords (fun _ word => word) span self.words other.words
  { self with words := copied.take span ++ (copied.drop span).map fun _ => 0 }

def clear : ValueSetObject :=
  { self with words := self.words.map fun _ => 0 }

def contains (value : ℤ) : Bool :=
  decide (0 ≤ value) && decide (value < self.size) &&
    decide (self.words.getD (wordIndex value) 0 &&& (1#64 <<< bitIndex value) ≠ 0#64)

def add (value : ℤ) : ValueSetObject :=
  if 0 ≤ value ∧ value < self.size then
    let index := wordIndex value
    { self with
      words := self.words.set index
        (self.words.getD index 0 ||| (1#64 <<< bitIndex value)) }
  else self

def remove (value : ℤ) : ValueSetObject :=
  if 0 ≤ value ∧ value < self.size then
    let index := wordIndex value
    { self with
      words := self.words.set index
        (self.words.getD index 0 &&& ~~~(1#64 <<< bitIndex value)) }
  else self

def merge : ValueSetObject :=
  { self with
    words := updateWords (· ||| ·) (self.wordSpan other) self.words other.words }

/-- The other set is joined in, less the excluded one. -/
def mergeWithout : ValueSetObject :=
  let span := self.wordSpan other
  let span := if excluded.words.length < span then excluded.words.length else span
  { self with
    words := updateWords (· ||| ·) span self.words
      (updateWords (fun word word' => word &&& ~~~word') span other.words excluded.words) }

def intersect : ValueSetObject :=
  { self with
    words := updateWords (· &&& ·) (self.wordSpan other) self.words other.words }

/-- The bits above the size stay clear. -/
def fill : ValueSetObject :=
  let filled := self.words.map fun _ => (-1 : BitVec 64)
  let tail := bitIndex self.size
  { self with
    words :=
      if tail ≠ 0 ∧ filled.length > 0 then
        filled.set (filled.length - 1) ((1#64 <<< tail) - 1#64)
      else filled }

def equals : Bool :=
  if self.size ≠ other.size then false
  else
    (List.range self.words.length).all fun index =>
      decide (self.words.getD index 0 = other.words.getD index 0)

end ValueSetObject

/-- The calls on a number of sets; `copy` makes a new set out of one. -/
inductive SetCall where
  | add (target : ℕ) (value : ℤ)
  | remove (target : ℕ) (value : ℤ)
  | clear (target : ℕ)
  | fill (target : ℕ)
  | copy (target source : ℕ)
  | copyFrom (target other : ℕ)
  | merge (target other : ℕ)
  | mergeWithout (target other excluded : ℕ)
  | intersect (target other : ℕ)

/-- A call on objects that are named by numbers. -/
def SetCall.onObjects (objects : ℕ → ValueSetObject) : SetCall → ℕ → ValueSetObject
  | add target value => Function.update objects target ((objects target).add value)
  | remove target value => Function.update objects target ((objects target).remove value)
  | clear target => Function.update objects target (objects target).clear
  | fill target => Function.update objects target (objects target).fill
  | copy target source => Function.update objects target (objects source).copy
  | copyFrom target other =>
    Function.update objects target ((objects target).copyFrom (objects other))
  | merge target other =>
    Function.update objects target ((objects target).merge (objects other))
  | mergeWithout target other excluded =>
    Function.update objects target
      ((objects target).mergeWithout (objects other) (objects excluded))
  | intersect target other =>
    Function.update objects target ((objects target).intersect (objects other))

/-- `0..size-1` -/
def ids (size : ℤ) : Set ℤ := {v | 0 ≤ v ∧ v < size}

/-- The same calls on subsets of the ids. -/
def SetCall.onSets (size : ℤ) (sets : ℕ → Set ℤ) : SetCall → ℕ → Set ℤ
  | add target value => Function.update sets target (sets target ∪ ({value} ∩ ids size))
  | remove target value => Function.update sets target (sets target \ {value})
  | clear target => Function.update sets target ∅
  | fill target => Function.update sets target (ids size)
  | copy target source => Function.update sets target (sets source)
  | copyFrom target other => Function.update sets target (sets other)
  | merge target other => Function.update sets target (sets target ∪ sets other)
  | mergeWithout target other excluded =>
    Function.update sets target (sets target ∪ (sets other \ sets excluded))
  | intersect target other => Function.update sets target (sets target ∩ sets other)

/-- An object of the size holds the set: its words are those of a well-formed
value set with these members. -/
def Holds (size : ℤ) (object : ValueSetObject) (set : Set ℤ) : Prop :=
  ∃ s : MirValueSet size.toNat, object = ⟨s.words, size⟩ ∧
    ∀ v, v ∈ set ↔ s.contains v = true

namespace Holds

open ValueSetObject

variable {size : ℤ} {object other excluded : ValueSetObject} {set more gone : Set ℤ}

theorem wordIndex_natCast (v : ℕ) : wordIndex v = v / 64 := by
  rw [wordIndex]
  omega

theorem bitIndex_natCast (v : ℕ) : bitIndex v = v % 64 := by
  rw [bitIndex]
  omega

variable {words : List (BitVec 64)} {s : MirValueSet size.toNat} {value : ℤ}

theorem updateWords_all {f : BitVec 64 → BitVec 64 → BitVec 64} {span : ℕ}
    {words' : List (BitVec 64)} (h : words.length ≤ span) (h' : words'.length ≤ span) :
    updateWords f span words words' = List.zipWith f words words' := by
  rw [updateWords, List.take_of_length_le h, List.take_of_length_le h', List.drop_of_length_le h,
    List.append_nil]

theorem wordSpan_eq (s t : MirValueSet size.toNat) :
    wordSpan ⟨s.words, size⟩ ⟨t.words, size⟩ = s.words.length := by
  rw [wordSpan, s.length_words, t.length_words, if_neg (lt_irrefl _)]

/-- Members are ids, so that sets are compared on these. -/
theorem of_has (hset : set ⊆ ids size) (h : ∀ v : ℕ, (v : ℤ) ∈ set ↔ s.has v = true) :
    Holds size ⟨s.words, size⟩ set := by
  refine ⟨s, rfl, fun v => ?_⟩
  rw [MirValueSet.contains_iff]
  constructor
  · intro hv
    obtain ⟨n, rfl⟩ := Int.eq_ofNat_of_zero_le (hset hv).1
    exact ⟨n, rfl, (h n).mp hv⟩
  · rintro ⟨n, rfl, hn⟩
    exact (h n).mpr hn

theorem subset (h : Holds size object set) : set ⊆ ids size := by
  obtain ⟨s, -, hset⟩ := h
  intro v hv
  obtain ⟨n, rfl, hn⟩ := (s.contains_iff v).mp ((hset v).mp hv)
  have := MirValueSet.has_lt hn
  exact ⟨Int.natCast_nonneg n, by omega⟩

theorem mem_iff_has (hset : ∀ v, v ∈ set ↔ s.contains v = true) (v : ℕ) :
    (v : ℤ) ∈ set ↔ s.has v = true := by
  rw [hset, MirValueSet.contains_natCast]

theorem lt_toNat {v : ℕ} : (v : ℤ) ∈ ids size ↔ v < size.toNat := by
  rw [ids, Set.mem_ofPred_eq]
  omega

theorem add_inside (h : value ∈ ids size) :
    ValueSetObject.add ⟨words, size⟩ value =
      ⟨words.set (wordIndex value)
        (words.getD (wordIndex value) 0 ||| (1#64 <<< bitIndex value)), size⟩ :=
  if_pos h

theorem add_outside (h : value ∉ ids size) :
    ValueSetObject.add ⟨words, size⟩ value = ⟨words, size⟩ :=
  if_neg h

theorem remove_inside (h : value ∈ ids size) :
    ValueSetObject.remove ⟨words, size⟩ value =
      ⟨words.set (wordIndex value)
        (words.getD (wordIndex value) 0 &&& ~~~(1#64 <<< bitIndex value)), size⟩ :=
  if_pos h

theorem remove_outside (h : value ∉ ids size) :
    ValueSetObject.remove ⟨words, size⟩ value = ⟨words, size⟩ :=
  if_neg h

theorem init (size : ℤ) : Holds size (init size) ∅ := by
  have hwords : (ValueSetObject.init size) = ⟨(MirValueSet.empty size.toNat).words, size⟩ := by
    rw [ValueSetObject.init, MirValueSet.empty]
    congr 2
    rw [wordIndex]
    omega
  rw [hwords]
  exact of_has (Set.empty_subset _) fun v => by simp

theorem add (h : Holds size object set) (value : ℤ) :
    Holds size (object.add value) (set ∪ ({value} ∩ ids size)) := by
  have hsubset := h.subset
  obtain ⟨s, rfl, hset⟩ := h
  by_cases hvalue : value ∈ ids size
  · obtain ⟨n, rfl⟩ := Int.eq_ofNat_of_zero_le hvalue.1
    have hlt := lt_toNat.mp hvalue
    have hadd : ValueSetObject.add ⟨s.words, size⟩ n = ⟨(s.add n).words, size⟩ := by
      rw [add_inside hvalue, MirValueSet.add,
        dif_pos ⟨Int.natCast_nonneg n, Int.ofNat_lt.mpr hlt⟩, wordIndex_natCast,
        bitIndex_natCast]
      rfl
    rw [hadd]
    refine of_has (Set.union_subset hsubset Set.inter_subset_right) fun v => ?_
    rw [MirValueSet.has_add s hlt, Bool.or_eq_true, decide_eq_true_eq, ← mem_iff_has hset]
    constructor
    · rintro (hv | ⟨hv, -⟩)
      · exact Or.inr hv
      · exact Or.inl (Int.ofNat_inj.mp hv)
    · rintro (rfl | hv)
      · exact Or.inr ⟨rfl, hvalue⟩
      · exact Or.inl hv
  · have hnone : {value} ∩ ids size = ∅ := by
      rw [Set.singleton_inter_eq_empty]
      exact hvalue
    rw [add_outside hvalue, hnone, Set.union_empty]
    exact ⟨s, rfl, hset⟩

theorem remove (h : Holds size object set) (value : ℤ) :
    Holds size (object.remove value) (set \ {value}) := by
  have hsubset := h.subset
  obtain ⟨s, rfl, hset⟩ := h
  by_cases hvalue : value ∈ ids size
  · obtain ⟨n, rfl⟩ := Int.eq_ofNat_of_zero_le hvalue.1
    have hlt := lt_toNat.mp hvalue
    have hremove : ValueSetObject.remove ⟨s.words, size⟩ n = ⟨(s.remove n).words, size⟩ := by
      rw [remove_inside hvalue, MirValueSet.remove,
        dif_pos ⟨Int.natCast_nonneg n, Int.ofNat_lt.mpr hlt⟩, wordIndex_natCast,
        bitIndex_natCast]
      rfl
    rw [hremove]
    refine of_has (Set.sdiff_subset.trans hsubset) fun v => ?_
    rw [MirValueSet.has_remove s hlt, Bool.and_eq_true, Bool.not_eq_true',
      decide_eq_false_iff_not, ← mem_iff_has hset, Set.mem_sdiff, Set.mem_singleton_iff,
      Int.ofNat_inj]
    exact and_comm
  · have hnone : set \ {value} = set :=
      Set.sdiff_singleton_eq_self fun hv => hvalue (hsubset hv)
    rw [remove_outside hvalue, hnone]
    exact ⟨s, rfl, hset⟩

theorem clear (h : Holds size object set) : Holds size object.clear ∅ := by
  obtain ⟨s, rfl, -⟩ := h
  exact of_has (s := s.clear) (Set.empty_subset _) fun v => by simp

theorem fill (h : Holds size object set) : Holds size object.fill (ids size) := by
  obtain ⟨s, rfl, -⟩ := h
  have hfill : ValueSetObject.fill ⟨s.words, size⟩ = ⟨s.fill.words, size⟩ := by
    have htail : 0 < s.words.length → bitIndex size = size.toNat % 64 := by
      rw [s.length_words, bitIndex]
      omega
    have hwords : s.fill.words = MirValueSet.fillWords size.toNat s.words := rfl
    rw [ValueSetObject.fill, hwords, MirValueSet.fillWords]
    dsimp only
    rw [List.length_map]
    by_cases hsome : 0 < s.words.length
    · rw [htail hsome]
    · rw [if_neg (fun h => hsome h.2), if_neg (fun h => hsome h.2)]
  rw [hfill]
  refine of_has (Set.Subset.refl _) fun v => ?_
  rw [MirValueSet.has_fill, decide_eq_true_eq]
  exact lt_toNat

theorem copy (h : Holds size object set) : Holds size object.copy set := by
  obtain ⟨s, rfl, hset⟩ := h
  have hcopy : ValueSetObject.copy ⟨s.words, size⟩ = ⟨s.words, size⟩ := by
    obtain ⟨t, ht, -⟩ := Holds.init size
    rw [ValueSetObject.copy, ht]
    dsimp only
    rw [updateWords_all (by rw [t.length_words, s.length_words]) (le_refl _)]
    exact congrArg (ValueSetObject.mk · size) (congrArg MirValueSet.words (t.copyFrom_eq s))
  rw [hcopy]
  exact ⟨s, rfl, hset⟩

theorem copyFrom (h : Holds size object set) (h' : Holds size other more) :
    Holds size (object.copyFrom other) more := by
  obtain ⟨s, rfl, -⟩ := h
  obtain ⟨t, rfl, hset⟩ := h'
  have hcopy : ValueSetObject.copyFrom ⟨s.words, size⟩ ⟨t.words, size⟩ = ⟨t.words, size⟩ := by
    have hlength : t.words.length = s.words.length := t.length_words.trans s.length_words.symm
    have hall : List.zipWith (fun _ word => word) s.words t.words = t.words :=
      congrArg MirValueSet.words (s.copyFrom_eq t)
    rw [ValueSetObject.copyFrom]
    dsimp only
    rw [wordSpan_eq, updateWords_all (le_refl _) hlength.le, hall,
      List.take_of_length_le hlength.le, List.drop_of_length_le hlength.le, List.map_nil,
      List.append_nil]
  rw [hcopy]
  exact ⟨t, rfl, hset⟩

theorem merge (h : Holds size object set) (h' : Holds size other more) :
    Holds size (object.merge other) (set ∪ more) := by
  have hsubset := Set.union_subset h.subset h'.subset
  obtain ⟨s, rfl, hset⟩ := h
  obtain ⟨t, rfl, hset'⟩ := h'
  have hmerge : ValueSetObject.merge ⟨s.words, size⟩ ⟨t.words, size⟩ =
      ⟨(s.merge t).words, size⟩ := by
    rw [ValueSetObject.merge, wordSpan_eq, updateWords_all (le_refl _)
      (t.length_words.trans s.length_words.symm).le]
    rfl
  rw [hmerge]
  refine of_has hsubset fun v => ?_
  rw [MirValueSet.has_merge, Bool.or_eq_true, ← mem_iff_has hset, ← mem_iff_has hset']
  rfl

theorem mergeWithout (h : Holds size object set) (h' : Holds size other more)
    (h'' : Holds size excluded gone) :
    Holds size (object.mergeWithout other excluded) (set ∪ (more \ gone)) := by
  have hsubset : set ∪ (more \ gone) ⊆ ids size :=
    Set.union_subset h.subset (Set.sdiff_subset.trans h'.subset)
  obtain ⟨s, rfl, hset⟩ := h
  obtain ⟨t, rfl, hset'⟩ := h'
  obtain ⟨e, rfl, hset''⟩ := h''
  have hmerge : ValueSetObject.mergeWithout ⟨s.words, size⟩ ⟨t.words, size⟩ ⟨e.words, size⟩ =
      ⟨(s.mergeWithout t e).words, size⟩ := by
    have ht := t.length_words.trans s.length_words.symm
    have he := e.length_words.trans s.length_words.symm
    rw [ValueSetObject.mergeWithout]
    dsimp only
    rw [wordSpan_eq, he, if_neg (lt_irrefl _), updateWords_all ht.le he.le,
      updateWords_all (le_refl _) (by rw [List.length_zipWith, ht, he, Nat.min_self])]
    rfl
  rw [hmerge]
  refine of_has hsubset fun v => ?_
  rw [MirValueSet.has_mergeWithout, Bool.or_eq_true, Bool.and_eq_true, Bool.not_eq_true',
    ← Bool.not_eq_true, ← mem_iff_has hset, ← mem_iff_has hset', ← mem_iff_has hset'']
  rfl

theorem intersect (h : Holds size object set) (h' : Holds size other more) :
    Holds size (object.intersect other) (set ∩ more) := by
  have hsubset : set ∩ more ⊆ ids size := Set.inter_subset_left.trans h.subset
  obtain ⟨s, rfl, hset⟩ := h
  obtain ⟨t, rfl, hset'⟩ := h'
  have hmeet : ValueSetObject.intersect ⟨s.words, size⟩ ⟨t.words, size⟩ =
      ⟨(s.intersect t).words, size⟩ := by
    rw [ValueSetObject.intersect, wordSpan_eq, updateWords_all (le_refl _)
      (t.length_words.trans s.length_words.symm).le]
    rfl
  rw [hmeet]
  refine of_has hsubset fun v => ?_
  rw [MirValueSet.has_intersect, Bool.and_eq_true, ← mem_iff_has hset, ← mem_iff_has hset']
  rfl

theorem contains_iff (h : Holds size object set) (value : ℤ) :
    object.contains value = true ↔ value ∈ set := by
  obtain ⟨s, rfl, hset⟩ := h
  rw [hset]
  by_cases hvalue : value ∈ ids size
  · obtain ⟨n, rfl⟩ := Int.eq_ofNat_of_zero_le hvalue.1
    have hlt := lt_toNat.mp hvalue
    rw [ValueSetObject.contains, MirValueSet.contains, wordIndex_natCast, bitIndex_natCast,
      decide_eq_true hvalue.2, decide_eq_true (Int.ofNat_lt.mpr hlt), Int.toNat_natCast]
  · have hout : ¬ s.contains value = true := by
      rw [MirValueSet.contains_iff]
      rintro ⟨n, rfl, hn⟩
      exact hvalue (lt_toNat.mpr (MirValueSet.has_lt hn))
    refine iff_of_false (fun hin => hvalue ?_) hout
    rw [ValueSetObject.contains, Bool.and_eq_true, Bool.and_eq_true, decide_eq_true_eq,
      decide_eq_true_eq] at hin
    exact hin.1

theorem padding (h : Holds size object set) {v : ℕ} (hv : size ≤ v) :
    Packed.bit object.words v = false := by
  obtain ⟨s, rfl, -⟩ := h
  exact s.padding v (by omega)

theorem equals_iff (h : Holds size object set) (h' : Holds size other more) :
    object.equals other = true ↔ set = more := by
  obtain ⟨s, rfl, hset⟩ := h
  obtain ⟨t, rfl, hset'⟩ := h'
  have hlength : s.words.length = t.words.length := s.length_words.trans t.length_words.symm
  have hequals : ValueSetObject.equals ⟨s.words, size⟩ ⟨t.words, size⟩ = true ↔
      s.words = t.words := by
    rw [ValueSetObject.equals, if_neg (not_not.mpr rfl), List.all_eq_true]
    constructor
    · intro hall
      refine List.ext_getElem hlength fun n hn hn' => ?_
      have := of_decide_eq_true (hall n (List.mem_range.mpr hn))
      rw [List.getD_eq_getElem _ _ hn, List.getD_eq_getElem _ _ hn'] at this
      exact this
    · intro heq n _
      dsimp only
      rw [heq]
      exact decide_eq_true rfl
  rw [hequals]
  constructor
  · intro hwords
    ext v
    rw [hset, hset', MirValueSet.contains, MirValueSet.contains, hwords]
  · intro heq
    have hhas : ∀ v, s.has v = t.has v := fun v => by
      rw [Bool.eq_iff_iff, ← mem_iff_has hset, ← mem_iff_has hset', heq]
    rw [MirValueSet.has_ext hhas]

end Holds

/-- One call keeps every object in step with its set. -/
theorem SetCall.refines {size : ℤ} {objects : ℕ → ValueSetObject} {sets : ℕ → Set ℤ}
    (h : ∀ x, Holds size (objects x) (sets x)) (call : SetCall) (x : ℕ) :
    Holds size (call.onObjects objects x) (call.onSets size sets x) := by
  have hupdate : ∀ target {object set}, Holds size object set →
      Holds size (Function.update objects target object x)
        (Function.update sets target set x) := by
    intro target object set hholds
    by_cases hx : x = target
    · subst hx
      rw [Function.update_self, Function.update_self]
      exact hholds
    · rw [Function.update_of_ne hx, Function.update_of_ne hx]
      exact h x
  cases call with
  | add target value => exact hupdate target ((h target).add value)
  | remove target value => exact hupdate target ((h target).remove value)
  | clear target => exact hupdate target (h target).clear
  | fill target => exact hupdate target (h target).fill
  | copy target source => exact hupdate target (h source).copy
  | copyFrom target other => exact hupdate target ((h target).copyFrom (h other))
  | merge target other => exact hupdate target ((h target).merge (h other))
  | mergeWithout target other excluded =>
    exact hupdate target ((h target).mergeWithout (h other) (h excluded))
  | intersect target other => exact hupdate target ((h target).intersect (h other))

/-- The objects after the calls, all new at first. -/
def objectsAfter (size : ℤ) (calls : List SetCall) : ℕ → ValueSetObject :=
  calls.foldl SetCall.onObjects fun _ => ValueSetObject.init size

/-- The sets after the calls, all empty at first. -/
def setsAfter (size : ℤ) (calls : List SetCall) : ℕ → Set ℤ :=
  calls.foldl (SetCall.onSets size) fun _ => ∅

theorem holds_after (size : ℤ) (calls : List SetCall) (x : ℕ) :
    Holds size (objectsAfter size calls x) (setsAfter size calls x) := by
  rw [objectsAfter, setsAfter]
  induction calls using List.reverseRecOn generalizing x with
  | nil => exact Holds.init size
  | append_singleton calls call ih =>
    rw [List.foldl_append, List.foldl_append]
    exact call.refines ih x

/-- Every sequence of calls on sets of one size does to them what it does to
subsets of the ids. -/
theorem value_sets_refine (size : ℤ) (calls : List SetCall) :
    (∀ x, setsAfter size calls x ⊆ ids size) ∧
    (∀ x value, (objectsAfter size calls x).contains value = true ↔
      value ∈ setsAfter size calls x) ∧
    (∀ x value, value ∉ ids size →
      (objectsAfter size calls x).add value = objectsAfter size calls x ∧
      (objectsAfter size calls x).remove value = objectsAfter size calls x) ∧
    (∀ x (v : ℕ), size ≤ v → Packed.bit (objectsAfter size calls x).words v = false) ∧
    ∀ x y, (objectsAfter size calls x).equals (objectsAfter size calls y) = true ↔
      setsAfter size calls x = setsAfter size calls y := by
  have h := holds_after size calls
  refine ⟨fun x => (h x).subset, fun x => (h x).contains_iff, fun x value hvalue => ?_,
    fun x v hv => (h x).padding hv, fun x y => (h x).equals_iff (h y)⟩
  obtain ⟨s, hs, -⟩ := h x
  rw [hs]
  exact ⟨Holds.add_outside hvalue, Holds.remove_outside hvalue⟩

end Mir
end Beans
