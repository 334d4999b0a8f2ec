import Beans.Json.KeyTable

/-!
# Probing the key table

The search of the runtime for a key, on machine words, with an index outside of
the table as a fault.  A probe starts at the hash of the key, folded under the mask
of the table after every byte, so that a word that wraps makes no difference, and
walks over the buckets until an empty one or one with the bytes of the key.

The loops of the compiler that fill the table end with every name placed, and the
search in their table reads no bucket outside of it, ends, and finds the declared
names and no others.

**Results.**
* `key_table_exact`: every search ends inside the table, at the entry of a declared name, and
  nowhere for any other.
-/

namespace Beans
namespace Json

open OpenAddressing

variable {names : List (Text × ℕ)} {keys : List Key} {size : ℕ} {text : Text}

def beansJsonTypedKeyHash (text : Text) (mask : UInt64) : UInt64 :=
  text.foldl (fun hash byte => ((hash <<< 5) + hash + byte.toUInt64) &&& mask) 0

/-- The bytes of names of one length, one by one. -/
def sameBytes : Text → Text → Bool
  | a :: as, b :: bs => if a ≠ b then false else sameBytes as bs
  | _, _ => true

/-- Short names inline, longer ones as `memcmp` compares them. -/
def beansJsonNameEq (a b : Text) : Bool :=
  if b.length ≤ 16 then sameBytes a b else decide (a = b)

/-- The bucket the search ends at, and nothing when it ends without one; a slot outside
of the table is a fault. -/
def findKeyLoop (keys : List Key) (mask : UInt64) (text : Text) :
    ℕ → UInt64 → Option (Option Key)
  | 0, _ => some none
  | scans + 1, slot =>
    match keys[slot.toNat]? with
    | none => none
    | some key =>
      if key.field = 0 then some none
      else if key.name.length = text.length ∧ beansJsonNameEq key.name text then some (some key)
      else findKeyLoop keys mask text scans ((slot + 1) &&& mask)

def beansJsonTypedFindKey (keys : List Key) (mask : UInt64) (text : Text) :
    Option (Option Key) :=
  findKeyLoop keys mask text (mask.toNat + 1) (beansJsonTypedKeyHash text mask)

/-- A mask of one word drops what overflows the word. -/
theorem mod_and_word (value : ℕ) (mask : UInt64) :
    value % 2 ^ 64 &&& mask.toNat = value &&& mask.toNat := by
  have hmask : mask.toNat % 2 ^ 64 = mask.toNat := Nat.mod_eq_of_lt mask.toNat_lt
  have hlow : (value &&& mask.toNat) % 2 ^ 64 = value &&& mask.toNat :=
    Nat.mod_eq_of_lt (Nat.and_le_right.trans_lt mask.toNat_lt)
  rw [← hlow, Nat.and_mod_two_pow, hmask]

/-- The two hashes are one, also where a word wraps: the mask drops what overflows. -/
theorem beansJsonTypedKeyHash_eq (text : Text) (mask : UInt64) :
    (beansJsonTypedKeyHash text mask).toNat = jsonKeySlot text mask.toNat := by
  have hstep : ∀ (hash : UInt64) (byte : UInt8),
      (((hash <<< 5) + hash + byte.toUInt64) &&& mask).toNat =
        (hash.toNat * 33 + byte.toNat) &&& mask.toNat := by
    intro hash byte
    have hshift : (hash <<< 5).toNat = hash.toNat * 32 % 2 ^ 64 := by
      rw [UInt64.toNat_shiftLeft]
      change hash.toNat <<< 5 % 2 ^ 64 = _
      rw [Nat.shiftLeft_eq]
    have hword : ((hash.toNat * 32 % 2 ^ 64 + hash.toNat) % 2 ^ 64 + byte.toNat) % 2 ^ 64 =
        (hash.toNat * 33 + byte.toNat) % 2 ^ 64 := by
      omega
    rw [UInt64.toNat_and, UInt64.toNat_add, UInt64.toNat_add, hshift, UInt8.toNat_toUInt64,
      hword, mod_and_word]
  rw [beansJsonTypedKeyHash, jsonKeySlot]
  have hfold : ∀ hash : UInt64,
      (text.foldl (fun (word : UInt64) (byte : UInt8) =>
          ((word <<< 5) + word + byte.toUInt64) &&& mask) hash).toNat =
        text.foldl (fun (value : ℕ) (byte : UInt8) =>
          (value * 33 + byte.toNat) &&& mask.toNat) hash.toNat := by
    induction text with
    | nil => exact fun _ => rfl
    | cons byte text ih =>
      intro hash
      rw [List.foldl_cons, List.foldl_cons, ih, hstep]
  exact hfold 0

theorem sameBytes_iff {a b : Text} (h : a.length = b.length) :
    sameBytes a b = true ↔ a = b := by
  induction a generalizing b with
  | nil =>
    rw [List.length_eq_zero_iff.mp h.symm]
    exact iff_of_true rfl rfl
  | cons x a ih =>
    cases b with
    | nil => exact absurd h (by simp)
    | cons y b =>
      rw [sameBytes, List.cons.injEq, ← ih (Nat.succ.inj h)]
      by_cases hxy : x = y
      · simp [hxy]
      · simp [hxy]

/-- The comparison of names compares them. -/
theorem name_matches_iff (name text : Text) :
    (name.length = text.length ∧ beansJsonNameEq name text = true) ↔ name = text := by
  constructor
  · rintro ⟨hlength, heq⟩
    rw [beansJsonNameEq] at heq
    split_ifs at heq
    · exact (sameBytes_iff hlength).mp heq
    · exact of_decide_eq_true heq
  · rintro rfl
    refine ⟨rfl, ?_⟩
    rw [beansJsonNameEq]
    split_ifs
    · exact (sameBytes_iff rfl).mpr rfl
    · exact decide_eq_true rfl

theorem next_slot {mask slot : UInt64} {e : ℕ} (hsize : mask.toNat + 1 = 2 ^ e) :
    ((slot + 1) &&& mask).toNat = (slot.toNat + 1) % (mask.toNat + 1) := by
  have hand := and_mask hsize (slot.toNat + 1)
  rw [Nat.add_sub_cancel] at hand
  rw [← hand, UInt64.toNat_and, UInt64.toNat_add]
  exact mod_and_word _ mask

/-- What a bucket answers. -/
def answerOf : OpenAddressing.Slot (Text × ℕ) → Option Key
  | .full entry => some ⟨entry.1, entry.2 + 1⟩
  | _ => none

theorem findKeyLoop_of_probe {mask start : UInt64} {e rounds found : ℕ}
    (hsize : mask.toNat + 1 = 2 ^ e) (hlength : keys.length = mask.toNat + 1)
    (hstart : start.toNat < mask.toNat + 1)
    (h : probe (keyStop keys text) (mask.toNat + 1) rounds start.toNat = some found) :
    findKeyLoop keys mask text rounds start = some (answerOf (bucketAt keys found)) := by
  induction rounds generalizing start with
  | zero => exact absurd h (by simp [probe])
  | succ rounds ih =>
    have hkey : keys[start.toNat]? = some (keys.getD start.toNat ⟨[], 0⟩) := by
      rw [List.getD_eq_getElem?_getD, List.getElem?_eq_getElem (by omega)]
      rfl
    rw [findKeyLoop, hkey]
    rw [probe, keyStop] at h
    by_cases hempty : (keys.getD start.toNat ⟨[], 0⟩).field = 0
    · have hslot : bucketAt keys start.toNat = .empty := by
        rw [bucketAt, bucketSlot, if_pos hempty]
      rw [hslot, if_pos rfl, Option.some.injEq] at h
      rw [← h, hslot]
      exact if_pos hempty
    · have hslot : bucketAt keys start.toNat =
          .full ((keys.getD start.toNat ⟨[], 0⟩).name,
            (keys.getD start.toNat ⟨[], 0⟩).field - 1) := by
        rw [bucketAt, bucketSlot, if_neg hempty]
      rw [hslot] at h
      simp only [decide_eq_true_eq] at h
      refine (if_neg hempty).trans ?_
      have hmatch := name_matches_iff (keys.getD start.toNat ⟨[], 0⟩).name text
      by_cases hname : (keys.getD start.toNat ⟨[], 0⟩).name = text
      · rw [if_pos hname, Option.some.injEq] at h
        rw [if_pos (hmatch.mpr hname), ← h, hslot, answerOf, Nat.sub_add_cancel (Nat.pos_of_ne_zero hempty)]
      · rw [if_neg hname, ← next_slot hsize] at h
        rw [if_neg fun heq => hname (hmatch.mp heq)]
        refine ih ?_ h
        rw [next_slot hsize]
        exact Nat.mod_lt _ (Nat.succ_pos _)

/-- The loops that fill a key table end, and the search of the runtime, which reads only
slots of the table, ends at the entry of the name it is given, when that was declared. -/
theorem key_table_exact
    (hnodup : (names.map Prod.fst).Nodup) :
    ∃ keys least, (∀ fuel ≥ least,
        keyTableLoop names fuel = some (keys, tableSize names.length - 1)) ∧
      ∀ mask : UInt64, mask.toNat = tableSize names.length - 1 →
        (∀ text, (beansJsonTypedKeyHash text mask).toNat = jsonKeySlot text mask.toNat) ∧
        (∀ text index, (text, index) ∈ names →
          beansJsonTypedFindKey keys mask text = some (some ⟨text, index + 1⟩)) ∧
        ∀ text, text ∉ names.map Prod.fst → beansJsonTypedFindKey keys mask text = some none := by
  refine ⟨keyTable names, names.length * 2 + 1 + tableSize names.length,
    (keyTableLoop_spec (List.Nodup.of_map _ hnodup)).1, fun mask hmask => ?_⟩
  have hholds := keyTable_holds (List.Nodup.of_map _ hnodup)
  obtain ⟨⟨e, he⟩, hroom, htwo⟩ := tableSize_spec names.length
  have hsize : tableSize names.length = mask.toNat + 1 := by omega
  have hreversed : (names.reverse.map Prod.fst).Nodup := by
    rw [List.map_reverse]
    exact List.nodup_reverse.mpr hnodup
  have hsearch := hholds.search he (by rw [List.length_reverse]; omega) hreversed
  rw [hsize] at he hholds
  have hfind : ∀ text, ∃ found,
      beansJsonTypedFindKey (keyTable names) mask text =
        some (answerOf (bucketAt (keyTable names) found)) ∧
      (∀ index, (text, index) ∈ names.reverse →
        bucketAt (keyTable names) found = .full (text, index)) ∧
      ((∀ index, (text, index) ∉ names.reverse) → bucketAt (keyTable names) found = .empty) := by
    intro text
    obtain ⟨found, hprobe, hthere, hnowhere⟩ := hsearch text
    rw [hsize, Nat.add_sub_cancel, ← beansJsonTypedKeyHash_eq] at hprobe
    have hstart := jsonKeySlot_lt he text
    rw [Nat.add_sub_cancel, ← beansJsonTypedKeyHash_eq] at hstart
    exact ⟨found, findKeyLoop_of_probe he hholds.length hstart hprobe, hthere, hnowhere⟩
  refine ⟨fun text => beansJsonTypedKeyHash_eq text mask, fun text index hmem => ?_,
    fun text hnone => ?_⟩
  · obtain ⟨found, hanswer, hthere, -⟩ := hfind text
    rw [hanswer, hthere index (List.mem_reverse.mpr hmem)]
    rfl
  · obtain ⟨found, hanswer, -, hnowhere⟩ := hfind text
    rw [hanswer, hnowhere fun index hmem => hnone (List.mem_map.mpr
      ⟨(text, index), List.mem_reverse.mp hmem, rfl⟩)]
    rfl

/-- Two names whose hashes meet. -/
theorem key_table_exact_two :
    ∃ keys least, (∀ fuel ≥ least,
        keyTableLoop [([97], 0), ([101], 1)] fuel = some (keys, 3)) ∧
      ∀ mask : UInt64, mask.toNat = 3 →
        (∀ text, (beansJsonTypedKeyHash text mask).toNat = jsonKeySlot text mask.toNat) ∧
        (∀ text index, (text, index) ∈ [([97], 0), ([101], 1)] →
          beansJsonTypedFindKey keys mask text = some (some ⟨text, index + 1⟩)) ∧
        ∀ text, text ∉ [([97], 0), ([101], 1)].map Prod.fst →
          beansJsonTypedFindKey keys mask text = some none :=
  @key_table_exact [([97], 0), ([101], 1)] (by decide)

end Json
end Beans
