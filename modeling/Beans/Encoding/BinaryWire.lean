import Beans.Encoding.Binary

/-!
# Patterns on the wire

Positional writes swap the bytes of a little-endian store, appends shift each
byte out on its own, and reads undo the swap.  All three agree on the bytes of
a pattern, for each width and byte order.
-/

namespace Beans
namespace Encoding
namespace Binary

open SignedWords

variable {targetLittle : Bool} {order : ByteOrder} {data : Bytes} {pos : Int64}
  {width : ℕ}

/-- The widths of the package. -/
def IsWidth (width : ℕ) : Prop :=
  width = 1 ∨ width = 2 ∨ width = 4 ∨ width = 8

/-- The word lies in the buffer. -/
def Inside (data : Bytes) (pos : Int64) (width : ℕ) : Prop :=
  0 ≤ pos.toInt ∧ pos.toInt + width ≤ data.length

/-- The bytes of a pattern in wire order. -/
def wire (targetLittle : Bool) (order : ByteOrder) (width : ℕ)
    (pattern : UInt64) : Bytes :=
  if order.isLittle targetLittle then
    LittleEndian.bytes width pattern.toNat
  else (LittleEndian.bytes width pattern.toNat).reverse

@[simp] theorem wire_length (pattern : UInt64) :
    (wire targetLittle order width pattern).length = width := by
  unfold wire
  split_ifs <;> simp

theorem IsWidth.le (h : IsWidth width) : width ≤ 8 := by
  unfold IsWidth at h
  omega

theorem IsWidth.toInt_ofNat (h : IsWidth width) :
    (Int64.ofNat width).toInt = width :=
  Bytes.toInt_ofNat_of_lt (by have := h.le; omega)

theorem outside_iff (hdata : data.length < 2 ^ 63) (hwidth : IsWidth width) :
    Bytes.Outside data pos (Int64.ofNat width) ↔ ¬ Inside data pos width := by
  have hint := hwidth.toInt_ofNat
  rw [Bytes.outside_iff hdata (by omega), hint]
  rfl

theorem Inside.toNat (h : Inside data pos width) :
    (pos.toNatClampNeg : ℤ) = pos.toInt ∧
      pos.toNatClampNeg + width ≤ data.length := by
  have hpos : pos.toNatClampNeg = pos.toInt.toNat := rfl
  obtain ⟨h₁, h₂⟩ := h
  omega

theorem getw_inside (hdata : data.length < 2 ^ 63) (hwidth : IsWidth width)
    (h : Inside data pos width) :
    Bytes.getw data pos width =
      some (rtLoadLe ((data.drop pos.toNatClampNeg).take width)).toInt64 :=
  if_neg (fun hout => (outside_iff hdata hwidth).mp hout h)

theorem putw_inside (hdata : data.length < 2 ^ 63) (hwidth : IsWidth width)
    (h : Inside data pos width) (value : UInt64) :
    Bytes.putw data pos width value.toInt64 =
      some (data.take pos.toNatClampNeg ++
        LittleEndian.bytes width value.toNat ++
        data.drop (pos.toNatClampNeg + width)) := by
  unfold Bytes.putw
  rw [if_neg (fun hout => (outside_iff hdata hwidth).mp hout h),
    UInt64.toUInt64_toInt64, rtStoreLe_eq value hwidth.le]

theorem mask_toNat {mask value : UInt64} (k : ℕ) (hmask : mask.toNat = 2 ^ k - 1) :
    (value &&& mask).toNat = value.toNat % 2 ^ k := by
  rw [UInt64.toNat_and, hmask, Nat.and_two_pow_sub_one_eq_mod]

theorem bswap_toNat (hwidth : width ≤ 8) (value : UInt64) :
    (bswap width value).toNat =
      LittleEndian.value (LittleEndian.bytes width value.toNat).reverse := by
  rw [bswap, rtLoadLe_toNat (by rw [List.length_reverse, rtStoreLe_length]
                                exact hwidth), rtStoreLe_eq value hwidth]

/-- The swap on the masked pattern reverses the bytes of the pattern. -/
theorem bytes_bswap (hwidth : width ≤ 8) {value masked : UInt64}
    (hmasked : masked.toNat % 256 ^ width = value.toNat % 256 ^ width) :
    LittleEndian.bytes width (bswap width masked).toNat =
      (LittleEndian.bytes width value.toNat).reverse := by
  have hlen : (LittleEndian.bytes width masked.toNat).reverse.length = width := by
    rw [List.length_reverse, LittleEndian.bytes_length]
  have hback := LittleEndian.bytes_value
    (LittleEndian.bytes width masked.toNat).reverse
  rw [hlen] at hback
  rw [bswap_toNat hwidth, hback, ← LittleEndian.bytes_mod, hmasked,
    LittleEndian.bytes_mod]

theorem mask8_toNat (value : UInt64) :
    (value &&& 0xff).toNat = value.toNat % 256 ^ 1 :=
  mask_toNat 8 rfl

theorem mask16_toNat (value : UInt64) :
    (value &&& 0xffff).toNat = value.toNat % 256 ^ 2 :=
  mask_toNat 16 rfl

theorem mask32_toNat (value : UInt64) :
    (value &&& 0xffffffff).toNat = value.toNat % 256 ^ 4 :=
  mask_toNat 32 rfl

/-- A write stores the pattern in wire order. -/
theorem writePattern_inside (hdata : data.length < 2 ^ 63) (hwidth : IsWidth width)
    (h : Inside data pos width) (pattern : UInt64) :
    writePattern targetLittle data pos width pattern order =
      some (data.take pos.toNatClampNeg ++
        wire targetLittle order width pattern ++
        data.drop (pos.toNatClampNeg + width)) := by
  unfold writePattern wire
  obtain rfl | rfl | rfl | rfl := id hwidth
  · rw [if_pos rfl, putw_inside hdata hwidth h, mask8_toNat,
      LittleEndian.bytes_mod]
    split_ifs <;> rfl
  · rw [if_neg (by decide), if_pos rfl]
    dsimp only
    rw [putw_inside hdata hwidth h, mask16_toNat, LittleEndian.bytes_mod]
    split_ifs
    · rfl
    · rw [swap16, @bytes_bswap _ (by decide) pattern]
      rw [mask16_toNat, mask16_toNat, Nat.mod_mod, Nat.mod_mod]
  · rw [if_neg (by decide), if_neg (by decide), if_pos rfl]
    dsimp only
    rw [putw_inside hdata hwidth h, mask32_toNat, LittleEndian.bytes_mod]
    split_ifs
    · rfl
    · rw [swap32, @bytes_bswap _ (by decide) pattern]
      rw [mask32_toNat, mask32_toNat, Nat.mod_mod, Nat.mod_mod]
  · rw [if_neg (by decide), if_neg (by decide), if_neg (by decide)]
    dsimp only
    rw [putw_inside hdata hwidth h]
    split_ifs
    · rfl
    · rw [swap64, @bytes_bswap _ (by decide) pattern _ rfl]

/-- A read answers the number that the bytes stand for, in the given order. -/
theorem readPattern_inside (targetLittle : Bool) (order : ByteOrder)
    (hdata : data.length < 2 ^ 63) (hwidth : IsWidth width) (h : Inside data pos width) :
    ∃ p, readPattern targetLittle data pos width order = some p ∧
      LittleEndian.bytes width p.toNat =
        (if order.isLittle targetLittle then
          (data.drop pos.toNatClampNeg).take width
        else ((data.drop pos.toNatClampNeg).take width).reverse) ∧
      p.toNat < 256 ^ width := by
  obtain ⟨-, hlast⟩ := h.toNat
  obtain ⟨s, hs⟩ : ∃ s, s = (data.drop pos.toNatClampNeg).take width :=
    ⟨_, rfl⟩
  have hlen : s.length = width := by
    rw [hs, List.length_take, List.length_drop]
    omega
  have hload := rtLoadLe_toNat (hlen.trans_le hwidth.le)
  have hlt := LittleEndian.value_lt s
  have hbytes := LittleEndian.bytes_value s
  rw [hlen] at hlt hbytes
  -- a swap of the loaded word is the number of the reversed bytes
  have hswap : ∀ masked : UInt64,
      masked.toNat % 256 ^ width = (rtLoadLe s).toNat % 256 ^ width →
      LittleEndian.bytes width (bswap width masked).toNat = s.reverse ∧
        (bswap width masked).toNat < 256 ^ width := by
    intro masked hmasked
    rw [bytes_bswap hwidth.le hmasked, hload, hbytes, bswap_toNat hwidth.le]
    have hbound := LittleEndian.value_lt
      (LittleEndian.bytes width masked.toNat).reverse
    rw [List.length_reverse, LittleEndian.bytes_length] at hbound
    exact ⟨rfl, hbound⟩
  have hplain : LittleEndian.bytes width (rtLoadLe s).toNat = s ∧
      (rtLoadLe s).toNat < 256 ^ width := by
    rw [hload]
    exact ⟨hbytes, hlt⟩
  have hget := getw_inside hdata hwidth h
  rw [← hs] at hget ⊢
  unfold readPattern
  obtain rfl | rfl | rfl | rfl := id hwidth
  · rw [if_pos rfl, hget, Option.map_some, UInt64.toUInt64_toInt64]
    refine ⟨_, rfl, ?_, hplain.2⟩
    obtain ⟨b, hb⟩ := List.length_eq_one_iff.mp hlen
    rw [hplain.1, hb, List.reverse_singleton, ite_self]
  · rw [if_neg (by decide), if_pos rfl, hget, Option.map_some,
      UInt64.toUInt64_toInt64]
    refine ⟨_, rfl, ?_⟩
    split_ifs
    · exact hplain
    · exact hswap _ (by rw [mask16_toNat, Nat.mod_mod])
  · rw [if_neg (by decide), if_neg (by decide), if_pos rfl, hget,
      Option.map_some, UInt64.toUInt64_toInt64]
    refine ⟨_, rfl, ?_⟩
    split_ifs
    · exact hplain
    · exact hswap _ (by rw [mask32_toNat, Nat.mod_mod])
  · rw [if_neg (by decide), if_neg (by decide), if_neg (by decide), hget,
      Option.map_some, UInt64.toUInt64_toInt64]
    refine ⟨_, rfl, ?_⟩
    split_ifs
    · exact hplain
    · exact hswap _ rfl

/-- What a read finds where a pattern stands in wire order. -/
theorem readPattern_wire (hdata : data.length < 2 ^ 63) (hwidth : IsWidth width)
    (h : Inside data pos width) {pattern : UInt64} (hpattern : pattern.toNat < 256 ^ width)
    (hwire : (data.drop pos.toNatClampNeg).take width =
      wire targetLittle order width pattern) :
    readPattern targetLittle data pos width order = some pattern := by
  obtain ⟨p, hp, hbytes, hlt⟩ :=
    readPattern_inside targetLittle order hdata hwidth h
  have hsame : LittleEndian.bytes width p.toNat =
      LittleEndian.bytes width pattern.toNat := by
    rw [hbytes, hwire]
    unfold wire
    split_ifs
    · rfl
    · exact List.reverse_reverse _
  have hvalue := congrArg LittleEndian.value hsame
  rw [LittleEndian.value_bytes_of_lt hlt,
    LittleEndian.value_bytes_of_lt hpattern] at hvalue
  rw [hp, UInt64.toNat_inj.mp hvalue]

theorem appendLoop_eq (pattern : UInt64) (shift : ℕ → ℕ) :
    ∀ (left : ℕ) (data : Bytes), left ≤ width →
      (∀ i, i < width → shift i < 8) →
      appendLoop width pattern shift left data =
        data ++ ((List.range left).map fun i =>
          (pattern.toNat / 256 ^ shift (width - left + i)).toUInt8)
  | 0, data, _, _ => (List.append_nil data).symm
  | left + 1, data, hleft, hshift => by
      have hat := hshift (width - (left + 1)) (by omega)
      have hbyte : ((pattern >>> (shift (width - (left + 1)) * 8).toUInt64) &&&
          0xff).toUInt8 =
          (pattern.toNat / 256 ^ shift (width - (left + 1))).toUInt8 := by
        rw [← UInt8.toNat_inj, UInt64.toNat_toUInt8, mask8_toNat,
          UInt64.toNat_shiftRight, toNat_shift_of_lt hat,
          Nat.shiftRight_eq_div_pow, ← pow_bytes, pow_one, Nat.mod_mod]
        exact UInt8.toNat_ofNat'.symm
      have hindex : ∀ i, width - left + i = width - (left + 1) + (i + 1) := by
        intro i
        omega
      rw [appendLoop, Bytes.push, UInt64.toUInt64_toInt64, hbyte,
        appendLoop_eq pattern shift left _ (by omega) hshift,
        List.range_succ_eq_map, List.map_cons, List.map_map, List.append_assoc,
        List.singleton_append]
      simp only [Function.comp_def, hindex, Nat.succ_eq_add_one, Nat.add_zero]

/-- An append pushes the pattern in wire order. -/
theorem appendPattern_eq (hwidth : IsWidth width) (pattern : UInt64) :
    appendPattern targetLittle data width pattern order =
      data ++ wire targetLittle order width pattern := by
  have hle := hwidth.le
  unfold appendPattern wire
  rw [LittleEndian.bytes_eq_map]
  split_ifs
  · rw [appendLoop_eq pattern _ width data le_rfl (fun i hi => by omega)]
    simp only [Nat.sub_self, Nat.zero_add]
  · rw [appendLoop_eq pattern _ width data le_rfl (fun i hi => by omega),
      ← List.map_reverse]
    congr 1
    refine List.ext_getElem (by simp) fun i h₁ h₂ => ?_
    rw [List.length_map, List.length_range] at h₁
    simp only [List.getElem_map, List.getElem_range, List.getElem_reverse,
      List.length_range, Nat.sub_self, Nat.zero_add]

end Binary
end Encoding
end Beans
