import Beans.Foundation.ByteLanes
import Beans.Json.Value
import Beans.Runtime.Bytes

/-!
# Plain runs of a string

The writer copies the bytes that need no escape in runs.  How long a run is gets
found sixteen bytes at a time, eight at a time, or byte by byte, as the host
allows; the three agree on every string.
-/

namespace Beans
namespace Json

open ByteLanes

/-- A byte that is copied as it stands. -/
def isPlain (c : UInt8) : Bool :=
  0x20 ≤ c && c < 0x80 && c != 0x22 && c != 0x5C

/-- The byte-wise scan. -/
def byteSpan : Text → ℕ
  | [] => 0
  | c :: rest => if isPlain c then byteSpan rest + 1 else 0

/-- Scans whole blocks, each answering where its run ends, and leaves the rest of
the string to another scan. -/
def blockSpan (width : ℕ) (firstBreak : Text → Option ℕ) (remaining : Text → ℕ) :
    ℕ → Text → ℕ
  | 0, text => remaining text
  | blocks + 1, text =>
    if text.length < width then remaining text
    else
      match firstBreak (text.take width) with
      | some at' => at'
      | none => width + blockSpan width firstBreak remaining blocks (text.drop width)

/-- The flags of the bytes of a word that end a run. -/
def wordBreaks (word : UInt64) : UInt64 :=
  let high := word &&& 0x8080808080808080
  let control := (word - 0x2020202020202020) &&& ~~~word &&& 0x8080808080808080
  let quoted := word ^^^ 0x2222222222222222
  let quoted := (quoted - 0x0101010101010101) &&& ~~~quoted &&& 0x8080808080808080
  let slashed := word ^^^ 0x5C5C5C5C5C5C5C5C
  let slashed := (slashed - 0x0101010101010101) &&& ~~~slashed &&& 0x8080808080808080
  high ||| control ||| quoted ||| slashed

def wordBreak (block : Text) : Option ℕ :=
  let breaks := wordBreaks (rtLoadLe block)
  if breaks = 0 then none else some (trailingZeros breaks >>> 3)

/-- A lane of the vector comparisons. -/
def laneBreak (c : UInt8) : UInt8 :=
  if c < 0x20 || c &&& 0x80 != 0 || c == 0x22 || c == 0x5C then 0xFF else 0

/-- Sixteen lanes, read back as two words. -/
def neonBreak (block : Text) : Option ℕ :=
  let breaks := block.map laneBreak
  if breaks.all (· == 0) then none
  else
    let low := rtLoadLe (breaks.take 8)
    if low ≠ 0 then some (trailingZeros low >>> 3)
    else some (8 + trailingZeros (rtLoadLe (breaks.drop 8)) >>> 3)

/-- The comparisons of the other vector unit. -/
def sseLane (c : UInt8) : UInt8 :=
  (if max c 0x1F = 0x1F then 0xFF else 0) ||| (if c &&& 0x80 = 0x80 then 0xFF else 0) |||
    ((if c = 0x22 then 0xFF else 0) ||| (if c = 0x5C then 0xFF else 0))

/-- The top bits of lanes, from a bit on. -/
def moveMask : ℕ → Text → UInt64
  | _, [] => 0
  | bit, breaks :: rest =>
    ((breaks >>> 7).toUInt64 <<< bit.toUInt64) ||| moveMask (bit + 1) rest

/-- Sixteen lanes, read back as the mask of their top bits. -/
def sseBreak (block : Text) : Option ℕ :=
  let mask := moveMask 0 (block.map sseLane)
  if mask = 0 then none else some (trailingZeros mask)

/-- The forms the scan is compiled in. -/
inductive Scan where
  | bytes
  | words
  | neon
  | sse2
deriving DecidableEq, Repr

def plainSpan (scan : Scan) (text : Text) : ℕ :=
  let words := fun text => blockSpan 8 wordBreak byteSpan text.length text
  match scan with
  | .bytes => byteSpan text
  | .words => words text
  | .neon => blockSpan 16 neonBreak words text.length text
  | .sse2 => blockSpan 16 sseBreak words text.length text

theorem byteSpan_eq (text : Text) : byteSpan text = (text.takeWhile isPlain).length := by
  induction text with
  | nil => rfl
  | cons c rest ih =>
    rw [byteSpan, List.takeWhile_cons]
    split_ifs
    · rw [List.length_cons, ih]
    · rfl

/-- A block scan finds the first break of its block. -/
def FindsBreak (width : ℕ) (firstBreak : Text → Option ℕ) : Prop :=
  ∀ block : Text, block.length = width →
    firstBreak block = if block.all isPlain then none else some (byteSpan block)

variable {block : Text}

theorem byteSpan_append (h : block.all isPlain = true) (rest : Text) :
    byteSpan (block ++ rest) = block.length + byteSpan rest := by
  rw [byteSpan_eq, byteSpan_eq,
    List.takeWhile_append_of_pos fun c hc => List.all_eq_true.mp h c hc, List.length_append]

theorem byteSpan_append_of_break (h : block.all isPlain ≠ true) (rest : Text) :
    byteSpan (block ++ rest) = byteSpan block := by
  induction block with
  | nil => exact absurd rfl h
  | cons c block ih =>
    rw [List.cons_append, byteSpan, byteSpan]
    split_ifs with hplain
    · rw [List.all_cons, hplain, Bool.true_and] at h
      rw [ih h]
    · rfl

theorem blockSpan_eq {width blocks : ℕ} {firstBreak : Text → Option ℕ} {remaining : Text → ℕ}
    (hbreak : FindsBreak width firstBreak)
    (hremaining : ∀ text, remaining text = byteSpan text)
    (text : Text) :
    blockSpan width firstBreak remaining blocks text = byteSpan text := by
  induction blocks generalizing text with
  | zero => exact hremaining text
  | succ blocks ih =>
    rw [blockSpan]
    split_ifs with hshort
    · exact hremaining text
    · have hlength : (text.take width).length = width := by
        rw [List.length_take]
        omega
      rw [hbreak _ hlength, ih]
      split_ifs with hall
      · have happend := byteSpan_append hall (text.drop width)
        rw [List.take_append_drop, hlength] at happend
        exact happend.symm
      · have happend := byteSpan_append_of_break hall (text.drop width)
        rw [List.take_append_drop] at happend
        exact happend.symm

/-- The position of the first break of a string that has one. -/
theorem byteSpan_break (h : block.all isPlain ≠ true) :
    ∃ hlt : byteSpan block < block.length, isPlain block[byteSpan block] = false ∧
      ∀ j (hj : j < byteSpan block), isPlain block[j] = true := by
  induction block with
  | nil => exact absurd rfl h
  | cons c block ih =>
    cases hplain : isPlain c with
    | false => simp [byteSpan, hplain]
    | true =>
      rw [List.all_cons, hplain, Bool.true_and] at h
      obtain ⟨hlt, hat, hbelow⟩ := ih h
      have hspan : byteSpan (c :: block) = byteSpan block + 1 := by
        rw [byteSpan, if_pos hplain]
      simp only [hspan]
      refine ⟨by simpa using hlt, by simpa using hat, fun j hj => ?_⟩
      cases j with
      | zero => exact hplain
      | succ j => exact hbelow j (by omega)

/-- A word whose lanes tell the breaks of a block, as far as the block is plain. -/
def FlagsBreaks (breaks : UInt64) (block : Text) : Prop :=
  ∀ k (hk : k < block.length), (∀ j (hj : j < k), isPlain block[j] = true) →
    (lane breaks k = 0 ↔ isPlain block[k] = true)

theorem all_isPlain_iff :
    block.all isPlain = true ↔ ∀ j (hj : j < block.length), isPlain block[j] = true := by
  rw [List.all_eq_true]
  exact List.forall_mem_iff_getElem

/-- The first flagged lane is the first break. -/
theorem FlagsBreaks.first {breaks : UInt64}
    (h : FlagsBreaks breaks block)
    (hlength : block.length = 8) :
    (breaks = 0 ↔ block.all isPlain = true) ∧
      (block.all isPlain ≠ true → trailingZeros breaks >>> 3 = byteSpan block) := by
  have hplain : block.all isPlain = true → breaks = 0 := by
    rw [all_isPlain_iff]
    intro hall
    refine eq_zero_of_lanes fun k hk => ?_
    exact (h k (by omega) fun j hj => hall j _).mpr (hall k _)
  have hbreak : block.all isPlain ≠ true →
      (∀ j < byteSpan block, lane breaks j = 0) ∧ lane breaks (byteSpan block) ≠ 0 ∧
        byteSpan block < 8 := by
    intro hsome
    obtain ⟨hlt, hat, hbelow⟩ := byteSpan_break hsome
    refine ⟨fun j hj => ?_, ?_, hlength ▸ hlt⟩
    · exact (h j (by omega) fun i hi => hbelow i (by omega)).mpr (hbelow j hj)
    · rw [ne_eq, h _ hlt hbelow, hat]
      simp
  refine ⟨⟨fun hzero => ?_, hplain⟩, fun hsome => ?_⟩
  · by_contra hsome
    refine (hbreak hsome).2.1 ?_
    rw [hzero]
    exact lane_zero _
  · obtain ⟨hbelow, hat, hlt⟩ := hbreak hsome
    rw [Nat.shiftRight_eq_div_pow]
    exact trailingZeros_div hlt hbelow hat

/-- The flags of one byte. -/
def byteBreaks (b : UInt8) : UInt8 :=
  let quoted := b ^^^ 0x22
  let slashed := b ^^^ 0x5C
  (b &&& 0x80) ||| ((b - 0x20) &&& ~~~b &&& 0x80) |||
    ((quoted - 1) &&& ~~~quoted &&& 0x80) ||| ((slashed - 1) &&& ~~~slashed &&& 0x80)

/-- The bytes are decided one by one. -/
theorem forall_byte {P : UInt8 → Prop} (h : ∀ b : Fin 256, P (UInt8.ofFin b)) (b : UInt8) :
    P b :=
  h b.toFin

theorem byteBreaks_eq_zero (b : UInt8) : byteBreaks b = 0 ↔ isPlain b = true := by
  revert b
  exact forall_byte (by decide +kernel)

theorem isPlain_iff (b : UInt8) :
    isPlain b = true ↔ 0x20 ≤ b.toNat ∧ b.toNat < 0x80 ∧ b ≠ 0x22 ∧ b ≠ 0x5C := by
  simp only [isPlain, Bool.and_eq_true, decide_eq_true_iff, bne_iff_ne, UInt8.le_iff_toNat_le,
    UInt8.lt_iff_toNat_lt, UInt8.reduceToNat, and_assoc]

/-- A plain byte leaves no borrow behind. -/
theorem plain_bounds (b : UInt8) (h : isPlain b = true) :
    0x20 ≤ b.toNat ∧ 1 ≤ (b ^^^ 0x22).toNat ∧ 1 ≤ (b ^^^ 0x5C).toNat := by
  obtain ⟨hlow, -, hquote, hslash⟩ := (isPlain_iff b).mp h
  have hpos : ∀ c : UInt8, b ≠ c → 1 ≤ (b ^^^ c).toNat := by
    intro c hne
    refine Nat.pos_of_ne_zero fun hzero => hne ?_
    exact UInt8.xor_eq_zero_iff.mp (UInt8.toNat_inj.mp hzero)
  exact ⟨hlow, hpos _ hquote, hpos _ hslash⟩

theorem lane_wordBreaks {word : UInt64} {k : ℕ} (hk : k < 8)
    (hplain : ∀ j < k, isPlain (lane word j) = true) :
    lane (wordBreaks word) k = byteBreaks (lane word k) := by
  have hconst : ∀ j < 8, lane 0x2020202020202020 j = 0x20 ∧ lane 0x0101010101010101 j = 1 ∧
      lane 0x2222222222222222 j = 0x22 ∧ lane 0x5C5C5C5C5C5C5C5C j = 0x5C ∧
      lane 0x8080808080808080 j = 0x80 := by decide
  have hcontrol : lane (word - 0x2020202020202020) k = lane word k - 0x20 := by
    rw [lane_sub hk fun j hj => ?_, (hconst k hk).1]
    rw [(hconst j (by omega)).1]
    exact (plain_bounds _ (hplain j hj)).1
  have hquoted : lane ((word ^^^ 0x2222222222222222) - 0x0101010101010101) k =
      (lane word k ^^^ 0x22) - 1 := by
    rw [lane_sub hk fun j hj => ?_, lane_xor, (hconst k hk).2.1, (hconst k hk).2.2.1]
    rw [lane_xor, (hconst j (by omega)).2.1, (hconst j (by omega)).2.2.1]
    exact (plain_bounds _ (hplain j hj)).2.1
  have hslashed : lane ((word ^^^ 0x5C5C5C5C5C5C5C5C) - 0x0101010101010101) k =
      (lane word k ^^^ 0x5C) - 1 := by
    rw [lane_sub hk fun j hj => ?_, lane_xor, (hconst k hk).2.1, (hconst k hk).2.2.2.1]
    rw [lane_xor, (hconst j (by omega)).2.1, (hconst j (by omega)).2.2.2.1]
    exact (plain_bounds _ (hplain j hj)).2.2
  simp only [wordBreaks, byteBreaks, lane_or, lane_and, lane_not hk, hcontrol, hquoted, hslashed,
    lane_xor, (hconst k hk).2.2.1, (hconst k hk).2.2.2.1, (hconst k hk).2.2.2.2]

theorem lane_load {k : ℕ} (hlength : block.length ≤ 8) (hk : k < block.length) :
    lane (rtLoadLe block) k = block[k] :=
  lane_of_value (rtLoadLe_toNat hlength) hlength hk

theorem findsBreak_word : FindsBreak 8 wordBreak := by
  intro block hlength
  have hflags : FlagsBreaks (wordBreaks (rtLoadLe block)) block := by
    intro k hk hbelow
    rw [lane_wordBreaks (by omega) fun j hj => ?_, byteBreaks_eq_zero,
      lane_load hlength.le hk]
    rw [lane_load hlength.le (by omega)]
    exact hbelow j hj
  obtain ⟨hzero, hfirst⟩ := hflags.first hlength
  rw [wordBreak]
  split_ifs with hbreaks hall hall
  · rfl
  · exact absurd (hzero.mp hbreaks) hall
  · exact absurd (hzero.mpr hall) hbreaks
  · rw [hfirst hall]

theorem laneBreak_eq_zero (b : UInt8) : laneBreak b = 0 ↔ isPlain b = true := by
  revert b
  exact forall_byte (by decide +kernel)

theorem flagsBreaks_lanes (hlength : block.length ≤ 8) :
    FlagsBreaks (rtLoadLe (block.map laneBreak)) block := by
  intro k hk _
  rw [lane_load (by rwa [List.length_map]) (by rwa [List.length_map]), List.getElem_map,
    laneBreak_eq_zero]

theorem findsBreak_neon : FindsBreak 16 neonBreak := by
  intro block hlength
  have hlow : (block.take 8).length = 8 := by
    rw [List.length_take]
    omega
  have hhigh : (block.drop 8).length = 8 := by
    rw [List.length_drop]
    omega
  obtain ⟨hlowZero, hlowFirst⟩ := (flagsBreaks_lanes hlow.le).first hlow
  obtain ⟨-, hhighFirst⟩ := (flagsBreaks_lanes hhigh.le).first hhigh
  have hnone : (block.map laneBreak).all (· == 0) = block.all isPlain := by
    rw [List.all_map]
    congr 1
    funext c
    rw [Bool.eq_iff_iff, Function.comp_apply, beq_iff_eq, laneBreak_eq_zero]
  have hhalves : block.all isPlain =
      ((block.take 8).all isPlain && (block.drop 8).all isPlain) := by
    rw [← List.all_append, List.take_append_drop]
  rw [neonBreak, hnone, List.map_take.symm, List.map_drop.symm]
  simp only
  split_ifs with hall hword
  · rfl
  · have hsome := mt hlowZero.mpr hword
    rw [hlowFirst hsome]
    have happend := byteSpan_append_of_break hsome (block.drop 8)
    rw [List.take_append_drop] at happend
    rw [happend]
  · rw [not_not, hlowZero] at hword
    rw [hhalves, hword, Bool.true_and] at hall
    rw [hhighFirst hall]
    have happend := byteSpan_append hword (block.drop 8)
    rw [List.take_append_drop, hlow] at happend
    rw [happend]

theorem sseLane_top (b : UInt8) : sseLane b >>> 7 = if isPlain b then 0 else 1 := by
  revert b
  exact forall_byte (by decide +kernel)

/-- The mask of a block has the bits of its breaks. -/
theorem testBit_moveMask {bit : ℕ} (h : bit + block.length ≤ 64) (i : ℕ) :
    (moveMask bit (block.map sseLane)).toNat.testBit i =
      (decide (bit ≤ i) && (block[i - bit]?.map fun c => !isPlain c).getD false) := by
  induction block generalizing bit with
  | nil => simp [moveMask]
  | cons c block ih =>
    rw [List.length_cons] at h
    have hshift : bit.toUInt64.toNat % 64 = bit := by
      rw [UInt64.toNat_ofNat_of_lt' (by have : UInt64.size = 2 ^ 64 := rfl; omega)]
      omega
    have hhead : ((sseLane c >>> 7).toUInt64 <<< bit.toUInt64).toNat.testBit i =
        (decide (i = bit) && !isPlain c) := by
      rw [UInt64.toNat_shiftLeft, hshift, UInt8.toNat_toUInt64, sseLane_top,
        Nat.shiftLeft_eq]
      cases isPlain c with
      | true => simp
      | false =>
        have hpow : 2 ^ bit < 2 ^ 64 := Nat.pow_lt_pow_right (by decide) (by omega)
        rw [if_neg (by simp), UInt8.toNat_one, Nat.one_mul, Nat.mod_eq_of_lt hpow,
          Nat.testBit_two_pow]
        simp [eq_comm]
    rw [List.map_cons, moveMask, UInt64.toNat_or, Nat.testBit_or, hhead, ih (by omega)]
    rcases Nat.lt_trichotomy i bit with hlt | rfl | hgt
    · simp [show ¬ bit ≤ i by omega, show ¬ bit + 1 ≤ i by omega, show i ≠ bit by omega]
    · simp
    · have hnext : i - bit = i - (bit + 1) + 1 := by omega
      rw [hnext, List.getElem?_cons_succ]
      simp [show bit ≤ i by omega, show bit + 1 ≤ i by omega, show i ≠ bit by omega]

theorem findsBreak_sse : FindsBreak 16 sseBreak := by
  intro block hlength
  have hbit : ∀ i (hi : i < block.length),
      (moveMask 0 (block.map sseLane)).toNat.testBit i = !isPlain block[i] := by
    intro i hi
    rw [testBit_moveMask (by omega)]
    simp [hi]
  have hbeyond : ∀ i, block.length ≤ i →
      (moveMask 0 (block.map sseLane)).toNat.testBit i = false := by
    intro i hi
    rw [testBit_moveMask (by omega)]
    simp [hi]
  rw [sseBreak]
  split_ifs with hmask hall hall
  · rfl
  · obtain ⟨hlt, hat, -⟩ := byteSpan_break hall
    have hset := hbit _ hlt
    rw [hmask, hat] at hset
    simp at hset
  · refine absurd (UInt64.toNat_inj.mp (Nat.eq_of_testBit_eq fun i => ?_)) hmask
    rw [UInt64.toNat_zero, Nat.zero_testBit]
    by_cases hi : i < block.length
    · rw [hbit i hi, all_isPlain_iff.mp hall i hi]
      rfl
    · exact hbeyond i (not_lt.mp hi)
  · obtain ⟨hlt, hat, hbelow⟩ := byteSpan_break hall
    refine congrArg some (length_takeWhile_range (fun i hi => ?_) ?_ (by omega))
    · rw [hbit i (by omega), hbelow i hi]
      rfl
    · rw [hbit _ hlt, hat]
      rfl

/-- The scans agree on every string. -/
theorem plainSpan_eq (scan : Scan) (text : Text) : plainSpan scan text = byteSpan text := by
  have hwords : ∀ text : Text,
      blockSpan 8 wordBreak byteSpan text.length text = byteSpan text :=
    fun text => blockSpan_eq findsBreak_word (fun _ => rfl) text
  cases scan with
  | bytes => rfl
  | words => exact hwords text
  | neon => exact blockSpan_eq findsBreak_neon hwords text
  | sse2 => exact blockSpan_eq findsBreak_sse hwords text

end Json
end Beans
