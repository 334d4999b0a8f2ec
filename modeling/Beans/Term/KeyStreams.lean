import Beans.Runtime.Text
import Beans.Term.Keys

/-!
# Keys do not depend on how bytes arrive

Every decoder answers the same on a buffer that starts with what it has answered
on, so the keys are those of the whole input, however it was split.  What a
terminal sends for a key is read back as that key, with any bytes behind it.

**Results.**
* `key_decoding`: the keys of every split, the progress of every answer, and the inverse of
  what a terminal sends.
-/

namespace Beans
namespace Term

open Incremental

theorem getU8_append {buffer : List UInt8} (more : List UInt8) {i : Nat}
    (h : i < buffer.length) : getU8 (buffer ++ more) i = getU8 buffer i := by
  rw [getU8, getU8, List.getD_append _ _ _ _ h]

/-- Where the decoder's answers are settled. -/
def SettledOn (decode : List UInt8 → Option (Key × Nat))
    (buffer : List UInt8) : Prop :=
  ∀ k n, decode buffer = some (k, n) → 0 < n ∧ n ≤ buffer.length ∧
    ∀ more, decode (buffer ++ more) = some (k, n)

section Answers

variable {buffer : List UInt8}

theorem takeUtf8_settled (length : Nat) (hpos : 0 < length) (value : Int) :
    SettledOn (takeUtf8 · length value) buffer := by
  intro k n (h : takeUtf8 buffer length value = some (k, n))
  rw [takeUtf8] at h
  split at h
  · cases h
  · rename_i hlong
    cases h
    refine ⟨hpos, by omega, fun more => ?_⟩
    have htake : ((buffer ++ more).drop 1).take (length - 1) =
        (buffer.drop 1).take (length - 1) := by
      rw [List.drop_append_of_le_length (by omega),
        List.take_append_of_le_length (by rw [List.length_drop]; omega)]
    simp only [takeUtf8]
    rw [if_neg (by rw [List.length_append]; omega), htake]

theorem decodeUtf8_settled (hpos : 0 < buffer.length) :
    SettledOn decodeUtf8 buffer := by
  intro k n h
  have hfirst := fun more => getU8_append more hpos
  simp only [decodeUtf8, hfirst] at h ⊢
  split_ifs at h ⊢
  · cases h
    exact ⟨by omega, by omega, fun _ => rfl⟩
  · exact takeUtf8_settled 2 (by omega) _ k n h
  · exact takeUtf8_settled 3 (by omega) _ k n h
  · exact takeUtf8_settled 4 (by omega) _ k n h

theorem decodePlain_settled (hpos : 0 < buffer.length) :
    SettledOn decodePlain buffer := by
  intro k n h
  have hfirst := fun more => getU8_append more hpos
  simp only [decodePlain, hfirst] at h ⊢
  split_ifs at h ⊢
  all_goals first
    | exact decodeUtf8_settled hpos k n h
    | (cases h
       exact ⟨by omega, by omega, fun _ => rfl⟩)

variable {l : List UInt8}

/-- A search that ends is not changed by what follows. -/
theorem scanCsi_append {i : Nat}
    (h : scanCsi i l ≠ .arriving) (more : List UInt8) :
    scanCsi i (l ++ more) = scanCsi i l := by
  induction l generalizing i with
  | nil => exact absurd rfl h
  | cons c l ih =>
    rw [scanCsi] at h ⊢
    rw [List.cons_append, scanCsi]
    split_ifs at h ⊢
    · rfl
    · rfl
    · exact ih h

theorem scanCsi_index {i j : Nat}
    (h : scanCsi i l = .final j) : i ≤ j ∧ j < i + l.length := by
  induction l generalizing i with
  | nil => cases h
  | cons c l ih =>
    rw [scanCsi] at h
    rw [List.length_cons]
    split_ifs at h
    · cases h
      omega
    · have := ih h
      omega

theorem decodeCsi_settled (hlen : 2 ≤ buffer.length) :
    SettledOn decodeCsi buffer := by
  intro k n h
  have hdrop : ∀ more, (buffer ++ more).drop 2 = buffer.drop 2 ++ more :=
    fun more => List.drop_append_of_le_length hlen
  rw [decodeCsi] at h
  cases hscan : scanCsi 2 (buffer.drop 2) with
  | arriving =>
    rw [hscan] at h
    cases h
  | malformed =>
    rw [hscan] at h
    cases h
    refine ⟨by omega, by omega, fun more => ?_⟩
    rw [decodeCsi, hdrop, scanCsi_append (by rw [hscan]; nofun), hscan]
  | final i =>
    rw [hscan] at h
    cases h
    obtain ⟨hle, hlt⟩ := scanCsi_index hscan
    rw [List.length_drop] at hlt
    refine ⟨by omega, by omega, fun more => ?_⟩
    rw [decodeCsi, hdrop, scanCsi_append (by rw [hscan]; nofun), hscan]
    simp only [finishCsi, getU8_append more (show i < buffer.length by omega),
      List.take_append_of_le_length (show i ≤ buffer.length by omega)]

/-- The whole decoder is settled. -/
theorem decodeKey_settledOn (buffer : List UInt8) :
    SettledOn decodeKey buffer := by
  intro k n h
  rw [decodeKey] at h
  by_cases hempty : buffer.length = 0
  · rw [if_pos hempty] at h
    cases h
  rw [if_neg hempty] at h
  have hfirst := fun more => getU8_append more (show 0 < buffer.length by omega)
  have hlen : ∀ more, ¬ (buffer ++ more).length = 0 := fun more => by
    rw [List.length_append]
    omega
  simp only [decodeKey, if_neg (hlen _), hfirst]
  by_cases hplain : getU8 buffer 0 ≠ 27
  · rw [if_pos hplain] at h
    simp only [if_pos hplain]
    exact decodePlain_settled (by omega) k n h
  simp only [if_neg hplain] at h ⊢
  by_cases hone : buffer.length = 1
  · rw [if_pos hone] at h
    cases h
  rw [if_neg hone] at h
  have hlen' : ∀ more, ¬ (buffer ++ more).length = 1 := fun more => by
    rw [List.length_append]
    omega
  have hsecond := fun more => getU8_append more (show 1 < buffer.length by omega)
  simp only [if_neg (hlen' _), hsecond]
  by_cases hcsi : getU8 buffer 1 = 91
  · simp only [if_pos hcsi] at h ⊢
    exact decodeCsi_settled (by omega) k n h
  simp only [if_neg hcsi] at h ⊢
  by_cases hss3 : getU8 buffer 1 = 79
  · simp only [if_pos hss3] at h ⊢
    rw [decodeSs3] at h
    split at h
    · cases h
    · cases h
      refine ⟨by omega, by omega, fun more => ?_⟩
      rw [decodeSs3, if_neg (by rw [List.length_append]; omega),
        getU8_append more (by omega)]
  simp only [if_neg hss3, decodeAlt, hsecond] at h ⊢
  split_ifs at h ⊢
  · cases h
    exact ⟨by omega, by omega, fun _ => rfl⟩
  · cases h
    exact ⟨by omega, by omega, fun _ => rfl⟩

theorem decodeKey_settled : Settled decodeKey where
  takes h := ⟨(decodeKey_settledOn _ _ _ h).1, (decodeKey_settledOn _ _ _ h).2.1⟩
  stays more h := (decodeKey_settledOn _ _ _ h).2.2 more

end Answers

/-- The keys with a letter of their own: arrows, Home and End. -/
inductive LetterKey
  | up
  | down
  | right
  | left
  | home
  | endKey
  deriving DecidableEq, Repr

namespace LetterKey

def letter : LetterKey → UInt8
  | up => 65
  | down => 66
  | right => 67
  | left => 68
  | home => 72
  | endKey => 70

def key : LetterKey → Int → Key
  | up => .up
  | down => .down
  | right => .right
  | left => .left
  | home => .home
  | endKey => .endKey

end LetterKey

/-- The numbers of the `CSI n ~` keys. -/
def tildeKeys : List (Nat × (Int → Key)) :=
  [(1, .home), (2, .insert), (3, .delete), (4, .endKey), (5, .pageUp),
    (6, .pageDown), (7, .home), (8, .endKey), (11, .function 1),
    (12, .function 2), (13, .function 3), (14, .function 4),
    (15, .function 5), (17, .function 6), (18, .function 7),
    (19, .function 8), (20, .function 9), (21, .function 10),
    (23, .function 11), (24, .function 12)]

/-- A modifier mask that an `int` holds. -/
abbrev Mask := { mods : Nat // mods < 2 ^ 63 }

/-- What is pressed: a character, a key with a byte of its own, or a key with an
escape sequence, in each form a terminal has for it. -/
inductive Stroke
  | char (c : Char) (h : 32 ≤ c.toNat ∧ c.toNat ≠ 127)
  | control (b : Nat) (h : b < 32 ∧ b ≠ 9 ∧ b ≠ 10 ∧ b ≠ 13 ∧ b ≠ 27)
  | enter (lineFeed : Bool)
  | tab
  | backspace
  | alt (b : Nat) (h : 32 ≤ b ∧ b < 127 ∧ b ≠ 91 ∧ b ≠ 79)
  | csi (k : LetterKey)
  | csiMods (k : LetterKey) (mods : Mask)
  | ss3 (k : LetterKey)
  | ss3Function (n : Fin 4)
  | tilde (n : Nat) (key : Int → Key) (h : (n, key) ∈ tildeKeys)
  | tildeMods (n : Nat) (key : Int → Key) (h : (n, key) ∈ tildeKeys)
      (mods : Mask)

namespace Stroke

/-- The key that is pressed. -/
def key : Stroke → Key
  | char c _ => .char c.toNat
  | control b _ => .ctrl (b + 64)
  | enter _ => .enter
  | tab => .tab
  | backspace => .backspace
  | alt b _ => .alt b
  | csi k => k.key 0
  | csiMods k mods => k.key mods.1
  | ss3 k => k.key 0
  | ss3Function n => .function (n.1 + 1) 0
  | tilde _ key _ => key 0
  | tildeMods _ key _ mods => key mods.1

/-- `ESC [`, parameters and a final byte. -/
def csiBytes (params : List UInt8) (last : UInt8) : List UInt8 :=
  27 :: 91 :: (params ++ [last])

/-- `n ; m` with the parameter `m` of a mask. -/
def modParams (n : Nat) (mods : Mask) : List UInt8 :=
  Text.ofNat n ++ 59 :: Text.ofNat (mods.1 + 1)

/-- The bytes that a terminal sends. -/
def bytes : Stroke → List UInt8
  | char c _ => String.utf8EncodeChar c
  | control b _ => [.ofNat b]
  | enter lineFeed => [if lineFeed then 10 else 13]
  | tab => [9]
  | backspace => [127]
  | alt b _ => [27, .ofNat b]
  | csi k => csiBytes [] k.letter
  | csiMods k mods => csiBytes (modParams 1 mods) k.letter
  | ss3 k => [27, 79, k.letter]
  | ss3Function n => [27, 79, .ofNat (80 + n.1)]
  | tilde n _ _ => csiBytes (Text.ofNat n) 126
  | tildeMods n _ _ mods => csiBytes (modParams n mods) 126

end Stroke

theorem toNat_ofNat {n : Nat} (h : n < 256) : (UInt8.ofNat n).toNat = n := by
  rw [UInt8.toNat_ofNat']
  omega

theorem getU8_cons (b : UInt8) (l : List UInt8) :
    getU8 (b :: l) 0 = b.toNat := by
  simp [getU8]

variable {b c last : UInt8} {params : List UInt8} {n : Nat} {key : Int → Key}

/-- A byte that is not ESC starts a plain key. -/
theorem decodeKey_plain {l : List UInt8} (h : b.toNat ≠ 27) :
    decodeKey (b :: l) = decodePlain (b :: l) := by
  rw [decodeKey, if_neg (by simp), if_pos (by rwa [getU8_cons])]

/-- A byte after ESC picks the decoder. -/
theorem decodeKey_escape (b : UInt8) (l : List UInt8) :
    decodeKey (27 :: b :: l) =
      if b.toNat = 91 then decodeCsi (27 :: b :: l)
      else if b.toNat = 79 then decodeSs3 (27 :: b :: l)
      else decodeAlt (27 :: b :: l) := by
  rw [decodeKey, if_neg (by simp), if_neg (by simp [getU8]),
    if_neg (by simp)]
  rfl

/-- The bytes of a character after its first one. -/
theorem takeUtf8_append {b : UInt8} {rest : List UInt8} (more : List UInt8)
    {length : Nat} (h : rest.length + 1 = length) (value : Int) :
    takeUtf8 (b :: (rest ++ more)) length value =
      some (.char (utf8Value value rest), length) := by
  have htake : ((b :: (rest ++ more)).drop 1).take (length - 1) = rest := by
    rw [List.drop_one, List.tail_cons, ← h, Nat.add_sub_cancel,
      List.take_left]
  rw [takeUtf8, htake, if_neg]
  rw [List.length_cons, List.length_append]
  omega

/-- A lead byte of more than one picks the length of the character. -/
theorem decodeKey_lead (h : 192 ≤ b.toNat) (l : List UInt8) :
    decodeKey (b :: l) =
      if b.toNat < 224 then takeUtf8 (b :: l) 2 (b.toNat - 192)
      else if b.toNat < 240 then takeUtf8 (b :: l) 3 (b.toNat - 224)
      else takeUtf8 (b :: l) 4 (b.toNat - 240) := by
  rw [decodeKey_plain (by omega)]
  simp only [decodePlain, decodeUtf8, getU8_cons]
  rw [if_neg (by omega), if_neg (by omega), if_neg (by omega),
    if_neg (by omega), if_neg (by omega), if_neg (by omega)]

/-- A UTF-8 character is read back. -/
theorem decodeKey_char (c : Char) (h : 32 ≤ c.toNat ∧ c.toNat ≠ 127)
    (more : List UInt8) :
    decodeKey (String.utf8EncodeChar c ++ more) =
      some (.char c.toNat, (String.utf8EncodeChar c).length) := by
  have hv : c.val.toNat = c.toNat := rfl
  have hmax : c.toNat < 1114112 := by
    have := c.valid
    rcases this with h | ⟨-, h⟩
    · exact Nat.lt_trans h (by decide)
    · exact h
  obtain ⟨v, hcv⟩ : ∃ v, c.toNat = v := ⟨_, rfl⟩
  simp only [String.utf8EncodeChar, hv]
  rw [hcv] at h hmax ⊢
  by_cases hone : v ≤ 0x7f
  · rw [if_pos hone]
    have hb := toNat_ofNat (show v < 256 by omega)
    rw [List.singleton_append, decodeKey_plain (by omega)]
    simp only [decodePlain, getU8_cons, hb]
    rw [if_neg (by omega), if_neg (by omega), if_neg (by omega),
      if_neg (by omega), if_pos (by omega)]
    rfl
  rw [if_neg hone]
  by_cases htwo : v ≤ 0x7ff
  · have h₀ := toNat_ofNat (show v / 64 % 0x20 + 0xc0 < 256 by omega)
    have h₁ := toNat_ofNat (show v % 0x40 + 0x80 < 256 by omega)
    rw [if_pos htwo, List.cons_append, decodeKey_lead (by omega),
      if_pos (by omega), @takeUtf8_append _ [_] more 2 rfl]
    simp only [utf8Value, List.foldl_cons, List.foldl_nil, h₀, h₁]
    refine congrArg some (Prod.ext (congrArg Key.char ?_) rfl)
    omega
  rw [if_neg htwo]
  by_cases hthree : v ≤ 0xffff
  · have h₀ := toNat_ofNat (show v / 4096 % 0x10 + 0xe0 < 256 by omega)
    have h₁ := toNat_ofNat (show v / 64 % 0x40 + 0x80 < 256 by omega)
    have h₂ := toNat_ofNat (show v % 0x40 + 0x80 < 256 by omega)
    rw [if_pos hthree, List.cons_append, decodeKey_lead (by omega),
      if_neg (by omega), if_pos (by omega),
      @takeUtf8_append _ [_, _] more 3 rfl]
    simp only [utf8Value, List.foldl_cons, List.foldl_nil, h₀, h₁, h₂]
    refine congrArg some (Prod.ext (congrArg Key.char ?_) rfl)
    omega
  · have h₀ := toNat_ofNat (show v / 262144 % 0x08 + 0xf0 < 256 by omega)
    have h₁ := toNat_ofNat (show v / 4096 % 0x40 + 0x80 < 256 by omega)
    have h₂ := toNat_ofNat (show v / 64 % 0x40 + 0x80 < 256 by omega)
    have h₃ := toNat_ofNat (show v % 0x40 + 0x80 < 256 by omega)
    rw [if_neg hthree, List.cons_append, decodeKey_lead (by omega),
      if_neg (by omega), if_neg (by omega),
      @takeUtf8_append _ [_, _, _] more 4 rfl]
    simp only [utf8Value, List.foldl_cons, List.foldl_nil, h₀, h₁, h₂, h₃]
    refine congrArg some (Prod.ext (congrArg Key.char ?_) rfl)
    omega

/-- Wrapping early does not change what is left. -/
theorem wrap_step (z d : Int) : wrap (wrap (wrap z * 10) + d) =
    wrap (z * 10 + d) := by
  simp only [wrap]
  rw [Int.bmod_add_bmod, Int.add_bmod, Int.bmod_mul_bmod, ← Int.add_bmod]

theorem wrap_of_fits {z : Int} (h : -2 ^ 63 ≤ z ∧ z < 2 ^ 63) :
    wrap z = z :=
  Int.bmod_eq_of_le h.1 h.2

/-- The digits of a number are read as that number. -/
theorem read_digits {text : List UInt8}
    (h : ∀ c ∈ text, 48 ≤ c.toNat ∧ c.toNat ≤ 57) (params : List Int) :
    text.foldl Params.read ⟨params, 0, false⟩ =
      ⟨params, wrap (Text.digitsValue text), decide (text ≠ [])⟩ := by
  induction text using List.reverseRecOn with
  | nil => rfl
  | append_singleton text c ih =>
    have hc := h c (by simp)
    have hvalue : Text.digitsValue (text ++ [c]) =
        Text.digitsValue text * 10 + (c.toNat - 48) := by
      simp only [Text.digitsValue, List.reverse_append, List.reverse_singleton,
        List.singleton_append, List.map_cons, Nat.ofDigits_cons]
      ring
    rw [List.foldl_append, ih fun d hd => h d (by simp [hd])]
    simp only [List.foldl_cons, List.foldl_nil, Params.read]
    rw [if_pos ⟨hc.1, hc.2⟩, wrap_step, hvalue]
    push_cast [Nat.cast_sub hc.1]
    simp

theorem csiParams_ofNat (n : Nat) : csiParams (Text.ofNat n) = [wrap n] := by
  simp only [csiParams]
  rw [read_digits (fun c hc => Text.mem_ofNat hc), Text.digitsValue_ofNat,
    decide_eq_true (Text.ofNat_ne_nil n), if_pos rfl, List.nil_append]

theorem csiParams_mods (n m : Nat) :
    csiParams (Text.ofNat n ++ 59 :: Text.ofNat m) = [wrap n, wrap m] := by
  have hsep : ∀ p : Params, p.read 59 = ⟨p.params ++ [p.current], 0, false⟩ :=
    fun p => rfl
  simp only [csiParams]
  rw [List.foldl_append, List.foldl_cons,
    read_digits (fun c hc => Text.mem_ofNat hc), hsep,
    read_digits (fun c hc => Text.mem_ofNat hc), Text.digitsValue_ofNat,
    Text.digitsValue_ofNat, decide_eq_true (Text.ofNat_ne_nil m), if_pos rfl]
  simp only [List.nil_append, List.singleton_append]

/-- Bytes that are no final byte are searched through. -/
theorem scanCsi_final (hparams : ∀ c ∈ params, 32 ≤ c.toNat ∧ c.toNat < 64)
    (hlast : 64 ≤ last.toNat ∧ last.toNat ≤ 126) (more : List UInt8) (i : Nat) :
    scanCsi i (params ++ last :: more) = .final (i + params.length) := by
  induction params generalizing i with
  | nil =>
    rw [List.nil_append, scanCsi, if_pos hlast]
    rfl
  | cons c params ih =>
    have hc := hparams c List.mem_cons_self
    rw [List.cons_append, scanCsi, if_neg (by omega), if_neg (by omega),
      ih (fun d hd => hparams d (List.mem_cons_of_mem c hd)),
      List.length_cons]
    congr 1
    omega

/-- A CSI sequence is read back as what its parameters map to. -/
theorem decodeKey_csi (hparams : ∀ c ∈ params, 32 ≤ c.toNat ∧ c.toNat < 64)
    (hlast : 64 ≤ last.toNat ∧ last.toNat ≤ 126) (more : List UInt8) {k : Key}
    (hkey : mapCsi last.toNat (csiParams params) = some k) :
    decodeKey (Stroke.csiBytes params last ++ more) =
      some (k, (Stroke.csiBytes params last).length) := by
  have hbytes : Stroke.csiBytes params last ++ more =
      27 :: 91 :: (params ++ last :: more) := by
    simp [Stroke.csiBytes]
  have hscan : scanCsi 2 ((27 :: 91 :: (params ++ last :: more)).drop 2) =
      .final (2 + params.length) :=
    scanCsi_final hparams hlast more 2
  have hget : getU8 (27 :: 91 :: (params ++ last :: more))
      (2 + params.length) = last.toNat := by
    rw [Nat.add_comm]
    simp [getU8]
  have htake : ((27 :: 91 :: (params ++ last :: more)).take
      (2 + params.length)).drop 2 = params := by
    rw [Nat.add_comm, List.take_succ_cons, List.take_succ_cons, List.drop_succ_cons,
      List.drop_succ_cons, List.drop_zero, List.take_left]
  rw [hbytes, decodeKey_escape, if_pos (by decide), decodeCsi, hscan]
  simp only [finishCsi, hget, htake, hkey, Option.getD_some]
  refine congrArg some (Prod.ext rfl ?_)
  simp only [Stroke.csiBytes, List.length_cons, List.length_append,
    List.length_nil]
  omega

theorem mem_digits (h : c ∈ Text.ofNat n) :
    32 ≤ c.toNat ∧ c.toNat < 64 := by
  have := Text.mem_ofNat h
  omega

theorem mem_modParams {mods : Mask}
    (h : c ∈ Stroke.modParams n mods) : 32 ≤ c.toNat ∧ c.toNat < 64 := by
  rcases List.mem_append.mp h with h | h
  · exact mem_digits h
  · rcases List.mem_cons.mp h with rfl | h
    · exact ⟨by decide, by decide⟩
    · exact mem_digits h

/-- The parameter of a mask gives the mask, even where the sum wraps. -/
theorem mask_read (mods : Mask) :
    max 0 (wrap (wrap ((mods.1 + 1 : Nat) : Int) - 1)) = mods.1 := by
  have h := mods.2
  have heq : wrap (wrap ((mods.1 + 1 : Nat) : Int) - 1) = mods.1 := by
    simp only [wrap]
    rw [Int.sub_eq_add_neg, Int.bmod_add_bmod]
    push_cast
    rw [Int.add_neg_cancel_right]
    exact wrap_of_fits ⟨by omega, by exact_mod_cast h⟩
  rw [heq]
  omega

/-- The letter keys, with the modifiers that the parameters give. -/
theorem mapCsi_letter (k : LetterKey) (params : List Int) :
    mapCsi k.letter.toNat params = some (k.key (match params with
      | _ :: m :: _ => max 0 (wrap (m - 1))
      | _ => 0)) := by
  cases k <;> rfl

/-- The numbered keys, with the modifiers that the parameters give. -/
theorem tildeKey_named (h : (n, key) ∈ tildeKeys)
    (mods : Int) : tildeKey n mods = some (key mods) := by
  simp only [tildeKeys, List.mem_cons, Prod.mk.injEq, List.not_mem_nil,
    or_false] at h
  rcases h with ⟨rfl, rfl⟩ | ⟨rfl, rfl⟩ | ⟨rfl, rfl⟩ | ⟨rfl, rfl⟩ |
    ⟨rfl, rfl⟩ | ⟨rfl, rfl⟩ | ⟨rfl, rfl⟩ | ⟨rfl, rfl⟩ | ⟨rfl, rfl⟩ |
    ⟨rfl, rfl⟩ | ⟨rfl, rfl⟩ | ⟨rfl, rfl⟩ | ⟨rfl, rfl⟩ | ⟨rfl, rfl⟩ |
    ⟨rfl, rfl⟩ | ⟨rfl, rfl⟩ | ⟨rfl, rfl⟩ | ⟨rfl, rfl⟩ | ⟨rfl, rfl⟩ |
    ⟨rfl, rfl⟩ <;> rfl

theorem tildeKeys_le (h : (n, key) ∈ tildeKeys) :
    n ≤ 24 := by
  simp only [tildeKeys, List.mem_cons, Prod.mk.injEq, List.not_mem_nil,
    or_false] at h
  omega

/-- **What a terminal sends for a key is read back as the key**, whatever
follows. -/
theorem decodeKey_bytes (b : Stroke) (more : List UInt8) :
    decodeKey (b.bytes ++ more) = some (b.key, b.bytes.length) := by
  have plain : ∀ c : UInt8, c.toNat ≠ 27 → ∀ k, decodePlain (c :: more) =
      some (k, 1) → decodeKey ([c] ++ more) = some (k, [c].length) :=
    fun c hc k h => (decodeKey_plain hc).trans h
  cases b with
  | char c h => exact decodeKey_char c h more
  | control b h =>
    have hb := toNat_ofNat (show b < 256 by omega)
    refine plain (.ofNat b) (by omega) _ ?_
    simp only [decodePlain, getU8_cons, hb]
    rw [if_neg (by omega), if_neg (by omega), if_neg (by omega),
      if_pos (by omega)]
    rfl
  | enter lineFeed =>
    cases lineFeed
    · exact plain 13 (by decide) _ rfl
    · exact plain 10 (by decide) _ rfl
  | tab => exact plain 9 (by decide) _ rfl
  | backspace => exact plain 127 (by decide) _ rfl
  | alt b h =>
    have hb := toNat_ofNat (show b < 256 by omega)
    have hget : getU8 (27 :: UInt8.ofNat b :: more) 1 = b := by
      rw [getU8, List.getD_cons_succ, List.getD_cons_zero, hb]
    simp only [Stroke.bytes, List.cons_append, List.nil_append]
    rw [decodeKey_escape, hb, if_neg (by omega), if_neg (by omega)]
    simp only [decodeAlt, hget]
    rw [if_pos (by omega)]
    rfl
  | csi k =>
    refine decodeKey_csi (by simp) ?_ more (mapCsi_letter k _)
    cases k <;> decide
  | csiMods k mods =>
    refine decodeKey_csi (fun _ => mem_modParams) ?_ more ?_
    · cases k <;> decide
    · rw [mapCsi_letter, Stroke.modParams, csiParams_mods]
      exact congrArg some (congrArg k.key (mask_read mods))
  | ss3 k => cases k <;> rfl
  | ss3Function n => fin_cases n <;> rfl
  | tilde n key h =>
    refine decodeKey_csi (fun _ => mem_digits) (by decide) more ?_
    have hn := tildeKeys_le h
    rw [csiParams_ofNat, wrap_of_fits (by omega)]
    exact tildeKey_named h 0
  | tildeMods n key h mods =>
    refine decodeKey_csi (fun _ => mem_modParams) (by decide) more ?_
    have hn := tildeKeys_le h
    rw [Stroke.modParams, csiParams_mods, wrap_of_fits (z := n) (by omega)]
    exact (tildeKey_named h _).trans
      (congrArg some (congrArg key (mask_read mods)))

namespace KeyDecoder

theorem nextUntilNone_eq (n : Nat) (d : KeyDecoder) :
    nextUntilNone n d =
      ((drain decodeKey n d.buffer).1, ⟨(drain decodeKey n d.buffer).2⟩) := by
  induction n generalizing d with
  | zero => rfl
  | succ n ih =>
    rw [nextUntilNone, next]
    cases h : decodeKey d.buffer with
    | none => rw [drain_none h]
    | some r =>
      obtain ⟨k, m⟩ := r
      rw [drain_some h]
      simp only [ih]
      rfl

theorem reads_eq (d : KeyDecoder) (feeds : List (List UInt8)) :
    reads d feeds = ((feedAll decodeKey d.buffer feeds).1,
      ⟨(feedAll decodeKey d.buffer feeds).2⟩) := by
  induction feeds generalizing d with
  | nil => rfl
  | cons data feeds ih =>
    simp only [reads, nextUntilNone_eq, ih]
    rfl

/-- Reads from the start give the keys of all their bytes. -/
theorem reads_init (feeds : List (List UInt8)) :
    reads init feeds = ((drainAll decodeKey feeds.flatten).1,
      ⟨(drainAll decodeKey feeds.flatten).2⟩) := by
  rw [reads_eq, decodeKey_settled.feedAll_eq rfl]
  rfl

variable {d d' : KeyDecoder}

/-- An answer of `next` takes bytes off the front of the buffer. -/
theorem next_consumes {k : Key}
    (h : d.next = (some k, d')) :
    ∃ n, 0 < n ∧ n ≤ d.pending ∧ d'.buffer = d.buffer.drop n := by
  rw [next] at h
  cases hk : decodeKey d.buffer with
  | none =>
    rw [hk] at h
    cases h
  | some r =>
    obtain ⟨key, n⟩ := r
    rw [hk] at h
    cases h
    obtain ⟨hpos, hle⟩ := decodeKey_settled.takes hk
    exact ⟨n, hpos, hle, rfl⟩

theorem flush_consumes {k : Key}
    (h : d.flush = (some k, d')) :
    ∃ n, 0 < n ∧ n ≤ d.pending ∧ d'.buffer = d.buffer.drop n := by
  rw [flush] at h
  cases hnext : d.next with
  | mk answer d₁ =>
    rw [hnext] at h
    cases answer with
    | some key =>
      cases h
      exact next_consumes hnext
    | none =>
      have hsame : d₁ = d := by
        rw [next] at hnext
        cases hk : decodeKey d.buffer with
        | none =>
          rw [hk] at hnext
          cases hnext
          rfl
        | some r =>
          rw [hk] at hnext
          cases hnext
      simp only at h
      split at h
      · rename_i hesc
        cases h
        rw [hsame] at hesc ⊢
        exact ⟨1, Nat.one_pos, hesc.1, rfl⟩
      · cases h

end KeyDecoder

/-- **Keys do not depend on the split, calls that answer make progress, and
decoding inverts what the terminal sends.** -/
theorem key_decoding :
    (∀ feeds feeds' : List (List UInt8), feeds.flatten = feeds'.flatten →
      KeyDecoder.reads .init feeds = KeyDecoder.reads .init feeds') ∧
    (∀ feeds, (KeyDecoder.reads .init feeds).2.next.1 = none) ∧
    (∀ (d d' : KeyDecoder) (k : Key),
      d.next = (some k, d') ∨ d.flush = (some k, d') →
        ∃ n, 0 < n ∧ n ≤ d.pending ∧ d'.buffer = d.buffer.drop n) ∧
    ∀ (strokes : List Stroke) (feeds : List (List UInt8)),
      feeds.flatten = strokes.flatMap Stroke.bytes →
        KeyDecoder.reads .init feeds = (strokes.map Stroke.key, .init) := by
  refine ⟨fun feeds feeds' h => ?_, fun feeds => ?_, fun d d' k h => ?_,
    fun strokes feeds h => ?_⟩
  · rw [KeyDecoder.reads_init, KeyDecoder.reads_init, h]
  · rw [KeyDecoder.reads_init, KeyDecoder.next]
    simp only [decodeKey_settled.next_drainAll]
  · exact h.elim KeyDecoder.next_consumes KeyDecoder.flush_consumes
  · rw [KeyDecoder.reads_init, h,
      decodeKey_settled.drainAll_flatMap rfl decodeKey_bytes]
    rfl

end Term
end Beans
