import Beans.Hir.Layout

/-!
# Layouts are sound

With alignments that are powers of two, no sum leaves the signed words, and a record
that has a layout has its fields apart, aligned and inside.  What the loop over the
fields has placed is described from the size and alignment it goes on from.

**Results.**
* `c_layout`: for every struct and union, packed or not, with nested records, arrays and
  declared alignments.
-/

namespace Beans
namespace Hir

open CheckedRun Alignments
open LayoutEngine (effectiveAlign raisedAlign)

/-- A size and an alignment that a type can have. -/
structure Sized (layout : ValueLayout) : Prop where
  nonneg : 0 ≤ layout.size
  bounded : layout.size ≤ 9223372036854775807
  align : PowerOfTwo layout.align

def AnswerSized (answer : LayoutAnswer) : Prop :=
  answer.ok = true → Sized answer.value

/-- Every alignment that was declared is a power of two. -/
structure Validated (declaration : HirDeclaration) : Prop where
  record : declaration.declaredAlign ≠ 0 → PowerOfTwo declaration.declaredAlign
  fields : ∀ field ∈ declaration.fields, field.declaredAlign ≠ 0 → PowerOfTwo field.declaredAlign

/-- A field with the layout of its type and its place. -/
structure Placement where
  field : HirField
  piece : ValueLayout
  offset : ℤ

namespace Placement

def fieldAlign (p : Placement) : ℤ :=
  effectiveAlign p.field p.piece

/-- Where the field ends. -/
def stop (p : Placement) : ℤ :=
  p.offset + p.piece.size

end Placement

theorem answerSized_error (message : Text) :
    AnswerSized (layoutError message) :=
  fun h => absurd h (by simp [layoutError])

variable {align alignment size value : ℤ} {declaration : HirDeclaration} {field : HirField}
  {piece : ValueLayout} {fields : List HirField}

theorem answerSized_ok (h : 0 ≤ size) (h' : size ≤ 9223372036854775807)
    (halign : PowerOfTwo align) :
    AnswerSized (layoutOk size align) :=
  fun _ => ⟨h, h', halign⟩

theorem layoutAlignUp_safe (h : 0 ≤ value) (h' : value ≤ 9223372036854775807)
    (halign : PowerOfTwo align) :
    Safe (layoutAlignUp value align) fun answer => answer.ok = true →
      Up value align answer.value.size ∧ answer.value.size ≤ 9223372036854775807 := by
  have hpos := halign.pos
  have hle := halign.le
  rw [layoutAlignUp]
  split_ifs with hone
  · refine .pure fun _ => ⟨?_, h'⟩
    rw [show align = 1 by omega]
    exact up_one value
  · refine (Safe.word ⟨by omega, by omega⟩).bind ?_
    rintro extra rfl
    refine (Safe.word ⟨by omega, by omega⟩).bind ?_
    rintro room rfl
    split_ifs with hroom
    · exact .pure fun h => absurd h (by simp [layoutError])
    · refine (Safe.word ⟨by omega, by omega⟩).bind ?_
      rintro sum rfl
      refine (Safe.word ⟨by omega, by omega⟩).bind ?_
      rintro mask rfl
      have hup := up_of_mask halign h (by omega)
      refine .pure fun _ => ⟨hup, ?_⟩
      rw [layoutOk]
      have hfits : andWords (value + (align - 1)) (0 - align) < 2 ^ 63 := by
        rw [andWords]
        exact BitVec.toInt_lt
      dsimp only
      omega

theorem layoutPowerOfTwo_safe (h : value < 2 ^ 63) :
    Safe (layoutPowerOfTwo value) fun answer => answer = true → PowerOfTwo value := by
  rw [layoutPowerOfTwo]
  split_ifs with hpos
  · refine (Safe.word ⟨by omega, by omega⟩).bind ?_
    rintro before rfl
    exact .pure fun hzero => (andWords_pred_eq_zero hpos h).mp (eq_of_beq hzero)
  · exact .pure fun hfalse => absurd hfalse (by decide)

theorem powerOfTwo_pow (k : ℕ) (h : k ≤ 62) :
    PowerOfTwo (2 ^ k) :=
  ⟨k, h, rfl⟩

theorem maxScalarAlign_powerOfTwo (target : TargetDescription) :
    PowerOfTwo target.maxScalarAlign := by
  rw [TargetDescription.maxScalarAlign]
  split_ifs
  · exact powerOfTwo_pow 2 (by norm_num)
  · exact powerOfTwo_pow 3 (by norm_num)

theorem pointerSize_cases (target : TargetDescription) :
    target.pointerSize = 4 ∨ target.pointerSize = 8 := by
  rw [TargetDescription.pointerSize]
  rcases target.pointer_word with h | h
  · exact .inl (by rw [h]; rfl)
  · exact .inr (by rw [h]; rfl)

namespace LayoutEngine

variable (engine : LayoutEngine)

theorem natural_sized {bytes : ℤ} (h : PowerOfTwo bytes) :
    AnswerSized (engine.natural bytes) := by
  have hpos := h.pos
  have hle := h.le
  rw [natural, if_neg hpos.ne']
  refine answerSized_ok hpos.le (by omega) ?_
  split_ifs
  · exact maxScalarAlign_powerOfTwo _
  · exact h

theorem pointer_sized : AnswerSized engine.pointer := by
  rw [pointer]
  rcases pointerSize_cases engine.target with h | h
  · rw [h]
    exact answerSized_ok (by norm_num) (by norm_num) (powerOfTwo_pow 2 (by norm_num))
  · rw [h]
    exact answerSized_ok (by norm_num) (by norm_num) (powerOfTwo_pow 3 (by norm_num))

theorem simdLanes_safe {text : Text} {lanes : ℤ} (h : 0 ≤ lanes) (h' : lanes ≤ 64) :
    Safe (simdLanes text lanes) fun found => ∀ pair ∈ found, 0 ≤ pair.1 ∧ pair.1 ≤ 64 := by
  induction text generalizing lanes with
  | nil =>
    refine .pure ?_
    rintro pair ⟨⟩
    exact ⟨h, h'⟩
  | cons byte text ih =>
    rw [simdLanes]
    split_ifs with hdigit
    · refine .pure ?_
      rintro pair ⟨⟩
      exact ⟨h, h'⟩
    · have hrange : 48 ≤ byte.toNat ∧ byte.toNat ≤ 57 := by
        rw [not_or, UInt8.not_lt, UInt8.not_lt, UInt8.le_iff_toNat_le, UInt8.le_iff_toNat_le]
          at hdigit
        exact hdigit
      refine (Safe.word ⟨by omega, by omega⟩).bind ?_
      rintro tens rfl
      refine (Safe.word ⟨by omega, by omega⟩).bind ?_
      rintro sum rfl
      refine (Safe.word ⟨by omega, by omega⟩).bind ?_
      rintro next rfl
      split_ifs with hlarge
      · exact .pure fun pair hpair => absurd hpair (by simp)
      · exact ih (by omega) (by omega)

theorem simdBits_range {text : Text} {bits : ℤ} (h : bits ∈ simdBits text) :
    0 ≤ bits ∧ bits ≤ 64 := by
  rw [simdBits] at h
  split_ifs at h with h8 h16 h32 h64
  · obtain rfl := Option.some.inj h
    norm_num
  · obtain rfl := Option.some.inj h
    norm_num
  · obtain rfl := Option.some.inj h
    norm_num
  · obtain rfl := Option.some.inj h
    norm_num
  · exact absurd h nofun

/-- The layout of a vector overflows nowhere, and its size is one of a value. -/
theorem simdLayout_safe (name : Text) :
    Safe (engine.simdLayout name) AnswerSized := by
  rw [simdLayout]
  split_ifs with hshort
  · exact .pure (answerSized_error _)
  · refine (@simdLanes_safe (name.drop 4) 0 (by norm_num) (by norm_num)).bind ?_
    rintro (_ | ⟨lanes, rest⟩) hlanes
    · exact .pure (answerSized_error _)
    · obtain ⟨hnonneg, hsmall⟩ := hlanes _ rfl
      dsimp only at hnonneg hsmall ⊢
      split_ifs with hzero
      · exact .pure (answerSized_error _)
      · cases rest with
        | nil => exact .pure (answerSized_error _)
        | cons family bitsText =>
          refine (layoutPowerOfTwo_safe (by omega)).bind ?_
          intro power _
          split_ifs with hpower hfamily
          · exact .pure (answerSized_error _)
          · cases hbits : simdBits bitsText with
            | none => exact .pure (answerSized_error _)
            | some bits =>
              obtain ⟨hbitsNonneg, hbitsSmall⟩ := simdBits_range hbits
              dsimp only
              split_ifs with hfloat
              · exact .pure (answerSized_error _)
              · have hprod : 0 ≤ lanes * bits := mul_nonneg hnonneg hbitsNonneg
                have hprod' : lanes * bits ≤ 64 * 64 :=
                  mul_le_mul hsmall hbitsSmall hbitsNonneg (by norm_num)
                refine (Safe.word ⟨by omega, by omega⟩).bind ?_
                rintro total rfl
                split_ifs with htotal hmax
                · exact .pure (answerSized_error _)
                · exact .pure (answerSized_error _)
                · rcases (by tauto : lanes * bits = 128 ∨ lanes * bits = 256) with hwide | hwide
                  · rw [hwide]
                    exact .pure (answerSized_ok (by decide) (by decide)
                      (powerOfTwo_pow 4 (by norm_num)))
                  · rw [hwide]
                    exact .pure (answerSized_ok (by decide) (by decide)
                      (powerOfTwo_pow 5 (by norm_num)))
          · exact .pure (answerSized_error _)

/-- One branch of a choice between builtins. -/
theorem safe_of_ite {c : Prop} [Decidable c] {first run : Run LayoutAnswer}
    {rest : Option (Run LayoutAnswer)} (hfirst : Safe first AnswerSized)
    (hrest : rest = some run → Safe run AnswerSized)
    (h : (if c then some first else rest) = some run) :
    Safe run AnswerSized := by
  by_cases hc : c
  · rw [if_pos hc] at h
    exact Option.some.inj h ▸ hfirst
  · rw [if_neg hc] at h
    exact hrest h

theorem slice_safe :
    Safe (do
      let size ← word (engine.target.pointerSize * 2)
      return layoutOk size engine.target.pointerSize) AnswerSized := by
  have hpointer := pointerSize_cases engine.target
  refine (Safe.word ⟨by omega, by omega⟩).bind ?_
  rintro size rfl
  refine .pure (answerSized_ok (by omega) (by omega) ?_)
  rcases hpointer with hword | hword
  · rw [hword]
    exact powerOfTwo_pow 2 (by norm_num)
  · rw [hword]
    exact powerOfTwo_pow 3 (by norm_num)

theorem decimal_sized (message : Text) :
    AnswerSized (if engine.target.hasDecimal then layoutOk 32 16 else layoutError message) := by
  split_ifs
  · exact answerSized_ok (by norm_num) (by norm_num) (powerOfTwo_pow 4 (by norm_num))
  · exact answerSized_error _

theorem layoutBuiltin_safe {type : HirType} {run : Run LayoutAnswer}
    (h : engine.layoutBuiltin type = some run) :
    Safe run AnswerSized := by
  have hnatural : ∀ k ≤ 62, Safe (pure (engine.natural (2 ^ k)) : Run _) AnswerSized :=
    fun k hk => .pure (engine.natural_sized (powerOfTwo_pow k hk))
  have hone : Safe (pure (layoutOk 1 1) : Run _) AnswerSized :=
    .pure (answerSized_ok (by norm_num) (by norm_num) .one)
  have hunit : Safe (pure (layoutOk 0 1) : Run _) AnswerSized :=
    .pure (answerSized_ok (by norm_num) (by norm_num) .one)
  refine safe_of_ite (hnatural 0 (by norm_num)) ?_ h
  refine safe_of_ite (hnatural 1 (by norm_num)) ?_
  refine safe_of_ite (hnatural 2 (by norm_num)) ?_
  refine safe_of_ite (hnatural 3 (by norm_num)) ?_
  refine safe_of_ite hone ?_
  refine safe_of_ite hunit ?_
  refine safe_of_ite (.pure (engine.decimal_sized _)) ?_
  refine safe_of_ite (.pure engine.pointer_sized) ?_
  refine safe_of_ite engine.slice_safe ?_
  refine safe_of_ite (engine.simdLayout_safe _) ?_
  exact safe_of_ite (.pure (answerSized_error _)) nofun

theorem layoutArray_safe {type : HirType} {inner : HirType → Run LayoutAnswer}
    (h : ∀ element, Safe (inner element) AnswerSized) :
    Safe (layoutArray type inner) AnswerSized := by
  rw [layoutArray]
  split
  · rename_i element hargs
    split_ifs with hnegative
    · exact .pure (answerSized_error _)
    · refine (h element).bind ?_
      intro piece hpiece
      split_ifs with hok hlarge
      · exact .pure (answerSized_error _)
      · obtain ⟨hnonneg, hbounded, halign⟩ := hpiece hok
        have hproduct : 0 ≤ piece.value.size * type.arrayLength :=
          mul_nonneg hnonneg (not_lt.mp hnegative)
        have hproduct' : piece.value.size * type.arrayLength ≤ 9223372036854775807 := by
          by_cases hzero : piece.value.size = 0
          · rw [hzero, zero_mul]
            norm_num
          · have hcount : type.arrayLength ≤ Int.tdiv 9223372036854775807 piece.value.size :=
              not_lt.mp fun hlt => hlarge ⟨hzero, hlt⟩
            rw [Int.tdiv_eq_ediv_of_nonneg (by norm_num)] at hcount
            rw [mul_comm]
            exact (Int.le_ediv_iff_mul_le (by omega)).mp hcount
        refine (Safe.word ⟨by omega, by omega⟩).bind ?_
        rintro size rfl
        exact .pure (answerSized_ok hproduct hproduct' halign)
      · exact .pure fun hok' => absurd hok' hok
  · exact .pure (answerSized_error _)

end LayoutEngine

/-- Where one field goes from the size so far, and the size after it. -/
structure Step (declaration : HirDeclaration) (size : ℤ) (p : Placement) (next : ℤ) : Prop where
  grows : size ≤ next
  inside : p.stop ≤ next
  least : ∀ bound, size ≤ bound → p.stop ≤ bound → next ≤ bound
  union : declaration.kind = .union → p.offset = 0
  after : declaration.kind ≠ .union → size ≤ p.offset ∧ next = p.stop
  packed : declaration.kind ≠ .union → declaration.isPacked = true → p.offset = size
  aligned : declaration.kind ≠ .union → declaration.isPacked = false → p.fieldAlign ∣ p.offset

/-- Fields placed from a size and an alignment on, up to the last ones. -/
structure Placed (declaration : HirDeclaration) (size alignment : ℤ)
    (placements : List Placement) (last raised : ℤ) : Prop where
  grows : size ≤ last
  inside : ∀ p ∈ placements, p.stop ≤ last
  least : ∀ bound, size ≤ bound → (∀ p ∈ placements, p.stop ≤ bound) → last ≤ bound
  union : declaration.kind = .union → ∀ p ∈ placements, p.offset = 0
  after : declaration.kind ≠ .union → ∀ p ∈ placements, size ≤ p.offset
  ordered : declaration.kind ≠ .union →
    placements.Pairwise fun p q => p.stop ≤ q.offset
  packed : declaration.kind ≠ .union → declaration.isPacked = true →
    (∀ p ∈ placements.head?, p.offset = size) ∧
      placements.IsChain fun p q => p.stop = q.offset
  aligned : declaration.kind ≠ .union → declaration.isPacked = false →
    ∀ p ∈ placements, p.fieldAlign ∣ p.offset
  raises : alignment ≤ raised
  covers : declaration.isPacked = false → ∀ p ∈ placements, p.fieldAlign ≤ raised

theorem Placed.nil (declaration : HirDeclaration) (size alignment : ℤ) :
    Placed declaration size alignment [] size alignment where
  grows := le_refl size
  inside := fun p hp => absurd hp List.not_mem_nil
  least := fun _ h _ => h
  union := fun _ p hp => absurd hp List.not_mem_nil
  after := fun _ p hp => absurd hp List.not_mem_nil
  ordered := fun _ => .nil
  packed := fun _ _ => ⟨fun p hp => absurd hp (by simp), .nil⟩
  aligned := fun _ _ p hp => absurd hp List.not_mem_nil
  raises := le_refl alignment
  covers := fun _ p hp => absurd hp List.not_mem_nil

theorem Placed.cons {declaration : HirDeclaration} {size alignment next higher last raised : ℤ}
    {p : Placement} {rest : List Placement}
    (h : Placed declaration next higher rest last raised) (hstep : Step declaration size p next)
    (hhigher : alignment ≤ higher)
    (hcovers : declaration.isPacked = false → p.fieldAlign ≤ higher) :
    Placed declaration size alignment (p :: rest) last raised where
  grows := hstep.grows.trans h.grows
  inside := by
    rw [List.forall_mem_cons]
    exact ⟨hstep.inside.trans h.grows, h.inside⟩
  least bound hsize hall := by
    rw [List.forall_mem_cons] at hall
    exact h.least bound (hstep.least bound hsize hall.1) hall.2
  union hunion := by
    rw [List.forall_mem_cons]
    exact ⟨hstep.union hunion, h.union hunion⟩
  after hkind := by
    rw [List.forall_mem_cons]
    exact ⟨(hstep.after hkind).1, fun q hq => hstep.grows.trans (h.after hkind q hq)⟩
  ordered hkind := by
    rw [List.pairwise_cons]
    refine ⟨fun q hq => ?_, h.ordered hkind⟩
    rw [← (hstep.after hkind).2]
    exact h.after hkind q hq
  packed hkind hpacked := by
    obtain ⟨hhead, hchain⟩ := h.packed hkind hpacked
    refine ⟨fun q hq => ?_, ?_⟩
    · rw [← Option.some.inj hq]
      exact hstep.packed hkind hpacked
    · refine List.isChain_cons.mpr ⟨fun q hq => ?_, hchain⟩
      rw [← (hstep.after hkind).2]
      exact (hhead q hq).symm
  aligned hkind hpacked := by
    rw [List.forall_mem_cons]
    exact ⟨hstep.aligned hkind hpacked, h.aligned hkind hpacked⟩
  raises := hhigher.trans h.raises
  covers hpacked := by
    rw [List.forall_mem_cons]
    exact ⟨(hcovers hpacked).trans h.raises, h.covers hpacked⟩

theorem step_union (hkind : declaration.kind = .union) (field : HirField) (piece : ValueLayout)
    (size : ℤ) :
    Step declaration size ⟨field, piece, 0⟩ (if piece.size > size then piece.size else size) where
  grows := by split_ifs <;> omega
  inside := by
    rw [Placement.stop, zero_add]
    dsimp only
    split_ifs <;> omega
  least bound hsize hstop := by
    rw [Placement.stop, zero_add] at hstop
    split_ifs
    · exact hstop
    · exact hsize
  union _ := rfl
  after h := absurd hkind h
  packed h := absurd hkind h
  aligned h := absurd hkind h

/-- A field of a struct goes to a place from the size so far on. -/
theorem step_struct (hkind : declaration.kind ≠ .union) {offset : ℤ} (hnonneg : 0 ≤ piece.size)
    (hafter : size ≤ offset) (hpacked : declaration.isPacked = true → offset = size)
    (haligned : declaration.isPacked = false → effectiveAlign field piece ∣ offset) :
    Step declaration size ⟨field, piece, offset⟩ (offset + piece.size) where
  grows := by omega
  inside := le_refl _
  least _ _ hstop := hstop
  union h := absurd h hkind
  after _ := ⟨hafter, rfl⟩
  packed _ := hpacked
  aligned _ := haligned

/-- What a run over the fields of a record returns. -/
def RecordSound (declaration : HirDeclaration) (piece : HirType → Run LayoutAnswer)
    (fields : List HirField) (size alignment : ℤ) (offsets : List (Text × ℤ))
    (record : RecordLayoutAnswer) : Prop :=
  record.answer.ok = true → ∃ (placements : List Placement) (last : ℤ),
    placements.map Placement.field = fields ∧
      record.offsets = offsets ++ placements.map (fun p => (p.field.name, p.offset)) ∧
      (∀ p ∈ placements, Sized p.piece ∧ ∃ answer, piece p.field.type = .ok answer ∧
        answer.ok = true ∧ answer.value = p.piece) ∧
      Placed declaration size alignment placements last record.answer.value.align ∧
      Up last record.answer.value.align record.answer.value.size ∧
      Sized record.answer.value

theorem recordSound_error {piece : HirType → Run LayoutAnswer}
    {offsets entered : List (Text × ℤ)} {answer : LayoutAnswer} (h : answer.ok ≠ true) :
    RecordSound declaration piece fields size alignment offsets ⟨answer, entered⟩ :=
  fun h' => absurd h' h

theorem RecordSound.cons {declaration : HirDeclaration} {piece : HirType → Run LayoutAnswer}
    {field : HirField} {fields : List HirField} {size alignment next higher offset : ℤ}
    {offsets : List (Text × ℤ)} {answer : LayoutAnswer} {record : RecordLayoutAnswer}
    (h : RecordSound declaration piece fields next higher (offsets ++ [(field.name, offset)]) record)
    (hpiece : piece field.type = .ok answer) (hok : answer.ok = true)
    (hsized : Sized answer.value)
    (hstep : Step declaration size ⟨field, answer.value, offset⟩ next)
    (hhigher : alignment ≤ higher)
    (hcovers : declaration.isPacked = false → effectiveAlign field answer.value ≤ higher) :
    RecordSound declaration piece (field :: fields) size alignment offsets record := by
  intro hrecord
  obtain ⟨placements, last, hfields, hoffsets, hpieces, hplaced, hup, hlast⟩ := h hrecord
  refine ⟨⟨field, answer.value, offset⟩ :: placements, last, ?_, ?_, ?_, ?_, hup, hlast⟩
  · rw [List.map_cons, hfields]
  · rw [hoffsets, List.append_assoc, List.map_cons]
    rfl
  · rw [List.forall_mem_cons]
    exact ⟨⟨hsized, answer, hpiece, hok, rfl⟩, hpieces⟩
  · exact hplaced.cons hstep hhigher hcovers

theorem effectiveAlign_powerOfTwo (h : field.declaredAlign ≠ 0 → PowerOfTwo field.declaredAlign)
    (hpiece : PowerOfTwo piece.align) :
    PowerOfTwo (effectiveAlign field piece) := by
  have hpos := hpiece.pos
  rw [effectiveAlign]
  split_ifs with hlarger
  · exact h (by omega)
  · exact hpiece

theorem raisedAlign_spec {declaration : HirDeclaration} {fieldAlign alignment : ℤ}
    (hfield : PowerOfTwo fieldAlign) (h : PowerOfTwo alignment) :
    PowerOfTwo (raisedAlign declaration fieldAlign alignment) ∧
      alignment ≤ raisedAlign declaration fieldAlign alignment ∧
      (declaration.isPacked = false →
        fieldAlign ≤ raisedAlign declaration fieldAlign alignment) := by
  have hpos := h.pos
  rw [raisedAlign]
  cases declaration.isPacked with
  | true =>
    rw [if_pos rfl, if_neg (by omega)]
    exact ⟨h, le_refl _, fun hfalse => absurd hfalse (by decide)⟩
  | false =>
    rw [if_neg Bool.false_ne_true]
    split_ifs with hlarger
    · exact ⟨hfield, by omega, fun _ => le_refl _⟩
    · exact ⟨h, le_refl _, fun _ => by omega⟩

/-- By induction on the fields: each starts where the one before it ends, aligned. -/
theorem layoutFields_safe {piece : HirType → Run LayoutAnswer}
    (hpiece : ∀ type, Safe (piece type) AnswerSized)
    (hvalid : ∀ field ∈ fields, field.declaredAlign ≠ 0 → PowerOfTwo field.declaredAlign)
    (hsize : 0 ≤ size) (hsize' : size ≤ 9223372036854775807) (halignment : PowerOfTwo alignment)
    (offsets : List (Text × ℤ)) :
    Safe (LayoutEngine.layoutFields declaration piece fields size alignment offsets)
      (RecordSound declaration piece fields size alignment offsets) := by
  induction fields generalizing size alignment offsets with
  | nil =>
    rw [LayoutEngine.layoutFields]
    refine (layoutAlignUp_safe hsize hsize' halignment).bind ?_
    intro finished hfinished
    split_ifs with hok
    · obtain ⟨hup, hbounded⟩ := hfinished hok
      refine .pure fun _ => ⟨[], size, rfl, (List.append_nil _).symm, ?_, .nil _ _ _, hup, ?_⟩
      · exact fun p hp => absurd hp List.not_mem_nil
      · exact ⟨hsize.trans hup.1.1, hbounded, halignment⟩
    · exact .pure (recordSound_error hok)
  | cons field fields ih =>
    rw [List.forall_mem_cons] at hvalid
    rw [LayoutEngine.layoutFields]
    refine (hpiece field.type).returned.bind ?_
    rintro answer ⟨hanswer, hsized⟩
    by_cases hok : answer.ok = true
    swap
    · rw [if_neg hok]
      exact .pure (recordSound_error hok)
    rw [if_pos hok]
    obtain ⟨hnonneg, hbounded, halign⟩ := hsized hok
    have heffective := effectiveAlign_powerOfTwo hvalid.1 halign
    obtain ⟨hpower, hhigher, hcovers⟩ := @raisedAlign_spec declaration _ _ heffective halignment
    have hroom : SignedWords.Fits (9223372036854775807 - answer.value.size) :=
      ⟨by omega, by omega⟩
    dsimp only
    by_cases hunion : declaration.kind = .union
    · rw [if_pos hunion]
      have hnext : 0 ≤ (if answer.value.size > size then answer.value.size else size) ∧
          (if answer.value.size > size then answer.value.size else size) ≤
            9223372036854775807 := by
        split_ifs
        · exact ⟨hnonneg, hbounded⟩
        · exact ⟨hsize, hsize'⟩
      exact (ih hvalid.2 hnext.1 hnext.2 hpower _).mono fun record hrecord =>
        hrecord.cons hanswer hok (hsized hok) (step_union hunion _ _ _) hhigher hcovers
    rw [if_neg hunion]
    by_cases hpacked : declaration.isPacked = true
    · rw [if_pos hpacked]
      refine (Safe.word hroom).bind ?_
      rintro room rfl
      split_ifs with hlarge
      · exact .pure (recordSound_error (by simp [layoutError]))
      · refine (Safe.word ⟨by omega, by omega⟩).bind ?_
        rintro next rfl
        have hstep : Step declaration size ⟨field, answer.value, size⟩ (size + answer.value.size) :=
          step_struct hunion hnonneg (le_refl size) (fun _ => rfl)
            (fun h => absurd hpacked (by rw [h]; decide))
        exact (ih hvalid.2 (by omega) (by omega) hpower _).mono fun record hrecord =>
          hrecord.cons hanswer hok (hsized hok) hstep hhigher hcovers
    · rw [if_neg hpacked]
      refine (layoutAlignUp_safe hsize hsize' heffective).bind ?_
      intro placed hplaced
      by_cases hplacedOk : placed.ok = true
      swap
      · rw [if_neg hplacedOk]
        exact .pure (recordSound_error hplacedOk)
      rw [if_pos hplacedOk]
      obtain ⟨hup, hup'⟩ := hplaced hplacedOk
      refine (Safe.word hroom).bind ?_
      rintro room rfl
      split_ifs with hlarge
      · exact .pure (recordSound_error (by simp [layoutError]))
      · have hafter : size ≤ placed.value.size := hup.1.1
        refine (Safe.word ⟨by omega, by omega⟩).bind ?_
        rintro next rfl
        have hstep : Step declaration size ⟨field, answer.value, placed.value.size⟩
            (placed.value.size + answer.value.size) :=
          step_struct hunion hnonneg hafter (fun h => absurd h hpacked) (fun _ => hup.1.2)
        exact (ih hvalid.2 (by omega) (by omega) hpower _).mono fun record hrecord =>
          hrecord.cons hanswer hok (hsized hok) hstep hhigher hcovers

/-- The alignment a record starts from. -/
theorem startAlign_spec (h : Validated declaration) :
    PowerOfTwo (if declaration.declaredAlign > 1 then declaration.declaredAlign else 1) ∧
      declaration.declaredAlign ≤
        (if declaration.declaredAlign > 1 then declaration.declaredAlign else 1) := by
  split_ifs with hlarge
  · exact ⟨h.record (by omega), le_refl _⟩
  · exact ⟨.one, by omega⟩

/-- What is known of a record that has a layout. -/
def RecordAnswer (declaration : HirDeclaration) (piece : HirType → Run LayoutAnswer)
    (record : RecordLayoutAnswer) : Prop :=
  ∃ alignment, declaration.declaredAlign ≤ alignment ∧
    RecordSound declaration piece declaration.fields 0 alignment [] record

theorem layoutRecordWith_safe {inner : HirType → Substitutions → Active → Run LayoutAnswer}
    (h : ∀ type substitutions active, Safe (inner type substitutions active) AnswerSized)
    (type : HirType) (hvalid : Validated declaration) (substitutions : Substitutions)
    (active : Active) :
    Safe (LayoutEngine.layoutRecordWith inner type declaration substitutions active)
      (RecordAnswer declaration fun fieldType =>
        inner fieldType ((declaration.generics.zip type.args).reverse ++ substitutions)
          (renderHirType type :: active)) := by
  obtain ⟨hpower, hdeclared⟩ := startAlign_spec hvalid
  have herror : ∀ (message : Text) (piece : HirType → Run LayoutAnswer),
      RecordAnswer declaration piece ⟨layoutError message, []⟩ := fun message piece =>
    ⟨_, hdeclared, recordSound_error (by simp [layoutError])⟩
  rw [LayoutEngine.layoutRecordWith]
  dsimp only
  by_cases hopaque : declaration.isOpaque = true
  · rw [if_pos hopaque]
    exact .pure (herror _ _)
  rw [if_neg hopaque]
  by_cases hactive : renderHirType type ∈ active
  · rw [if_pos hactive]
    exact .pure (herror _ _)
  rw [if_neg hactive]
  by_cases hcount : declaration.generics.length ≠ type.args.length
  · rw [if_pos hcount]
    exact .pure (herror _ _)
  rw [if_neg hcount]
  refine (layoutFields_safe (fun fieldType => h fieldType _ _) hvalid.fields (le_refl 0)
    (by norm_num) hpower []).mono fun record hrecord => ⟨_, hdeclared, hrecord⟩

theorem RecordAnswer.sized {piece : HirType → Run LayoutAnswer} {record : RecordLayoutAnswer}
    (h : RecordAnswer declaration piece record) :
    AnswerSized record.answer := by
  intro hok
  obtain ⟨_, -, hsound⟩ := h
  obtain ⟨_, _, -, -, -, -, -, hsized⟩ := hsound hok
  exact hsized

/-- A type has a size that a word holds, or none. -/
theorem layoutTypeInner_safe {engine : LayoutEngine}
    (hvalid : ∀ declaration ∈ engine.program, Validated declaration) (fuel : ℕ) (type : HirType)
    (substitutions : Substitutions) (active : Active) :
    Safe (engine.layoutTypeInner fuel type substitutions active) AnswerSized := by
  induction fuel generalizing type substitutions active with
  | zero => exact .fuel
  | succ fuel ih =>
    rw [LayoutEngine.layoutTypeInner]
    cases substitutions.lookup type.name with
    | some given => exact ih given substitutions active
    | none =>
      dsimp only
      by_cases harray : type.name = ascii "array"
      · rw [if_pos harray]
        exact LayoutEngine.layoutArray_safe fun element => ih element substitutions active
      rw [if_neg harray]
      cases hbuiltin : engine.layoutBuiltin type with
      | some run => exact engine.layoutBuiltin_safe hbuiltin
      | none =>
        dsimp only
        cases hfound : engine.declaration type.name with
        | none => exact .pure (answerSized_error _)
        | some declaration =>
          have hin : declaration ∈ engine.program :=
            List.mem_reverse.mp (List.mem_of_find?_eq_some hfound)
          have hrecord : Safe (if declaration.isOpaque = true then
              pure (layoutError (renderHirType type ++
                ascii " is an opaque C type and has no known layout"))
              else do
                let record ← LayoutEngine.layoutRecordWith (engine.layoutTypeInner fuel) type
                  declaration substitutions active
                pure record.answer) AnswerSized := by
            by_cases hopaque : declaration.isOpaque = true
            · rw [if_pos hopaque]
              exact .pure (answerSized_error _)
            · rw [if_neg hopaque]
              exact (layoutRecordWith_safe ih type (hvalid declaration hin) _ _).bind
                fun record h => .pure h.sized
          dsimp only
          cases declaration.kind with
          | «class» => exact .pure engine.pointer_sized
          | interface => exact .pure engine.pointer_sized
          | enum =>
            dsimp only
            split_ifs
            · exact .pure (answerSized_ok (by norm_num) (by norm_num) .one)
            · exact .pure (answerSized_error _)
          | struct => exact hrecord
          | union => exact hrecord

/-- A layout of a record: its fields in the order of their declaration, each with the
layout of its type and its place. -/
structure SoundLayout (declaration : HirDeclaration) (placements : List Placement)
    (layout : ValueLayout) : Prop where
  /-- No field starts before the record does. -/
  nonneg : ∀ p ∈ placements, 0 ≤ p.offset
  /-- Every field ends inside the record. -/
  inside : ∀ p ∈ placements, p.offset + p.piece.size ≤ layout.size
  /-- The fields of a struct stand one after the other. -/
  ordered : declaration.kind ≠ .union →
    placements.Pairwise fun p q => p.offset + p.piece.size ≤ q.offset
  aligned : declaration.kind ≠ .union → declaration.isPacked = false →
    ∀ p ∈ placements, effectiveAlign p.field p.piece ∣ p.offset
  /-- A packed struct has no gap in front of a field. -/
  packed : declaration.kind ≠ .union → declaration.isPacked = true →
    (∀ p ∈ placements.head?, p.offset = 0) ∧
      placements.IsChain fun p q => p.offset + p.piece.size = q.offset
  union : declaration.kind = .union → ∀ p ∈ placements, p.offset = 0
  declared_align : declaration.declaredAlign ≤ layout.align
  field_align : declaration.isPacked = false →
    ∀ p ∈ placements, effectiveAlign p.field p.piece ≤ layout.align
  /-- The least multiple of the alignment that holds the fields. -/
  least : IsLeast {size : ℤ | 0 ≤ size ∧ layout.align ∣ size ∧
    ∀ p ∈ placements, p.offset + p.piece.size ≤ size} layout.size
  sized : Sized layout

theorem RecordSound.soundLayout {placements : List Placement} {last : ℤ} {layout : ValueLayout}
    (hdeclared : declaration.declaredAlign ≤ alignment)
    (h : Placed declaration 0 alignment placements last layout.align)
    (hup : Up last layout.align layout.size) (hsized : Sized layout) :
    SoundLayout declaration placements layout where
  nonneg p hp := by
    by_cases hkind : declaration.kind = .union
    · exact (h.union hkind p hp).ge
    · exact h.after hkind p hp
  inside p hp := (h.inside p hp).trans hup.1.1
  ordered hkind := h.ordered hkind
  aligned hkind hpacked := h.aligned hkind hpacked
  packed hkind hpacked := h.packed hkind hpacked
  union hkind := h.union hkind
  declared_align := hdeclared.trans h.raises
  field_align hpacked := h.covers hpacked
  least := by
    refine ⟨⟨hsized.nonneg, hup.1.2, fun p hp => (h.inside p hp).trans hup.1.1⟩, ?_⟩
    rintro size ⟨hnonneg, hdvd, hall⟩
    exact hup.2 ⟨h.least size hnonneg hall, hdvd⟩
  sized := hsized

/-- No sum on the way to a layout leaves the signed words, and when a struct or union
has a layout, it is sound. -/
theorem c_layout
    (engine : LayoutEngine)
    (hvalid : ∀ declaration ∈ engine.program, Validated declaration)
    (fuel : ℕ)
    (declaration : HirDeclaration)
    (hdeclaration : declaration ∈ engine.program)
    (hgenerics : declaration.generics = []) :
    engine.layoutRecord fuel declaration ≠ .error .overflow ∧
      ∀ record, engine.layoutRecord fuel declaration = .ok record → record.answer.ok = true →
        ∃ placements : List Placement,
          placements.map Placement.field = declaration.fields ∧
            record.offsets = placements.map (fun p => (p.field.name, p.offset)) ∧
            (∀ p ∈ placements, ∃ answer,
              engine.layoutTypeInner fuel p.field.type []
                [renderHirType (.new declaration.qualified)] = .ok answer ∧
              answer.ok = true ∧ answer.value = p.piece) ∧
            SoundLayout declaration placements record.answer.value := by
  have hsafe := layoutRecordWith_safe (layoutTypeInner_safe hvalid fuel)
    (.mk declaration.qualified (declaration.generics.map fun _ => .new (ascii "u8")) (-1) (-1)
      false) (hvalid declaration hdeclaration) [] []
  refine ⟨hsafe.1, fun record hrecord hok => ?_⟩
  obtain ⟨alignment, hdeclared, hsound⟩ := hsafe.2 record hrecord
  obtain ⟨placements, last, hfields, hoffsets, hpieces, hplaced, hup, hsized⟩ := hsound hok
  rw [hgenerics] at hpieces
  refine ⟨placements, hfields, hoffsets, fun p hp => (hpieces p hp).2, ?_⟩
  exact RecordSound.soundLayout hdeclared hplaced hup hsized

/-- A packed tag of five bytes. -/
def tag : HirDeclaration where
  qualified := ascii "wire::Tag"
  kind := .struct
  generics := []
  fields := [⟨ascii "kind", .new (ascii "u8"), 0⟩, ⟨ascii "code", .new (ascii "u32"), 0⟩]
  isOpaque := false
  isPacked := true
  declaredAlign := 0
  repr := []

/-- A word, or its two halves. -/
def dataWord : HirDeclaration where
  qualified := ascii "wire::Word"
  kind := .union
  generics := []
  fields := [⟨ascii "whole", .new (ascii "u32"), 0⟩,
    ⟨ascii "halves", .mk (ascii "array") [.new (ascii "u16")] 2 (-1) false, 0⟩]
  isOpaque := false
  isPacked := false
  declaredAlign := 0
  repr := []

/-- A tag, a word, and three tags that the declaration aligns to sixteen bytes. -/
def header : HirDeclaration where
  qualified := ascii "wire::Header"
  kind := .struct
  generics := []
  fields := [⟨ascii "tag", .new (ascii "wire::Tag"), 0⟩,
    ⟨ascii "word", .new (ascii "wire::Word"), 0⟩,
    ⟨ascii "body", .mk (ascii "array") [.new (ascii "wire::Tag")] 3 (-1) false, 16⟩,
    ⟨ascii "last", .new (ascii "u8"), 0⟩]
  isOpaque := false
  isPacked := false
  declaredAlign := 8
  repr := []

def headerEngine : LayoutEngine where
  target :=
    { triple := ascii "x86_64-unknown-linux-gnu"
      arch := ascii "x86_64"
      os := ascii "linux"
      pointerBits := 64
      hasDecimal := true
      features := [ascii "sse2"]
      pointer_word := .inr rfl }
  program := [tag, dataWord, header]

theorem headerEngine_validated :
    ∀ declaration ∈ headerEngine.program, Validated declaration := by
  have hpower : ∀ align : ℤ, align = 0 ∨ align = 8 ∨ align = 16 → align ≠ 0 →
      PowerOfTwo align := by
    rintro align (rfl | rfl | rfl) h
    · exact absurd rfl h
    · exact ⟨3, by decide, by decide⟩
    · exact ⟨4, by decide, by decide⟩
  have haligns : ∀ declaration ∈ headerEngine.program,
      (declaration.declaredAlign = 0 ∨ declaration.declaredAlign = 8 ∨
        declaration.declaredAlign = 16) ∧
        ∀ field ∈ declaration.fields,
          field.declaredAlign = 0 ∨ field.declaredAlign = 8 ∨ field.declaredAlign = 16 := by
    decide
  exact fun declaration hdeclaration =>
    ⟨hpower _ (haligns declaration hdeclaration).1,
      fun field hfield => hpower _ ((haligns declaration hdeclaration).2 field hfield)⟩

/-- Three bytes are left out before the word and four before the body. -/
theorem c_layout_header :
    headerEngine.layoutRecord 3 header =
        .ok ⟨layoutOk 32 16,
          [(ascii "tag", 0), (ascii "word", 8), (ascii "body", 16), (ascii "last", 31)]⟩ ∧
      ∃ placements, SoundLayout header placements ⟨32, 16⟩ := by
  have hrun : headerEngine.layoutRecord 3 header =
      .ok ⟨layoutOk 32 16,
        [(ascii "tag", 0), (ascii "word", 8), (ascii "body", 16), (ascii "last", 31)]⟩ := by
    decide +kernel
  obtain ⟨placements, -, -, -, hsound⟩ :=
    (c_layout headerEngine headerEngine_validated 3 header (by simp [headerEngine]) rfl).2 _
      hrun rfl
  exact ⟨hrun, placements, hsound⟩

end Hir
end Beans
