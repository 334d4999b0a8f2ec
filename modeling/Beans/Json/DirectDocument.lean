import Beans.Json.DirectRecords

/-!
# The direct writer writes the document

For records without floats, the direct writer writes the compact text of the
document built from them, whether it writes the keys one by one or out of a
skeleton, and stops where there is no such text.
-/

namespace Beans
namespace Json

open Direct

variable {scan : Scan} {memory : Memory} {realText : Float → Option Text}

mutual

/-- No float is written. -/
def EncodeKind.floatFree : EncodeKind → Bool
  | .f32 => false
  | .f64 => false
  | .struct ⟨fields, _, _⟩ => floatFreeFields fields
  | .list element _ => element.floatFree
  | _ => true

def floatFreeFields : List (EncodeField EncodeKind) → Bool
  | [] => true
  | ⟨kind, flags, _, _, _, _, _⟩ :: rest =>
    (flags &&& 4 != 0 || kind.floatFree) && floatFreeFields rest

end

mutual

/-- The keys of every record fit the words of a skeleton. -/
def EncodeKind.keysFit : EncodeKind → Bool
  | .struct ⟨fields, _, _⟩ =>
    (skelTotal fields).all (fun total => decide (total < 2 ^ 32)) && keysFitFields fields
  | .list element _ => element.keysFit
  | _ => true

def keysFitFields : List (EncodeField EncodeKind) → Bool
  | [] => true
  | ⟨kind, flags, _, _, _, _, _⟩ :: rest =>
    (flags &&& 4 != 0 || kind.keysFit) && keysFitFields rest

end

/-- Induction through the fields of records and the elements of lists. -/
theorem EncodeKind.induction {P : EncodeKind → Prop}
    (flat : ∀ kind : EncodeKind, kind.isStruct = false → kind.isList = false → P kind)
    (struct : ∀ schema : EncodeSchema EncodeKind,
      (∀ field ∈ schema.fields, P field.kind) → P (.struct schema))
    (list : ∀ element size, P element → P (.list element size)) :
    ∀ kind, P kind
  | .struct ⟨fields, rootArray, recordSize⟩ =>
    struct ⟨fields, rootArray, recordSize⟩ (fieldsInduction fields)
  | .list element size => list element size (EncodeKind.induction flat struct list element)
  | .other | .bool | .sint | .uint | .f32 | .f64 | .string => flat _ rfl rfl
where
  fieldsInduction : ∀ fields : List (EncodeField EncodeKind), ∀ field ∈ fields, P field.kind
    | [] => fun _ h => absurd h List.not_mem_nil
    | ⟨kind, _, _, _, _, _, _⟩ :: rest => List.forall_mem_cons.mpr
        ⟨EncodeKind.induction flat struct list kind, fieldsInduction rest⟩

/-- The parts from some place on, the first of all without a comma. -/
def joinFrom (first : Bool) (parts : List Text) : Text :=
  if first then commaJoined parts else parts.flatMap fun part => 0x2C :: part

theorem joinFrom_nil (first : Bool) : joinFrom first [] = [] := by
  cases first <;> rfl

theorem joinFrom_cons (first : Bool) (part : Text) (parts : List Text) :
    joinFrom first (part :: parts) =
      (if first then [] else [0x2C]) ++ (part ++ joinFrom false parts) := by
  have hjoined : commaJoined (part :: parts) =
      part ++ parts.flatMap fun part => 0x2C :: part := by
    induction parts generalizing part with
    | nil => simp [commaJoined, List.intercalate]
    | cons next parts ih =>
      rw [List.flatMap_cons, List.cons_append, ← ih]
      simp [commaJoined, List.intercalate, List.intersperse]
  cases first with
  | true =>
    rw [joinFrom, if_pos rfl, hjoined]
    rfl
  | false => rfl

theorem Direct.Writes.of_eq {w : Writer} {text text' : Option Text}
    (h : Writes w text)
    (heq : text = text') :
    Writes w text' :=
  heq ▸ h

theorem writes_items {item : ℕ → Writer} {value : ℕ → Option Value} {count : ℕ}
    (h : ∀ i, Writes (item i) ((value i).bind (compact realText))) (index : ℕ) :
    Writes (directItems item count index)
      (((collectItems value count index).bind (compactItems realText)).map
        (joinFrom (index == 0))) := by
  induction count generalizing index with
  | zero =>
    refine writes_done.of_eq ?_
    rw [collectItems, Option.bind_some, compactItems, Option.map_some, joinFrom_nil]
  | succ count ih =>
    have hcomma : Writes (if index ≠ 0 then char 0x2C else done)
        (some (if index == 0 then [] else [0x2C])) := by
      cases index with
      | zero => exact writes_done
      | succ index => exact writes_char _
    refine (hcomma.andThen ((h index).andThen (ih (index + 1)))).of_eq ?_
    rw [collectItems]
    cases value index with
    | none => rfl
    | some first =>
      cases collectItems value count (index + 1) with
      | none => cases hfirst : compact realText first <;> simp [hfirst]
      | some rest =>
        simp only [Option.bind_some, Option.map_some, compactItems]
        cases compact realText first with
        | none => rfl
        | some part =>
          cases compactItems realText rest with
          | none => rfl
          | some parts => simp [joinFrom_cons]

variable {list size : UInt64} {fields : List (EncodeField EncodeKind)}

theorem writes_list {item : UInt64 → Bool → Writer} {value : UInt64 → Bool → Option Value}
    {elementSize : UInt64}
    (h : ∀ address i64Slot,
      Writes (item address i64Slot) ((value address i64Slot).bind (compact realText))) :
    Writes (directListWith memory elementSize list item)
      ((encodeListWith memory elementSize list value).bind (compact realText)) := by
  rw [directListWith, encodeListWith]
  split_ifs with hmissing
  · exact writes_stop (by decide)
  · have hitems := @writes_items realText _ _ (memory.listLen list)
      (fun i => h (memory.listItem list i) (memory.listStride list < 0)) 0
    refine ((writes_char 0x5B).andThen (hitems.andThen (writes_char 0x5D))).of_eq ?_
    cases collectItems (fun index => value (memory.listItem list index)
        (memory.listStride list < 0)) (memory.listLen list) 0 with
    | none => rfl
    | some items =>
      simp only [Option.bind_some, Option.map_some, compact]
      cases compactItems realText items <;> rfl

/-- The text a skeleton holds for a field. -/
def Skel.piece (skel : Skel) (index : ℕ) : Text :=
  (skel.bytes.drop (skel.off.getD index 0).toNat).take (skel.len.getD index 0).toNat

/-- The skeleton holds the keys of the fields from an index on. -/
def SkelFits (skel : Skel) : List (EncodeField EncodeKind) → ℕ → Bool → Prop
  | [], _, _ => True
  | field :: rest, index, first =>
    if field.ignored then SkelFits skel rest (index + 1) first
    else
      skel.piece index = keyPiece first field.primaryName ∧
        field.primaryName.all isPlain = true ∧ SkelFits skel rest (index + 1) false

theorem keyPiece_length (first : Bool) (name : Text) :
    (keyPiece first name).length = name.length + 4 := by
  simp [keyPiece]

/-- What is laid out behind other keys holds the keys of its own fields. -/
theorem skelFits_layout {fields : List (EncodeField EncodeKind)} {first : Bool} {total : ℕ}
    {bytes : Text} {off len : List UInt32}
    (htotal : skelTotal fields = some total)
    (hsize : bytes.length + total < 2 ^ 32)
    (hoff : off.length = len.length) :
    SkelFits
      ⟨bytes ++ (skelLayout fields first bytes.length).bytes,
        off ++ (skelLayout fields first bytes.length).off,
        len ++ (skelLayout fields first bytes.length).len⟩
      fields off.length first := by
  induction fields generalizing first total bytes off len with
  | nil => trivial
  | cons field rest ih =>
    rw [SkelFits]
    unfold skelLayout
    unfold skelTotal at htotal
    split_ifs at htotal ⊢ with hignored hplain
    · have hnext := @ih first total bytes (off ++ [0]) (len ++ [0]) htotal hsize
        (by simp [hoff])
      simpa using hnext
    · obtain ⟨remaining, hremaining, rfl⟩ := Option.map_eq_some_iff.mp htotal
      have hpiece := keyPiece_length first field.primaryName
      have hword : ∀ n < 2 ^ 32, n.toUInt32.toNat = n := fun n hn =>
        UInt32.toNat_ofNat_of_lt' hn
      refine ⟨?_, hplain, ?_⟩
      · have hstart : (off ++ bytes.length.toUInt32 ::
            (skelLayout rest false (bytes.length + (keyPiece first
              field.primaryName).length)).off).getD off.length 0 = bytes.length.toUInt32 := by
          simp
        have hcount : (len ++ (keyPiece first field.primaryName).length.toUInt32 ::
            (skelLayout rest false (bytes.length + (keyPiece first
              field.primaryName).length)).len).getD off.length 0 =
                (keyPiece first field.primaryName).length.toUInt32 := by
          simp [hoff]
        rw [Skel.piece]
        simp only
        rw [hstart, hcount, hword _ (by omega), hword _ (by omega), List.drop_left,
          List.take_left]
      · have hnext := @ih false remaining (bytes ++ keyPiece first field.primaryName)
          (off ++ [bytes.length.toUInt32])
          (len ++ [(keyPiece first field.primaryName).length.toUInt32])
          hremaining (by rw [List.length_append]; omega) (by simp [hoff])
        simpa using hnext

theorem skelBuild_fits {skel : Skel}
    (h : skelBuild fields = some skel)
    (hsize : (skelTotal fields).all (fun total => decide (total < 2 ^ 32)) = true) :
    SkelFits skel fields 0 true ∧ ∃ field ∈ fields, field.ignored = false := by
  rw [skelBuild] at h
  cases htotal : skelTotal fields with
  | none => simp [htotal] at h
  | some total =>
    rw [htotal, Option.all_some, decide_eq_true_iff] at hsize
    simp only [htotal] at h
    split_ifs at h with hempty
    have hfits := @skelFits_layout _ true total [] [] []
      htotal (by simpa using hsize) rfl
    cases h
    refine ⟨by simpa using hfits, ?_⟩
    by_contra hnone
    push Not at hnone
    refine hempty ?_
    clear hsize hfits
    induction fields generalizing total with
    | nil => simpa [skelTotal] using htotal.symm
    | cons field rest ih =>
      rw [List.forall_mem_cons] at hnone
      rw [skelTotal, if_pos (by simpa using hnone.1)] at htotal
      exact ih _ htotal hempty hnone.2

/-- The value of a field. -/
def fieldValue (memory : Memory) (field : EncodeField EncodeKind) (record : UInt64) :
    Option Value :=
  match field.place memory record with
  | some value => typedEncodeValue memory field.kind field.flags value false
  | none => some .null

theorem typedEncodeFields_cons (field : EncodeField EncodeKind)
    (rest : List (EncodeField EncodeKind)) (record : UInt64) :
    typedEncodeFields memory (field :: rest) record =
      if field.ignored then typedEncodeFields memory rest record
      else
        (fieldValue memory field record).bind fun value =>
          (typedEncodeFields memory rest record).map ((field.primaryName, value) :: ·) := by
  cases field
  rfl

theorem directFields_cons (skel : Option Skel) (field : EncodeField EncodeKind)
    (rest : List (EncodeField EncodeKind)) (index : ℕ) (first : Bool) (record : UInt64) :
    directFields scan memory skel (field :: rest) index first record =
      if field.ignored then directFields scan memory skel rest (index + 1) first record
      else
        andThen (directKey scan skel first index field.primaryName)
          (andThen
            (match field.place memory record with
              | some value => directValue scan memory field.kind field.flags value false
              | none => raw (ascii "null"))
            (directFields scan memory skel rest (index + 1) false record)) := by
  cases field
  rfl

/-- The members of a record as parts of its text. -/
def recordParts (realText : Float → Option Text) (memory : Memory)
    (fields : List (EncodeField EncodeKind)) (record : UInt64) : Option (List Text) :=
  (typedEncodeFields memory fields record).bind (compactMembers realText)

theorem recordParts_cons (field : EncodeField EncodeKind)
    (rest : List (EncodeField EncodeKind)) (record : UInt64)
    (hignored : field.ignored = false) :
    recordParts realText memory (field :: rest) record =
      (stringText field.primaryName).bind fun key =>
        ((fieldValue memory field record).bind (compact realText)).bind fun part =>
          (recordParts realText memory rest record).map ((key ++ 0x3A :: part) :: ·) := by
  rw [recordParts, typedEncodeFields_cons, hignored, if_neg (by simp), recordParts]
  cases fieldValue memory field record with
  | none => cases stringText field.primaryName <;> rfl
  | some value =>
    cases typedEncodeFields memory rest record with
    | none =>
      cases stringText field.primaryName with
      | none => rfl
      | some key => cases hpart : compact realText value <;> simp [hpart]
    | some members => rfl

/-- The parts of a record from a field on, with what stands in front of the first:
a skeleton brings the brace along. -/
def recordTail (skeleton first : Bool) : List Text → Text
  | [] => []
  | part :: parts =>
    (if first then (if skeleton then [0x7B] else []) else [0x2C]) ++
      (part ++ joinFrom false parts)

theorem recordTail_cons (skeleton first : Bool) (part : Text) (parts : List Text) :
    recordTail skeleton first (part :: parts) =
      (if first then (if skeleton then [0x7B] else []) else [0x2C]) ++
        (part ++ joinFrom false parts) :=
  rfl

theorem recordTail_eq (first : Bool) (parts : List Text) :
    recordTail false first parts = joinFrom first parts := by
  cases parts with
  | nil => rw [recordTail, joinFrom_nil]
  | cons part parts =>
    rw [recordTail, joinFrom_cons]
    rfl

theorem recordTail_rest (skeleton : Bool) (parts : List Text) :
    recordTail skeleton false parts = joinFrom false parts := by
  cases parts with
  | nil => rfl
  | cons part parts =>
    rw [recordTail, joinFrom_cons]
    rfl

theorem stringText_of_plain {name : Text} (h : name.all isPlain = true) :
    stringText name = some (0x22 :: (name ++ [0x22])) := by
  have hbody := bodyText_plain h []
  rw [List.append_nil, bodyText_nil, Option.map_some, List.append_nil] at hbody
  rw [stringText_eq, hbody]
  rfl

theorem writes_key {skel : Option Skel} {first : Bool} {index : ℕ} {name : Text}
    (h : ∀ s ∈ skel, s.piece index = keyPiece first name ∧ name.all isPlain = true) :
    Writes (directKey scan skel first index name)
      ((stringText name).map fun key =>
        (if first then (if skel.isSome then [0x7B] else []) else [0x2C]) ++ (key ++ [0x3A])) := by
  cases skel with
  | none =>
    have hcomma : Writes (if first then done else char 0x2C)
        (some (if first then [] else [0x2C])) := by
      cases first
      · exact writes_char _
      · exact writes_done
    refine (hcomma.andThen ((writes_string scan name).andThen (writes_char 0x3A))).of_eq ?_
    cases stringText name <;> simp
  | some skel =>
    obtain ⟨hpiece, hplain⟩ := h skel rfl
    refine (writes_raw (skel.piece index)).of_eq ?_
    rw [hpiece, stringText_of_plain hplain, keyPiece]
    cases first <;> simp

/-- The fields are written in their order, with the keys of the skeleton or escaped anew. -/
theorem writes_fields {fields : List (EncodeField EncodeKind)} {skel : Option Skel}
    {index : ℕ} {first : Bool} {record : UInt64}
    (hvalues : ∀ field ∈ fields, field.ignored = false → ∀ value,
      Writes (directValue scan memory field.kind field.flags value false)
        ((typedEncodeValue memory field.kind field.flags value false).bind (compact realText)))
    (hskel : ∀ s ∈ skel, SkelFits s fields index first) :
    Writes (directFields scan memory skel fields index first record)
      ((recordParts realText memory fields record).map fun parts =>
        recordTail skel.isSome first parts ++ [0x7D]) := by
  induction fields generalizing index first with
  | nil =>
    rw [directFields]
    exact writes_char _
  | cons field rest ih =>
    rw [List.forall_mem_cons] at hvalues
    rw [directFields_cons]
    cases hignored : field.ignored with
    | true =>
      rw [if_pos rfl]
      refine (ih hvalues.2 fun s hs => ?_).of_eq ?_
      · have hfits := hskel s hs
        rwa [SkelFits, if_pos hignored] at hfits
      · rw [recordParts, recordParts, typedEncodeFields_cons, if_pos hignored]
    | false =>
      rw [if_neg (by simp)]
      have hfits : ∀ s ∈ skel, s.piece index = keyPiece first field.primaryName ∧
          field.primaryName.all isPlain = true ∧ SkelFits s rest (index + 1) false := by
        intro s hs
        have hfits := hskel s hs
        rwa [SkelFits, if_neg (by simp [hignored])] at hfits
      have hkey := @writes_key scan _ _ _ _ fun s hs => ⟨(hfits s hs).1, (hfits s hs).2.1⟩
      have hvalue : Writes
          (match field.place memory record with
            | some value => directValue scan memory field.kind field.flags value false
            | none => raw (ascii "null"))
          ((fieldValue memory field record).bind (compact realText)) := by
        rw [fieldValue]
        cases field.place memory record with
        | none => exact writes_raw _
        | some value => exact hvalues.1 hignored value
      have hrest := @ih (index + 1) false hvalues.2 fun s hs => (hfits s hs).2.2
      refine (hkey.andThen (hvalue.andThen hrest)).of_eq ?_
      rw [recordParts_cons _ _ _ hignored]
      cases stringText field.primaryName with
      | none => rfl
      | some key =>
        cases (fieldValue memory field record).bind (compact realText) with
        | none => rfl
        | some part =>
          cases recordParts realText memory rest record with
          | none => rfl
          | some parts => simp [recordTail_cons, recordTail_rest]

/-- The text of a record. -/
def recordText (realText : Float → Option Text) (memory : Memory)
    (fields : List (EncodeField EncodeKind)) (record : UInt64) : Option Text :=
  (recordParts realText memory fields record).map fun parts =>
    0x7B :: (commaJoined parts ++ [0x7D])

theorem recordText_eq (fields : List (EncodeField EncodeKind)) (record : UInt64) :
    recordText realText memory fields record =
      ((typedEncodeFields memory fields record).map Value.obj).bind (compact realText) := by
  rw [recordText, recordParts]
  cases typedEncodeFields memory fields record with
  | none => rfl
  | some members =>
    simp only [Option.bind_some, Option.map_some, compact]

/-- A record of which some field is written has parts. -/
theorem recordParts_ne_nil {record : UInt64}
    {parts : List Text}
    (hsome : ∃ field ∈ fields, field.ignored = false)
    (h : recordParts realText memory fields record = some parts) :
    parts ≠ [] := by
  induction fields with
  | nil => simp at hsome
  | cons field rest ih =>
    cases hignored : field.ignored with
    | false =>
      rw [recordParts_cons _ _ _ hignored] at h
      rintro rfl
      simp [Option.bind_eq_some_iff] at h
    | true =>
      have hrest : ∃ field ∈ rest, field.ignored = false := by
        obtain ⟨other, hmem, hother⟩ := hsome
        rcases List.mem_cons.mp hmem with rfl | hmem
        · rw [hignored] at hother
          exact absurd hother (by simp)
        · exact ⟨other, hmem, hother⟩
      rw [recordParts, typedEncodeFields_cons, if_pos hignored] at h
      exact ih hrest h

/-- A skeleton changes nothing in what is written. -/
theorem writes_record {fields : List (EncodeField EncodeKind)} {skel : Option Skel}
    {record : UInt64}
    (hvalues : ∀ field ∈ fields, field.ignored = false → ∀ value,
      Writes (directValue scan memory field.kind field.flags value false)
        ((typedEncodeValue memory field.kind field.flags value false).bind (compact realText)))
    (hskel : ∀ s ∈ skel, skelBuild fields = some s)
    (hsize : (skelTotal fields).all (fun total => decide (total < 2 ^ 32)) = true) :
    Writes (andThen (if skel.isNone then char 0x7B else done)
        (directFields scan memory skel fields 0 true record))
      (recordText realText memory fields record) := by
  have hfields := @writes_fields scan memory realText fields skel 0 true record hvalues
    fun s hs => (skelBuild_fits (hskel s hs) hsize).1
  have hopen : Writes (if skel.isNone then char 0x7B else done)
      (some (if skel.isNone then [0x7B] else [])) := by
    cases skel
    · exact writes_char _
    · exact writes_done
  refine (hopen.andThen hfields).of_eq ?_
  rw [recordText]
  cases hparts : recordParts realText memory fields record with
  | none => rfl
  | some parts =>
    cases skel with
    | none => simp [recordTail_eq, joinFrom]
    | some skel =>
      have hsome := (skelBuild_fits (hskel skel rfl) hsize).2
      cases parts with
      | nil => exact absurd rfl (recordParts_ne_nil hsome hparts)
      | cons part parts =>
        have hjoined := joinFrom_cons true part parts
        rw [joinFrom, if_pos rfl, if_pos rfl, List.nil_append] at hjoined
        simp [recordTail_cons, hjoined]

theorem floatFreeFields_iff :
    floatFreeFields fields = true ↔
      ∀ field ∈ fields, field.ignored = false → field.kind.floatFree = true := by
  induction fields with
  | nil => simp [floatFreeFields]
  | cons field rest ih =>
    rw [List.forall_mem_cons, ← ih]
    cases field
    simp [floatFreeFields, EncodeField.ignored, imp_iff_not_or]

theorem keysFitFields_iff :
    keysFitFields fields = true ↔
      ∀ field ∈ fields, field.ignored = false → field.kind.keysFit = true := by
  induction fields with
  | nil => simp [keysFitFields]
  | cons field rest ih =>
    rw [List.forall_mem_cons, ← ih]
    cases field
    simp [keysFitFields, EncodeField.ignored, imp_iff_not_or]

/-- The writer of a kind writes what the document says. -/
def KindWrites (scan : Scan) (memory : Memory) (realText : Float → Option Text)
    (kind : EncodeKind) : Prop :=
  ∀ flags value i64Slot, Writes (directValue scan memory kind flags value i64Slot)
    ((typedEncodeValue memory kind flags value i64Slot).bind (compact realText))

/-- The fields a kind of records has. -/
def EncodeKind.recordFields : EncodeKind → List (EncodeField EncodeKind)
  | .struct ⟨fields, _, _⟩ => fields
  | _ => []

theorem kindWrites_flat {kind : EncodeKind}
    (hstruct : kind.isStruct = false)
    (hlist : kind.isList = false)
    (hfree : kind.floatFree = true) :
    KindWrites scan memory realText kind := by
  intro flags value i64Slot
  cases kind with
  | other =>
    rw [directValue, typedEncodeValue]
    exact writes_stop (by decide)
  | bool =>
    rw [directValue, typedEncodeValue, Option.bind_some, compact]
    split_ifs
    · exact writes_raw _
    · exact writes_raw _
  | sint =>
    rw [directValue, typedEncodeValue]
    exact writes_sint _
  | uint =>
    rw [directValue, typedEncodeValue]
    exact writes_uint _
  | f32 => simp [EncodeKind.floatFree] at hfree
  | f64 => simp [EncodeKind.floatFree] at hfree
  | string =>
    rw [directValue, typedEncodeValue]
    cases memory.readString value i64Slot with
    | none => exact writes_stop (by decide)
    | some text => exact writes_string scan text
  | struct schema => simp [EncodeKind.isStruct] at hstruct
  | list element size => simp [EncodeKind.isList] at hlist

/-- A list of records, with a skeleton for the keys or without one. -/
theorem writes_records {skel : Option Skel}
    (hvalues : ∀ field ∈ fields, field.ignored = false →
      KindWrites scan memory realText field.kind)
    (hskel : ∀ s ∈ skel, skelBuild fields = some s)
    (hsize : (skelTotal fields).all (fun total => decide (total < 2 ^ 32)) = true) :
    Writes
      (directListWith memory size list fun item _ =>
        andThen (if skel.isNone then char 0x7B else done)
          (directFields scan memory skel fields 0 true item))
      ((encodeListWith memory size list fun item _ =>
        (typedEncodeFields memory fields item).map .obj).bind (compact realText)) := by
  refine writes_list fun item i64Slot => ?_
  rw [← recordText_eq]
  exact writes_record (fun field hfield hignored value =>
    hvalues field hfield hignored field.flags value false) hskel hsize

/-- Only records that repeat get a skeleton. -/
theorem repeated_skel {count : ℕ} :
    ∀ s ∈ (if 1 < count then skelBuild fields else none), skelBuild fields = some s := by
  intro s hs
  split_ifs at hs
  · exact hs
  · exact absurd hs (by simp)

theorem directValue_list {element : EncodeKind} {flags value : UInt64} {i64Slot : Bool}
    (h : element.isStruct = false) :
    directValue scan memory (.list element size) flags value i64Slot =
      directListWith memory size (memory.load value 8) fun item i64Slot =>
        if element.isList then stop .shape
        else directValue scan memory element (element.elementFlags size) item i64Slot := by
  cases element with
  | struct schema => simp [EncodeKind.isStruct] at h
  | _ => rw [directValue]; all_goals simp

theorem kindWrites_all (kind : EncodeKind)
    (hfree : kind.floatFree = true)
    (hkeys : kind.keysFit = true) :
    KindWrites scan memory realText kind ∧
      ∀ field ∈ kind.recordFields, field.ignored = false →
        KindWrites scan memory realText field.kind := by
  induction kind using EncodeKind.induction with
  | flat kind hstruct hlist =>
    refine ⟨kindWrites_flat hstruct hlist hfree, fun field hfield => ?_⟩
    cases kind <;> first
      | exact absurd hfield List.not_mem_nil
      | simp [EncodeKind.isStruct] at hstruct
  | struct schema ih =>
    obtain ⟨fields, rootArray, recordSize⟩ := schema
    rw [EncodeKind.floatFree, floatFreeFields_iff] at hfree
    rw [EncodeKind.keysFit, Bool.and_eq_true, keysFitFields_iff] at hkeys
    have hvalues : ∀ field ∈ fields, field.ignored = false →
        KindWrites scan memory realText field.kind := fun field hfield hignored =>
      (ih field hfield (hfree field hfield hignored) (hkeys.2 field hfield hignored)).1
    refine ⟨fun flags value i64Slot => ?_, hvalues⟩
    rw [directValue, typedEncodeValue, ← recordText_eq]
    exact @writes_record scan memory realText fields none value
      (fun field hfield hignored value => hvalues field hfield hignored field.flags value false)
      (fun s hs => absurd hs (by simp)) hkeys.1
  | list element size ih =>
    rw [EncodeKind.floatFree] at hfree
    rw [EncodeKind.keysFit] at hkeys
    obtain ⟨helement, hfields⟩ := ih hfree hkeys
    refine ⟨fun flags value i64Slot => ?_, fun field hfield => absurd hfield List.not_mem_nil⟩
    cases hstruct : element.isStruct with
    | false =>
      rw [directValue_list hstruct, typedEncodeValue]
      refine writes_list fun item i64Slot => ?_
      cases element.isList with
      | true => exact writes_stop (by decide)
      | false => exact helement (element.elementFlags size) item i64Slot
    | true =>
      cases element with
      | struct schema =>
        obtain ⟨fields, rootArray, recordSize⟩ := schema
        rw [EncodeKind.keysFit, Bool.and_eq_true] at hkeys
        rw [directValue]
        refine (writes_records hfields repeated_skel hkeys.1).of_eq ?_
        simp [EncodeKind.isList, typedEncodeValue, EncodeKind.recordFields]
      | _ => simp [EncodeKind.isStruct] at hstruct

end Json
end Beans
