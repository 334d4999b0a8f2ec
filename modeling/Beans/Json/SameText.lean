import Beans.Json.DirectDocument

/-!
# Both writers, one text

The direct writer hands out the text of the document, or appends it to the bytes of
a caller; where there is none, it leaves those bytes alone.  There is none exactly
where a record holds something that cannot be written.

**Input.**  A schema of records, lists, pointers, strings and integers, a record in its
storage, and the bytes that stand in the buffer already.

**Results.**
* `direct_encode`: the bytes, or the refusal, are those of the document, in both modes.
* `encode_sizeless`: a list of records without fields is refused.
-/

namespace Beans
namespace Json

open Direct

/-- What decides whether a record has a text. -/
inductive Leaf where
  | text (bytes : Text)
  | missing
  | sizeless
  | unsupported

/-- A string or key is well-formed if it encodes characters. -/
def Leaf.Sound : Leaf → Prop
  | text bytes => ∃ chars, Utf8.encode chars = bytes
  | _ => False

def listLeaves (memory : Memory) (elementSize list : UInt64)
    (item : UInt64 → Bool → List Leaf) : List Leaf :=
  if list = 0 then [.missing]
  else if elementSize = 0 then [.sizeless]
  else
    (List.range (memory.listLen list)).flatMap fun index =>
      item (memory.listItem list index) (memory.listStride list < 0)

mutual

/-- The strings, keys and pointers that are reached when a value is written. -/
def kindLeaves (memory : Memory) : EncodeKind → UInt64 → Bool → List Leaf
  | .other, _, _ => [.unsupported]
  | .bool, _, _ => []
  | .sint, _, _ => []
  | .uint, _, _ => []
  | .f32, _, _ => []
  | .f64, _, _ => []
  | .string, value, i64Slot =>
    match memory.readString value i64Slot with
    | some text => [.text text]
    | none => [.missing]
  | .struct ⟨fields, _, _⟩, value, _ => fieldLeaves memory fields value
  | .list element elementSize, value, _ =>
    listLeaves memory elementSize (memory.load value 8) fun item i64Slot =>
      if element.isList then [.unsupported] else kindLeaves memory element item i64Slot

def fieldLeaves (memory : Memory) : List (EncodeField EncodeKind) → UInt64 → List Leaf
  | [], _ => []
  | ⟨kind, flags, valueOffset, presenceOffset, primaryName, missingValue, boxValueOffset⟩ :: rest,
      record =>
      let field : EncodeField EncodeKind :=
        ⟨kind, flags, valueOffset, presenceOffset, primaryName, missingValue, boxValueOffset⟩
      if field.ignored then fieldLeaves memory rest record
      else
        .text primaryName ::
          ((match field.place memory record with
            | some value => kindLeaves memory kind value false
            | none => []) ++ fieldLeaves memory rest record)

end

/-- What has to be sound for the text to exist. -/
def rootLeaves (memory : Memory) (schema : EncodeSchema EncodeKind) (root : UInt64) :
    List Leaf :=
  if schema.rootArray then
    listLeaves memory schema.recordSize root fun item _ => fieldLeaves memory schema.fields item
  else fieldLeaves memory schema.fields root

variable {memory : Memory} {realText : Float → Option Text}

theorem stringText_isSome (text : Text) :
    (stringText text).isSome = true ↔ Leaf.Sound (.text text) := by
  rw [stringText, Option.isSome_map, Leaf.Sound]
  constructor
  · intro h
    obtain ⟨chars, hchars⟩ := Option.isSome_iff_exists.mp h
    exact ⟨chars, Utf8.encode_of_decode? hchars⟩
  · rintro ⟨chars, rfl⟩
    rw [Utf8.decode?_encode]
    rfl

theorem bind_isSome_cons {α β γ : Type} {x : Option α} {y : Option β} {f : α → β → γ} :
    (x.bind fun a => y.map fun b => f a b).isSome = (x.isSome && y.isSome) := by
  cases x <;> cases y <;> rfl

theorem items_isSome {item : ℕ → Option Value} {leaves : ℕ → List Leaf} {count index : ℕ}
    (h : ∀ i, ((item i).bind (compact realText)).isSome = true ↔
      ∀ leaf ∈ leaves i, leaf.Sound) :
    ((collectItems item count index).bind (compactItems realText)).isSome = true ↔
      ∀ i < count, ∀ leaf ∈ leaves (index + i), leaf.Sound := by
  induction count generalizing index with
  | zero => simp [collectItems, compactItems]
  | succ count ih =>
    have hsplit : ((collectItems item (count + 1) index).bind
        (compactItems realText)).isSome =
          (((item index).bind (compact realText)).isSome &&
            ((collectItems item count (index + 1)).bind (compactItems realText)).isSome) := by
      rw [collectItems]
      cases item index with
      | none => rfl
      | some value =>
        cases collectItems item count (index + 1) with
        | none => simp
        | some rest => exact bind_isSome_cons
    rw [hsplit, Bool.and_eq_true, h, ih]
    constructor
    · rintro ⟨hfirst, hrest⟩ i hi
      cases i with
      | zero => exact hfirst
      | succ i =>
        have := hrest i (by omega)
        rwa [show index + 1 + i = index + (i + 1) by omega] at this
    · intro hall
      refine ⟨hall 0 (by omega), fun i hi => ?_⟩
      have := hall (i + 1) (by omega)
      rwa [show index + (i + 1) = index + 1 + i by omega] at this

theorem list_isSome {item : UInt64 → Bool → Option Value}
    {leaves : UInt64 → Bool → List Leaf} {elementSize list : UInt64}
    (h : ∀ address i64Slot, ((item address i64Slot).bind (compact realText)).isSome = true ↔
      ∀ leaf ∈ leaves address i64Slot, leaf.Sound) :
    ((encodeListWith memory elementSize list item).bind (compact realText)).isSome = true ↔
      ∀ leaf ∈ listLeaves memory elementSize list leaves, leaf.Sound := by
  rw [encodeListWith, listLeaves]
  by_cases hnull : list = 0
  · rw [if_pos (Or.inl hnull), if_pos hnull]
    simp [Leaf.Sound]
  by_cases hsize : elementSize = 0
  · rw [if_pos (Or.inr hsize), if_neg hnull, if_pos hsize]
    simp [Leaf.Sound]
  · rw [if_neg (not_or.mpr ⟨hnull, hsize⟩), if_neg hnull, if_neg hsize]
    have hitems := @items_isSome realText _ _ (memory.listLen list) 0
      fun i => h (memory.listItem list i) (memory.listStride list < 0)
    have harray : (((collectItems (fun index => item (memory.listItem list index)
        (memory.listStride list < 0)) (memory.listLen list) 0).map Value.arr).bind
          (compact realText)).isSome =
        ((collectItems (fun index => item (memory.listItem list index)
          (memory.listStride list < 0)) (memory.listLen list) 0).bind
            (compactItems realText)).isSome := by
      cases collectItems (fun index => item (memory.listItem list index)
          (memory.listStride list < 0)) (memory.listLen list) 0 with
      | none => rfl
      | some items =>
        simp only [Option.map_some, Option.bind_some, compact, Option.isSome_map]
    rw [harray, hitems]
    simp only [zero_add, List.forall_mem_flatMap, List.mem_range]

/-- The values of a kind have a text where what they hold is sound. -/
def KindSounds (memory : Memory) (realText : Float → Option Text) (kind : EncodeKind) : Prop :=
  ∀ flags value i64Slot,
    ((typedEncodeValue memory kind flags value i64Slot).bind (compact realText)).isSome = true ↔
      ∀ leaf ∈ kindLeaves memory kind value i64Slot, leaf.Sound

theorem fieldLeaves_cons (field : EncodeField EncodeKind)
    (rest : List (EncodeField EncodeKind)) (record : UInt64) :
    fieldLeaves memory (field :: rest) record =
      if field.ignored then fieldLeaves memory rest record
      else
        .text field.primaryName ::
          ((match field.place memory record with
            | some value => kindLeaves memory field.kind value false
            | none => []) ++ fieldLeaves memory rest record) := by
  cases field
  rw [fieldLeaves]

variable {fields : List (EncodeField EncodeKind)} {record : UInt64} {target : Target}

theorem parts_isSome
    (h : ∀ field ∈ fields, field.ignored = false → KindSounds memory realText field.kind) :
    (recordParts realText memory fields record).isSome = true ↔
      ∀ leaf ∈ fieldLeaves memory fields record, leaf.Sound := by
  induction fields with
  | nil => simp [recordParts, typedEncodeFields, compactMembers, fieldLeaves]
  | cons field rest ih =>
    rw [List.forall_mem_cons] at h
    rw [fieldLeaves_cons]
    cases hignored : field.ignored with
    | true =>
      rw [recordParts, typedEncodeFields_cons, if_pos hignored, if_pos rfl]
      exact ih h.2
    | false =>
      have hvalue : ((fieldValue memory field record).bind (compact realText)).isSome = true ↔
          ∀ leaf ∈ (match field.place memory record with
            | some value => kindLeaves memory field.kind value false
            | none => []), leaf.Sound := by
        rw [fieldValue]
        cases field.place memory record with
        | none => simp [compact]
        | some value => exact h.1 hignored field.flags value false
      rw [recordParts_cons _ _ _ hignored, if_neg (by simp), List.forall_mem_cons,
        List.forall_mem_append, ← hvalue, ← ih h.2, ← stringText_isSome]
      cases stringText field.primaryName <;>
        cases (fieldValue memory field record).bind (compact realText) <;>
          cases recordParts realText memory rest record <;> simp

theorem record_isSome
    (h : ∀ field ∈ fields, field.ignored = false → KindSounds memory realText field.kind) :
    (((typedEncodeFields memory fields record).map Value.obj).bind
        (compact realText)).isSome = true ↔
      ∀ leaf ∈ fieldLeaves memory fields record, leaf.Sound := by
  rw [← recordText_eq, recordText, Option.isSome_map]
  exact parts_isSome h

theorem kindSounds (kind : EncodeKind) (hfree : kind.floatFree = true) :
    KindSounds memory realText kind := by
  induction kind using EncodeKind.induction with
  | flat kind hstruct hlist =>
    intro flags value i64Slot
    cases kind with
    | f32 => simp [EncodeKind.floatFree] at hfree
    | f64 => simp [EncodeKind.floatFree] at hfree
    | struct schema => simp [EncodeKind.isStruct] at hstruct
    | list element size => simp [EncodeKind.isList] at hlist
    | string =>
      rw [typedEncodeValue, kindLeaves]
      cases memory.readString value i64Slot with
      | none => simp [Leaf.Sound]
      | some text =>
        rw [Option.map_some, Option.bind_some, compact, stringText_isSome]
        simp
    | _ => simp [typedEncodeValue, kindLeaves, compact, Leaf.Sound]
  | struct schema ih =>
    obtain ⟨fields, rootArray, recordSize⟩ := schema
    rw [EncodeKind.floatFree, floatFreeFields_iff] at hfree
    intro flags value i64Slot
    rw [typedEncodeValue, kindLeaves]
    exact record_isSome fun field hfield hignored => ih field hfield (hfree field hfield hignored)
  | list element size ih =>
    rw [EncodeKind.floatFree] at hfree
    intro flags value i64Slot
    rw [typedEncodeValue, kindLeaves]
    refine list_isSome fun item i64Slot => ?_
    cases element.isList with
    | true => simp [Leaf.Sound]
    | false => exact ih hfree (element.elementFlags size) item i64Slot

/-- A document without floats has a text where all it holds is sound. -/
theorem documentText_isSome {schema : EncodeSchema EncodeKind}
    (hfree : (EncodeKind.struct schema).floatFree = true)
    (root : UInt64) :
    (documentText realText memory schema root).isSome = true ↔
      ∀ leaf ∈ rootLeaves memory schema root, leaf.Sound := by
  obtain ⟨fields, rootArray, recordSize⟩ := schema
  rw [EncodeKind.floatFree, floatFreeFields_iff] at hfree
  have hfields : ∀ field ∈ fields, field.ignored = false →
      KindSounds memory realText field.kind := fun field hfield hignored =>
    kindSounds field.kind (hfree field hfield hignored)
  rw [documentText, typedEncodeRoot, rootLeaves]
  cases rootArray with
  | false => exact record_isSome hfields
  | true =>
    rw [if_pos rfl, if_pos rfl]
    refine list_isSome fun item i64Slot => ?_
    rw [typedEncodeObject]
    exact record_isSome hfields

variable {scan : Scan} {schema : EncodeSchema EncodeKind}

theorem schema_writes (hfree : (EncodeKind.struct schema).floatFree = true)
    (hkeys : (EncodeKind.struct schema).keysFit = true) :
    (∀ field ∈ schema.fields, field.ignored = false →
      KindWrites scan memory realText field.kind) ∧
      (skelTotal schema.fields).all (fun total => decide (total < 2 ^ 32)) = true := by
  refine ⟨?_, ?_⟩
  · exact (kindWrites_all (.struct schema) hfree hkeys).2
  · obtain ⟨fields, rootArray, recordSize⟩ := schema
    rw [EncodeKind.keysFit, Bool.and_eq_true] at hkeys
    exact hkeys.1

/-- A record is written the same with a skeleton and without. -/
theorem writes_object {skel : Option Skel}
    (hfree : (EncodeKind.struct schema).floatFree = true)
    (hkeys : (EncodeKind.struct schema).keysFit = true)
    (hskel : ∀ s ∈ skel, skelBuild schema.fields = some s)
    (record : UInt64) :
    Writes (directObject scan memory schema skel record)
      ((typedEncodeObject memory schema record).bind (compact realText)) := by
  obtain ⟨hvalues, hsize⟩ := schema_writes hfree hkeys
  rw [directObject, typedEncodeObject, ← recordText_eq]
  exact writes_record (fun field hfield hignored value =>
    hvalues field hfield hignored field.flags value false) hskel hsize

theorem writes_root (hfree : (EncodeKind.struct schema).floatFree = true)
    (hkeys : (EncodeKind.struct schema).keysFit = true) (root : UInt64) :
    Writes (directRoot scan memory schema root)
      (documentText realText memory schema root) := by
  rw [directRoot, documentText, typedEncodeRoot]
  split_ifs with hlist hrepeated
  · exact writes_list fun item _ => writes_object hfree hkeys
      (fun s hs => hs) item
  · exact writes_list fun item _ => writes_object hfree hkeys
      (fun s hs => absurd hs (by simp)) item
  · exact writes_object hfree hkeys (fun s hs => absurd hs (by simp)) root

/-- A caller hands over a buffer that is never without room. -/
def Target.Valid : Target → Prop
  | own => True
  | caller store len => len ≤ store.length ∧ 0 < store.length

def Target.isCaller : Target → Bool
  | own => false
  | caller _ _ => true

theorem start_spec (h : target.Valid) (first : ℕ) :
    ((target.start first).1 = .written ∧ (target.start first).2.Valid ∧
      (target.start first).2.bytes = target.before ∧
      (target.start first).2.append = target.isCaller) ∨
    ((target.start first).1 = .panic ∧ reserveLimit < target.before.length + first) := by
  cases target with
  | own =>
    refine Or.inl ⟨rfl, ⟨Nat.zero_le _, fun h => absurd h (by simp [Target.start])⟩, rfl, rfl⟩
  | caller store len =>
    obtain ⟨hlen, hroom⟩ := h
    have hbefore : (Target.caller store len).before.length = len := by
      rw [Target.before, List.length_take, Nat.min_eq_left hlen]
    rw [Target.start, Direct.reserve, hbefore]
    split_ifs with hlarge
    · exact Or.inr ⟨rfl, hlarge⟩
    · obtain ⟨-, fresh, hfresh⟩ := bytesGrow_spec hroom (len + first)
      refine Or.inl ⟨rfl, ⟨?_, fun _ => ?_⟩, ?_, rfl⟩
      · rw [hfresh, List.length_append]
        exact hlen.trans (Nat.le_add_right _ _)
      · rw [hfresh, List.length_append]
        exact hroom.trans_le (Nat.le_add_right _ _)
      · rw [Direct.bytes, hfresh]
        exact List.take_append_of_le_length hlen

/-- What was written is handed out. -/
theorem commit_spec {out : Direct} (h : out.Valid) :
    commit out = (.ok, out.bytes) ∨
      (commit out).1 = .panic ∧ reserveLimit < out.len := by
  rw [commit]
  split_ifs with happend
  · rw [Direct.reserve]
    split_ifs with hlarge
    · exact Or.inr ⟨rfl, hlarge⟩
    · have hsame : bytesGrow out.store out.len = out.store := by
        rw [bytesGrow, if_pos h.written]
      left
      simp only [hsame, Direct.caller, Direct.bytes]
  · exact Or.inl rfl

/-- The bytes of a caller are taken back to what they were. -/
theorem rollback_spec {target : Target} {status : EncodeStatus} {out : Direct} {tail : Text}
    (htarget : target.Valid)
    (hout : out.Valid)
    (hbytes : out.bytes = target.before ++ tail) :
    rollback target status out = (status, target.before) ∨
      (rollback target status out).1 = .panic ∧ reserveLimit < target.before.length := by
  cases target with
  | own => exact Or.inl rfl
  | caller store len =>
    have hbefore : (Target.caller store len).before.length = len := by
      rw [Target.before, List.length_take, Nat.min_eq_left htarget.1]
    have hlength := hout.length_bytes
    rw [hbytes, List.length_append, hbefore] at hlength
    rw [rollback, Direct.reserve, hbefore]
    split_ifs with hlarge
    · exact Or.inr ⟨rfl, hlarge⟩
    · left
      have hkept : out.store.take len = (Target.caller store len).before := by
        have htaken : out.bytes.take len = out.store.take len := by
          rw [Direct.bytes, List.take_take, Nat.min_eq_left (by omega)]
        rw [← htaken, hbytes]
        exact List.take_left' hbefore
      have hsame : bytesGrow out.store len = out.store := by
        have := hout.written
        rw [bytesGrow, if_pos (by omega)]
      simp only [hsame, Direct.caller, hkept]

/-- The run met the limit of what a buffer may hold. -/
def OutOfRoom (memory : Memory) (schema : EncodeSchema EncodeKind) (root : UInt64)
    (target : Target) (text : Text) (status : EncodeStatus) : Prop :=
  (status = .memory ∨ status = .panic) ∧
    reserveLimit <
      target.before.length + max (directFirstCap memory schema root) text.length

/-- What becomes of the buffer at the end of a run. -/
def ending (target : Target) : Wrote × Direct → EncodeStatus × Bytes
  | (.written, out) => commit out
  | (.invalid, out) => rollback target .invalid out
  | (.memory, out) => rollback target .memory out
  | (.shape, out) => rollback target .memory out
  | (.panic, out) => (.panic, out.caller)

theorem directEncode_eq (root : UInt64) (target : Target) :
    directEncode scan memory schema root target =
      ending target
        (andThen (fun _ => target.start (directFirstCap memory schema root))
          (directRoot scan memory schema root)
          { store := [], len := 0, append := false, held := 0 }) := by
  rw [directEncode]
  split <;> rename_i hrun <;> rw [hrun, ending]

theorem ending_stopped {stopped : Wrote × Direct} {tail : Text}
    (htarget : target.Valid)
    (hstop : stopped.1 ≠ .written)
    (hvalid : stopped.2.Valid)
    (hbytes : stopped.2.bytes = target.before ++ tail) :
    (ending target stopped).1 ≠ .ok ∧
      ((ending target stopped).1 ≠ .panic → (ending target stopped).2 = target.before) ∧
      (stopped.1.isFull = true →
        (ending target stopped).1 = .memory ∨ (ending target stopped).1 = .panic) := by
  obtain ⟨wrote, out⟩ := stopped
  have hback : ∀ status : EncodeStatus, _ := fun status =>
    @rollback_spec target status out tail htarget hvalid hbytes
  cases wrote with
  | written => exact absurd rfl hstop
  | panic => exact ⟨by simp [ending], fun h => absurd rfl h, fun _ => Or.inr rfl⟩
  | _ =>
    rw [ending]
    rcases hback _ with hsame | ⟨hpanic, -⟩
    · rw [hsame]
      simp [Wrote.isFull]
    · rw [hpanic]
      simp

/-- A run writes its text, or leaves the bytes it was given alone. -/
theorem ending_spec {w : Writer} {text : Option Text}
    (htarget : target.Valid)
    (hw : Writes w text)
    (first : ℕ)
    (result : EncodeStatus × Bytes)
    (hresult : result = ending target (andThen (fun _ => target.start first) w
      { store := [], len := 0, append := false, held := 0 })) :
    (result.1 ≠ .ok → result.1 ≠ .panic → result.2 = target.before) ∧
      (∀ written, text = some written → result = (.ok, target.before ++ written) ∨
        (result.1 = .memory ∨ result.1 = .panic) ∧
          reserveLimit < target.before.length + max first written.length) ∧
      (text = none → result.1 ≠ .ok) := by
  rcases start_spec htarget first with ⟨hwritten, hvalid, hbytes, -⟩ | ⟨hpanic, hlarge⟩
  · rw [andThen_written hwritten] at hresult
    generalize (target.start first).2 = out at hvalid hbytes hresult
    have hlen : out.len = target.before.length := by rw [← hvalid.length_bytes, hbytes]
    cases text with
    | none =>
      obtain ⟨tail, htail, hstop⟩ := hw out hvalid
      obtain ⟨hfail, hkept, -⟩ := ending_stopped htarget hstop htail.valid
        (by rw [htail.bytes, hbytes])
      rw [hresult]
      exact ⟨fun _ => hkept, fun written h => absurd h (by simp), fun _ => hfail⟩
    | some text =>
      obtain ⟨tail, htail, ⟨hdone, rfl⟩ | ⟨hfull, hlarge⟩⟩ := hw out hvalid
      · have hwrote : w out = (.written, (w out).2) := Prod.ext hdone rfl
        rw [hwrote, ending] at hresult
        have hlength : (w out).2.len = target.before.length + tail.length := by
          rw [← htail.valid.length_bytes, htail.bytes, hbytes, List.length_append]
        rcases commit_spec htail.valid with hok | ⟨hpanic, hlarge⟩
        · rw [hresult, hok, htail.bytes, hbytes]
          refine ⟨fun h => absurd rfl h, fun written h => ?_, fun h => absurd h (by simp)⟩
          rw [Option.some.inj h]
          exact Or.inl rfl
        · rw [hresult]
          refine ⟨fun _ h => absurd hpanic h, fun written h => ?_, fun h => absurd h (by simp)⟩
          rw [← Option.some.inj h]
          exact Or.inr ⟨Or.inr hpanic, by omega⟩
      · obtain ⟨-, hkept, hstatus⟩ := ending_stopped htarget (isFull_ne_written hfull)
          htail.valid (by rw [htail.bytes, hbytes])
        rw [hresult]
        refine ⟨fun _ => hkept, fun written h => ?_, fun h => absurd h (by simp)⟩
        rw [← Option.some.inj h]
        exact Or.inr ⟨hstatus hfull, by omega⟩
  · rw [andThen_stopped (by rw [hpanic]; simp)] at hresult
    have hstatus : result.1 = .panic := by
      rw [hresult, show target.start first = (.panic, (target.start first).2) from
        Prod.ext hpanic rfl, ending]
    refine ⟨fun _ h => absurd hstatus h, fun written _ => ?_, fun _ => by rw [hstatus]; simp⟩
    exact Or.inr ⟨Or.inr hstatus, by omega⟩

/-- The direct writer hands out the text of the document: it fails where there is none,
and there is none where a string is not well-formed, a pointer is missing, or a shape
has no document. -/
theorem direct_encode {target : Target}
    (hfree : (EncodeKind.struct schema).floatFree = true)
    (hkeys : (EncodeKind.struct schema).keysFit = true)
    (htarget : target.Valid)
    (scan : Scan)
    (memory : Memory)
    (realText : Float → Option Text)
    (root : UInt64) :
    (∀ text, documentText realText memory schema root = some text →
      directEncode scan memory schema root target = (.ok, target.before ++ text) ∨
        OutOfRoom memory schema root target text
          (directEncode scan memory schema root target).1) ∧
      (documentText realText memory schema root = none →
        (directEncode scan memory schema root target).1 ≠ .ok) ∧
      (documentText realText memory schema root = none ↔
        ∃ leaf ∈ rootLeaves memory schema root, ¬ leaf.Sound) ∧
      ((directEncode scan memory schema root target).1 ≠ .ok →
        (directEncode scan memory schema root target).1 ≠ .panic →
          (directEncode scan memory schema root target).2 = target.before) ∧
      (∀ skel ∈ [none, skelBuild schema.fields], ∀ record,
        Writes (directObject scan memory schema skel record)
          ((typedEncodeObject memory schema record).bind (compact realText))) ∧
      ∀ text, plainSpan scan text = plainSpan .bytes text := by
  obtain ⟨hkept, hsome, hnone⟩ := ending_spec htarget
    (@writes_root memory realText scan schema hfree hkeys root)
    (directFirstCap memory schema root) _ (directEncode_eq root target)
  refine ⟨hsome, hnone, ?_, hkept, fun skel hskel record => ?_, fun text => ?_⟩
  · rw [← Option.not_isSome_iff_eq_none, documentText_isSome hfree root]
    push Not
    rfl
  · refine writes_object hfree hkeys (fun s hs => ?_) record
    rcases List.mem_pair.mp hskel with rfl | rfl
    · exact absurd hs (by simp)
    · exact hs
  · rw [plainSpan_eq, plainSpan_eq]

/-- A record with a list of two records of a string and a byte. -/
def nestedSchema : EncodeSchema EncodeKind :=
  ⟨[⟨.list (.struct ⟨[⟨.string, 0, 0, 0, ascii "s", 0, 0⟩, ⟨.uint, 2048, 8, 0, ascii "n", 0, 0⟩],
    false, 16⟩) 16, 0, 0, 0, ascii "items", 0, 0⟩], false, 8⟩

/-- The list lies at 64, its records at 128, and their strings at 200 and 208. -/
def nestedMemory : Memory where
  byte address :=
    ([(16, 64), (64, 128), (72, 2), (88, 16), (128, 200), (136, 7), (144, 208), (152, 255),
      (200, 97), (201, 34), (202, 10), (208, 195), (209, 169)].lookup address).getD 0
  stringLen string := if string = 200 then 3 else 2

/-- The text of two items, with escapes in the first. -/
def nestedText : Text :=
  ascii "\x7b\"items\":[\x7b\"s\":\"a\\\"\\n\",\"n\":7\x7d,\x7b\"s\":\"" ++ [195, 169] ++
    ascii "\",\"n\":255\x7d]\x7d"

/-- Behind a byte of the caller the records are written with their escapes. -/
theorem direct_encode_nested :
    directEncode .words nestedMemory nestedSchema 16 (.caller [0x78, 0] 1) =
      (.ok, [0x78] ++ nestedText) := by
  have htext : documentText (fun _ => none) nestedMemory nestedSchema 16 = some nestedText := by
    decide +kernel
  have hroom : ¬ reserveLimit < (Target.caller [0x78, 0] 1).before.length +
      max (directFirstCap nestedMemory nestedSchema 16) nestedText.length := by
    decide +kernel
  have htarget : (Target.caller [0x78, 0] 1).Valid := by
    unfold Target.Valid
    decide
  rcases (direct_encode (by decide) (by decide) htarget .words nestedMemory (fun _ => none)
    16).1 _ htext with h | ⟨-, h⟩
  · exact h
  · exact absurd h hroom

/-- A list of records without fields is refused, though nothing in it is missing. -/
theorem encode_sizeless :
    ¬ ∀ (scan : Scan) (memory : Memory) (schema : EncodeSchema EncodeKind) (root : UInt64)
        (target : Target),
      (EncodeKind.struct schema).floatFree = true → (EncodeKind.struct schema).keysFit = true →
        target.Valid →
          ((directEncode scan memory schema root target).1 ≠ .ok ↔
            ∃ leaf ∈ rootLeaves memory schema root,
              leaf = .missing ∨ ∃ bytes, leaf = .text bytes ∧ ¬ leaf.Sound) := by
  intro hall
  have hfails := (hall .bytes ⟨fun _ => 0, fun _ => 0⟩ ⟨[], true, 0⟩ 16 .own
    (by decide) (by decide) trivial).mp (by decide)
  obtain ⟨leaf, hleaf, hbad⟩ := hfails
  have hsizeless : leaf = .sizeless := List.mem_singleton.mp hleaf
  rw [hsizeless] at hbad
  rcases hbad with hbad | ⟨bytes, hbad, -⟩
  · exact Leaf.noConfusion hbad
  · exact Leaf.noConfusion hbad

end Json
end Beans
