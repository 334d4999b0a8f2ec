import Beans.Bindgen.JsonTexts

/-!
# The JSON writer of the language server

`lsp_dump_json` writes a value with as few escapes as its reader needs.  A
control character for which it has no escape becomes a question mark, in names
as in strings; everything else is read back as it was.

**Results.**
* `json_reads_and_writes`: texts are read up to the end of their value, written values are
  read back, and on any bytes the reader stays inside the source and ends.
* `unicode_escape_lost`: the two escapes of an editor's text that are read as a question mark.
-/

namespace Beans
namespace Lsp

open Bindgen JsonGrammar

/-- The five escapes there are, and a question mark for any other control character. -/
def escapeByte (byte : UInt8) : Text :=
  if byte = 34 then [92, 34]
  else if byte = 92 then [92, 92]
  else if byte = 10 then [92, 110]
  else if byte = 13 then [92, 114]
  else if byte = 9 then [92, 116]
  else if byte < 32 then [63]
  else [byte]

def lspJsonEscape (value : Text) : Text := value.flatMap escapeByte

def lspQuote (value : Text) : Text := 34 :: (lspJsonEscape value ++ [34])

def lspMember (name value : Text) : Text := lspQuote name ++ 58 :: value

/-- `texts.join(",")` -/
def joinCommas : List Text → Text
  | [] => []
  | [text] => text
  | text :: texts => text ++ 44 :: joinCommas texts

def lspObject (fields : List Text) : Text := 123 :: (joinCommas fields ++ [125])

def lspArray (items : List Text) : Text := 91 :: (joinCommas items ++ [93])

mutual

/-- The text of a value, without blanks. -/
def lspDumpJson : BindgenJson → Text
  | .string text => lspQuote text
  | .number text => text
  | .bool flag => if flag then ascii "true" else ascii "false"
  | .null => ascii "null"
  | .array items => lspArray (dumpItems items)
  | .object fields => lspObject (dumpFields fields)

def dumpItems : List BindgenJson → List Text
  | [] => []
  | item :: items => lspDumpJson item :: dumpItems items

def dumpFields : List (Text × BindgenJson) → List Text
  | [] => []
  | (name, value) :: fields => lspMember name (lspDumpJson value) :: dumpFields fields

end

mutual

/-- A JSON value: strings and names are UTF-8, numbers are spelled as such, and
no name of an object stands twice. -/
def Valid : BindgenJson → Prop
  | .string text => Utf8.WellFormed text
  | .number text => IsNumber text
  | .bool _ => True
  | .null => True
  | .array items => ValidItems items
  | .object fields => (fields.map Prod.fst).Nodup ∧ ValidFields fields

def ValidItems : List BindgenJson → Prop
  | [] => True
  | item :: items => Valid item ∧ ValidItems items

def ValidFields : List (Text × BindgenJson) → Prop
  | [] => True
  | (name, value) :: fields => Utf8.WellFormed name ∧ Valid value ∧ ValidFields fields

end

/-- A control character with no escape. -/
def Unprintable (b : UInt8) : Prop := b < 32 ∧ b ≠ 9 ∧ b ≠ 10 ∧ b ≠ 13

instance (b : UInt8) : Decidable (Unprintable b) :=
  inferInstanceAs (Decidable (b < 32 ∧ b ≠ 9 ∧ b ≠ 10 ∧ b ≠ 13))

/-- What is left of a text once it was written. -/
def printedText (text : Text) : Text := text.map fun b => if Unprintable b then 63 else b

mutual

/-- The value with every unprintable character replaced, and the last of the
members whose names become equal. -/
def printed : BindgenJson → BindgenJson
  | .string text => .string (printedText text)
  | .number text => .number text
  | .bool flag => .bool flag
  | .null => .null
  | .array items => .array (printedItems items)
  | .object fields => .object (lastMembers (printedFields fields))

def printedItems : List BindgenJson → List BindgenJson
  | [] => []
  | item :: items => printed item :: printedItems items

def printedFields : List (Text × BindgenJson) → List (Text × BindgenJson)
  | [] => []
  | (name, value) :: fields => (printedText name, printed value) :: printedFields fields

end

mutual

/-- No string or name holds an unprintable character. -/
def Printable : BindgenJson → Prop
  | .string text => ∀ b ∈ text, ¬ Unprintable b
  | .number _ => True
  | .bool _ => True
  | .null => True
  | .array items => PrintableItems items
  | .object fields => PrintableFields fields

def PrintableItems : List BindgenJson → Prop
  | [] => True
  | item :: items => Printable item ∧ PrintableItems items

def PrintableFields : List (Text × BindgenJson) → Prop
  | [] => True
  | (name, value) :: fields =>
    (∀ b ∈ name, ¬ Unprintable b) ∧ Printable value ∧ PrintableFields fields

end

/-- How the writer spells a character. -/
def charPart (c : Char) : Part :=
  if hquote : c = '"' then .escape .quote
  else if hbackslash : c = '\\' then .escape .backslash
  else if c = '\n' then .escape .newline
  else if c = '\r' then .escape .carriageReturn
  else if c = '\t' then .escape .tab
  else if h : 32 ≤ c.val.toNat then .plain c ⟨h, hquote, hbackslash⟩
  else .plain '?' ⟨by decide, by decide, by decide⟩

/-- What one character becomes, spelled, read back and cleaned. -/
structure Spelled (c : Char) : Prop where
  known : Known (charPart c)
  bytes : (charPart c).bytes = (String.utf8EncodeChar c).flatMap escapeByte
  reads : String.utf8EncodeChar (readPart (charPart c)) = printedText (String.utf8EncodeChar c)

variable {bytes text : Text} {b : UInt8} {tree : Tree}

theorem printedText_eq (h : ∀ b ∈ text, ¬ Unprintable b) :
    printedText text = text := by
  rw [printedText]
  refine (List.map_congr_left fun b hb => ?_).trans (List.map_id text)
  rw [if_neg (h b hb)]
  rfl

/-- A byte that is written as it stands. -/
def Plain (b : UInt8) : Prop := 32 ≤ b.toNat ∧ b ≠ 34 ∧ b ≠ 92

theorem Plain.not_unprintable (h : Plain b) : ¬ Unprintable b := by
  intro hb
  have hlow := UInt8.lt_iff_toNat_lt.mp hb.1
  exact absurd hlow (not_lt.mpr h.1)

theorem escapeByte_plain (h : Plain b) : escapeByte b = [b] := by
  obtain ⟨hlow, hquote, hbackslash⟩ := h
  have hne : ∀ k : UInt8, k.toNat < 32 → b ≠ k := by
    rintro k hk rfl
    omega
  have hnot : ¬ b < 32 := by
    rw [UInt8.lt_iff_toNat_lt]
    exact not_lt.mpr hlow
  rw [escapeByte, if_neg hquote, if_neg hbackslash, if_neg (hne 10 (by decide)),
    if_neg (hne 13 (by decide)), if_neg (hne 9 (by decide)), if_neg hnot]

theorem spelled_plain {c : Char} (h : Unescaped c)
    (hall : ∀ b ∈ String.utf8EncodeChar c, Plain b) : Spelled c := by
  have hne : ∀ d : Char, d.val.toNat < 32 → c ≠ d := by
    rintro d hd rfl
    exact absurd h.1 (not_le.mpr hd)
  have hpart : charPart c = .plain c h := by
    rw [charPart, dif_neg h.2.1, dif_neg h.2.2, if_neg (hne '\n' (by decide)),
      if_neg (hne '\r' (by decide)), if_neg (hne '\t' (by decide)), dif_pos h.1]
  refine ⟨?_, ?_, ?_⟩
  · rw [hpart]
    trivial
  · rw [hpart, Part.bytes, List.flatMap_congr fun b hb => escapeByte_plain (hall b hb)]
    exact (List.flatMap_singleton' _).symm
  · rw [hpart, readPart, printedText_eq fun b hb => (hall b hb).not_unprintable]

theorem spelled_control {c : Char} (h : c.val.toNat < 32) : Spelled c := by
  obtain ⟨n, hn⟩ : ∃ n, n = c.val.toNat := ⟨_, rfl⟩
  have hc : c = Char.ofNat n := by
    rw [hn]
    exact (Char.ofNat_toNat c).symm
  rw [← hn] at h
  subst hc
  clear hn
  interval_cases n
  all_goals exact ⟨trivial, rfl, rfl⟩

theorem spelled (c : Char) : Spelled c := by
  by_cases hcontrol : c.val.toNat < 32
  · exact spelled_control hcontrol
  · by_cases hquote : c = '"'
    · subst hquote
      exact ⟨trivial, rfl, rfl⟩
    · by_cases hbackslash : c = '\\'
      · subst hbackslash
        exact ⟨trivial, rfl, rfl⟩
      · refine spelled_plain ⟨not_lt.mp hcontrol, hquote, hbackslash⟩ fun b hb => ?_
        by_cases hascii : c.val.toNat ≤ 0x7F
        · rw [Utf8.encode_of_le hascii, List.mem_singleton] at hb
          have hbyte : b.toNat = c.val.toNat := by
            rw [hb, UInt8.toNat_ofNat']
            omega
          refine ⟨by omega, fun heq => hquote ?_, fun heq => hbackslash ?_⟩
          · rw [heq] at hbyte
            exact Char.ext (UInt32.toNat_inj.mp hbyte.symm)
          · rw [heq] at hbyte
            exact Char.ext (UInt32.toNat_inj.mp hbyte.symm)
        · have hhigh := Utf8.le_of_mem_encode (not_le.mp hascii) hb
          refine ⟨by omega, ?_, ?_⟩
          · rintro rfl
            exact absurd hhigh (by decide)
          · rintro rfl
            exact absurd hhigh (by decide)

/-- A string is written as the parts of its characters, and read back cleaned. -/
theorem lspQuote_spells (h : Utf8.WellFormed text) :
    ∃ parts, (∀ part ∈ parts, Known part) ∧ lspQuote text = stringBytes parts ∧
      readParts parts = printedText text := by
  obtain ⟨chars, rfl⟩ := h
  refine ⟨chars.map charPart, ?_, ?_, ?_⟩
  · intro part hpart
    obtain ⟨c, -, rfl⟩ := List.mem_map.mp hpart
    exact (spelled c).known
  · have hbytes : lspJsonEscape (Utf8.encode chars) =
        (chars.map charPart).flatMap Part.bytes := by
      induction chars with
      | nil => rfl
      | cons c chars ih =>
        rw [lspJsonEscape] at ih
        rw [lspJsonEscape, Utf8.encode, List.flatMap_cons, List.flatMap_append, ← Utf8.encode,
          ih, List.map_cons, List.flatMap_cons, (spelled c).bytes]
    rw [lspQuote, stringBytes, hbytes]
  · induction chars with
    | nil => rfl
    | cons c chars ih =>
      rw [readParts, Utf8.encode] at ih
      rw [readParts, List.map_cons, List.map_cons, Utf8.encode, List.flatMap_cons, ih,
        (spelled c).reads]
      exact List.map_append.symm

theorem joinCommas_cons {texts : List Text} (h : texts ≠ []) :
    joinCommas (text :: texts) = text ++ 44 :: joinCommas texts := by
  cases texts with
  | nil => exact absurd rfl h
  | cons next texts => rfl

theorem dumpItems_ne {items : List BindgenJson} (h : items ≠ []) : dumpItems items ≠ [] := by
  cases items with
  | nil => exact absurd rfl h
  | cons item items =>
    rw [dumpItems]
    exact List.cons_ne_nil _ _

theorem dumpFields_ne {fields : List (Text × BindgenJson)} (h : fields ≠ []) :
    dumpFields fields ≠ [] := by
  cases fields with
  | nil => exact absurd rfl h
  | cons field fields =>
    obtain ⟨name, value⟩ := field
    rw [dumpFields]
    exact List.cons_ne_nil _ _

theorem spells_item (h : Spells Known (.value tree) bytes) :
    Spells Known (.item tree) bytes := by
  have hitem := Spells.item spaces_nil h spaces_nil
  rw [List.nil_append, List.append_nil] at hitem
  exact hitem

theorem spells_member {parts : List Part}
    (hparts : ∀ part ∈ parts, Known part) (h : Spells Known (.value tree) bytes) :
    Spells Known (.member parts tree) (stringBytes parts ++ 58 :: bytes) :=
  Spells.member spaces_nil hparts spaces_nil (spells_item h)

mutual

/-- What is written is a text, and the value it is read as. -/
theorem dump_spells : ∀ v : BindgenJson, Valid v →
    ∃ tree, Spells Known (.value tree) (lspDumpJson v) ∧ readTree tree = printed v
  | .string text, h => by
      rw [Valid] at h
      obtain ⟨parts, hknown, hquote, hreads⟩ := lspQuote_spells h
      refine ⟨.string parts, ?_, ?_⟩
      · rw [lspDumpJson, hquote]
        exact .string hknown
      · rw [readTree, printed, hreads]
  | .number text, h => by
      rw [Valid] at h
      refine ⟨.number text, ?_, ?_⟩
      · rw [lspDumpJson]
        exact .number h
      · rw [readTree, printed]
  | .bool flag, _ => by
      refine ⟨.bool flag, ?_, ?_⟩
      · rw [lspDumpJson]
        cases flag with
        | false => exact .falseWord
        | true => exact .trueWord
      · rw [readTree, printed]
  | .null, _ => by
      refine ⟨.null, ?_, ?_⟩
      · rw [lspDumpJson]
        exact .null
      · rw [readTree, printed]
  | .array items, h => by
      rw [Valid] at h
      by_cases hnil : items = []
      · subst hnil
        refine ⟨.array [], ?_, ?_⟩
        · rw [lspDumpJson, dumpItems]
          exact .emptyArray spaces_nil
        · rw [readTree, printed, readTrees, printedItems]
      · obtain ⟨trees, htrees, hreads⟩ := dumpItems_spell items h hnil
        refine ⟨.array trees, ?_, ?_⟩
        · rw [lspDumpJson]
          exact .array htrees
        · rw [readTree, printed, hreads]
  | .object fields, h => by
      rw [Valid] at h
      by_cases hnil : fields = []
      · subst hnil
        refine ⟨.object [], ?_, ?_⟩
        · rw [lspDumpJson, dumpFields]
          exact .emptyObject spaces_nil
        · rw [readTree, printed, readMembers, printedFields]
      · obtain ⟨members, hmembers, hreads⟩ := dumpFields_spell fields h.2 hnil
        refine ⟨.object members, ?_, ?_⟩
        · rw [lspDumpJson]
          exact .object hmembers
        · rw [readTree, printed, hreads]

theorem dumpItems_spell : ∀ items : List BindgenJson, ValidItems items → items ≠ [] →
    ∃ trees, Spells Known (.items trees) (joinCommas (dumpItems items)) ∧
      readTrees trees = printedItems items
  | [], _, hne => absurd rfl hne
  | item :: items, h, _ => by
      rw [ValidItems] at h
      obtain ⟨tree, htree, hread⟩ := dump_spells item h.1
      by_cases hnil : items = []
      · subst hnil
        refine ⟨[tree], ?_, ?_⟩
        · rw [dumpItems, dumpItems, joinCommas]
          exact .lastItem (spells_item htree)
        · rw [readTrees, readTrees, printedItems, printedItems, hread]
      · obtain ⟨trees, htrees, hreads⟩ := dumpItems_spell items h.2 hnil
        refine ⟨tree :: trees, ?_, ?_⟩
        · rw [dumpItems, joinCommas_cons (dumpItems_ne hnil)]
          exact .moreItems (spells_item htree) htrees
        · rw [readTrees, printedItems, hread, hreads]

theorem dumpFields_spell : ∀ fields : List (Text × BindgenJson), ValidFields fields →
    fields ≠ [] →
    ∃ members, Spells Known (.members members) (joinCommas (dumpFields fields)) ∧
      readMembers members = printedFields fields
  | [], _, hne => absurd rfl hne
  | (name, value) :: fields, h, _ => by
      rw [ValidFields] at h
      obtain ⟨tree, htree, hread⟩ := dump_spells value h.2.1
      obtain ⟨parts, hknown, hquote, hreads⟩ := lspQuote_spells h.1
      by_cases hnil : fields = []
      · subst hnil
        refine ⟨[(parts, tree)], ?_, ?_⟩
        · rw [dumpFields, dumpFields, joinCommas, lspMember, hquote]
          exact .lastMember (spells_member hknown htree)
        · rw [readMembers, readMembers, printedFields, printedFields, hread, hreads]
      · obtain ⟨members, hmembers, hrest⟩ := dumpFields_spell fields h.2.2 hnil
        refine ⟨(parts, tree) :: members, ?_, ?_⟩
        · rw [dumpFields, joinCommas_cons (dumpFields_ne hnil), lspMember, hquote]
          exact .moreMembers (spells_member hknown htree) hmembers
        · rw [readMembers, printedFields, hread, hreads, hrest]

end

theorem lastMembers_nodup {α : Type*} {members : List (Text × α)}
    (h : (members.map Prod.fst).Nodup) : lastMembers members = members := by
  induction members using List.reverseRecOn with
  | nil => rfl
  | append_singleton members member ih =>
    rw [List.map_append, List.map_singleton, List.nodup_append] at h
    obtain ⟨hnodup, -, hdisjoint⟩ := h
    have hnew : ¬ members.any (fun field => field.1 = member.1) = true := by
      intro hany
      obtain ⟨field, hfield, hname⟩ := List.any_eq_true.mp hany
      exact hdisjoint field.1 (List.mem_map.mpr ⟨field, hfield, rfl⟩) member.1
        (List.mem_singleton.mpr rfl) (of_decide_eq_true hname)
    have hset := @setField_lastMembers _ members member.1 member.2
    rw [← hset, ih hnodup, setField, if_neg hnew]

mutual

theorem printed_eq : ∀ v : BindgenJson, Valid v → Printable v → printed v = v
  | .string text, _, h => by
      rw [Printable] at h
      rw [printed, printedText_eq h]
  | .number _, _, _ => by rw [printed]
  | .bool _, _, _ => by rw [printed]
  | .null, _, _ => by rw [printed]
  | .array items, hvalid, h => by
      rw [Valid] at hvalid
      rw [Printable] at h
      rw [printed, printedItems_eq items hvalid h]
  | .object fields, hvalid, h => by
      rw [Valid] at hvalid
      rw [Printable] at h
      rw [printed, printedFields_eq fields hvalid.2 h, lastMembers_nodup hvalid.1]

theorem printedItems_eq : ∀ items : List BindgenJson, ValidItems items →
    PrintableItems items → printedItems items = items
  | [], _, _ => by rw [printedItems]
  | item :: items, hvalid, h => by
      rw [ValidItems] at hvalid
      rw [PrintableItems] at h
      rw [printedItems, printed_eq item hvalid.1 h.1, printedItems_eq items hvalid.2 h.2]

theorem printedFields_eq : ∀ fields : List (Text × BindgenJson), ValidFields fields →
    PrintableFields fields → printedFields fields = fields
  | [], _, _ => by rw [printedFields]
  | (name, value) :: fields, hvalid, h => by
      rw [ValidFields] at hvalid
      rw [PrintableFields] at h
      rw [printedFields, printedText_eq h.1, printed_eq value hvalid.2.1 h.2.1,
        printedFields_eq fields hvalid.2.2 h.2.2]

end

/-- But for code units, a string is read as the characters it stands for. -/
theorem characters_eq (parts : List Part) (h : ∀ part ∈ parts, ∀ digits, part ≠ .unicode digits) :
    characters parts = some (parts.map readPart) := by
  induction parts with
  | nil => rfl
  | cons part parts ih =>
    have hrest := ih fun p hp => h p (List.mem_cons_of_mem part hp)
    cases part with
    | plain c hc =>
      rw [characters, hrest]
      rfl
    | escape e =>
      rw [characters, hrest]
      rfl
    | unicode digits => exact absurd rfl (h (.unicode digits) List.mem_cons_self digits)

/-- Texts are read up to the end of their value, written values are read back,
and on any bytes the reader stays inside the source and ends. -/
theorem json_reads_and_writes :
    (∀ parts : List Part, (∀ part ∈ parts, ∀ digits, part ≠ .unicode digits) →
      characters parts = some (parts.map readPart)) ∧
    (∀ tree text, IsText Known tree text →
      ∃ left bytes right, text = left ++ (bytes ++ right) ∧ Spaces left ∧ Spaces right ∧
        Spells Known (.value tree) bytes ∧
        ∀ fuel, text.length + 1 ≤ fuel →
          value text fuel ⟨0, true⟩ =
            some (readTree tree, ⟨left.length + bytes.length, true⟩)) ∧
    (∀ v, Valid v →
      (∃ tree, IsText Known tree (lspDumpJson v) ∧ readTree tree = printed v) ∧
      (∀ fuel, (lspDumpJson v).length + 1 ≤ fuel →
        value (lspDumpJson v) fuel ⟨0, true⟩ =
          some (printed v, ⟨(lspDumpJson v).length, true⟩)) ∧
      (Printable v → printed v = v)) ∧
    ∀ source : Text,
      (∀ fuel parser, parser.index ≤ source.length →
        source.length - parser.index + 1 ≤ fuel →
        ∃ r, value source fuel parser = some r ∧ r.2.index ≤ source.length) ∧
      (∀ i j, whitespaceStep source i = some j → i < j ∧ j ≤ source.length) ∧
      (∀ i j, numberStep source i = some j → i < j ∧ j ≤ source.length) ∧
      (∀ scan scan', stringStep source scan = some scan' →
        scan.index < scan'.index ∧ scan'.index ≤ source.length) ∧
      ∀ fuel, TurnConsumes source (arrayTurn source (value source fuel)) ∧
        TurnConsumes source (objectTurn source (value source fuel)) := by
  refine ⟨characters_eq, fun tree text h => text_reads h, fun v hv => ?_, fun source => ?_⟩
  · obtain ⟨tree, hspells, hread⟩ := dump_spells v hv
    refine ⟨⟨tree, spells_item hspells, hread⟩, fun fuel hfuel => ?_, printed_eq v hv⟩
    have hat : At (lspDumpJson v) 0 (lspDumpJson v ++ []) :=
      ⟨Nat.zero_le _, (List.append_nil _).symm⟩
    rw [spells_reads hspells 0 [] fuel hat stops_nil hfuel, hread, Nat.zero_add]
  · refine ⟨fun fuel parser hin hfuel => ?_, fun i j h => ?_, fun i j h => ?_,
      fun _ _ => stringStep_index, fun fuel => ⟨arrayTurn_consumes (value_consumes fuel),
        objectTurn_consumes (value_consumes fuel)⟩⟩
    · obtain ⟨r, hr⟩ := value_returns fuel hin hfuel
      exact ⟨r, hr, (value_consumes fuel parser r hin hr).1.inside⟩
    · obtain ⟨hj, hle⟩ := whitespaceStep_index h
      exact ⟨by omega, hle⟩
    · obtain ⟨hj, hle⟩ := numberStep_index h
      exact ⟨by omega, hle⟩

/-- An object with one list, spelled with spaces. -/
def spacedTree : Tree :=
  .object [([.plain 'k' ⟨by decide, by decide, by decide⟩], .array [.bool true, .number [45, 49]])]

def spacedText : Text := ascii " \x7b\"k\" :[true , -1]\x7d "

theorem spacedText_spells : IsText Known spacedTree spacedText := by
  have hspace : Spaces [32] := by simp [Spaces, IsSpace]
  have hnumber : IsNumber [45, 49] :=
    ⟨[45], [49], [], [], rfl, .inr rfl, .inr ⟨⟨by decide, by simp [IsDigit]⟩, by decide⟩,
      .inl rfl, .inl rfl⟩
  have hitems := Spells.moreItems (.item spaces_nil (@Spells.trueWord Known) hspace)
    (.lastItem (.item hspace (.number hnumber) spaces_nil))
  have hmember := @Spells.member Known [.plain 'k' ⟨by decide, by decide, by decide⟩] _ _ _ _
    spaces_nil (by simp [Known]) hspace (.item spaces_nil (.array hitems) spaces_nil)
  exact .item hspace (.object (.lastMember hmember)) hspace

/-- The spaced text is read as its tree.  A bell is written as a question mark, and read
back as one. -/
theorem json_reads_and_writes_spaced :
    (∃ left bytes right, spacedText = left ++ (bytes ++ right) ∧ Spaces left ∧ Spaces right ∧
      value spacedText 21 ⟨0, true⟩ =
        some (readTree spacedTree, ⟨left.length + bytes.length, true⟩)) ∧
    value (lspDumpJson (.array [.string [7], .null])) 11 ⟨0, true⟩ =
      some (.array [.string [63], .null], ⟨10, true⟩) := by
  obtain ⟨left, bytes, right, htext, hleft, hright, -, hread⟩ :=
    json_reads_and_writes.2.1 spacedTree spacedText spacedText_spells
  have hvalid : Valid (.array [.string [7], .null]) :=
    ⟨⟨[Char.ofNat 7], by decide⟩, trivial, trivial⟩
  exact ⟨⟨left, bytes, right, htext, hleft, hright, hread 21 (by decide)⟩,
    ((json_reads_and_writes.2.2.1 _ hvalid).2.1 11 (by decide))⟩

/-- `A` as a code unit of four digits. -/
def escapedLetter : List Part :=
  [.unicode ⟨[48, 48, 52, 49], rfl, by simp [hexValue]⟩]

/-- The text of an escaped letter denotes the letter and is read as a question mark, and a
control character is written as one. -/
theorem unicode_escape_lost :
    IsText (fun _ => True) (.string escapedLetter) (stringBytes escapedLetter) ∧
      characters escapedLetter = some ['A'] ∧
      value (stringBytes escapedLetter) 9 ⟨0, true⟩ = some (.string [63], ⟨8, true⟩) ∧
      Valid (.string [7]) ∧ lspDumpJson (.string [7]) = lspDumpJson (.string [63]) := by
  have hspells : Spells Known (.value (.string escapedLetter)) (stringBytes escapedLetter) :=
    .string (by simp [escapedLetter, Known])
  refine ⟨?_, rfl, ?_, ⟨[Char.ofNat 7], by decide⟩, by decide⟩
  · have hitem := @Spells.item (fun _ => True) (.string escapedLetter) []
      (stringBytes escapedLetter) [] spaces_nil (.string fun _ _ => trivial) spaces_nil
    rw [List.nil_append, List.append_nil] at hitem
    exact hitem
  · have hat : At (stringBytes escapedLetter) 0 (stringBytes escapedLetter ++ []) :=
      ⟨Nat.zero_le _, (List.append_nil _).symm⟩
    exact spells_reads hspells 0 [] 9 hat stops_nil (by decide)

end Lsp
end Beans
