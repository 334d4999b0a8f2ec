import Beans.Json.Schema

/-!
# Typed decoding into storage

The native engine walks the parsed tree once and stores what it meets where the
record keeps it.  It expects the keys in declaration order, and falls back to
the key table and a bitmap of the fields seen at the first key out of turn.
The depth limit is checked where a value is reached.
-/

namespace Beans
namespace Json

/-- The storage of a field beside its presence byte. -/
structure Cell (σ : Type) where
  value : σ
  present : Bool

/-- What a stretch of storage holds.  Strings, boxes and lists are allocations,
numbered in the order they are made. -/
inductive Stored where
  | word (bits : UInt64)
  | text (id : ℕ) (bytes : Text)
  | box (id : ℕ) (content : Stored)
  | record (cells : List (Cell Stored))
  | list (id : ℕ) (items : List Stored)

/-- The words of the request the walk updates, and the allocations made. -/
structure Progress where
  error : Option TypedError
  field : Option ℕ
  allocated : ℕ
deriving DecidableEq, Repr

/-- How the walk over one value ends: a code still to be reported, or the
status of a nested object that has reported its own. -/
inductive Outcome where
  | done
  | code (error : TypedError)
  | status (status : Status)
deriving DecidableEq, Repr

/-- Writes the low bytes of a word. -/
def overlay (bits : ℕ) (old new : UInt64) : UInt64 :=
  if bits = 8 then (old &&& ~~~0xff) ||| (new &&& 0xff)
  else if bits = 16 then (old &&& ~~~0xffff) ||| (new &&& 0xffff)
  else if bits = 32 then (old &&& ~~~0xffffffff) ||| (new &&& 0xffffffff)
  else new

def Stored.bits : Stored → UInt64
  | word bits => bits
  | _ => 0

/-- The cells of a fresh record. -/
def initRecord (schema : Schema Kind) : List (Cell Stored) :=
  schema.fields.map fun field =>
    ⟨.word (if schema.hasMissing then field.missingValue else 0), false⟩

/-- Stores a value that has no parts. -/
def scalarDirect (kind : Kind) (value : Value) (target : Stored)
    (progress : Progress) : Outcome × Stored × Progress :=
  match kind with
  | .bool =>
    match value with
    | .bool flag =>
      (.done, .word (overlay 8 target.bits (if flag then 1 else 0)), progress)
    | _ => (.code .type, target, progress)
  | .sint width =>
    match typedInteger value false width.bits with
    | .ok number => (.done, .word (overlay width.bits target.bits number), progress)
    | .error error => (.code error, target, progress)
  | .uint width =>
    match typedInteger value true width.bits with
    | .ok number => (.done, .word (overlay width.bits target.bits number), progress)
    | .error error => (.code error, target, progress)
  | .f32 =>
    match value.number? with
    | none => (.code .type, target, progress)
    | some number =>
      if number.toFloat32.isFinite then
        (.done, .word (overlay 32 target.bits number.toFloat32.toBits.toUInt64),
          progress)
      else (.code .range, target, progress)
  | .f64 =>
    match value.number? with
    | none => (.code .type, target, progress)
    | some number => (.done, .word number.toBits, progress)
  | .string =>
    match value with
    | .str text =>
      (.done, .text progress.allocated text,
        { progress with allocated := progress.allocated + 1 })
    | _ => (.code .type, target, progress)
  | .struct _ => (.code .type, target, progress)
  | .list _ => (.code .type, target, progress)
  | .unsupported => (.code .type, target, progress)

/-- Stores the value of a field, into a fresh box where the option has one. -/
def storeDirect (field : TypedField Kind) (value : Value) (cell : Cell Stored)
    (progress : Progress)
    (run : Stored → Progress → Outcome × Stored × Progress) :
    Outcome × Cell Stored × Progress :=
  if value.isNull then
    if field.optional then (.done, cell, progress)
    else (.code .null, cell, progress)
  else
    let (outcome, cell, progress) :=
      if field.boxedOption then
        let box := progress.allocated
        let (outcome, content, progress) :=
          run (.word 0) { progress with allocated := box + 1 }
        (outcome, { cell with value := .box box content }, progress)
      else
        let (outcome, stored, progress) := run cell.value progress
        (outcome, { cell with value := stored }, progress)
    match outcome with
    | .done =>
      (.done, if field.hasPresence then { cell with present := true } else cell,
        progress)
    | _ => (outcome, cell, progress)

/-- The state of the loop over the members of an object. -/
structure Loop where
  ordered : Bool
  expected : ℕ
  seen : List Bool
  cells : List (Cell Stored)
  progress : Progress

def Loop.init (schema : Schema Kind) (progress : Progress) : Loop where
  ordered := true
  expected := 0
  seen := []
  cells := initRecord schema
  progress := progress

/-- What the loop does with a key. -/
inductive KeyStep where
  | refuse (status : Status)
  | skip
  | store (index : ℕ)
deriving DecidableEq, Repr

/-- Leaves the expected order: the fields so far are the ones seen. -/
def Loop.leaveOrder (schema : Schema Kind) (loop : Loop) : Loop :=
  if loop.ordered then
    { loop with
      ordered := false
      seen := (List.range schema.fields.length).map fun index =>
        decide (index < loop.expected) }
  else loop

def Loop.report (loop : Loop) (error : TypedError) : Loop :=
  { loop with progress := { loop.progress with error := some error } }

/-- Finds the field of a key: the one expected next, or the one of the table. -/
def keyStep (maximum : ℕ) (schema : Schema Kind) (depth : ℕ) (name : Text)
    (value : Value) (loop : Loop) : KeyStep × Loop :=
  if loop.ordered = true ∧
      schema.fields[loop.expected]?.map TypedField.primaryName = some name then
    (.store loop.expected, { loop with expected := loop.expected + 1 })
  else
    let loop := loop.leaveOrder schema
    match schema.findKey name with
    | none =>
      if schema.allowUnknown then
        -- a skipped subtree counts against the limit like a stored one
        if value.withinDepth maximum (depth + 1) then (.skip, loop)
        else (.refuse .invalid, loop.report .depth)
      else (.refuse .invalid, loop.report .unknown)
    | some index =>
      if loop.seen.getD index false then
        (.refuse .invalid, loop.report .duplicate)
      else (.store index, { loop with seen := loop.seen.set index true })

/-- The first required field the loop has not seen. -/
def missingField (schema : Schema Kind) (loop : Loop) : Option ℕ :=
  ((List.range schema.fields.length).drop
      (if loop.ordered then loop.expected else 0)).find? fun index =>
    match schema.fields[index]? with
    | none => false
    | some field =>
      !(!loop.ordered && loop.seen.getD index false) &&
        !(field.optional || field.hasDefault || field.ignored)

/-- The end of an object, after its members. -/
def finishObject (schema : Schema Kind) (walked : Status × Loop) :
    Status × List (Cell Stored) × Progress :=
  match walked with
  | (.ok, loop) =>
    match missingField schema loop with
    | some index =>
      (.invalid, loop.cells,
        { loop.progress with error := some .missing, field := some index })
    | none => (.ok, loop.cells, loop.progress)
  | (status, loop) => (status, loop.cells, loop.progress)

/-- The outcome of a value that is an object. -/
def Status.outcome : Status → Outcome
  | ok => .done
  | status => .status status

mutual

/-- A value is stored as its kind asks, the depth being looked at first. -/
def valueDirect (maximum : ℕ) (kind : Kind) : Value → Stored → ℕ → Progress →
    Outcome × Stored × Progress
  | .obj members, target, depth, progress =>
    if maximum < depth then (.code .depth, target, progress)
    else
      match kind with
      | .struct schema =>
        let (status, cells, progress) := finishObject schema
          (membersDirect maximum schema members depth
            (Loop.init schema progress))
        (status.outcome, .record cells, progress)
      | kind => scalarDirect kind (.obj members) target progress
  | .arr items, target, depth, progress =>
    if maximum < depth then (.code .depth, target, progress)
    else
      match kind with
      | .struct schema =>
        (.status .type, .record (initRecord schema),
          { progress with error := some .root })
      | .list element =>
        if element.size = 0 then (.code .type, target, progress)
        else
          let list := progress.allocated
          let (outcome, stored, progress) := itemsDirect maximum element items
            (depth + 1) { progress with allocated := list + 1 }
          (outcome, .list list stored, progress)
      | kind => scalarDirect kind (.arr items) target progress
  | value, target, depth, progress =>
    if maximum < depth then (.code .depth, target, progress)
    else
      match kind with
      | .struct schema =>
        (.status .type, .record (initRecord schema),
          { progress with error := some .root })
      | kind => scalarDirect kind value target progress

def itemsDirect (maximum : ℕ) (element : Kind) : List Value → ℕ → Progress →
    Outcome × List Stored × Progress
  | [], _, progress => (.done, [], progress)
  | item :: rest, depth, progress =>
    match valueDirect maximum element item (.word 0) depth progress with
    | (.done, stored, progress) =>
      let (outcome, items, progress) :=
        itemsDirect maximum element rest depth progress
      (outcome, stored :: items, progress)
    | (outcome, stored, progress) => (outcome, [stored], progress)

def membersDirect (maximum : ℕ) (schema : Schema Kind) :
    List (Text × Value) → ℕ → Loop → Status × Loop
  | [], _, loop => (.ok, loop)
  | (name, value) :: rest, depth, loop =>
    match keyStep maximum schema depth name value loop with
    | (.refuse status, loop) => (status, loop)
    | (.skip, loop) => membersDirect maximum schema rest depth loop
    | (.store index, loop) =>
      match schema.fields[index]?, loop.cells[index]? with
      | some field, some cell =>
        let (outcome, cell, progress) := storeDirect field value cell
          { loop.progress with field := some index }
          fun target progress =>
            valueDirect maximum field.kind value target (depth + 1) progress
        let loop :=
          { loop with cells := loop.cells.set index cell, progress := progress }
        match outcome with
        | .done => membersDirect maximum schema rest depth loop
        | .status status => (status, loop)
        | .code error => (error.status, loop.report error)
      | _, _ => (.type, loop)

end

/-- Fills a record from an object. -/
def objectDirect (maximum : ℕ) (schema : Schema Kind) (object : Value) (depth : ℕ)
    (progress : Progress) : Status × List (Cell Stored) × Progress :=
  match object with
  | .obj members =>
    finishObject schema
      (membersDirect maximum schema members depth (Loop.init schema progress))
  | _ => (.type, initRecord schema, { progress with error := some .root })

mutual

/-- The allocations a pointer leads to, which go with it. -/
def owned : Stored → List ℕ
  | .word _ => []
  | .text id _ => [id]
  | .box id content => id :: owned content
  | .record cells => cellsOwned cells
  | .list id items => id :: itemsOwned items

def cellsOwned : List (Cell Stored) → List ℕ
  | [] => []
  | ⟨value, _⟩ :: rest => owned value ++ cellsOwned rest

def itemsOwned : List Stored → List ℕ
  | [] => []
  | item :: rest => owned item ++ itemsOwned rest

end

mutual

/-- Releases the pointer a field keeps, or what its nested record keeps. -/
def releaseField (boxed : Bool) (kind : Kind) : Stored → List ℕ
  | .record cells =>
    match boxed, kind with
    | false, .struct schema => releaseRecord schema.fields cells
    | _, _ => []
  | stored =>
    match boxed, kind with
    | true, _ => owned stored
    | false, .string => owned stored
    | false, .list _ => owned stored
    | false, _ => []

/-- What a record owns when its decode is given up. -/
def releaseRecord : List (TypedField Kind) → List (Cell Stored) → List ℕ
  | field :: fields, ⟨value, _⟩ :: cells =>
    releaseField field.boxedOption field.kind value ++ releaseRecord fields cells
  | _, _ => []

end

/-- What the caller of the walk sees. -/
structure Decoded where
  status : Status
  error : Option TypedError
  count : ℕ
  field : Option ℕ
  records : List (List (Cell Stored))
  allocated : ℕ
  released : List ℕ

/-- A document refused before anything is allocated. -/
def Decoded.refused (status : Status) (error : TypedError) (count : ℕ) : Decoded where
  status := status
  error := some error
  count := count
  field := none
  records := []
  allocated := 0
  released := []

/-- The records of a root array. -/
def recordsDirect (maximum : ℕ) (schema : Schema Kind) :
    List Value → Progress → Status × List (List (Cell Stored)) × Progress
  | [], progress => (.ok, [], progress)
  | item :: rest, progress =>
    match objectDirect maximum schema item 2 progress with
    | (.ok, cells, progress) =>
      let (status, records, progress) := recordsDirect maximum schema rest progress
      (status, cells :: records, progress)
    | (status, cells, progress) => (status, [cells], progress)

/-- The typed decode of a document. -/
def decodeWalk (schema : Schema Kind) (root : Value) (maximum : ℕ) : Decoded :=
  if schema.recordSize = 0 then Decoded.refused .invalid .type 0
  else if maximum = 0 then Decoded.refused .invalid .depth 0
  else if schema.rootArray then
    match root with
    | .arr items =>
      if 0 < items.length ∧ maximum < 2 then
        Decoded.refused .invalid .depth items.length
      else
        -- the list is the first allocation
        let (status, records, progress) :=
          recordsDirect maximum schema items ⟨none, none, 1⟩
        let released :=
          if status = .ok then [] else owned (.list 0 (records.map Stored.record))
        ⟨status, progress.error, items.length,
          if status = .ok then none else progress.field,
          if status = .ok then records else [], progress.allocated, released⟩
    | _ => Decoded.refused .type .root 0
  else
    match root with
    | .obj _ =>
      let (status, cells, progress) := objectDirect maximum schema root 1 ⟨none, none, 0⟩
      let released :=
        if status = .ok then [] else releaseRecord schema.fields cells
      ⟨status, progress.error, 1, if status = .ok then none else progress.field,
        if status = .ok then [cells] else [], progress.allocated, released⟩
    | _ => Decoded.refused .type .root 0

end Json
end Beans
