import Beans.Foundation.AssocList
import Beans.Runtime.Prelude

/-!
# The runtime's hash map

A `BMap` is a flat array of entries with an open-addressed index over it.  Maps
of at most eight entries have no index and are scanned.  An index word packs
the position of an entry with the high half of its key's hash; a `Map` removes
an entry by moving the last one into its place, an `OrderedMap` leaves a hole
that its next reindex compacts.

The entry array is modelled up to `used`.  A probing loop of the source has no
bound of its own: here it is given one round of the table, and `none` says that
the loop is still running then.
-/

namespace Beans
namespace Map

/-- How keys of one type are compared and hashed. -/
structure KeyOps (K : Type*) where
  slotEq : K → K → Bool
  slotHash : K → UInt64

/-- A map: its entries up to `used`, the bitmap of the holes and the index. -/
structure BMap (K V : Type*) where
  ordered : Bool
  entries : List (K × V)
  len : ℕ
  cap : ℕ
  /-- One bit an entry, in whole words of 64. -/
  deadbits : Option (List Bool)
  idx : Option (List UInt64)
  tombs : ℕ
  version : UInt64
deriving DecidableEq, Repr

def mapLinearMax : ℕ := 8

/-- The half of an index word that holds a position plus two. -/
def idxPos : UInt64 := 0xffffffff

/-- The half that holds the hash fragment. -/
def idxFrag : UInt64 := 0xffffffff00000000

variable {K V : Type*}

namespace BMap

def used (m : BMap K V) : ℕ := m.entries.length

end BMap

/-- The entry is a hole. -/
def mapDead (m : BMap K V) (p : ℕ) : Bool :=
  match m.deadbits with
  | none => false
  | some bits => bits.getD p false

def mapBumpVersion (m : BMap K V) : BMap K V :=
  { m with version := m.version + 1 }

/-- An empty map, without an index. -/
def beansMapNew (ordered : Bool) : BMap K V :=
  ⟨ordered, [], 0, 4, none, none, 0, 0⟩

/-- The entries outside the holes, in array order. -/
def mapLive (m : BMap K V) : List (K × V) :=
  (List.range m.used).filterMap fun p =>
    if mapDead m p then none else m.entries[p]?

/-- The slot a hash or a running slot number falls on. -/
def mapMask (icap i : ℕ) : ℕ := i &&& (icap - 1)

/-- The index word of the entry at `p`. -/
def indexWord (h : UInt64) (p : ℕ) : UInt64 :=
  (h &&& idxFrag) ||| UInt64.ofNat (p + 2)

/-- The capacity doubling of `map_reindex_to`. -/
def reindexCap : ℕ → ℕ → ℕ → ℕ
  | 0, cap, _ => cap
  | fuel + 1, cap, wanted =>
    if cap * 2 ≤ wanted * 3 then reindexCap fuel (cap * 2) wanted else cap

/-- The loop that looks for a free slot of the new index. -/
def placeLoop (idx : List UInt64) : ℕ → ℕ → Option ℕ
  | 0, _ => none
  | fuel + 1, i =>
    if idx.getD i 0 &&& idxPos ≠ 0 then
      placeLoop idx fuel (mapMask idx.length (i + 1))
    else some i

/-- The loop over the entries that fills the new index. -/
def placeEntries (ops : KeyOps K) : List (K × V) → ℕ → List UInt64 →
    Option (List UInt64)
  | [], _, idx => some idx
  | e :: es, p, idx =>
    let h := ops.slotHash e.1
    match placeLoop idx idx.length (mapMask idx.length h.toNat) with
    | none => none
    | some i => placeEntries ops es (p + 1) (idx.set i (indexWord h p))

/-- Holes are squeezed out of the entry array. -/
def mapCompact (m : BMap K V) : BMap K V :=
  match m.deadbits with
  | none => m
  | some _ => { m with entries := mapLive m, deadbits := none }

/-- The index is built anew, with room for `reserve` entries. -/
def mapReindexTo (ops : KeyOps K) (m : BMap K V) (reserve : ℕ) :
    Option (BMap K V) :=
  let m := mapCompact m
  let cap := reindexCap 64 16 (max m.len reserve)
  match placeEntries ops (m.entries.take m.len) 0 (List.replicate cap 0) with
  | none => none
  | some idx => some { m with idx := some idx, tombs := 0 }

def mapReindex (ops : KeyOps K) (m : BMap K V) : Option (BMap K V) :=
  mapReindexTo ops m 0

/-- What a search reports: the position, the hash it computed when there is an
index, and the index slot of the hit or of a later insertion. -/
structure MapFound where
  position : Option ℕ
  hash : UInt64
  slot : ℕ
deriving DecidableEq, Repr

/-- The probing loop of `map_find`. -/
def findLoop (ops : KeyOps K) (entries : List (K × V)) (idx : List UInt64)
    (key : K) (h : UInt64) : ℕ → ℕ → Option ℕ → Option MapFound
  | 0, _, _ => none
  | fuel + 1, i, firstTomb =>
    let w := idx.getD i 0
    let st := w &&& idxPos
    if st = 0 then some ⟨none, h, firstTomb.getD i⟩
    else
      let firstTomb :=
        if st = 1 ∧ firstTomb = none then some i else firstTomb
      let p := st.toNat - 2
      let hit : Bool :=
        match entries[p]? with
        | none => false
        | some e => ops.slotEq e.1 key
      if 2 ≤ st ∧ w &&& idxFrag = h &&& idxFrag ∧ hit = true then
        some ⟨some p, h, i⟩
      else findLoop ops entries idx key h fuel (mapMask idx.length (i + 1))
        firstTomb

/-- A key is looked for by a scan when there is no index, and by probing when there is one. -/
def mapFind (ops : KeyOps K) (m : BMap K V) (key : K) : Option MapFound :=
  match m.idx with
  | none =>
    some ⟨(m.entries.take m.len).findIdx? (fun e => ops.slotEq e.1 key), 0, 0⟩
  | some idx =>
    let h := ops.slotHash key
    findLoop ops m.entries idx key h idx.length (mapMask idx.length h.toNat)
      none

/-- The words of a bitmap for `cap` entries. -/
def deadWords (cap : ℕ) : ℕ := (cap + 63) >>> 6

/-- A bitmap reallocated from one capacity to another, its new words zero. -/
def growDeadbits (bits : List Bool) (old new : ℕ) : List Bool :=
  bits ++ List.replicate (64 * (deadWords new - deadWords old)) false

/-- The arrays of a map reallocated for `cap` entries. -/
def mapRealloc (m : BMap K V) (cap : ℕ) : BMap K V :=
  { m with
    cap := cap
    deadbits := m.deadbits.map (growDeadbits · m.cap cap) }

/-- The entry array is doubled when it is full. -/
def mapGrow (m : BMap K V) : BMap K V :=
  if m.used = m.cap then mapRealloc m (m.cap * 2) else m

/-- One more entry at the end of the array. -/
def mapAppend (m : BMap K V) (key : K) (val : V) : BMap K V :=
  mapBumpVersion
    { m with entries := m.entries ++ [(key, val)], len := m.len + 1 }

/-- A key that was not found is appended and entered into the index. -/
def mapInsertMiss (ops : KeyOps K) (m : BMap K V) (key : K) (val : V)
    (found : MapFound) : Option (BMap K V) :=
  let m := mapAppend (mapGrow m) key val
  match m.idx with
  | none => if mapLinearMax < m.len then mapReindex ops m else some m
  | some idx =>
    if idx.length * 2 ≤ (m.used + m.tombs) * 3 then mapReindex ops m
    else
      some
        { m with
          tombs :=
            if idx.getD found.slot 0 &&& idxPos = 1 then m.tombs - 1
            else m.tombs
          idx := some
            (idx.set found.slot (indexWord found.hash (m.used - 1))) }

/-- The value of an entry rewritten by `f`. -/
def mapStore (m : BMap K V) (i : ℕ) (f : V → V) : BMap K V :=
  { m with entries := m.entries.modify i (fun e => (e.1, f e.2)) }

def beansMapSet (ops : KeyOps K) (m : BMap K V) (key : K) (val : V) :
    Option (BMap K V) :=
  match mapFind ops m key with
  | none => none
  | some found =>
    match found.position with
    | some i => some (mapStore m i (fun _ => val))
    | none => mapInsertMiss ops m key val found

/-- `m[k] = m.get(k).or(0) + delta` with one probe. -/
def beansMapAdd [Add V] (ops : KeyOps K) (m : BMap K V) (key : K) (delta : V) :
    Option (BMap K V) :=
  match mapFind ops m key with
  | none => none
  | some found =>
    match found.position with
    | some i => some (mapStore m i (· + delta))
    | none => mapInsertMiss ops m key delta found

def beansMapInsert (ops : KeyOps K) (m : BMap K V) (key : K) (val : V) :
    Option (BMap K V × Bool) :=
  match mapFind ops m key with
  | none => none
  | some found =>
    match found.position with
    | some _ => some (m, false)
    | none => (mapInsertMiss ops m key val found).map (·, true)

def beansMapGet (ops : KeyOps K) (m : BMap K V) (key : K) :
    Option (Option V) :=
  (mapFind ops m key).map fun found =>
    match found.position with
    | some i => m.entries[i]?.map Prod.snd
    | none => none

/-- The loop that looks for the index word of the entry about to move. -/
def movedLoop (idx : List UInt64) (last : ℕ) : ℕ → ℕ → Option ℕ
  | 0, _ => none
  | fuel + 1, i =>
    if idx.getD i 0 &&& idxPos = UInt64.ofNat (last + 2) then some i
    else movedLoop idx last fuel (mapMask idx.length (i + 1))

/-- The entry at `i` overwritten by the last one, which is dropped. -/
def swapOut (entries : List (K × V)) (i : ℕ) : List (K × V) :=
  (match entries.getLast? with
    | none => entries
    | some moved => entries.set i moved).dropLast

/-- The word of the last entry is given the position the entry moves to. -/
def repairMoved (ops : KeyOps K) (m : BMap K V) (i : ℕ)
    (idx : List UInt64) : Option (List UInt64) :=
  let last := m.used - 1
  if i ≠ last then
    match m.entries[last]? with
    | none => none
    | some moved =>
      let h := ops.slotHash moved.1
      (movedLoop idx last idx.length (mapMask idx.length h.toNat)).map
        fun i' =>
          idx.set i' ((idx.getD i' 0 &&& idxFrag) ||| UInt64.ofNat (i + 2))
  else some idx

variable [Zero K] [Zero V]

/-- A `Map` fills the place of the entry with the last one; an `OrderedMap` buries it. -/
def mapUnlinkEntry (ops : KeyOps K) (m : BMap K V) (i slot : ℕ) :
    Option (BMap K V) :=
  match m.idx with
  | none =>
    let entries :=
      if m.ordered then m.entries.eraseIdx i else swapOut m.entries i
    some { m with entries := entries, len := m.len - 1 }
  | some idx =>
    if m.ordered = false then
      match repairMoved ops m i (idx.set slot 1) with
      | none => none
      | some idx =>
        let m :=
          { m with
            entries := swapOut m.entries i
            len := m.len - 1
            idx := some idx
            tombs := m.tombs + 1 }
        if m.len < m.tombs then mapReindex ops m else some m
    else
      let bits :=
        m.deadbits.getD (List.replicate (64 * deadWords m.cap) false)
      let m :=
        { m with
          entries := m.entries.set i (0, 0)
          deadbits := some (bits.set i true)
          len := m.len - 1
          idx := some (idx.set slot 1)
          tombs := m.tombs + 1 }
      if m.len * 2 < m.used then mapReindex ops m else some m

def mapRemoveFound (ops : KeyOps K) (m : BMap K V) (i slot : ℕ) :
    Option (BMap K V) :=
  mapUnlinkEntry ops (mapBumpVersion m) i slot

def beansMapRemove (ops : KeyOps K) (m : BMap K V) (key : K) :
    Option (BMap K V × Bool) :=
  match mapFind ops m key with
  | none => none
  | some found =>
    match found.position with
    | none => some (m, false)
    | some i => (mapRemoveFound ops m i found.slot).map (·, true)

/-- The doubling of `beans_map_reserve`. -/
def reserveCap (capacity : ℕ) : ℕ → ℕ → ℕ
  | 0, cap => cap
  | fuel + 1, cap =>
    if cap < capacity ∧ cap ≤ 2 ^ 59 then reserveCap capacity fuel (cap * 2)
    else cap

/-- The entry array is grown to hold `capacity` entries. -/
def reserveEntries (m : BMap K V) (capacity : ℕ) : BMap K V :=
  if m.cap < capacity then
    mapRealloc m (max (reserveCap capacity 64 m.cap) capacity)
  else m

/-- The panic of a capacity that is no size, or the map with room for it. -/
def beansMapReserve (ops : KeyOps K) (m : BMap K V) (capacity : ℤ)
    (site : Site) : Except Panic (Option (BMap K V)) :=
  if capacity < 0 then
    beansPanic s!"negative reserve capacity {capacity}" site
  else if 2 ^ 58 < capacity then
    beansPanic "reserve capacity too large" site
  else
    let m := reserveEntries (mapBumpVersion m) capacity.toNat
    .ok (mapReindexTo ops m capacity.toNat)

/-- A copy of the live entries, with an index of its own. -/
def beansMapClone (ops : KeyOps K) (m : BMap K V) : Option (BMap K V) :=
  let copy : BMap K V := beansMapNew m.ordered
  let copy := { copy with
    cap := max m.len copy.cap
    entries := mapLive m
    len := (mapLive m).length }
  if mapLinearMax < copy.len then mapReindex ops copy else some copy

def beansMapClear (m : BMap K V) : BMap K V :=
  { m with
    version := if m.len ≠ 0 then m.version + 1 else m.version
    len := 0
    entries := []
    deadbits := none
    idx := none
    tombs := 0 }

def beansMapKeys (m : BMap K V) : List K := (mapLive m).map Prod.fst

def beansMapValues (m : BMap K V) : List V := (mapLive m).map Prod.snd

/-- The next position from `cursor` on that is not a hole. -/
def iterSkip (m : BMap K V) : ℕ → ℕ → ℕ
  | 0, cursor => cursor
  | fuel + 1, cursor =>
    if cursor < m.used ∧ mapDead m cursor = true then
      iterSkip m fuel (cursor + 1)
    else cursor

/-- The next entry of an iteration, which panics when the map has changed under it. -/
def beansMapIterNext (m : BMap K V) (cursor : ℕ) (version : UInt64)
    (site : Site) : Except Panic (Option ℕ) :=
  if m.version ≠ version then
    beansPanic "map changed during iteration" site
  else
    let cursor := iterSkip m (m.used - cursor) cursor
    .ok (if cursor < m.used then some cursor else none)

/-- The loop `for k, v in m` runs its body on these entries. -/
def iterate (m : BMap K V) (version : UInt64) (site : Site) :
    ℕ → ℕ → Except Panic (List (K × V))
  | 0, _ => .ok []
  | fuel + 1, cursor =>
    match beansMapIterNext m cursor version site with
    | .error e => .error e
    | .ok none => .ok []
    | .ok (some p) =>
      (iterate m version site fuel (p + 1)).map (m.entries[p]?.toList ++ ·)

inductive MapOp (K V : Type*) where
  | set (key : K) (val : V)
  | add (key : K) (delta : V)
  | insert (key : K) (val : V)
  | remove (key : K)
  | reserve (capacity : ℤ)
  | clear
  | clone

inductive MapAnswer where
  | done
  | flag (changed : Bool)
  | panicked (p : Panic)

/-- One operation of the program on a map; after `clone` the program goes on
with the copy. -/
def mapStep [Add V] (ops : KeyOps K) (site : Site)
    (m : BMap K V) : MapOp K V → Option (BMap K V × MapAnswer)
  | .set key val => (beansMapSet ops m key val).map (·, .done)
  | .add key delta => (beansMapAdd ops m key delta).map (·, .done)
  | .insert key val =>
    (beansMapInsert ops m key val).map fun r => (r.1, .flag r.2)
  | .remove key =>
    (beansMapRemove ops m key).map fun r => (r.1, .flag r.2)
  | .reserve capacity =>
    match beansMapReserve ops m capacity site with
    | .error p => some (m, .panicked p)
    | .ok r => r.map (·, .done)
  | .clear => some (beansMapClear m, .done)
  | .clone => (beansMapClone ops m).map (·, .done)

def mapRun [Add V] (ops : KeyOps K) (site : Site) :
    List (MapOp K V) → BMap K V → Option (BMap K V × List MapAnswer)
  | [], m => some (m, [])
  | op :: script, m =>
    match mapStep ops site m op with
    | none => none
    | some (m', answer) =>
      (mapRun ops site script m').map fun r => (r.1, answer :: r.2)

/-- Integers, booleans and identities compare as words. -/
def rawOps : KeyOps UInt64 where
  slotEq a b := a == b
  slotHash := beansMix64

end Map
end Beans
