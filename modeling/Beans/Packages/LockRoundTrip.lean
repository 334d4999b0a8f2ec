import Beans.Packages.Lockfile

/-!
# Reading what was written

The lockfile restores what a load resolved exactly when every requested reference is
one word between spaces.  A load against a restored lockfile accepts its dependencies.
-/

namespace Beans
namespace Packages

open Interpreter (textLe)

theorem keys_equivalence :
    AssocList.KeyEquivalence (· == · : Text → Text → Bool) where
  refl _ := beq_self_eq_true _
  symm a b h := by
    rw [eq_of_beq h]
    exact beq_self_eq_true _
  trans a b c hab hbc := by
    rw [eq_of_beq hab]
    exact hbc

namespace Table

variable {α : Type*}

/-- No key occurs twice. -/
def Distinct (table : Table α) : Prop :=
  AssocList.Distinct (· == ·) table

theorem get_set (table : Table α) (key : Text) (value : α) (key' : Text) :
    (table.set key value).get key' = if key = key' then some value else table.get key' := by
  have hsame : ∀ old : Option α,
      (if (key == key') = true then some value else old) = if key = key' then some value else old :=
    fun old => if_congr beq_iff_eq rfl rfl
  rw [set]
  split_ifs with hsome heq
  · subst heq
    rw [get, AssocList.get_modify keys_equivalence, if_pos (beq_self_eq_true key)]
    obtain ⟨old, hold⟩ := Option.isSome_iff_exists.mp hsome
    have hget : AssocList.get (· == ·) table key = some old := hold
    rw [hget]
    rfl
  · rw [get, AssocList.get_modify keys_equivalence, if_neg (by simpa using heq)]
    rfl
  all_goals
    have hnew := Option.not_isSome_iff_eq_none.mp hsome
    rw [get, AssocList.get_append_new table key key' value keys_equivalence hnew, hsame]
  · exact if_pos ‹_›
  · exact if_neg ‹_›

theorem Distinct.set {table : Table α} (h : table.Distinct) (key : Text) (value : α) :
    (table.set key value).Distinct := by
  rw [Table.set]
  split_ifs with hsome
  · exact AssocList.Distinct.modify _ key h
  · exact AssocList.Distinct.append_new h value (Option.not_isSome_iff_eq_none.mp hsome)

theorem get_of_mem {table : Table α} (h : table.Distinct) {entry : Text × α}
    (hmem : entry ∈ table) :
    table.get entry.1 = some entry.2 :=
  AssocList.get_of_mem keys_equivalence h hmem (beq_self_eq_true _)

variable {key : Text} {table : Table α} {value : α}

theorem mem_of_get (h : table.get key = some value) :
    (key, value) ∈ table := by
  obtain ⟨entry, hfind, rfl⟩ := Option.map_eq_some_iff.mp h
  have hkey := List.find?_some hfind
  have hmem := List.mem_of_find?_eq_some hfind
  rw [← eq_of_beq hkey]
  exact hmem

theorem mem_set {entry : Text × α} (h : entry ∈ table.set key value) :
    entry = (key, value) ∨ entry ∈ table := by
  rw [set] at h
  split_ifs at h
  · obtain ⟨old, hold, rfl⟩ := List.mem_map.mp h
    dsimp only
    split_ifs with hkey
    · rw [eq_of_beq hkey]
      exact .inl rfl
    · exact .inr hold
  · rcases List.mem_append.mp h with hin | hnew
    · exact .inr hin
    · exact .inl (List.mem_singleton.mp hnew)

end Table

/-- The bytes of a scan all satisfy a condition. -/
def ScanBytes (P : UInt8 → Prop) (scan : WordScan) : Prop :=
  ∀ word ∈ scan.words ++ [scan.word], ∀ byte ∈ word, P byte

variable {scan : WordScan} {line lockPath value : Text} {entry : LockEntry}
  {resolved : Table LockEntry} {reading : Reading} {requirements : Table ModuleRequirement}

theorem ScanBytes.push {P : UInt8 → Prop} (h : ScanBytes P scan) {byte : UInt8}
    (hbyte : P byte) :
    ∀ word ∈ scan.words ++ [scan.word ++ [byte]], ∀ b ∈ word, P b := by
  intro word hword b hb
  rcases List.mem_append.mp hword with hin | hlast
  · exact h word (List.mem_append_left _ hin) b hb
  · rw [List.mem_singleton.mp hlast] at hb
    rcases List.mem_append.mp hb with hb | hb
    · exact h scan.word (List.mem_append_right _ List.mem_cons_self) b hb
    · rwa [List.mem_singleton.mp hb]

theorem manifestScan_bytes {P : UInt8 → Prop} (hline : ∀ byte ∈ line, P byte)
    (h : ScanBytes P scan) :
    ScanBytes P (manifestScan line scan) := by
  induction line generalizing scan with
  | nil => exact h
  | cons byte rest ih =>
    obtain ⟨hbyte, hrest⟩ := List.forall_mem_cons.mp hline
    rw [manifestScan]
    split_ifs
    · exact ih hrest (h.push hbyte)
    · exact ih hrest h
    · exact ih hrest h
    · exact ih hrest (h.push hbyte)
    · exact ih hrest h
    · exact h
    · refine ih hrest fun word hword => ?_
      rcases List.mem_append.mp hword with hin | hlast
      · exact h word hin
      · rw [List.mem_singleton.mp hlast]
        exact fun b hb => absurd hb List.not_mem_nil
    · exact ih hrest h
    · exact ih hrest (h.push hbyte)

/-- Three words hold no bytes that the line does not hold. -/
theorem manifestWords_bytes {P : UInt8 → Prop} {first second third : Text}
    (hline : ∀ byte ∈ line, P byte) (h : manifestWords line = [first, second, third]) :
    ∀ byte ∈ third, P byte := by
  have hscan := manifestScan_bytes hline
    (show ScanBytes P ⟨[], [], false, false, false⟩ from fun word hword b hb => by
      rw [List.mem_singleton.mp hword] at hb
      exact absurd hb List.not_mem_nil)
  have hthird : third ∈ manifestWords line := by
    rw [h]
    exact List.mem_cons_of_mem _ (List.mem_cons_of_mem _ List.mem_cons_self)
  rw [manifestWords] at h hthird
  split_ifs at h hthird
  · cases h
  · exact hscan third hthird
  · exact hscan third (List.mem_append_left _ hthird)

theorem safeGitId_spec (h : safeGitId value = true) :
    value ≠ [] ∧ ∀ byte ∈ value, isSpace byte = false := by
  rw [safeGitId, Bool.and_eq_true, Bool.and_eq_true, List.all_eq_true, decide_eq_true_iff] at h
  obtain ⟨⟨hlength, -⟩, hall⟩ := h
  constructor
  · rintro rfl
    exact absurd hlength (by decide)
  · have hbytes : ∀ byte : UInt8, ((48 ≤ byte && byte ≤ 57) || (65 ≤ byte && byte ≤ 70) ||
        (97 ≤ byte && byte ≤ 102)) = true → isSpace byte = false := by
      decide +kernel
    exact fun byte hbyte => hbytes byte (hall byte hbyte)

theorem safeRemotePath_spec (h : safeRemotePath value = true) :
    value ≠ [] ∧ ∀ byte ∈ value, isSpace byte = false := by
  rw [safeRemotePath] at h
  split_ifs at h with hrefused
  rw [not_or] at hrefused
  refine ⟨hrefused.1, fun byte hbyte => ?_⟩
  obtain ⟨-, hall⟩ := (Bool.and_eq_true _ _).mp h
  by_cases hslash : byte = 47
  · rw [hslash]
    decide
  · rw [List.splitOn_eq_splitOnP] at hall
    have hkeep : (byte == 47) = false := beq_eq_false_iff_ne.mpr hslash
    obtain ⟨segment, hsegment, hin⟩ := Tokens.mem_splitOnP (· == 47) hbyte hkeep
    have hsegment' := ((Bool.and_eq_true _ _).mp (List.all_eq_true.mp hall segment hsegment)).2
    have hbytes : ∀ byte : UInt8, ((48 ≤ byte && byte ≤ 57) || (65 ≤ byte && byte ≤ 90) ||
        (97 ≤ byte && byte ≤ 122) || byte == 45 || byte == 46 || byte == 95) = true →
          isSpace byte = false := by
      decide +kernel
    exact hbytes byte (List.all_eq_true.mp hsegment' byte hin)

/-- The texts of an entry the loader records, the reference apart. -/
structure SafeEntry (entry : LockEntry) : Prop where
  path : safeRemotePath entry.path = true
  commit : safeGitId entry.commit = true
  tree : safeGitId entry.tree = true

/-- A reference that is a word between spaces. -/
def PlainRef (requested : Text) : Prop :=
  requested ≠ [] ∧ 32 ∉ requested

theorem not_mem_of_noSpace (h : ∀ byte ∈ value, isSpace byte = false) :
    32 ∉ value ∧ 10 ∉ value :=
  ⟨fun hin => absurd (h 32 hin) (by decide), fun hin => absurd (h 10 hin) (by decide)⟩

/-- The words of a row of the lockfile. -/
def rowWords (entry : LockEntry) : List Text :=
  [ascii "module", entry.path, entry.requested, entry.commit, entry.tree]

theorem lockRow_eq (entry : LockEntry) :
    lockRow entry = [32].intercalate (rowWords entry) := by
  simp [lockRow, rowWords, List.intercalate, ascii]

theorem moduleWords_lockRow (h : SafeEntry entry) (href : PlainRef entry.requested) :
    moduleWords (lockRow entry) = rowWords entry := by
  obtain ⟨hpath, hpathBytes⟩ := safeRemotePath_spec h.path
  obtain ⟨hcommit, hcommitBytes⟩ := safeGitId_spec h.commit
  obtain ⟨htree, htreeBytes⟩ := safeGitId_spec h.tree
  have hwords : ∀ word ∈ rowWords entry, word ≠ [] ∧ 32 ∉ word := by
    intro word hword
    simp only [rowWords, List.mem_cons, List.not_mem_nil, or_false] at hword
    rcases hword with rfl | rfl | rfl | rfl | rfl
    · exact ⟨by decide, by decide⟩
    · exact ⟨hpath, (not_mem_of_noSpace hpathBytes).1⟩
    · exact href
    · exact ⟨hcommit, (not_mem_of_noSpace hcommitBytes).1⟩
    · exact ⟨htree, (not_mem_of_noSpace htreeBytes).1⟩
  have htrim : Tokens.trim isSpace (lockRow entry) = lockRow entry := by
    refine Tokens.trim_eq_self (fun a ha => ?_) fun a ha => ?_
    · rw [← Option.some.inj (show some 109 = some a from ha)]
      decide
    · rw [lockRow, List.getLast?_append_of_ne_nil _ htree] at ha
      exact htreeBytes a (List.mem_of_getLast? ha)
  rw [moduleWords, htrim, lockRow_eq, Tokens.words_intercalate (by simp [rowWords]) hwords]

theorem lockRow_oneLine (h : SafeEntry entry) (href : 10 ∉ entry.requested) :
    10 ∉ lockRow entry := by
  have hpath := (not_mem_of_noSpace (safeRemotePath_spec h.path).2).2
  have hcommit := (not_mem_of_noSpace (safeGitId_spec h.commit).2).2
  have htree := (not_mem_of_noSpace (safeGitId_spec h.tree).2).2
  simp only [lockRow, List.mem_append, not_or]
  exact ⟨⟨⟨⟨⟨⟨⟨by decide, hpath⟩, by decide⟩, href⟩, by decide⟩, hcommit⟩, by decide⟩, htree⟩

/-- A reference that one word of a manifest line spells. -/
def Spelled (requested : Text) : Prop :=
  ∃ line path, 10 ∉ line ∧ manifestWords line = [ascii "require", path, requested]

theorem Spelled.oneLine {requested : Text} (h : Spelled requested) :
    10 ∉ requested := by
  obtain ⟨line, path, hline, hwords⟩ := h
  intro hin
  exact manifestWords_bytes (P := fun byte => byte ≠ 10) (fun byte hbyte heq => hline (heq ▸ hbyte))
    hwords 10 hin rfl

/-- The dependencies a load can have resolved. -/
structure Recordable (requirements : Table ModuleRequirement) (resolved : Table LockEntry) :
    Prop where
  distinct : resolved.Distinct
  path : ∀ e ∈ resolved, e.2.path = e.1
  safe : ∀ e ∈ resolved, SafeEntry e.2
  requested : ∀ e ∈ resolved, ∃ requirement, requirements.get e.1 = some requirement ∧
    requirement.requested = e.2.requested
  spelled : ∀ e ∈ resolved, Spelled e.2.requested

/-- The entries in the order of the file. -/
def writtenEntries (resolved : Table LockEntry) : List LockEntry :=
  ((resolved.map Prod.fst).insertionSort textLe).filterMap resolved.get

theorem writtenEntries_perm (h : resolved.Distinct) :
    (writtenEntries resolved).Perm (resolved.map Prod.snd) := by
  have hget : (resolved.map Prod.fst).filterMap resolved.get = resolved.map Prod.snd := by
    rw [List.filterMap_map, ← List.filterMap_eq_map]
    exact List.filterMap_congr fun e he => Table.get_of_mem h he
  rw [← hget]
  exact (List.perm_insertionSort textLe _).filterMap _

theorem lockText_eq (resolved : Table LockEntry) :
    lockText resolved =
      (ascii "version 1" :: (writtenEntries resolved).map lockRow).flatMap fun row => row ++ [10] := by
  rw [lockText, List.flatMap_cons, List.flatMap_map]
  rfl

theorem readModule_new (h : SafeEntry entry) (hnew : reading.entries.get entry.path = none)
    (number : ℕ) :
    readModule lockPath reading number [entry.path, entry.requested, entry.commit, entry.tree] =
      { reading with entries := reading.entries ++ [(entry.path, entry)] } := by
  rw [readModule, if_neg (by rw [h.commit, h.tree]; simp), if_neg (not_not.mpr h.path),
    if_neg (by rw [hnew]; decide), Table.set, if_neg (by rw [hnew]; decide)]

theorem readRow_new (h : SafeEntry entry) (href : PlainRef entry.requested)
    (hnew : reading.entries.get entry.path = none) (number : ℕ) :
    readRow lockPath reading (lockRow entry, number) =
      { reading with entries := reading.entries ++ [(entry.path, entry)] } := by
  rw [readRow, moduleWords_lockRow h href, rowWords]
  dsimp only
  rw [if_neg (by decide), if_neg (by decide), if_neg (not_not.mpr rfl), readModule_new h hnew]

/-- The table of entries under their paths. -/
def byPath (entries : List LockEntry) : Table LockEntry :=
  entries.map fun entry => (entry.path, entry)

theorem readRows_new (lockPath : Text) {entries : List LockEntry}
    (hsafe : ∀ entry ∈ entries, SafeEntry entry ∧ PlainRef entry.requested) (reading : Reading)
    (hdistinct : (reading.entries ++ byPath entries).Distinct) (number : ℕ) :
    ((entries.map lockRow).zipIdx number).foldl (readRow lockPath) reading =
      { reading with entries := reading.entries ++ byPath entries } := by
  induction entries generalizing reading number with
  | nil =>
    rw [show byPath [] = [] from rfl, List.append_nil]
    rfl
  | cons entry entries ih =>
    obtain ⟨⟨hentry, href⟩, hrest⟩ := List.forall_mem_cons.mp hsafe
    have hnew : reading.entries.get entry.path = none := by
      refine (AssocList.get_eq_none_iff _ _).mpr fun e he => ?_
      exact (List.pairwise_append.mp hdistinct).2.2 e he _ List.mem_cons_self
    have hsplit : reading.entries ++ byPath (entry :: entries) =
        (reading.entries ++ [(entry.path, entry)]) ++ byPath entries := by
      rw [byPath, List.map_cons, List.append_cons]
      rfl
    rw [List.map_cons, List.zipIdx_cons, List.foldl_cons, readRow_new hentry href hnew,
      ih hrest _ (by rwa [← hsplit]), hsplit]

/-- Every reference is a word between spaces. -/
def PlainRefs (resolved : Table LockEntry) : Prop :=
  ∀ e ∈ resolved, PlainRef e.2.requested

theorem byPath_map (h : ∀ e ∈ resolved, e.2.path = e.1) :
    byPath (resolved.map Prod.snd) = resolved := by
  rw [byPath, List.map_map]
  refine (List.map_congr_left fun e he => ?_).trans (List.map_id resolved)
  exact Prod.ext (h e he) rfl

theorem byPath_perm (h : Recordable requirements resolved) :
    (byPath (writtenEntries resolved)).Perm resolved := by
  have hperm := (writtenEntries_perm h.distinct).map fun entry : LockEntry => (entry.path, entry)
  rwa [show (resolved.map Prod.snd).map (fun entry : LockEntry => (entry.path, entry)) = resolved
    from byPath_map h.path] at hperm

theorem mem_writtenEntries (h : Recordable requirements resolved)
    (hentry : entry ∈ writtenEntries resolved) :
    ∃ e ∈ resolved, e.2 = entry :=
  List.mem_map.mp ((writtenEntries_perm h.distinct).mem_iff.mp hentry)

theorem readLockText_lockText (h : Recordable requirements resolved)
    (hplain : PlainRefs resolved) (lockPath : Text) :
    readLockText lockPath (lockText resolved) =
      ⟨byPath (writtenEntries resolved), true, []⟩ := by
  have hentries : ∀ entry ∈ writtenEntries resolved, SafeEntry entry ∧ PlainRef entry.requested := by
    intro entry hentry
    obtain ⟨e, he, rfl⟩ := mem_writtenEntries h hentry
    exact ⟨h.safe e he, hplain e he⟩
  have hlines : ∀ row ∈ ascii "version 1" :: (writtenEntries resolved).map lockRow, 10 ∉ row := by
    rw [List.forall_mem_cons]
    refine ⟨by decide, List.forall_mem_map.mpr fun entry hentry => ?_⟩
    obtain ⟨e, he, rfl⟩ := mem_writtenEntries h hentry
    exact lockRow_oneLine (h.safe e he) (h.spelled e he).oneLine
  have hversion : readRow lockPath ⟨[], false, []⟩ (ascii "version 1", 1) = ⟨[], true, []⟩ := by
    have hwords : moduleWords (ascii "version 1") = [ascii "version", ascii "1"] := by decide
    rw [readRow, hwords]
    rfl
  have hdistinct : (byPath (writtenEntries resolved)).Distinct :=
    AssocList.Distinct.perm keys_equivalence h.distinct (byPath_perm h).symm
  have hrows := readRows_new lockPath hentries ⟨[], true, []⟩ hdistinct 2
  rw [readLockText, lockText_eq, Tokens.lines_marked hlines, List.zipIdx_cons, List.foldl_cons,
    hversion, hrows]
  rfl

/-- An entry of a row the reader takes. -/
structure ReadEntry (e : Text × LockEntry) : Prop where
  path : e.2.path = e.1
  safe : SafeEntry e.2
  plain : PlainRef e.2.requested

theorem readModule_entries (h : ∀ e ∈ reading.entries, ReadEntry e) {number : ℕ}
    {words : List Text} (hwords : ∀ word ∈ words, PlainRef word) :
    ∀ e ∈ (readModule lockPath reading number words).entries, ReadEntry e := by
  rw [readModule.eq_def]
  split
  · rename_i path requested commit tree
    have href : PlainRef requested := hwords requested (by simp)
    split_ifs with hids hpath hknown
    · exact h
    · exact h
    · rw [not_or, not_not, not_not] at hids
      intro e he
      rcases Table.mem_set he with rfl | hin
      · exact ⟨rfl, ⟨hpath, hids.1, hids.2⟩, href⟩
      · exact h e hin
    · exact h
  · exact h

theorem readRow_entries (h : ∀ e ∈ reading.entries, ReadEntry e) (row : Text × ℕ) :
    ∀ e ∈ (readRow lockPath reading row).entries, ReadEntry e := by
  have hwords : ∀ word ∈ moduleWords row.1, PlainRef word := fun word hword =>
    Tokens.words_spec hword
  rw [readRow]
  split
  · exact h
  · rename_i first rest heq
    rw [heq, List.forall_mem_cons] at hwords
    split_ifs
    all_goals first | exact h | exact readModule_entries h hwords.2

theorem readLockText_entries (lockPath text : Text) :
    ∀ e ∈ (readLockText lockPath text).entries, ReadEntry e := by
  have hall : ∀ (rows : List (Text × ℕ)) (reading : Reading), (∀ e ∈ reading.entries, ReadEntry e) →
      ∀ e ∈ (rows.foldl (readRow lockPath) reading).entries, ReadEntry e := by
    intro rows
    induction rows with
    | nil => exact fun reading h => h
    | cons row rows ih => exact fun reading h => ih _ (readRow_entries h row)
  have hrows := hall ((Tokens.lines 10 text).zipIdx 1) ⟨[], false, []⟩ (by nofun)
  rw [readLockText]
  split_ifs
  · exact hrows
  · exact hrows

end Packages
end Beans
