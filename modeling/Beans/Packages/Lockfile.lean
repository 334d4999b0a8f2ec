import Beans.Foundation.Tokens
import Beans.Interpreter.TreeValue
import Beans.Packages.SymbolText

/-!
# The lockfile

A manifest requests dependencies by git reference, and the lockfile records what they
resolved to, one row a dependency.  The manifest has quoted words; the rows of the
lockfile are cut at their spaces.
-/

namespace Beans
namespace Packages

open Interpreter (textLe)

/-- `Map<string, T>`, in the order the keys came in. -/
abbrev Table (α : Type*) := List (Text × α)

namespace Table

variable {α : Type*}

def get (table : Table α) (key : Text) : Option α :=
  AssocList.get (· == ·) table key

/-- `table[key] = value`. -/
def set (table : Table α) (key : Text) (value : α) : Table α :=
  if (table.get key).isSome then AssocList.modify (· == ·) (fun _ => value) key table
  else table ++ [(key, value)]

end Table

def isSpace (byte : UInt8) : Bool :=
  byte == 32 || byte == 9 || byte == 10 || byte == 13 || byte == 12 || byte == 11

def moduleWords (line : Text) : List Text :=
  Tokens.words 32 (Tokens.trim isSpace line)

/-- The scan of `manifest_words` between two bytes. -/
structure WordScan where
  words : List Text
  word : Text
  started : Bool
  quoted : Bool
  escaping : Bool

/-- The words of a manifest line; quotes keep blanks together. -/
def manifestScan : Text → WordScan → WordScan
  | [], scan => scan
  | byte :: rest, scan =>
    if scan.quoted then
      if scan.escaping then
        manifestScan rest { scan with word := scan.word ++ [byte], escaping := false }
      else if byte = 92 then manifestScan rest { scan with escaping := true }
      else if byte = 34 then manifestScan rest { scan with quoted := false }
      else manifestScan rest { scan with word := scan.word ++ [byte] }
    else if byte = 34 then manifestScan rest { scan with quoted := true, started := true }
    else if byte = 35 ∨ (byte = 47 ∧ rest.head? = some 47) then scan
    else if byte = 32 ∨ byte = 9 ∨ byte = 13 then
      if scan.started then
        manifestScan rest { scan with words := scan.words ++ [scan.word], word := [], started := false }
      else manifestScan rest scan
    else manifestScan rest { scan with word := scan.word ++ [byte], started := true }

def manifestWords (line : Text) : List Text :=
  let scan := manifestScan line ⟨[], [], false, false, false⟩
  if scan.quoted ∨ scan.escaping then [ascii "$manifest-error:unterminated-quote$"]
  else if scan.started then scan.words ++ [scan.word]
  else scan.words

/-- A git object name, in hex digits. -/
def safeGitId (value : Text) : Bool :=
  decide (7 ≤ value.length) && decide (value.length ≤ 128) &&
    value.all fun byte =>
      (48 ≤ byte && byte ≤ 57) || (65 ≤ byte && byte ≤ 70) || (97 ≤ byte && byte ≤ 102)

/-- Three segments without a dot-dot: a host, an owner and a repository. -/
def safeRemotePath (value : Text) : Bool :=
  if value = [] ∨ value.head? = some 47 ∨ (find (ascii "..") value).isSome then false
  else
    let segments := value.splitOn 47
    decide (segments.length = 3) && segments.all fun segment =>
      !segment.isEmpty && segment.all fun byte =>
        (48 ≤ byte && byte ≤ 57) || (65 ≤ byte && byte ≤ 90) || (97 ≤ byte && byte ≤ 122) ||
          byte == 45 || byte == 46 || byte == 95

structure LockEntry where
  path : Text
  requested : Text
  commit : Text
  tree : Text
deriving DecidableEq

structure ModuleRequirement where
  requested : Text
  file : Text
  line : ℕ

/-- A diagnostic of the loader. -/
structure Failure where
  file : Text
  line : ℕ
  col : ℕ
  message : Text
deriving DecidableEq

/-- What `read_lock` has read so far. -/
structure Reading where
  entries : Table LockEntry
  sawVersion : Bool
  failures : List Failure

def Reading.fail (reading : Reading) (file : Text) (line col : ℕ) (message : Text) : Reading :=
  { reading with failures := reading.failures ++ [⟨file, line, col, message⟩] }

/-- A row that starts with the word `module`. -/
def readModule (lockPath : Text) (reading : Reading) (number : ℕ) : List Text → Reading
  | [path, requested, commit, tree] =>
    if ¬ safeGitId commit ∨ ¬ safeGitId tree then
      reading.fail lockPath number 1
        (ascii "module rows need path, requested ref, commit and tree hash")
    else if ¬ safeRemotePath path then
      reading.fail lockPath number 1 (ascii "unsafe dependency path '" ++ path ++ ascii "'")
    else if (reading.entries.get path).isSome then
      reading.fail lockPath number 1 (ascii "dependency '" ++ path ++ ascii "' appears twice")
    else
      { reading with entries := reading.entries.set path ⟨path, requested, commit, tree⟩ }
  | _ =>
    reading.fail lockPath number 1
      (ascii "module rows need path, requested ref, commit and tree hash")

/-- A row with anything amiss is reported, and the reading goes on. -/
def readRow (lockPath : Text) (reading : Reading) (row : Text × ℕ) : Reading :=
  match moduleWords row.1 with
  | [] => reading
  | first :: rest =>
    if (ascii "//").isPrefixOf first then reading
    else if first = ascii "version" then
      let checked :=
        if rest ≠ [ascii "1"] then
          reading.fail lockPath row.2 1 (ascii "beans.lock version must be exactly 'version 1'")
        else if reading.sawVersion then
          reading.fail lockPath row.2 1 (ascii "beans.lock has more than one version line")
        else reading
      { checked with sawVersion := true }
    else if first ≠ ascii "module" then
      reading.fail lockPath row.2 1 (ascii "unknown beans.lock row '" ++ first ++ ascii "'")
    else readModule lockPath reading row.2 rest

/-- `read_lock` of a file that exists. -/
def readLockText (lockPath text : Text) : Reading :=
  let reading := ((Tokens.lines 10 text).zipIdx 1).foldl (readRow lockPath) ⟨[], false, []⟩
  if reading.sawVersion then reading
  else reading.fail lockPath 0 0 (ascii "beans.lock needs a 'version 1' line")

def readLock (locked offline hasLocalDependencies : Bool) (lockPath : Text) : Option Text → Reading
  | some text => readLockText lockPath text
  | none =>
    let reading : Reading := ⟨[], false, []⟩
    if offline && !hasLocalDependencies then
      reading.fail lockPath 0 0 (ascii "offline dependency loading needs a committed beans.lock")
    else if locked && !hasLocalDependencies then
      reading.fail lockPath 0 0 (ascii "--locked needs a committed beans.lock")
    else reading

/-- The row of an entry: four words after `module`. -/
def lockRow (entry : LockEntry) : Text :=
  ascii "module " ++ entry.path ++ ascii " " ++ entry.requested ++ ascii " " ++ entry.commit ++
    ascii " " ++ entry.tree

/-- The contents `write_lock` puts into the file. -/
def lockText (resolved : Table LockEntry) : Text :=
  let keys := (resolved.map Prod.fst).insertionSort textLe
  let entries := keys.filterMap resolved.get
  ascii "version 1\n" ++ entries.flatMap fun entry => lockRow entry ++ ascii "\n"

/-- A directory of the cache as git sees it: the commit and the tree it is at, if git can
tell, whether it is clean, and whether it holds a manifest. -/
structure Checkout where
  head : Option Text
  tree : Option Text
  clean : Bool
  manifest : Bool

/-- The cache and git when a dependency is resolved. -/
structure World where
  /-- Where the cache keeps a dependency at a commit. -/
  directory : Text → Text → Text
  cached : Text → Text → Option Checkout
  /-- A clone that is brought to a reference: the commit and the tree it is then at. -/
  clone : Text → Text → Except Failure (Text × Text)
  /-- The clone under its commit in the cache. -/
  place : Text → Text → Except Failure Checkout

structure ModuleLoader where
  root : Text
  lockPath : Text
  manifestPath : Text
  requirements : Table ModuleRequirement
  lockEntries : Table LockEntry
  resolvedEntries : Table LockEntry
  locked : Bool
  offline : Bool
  lockMode : Text
  updateModule : Text
  failures : List Failure

namespace ModuleLoader

def fail (loader : ModuleLoader) (file : Text) (line col : ℕ) (message : Text) : ModuleLoader :=
  { loader with failures := loader.failures ++ [⟨file, line, col, message⟩] }

/-- What is wrong with a checkout of the cache. -/
def verifyCheckout (checkout : Checkout) (entry : LockEntry) : Option Text :=
  match checkout.head, checkout.tree with
  | some head, some tree =>
    if head ≠ entry.commit then some (ascii "cached checkout commit differs from beans.lock")
    else if tree ≠ entry.tree then
      some (ascii "cached checkout content hash differs from beans.lock")
    else if ¬ checkout.clean then some (ascii "cached checkout has local content changes")
    else none
  | _, _ => some (ascii "cached checkout is not a readable git repository")

/-- Takes a checkout that holds a manifest as the dependency. -/
def record (loader : ModuleLoader) (remotePath directory message : Text) (manifest : Bool)
    (entry : LockEntry) : ModuleLoader × Text :=
  if ¬ manifest then (loader.fail directory 0 0 message, [])
  else
    ({ loader with resolvedEntries := loader.resolvedEntries.set remotePath entry }, directory)

/-- The entry of a clone, made from the one of the lockfile if there is one. -/
def fetched (remotePath requested commit tree : Text) : Option LockEntry → LockEntry
  | some entry => { entry with commit := commit, tree := tree }
  | none => ⟨remotePath, requested, commit, tree⟩

/-- The part of `ensure_remote` that goes to the network. -/
def fetch (world : World) (loader : ModuleLoader) (remotePath : Text)
    (requirement : ModuleRequirement) (lockedEntry : Option LockEntry) : ModuleLoader × Text :=
  let ref := match lockedEntry with
    | some entry => entry.commit
    | none => requirement.requested
  match world.clone remotePath ref with
  | .error failure => ({ loader with failures := loader.failures ++ [failure] }, [])
  | .ok (commit, tree) =>
    let resolved := fetched remotePath requirement.requested commit tree lockedEntry
    let directory := world.directory remotePath commit
    let missing := remotePath ++ ascii " is not a Beans package (no beans.pot)"
    if ¬ safeGitId commit ∨ ¬ safeGitId tree then
      (loader.fail requirement.file requirement.line 1
        (ascii "could not resolve the commit and content hash for " ++ remotePath), [])
    else if lockedEntry.any fun entry => commit ≠ entry.commit || tree ≠ entry.tree then
      (loader.fail loader.root 0 0
        (ascii "fetched dependency does not match beans.lock for " ++ remotePath), [])
    else
      match world.cached remotePath commit with
      | some checkout =>
        match verifyCheckout checkout resolved with
        | some message => (loader.fail directory 0 0 message, [])
        | none => loader.record remotePath directory missing checkout.manifest resolved
      | none =>
        match world.place remotePath commit with
        | .error failure => ({ loader with failures := loader.failures ++ [failure] }, [])
        | .ok checkout => loader.record remotePath directory missing checkout.manifest resolved

/-- The checkout of a dependency, or the empty text after a failure. -/
def ensureRemote (world : World) (loader : ModuleLoader) (remotePath : Text) :
    ModuleLoader × Text :=
  if ¬ safeRemotePath remotePath then
    (loader.fail loader.root 0 0 (ascii "unsafe git dependency path '" ++ remotePath ++ ascii "'"), [])
  else
    match loader.requirements.get remotePath with
    | none =>
      (loader.fail loader.root 0 0 (ascii "dependency " ++ remotePath ++
        ascii " is not in beans.pot; run 'beansc pot add " ++ remotePath ++ ascii "'"), [])
    | some requirement =>
      let refresh := loader.lockMode = ascii "update" ∧
        (loader.updateModule = [] ∨ loader.updateModule = remotePath)
      match if refresh then none else loader.lockEntries.get remotePath with
      | some entry =>
        if entry.requested ≠ requirement.requested then
          (loader.fail loader.lockPath 0 0 (ascii "dependency " ++ remotePath ++
            ascii " now requests " ++ requirement.requested ++
            ascii " but beans.lock records " ++ entry.requested), [])
        else
          match world.cached remotePath entry.commit with
          | some checkout =>
            let directory := world.directory remotePath entry.commit
            match verifyCheckout checkout entry with
            | some message => (loader.fail directory 0 0 message, [])
            | none =>
              loader.record remotePath directory (ascii "cached package has no beans.pot")
                checkout.manifest entry
          | none =>
            if loader.offline then
              (loader.fail loader.root 0 0 (ascii "offline dependency " ++ remotePath ++
                ascii " is not present in the content cache"), [])
            else fetch world loader remotePath requirement (some entry)
      | none =>
        if loader.locked ∨ loader.offline then
          (loader.fail loader.lockPath 0 0 (ascii "dependency " ++ remotePath ++
            ascii " is missing from beans.lock"), [])
        else fetch world loader remotePath requirement none

/-- The packages of a load, each with the cache as it is found. -/
def resolveAll (loader : ModuleLoader) (imports : List (Text × World)) : ModuleLoader :=
  imports.foldl (fun loader call => (ensureRemote call.2 loader call.1).1) loader

/-- The check that every row of the lockfile was needed. -/
def checkUnused (loader : ModuleLoader) : ModuleLoader :=
  if loader.locked ∨ loader.offline then
    (loader.lockEntries.map Prod.fst).foldl (fun loader lockedPath =>
      if (loader.resolvedEntries.get lockedPath).isSome then loader
      else
        loader.fail loader.lockPath 0 0
          (ascii "beans.lock contains unused dependency " ++ lockedPath)) loader
  else loader

/-- The end of a load: what it writes to the lockfile. -/
def finish (world : World) (loader : ModuleLoader) : ModuleLoader × Option Text :=
  if loader.failures = [] ∧ loader.lockMode ≠ ascii "use" then
    let updated :=
      if loader.updateModule ≠ [] ∧ loader.resolvedEntries.get loader.updateModule = none then
        if (loader.requirements.get loader.updateModule).isSome then
          (ensureRemote world loader loader.updateModule).1
        else
          loader.fail loader.manifestPath 0 0
            (ascii "cannot update unknown dependency " ++ loader.updateModule)
      else loader
    (updated, if updated.failures = [] then some (lockText updated.resolvedEntries) else none)
  else (loader, none)

/-- A load of a project as far as the lockfile goes. -/
def load (hasLocalDependencies : Bool) (file : Option Text) (imports : List (Text × World))
    (world : World) (loader : ModuleLoader) : ModuleLoader × Option Text :=
  let reading := readLock loader.locked loader.offline hasLocalDependencies loader.lockPath file
  let opened := { loader with
    lockEntries := reading.entries, resolvedEntries := [], failures := reading.failures }
  if reading.failures ≠ [] then (opened, none)
  else finish world (opened.resolveAll imports).checkUnused

end ModuleLoader

end Packages
end Beans
