import Beans.Packages.LockRoundTrip

/-!
# Loading against a lockfile

Whatever a load writes is a set of dependencies that can be recorded.  A locked load
of the same manifests accepts them when the lockfile restores them.

**Input.**  A graph of manifests, the rows of a lockfile and what git answers.

**Results.**
* `lock_round_trip`: rows are read back exactly when every reference is a single word.
* `lock_round_trip_search`: a reference with a space is not.
* `load_roundTrips`: what a load wrote is read back, and a locked load accepts it, with the
  checkouts of the load still in the cache.
-/

namespace Beans
namespace Packages

namespace ModuleLoader

variable {world : World} {loader : ModuleLoader} {remotePath : Text} {entry : LockEntry}

/-- The cache holds the checkout an entry names, with nothing changed in it. -/
def Holds (world : World) (remotePath : Text) (entry : LockEntry) : Prop :=
  world.cached remotePath entry.commit = some ⟨some entry.commit, some entry.tree, true, true⟩

/-- The rows of a lockfile that was read. -/
def LockSound (entries : Table LockEntry) : Prop :=
  ∀ e ∈ entries, e.2.path = e.1 ∧ SafeEntry e.2

/-- What can be recorded for a dependency. -/
structure Resolved (requirements : Table ModuleRequirement) (remotePath : Text)
    (entry : LockEntry) : Prop where
  path : entry.path = remotePath
  safe : SafeEntry entry
  requested : ∃ requirement, requirements.get remotePath = some requirement ∧
    requirement.requested = entry.requested

/-- What resolving a dependency does to the loader, its failures apart. -/
structure Steps (loader loader' : ModuleLoader) (remotePath : Text) : Prop where
  requirements : loader'.requirements = loader.requirements
  lockEntries : loader'.lockEntries = loader.lockEntries
  resolved : loader'.resolvedEntries = loader.resolvedEntries ∨
    ∃ entry, Resolved loader.requirements remotePath entry ∧
      loader'.resolvedEntries = loader.resolvedEntries.set remotePath entry

theorem steps_fail (loader : ModuleLoader) (remotePath : Text) (failures : List Failure) :
    Steps loader { loader with failures := failures } remotePath :=
  ⟨rfl, rfl, .inl rfl⟩

theorem record_steps (h : Resolved loader.requirements remotePath entry)
    (directory message : Text) (manifest : Bool) :
    Steps loader (record loader remotePath directory message manifest entry).1 remotePath := by
  rw [record]
  split_ifs
  · exact ⟨rfl, rfl, .inr ⟨entry, h, rfl⟩⟩
  · exact steps_fail _ _ _

variable {requirement : ModuleRequirement} {requirements : Table ModuleRequirement}
  {imports : List (Text × World)}

theorem fetch_steps {lockedEntry : Option LockEntry} (hpath : safeRemotePath remotePath = true)
    (hrequirement : loader.requirements.get remotePath = some requirement)
    (hlocked : ∀ entry ∈ lockedEntry,
      entry.path = remotePath ∧ entry.requested = requirement.requested) :
    Steps loader (fetch world loader remotePath requirement lockedEntry).1 remotePath := by
  rw [fetch.eq_def]
  dsimp only
  split
  · exact steps_fail _ _ _
  rename_i commit tree _
  by_cases hids : ¬ safeGitId commit = true ∨ ¬ safeGitId tree = true
  · rw [if_pos hids]
    exact steps_fail _ _ _
  rw [if_neg hids]
  split
  · exact steps_fail _ _ _
  have hresolved : Resolved loader.requirements remotePath
      (fetched remotePath requirement.requested commit tree lockedEntry) := by
    rw [not_or, not_not, not_not] at hids
    cases lockedEntry with
    | none => exact ⟨rfl, ⟨hpath, hids.1, hids.2⟩, requirement, hrequirement, rfl⟩
    | some entry =>
      obtain ⟨hentry, hrequested⟩ := hlocked entry rfl
      exact ⟨hentry, ⟨hentry.symm ▸ hpath, hids.1, hids.2⟩, requirement, hrequirement,
        hrequested.symm⟩
  split
  · split
    · exact steps_fail _ _ _
    · exact record_steps hresolved _ _ _
  · split
    · exact steps_fail _ _ _
    · exact record_steps hresolved _ _ _

theorem ensureRemote_steps (hlock : LockSound loader.lockEntries) (world : World)
    (remotePath : Text) :
    Steps loader (ensureRemote world loader remotePath).1 remotePath := by
  rw [ensureRemote]
  by_cases hpath : safeRemotePath remotePath = true
  swap
  · rw [if_pos hpath]
    exact steps_fail _ _ _
  rw [if_neg (not_not.mpr hpath)]
  split
  · exact steps_fail _ _ _
  rename_i requirement hrequirement
  dsimp only
  split
  · rename_i entry hentry
    have hget : loader.lockEntries.get remotePath = some entry := by
      split_ifs at hentry
      exact hentry
    have hsound := hlock _ (Table.mem_of_get hget)
    by_cases hrequested : entry.requested = requirement.requested
    swap
    · rw [if_pos hrequested]
      exact steps_fail _ _ _
    rw [if_neg (not_not.mpr hrequested)]
    have hresolved : Resolved loader.requirements remotePath entry :=
      ⟨hsound.1, hsound.2, requirement, hrequirement, hrequested.symm⟩
    split
    · split
      · exact steps_fail _ _ _
      · exact record_steps hresolved _ _ _
    · split_ifs
      · exact steps_fail _ _ _
      · refine fetch_steps hpath hrequirement fun other hother => ?_
        cases hother
        exact ⟨hsound.1, hrequested⟩
  · split_ifs
    · exact steps_fail _ _ _
    · exact fetch_steps hpath hrequirement (by nofun)

/-- A loader between two dependencies. -/
structure Recording (requirements : Table ModuleRequirement) (loader : ModuleLoader) : Prop where
  same : loader.requirements = requirements
  sound : LockSound loader.lockEntries
  recordable : Recordable requirements loader.resolvedEntries

theorem Steps.recording (hspelled : ∀ e ∈ requirements, Spelled e.2.requested)
    {loader' : ModuleLoader} (hsteps : Steps loader loader' remotePath)
    (h : Recording requirements loader) :
    Recording requirements loader' := by
  refine ⟨hsteps.requirements.trans h.same, hsteps.lockEntries ▸ h.sound, ?_⟩
  rcases hsteps.resolved with heq | ⟨entry, hentry, heq⟩
  · exact heq ▸ h.recordable
  obtain ⟨requirement, hget, hrequested⟩ := hentry.requested
  rw [h.same] at hget
  have hspelled' : Spelled entry.requested := hrequested ▸ hspelled _ (Table.mem_of_get hget)
  have hold := h.recordable
  rw [heq]
  refine ⟨hold.distinct.set _ _, ?_, ?_, ?_, ?_⟩
  all_goals
    intro e he
    rcases Table.mem_set he with rfl | hin
  · exact hentry.path
  · exact hold.path e hin
  · exact hentry.safe
  · exact hold.safe e hin
  · exact ⟨requirement, hget, hrequested⟩
  · exact hold.requested e hin
  · exact hspelled'
  · exact hold.spelled e hin

theorem resolveAll_recording (hspelled : ∀ e ∈ requirements, Spelled e.2.requested)
    (imports : List (Text × World)) (h : Recording requirements loader) :
    Recording requirements (resolveAll loader imports) := by
  induction imports generalizing loader with
  | nil => exact h
  | cons call imports ih =>
    exact ih ((ensureRemote_steps h.sound call.2 call.1).recording hspelled h)

theorem checkUnused_recording (h : Recording requirements loader) :
    Recording requirements (checkUnused loader) := by
  rw [checkUnused]
  split_ifs with hmode
  · clear hmode
    generalize loader.lockEntries.map Prod.fst = paths
    induction paths generalizing loader with
    | nil => exact h
    | cons path paths ih =>
      rw [List.foldl_cons]
      split_ifs
      · exact ih h
      · exact ih ⟨h.same, h.sound, h.recordable⟩
  · exact h

theorem readLock_sound (locked offline hasLocalDependencies : Bool) (lockPath : Text)
    (file : Option Text) :
    LockSound (readLock locked offline hasLocalDependencies lockPath file).entries := by
  cases file with
  | some text =>
    exact fun e he =>
      have hentry := readLockText_entries lockPath text e he
      ⟨hentry.path, hentry.safe⟩
  | none =>
    rw [readLock]
    split_ifs
    all_goals exact (by nofun)

/-- Whatever a load writes to the lockfile is a set of recordable dependencies. -/
theorem load_recordable (hspelled : ∀ e ∈ loader.requirements, Spelled e.2.requested)
    {hasLocalDependencies : Bool} {file : Option Text} {world : World} {text : Text}
    (h : (load hasLocalDependencies file imports world loader).2 = some text) :
    ∃ resolved, text = lockText resolved ∧ Recordable loader.requirements resolved := by
  rw [load] at h
  split_ifs at h with hfailures
  have hstart : Recording loader.requirements { loader with
      lockEntries := (readLock loader.locked loader.offline hasLocalDependencies loader.lockPath
        file).entries
      resolvedEntries := []
      failures := (readLock loader.locked loader.offline hasLocalDependencies loader.lockPath
        file).failures } :=
    ⟨rfl, readLock_sound _ _ _ _ _, ⟨List.Pairwise.nil, by nofun, by nofun, by nofun, by nofun⟩⟩
  have hchecked := checkUnused_recording (resolveAll_recording hspelled imports hstart)
  generalize checkUnused _ = checked at h hchecked
  -- the module of the command may have to be resolved besides
  have hwritten : ∀ updated : ModuleLoader, Recording loader.requirements updated →
      (if updated.failures = [] then some (lockText updated.resolvedEntries) else none) = some text →
        ∃ resolved, text = lockText resolved ∧ Recordable loader.requirements resolved := by
    intro updated hupdated hsome
    split_ifs at hsome
    exact ⟨_, (Option.some.inj hsome).symm, hupdated.recordable⟩
  rw [finish] at h
  by_cases hwrite : checked.failures = [] ∧ checked.lockMode ≠ ascii "use"
  swap
  · rw [if_neg hwrite] at h
    cases h
  rw [if_pos hwrite] at h
  dsimp only at h
  refine hwritten _ ?_ h
  split_ifs
  · exact (ensureRemote_steps hchecked.sound world _).recording hspelled hchecked
  · exact ⟨hchecked.same, hchecked.sound, hchecked.recordable⟩
  · exact hchecked

theorem ensureRemote_locked (hsafe : safeRemotePath remotePath = true)
    (hrequirement : loader.requirements.get remotePath = some requirement)
    (hrequested : requirement.requested = entry.requested)
    (hlock : loader.lockEntries.get remotePath = some entry)
    (hmode : loader.lockMode = ascii "use") (hholds : Holds world remotePath entry) :
    (ensureRemote world loader remotePath).1 =
      { loader with resolvedEntries := loader.resolvedEntries.set remotePath entry } := by
  have hverify : verifyCheckout ⟨some entry.commit, some entry.tree, true, true⟩ entry = none := by
    simp [verifyCheckout]
  have hrefresh : ¬ (loader.lockMode = ascii "update" ∧
      (loader.updateModule = [] ∨ loader.updateModule = remotePath)) := by
    rw [hmode]
    exact fun h => absurd h.1 (by decide)
  rw [Holds] at hholds
  rw [ensureRemote, if_neg (not_not.mpr hsafe), hrequirement]
  simp only [if_neg hrefresh, hlock, hrequested, ne_eq, not_true_eq_false, if_false, hholds, hverify]
  rw [record, if_neg (not_not.mpr rfl)]

/-- The dependencies of a load: what is imported was resolved, and the cache has it. -/
structure Imports (resolved : Table LockEntry) (imports : List (Text × World)) : Prop where
  held : ∀ call ∈ imports, ∃ entry, resolved.get call.1 = some entry ∧ Holds call.2 call.1 entry
  all : ∀ e ∈ resolved, e.1 ∈ imports.map Prod.fst

theorem resolveAll_locked {resolved : Table LockEntry} (h : Recordable requirements resolved)
    (himports : ∀ call ∈ imports,
      ∃ entry, resolved.get call.1 = some entry ∧ Holds call.2 call.1 entry)
    (hrequirements : loader.requirements = requirements)
    (hlock : ∀ path, loader.lockEntries.get path = resolved.get path)
    (hmode : loader.lockMode = ascii "use") :
    ∃ entries : Table LockEntry, resolveAll loader imports = { loader with resolvedEntries := entries } ∧
      ∀ path, entries.get path =
        if path ∈ imports.map Prod.fst then resolved.get path else loader.resolvedEntries.get path := by
  induction imports generalizing loader with
  | nil => exact ⟨_, rfl, fun path => (if_neg List.not_mem_nil).symm⟩
  | cons call imports ih =>
    obtain ⟨⟨entry, hget, hholds⟩, hrest⟩ := List.forall_mem_cons.mp himports
    have hmem := Table.mem_of_get hget
    obtain ⟨requirement, hrequirement, hrequested⟩ := h.requested _ hmem
    have hsafe : safeRemotePath call.1 = true := h.path _ hmem ▸ (h.safe _ hmem).path
    have hstep := ensureRemote_locked hsafe (hrequirements ▸ hrequirement) hrequested
      ((hlock call.1).trans hget) hmode hholds
    let next := { loader with resolvedEntries := loader.resolvedEntries.set call.1 entry }
    have hnext : next.requirements = requirements := hrequirements
    obtain ⟨entries, heq, hentries⟩ := ih hrest hnext hlock hmode
    refine ⟨entries, ?_, fun path => ?_⟩
    · rw [resolveAll, List.foldl_cons, hstep]
      exact heq
    · rw [hentries, List.map_cons]
      have hset := Table.get_set loader.resolvedEntries call.1 entry path
      by_cases hin : path ∈ imports.map Prod.fst
      · rw [if_pos hin, if_pos (List.mem_cons_of_mem _ hin)]
      · rw [if_neg hin]
        refine hset.trans ?_
        by_cases hcall : call.1 = path
        · rw [if_pos hcall, if_pos (hcall ▸ List.mem_cons_self), ← hcall, hget]
        · rw [if_neg hcall, if_neg]
          intro hmem
          rcases List.mem_cons.mp hmem with heq' | hin'
          · exact hcall heq'.symm
          · exact hin hin'

theorem checkUnused_eq
    (h : ∀ path ∈ loader.lockEntries.map Prod.fst, (loader.resolvedEntries.get path).isSome = true) :
    checkUnused loader = loader := by
  rw [checkUnused]
  split_ifs
  · generalize loader.lockEntries.map Prod.fst = paths at h
    induction paths with
    | nil => rfl
    | cons path paths ih =>
      obtain ⟨hpath, hrest⟩ := List.forall_mem_cons.mp h
      rw [List.foldl_cons, if_pos hpath]
      exact ih hrest
  · rfl

end ModuleLoader

open ModuleLoader

/-- The lockfile written for a set of dependencies is read without an error and restores
them, and a locked load of the same manifests accepts every one. -/
structure RoundTrips (requirements : Table ModuleRequirement) (resolved : Table LockEntry) :
    Prop where
  noError : ∀ lockPath, (readLockText lockPath (lockText resolved)).failures = []
  restored : ∀ lockPath path,
    (readLockText lockPath (lockText resolved)).entries.get path = resolved.get path
  accepted : ∀ (loader : ModuleLoader) (hasLocalDependencies : Bool)
    (imports : List (Text × World)) (world : World),
    loader.requirements = requirements → loader.locked = true → loader.lockMode = ascii "use" →
      Imports resolved imports →
        let loaded := (load hasLocalDependencies (some (lockText resolved)) imports world loader).1
        loaded.failures = [] ∧ ∀ path, loaded.resolvedEntries.get path = resolved.get path

variable {requirements : Table ModuleRequirement} {resolved : Table LockEntry}

theorem restored_of_plain (h : Recordable requirements resolved) (hplain : PlainRefs resolved)
    (lockPath path : Text) :
    (readLockText lockPath (lockText resolved)).entries.get path = resolved.get path := by
  rw [readLockText_lockText h hplain]
  refine (AssocList.get_perm keys_equivalence ?_ (byPath_perm h) path)
  exact AssocList.Distinct.perm keys_equivalence h.distinct (byPath_perm h).symm

/-- A locked load finds the row and the clean checkout of every requirement. -/
theorem load_accepts (h : Recordable requirements resolved) (hplain : PlainRefs resolved)
    {loader : ModuleLoader} (hasLocalDependencies : Bool) {imports : List (Text × World)}
    (world : World) (hrequirements : loader.requirements = requirements)
    (hmode : loader.lockMode = ascii "use") (himports : Imports resolved imports) :
    let loaded := (load hasLocalDependencies (some (lockText resolved)) imports world loader).1
    loaded.failures = [] ∧ ∀ path, loaded.resolvedEntries.get path = resolved.get path := by
  have hread := readLockText_lockText h hplain loader.lockPath
  have hrestored := restored_of_plain h hplain loader.lockPath
  rw [hread] at hrestored
  let opened : ModuleLoader := { loader with
    lockEntries := byPath (writtenEntries resolved), resolvedEntries := [], failures := [] }
  have hopened : opened.requirements = requirements := hrequirements
  obtain ⟨entries, heq, hentries⟩ := resolveAll_locked h himports.held hopened hrestored hmode
  have hall : ∀ path, entries.get path = resolved.get path := by
    intro path
    rw [hentries]
    split_ifs with hin
    · rfl
    · refine ((AssocList.get_eq_none_iff _ _).mpr fun e he => ?_).symm
      refine beq_eq_false_iff_ne.mpr fun hpath => hin ?_
      exact hpath ▸ himports.all e he
  have hunused : checkUnused (resolveAll opened imports) = { opened with resolvedEntries := entries } := by
    rw [heq]
    refine checkUnused_eq fun path hpath => ?_
    obtain ⟨e, he, rfl⟩ := List.mem_map.mp hpath
    have hmem := (byPath_perm h).mem_iff.mp he
    have hsome := Table.get_of_mem h.distinct hmem
    rw [show ({ opened with resolvedEntries := entries } : ModuleLoader).resolvedEntries = entries
      from rfl, hall, hsome]
    rfl
  have hload : load hasLocalDependencies (some (lockText resolved)) imports world loader =
      finish world (checkUnused (resolveAll opened imports)) := by
    rw [load, readLock, hread]
    exact if_neg (not_not.mpr rfl)
  rw [hload, hunused, finish, if_neg fun hboth => hboth.2 hmode]
  exact ⟨rfl, hall⟩

/-- What a load wrote is read back, and a locked load of the same manifests accepts it. -/
theorem load_roundTrips
    {loader : ModuleLoader}
    (hspelled : ∀ e ∈ loader.requirements, Spelled e.2.requested)
    (hplain : ∀ e ∈ loader.requirements, e.2.requested ≠ [] ∧ 32 ∉ e.2.requested)
    {hasLocalDependencies : Bool}
    {file : Option Text}
    {imports : List (Text × World)}
    {world : World}
    {text : Text}
    (h : (load hasLocalDependencies file imports world loader).2 = some text) :
    ∃ resolved, text = lockText resolved ∧ Recordable loader.requirements resolved ∧
      RoundTrips loader.requirements resolved := by
  obtain ⟨resolved, htext, hrecordable⟩ := load_recordable hspelled h
  have hrefs : PlainRefs resolved := by
    intro e he
    obtain ⟨requirement, hget, hrequested⟩ := hrecordable.requested e he
    exact hrequested ▸ hplain _ (Table.mem_of_get hget)
  refine ⟨resolved, htext, hrecordable, fun lockPath => ?_, restored_of_plain hrecordable hrefs, ?_⟩
  · rw [readLockText_lockText hrecordable hrefs]
  · intro loader' locals imports' world' hrequirements _ hmode himports
    exact load_accepts hrecordable hrefs locals world' hrequirements hmode himports

/-- The lockfile of recordable dependencies makes the round trip exactly when every
requested reference is a word between spaces. -/
theorem lock_round_trip
    {requirements : Table ModuleRequirement}
    {resolved : Table LockEntry}
    (h : Recordable requirements resolved) :
    RoundTrips requirements resolved ↔
      ∀ e ∈ resolved, e.2.requested ≠ [] ∧ 32 ∉ e.2.requested := by
  constructor
  · intro hround e he
    have hget := (hround.restored [] e.1).trans (Table.get_of_mem h.distinct he)
    exact (readLockText_entries [] (lockText resolved) _ (Table.mem_of_get hget)).plain
  · intro hplain
    refine ⟨fun lockPath => ?_, restored_of_plain h hplain, ?_⟩
    · rw [readLockText_lockText h hplain]
    · intro loader hasLocalDependencies imports world hrequirements _ hmode himports
      exact load_accepts h hplain hasLocalDependencies world hrequirements hmode himports

/-- A manifest with one requirement. -/
def oneRequirement (requested : Text) : Table ModuleRequirement :=
  [(ascii "github.com/acme/dep", ⟨requested, ascii "beans.pot", 2⟩)]

/-- What the requirement resolved to. -/
def oneResolved (requested : Text) : Table LockEntry :=
  [(ascii "github.com/acme/dep", ⟨ascii "github.com/acme/dep", requested,
    ascii "0123456789abcdef", ascii "fedcba9876543210"⟩)]

theorem oneResolved_recordable {line requested : Text} (hline : 10 ∉ line)
    (hwords : manifestWords line = [ascii "require", ascii "github.com/acme/dep", requested]) :
    Recordable (oneRequirement requested) (oneResolved requested) := by
  have hpath : safeRemotePath (ascii "github.com/acme/dep") = true := by decide +kernel
  have hcommit : safeGitId (ascii "0123456789abcdef") = true := by decide +kernel
  have htree : safeGitId (ascii "fedcba9876543210") = true := by decide +kernel
  exact {
    distinct := List.pairwise_singleton _ _
    path := List.forall_mem_singleton.mpr rfl
    safe := List.forall_mem_singleton.mpr ⟨hpath, hcommit, htree⟩
    requested := List.forall_mem_singleton.mpr ⟨_, rfl, rfl⟩
    spelled := List.forall_mem_singleton.mpr ⟨line, _, hline, hwords⟩ }

/-- A reference with a space, which git takes and a quoted word spells, is not read
back. -/
theorem lock_round_trip_search :
    Recordable (oneRequirement (ascii "HEAD^\x7b/fix bug\x7d"))
        (oneResolved (ascii "HEAD^\x7b/fix bug\x7d")) ∧
      ¬ RoundTrips (oneRequirement (ascii "HEAD^\x7b/fix bug\x7d"))
        (oneResolved (ascii "HEAD^\x7b/fix bug\x7d")) := by
  refine ⟨@oneResolved_recordable
    (ascii "require github.com/acme/dep \"HEAD^\x7b/fix bug\x7d\"") _ (by decide +kernel)
    (by decide +kernel), fun hround => ?_⟩
  exact absurd (hround.noError []) (by decide +kernel)

/-- A tag makes the round trip. -/
theorem lock_round_trip_tag :
    RoundTrips (oneRequirement (ascii "v1")) (oneResolved (ascii "v1")) ↔
      ∀ e ∈ oneResolved (ascii "v1"), e.2.requested ≠ [] ∧ 32 ∉ e.2.requested :=
  lock_round_trip (@oneResolved_recordable (ascii "require github.com/acme/dep v1") (ascii "v1")
    (by decide +kernel) (by decide +kernel))

/-- Every module is cloned at one commit. -/
def cloning : World :=
  ⟨fun _ _ => [], fun _ _ => none,
    fun _ _ => .ok (ascii "0123456789abcdef", ascii "fedcba9876543210"),
    fun _ _ => .ok ⟨some (ascii "0123456789abcdef"), some (ascii "fedcba9876543210"), true, true⟩⟩

/-- One dependency at the tag `v1`. -/
theorem load_roundTrips_tag :
    ∃ resolved, lockText (oneResolved (ascii "v1")) = lockText resolved ∧
      Recordable (oneRequirement (ascii "v1")) resolved ∧
        RoundTrips (oneRequirement (ascii "v1")) resolved :=
  @load_roundTrips ⟨[], [], [], oneRequirement (ascii "v1"), [], [], false, false, [], [], []⟩
    (List.forall_mem_singleton.mpr ⟨ascii "require github.com/acme/dep v1",
      ascii "github.com/acme/dep", by decide +kernel, by decide +kernel⟩)
    (by decide +kernel) false none [(ascii "github.com/acme/dep", cloning)] cloning _
    (by decide +kernel)

end Packages
end Beans
