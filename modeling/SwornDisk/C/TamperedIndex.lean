import SwornDisk.C.BitRoundTrip
import SwornDisk.C.LsmFill

/-!
# The tampered index

After an honest run of puts, an adversary rewrites the index region: nodes and
filter bits, without the keys.  Every node that a search opens is authentic, so a
file never answers with a record that it does not hold; an untouched file answers
for every key of its full leaves.
-/

namespace SwornDisk.C.Bit

open Lib List

variable {R H S K I M G V : Type}

/-- The cryptography of the files: the scheme, what each file's builder drew, the
zeroed key, and where the index region starts. -/
structure Sealer (S K I M G V : Type) where
  aead : IdealAead K I M (Node K I V) G
  draw : FileStat S → Nat → K × I
  blank : K × I
  start : Nat

/-- What the adversary left: the bytes of the region, the filter bits each file
has loaded, and the leaf it has cached. -/
structure Tampered (S M G V : Type) where
  region : Region M G
  filterBits : FileStat S → Nat → Bool
  cachedLeaf : FileStat S → List (Nat × V)

section

variable (sealer : Sealer S K I M G V) (files : BitFileOps S V)

def fileImage (file : FileStat S) : Completed K I V :=
  buildFile (sealer.draw file) sealer.blank (fileBegin sealer.start file.id)
    (fileEntries files file)

def fileLog (file : FileStat S) : List (SealedNode K I V) :=
  (fileImage sealer files file).file.map Prod.snd

def openedFile (tampered : Tampered S M G V) (file : FileStat S) : File K I V where
  root := (fileImage sealer files file).root
  cachedLeaf := tampered.cachedLeaf file
  filterBits := tampered.filterBits file

/-- `bit_file_search` on the tampered region. -/
def tamperedProbe (tampered : Tampered S M G V) (bound : Nat) (file : FileStat S) (key : Nat) :
    Except Errno V :=
  (fileSearch sealer.aead tampered.region bound (openedFile sealer files tampered file) key).1

end

section

variable (env : LsmEnv R H S V)

/-- `lsm_tree_search` on the tampered region. -/
def tamperedSearch (sealer : Sealer S K I M G V) (tampered : Tampered S M G V) (bound : Nat)
    (t : LsmTree R S) (key : Nat) : Except Errno V :=
  lsmTreeSearchWith env (tamperedProbe sealer env.files tampered bound) t key

def treeFiles (t : LsmTree R S) : List (FileStat S) :=
  t.levels.flatMap BitLevel.bitFiles

/-- What an adversary without the keys can do: draws of a file do not repeat, only
what a file's builder sealed opens under them, and cached leaves are the file's. -/
structure Attack (sealer : Sealer S K I M G V) (files : BitFileOps S V)
    (tampered : Tampered S M G V) (file : FileStat S) : Prop where
  fresh : Function.Injective (sealer.draw file)
  unforged : Unforged sealer.aead tampered.region (sealer.draw file) (fileLog sealer files file)
  cached : ∀ entry ∈ tampered.cachedLeaf file, entry ∈ fileEntries files file

structure Untouched (sealer : Sealer S K I M G V) (files : BitFileOps S V)
    (tampered : Tampered S M G V) (file : FileStat S) : Prop where
  intact : Intact sealer.aead tampered.region (fileLog sealer files file)
  filter : ∀ i, (fileImage sealer files file).filter i = true → tampered.filterBits file i = true

def HasKey (files : BitFileOps S V) (file : FileStat S) (key : Nat) : Prop :=
  ∃ val, (key, val) ∈ fileEntries files file

variable (sealer : Sealer S K I M G V) (tampered : Tampered S M G V) (t : LsmTree R S)

/-- The search ends, and returns nothing but the record of the latest put. -/
def Fresh (puts : List (Nat × V)) (key : Nat) : Prop :=
  ∃ limit, (∀ bound, limit ≤ bound → tamperedSearch env sealer tampered bound t key =
      tamperedSearch env sealer tampered limit t key) ∧
    ∀ val, tamperedSearch env sealer tampered limit t key = .ok val →
      latestPut puts key = some val

/-- At most one file has the key, or the newest that has it is untouched. -/
def NewestStands (key : Nat) : Prop :=
  (∀ f ∈ treeFiles t, ∀ g ∈ treeFiles t, HasKey env.files f key → HasKey env.files g key → f = g) ∨
    ∃ newest ∈ treeFiles t, HasKey env.files newest key ∧
      (∀ other ∈ treeFiles t, HasKey env.files other key → other.version ≤ newest.version) ∧
      Untouched sealer env.files tampered newest

/-- The memtable has the key; or every file has a full leaf and, where several have
the key, the newest of these is untouched. -/
def Guarded (key : Nat) : Prop :=
  (∃ val, rbtreeMemtableGet env.tree t.memtable key = .ok val) ∨
    (∀ file ∈ treeFiles t, bitLeafLen ≤ (fileEntries env.files file).length) ∧
    NewestStands env sealer tampered t key

end

section

variable {sealer : Sealer S K I M G V} {files : BitFileOps S V} {tampered : Tampered S M G V}
  {cap : Nat} {file : FileStat S}

section

variable (sealer)

theorem root_openedFile (files : BitFileOps S V) (tampered : Tampered S M G V) (file : FileStat S) :
    (openedFile sealer files tampered file).root = (fileImage sealer files file).root := by
  rw [openedFile]

theorem fileFinished_holds (held : FileHolds files file (fileEntries files file)) :
    ∃ done out top, FileFinished (sealer.draw file) sealer.blank (fileBegin sealer.start file.id)
      (builderWith (sealer.draw file) sealer.blank (fileBegin sealer.start file.id)
        (fileEntries files file))
      (fileEntries files file) (fileImage sealer files file) done out top :=
  fileFinished_buildFile _ _ _ held.fits

theorem root_drawn (tampered : Tampered S M G V)
    (held : FileHolds files file (fileEntries files file))
    (large : bitLeafLen ≤ (fileEntries files file).length) :
    Authentic (sealer.draw file) (fileLog sealer files file) (fileEntries files file) ∧
      ∃ n, (openedFile sealer files tampered file).root.secret = sealer.draw file n := by
  obtain ⟨done, out, top, finished⟩ := fileFinished_holds sealer held
  have short := (building_builderWith sealer.blank (sealer.draw file)
    (fileBegin sealer.start file.id) (fileEntries files file)).short
  refine ⟨finished.authentic, ?_⟩
  have some : done ≠ [] := by
    rintro rfl
    have split := congrArg List.length finished.split
    rw [nil_append] at split
    omega
  obtain ⟨made, rootEq, isRoot⟩ := finished.root_of_done some
  obtain ⟨n, -, drawnAt⟩ := isRoot.drawn
  refine ⟨n, ?_⟩
  rw [root_openedFile, rootEq]
  exact drawnAt

end

section

variable (attack : Attack sealer files tampered file)
  (held : FileHolds files file (fileEntries files file))
  (large : bitLeafLen ≤ (fileEntries files file).length)
include attack held large

theorem tamperedProbe_sound {bound key : Nat} {val : V}
    (answered : tamperedProbe sealer files tampered bound file key = .ok val) :
    (key, val) ∈ fileEntries files file := by
  obtain ⟨authentic, n, root⟩ := root_drawn sealer tampered held large
  exact fileSearch_sound attack.unforged authentic attack.fresh root attack.cached answered

theorem tamperedProbe_ends :
    ∃ limit, ∀ bound, limit ≤ bound → ∀ key, tamperedProbe sealer files tampered bound file key =
      tamperedProbe sealer files tampered limit file key := by
  obtain ⟨authentic, n, root⟩ := root_drawn sealer tampered held large
  refine ⟨n + 1, fun bound enough key => ?_⟩
  unfold tamperedProbe
  rw [fileSearch_stable attack.unforged authentic attack.fresh root enough key]

end

theorem tamperedProbe_untouched (attack : Attack sealer files tampered file)
    (untouched : Untouched sealer files tampered file)
    (held : FileHolds files file (fileEntries files file))
    (whole : (fileEntries files file).length % bitLeafLen = 0) {bound : Nat}
    (enough : builderHeight ≤ bound) (key : Nat) :
    tamperedProbe sealer files tampered bound file key =
      orNoData ((fileEntries files file).lookup key) := by
  obtain ⟨done, out, top, finished⟩ := fileFinished_holds sealer held
  have short := (building_builderWith sealer.blank (sealer.draw file)
    (fileBegin sealer.start file.id) (fileEntries files file)).short
  have noTrailing := finished.length_mod short
  rw [whole] at noTrailing
  have doneEq : fileEntries files file = done := by
    have split := finished.split
    rw [length_eq_zero_iff.mp noTrailing.symm, append_nil] at split
    exact split
  obtain ⟨val, member⟩ := held.first_mem
  obtain ⟨made, rootEq, isRoot⟩ := finished.root_of_done (by
    rw [← doneEq]
    exact ne_nil_of_mem member)
  have intact := untouched.intact
  rw [fileLog, finished.log_eq] at intact
  have filter : ∀ entry ∈ done,
      bloomFilterContains (tampered.filterBits file) entry.1 = true := by
    intro entry isEntry
    have stored := finished.filter entry (doneEq ▸ isEntry)
    rw [bloomFilterContains, all_eq_true] at stored ⊢
    exact fun func inFuncs => untouched.filter _ (stored func inFuncs)
  have cached : ∀ entry ∈ tampered.cachedLeaf file, entry ∈ done := fun entry isCached =>
    doneEq ▸ attack.cached entry isCached
  have deep : builderHeight - 1 < bound := by
    rw [builderHeight_eq] at enough ⊢
    omega
  have openedRoot : (openedFile sealer files tampered file).root = made.child.pointer := by
    rw [root_openedFile, rootEq]
    rfl
  have ascending : Ascending done := doneEq ▸ held.ascending
  rw [doneEq]
  exact (fileSearch_of_subtree intact isRoot.tree isRoot.inner openedRoot ascending filter cached
    deep key).1

end

section

variable {probe other : FileStat S → Nat → Except Errno V} {key : Nat}

theorem bitLevelSearch_congr {l : BitLevel S}
    (same : ∀ file ∈ l.bitFiles, probe file key = other file key) :
    bitLevelSearch probe l key = bitLevelSearch other l key := by
  unfold bitLevelSearch
  split
  · have fold : ∀ (files : List (FileStat S)) (cur : Nat × Option V),
        (∀ file ∈ files, probe file key = other file key) →
        files.foldl (linearSearchStep probe key) cur =
          files.foldl (linearSearchStep other key) cur := by
      intro files
      induction files with
      | nil => exact fun _ _ => rfl
      | cons file files ih =>
        intro cur agree
        have here : linearSearchStep probe key cur file = linearSearchStep other key cur file := by
          unfold linearSearchStep
          rw [agree file mem_cons_self]
        rw [foldl_cons, foldl_cons, here]
        exact ih _ fun next member => agree next (mem_cons_of_mem _ member)
    unfold bitLevelLinearSearch
    rw [fold l.bitFiles (0, none) same]
  · unfold bitLevelLocateFile
    cases bsearch (keySide l.bitFiles key) 0 l.bitFiles.length with
    | none => rfl
    | some found =>
      simp only
      cases located : l.bitFiles[found]? with
      | none => rfl
      | some file => exact same file (mem_of_getElem? located)

theorem searchLevels_congr {levels : List (BitLevel S)}
    (same : ∀ file ∈ levels.flatMap BitLevel.bitFiles, probe file key = other file key) :
    searchLevels probe key levels = searchLevels other key levels := by
  induction levels with
  | nil => rfl
  | cons level levels ih =>
    rw [flatMap_cons] at same
    rw [searchLevels, searchLevels,
      bitLevelSearch_congr fun file member => same file (mem_append_left _ member),
      ih fun file member => same file (mem_append_right _ member)]

end

end SwornDisk.C.Bit
