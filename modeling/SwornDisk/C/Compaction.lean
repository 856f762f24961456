import SwornDisk.C.LsmLevel
import SwornDisk.Lib.Outcome

/-!
# Compaction jobs

`struct compaction_job` of `lsm_tree.c` moves files from one level to the next.
Files that meet nothing are moved as they are; otherwise the files and their
relatives in the next level are merged into new files of at most
`DEFAULT_LSM_FILE_CAPACITY` records.

The operations on files are parameters, `BitFileOps`; `Faithful` and `Exact` say
how far a search and an iteration read back what was added.  A job that goes on
with an indeterminate value (the identifier after a failed `alloc_file`, the top
of an empty heap, an iterator that was not created, the link of a freed node)
has no result.
-/

namespace SwornDisk.C

open Lib List Function

variable {R H S V : Type}

/-- Block index table files.  `build id version entries` is the tree that a builder
for file `id` leaves behind after adding `entries`.  Without an iterator,
`bit_iterator_create` returned `NULL`. -/
structure BitFileOps (S V : Type) where
  build : Nat → Nat → List (Nat × V) → S
  search : S → Nat → Except Errno V
  iterator : S → Option (List (Nat × V))

namespace BitFileOps

variable (files : BitFileOps S V)

/-- A search that finds something and an iterator that is created yield what was added. -/
structure Faithful : Prop where
  search_mem : ∀ (id version : Nat) {entries : List (Nat × V)}, Ascending entries → entries ≠ [] →
    ∀ {key val}, files.search (files.build id version entries) key = .ok val →
      (key, val) ∈ entries
  search_missing : ∀ (id version : Nat) {entries : List (Nat × V)}, Ascending entries →
    entries ≠ [] → ∀ key, files.search (files.build id version entries) key =
      orNoData (files.search (files.build id version entries) key).toOption
  iterator_eq : ∀ (id version : Nat) {entries held : List (Nat × V)}, Ascending entries →
    entries ≠ [] → files.iterator (files.build id version entries) = some held → held = entries

structure Iterates : Prop where
  iterator_build : ∀ (id version : Nat) {entries : List (Nat × V)}, Ascending entries →
    entries ≠ [] → files.iterator (files.build id version entries) = some entries

structure Exact : Prop extends Iterates files where
  search_build : ∀ (id version : Nat) {entries : List (Nat × V)}, Ascending entries →
    entries ≠ [] → ∀ key,
      files.search (files.build id version entries) key = orNoData (entries.lookup key)

end BitFileOps

theorem orNoData_eq_ok {value : Option V} {val : V} :
    orNoData value = .ok val ↔ value = some val := by
  cases value <;> simp [orNoData]

theorem BitFileOps.Exact.faithful {files : BitFileOps S V} (exact : files.Exact) :
    files.Faithful where
  search_mem id version entries ascending nonempty key val ok := by
    rw [exact.search_build id version ascending nonempty, orNoData_eq_ok] at ok
    exact (lookup_eq_some_iff_mem ascending).mp ok
  search_missing id version entries ascending nonempty key := by
    rw [exact.search_build id version ascending nonempty, toOption_orNoData]
  iterator_eq id version entries held ascending nonempty yields :=
    Option.some.inj (yields.symm.trans (exact.iterator_build id version ascending nonempty))

def listFiles (V : Type) : BitFileOps (List (Nat × V)) V where
  build _ _ entries := entries
  search entries key := orNoData (entries.lookup key)
  iterator := some

theorem listFiles_exact : (listFiles V).Exact :=
  ⟨⟨fun _ _ _ _ _ => rfl⟩, fun _ _ _ _ _ _ => rfl⟩

/-- Whether the links of freed list nodes still lead on: of `struct lsm_file`, of the iterator of
a file, and of the `struct file_stat` that describes a file.  The walks over these lists free the
node they are at and only then read its link (`list_for_each_entry`, not its `_safe` form). -/
structure FreedLinks (S : Type) where
  file : FileStat S → Bool
  iterator : FileStat S → Bool
  stat : FileStat S → Bool

def FreedLinks.intact : FreedLinks S :=
  ⟨fun _ => true, fun _ => true, fun _ => true⟩

/-- No link of the files and of their iterators is overwritten between the free and the read. -/
def FreedLinks.Kept (freed : FreedLinks S) (inputs : List (FileStat S)) : Prop :=
  ∀ file ∈ inputs, freed.file file = true ∧ freed.iterator file = true

/-- What the LSM tree is built from: the kernel's red-black tree and min-heap, the files, and what
is left of freed memory. -/
structure LsmEnv (R H S V : Type) where
  tree : BalancedTree (Nat × V) R
  heap : MinHeap (MergeNode (FileStat S) V) H MergeNode.key
  files : BitFileOps S V
  freed : FreedLinks S

structure LsmEnv.Lawful (env : LsmEnv R H S V) : Prop where
  exact : env.files.Exact
  kept : ∀ inputs, env.freed.Kept inputs

/-- `struct bit_builder`; its `size` is the number of entries. -/
structure BitBuilder (V : Type) where
  id : Nat
  level : Nat
  version : Nat
  entries : List (Nat × V)

def bitBuilderAddEntry (b : BitBuilder V) (entry : Nat × V) : BitBuilder V :=
  { b with entries := b.entries ++ [entry] }

/-- `bit_builder_complete`.  Without entries the keys are those of the zeroed
structure. -/
def bitBuilderComplete (files : BitFileOps S V) (b : BitBuilder V) : FileStat S where
  id := b.id
  level := b.level
  version := b.version
  firstKey := (b.entries.head?.map Prod.fst).getD 0
  lastKey := (b.entries.getLast?.map Prod.fst).getD 0
  store := files.build b.id b.version b.entries

/-- `struct compaction_job`. -/
structure CompactionJob (S : Type) where
  catalogue : BitCatalogue S
  level1 : BitLevel S
  level2 : BitLevel S

/-- A level after `add_file`, whose return value the callers ignore. -/
def withFile (l : BitLevel S) (file : FileStat S) : BitLevel S :=
  match bitLevelAddFile l file with
  | .ok added => added
  | .error _ => l

/-- A catalogue after `release_file`, whose return value the callers ignore. -/
def releaseFile (c : BitCatalogue S) (fd : Nat) : BitCatalogue S :=
  match bitcReleaseFile c fd with
  | .ok released => released
  | .error _ => c

/-- `alloc_file` and `get_builder` with the next version, for a file of `level`. -/
def openBuilder (c : BitCatalogue S) (level : Nat) : Option (BitCatalogue S × BitBuilder V) :=
  match bitcAllocFile c with
  | (.ok fd, allocated) =>
    some ((bitcGetNextVersion allocated).2,
      ⟨fd, level, (bitcGetNextVersion allocated).1, []⟩)
  | (.error _, _) => none

/-- `complete`, `set_file_stats` and `add_file` of the lower level. -/
def finishFile (files : BitFileOps S V) (job : CompactionJob S) (b : BitBuilder V) :
    CompactionJob S :=
  { job with
    catalogue := bitcSetFileStats job.catalogue b.id (bitBuilderComplete files b)
    level2 := withFile job.level2 (bitBuilderComplete files b) }

/-- `add_entry`, and a new builder once the file is full. -/
def emitEntry (files : BitFileOps S V) (out : CompactionJob S × BitBuilder V)
    (entry : Nat × V) : Option (CompactionJob S × BitBuilder V) :=
  if defaultLsmFileCapacity ≤ (bitBuilderAddEntry out.2 entry).entries.length then
    (openBuilder (finishFile files out.1 (bitBuilderAddEntry out.2 entry)).catalogue
        out.1.level2.level).map fun opened =>
      ({ finishFile files out.1 (bitBuilderAddEntry out.2 entry) with catalogue := opened.1 },
        opened.2)
  else
    some (out.1, bitBuilderAddEntry out.2 entry)

def intervalOverlapping (begin1 end1 begin2 end2 : Nat) : Bool :=
  !(decide (end1 < begin2) || decide (begin1 > end2))

def lsmFileOverlapping (files : List (FileStat S)) : Bool :=
  files.any fun f1 => files.any fun f2 =>
    f1.id != f2.id && intervalOverlapping f1.firstKey f1.lastKey f2.firstKey f2.lastKey

section

variable (job : CompactionJob S) (file : FileStat S)

def moveFile : CompactionJob S :=
  let moved : FileStat S :=
    { file with version := (bitcGetNextVersion job.catalogue).1, level := job.level2.level }
  { catalogue := bitcSetFileStats (bitcGetNextVersion job.catalogue).2 file.id moved
    level1 := withoutFile job.level1 file.id
    level2 := withFile job.level2 moved }

def retireDemoted : CompactionJob S :=
  { job with
    catalogue := releaseFile job.catalogue file.id
    level1 := withoutFile job.level1 file.id }

def retireRelative : CompactionJob S :=
  { job with
    catalogue := releaseFile job.catalogue file.id
    level2 := withoutFile job.level2 file.id }

end

def fileEntries (files : BitFileOps S V) (file : FileStat S) : List (Nat × V) :=
  (files.iterator file.store).getD []

/-- Every file has an iterator, whose node `list_add` can link. -/
def iteratorsCreated (files : BitFileOps S V) (inputs : List (FileStat S)) : Bool :=
  inputs.all fun file => (files.iterator file.store).isSome

/-- The iterators of some files with their first entries.  `list_add` puts each
new iterator in front. -/
def mergeNodes (files : BitFileOps S V) (inputs : List (FileStat S)) :
    List (MergeNode (FileStat S) V) :=
  inputs.reverse.filterMap fun file => MergeNode.ofEntries file (fileEntries files file)

/-- The end of `compaction_job_run`: the loops that remove and free the merged files, and the one
that frees the iterators. -/
def retireInputs (freed : FreedLinks S) (demoted relatives : List (FileStat S))
    (merged : CompactionJob S) : Option (CompactionJob S) :=
  (walkFreed freed.file retireDemoted merged demoted).bind fun job =>
    (walkFreed freed.file retireRelative job relatives).bind fun job =>
      walkFreed freed.iterator (fun job _ => job) job (demoted ++ relatives).reverse

theorem retireInputs_eq_some_iff {freed : FreedLinks S} {demoted relatives : List (FileStat S)}
    {merged result : CompactionJob S} :
    retireInputs freed demoted relatives merged = some result ↔
      freed.Kept (demoted ++ relatives) ∧
        relatives.foldl retireRelative (demoted.foldl retireDemoted merged) = result := by
  have same : ∀ (job : CompactionJob S) (nodes : List (FileStat S)),
      nodes.foldl (fun job _ => job) job = job := fun job nodes => by
    induction nodes with
    | nil => rfl
    | cons node nodes ih => exact ih
  simp only [retireInputs, Option.bind_eq_some_iff, walkFreed_eq_some_iff, same, mem_reverse,
    FreedLinks.Kept]
  constructor
  · rintro ⟨_, ⟨upper, rfl⟩, _, ⟨lower, rfl⟩, iterators, rfl⟩
    refine ⟨fun file member => ⟨?_, iterators file member⟩, rfl⟩
    exact (mem_append.mp member).elim (upper file) (lower file)
  · rintro ⟨kept, rfl⟩
    exact ⟨_, ⟨fun file member => (kept file (mem_append_left _ member)).1, rfl⟩, _,
      ⟨fun file member => (kept file (mem_append_right _ member)).1, rfl⟩,
      fun file member => (kept file member).2, rfl⟩

/-- The merge path of `compaction_job_run`.  The loops that remove the inputs free each file and
then step through its link, which may have changed. -/
def mergeFiles (env : LsmEnv R H S V) (job : CompactionJob S)
    (demoted relatives : List (FileStat S)) : Option (CompactionJob S) :=
  if iteratorsCreated env.files (demoted ++ relatives) then
    let heap := env.heap.pushAll (mergeNodes env.files (demoted ++ relatives))
    match env.heap.pop heap with
    | none => none
    | some (distinct, _) =>
      match openBuilder job.catalogue job.level2.level with
      | none => none
      | some (allocated, builder) =>
        match kwayMerge env.heap FileStat.version (emitEntry env.files) heap distinct
            ({ job with catalogue := allocated }, builder) with
        | none => none
        | some (last, out) =>
          retireInputs env.freed demoted relatives
            (finishFile env.files out.1 (bitBuilderAddEntry out.2 last))
  else
    none

def compactionJobRun (env : LsmEnv R H S V) (job : CompactionJob S) :
    Option (CompactionJob S) :=
  let demoted := bitLevelPickDemotedFiles job.level1
  let relatives := bitLevelFindRelativeFiles job.level2 demoted
  if relatives.isEmpty && !lsmFileOverlapping demoted then
    some (demoted.foldl moveFile job)
  else
    mergeFiles env job demoted relatives

/-- The identifiers in use are exactly `ids`. -/
structure CatalogueHolds (c : BitCatalogue S) (ids : List Nat) : Prop where
  nodup : ids.Nodup
  bound : ∀ id ∈ ids, id < c.bitValidityTable.nrSegment
  inUse : ∀ id, id < c.bitValidityTable.nrSegment →
    (c.bitValidityTable.segValidityTable id = true ↔ id ∈ ids)

namespace CatalogueHolds

variable {c : BitCatalogue S} {ids : List Nat} (holds : CatalogueHolds c ids)
include holds

theorem perm {others : List Nat} (same : ids.Perm others) :
    CatalogueHolds c others where
  nodup := same.nodup_iff.mp holds.nodup
  bound id member := holds.bound id (same.mem_iff.mpr member)
  inUse id inside := (holds.inUse id inside).trans same.mem_iff

theorem alloc (room : ids.length < c.bitValidityTable.nrSegment) :
    ∃ fd allocated, bitcAllocFile c = (.ok fd, allocated) ∧
      CatalogueHolds allocated (fd :: ids) ∧ allocated.maxVersion = c.maxVersion ∧
      allocated.bitValidityTable.nrSegment = c.bitValidityTable.nrSegment := by
  obtain ⟨free, inside, clear⟩ : ∃ id < c.bitValidityTable.nrSegment,
      c.bitValidityTable.segValidityTable id = false := by
    by_contra full
    push Not at full
    have everything : Finset.range c.bitValidityTable.nrSegment ⊆ ids.toFinset := by
      intro id member
      have inside := Finset.mem_range.mp member
      have set := Bool.eq_true_of_not_eq_false (full id inside)
      exact mem_toFinset.mpr ((holds.inUse id inside).mp set)
    have := (Finset.card_le_card everything).trans (toFinset_card_le ids)
    rw [Finset.card_range] at this
    omega
  obtain ⟨fd, found⟩ := segValidatorNext_isOk_of_clear inside clear
  obtain ⟨fdInside, fdClear⟩ := segValidatorNext_ok found
  obtain ⟨cursor, moved⟩ := segValidatorNext_snd c.bitValidityTable
  have fresh : fd ∉ ids := fun member => by
    rw [(holds.inUse fd fdInside).mpr member] at fdClear
    cases fdClear
  have scanned : segValidatorNext c.bitValidityTable =
      (.ok fd, { c.bitValidityTable with curSegment := cursor }) := Prod.ext found moved
  refine ⟨fd, { c with
    bitValidityTable :=
      { c.bitValidityTable with
        segValidityTable := update c.bitValidityTable.segValidityTable fd true
        curSegment := cursor + 1 } }, ?_, ?_⟩
  · simp only [bitcAllocFile, scanned, segValidatorTake, if_pos fdInside]
  · refine ⟨⟨nodup_cons.mpr ⟨fresh, holds.nodup⟩, ?_, ?_⟩, rfl, rfl⟩
    · intro id member
      rcases mem_cons.mp member with rfl | old
      · exact fdInside
      · exact holds.bound id old
    · intro id idInside
      simp only [update_apply, mem_cons]
      by_cases same : id = fd
      · simp [same]
      · simp only [same, if_false, false_or]
        exact holds.inUse id idInside

theorem release (fd : Nat) :
    CatalogueHolds (releaseFile c fd) (ids.filter (· != fd)) ∧
      (releaseFile c fd).maxVersion = c.maxVersion ∧
      (releaseFile c fd).bitValidityTable.nrSegment = c.bitValidityTable.nrSegment := by
  unfold releaseFile bitcReleaseFile segValidatorTestAndReturn
  by_cases inside : fd < c.bitValidityTable.nrSegment
  · rw [if_pos inside]
    refine ⟨⟨holds.nodup.filter _, ?_, ?_⟩, rfl, rfl⟩
    · intro id member
      exact holds.bound id (mem_of_mem_filter member)
    · intro id idInside
      simp only [update_apply, mem_filter, bne_iff_ne]
      by_cases same : id = fd
      · simp [same]
      · simp only [same, if_false, ne_eq, not_false_eq_true, and_true]
        exact holds.inUse id idInside
  · rw [if_neg inside]
    have untouched : ids.filter (· != fd) = ids := by
      refine filter_eq_self.mpr fun id member => bne_iff_ne.mpr ?_
      rintro rfl
      exact inside (holds.bound _ member)
    rw [untouched]
    exact ⟨holds, rfl, rfl⟩

end CatalogueHolds

/-- `bit_file_search` on a file as the builder left it. -/
def bitFileSearch (files : BitFileOps S V) (file : FileStat S) (key : Nat) : Except Errno V :=
  files.search file.store key

/-- The file is what a builder left that was given `entries`, in whatever level and version it is
now. -/
structure FileHolds (files : BitFileOps S V) (file : FileStat S) (entries : List (Nat × V)) :
    Prop where
  built : ∃ id version, file.store = files.build id version entries
  ascending : Ascending entries
  first : entries.head?.map Prod.fst = some file.firstKey
  last : entries.getLast?.map Prod.fst = some file.lastKey
  fits : entries.length ≤ defaultLsmFileCapacity

/-- The file holds some keys below `cap`. -/
def FileSound (files : BitFileOps S V) (cap : Nat) (file : FileStat S) : Prop :=
  ∃ entries, FileHolds files file entries ∧ ∀ entry ∈ entries, entry.1 < cap

section

variable {files : BitFileOps S V} {cap : Nat} {file : FileStat S}

namespace FileHolds

variable {entries held : List (Nat × V)} (holds : FileHolds files file entries)
include holds

theorem ne_nil : entries ≠ [] := by
  rintro rfl
  cases holds.first

theorem first_mem : ∃ val, (file.firstKey, val) ∈ entries := by
  obtain ⟨entry, isFirst, key⟩ := Option.map_eq_some_iff.mp holds.first
  exact ⟨entry.2, key ▸ mem_of_head? isFirst⟩

theorem last_mem : ∃ val, (file.lastKey, val) ∈ entries := by
  obtain ⟨entry, isLast, key⟩ := Option.map_eq_some_iff.mp holds.last
  exact ⟨entry.2, key ▸ mem_of_getLast? isLast⟩

theorem inRange : ∀ entry ∈ entries, file.firstKey ≤ entry.1 ∧ entry.1 ≤ file.lastKey := by
  obtain ⟨first, isFirst, firstKey⟩ := Option.map_eq_some_iff.mp holds.first
  obtain ⟨last, isLast, lastKey⟩ := Option.map_eq_some_iff.mp holds.last
  rw [← firstKey, ← lastKey]
  exact holds.ascending.bounds isFirst isLast

theorem proper : file.firstKey ≤ file.lastKey := by
  obtain ⟨val, member⟩ := holds.first_mem
  exact (holds.inRange _ member).2

theorem iterator_yields (faithful : files.Faithful)
    (yields : files.iterator file.store = some held) : held = entries := by
  obtain ⟨id, version, built⟩ := holds.built
  rw [built] at yields
  exact faithful.iterator_eq id version holds.ascending holds.ne_nil yields

theorem fileEntries_eq (faithful : files.Faithful) (created : (files.iterator file.store).isSome) :
    fileEntries files file = entries := by
  obtain ⟨held, yields⟩ := Option.isSome_iff_exists.mp created
  rw [fileEntries, yields, Option.getD_some]
  exact holds.iterator_yields faithful yields

theorem search_mem (faithful : files.Faithful) {key : Nat} {val : V}
    (ok : bitFileSearch files file key = .ok val) : (key, val) ∈ entries := by
  obtain ⟨id, version, built⟩ := holds.built
  rw [bitFileSearch, built] at ok
  exact faithful.search_mem id version holds.ascending holds.ne_nil ok

theorem search_missing (faithful : files.Faithful) (key : Nat) :
    bitFileSearch files file key = orNoData (bitFileSearch files file key).toOption := by
  obtain ⟨id, version, built⟩ := holds.built
  rw [bitFileSearch, built]
  exact faithful.search_missing id version holds.ascending holds.ne_nil key

theorem iterator_eq (iterates : files.Iterates) : files.iterator file.store = some entries := by
  obtain ⟨id, version, built⟩ := holds.built
  rw [built]
  exact iterates.iterator_build id version holds.ascending holds.ne_nil

theorem search_eq (exact : files.Exact) (key : Nat) :
    bitFileSearch files file key = orNoData (entries.lookup key) := by
  obtain ⟨id, version, built⟩ := holds.built
  rw [bitFileSearch, built]
  exact exact.search_build id version holds.ascending holds.ne_nil key

theorem unique (exact : files.Exact) (other : FileHolds files file held) : held = entries :=
  Option.some.inj ((other.iterator_eq exact.toIterates).symm.trans
    (holds.iterator_eq exact.toIterates))

theorem search_ok (exact : files.Exact) {key : Nat} {val : V} :
    bitFileSearch files file key = .ok val ↔ (key, val) ∈ entries := by
  rw [holds.search_eq exact, orNoData_eq_ok, lookup_eq_some_iff_mem holds.ascending]

end FileHolds

namespace FileSound

variable (sound : FileSound files cap file)
include sound

theorem proper : file.firstKey ≤ file.lastKey := by
  obtain ⟨entries, holds, -⟩ := sound
  exact holds.proper

theorem holds (faithful : files.Faithful) (created : (files.iterator file.store).isSome) :
    FileHolds files file (fileEntries files file) := by
  obtain ⟨entries, holds, below⟩ := sound
  rw [holds.fileEntries_eq faithful created]
  exact holds

theorem created (iterates : files.Iterates) : (files.iterator file.store).isSome := by
  obtain ⟨entries, holds, -⟩ := sound
  rw [holds.iterator_eq iterates]
  rfl

theorem held (exact : files.Exact) : FileHolds files file (fileEntries files file) :=
  sound.holds exact.faithful (sound.created exact.toIterates)

end FileSound

theorem fileHolds_complete {b : BitBuilder V} (ascending : Ascending b.entries)
    (nonempty : b.entries ≠ []) (fits : b.entries.length ≤ defaultLsmFileCapacity) :
    FileHolds files (bitBuilderComplete files b) b.entries := by
  have isFirst := head?_eq_some_head nonempty
  have isLast := getLast?_eq_some_getLast nonempty
  refine ⟨⟨b.id, b.version, rfl⟩, ascending, ?_, ?_, fits⟩
  · simp [bitBuilderComplete, isFirst]
  · simp [bitBuilderComplete, isLast]

end

section

variable {c : BitCatalogue S} {ids : List Nat}

theorem CatalogueHolds.setFileStats (holds : CatalogueHolds c ids) (fd : Nat) (stats : FileStat S) :
    CatalogueHolds (bitcSetFileStats c fd stats) ids :=
  ⟨holds.nodup, holds.bound, holds.inUse⟩

theorem CatalogueHolds.getNextVersion (holds : CatalogueHolds c ids) :
    CatalogueHolds (bitcGetNextVersion c).2 ids :=
  ⟨holds.nodup, holds.bound, holds.inUse⟩

theorem CatalogueHolds.nodup_left {files others : List (FileStat S)}
    (holds : CatalogueHolds c ((files ++ others).map FileStat.id)) :
    (files.map FileStat.id).Nodup := by
  have nodup := holds.nodup
  rw [map_append] at nodup
  exact nodup.of_append_left

theorem withFile_of_room {l : BitLevel S} (file : FileStat S)
    (room : l.bitFiles.length < l.maxSize) :
    ∃ added, withFile l file = { l with bitFiles := added } ∧ added.Perm (file :: l.bitFiles) ∧
      (l.bitFiles.Pairwise FileLe → added.Pairwise FileLe) := by
  obtain ⟨added, ok, perm, ordered⟩ := bitLevelAddFile_ok file room
  refine ⟨added, ?_, perm, ordered⟩
  unfold withFile
  rw [ok]

theorem openBuilder_of_room (holds : CatalogueHolds c ids)
    (room : ids.length < c.bitValidityTable.nrSegment) (level : Nat) :
    ∃ opened fd,
      openBuilder c level = some (opened, (⟨fd, level, c.maxVersion, []⟩ : BitBuilder V)) ∧
      CatalogueHolds opened (fd :: ids) ∧ opened.maxVersion = c.maxVersion + 1 ∧
      opened.bitValidityTable.nrSegment = c.bitValidityTable.nrSegment := by
  obtain ⟨fd, allocated, ok, allocatedHolds, sameVersion, sameNr⟩ := holds.alloc room
  refine ⟨(bitcGetNextVersion allocated).2, fd, ?_, allocatedHolds.getNextVersion, ?_, sameNr⟩
  · simp only [openBuilder, ok, bitcGetNextVersion, sameVersion]
  · simp only [bitcGetNextVersion, sameVersion]

end

end SwornDisk.C
