import SwornDisk.C.Compaction

/-!
# Disk levels under compaction

What the disk levels of an LSM tree with two levels keep true, how a flush of the
memtable extends it, and that the move-only path of a major compaction keeps it.
-/

namespace SwornDisk.C

open Lib List Option

variable {cap : Nat}

variable {R H S V : Type}

/-- The files that hold `capacity` records. -/
def filesFor (capacity : Nat) : Nat :=
  if capacity = 0 then 0 else (capacity - 1) / defaultLsmFileCapacity + 1

/-- The loop of `__total_bit` over the levels below level zero, the last one first. -/
def totalBitLoop (commonRatio : Nat) : Nat → Nat → Nat
  | 0, _ => 0
  | levels + 1, capacity =>
    filesFor capacity + totalBitLoop commonRatio levels (capacity / commonRatio)

def totalBit (nrDiskLevel commonRatio maxDiskLevelCapacity : Nat) : Nat :=
  totalBitLoop commonRatio (nrDiskLevel - 1) maxDiskLevelCapacity + defaultLsmLevel0NrFile

theorem totalBit_two (commonRatio cap : Nat) :
    totalBit 2 commonRatio cap = filesFor cap + defaultLsmLevel0NrFile :=
  rfl

theorem lt_filesFor {n : Nat} (starts : n * defaultLsmFileCapacity < cap) :
    n < filesFor cap := by
  unfold filesFor
  rw [if_neg (by omega)]
  refine Nat.lt_succ_of_le ((Nat.le_div_iff_mul_le (Nat.succ_pos _)).mpr ?_)
  exact Nat.le_sub_one_of_lt starts

variable {result : Option V} {others : List (FileStat S)}

section

variable {probe : FileStat S → Nat → Except Errno V} {files : List (FileStat S)} {key : Nat}

theorem answers_append (left right : List (FileStat S)) :
    answers probe (left ++ right) = answers probe left ∪ answers probe right := by
  ext binding
  simp only [answers, mem_append, Set.mem_union, Set.mem_ofPred_eq, or_and_right, exists_or]

theorem answers_perm (same : files.Perm others) :
    answers probe files = answers probe others := by
  ext binding
  simp only [answers, same.mem_iff]

theorem bindsOnce_answers (distinct : files.Pairwise fun f g => f.version ≠ g.version) :
    BindsOnce (answers probe files) := by
  rintro version key left right ⟨f, fMember, fVersion, fOk⟩ ⟨g, gMember, gVersion, gOk⟩
  have symmetric : Std.Symm fun f g : FileStat S => f.version ≠ g.version :=
    ⟨fun _ _ differ => differ.symm⟩
  by_cases same : f = g
  · subst same
    exact Except.ok.inj (fOk.symm.trans gOk)
  · exact absurd (fVersion.symm.trans gVersion) (distinct.forall fMember gMember same)

variable (apart : files.Pairwise Apart) (inRange : AnswersInRange probe files)
include apart inRange

theorem isNewest_of_apart
    (answered : ∀ val, result = some val ↔ ∃ file ∈ files, probe file key = .ok val) :
    IsNewest (answers probe files) key result := by
  cases result with
  | none =>
    rintro version val ⟨file, member, -, ok⟩
    exact absurd ((answered val).mpr ⟨file, member, ok⟩) nofun
  | some val =>
    obtain ⟨file, member, ok⟩ := (answered val).mp rfl
    refine ⟨file.version, ⟨file, member, rfl, ok⟩, ?_⟩
    rintro other held ⟨third, thirdMember, rfl, thirdOk⟩
    obtain rfl := eq_of_inRange apart member thirdMember (inRange _ member _ _ ok)
      (inRange _ thirdMember _ _ thirdOk)
    exact le_rfl

theorem answered_of_isNewest (newest : IsNewest (answers probe files) key result) (val : V) :
    result = some val ↔ ∃ file ∈ files, probe file key = .ok val := by
  constructor
  · rintro rfl
    obtain ⟨_, ⟨file, member, -, ok⟩, -⟩ := newest
    exact ⟨file, member, ok⟩
  · rintro ⟨file, member, ok⟩
    cases result with
    | none => exact absurd ⟨file, member, rfl, ok⟩ (newest file.version val)
    | some held =>
      obtain ⟨_, ⟨other, otherMember, -, otherOk⟩, -⟩ := newest
      obtain rfl := eq_of_inRange apart member otherMember (inRange _ member _ _ ok)
        (inRange _ otherMember _ _ otherOk)
      exact congrArg some (Except.ok.inj (otherOk.symm.trans ok))

end

/-- A level as `bit_level_init` set it up, whatever files it holds. -/
structure LevelShape (l : BitLevel S) (level capacity : Nat) : Prop where
  level_eq : l.level = level
  capacity_eq : l.capacity = capacity
  maxSize_eq : l.maxSize = 2 * capacity + defaultLsmLevel0NrFile

variable {l : BitLevel S} {capacity : Nat}

theorem LevelShape.withFiles {level : Nat} (shape : LevelShape l level capacity)
    (files : List (FileStat S)) :
    LevelShape { l with bitFiles := files } level capacity :=
  ⟨shape.level_eq, shape.capacity_eq, shape.maxSize_eq⟩

/-- What the two disk levels and the catalogue of an LSM tree keep true, where
`look` is the map that the levels stand for, if all of a file can be read. -/
structure DiskInv (files : BitFileOps S V) (cap : Nat) (job : CompactionJob S)
    (look : Nat → Option V) : Prop where
  shape0 : LevelShape job.level1 0 defaultLsmLevel0NrFile
  shape1 : LevelShape job.level2 1 (filesFor cap + defaultLsmLevel0NrFile)
  nrSegment : job.catalogue.bitValidityTable.nrSegment =
    2 * (filesFor cap + defaultLsmLevel0NrFile)
  catalogue : CatalogueHolds job.catalogue
    ((job.level1.bitFiles ++ job.level2.bitFiles).map FileStat.id)
  sound : ∀ file ∈ job.level1.bitFiles ++ job.level2.bitFiles, FileSound files cap file
  filled : ∀ file ∈ job.level1.bitFiles, ∃ entries, FileHolds files file entries ∧
    (∀ entry ∈ entries, entry.1 < cap) ∧ entries.length = defaultLsmFileCapacity
  ordered : job.level2.bitFiles.Pairwise FileLe
  apart : job.level2.bitFiles.Pairwise Apart
  versions : ∀ file ∈ job.level1.bitFiles ++ job.level2.bitFiles,
    file.version < job.catalogue.maxVersion
  distinct : (job.level1.bitFiles ++ job.level2.bitFiles).Pairwise
    fun f g => f.version ≠ g.version
  newer : ∀ f ∈ job.level1.bitFiles, ∀ g ∈ job.level2.bitFiles, g.version < f.version
  size0 : job.level1.bitFiles.length ≤ defaultLsmLevel0NrFile
  size1 : job.level2.bitFiles.length ≤ 2 * filesFor cap + 3
  holds : files.Exact → ∀ key, IsNewest
    (answers (bitFileSearch files) (job.level1.bitFiles ++ job.level2.bitFiles)) key (look key)

section

variable {files : BitFileOps S V} {inputs : List (FileStat S)}

theorem answersInRange_of_sound (faithful : files.Faithful)
    (sound : ∀ file ∈ inputs, FileSound files cap file) :
    AnswersInRange (bitFileSearch files) inputs := by
  intro file member key val ok
  obtain ⟨entries, holds, -⟩ := sound file member
  exact holds.inRange _ (holds.search_mem faithful ok)

theorem DiskInv.ranges {job : CompactionJob S} {look : Nat → Option V}
    (inv : DiskInv files cap job look) : RangesApart job.level2.bitFiles where
  ordered := inv.ordered
  apart := inv.apart
  proper file member := (inv.sound file (mem_append_right _ member)).proper

section

variable {content : FileStat S → List (Nat × V)}
  (held : ∀ file ∈ inputs, FileHolds files file (content file)) (apart : inputs.Pairwise Apart)
include held apart

theorem nodup_keys_of_apart : ((inputs.flatMap content).map Prod.fst).Nodup := by
  rw [map_flatMap, nodup_flatMap]
  constructor
  · intro file member
    exact pairwise_map.mpr ((held file member).ascending.imp fun less => less.ne)
  · refine apart.imp_of_mem ?_
    intro f g fMember gMember isApart key inF inG
    obtain ⟨left, leftMember, rfl⟩ := mem_map.mp inF
    obtain ⟨right, rightMember, same⟩ := mem_map.mp inG
    have fRange := (held f fMember).inRange left leftMember
    have gRange := (held g gMember).inRange right rightMember
    rcases isApart with below | above
    · omega
    · omega

theorem length_flatMap_le (below : ∀ file ∈ inputs, ∀ entry ∈ content file, entry.1 < cap) :
    (inputs.flatMap content).length ≤ cap := by
  have inside : ((inputs.flatMap content).map Prod.fst).toFinset ⊆ Finset.range cap := by
    intro key member
    obtain ⟨entry, isEntry, rfl⟩ := mem_map.mp (mem_toFinset.mp member)
    obtain ⟨file, fileMember, inFile⟩ := mem_flatMap.mp isEntry
    exact Finset.mem_range.mpr (below file fileMember entry inFile)
  have counted := Finset.card_le_card inside
  rw [toFinset_card_of_nodup (nodup_keys_of_apart held apart), length_map,
    Finset.card_range] at counted
  exact counted

end

theorem length_flatMap_filled {content : FileStat S → List (Nat × V)}
    (filled : ∀ file ∈ inputs, (content file).length = capacity) :
    (inputs.flatMap content).length = inputs.length * capacity := by
  induction inputs with
  | nil => simp
  | cons file rest ih =>
    rw [flatMap_cons, length_append, filled file mem_cons_self,
      ih fun f member => filled f (mem_cons_of_mem _ member), length_cons,
      Nat.add_mul, Nat.one_mul, Nat.add_comm]

end

variable {file : FileStat S}

section

variable {files : BitFileOps S V} {job : CompactionJob S} {look : Nat → Option V}

theorem isNewest_cons (exact : files.Exact) {entries : List (Nat × V)}
    (held : FileHolds files file entries)
    (newest : ∀ other ∈ others, other.version ≤ file.version) {key : Nat}
    (holds : IsNewest (answers (bitFileSearch files) others) key result) :
    IsNewest (answers (bitFileSearch files) (file :: others)) key
      ((entries.lookup key).or result) := by
  cases bound : entries.lookup key with
  | some val =>
    have ok : bitFileSearch files file key = .ok val := by
      rw [held.search_eq exact, bound]
      rfl
    refine ⟨file.version, ⟨file, mem_cons_self, rfl, ok⟩, ?_⟩
    rintro version held ⟨other, member, rfl, -⟩
    rcases mem_cons.mp member with rfl | older
    · exact le_rfl
    · exact newest other older
  | none =>
    have silent : ∀ version val, (version, key, val) ∉ answers (bitFileSearch files) [file] := by
      rintro version val ⟨other, member, -, ok⟩
      obtain rfl := mem_singleton.mp member
      rw [held.search_eq exact, bound] at ok
      cases ok
    rw [none_or, ← singleton_append, answers_append, Set.union_comm,
      isNewest_union_iff silent]
    exact holds

theorem DiskInv.flush (inv : DiskInv files cap job look)
    (room : job.level1.bitFiles.length < defaultLsmLevel0NrFile) {entries : List (Nat × V)}
    (ascending : Ascending entries) (below : ∀ entry ∈ entries, entry.1 < cap)
    (full : entries.length = defaultLsmFileCapacity) :
    ∃ (opened : BitCatalogue S) (builder : BitBuilder V),
      openBuilder job.catalogue 0 = some (opened, builder) ∧ builder.entries = [] ∧
      DiskInv files cap
        { catalogue := bitcSetFileStats opened builder.id
            (bitBuilderComplete files { builder with entries := entries })
          level1 := withFile job.level1
            (bitBuilderComplete files { builder with entries := entries })
          level2 := job.level2 }
        fun key => (entries.lookup key).or (look key) := by
  obtain ⟨opened, fd, ok, holds, nextVersion, sameNr⟩ :=
    openBuilder_of_room inv.catalogue (V := V) (by
      have := inv.size1
      rw [length_map, length_append, inv.nrSegment]
      simp only [defaultLsmLevel0NrFile] at room ⊢
      omega) 0
  refine ⟨opened, _, ok, rfl, ?_⟩
  have nonempty : entries ≠ [] := by
    refine ne_nil_of_length_pos ?_
    rw [full]
    decide
  generalize isFile : bitBuilderComplete files
    (⟨fd, 0, job.catalogue.maxVersion, entries⟩ : BitBuilder V) = file
  have id_eq : file.id = fd := by rw [← isFile]; rfl
  have version_eq : file.version = job.catalogue.maxVersion := by rw [← isFile]; rfl
  have held : FileHolds files file entries := by
    rw [← isFile]
    exact fileHolds_complete ascending nonempty full.le
  obtain ⟨added, addedEq, perm, -⟩ := withFile_of_room (l := job.level1) file (by
    rw [inv.shape0.maxSize_eq]
    simp only [defaultLsmLevel0NrFile] at room ⊢
    omega)
  have allPerm : (added ++ job.level2.bitFiles).Perm
      (file :: (job.level1.bitFiles ++ job.level2.bitFiles)) := perm.append_right _
  have older : ∀ other ∈ job.level1.bitFiles ++ job.level2.bitFiles,
      other.version < file.version := fun other member => by
    rw [version_eq]
    exact inv.versions other member
  rw [addedEq]
  refine ⟨inv.shape0.withFiles added, inv.shape1, sameNr.trans inv.nrSegment, ?_, ?_, ?_,
    inv.ordered, inv.apart, ?_, ?_, ?_, ?_, inv.size1, ?_⟩
  · refine (holds.setFileStats fd file).perm ?_
    rw [← id_eq]
    exact (allPerm.map _).symm
  · intro other member
    rcases mem_cons.mp (allPerm.mem_iff.mp member) with rfl | old
    · exact ⟨entries, held, below⟩
    · exact inv.sound other old
  · intro other member
    rcases mem_cons.mp (perm.mem_iff.mp member) with rfl | old
    · exact ⟨entries, held, below, full⟩
    · exact inv.filled other old
  · intro other member
    have next : (bitcSetFileStats opened fd file).maxVersion = job.catalogue.maxVersion + 1 :=
      nextVersion
    rw [next]
    rcases mem_cons.mp (allPerm.mem_iff.mp member) with rfl | old
    · rw [version_eq]
      exact Nat.lt_succ_self _
    · exact (inv.versions other old).trans (Nat.lt_succ_self _)
  · refine (allPerm.pairwise_iff Ne.symm).mpr (pairwise_cons.mpr ⟨?_, inv.distinct⟩)
    exact fun other member => (older other member).ne'
  · intro f fMember g gMember
    rcases mem_cons.mp (perm.mem_iff.mp fMember) with rfl | old
    · exact older g (mem_append_right _ gMember)
    · exact inv.newer f old g gMember
  · have grown := perm.length_eq
    rw [length_cons] at grown
    simp only
    omega
  · intro exact key
    rw [answers_perm allPerm]
    exact isNewest_cons exact held (fun other member => (older other member).le)
      (inv.holds exact key)

end

/-- The same tree on the device with the same range, in whatever level and version. -/
structure SameFile (f g : FileStat S) : Prop where
  id_eq : g.id = f.id
  firstKey_eq : g.firstKey = f.firstKey
  lastKey_eq : g.lastKey = f.lastKey
  store_eq : g.store = f.store

/-- Moved files: their level, and consecutive versions from `version` on. -/
def revised (level : Nat) : Nat → List (FileStat S) → List (FileStat S)
  | _, [] => []
  | version, file :: rest =>
    { file with version := version, level := level } :: revised level (version + 1) rest

variable {f g : FileStat S}

section

variable {level version : Nat} {moved : List (FileStat S)}

section

variable (level version moved)

@[simp] theorem length_revised : (revised level version moved).length = moved.length := by
  induction moved generalizing version with
  | nil => rfl
  | cons file rest ih => rw [revised, length_cons, length_cons, ih]

@[simp] theorem map_id_revised :
    (revised level version moved).map FileStat.id = moved.map FileStat.id := by
  induction moved generalizing version with
  | nil => rfl
  | cons file rest ih => rw [revised, map_cons, map_cons, ih]

end

theorem mem_revised (member : file ∈ revised level version moved) :
    (∃ old ∈ moved, SameFile old file) ∧ version ≤ file.version ∧
      file.version < version + moved.length := by
  induction moved generalizing version with
  | nil => cases member
  | cons head rest ih =>
    rcases mem_cons.mp member with rfl | later
    · exact ⟨⟨head, mem_cons_self, rfl, rfl, rfl, rfl⟩, le_rfl, by simp⟩
    · obtain ⟨⟨old, oldMember, same⟩, lower, upper⟩ := ih later
      refine ⟨⟨old, mem_cons_of_mem _ oldMember, same⟩, by omega, ?_⟩
      rw [length_cons]
      omega

theorem exists_mem_revised {old : FileStat S} (member : old ∈ moved) :
    ∃ file ∈ revised level version moved, SameFile old file := by
  induction moved generalizing version with
  | nil => cases member
  | cons head rest ih =>
    rcases mem_cons.mp member with rfl | later
    · exact ⟨_, mem_cons_self, rfl, rfl, rfl, rfl⟩
    · obtain ⟨file, fileMember, same⟩ := ih later
      exact ⟨file, mem_cons_of_mem _ fileMember, same⟩

theorem pairwise_version_revised (level version : Nat) (moved : List (FileStat S)) :
    (revised level version moved).Pairwise fun f g => f.version ≠ g.version := by
  induction moved generalizing version with
  | nil => exact Pairwise.nil
  | cons head rest ih =>
    refine pairwise_cons.mpr ⟨fun file later => ?_, ih _⟩
    have := (mem_revised later).2.1
    simp only
    omega

theorem SameFile.apart {f' g' : FileStat S} (left : SameFile f f') (right : SameFile g g')
    (apart : Apart f g) : Apart f' g' := by
  unfold Apart at *
  rw [left.firstKey_eq, left.lastKey_eq, right.firstKey_eq, right.lastKey_eq]
  exact apart

theorem pairwise_apart_revised (level version : Nat) (apart : moved.Pairwise Apart) :
    (revised level version moved).Pairwise Apart := by
  induction moved generalizing version with
  | nil => exact Pairwise.nil
  | cons head rest ih =>
    obtain ⟨headApart, restApart⟩ := pairwise_cons.mp apart
    refine pairwise_cons.mpr ⟨fun file later => ?_, ih _ restApart⟩
    obtain ⟨⟨old, oldMember, same⟩, -⟩ := mem_revised later
    exact SameFile.apart ⟨rfl, rfl, rfl, rfl⟩ same (headApart old oldMember)

theorem FileHolds.sameFile {files : BitFileOps S V} {entries : List (Nat × V)}
    (holds : FileHolds files f entries) (same : SameFile f g) : FileHolds files g entries :=
  ⟨same.store_eq ▸ holds.built, holds.ascending, same.firstKey_eq ▸ holds.first,
    same.lastKey_eq ▸ holds.last, holds.fits⟩

theorem FileSound.sameFile {files : BitFileOps S V} (sound : FileSound files cap f)
    (same : SameFile f g) : FileSound files cap g := by
  obtain ⟨entries, holds, below⟩ := sound
  exact ⟨entries, holds.sameFile same, below⟩

theorem foldl_moveFile (job : CompactionJob S) (moved : List (FileStat S))
    (room : moved.length + job.level2.bitFiles.length ≤ job.level2.maxSize) :
    (moved.foldl moveFile job).catalogue.bitValidityTable = job.catalogue.bitValidityTable ∧
      (moved.foldl moveFile job).catalogue.maxVersion =
        job.catalogue.maxVersion + moved.length ∧
      (moved.foldl moveFile job).level1 = (moved.map FileStat.id).foldl withoutFile job.level1 ∧
      ∃ added, (moved.foldl moveFile job).level2 = { job.level2 with bitFiles := added } ∧
        added.Perm (revised job.level2.level job.catalogue.maxVersion moved ++
          job.level2.bitFiles) ∧
        (job.level2.bitFiles.Pairwise FileLe → added.Pairwise FileLe) := by
  induction moved generalizing job with
  | nil => exact ⟨rfl, rfl, rfl, job.level2.bitFiles, rfl, Perm.refl _, id⟩
  | cons file rest ih =>
    rw [length_cons] at room
    obtain ⟨one, oneEq, onePerm, oneOrdered⟩ := withFile_of_room (l := job.level2)
      { file with version := job.catalogue.maxVersion, level := job.level2.level } (by omega)
    have level2 : (moveFile job file).level2 = { job.level2 with bitFiles := one } := oneEq
    obtain ⟨table, max, level1, added, addedEq, addedPerm, addedOrdered⟩ :=
      ih (moveFile job file) (by
        rw [level2]
        simp only [onePerm.length_eq, length_cons]
        omega)
    rw [level2] at addedOrdered
    rw [foldl_cons]
    refine ⟨table, ?_, level1, added, ?_, ?_, fun ordered => addedOrdered (oneOrdered ordered)⟩
    · rw [max, length_cons]
      simp only [moveFile, bitcSetFileStats, bitcGetNextVersion]
      omega
    · rw [addedEq, level2]
    · refine addedPerm.trans ?_
      rw [level2]
      refine (Perm.append_left _ onePerm).trans ?_
      exact perm_middle

end

theorem foldl_withoutFile_all (distinct : (l.bitFiles.map FileStat.id).Nodup) :
    (l.bitFiles.map FileStat.id).foldl withoutFile l = { l with bitFiles := [] } := by
  rw [foldl_withoutFile distinct]
  congr 1
  refine filter_eq_nil_iff.mpr fun file member => ?_
  simp only [decide_eq_true_iff, not_not]
  exact mem_map_of_mem member

section

variable {files : BitFileOps S V} {job : CompactionJob S} {look : Nat → Option V}

/-- The invariant of a tree whose level zero was emptied, from what is true of
the files of level one in any order. -/
theorem diskInv_of_level0_empty {all : List (FileStat S)}
    (shape0 : LevelShape job.level1 0 defaultLsmLevel0NrFile)
    (shape1 : LevelShape job.level2 1 (filesFor cap + defaultLsmLevel0NrFile))
    (nrSegment : job.catalogue.bitValidityTable.nrSegment =
      2 * (filesFor cap + defaultLsmLevel0NrFile))
    (empty : job.level1.bitFiles = []) (perm : job.level2.bitFiles.Perm all)
    (ordered : job.level2.bitFiles.Pairwise FileLe)
    (catalogue : CatalogueHolds job.catalogue (all.map FileStat.id))
    (sound : ∀ file ∈ all, FileSound files cap file) (apart : all.Pairwise Apart)
    (versions : ∀ file ∈ all, file.version < job.catalogue.maxVersion)
    (distinct : all.Pairwise fun f g => f.version ≠ g.version)
    (size : all.length ≤ 2 * filesFor cap + 3)
    (holds : files.Exact → ∀ key, IsNewest (answers (bitFileSearch files) all) key (look key)) :
    DiskInv files cap job look where
  shape0 := shape0
  shape1 := shape1
  nrSegment := nrSegment
  catalogue := by
    rw [empty, nil_append]
    exact catalogue.perm (perm.map _).symm
  sound file member := by
    rw [empty, nil_append] at member
    exact sound file (perm.mem_iff.mp member)
  filled file member := by
    rw [empty] at member
    cases member
  ordered := ordered
  apart := (perm.pairwise_iff (Std.Symm.symm _ _)).mpr apart
  versions file member := by
    rw [empty, nil_append] at member
    exact versions file (perm.mem_iff.mp member)
  distinct := by
    rw [empty, nil_append]
    exact (perm.pairwise_iff Ne.symm).mpr distinct
  newer f member := by
    rw [empty] at member
    cases member
  size0 := by
    rw [empty]
    exact Nat.zero_le _
  size1 := by
    rw [perm.length_eq]
    exact size
  holds exact key := by
    rw [empty, nil_append, answers_perm perm]
    exact holds exact key

/-- Moving the files of level zero changes versions and levels but not what a key
is bound to, provided that no two of all the files meet. -/
theorem DiskInv.move (inv : DiskInv files cap job look)
    (full : job.level1.bitFiles.length = defaultLsmLevel0NrFile)
    (room : job.level2.bitFiles.length < filesFor cap + defaultLsmLevel0NrFile)
    (apart : (job.level1.bitFiles ++ job.level2.bitFiles).Pairwise Apart) :
    DiskInv files cap (job.level1.bitFiles.foldl moveFile job) look ∧
      (job.level1.bitFiles.foldl moveFile job).level1.bitFiles = [] ∧
      (job.level1.bitFiles.foldl moveFile job).level2.bitFiles ≠ [] := by
  obtain ⟨apart0, -, across⟩ := pairwise_append.mp apart
  have sound0 : ∀ file ∈ job.level1.bitFiles, FileSound files cap file :=
    fun file member => inv.sound file (mem_append_left _ member)
  -- Four full files that share no key need four files' worth of keys.
  have enough : 4 ≤ filesFor cap := by
    choose! content filled using inv.filled
    have counted := length_flatMap_le (fun file member => (filled file member).1) apart0
      fun file member => (filled file member).2.1
    rw [length_flatMap_filled fun file member => (filled file member).2.2, full] at counted
    refine lt_filesFor (n := 3) (lt_of_lt_of_le ?_ counted)
    decide
  obtain ⟨table, maxVersion, level1, added, level2, perm, ordered⟩ :=
    foldl_moveFile job job.level1.bitFiles (by
      rw [full, inv.shape1.maxSize_eq]
      simp only [defaultLsmLevel0NrFile] at room ⊢
      omega)
  rw [foldl_withoutFile_all inv.catalogue.nodup_left] at level1
  generalize job.level1.bitFiles.foldl moveFile job = result at *
  have soundNew : ∀ file ∈ revised job.level2.level job.catalogue.maxVersion job.level1.bitFiles,
      FileSound files cap file := by
    intro file member
    obtain ⟨⟨old, oldMember, same⟩, -⟩ := mem_revised member
    exact (sound0 old oldMember).sameFile same
  have apartNew : (revised job.level2.level job.catalogue.maxVersion job.level1.bitFiles ++
      job.level2.bitFiles).Pairwise Apart := by
    refine pairwise_append.mpr ⟨pairwise_apart_revised _ _ apart0, inv.apart, ?_⟩
    intro f fMember g gMember
    obtain ⟨⟨old, oldMember, same⟩, -⟩ := mem_revised fMember
    exact same.apart ⟨rfl, rfl, rfl, rfl⟩ (across old oldMember g gMember)
  have sound : ∀ file ∈ revised job.level2.level job.catalogue.maxVersion job.level1.bitFiles ++
      job.level2.bitFiles, FileSound files cap file := by
    intro file member
    rcases mem_append.mp member with new | old
    · exact soundNew file new
    · exact inv.sound file (mem_append_right _ old)
  have empty : result.level1.bitFiles = [] := by rw [level1]
  refine ⟨diskInv_of_level0_empty ?_ ?_ ?_ empty (by rw [level2]; exact perm)
    (by rw [level2]; exact ordered inv.ordered) ?_ sound apartNew ?_ ?_ ?_ fun exact key => ?_,
    empty, ?_⟩
  · rw [level1]
    exact inv.shape0.withFiles []
  · rw [level2]
    exact inv.shape1.withFiles added
  · rw [table]
    exact inv.nrSegment
  · have holds := inv.catalogue
    rw [map_append] at holds ⊢
    rw [map_id_revised]
    exact ⟨holds.nodup, table ▸ holds.bound, table ▸ holds.inUse⟩
  · intro file member
    rw [maxVersion]
    rcases mem_append.mp member with new | old
    · exact (mem_revised new).2.2
    · exact (inv.versions file (mem_append_right _ old)).trans_le (Nat.le_add_right _ _)
  · refine pairwise_append.mpr ⟨pairwise_version_revised _ _ _,
      (pairwise_append.mp inv.distinct).2.1, ?_⟩
    intro f new g old
    have := (mem_revised new).2.1
    have := inv.versions g (mem_append_right _ old)
    omega
  · rw [length_append, length_revised, full]
    simp only [defaultLsmLevel0NrFile] at room ⊢
    omega
  · -- Every key has at most one file, before and after.
    refine isNewest_of_apart apartNew (answersInRange_of_sound exact.faithful sound)
      fun val => ?_
    rw [answered_of_isNewest apart (answersInRange_of_sound exact.faithful inv.sound)
      (inv.holds exact key) val]
    simp only [mem_append, or_and_right, exists_or]
    refine or_congr ⟨?_, ?_⟩ Iff.rfl
    · rintro ⟨old, oldMember, ok⟩
      obtain ⟨file, member, same⟩ := exists_mem_revised oldMember
      exact ⟨file, member, by rw [bitFileSearch, same.store_eq]; exact ok⟩
    · rintro ⟨file, member, ok⟩
      obtain ⟨⟨old, oldMember, same⟩, -⟩ := mem_revised member
      exact ⟨old, oldMember, by rw [bitFileSearch, ← same.store_eq]; exact ok⟩
  · rw [level2]
    refine ne_nil_of_length_pos ?_
    rw [perm.length_eq, length_append, length_revised, full]
    exact Nat.add_pos_left (Nat.succ_pos _) _

end

end SwornDisk.C
