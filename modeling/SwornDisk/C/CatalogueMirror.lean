import SwornDisk.C.LevelSearch
import SwornDisk.C.MergeJob

/-!
# The catalogue mirrors the levels

Between two operations the identifiers marked in the catalogue are those of the files in the
levels, and under each of them the catalogue has the statistics of the file.  Inside a job the
identifier of an open builder is marked as well.  A tree that `lsm_tree_init` builds from such a
catalogue has the same files in its levels.

No property of the keys is used: a level is never at its maximal size, because there are fewer
identifiers than slots.
-/

namespace SwornDisk.C

open Lib List Function

variable {building : List Nat} {cap : Nat}

variable {R H S V : Type}

/-! ## Identifiers -/

variable {level : Nat} {builder : BitBuilder V} {opened : BitCatalogue S}

section

variable {c : BitCatalogue S} {ids : List Nat}

theorem CatalogueHolds.length_le (holds : CatalogueHolds c ids) :
    ids.length ≤ c.bitValidityTable.nrSegment := by
  have within : ids.toFinset ⊆ Finset.range c.bitValidityTable.nrSegment := by
    intro id member
    exact Finset.mem_range.mpr (holds.bound id (mem_toFinset.mp member))
  have counted := Finset.card_le_card within
  rw [toFinset_card_of_nodup holds.nodup, Finset.card_range] at counted
  exact counted

theorem CatalogueHolds.of_openBuilder (holds : CatalogueHolds c ids)
    (ok : openBuilder c level = some (opened, builder)) :
    CatalogueHolds opened (builder.id :: ids) ∧ builder.level = level ∧
      opened.fileStats = c.fileStats ∧
      opened.bitValidityTable.nrSegment = c.bitValidityTable.nrSegment := by
  have stats : (bitcAllocFile c).2.fileStats = c.fileStats := by
    unfold bitcAllocFile
    simp only
    split
    · rfl
    · split
      · rfl
      · rfl
  have alloc : ∃ fd, (bitcAllocFile c).1 = .ok fd := by
    unfold openBuilder at ok
    split at ok
    · rename_i fd allocated isAlloc
      exact ⟨fd, by rw [isAlloc]⟩
    · cases ok
  obtain ⟨free, inside, clear⟩ : ∃ free < c.bitValidityTable.nrSegment,
      c.bitValidityTable.segValidityTable free = false := by
    obtain ⟨fd, isFd⟩ := alloc
    unfold bitcAllocFile at isFd
    simp only at isFd
    split at isFd
    · cases isFd
    · rename_i found isFound
      exact ⟨found, segValidatorNext_ok isFound⟩
  obtain ⟨fd, allocated, isAlloc, taken, -, sameNr⟩ :=
    holds.alloc (holds.room_of_free inside clear)
  rw [openBuilder, isAlloc] at ok
  obtain ⟨rfl, rfl⟩ := Prod.mk.inj (Option.some.inj ok)
  rw [isAlloc] at stats
  exact ⟨taken.getNextVersion, rfl, stats, sameNr⟩

theorem CatalogueHolds.of_release {fd : Nat} (holds : CatalogueHolds c (fd :: ids)) :
    CatalogueHolds (releaseFile c fd) ids ∧ (releaseFile c fd).fileStats = c.fileStats ∧
      (releaseFile c fd).bitValidityTable.nrSegment = c.bitValidityTable.nrSegment := by
  obtain ⟨released, -, sameNr⟩ := holds.release fd
  have others : ids.filter (· != fd) = ids := by
    refine filter_eq_self.mpr fun id member => bne_iff_ne.mpr ?_
    rintro rfl
    exact (nodup_cons.mp holds.nodup).1 member
  rw [filter_cons_of_neg (by simp), others] at released
  refine ⟨released, ?_, sameNr⟩
  unfold releaseFile bitcReleaseFile
  split
  · rename_i done
    split at done
    · cases done
    · obtain rfl := Except.ok.inj done
      rfl
  · rfl

end

/-! ## Levels -/

def BitLevel.shape (l : BitLevel S) : Nat × Nat × Nat :=
  (l.level, l.capacity, l.maxSize)

@[simp] theorem shape_withFile (l : BitLevel S) (file : FileStat S) :
    (withFile l file).shape = l.shape := by
  unfold withFile
  split
  · rename_i added ok
    unfold bitLevelAddFile at ok
    split at ok
    · cases ok
    · obtain rfl := Except.ok.inj ok
      rfl
  · rfl

variable {file : FileStat S} {l : BitLevel S}

theorem withoutFile_perm (distinct : (l.bitFiles.map FileStat.id).Nodup)
    (member : file ∈ l.bitFiles) :
    ∃ left, withoutFile l file.id = { l with bitFiles := left } ∧
      l.bitFiles.Perm (file :: left) := by
  obtain ⟨found, before, after, -, sameId, split, erased⟩ :=
    exists_of_eraseP (p := (·.id == file.id)) member (beq_self_eq_true _)
  obtain rfl : found = file := by
    refine inj_on_of_nodup_map distinct ?_ member (beq_iff_eq.mp sameId)
    rw [split]
    exact mem_append_right _ mem_cons_self
  refine ⟨before ++ after, ?_, ?_⟩
  · rw [withoutFile_eq, erased]
  · rw [split]
    exact perm_middle

/-! ## The catalogue and some files -/

/-- The identifiers in use are those of `files` and those under which something is being built,
and the catalogue has the statistics of the files. -/
structure Mirrored (c : BitCatalogue S) (building : List Nat) (files : List (FileStat S)) :
    Prop where
  holds : CatalogueHolds c (building ++ files.map FileStat.id)
  stats : ∀ file ∈ files, c.fileStats file.id = file

namespace Mirrored

variable {c : BitCatalogue S} {file : FileStat S} {files others : List (FileStat S)}

section

variable (mirrored : Mirrored c building files)
include mirrored

theorem perm (same : files.Perm others) :
    Mirrored c building others where
  holds := mirrored.holds.perm (Perm.append_left _ (same.map _))
  stats file member := mirrored.stats file (same.mem_iff.mpr member)

theorem distinct : (files.map FileStat.id).Nodup :=
  (nodup_append.mp mirrored.holds.nodup).2.1

theorem openBuilder (ok : C.openBuilder c level = some (opened, builder)) :
    Mirrored opened (builder.id :: building) files ∧ builder.level = level ∧
      opened.bitValidityTable.nrSegment = c.bitValidityTable.nrSegment := by
  obtain ⟨holds, isLevel, stats, sameNr⟩ := mirrored.holds.of_openBuilder ok
  refine ⟨⟨holds, fun file member => ?_⟩, isLevel, sameNr⟩
  rw [stats]
  exact mirrored.stats file member

end

theorem enter {catalogue : BitCatalogue S} (holds : CatalogueHolds catalogue
      (building ++ (file :: files).map FileStat.id))
    (stats : ∀ other ∈ files, catalogue.fileStats other.id = other) :
    Mirrored (bitcSetFileStats catalogue file.id file) building (file :: files) where
  holds := holds.setFileStats file.id file
  stats := by
    intro other member
    rcases mem_cons.mp member with rfl | old
    · exact update_self _ _ _
    · have fresh : file.id ∉ files.map FileStat.id :=
        (nodup_cons.mp (nodup_append.mp holds.nodup).2.1).1
      have differ : other.id ≠ file.id := fun same => fresh (same ▸ mem_map_of_mem old)
      exact (update_of_ne differ _ _).trans (stats other old)

theorem finish (mirrored : Mirrored c (file.id :: building) files) :
    Mirrored (bitcSetFileStats c file.id file) building (file :: files) :=
  enter (mirrored.holds.perm perm_middle.symm) mirrored.stats

theorem revise (mirrored : Mirrored c building (file :: files)) {revised : FileStat S}
    (same : revised.id = file.id) :
    Mirrored (bitcSetFileStats (bitcGetNextVersion c).2 revised.id revised) building
      (revised :: files) := by
  refine enter ?_ fun other member => mirrored.stats other (mem_cons_of_mem _ member)
  rw [map_cons, same]
  exact mirrored.holds.getNextVersion

theorem release (mirrored : Mirrored c building (file :: files)) :
    Mirrored (releaseFile c file.id) building files ∧
      (releaseFile c file.id).bitValidityTable.nrSegment = c.bitValidityTable.nrSegment := by
  obtain ⟨holds, stats, sameNr⟩ := (mirrored.holds.perm perm_middle).of_release
  refine ⟨⟨holds, fun other member => ?_⟩, sameNr⟩
  rw [stats]
  exact mirrored.stats other (mem_cons_of_mem _ member)

end Mirrored

/-! ## The catalogue during a job -/

/-- The catalogue mirrors the two levels of a job, the files know their level, and there are
fewer identifiers than slots in the lower level. -/
structure JobMirrored (job : CompactionJob S) (building : List Nat) : Prop where
  mirrored : Mirrored job.catalogue building (job.level1.bitFiles ++ job.level2.bitFiles)
  level1 : ∀ file ∈ job.level1.bitFiles, file.level = job.level1.level
  level2 : ∀ file ∈ job.level2.bitFiles, file.level = job.level2.level
  slots : job.catalogue.bitValidityTable.nrSegment < job.level2.maxSize

structure SameShape (job next : CompactionJob S) : Prop where
  level1 : next.level1.shape = job.level1.shape
  level2 : next.level2.shape = job.level2.shape
  nrSegment : next.catalogue.bitValidityTable.nrSegment =
    job.catalogue.bitValidityTable.nrSegment

theorem SameShape.trans {job middle next : CompactionJob S} (first : SameShape job middle)
    (second : SameShape middle next) : SameShape job next :=
  ⟨second.level1.trans first.level1, second.level2.trans first.level2,
    second.nrSegment.trans first.nrSegment⟩

theorem SameShape.refl (job : CompactionJob S) : SameShape job job :=
  ⟨rfl, rfl, rfl⟩

namespace JobMirrored

variable {job : CompactionJob S}

section

variable (inv : JobMirrored job building)
include inv

theorem length_lt : job.level2.bitFiles.length < job.level2.maxSize := by
  have used := inv.mirrored.holds.length_le
  have := inv.slots
  simp only [length_append, length_map] at used
  omega

theorem addFile (file : FileStat S) :
    ∃ added, withFile job.level2 file = { job.level2 with bitFiles := added } ∧
      added.Perm (file :: job.level2.bitFiles) := by
  obtain ⟨added, addedEq, perm, -⟩ := withFile_of_room file inv.length_lt
  exact ⟨added, addedEq, perm⟩

theorem openBuilder (ok : C.openBuilder job.catalogue level = some (opened, builder)) :
    JobMirrored { job with catalogue := opened } (builder.id :: building) ∧
      builder.level = level ∧ SameShape job { job with catalogue := opened } := by
  obtain ⟨mirrored, isLevel, sameNr⟩ := inv.mirrored.openBuilder ok
  refine ⟨⟨mirrored, inv.level1, inv.level2, ?_⟩, isLevel, ⟨rfl, rfl, sameNr⟩⟩
  rw [sameNr]
  exact inv.slots

end

theorem finishFile (files : BitFileOps S V) (inv : JobMirrored job (builder.id :: building))
    (isLevel : builder.level = job.level2.level) :
    JobMirrored (C.finishFile files job builder) building ∧
      SameShape job (C.finishFile files job builder) ∧
      (C.finishFile files job builder).level2.bitFiles.Perm
        (bitBuilderComplete files builder :: job.level2.bitFiles) := by
  obtain ⟨added, addedEq, perm⟩ := inv.addFile (bitBuilderComplete files builder)
  have asFile : Mirrored job.catalogue ((bitBuilderComplete files builder).id :: building)
      (job.level1.bitFiles ++ job.level2.bitFiles) := inv.mirrored
  have entered := asFile.finish
  refine ⟨⟨?_, inv.level1, ?_, ?_⟩, ⟨rfl, shape_withFile _ _, rfl⟩, ?_⟩
  · simp only [C.finishFile, addedEq]
    refine entered.perm (perm_middle.symm.trans ?_)
    exact Perm.append_left _ perm.symm
  · simp only [C.finishFile, addedEq]
    intro file member
    rcases mem_cons.mp (perm.mem_iff.mp member) with rfl | old
    · exact isLevel
    · exact inv.level2 file old
  · simp only [C.finishFile, addedEq]
    exact inv.slots
  · simp only [C.finishFile, addedEq]
    exact perm

theorem distinct (inv : JobMirrored job building) :
    (job.level1.bitFiles.map FileStat.id).Nodup ∧ (job.level2.bitFiles.map FileStat.id).Nodup := by
  have all := inv.mirrored.distinct
  rw [map_append] at all
  exact ⟨(nodup_append.mp all).1, (nodup_append.mp all).2.1⟩

theorem moveFile (inv : JobMirrored job []) (member : file ∈ job.level1.bitFiles) :
    JobMirrored (C.moveFile job file) [] ∧ SameShape job (C.moveFile job file) ∧
      job.level1.bitFiles.Perm (file :: (C.moveFile job file).level1.bitFiles) := by
  obtain ⟨left, leftEq, leftPerm⟩ := withoutFile_perm inv.distinct.1 member
  generalize isMoved : ({ file with
    version := (bitcGetNextVersion job.catalogue).1
    level := job.level2.level } : FileStat S) = moved
  have sameId : moved.id = file.id := by
    rw [← isMoved]
  have isLevel : moved.level = job.level2.level := by
    rw [← isMoved]
  have moves : C.moveFile job file =
      { catalogue := bitcSetFileStats (bitcGetNextVersion job.catalogue).2 moved.id moved
        level1 := withoutFile job.level1 file.id
        level2 := withFile job.level2 moved } := by
    rw [sameId, ← isMoved]
    rfl
  obtain ⟨added, addedEq, addedPerm⟩ := inv.addFile moved
  have revised := (inv.mirrored.perm (leftPerm.append_right job.level2.bitFiles)).revise sameId
  rw [moves, leftEq, addedEq]
  refine ⟨⟨?_, fun other inLeft => ?_, fun other inAdded => ?_, inv.slots⟩, ⟨rfl, rfl, rfl⟩,
    leftPerm⟩
  · exact revised.perm (perm_middle.symm.trans (Perm.append_left _ addedPerm.symm))
  · exact inv.level1 other (leftPerm.mem_iff.mpr (mem_cons_of_mem _ inLeft))
  · rcases mem_cons.mp (addedPerm.mem_iff.mp inAdded) with rfl | old
    · exact isLevel
    · exact inv.level2 other old

theorem retireDemoted (inv : JobMirrored job []) (member : file ∈ job.level1.bitFiles) :
    JobMirrored (C.retireDemoted job file) [] ∧ SameShape job (C.retireDemoted job file) ∧
      job.level1.bitFiles.Perm (file :: (C.retireDemoted job file).level1.bitFiles) := by
  obtain ⟨left, leftEq, leftPerm⟩ := withoutFile_perm inv.distinct.1 member
  obtain ⟨released, sameNr⟩ :=
    (inv.mirrored.perm (leftPerm.append_right job.level2.bitFiles)).release
  rw [C.retireDemoted, leftEq]
  refine ⟨⟨released, fun other inLeft => ?_, inv.level2, ?_⟩, ⟨rfl, rfl, sameNr⟩, leftPerm⟩
  · exact inv.level1 other (leftPerm.mem_iff.mpr (mem_cons_of_mem _ inLeft))
  · simp only [sameNr]
    exact inv.slots

theorem retireRelative (inv : JobMirrored job []) (member : file ∈ job.level2.bitFiles) :
    JobMirrored (C.retireRelative job file) [] ∧ SameShape job (C.retireRelative job file) ∧
      job.level2.bitFiles.Perm (file :: (C.retireRelative job file).level2.bitFiles) := by
  obtain ⟨left, leftEq, leftPerm⟩ := withoutFile_perm inv.distinct.2 member
  have inFront : (job.level1.bitFiles ++ job.level2.bitFiles).Perm
      (file :: (job.level1.bitFiles ++ left)) :=
    (Perm.append_left _ leftPerm).trans perm_middle
  obtain ⟨released, sameNr⟩ := (inv.mirrored.perm inFront).release
  rw [C.retireRelative, leftEq]
  refine ⟨⟨released, inv.level1, fun other inLeft => ?_, ?_⟩, ⟨rfl, rfl, sameNr⟩, leftPerm⟩
  · exact inv.level2 other (leftPerm.mem_iff.mpr (mem_cons_of_mem _ inLeft))
  · simp only [sameNr]
    exact inv.slots

theorem foldl {body : CompactionJob S → FileStat S → CompactionJob S}
    (pick : CompactionJob S → List (FileStat S))
    (each : ∀ job file, JobMirrored job [] → file ∈ pick job →
      JobMirrored (body job file) [] ∧ SameShape job (body job file) ∧
        (pick job).Perm (file :: pick (body job file)))
    (inv : JobMirrored job []) {inputs rest : List (FileStat S)}
    (perm : (pick job).Perm (inputs ++ rest)) :
    JobMirrored (inputs.foldl body job) [] ∧ SameShape job (inputs.foldl body job) ∧
      (pick (inputs.foldl body job)).Perm rest := by
  induction inputs generalizing job with
  | nil => exact ⟨inv, SameShape.refl job, perm⟩
  | cons file inputs ih =>
    obtain ⟨next, shape, taken⟩ := each job file inv (perm.mem_iff.mpr mem_cons_self)
    have left := (taken.symm.trans perm).cons_inv
    obtain ⟨done, shapes, kept⟩ := ih next left
    exact ⟨done, shape.trans shapes, kept⟩

end JobMirrored

/-- The job between two entries of the merge: the identifier of the open builder is in use, and
files have only been added to the lower level. -/
structure Emits (start : CompactionJob S) (out : CompactionJob S × BitBuilder V) : Prop where
  inv : JobMirrored out.1 [out.2.id]
  isLevel : out.2.level = out.1.level2.level
  shape : SameShape start out.1
  level1 : out.1.level1 = start.level1
  level2 : ∃ outputs, out.1.level2.bitFiles.Perm (outputs ++ start.level2.bitFiles)

namespace Emits

variable {files : BitFileOps S V} {start : CompactionJob S}
  {out next : CompactionJob S × BitBuilder V}

theorem finish (files : BitFileOps S V) (emits : Emits start out) (entry : Nat × V) :
    JobMirrored (finishFile files out.1 (bitBuilderAddEntry out.2 entry)) [] ∧
      SameShape start (finishFile files out.1 (bitBuilderAddEntry out.2 entry)) ∧
      ∃ outputs, (finishFile files out.1 (bitBuilderAddEntry out.2 entry)).level2.bitFiles.Perm
        (outputs ++ start.level2.bitFiles) := by
  have added : JobMirrored out.1 ((bitBuilderAddEntry out.2 entry).id :: []) := emits.inv
  obtain ⟨finished, shape, perm⟩ := added.finishFile files emits.isLevel
  obtain ⟨outputs, before⟩ := emits.level2
  exact ⟨finished, emits.shape.trans shape, _ :: outputs, perm.trans (before.cons _)⟩

theorem emitEntry (emits : Emits start out) {entry : Nat × V}
    (emitted : C.emitEntry files out entry = some next) : Emits start next := by
  unfold C.emitEntry at emitted
  split at emitted
  · obtain ⟨opened, ok, rfl⟩ := Option.map_eq_some_iff.mp emitted
    obtain ⟨finished, shape, outputs, perm⟩ := emits.finish files entry
    obtain ⟨inv, isLevel, opens⟩ := finished.openBuilder ok
    refine ⟨inv, isLevel.trans ?_, shape.trans opens, emits.level1, outputs, perm⟩
    exact (congrArg Prod.fst (shape_withFile _ _)).symm
  · obtain rfl := Option.some.inj emitted
    exact ⟨emits.inv, emits.isLevel, emits.shape, emits.level1, emits.level2⟩

theorem emitAll (emits : Emits start out) {entries : List (Nat × V)}
    (emitted : entries.foldlM (C.emitEntry files) out = some next) : Emits start next := by
  induction entries generalizing out with
  | nil =>
    obtain rfl := Option.some.inj emitted
    exact emits
  | cons entry entries ih =>
    rw [foldlM_cons] at emitted
    obtain ⟨middle, first, rest⟩ := Option.bind_eq_some_iff.mp emitted
    exact ih (emits.emitEntry first) rest

end Emits

section

variable {env : LsmEnv R H S V} {job result : CompactionJob S}

theorem JobMirrored.merged (inv : JobMirrored job []) {demoted relatives : List (FileStat S)}
    (ran : mergeFiles env job demoted relatives = some result) :
    ∃ merged, result = relatives.foldl C.retireRelative (demoted.foldl C.retireDemoted merged) ∧
      JobMirrored merged [] ∧ SameShape job merged ∧ merged.level1 = job.level1 ∧
      ∃ outputs, merged.level2.bitFiles.Perm (outputs ++ job.level2.bitFiles) := by
  unfold mergeFiles at ran
  split at ran
  case isFalse => cases ran
  simp only at ran
  split at ran
  · cases ran
  · split at ran
    · cases ran
    · rename_i distinct _ _ _ allocated builder opened
      obtain ⟨init, last, -, emits⟩ := kwayMerge_eq env.heap FileStat.version
        (emitEntry env.files) (env.heap.pushAll (mergeNodes env.files (demoted ++ relatives)))
        distinct ({ job with catalogue := allocated }, builder)
      rw [emits] at ran
      split at ran
      · cases ran
      · rename_i wrote
        obtain ⟨out, emitted, pair⟩ := Option.map_eq_some_iff.mp wrote
        obtain ⟨rfl, rfl⟩ := Prod.mk.inj pair
        obtain ⟨-, rfl⟩ := retireInputs_eq_some_iff.mp ran
        obtain ⟨open1, isLevel, shape⟩ := inv.openBuilder opened
        have start : Emits job ({ job with catalogue := allocated }, builder) :=
          ⟨open1, isLevel, shape, rfl, [], Perm.refl _⟩
        have done := start.emitAll emitted
        obtain ⟨finished, shapes, outputs, perm⟩ := done.finish env.files last
        exact ⟨_, rfl, finished, shapes, done.level1, outputs, perm⟩

theorem JobMirrored.compactionJobRun (inv : JobMirrored job [])
    (ran : C.compactionJobRun env job = some result) :
    JobMirrored result [] ∧ SameShape job result ∧
      job.level1.bitFiles.Perm (job.demoted ++ result.level1.bitFiles) := by
  obtain ⟨kept1, perm1⟩ := (demoted_sublist job).exists_perm_append
  obtain ⟨kept2, perm2⟩ := (relatives_sublist job).exists_perm_append
  unfold C.compactionJobRun at ran
  simp only at ran
  split at ran
  · obtain rfl := Option.some.inj ran
    obtain ⟨moved, shape, left⟩ := inv.foldl (fun job => job.level1.bitFiles)
      (fun _ _ now member => now.moveFile member) perm1
    exact ⟨moved, shape, perm1.trans (Perm.append_left _ left.symm)⟩
  · obtain ⟨merged, rfl, mergedInv, mergedShape, level1, outputs, added⟩ := inv.merged ran
    obtain ⟨first, firstShape, left1⟩ := mergedInv.foldl (fun job => job.level1.bitFiles)
      (fun _ _ now member => now.retireDemoted member) (by rw [level1]; exact perm1)
    have same2 : (job.demoted.foldl C.retireDemoted merged).level2 = merged.level2 := by
      rw [foldl_retireDemoted]
    have inputs2 : (job.demoted.foldl C.retireDemoted merged).level2.bitFiles.Perm
        (job.relatives ++ (outputs ++ kept2)) := by
      rw [same2]
      refine added.trans ((Perm.append_left _ perm2).trans ?_)
      rw [← append_assoc, ← append_assoc]
      exact perm_append_comm.append_right _
    obtain ⟨last, lastShape, -⟩ := first.foldl (fun job => job.level2.bitFiles)
      (fun _ _ now member => now.retireRelative member) inputs2
    refine ⟨last, (mergedShape.trans firstShape).trans lastShape, ?_⟩
    rw [foldl_retireRelative]
    exact perm1.trans (Perm.append_left _ left1.symm)

end

/-! ## Operations of the tree -/

inductive TreeOp (V : Type) where
  | put (key : Nat) (val : V)
  | minorCompaction
  | majorCompaction (level : Nat)

def runTreeOp (env : LsmEnv R H S V) (t : LsmTree R S) : TreeOp V → Option (LsmTree R S)
  | .put key val => lsmTreePut env t key val
  | .minorCompaction => lsmTreeMinorCompaction env t
  | .majorCompaction level => lsmTreeMajorCompaction env t level

def runTreeOps (env : LsmEnv R H S V) (t : LsmTree R S) (ops : List (TreeOp V)) :
    Option (LsmTree R S) :=
  ops.foldlM (runTreeOp env) t

variable {t : LsmTree R S}

structure TreeMirrored (cap : Nat) (t : LsmTree R S) (level0 level1 : BitLevel S) : Prop where
  levels : t.levels = [level0, level1]
  shape0 : level0.shape = (0, defaultLsmLevel0NrFile, 3 * defaultLsmLevel0NrFile)
  shape1 : level1.shape = (1, totalBit 2 lsmTreeDiskLevelCommonRatio cap,
    2 * totalBit 2 lsmTreeDiskLevelCommonRatio cap + defaultLsmLevel0NrFile)
  nrSegment : t.catalogue.bitValidityTable.nrSegment =
    2 * totalBit 2 lsmTreeDiskLevelCommonRatio cap
  job : JobMirrored ⟨t.catalogue, level0, level1⟩ []
  size0 : level0.bitFiles.length ≤ defaultLsmLevel0NrFile

namespace TreeMirrored

variable {env : LsmEnv R H S V} {t next : LsmTree R S} {level0 level1 : BitLevel S}

section

variable (inv : TreeMirrored cap t level0 level1)
include inv

theorem level0_eq :
    level0.level = 0 ∧ level0.capacity = defaultLsmLevel0NrFile ∧
      level0.maxSize = 3 * defaultLsmLevel0NrFile :=
  ⟨congrArg Prod.fst inv.shape0, congrArg (·.2.1) inv.shape0, congrArg (·.2.2) inv.shape0⟩

theorem withMemtable (memtable : Memtable R) :
    TreeMirrored cap { t with memtable := memtable } level0 level1 :=
  ⟨inv.levels, inv.shape0, inv.shape1, inv.nrSegment, inv.job, inv.size0⟩

theorem compact {result : CompactionJob S}
    (ran : compactionJobRun env ⟨t.catalogue, level0, level1⟩ = some result) :
    TreeMirrored cap (afterJob t result) result.level1 result.level2 ∧
      result.level1.bitFiles = [] := by
  obtain ⟨mirrored, shape, perm⟩ := inv.job.compactionJobRun ran
  have demoted : CompactionJob.demoted ⟨t.catalogue, level0, level1⟩ = level0.bitFiles :=
    if_pos inv.level0_eq.1
  have empty : result.level1.bitFiles = [] := by
    have length := perm.length_eq
    rw [demoted, length_append] at length
    exact eq_nil_of_length_eq_zero (by simp only at length; omega)
  refine ⟨⟨rfl, shape.level1.trans inv.shape0, shape.level2.trans inv.shape1,
    shape.nrSegment.trans inv.nrSegment, mirrored, ?_⟩, empty⟩
  rw [empty]
  exact Nat.zero_le _

theorem majorCompaction (ran : lsmTreeMajorCompaction env t level = some next) :
    ∃ upper lower, TreeMirrored cap next upper lower ∧ upper.bitFiles = [] := by
  have noLevel : ∀ level, lsmTreeMajorCompaction env t (level + 1) = none := by
    intro level
    rw [lsmTreeMajorCompaction]
    split
    · rfl
    · rename_i below isBelow
      rw [inv.levels] at isBelow
      cases isBelow
  cases level with
  | succ level =>
    rw [noLevel level] at ran
    cases ran
  | zero =>
    cases full : bitLevelIsFull level1 with
    | true =>
      rw [lsmTreeMajorCompaction] at ran
      split at ran
      · cases ran
      · rename_i below isBelow
        rw [inv.levels] at isBelow
        obtain rfl := Option.some.inj isBelow
        rw [if_pos full, noLevel 0] at ran
        cases ran
    | false =>
      rw [lsmTreeMajorCompaction_two inv.levels full] at ran
      obtain ⟨result, jobRan, rfl⟩ := Option.map_eq_some_iff.mp ran
      exact ⟨result.level1, result.level2, inv.compact jobRan⟩

theorem flush (room : level0.bitFiles.length < defaultLsmLevel0NrFile)
    (ran : flushMemtable env t = some next) : ∃ upper, TreeMirrored cap next upper level1 := by
  unfold flushMemtable at ran
  rw [inv.levels] at ran
  split at ran
  · rename_i zero allocated builder isZero opened
    obtain rfl := Option.some.inj isZero
    obtain rfl := Option.some.inj ran
    obtain ⟨building, isLevel, sameNr⟩ := inv.job.mirrored.openBuilder opened
    generalize isFile : bitBuilderComplete env.files
      ((rbtreeMemtableGetAllEntry env.tree t.memtable).foldl bitBuilderAddEntry builder) = file
    have sameId : file.id = builder.id ∧ file.level = builder.level := by
      rw [← isFile, foldl_bitBuilderAddEntry]
      exact ⟨rfl, rfl⟩
    rw [← sameId.1] at building
    obtain ⟨added, addedEq, perm, -⟩ := withFile_of_room (l := level0) file (by
      rw [inv.level0_eq.2.2]
      simp only [defaultLsmLevel0NrFile] at room ⊢
      omega)
    refine ⟨withFile level0 file, ⟨rfl, (shape_withFile _ _).trans inv.shape0, inv.shape1,
      sameNr.trans inv.nrSegment, ⟨?_, ?_, inv.job.level2, ?_⟩, ?_⟩⟩
    · simp only [addedEq]
      exact building.finish.perm (perm.symm.append_right _)
    · simp only [addedEq]
      intro other member
      rcases mem_cons.mp (perm.mem_iff.mp member) with rfl | old
      · rw [sameId.2, isLevel, inv.level0_eq.1]
      · exact inv.job.level1 other old
    · simp only [bitcSetFileStats, sameNr]
      exact inv.job.slots
    · rw [addedEq]
      simp only [perm.length_eq, length_cons]
      exact room
  · cases ran

theorem minorCompaction (ran : lsmTreeMinorCompaction env t = some next) :
    ∃ upper lower, TreeMirrored cap next upper lower := by
  cases full : bitLevelIsFull level0 with
  | true =>
    rw [lsmTreeMinorCompaction_of_full inv.levels full] at ran
    obtain ⟨middle, major, flushed⟩ := Option.bind_eq_some_iff.mp ran
    obtain ⟨upper, lower, middleInv, empty⟩ := inv.majorCompaction major
    obtain ⟨zero, nextInv⟩ := middleInv.flush (by rw [empty]; exact Nat.succ_pos _) flushed
    exact ⟨zero, lower, nextInv⟩
  | false =>
    rw [lsmTreeMinorCompaction_of_room inv.levels full] at ran
    have room := of_decide_eq_false full
    rw [inv.level0_eq.2.1] at room
    obtain ⟨zero, nextInv⟩ := inv.flush (not_le.mp room) ran
    exact ⟨zero, level1, nextInv⟩

theorem runTreeOp {op : TreeOp V} (ran : C.runTreeOp env t op = some next) :
    ∃ upper lower, TreeMirrored cap next upper lower := by
  cases op with
  | put key val =>
    simp only [C.runTreeOp, lsmTreePut] at ran
    split at ran
    · exact (inv.withMemtable _).minorCompaction ran
    · obtain rfl := Option.some.inj ran
      exact ⟨level0, level1, inv.withMemtable _⟩
  | minorCompaction => exact inv.minorCompaction ran
  | majorCompaction level =>
    obtain ⟨upper, lower, nextInv, -⟩ := inv.majorCompaction ran
    exact ⟨upper, lower, nextInv⟩

theorem runTreeOps {ops : List (TreeOp V)} (ran : C.runTreeOps env t ops = some next) :
    ∃ upper lower, TreeMirrored cap next upper lower := by
  induction ops generalizing t level0 level1 with
  | nil =>
    obtain rfl := Option.some.inj ran
    exact ⟨level0, level1, inv⟩
  | cons op ops ih =>
    rw [C.runTreeOps, foldlM_cons] at ran
    obtain ⟨middle, first, rest⟩ := Option.bind_eq_some_iff.mp ran
    obtain ⟨upper, lower, middleInv⟩ := inv.runTreeOp first
    exact ih middleInv rest

end

theorem create (env : LsmEnv R H S V) (cap : Nat) (stats : Nat → FileStat S) :
    TreeMirrored cap (lsmTreeCreate env cap stats) (bitLevelInit 0 defaultLsmLevel0NrFile)
      (bitLevelInit 1 (totalBit 2 lsmTreeDiskLevelCommonRatio cap)) := by
  have start := treeInv_lsmTreeCreate env cap stats
  have nrSegment : (lsmTreeCreate env cap stats).catalogue.bitValidityTable.nrSegment =
    2 * (filesFor cap + defaultLsmLevel0NrFile) := start.disk.nrSegment
  refine ⟨start.levels, rfl, rfl, nrSegment, ⟨⟨start.disk.catalogue, ?_⟩, ?_, ?_, ?_⟩,
    Nat.zero_le _⟩
  · exact fun file member => absurd member not_mem_nil
  · exact fun file member => absurd member not_mem_nil
  · exact fun file member => absurd member not_mem_nil
  · change (lsmTreeCreate env cap stats).catalogue.bitValidityTable.nrSegment <
      2 * (filesFor cap + defaultLsmLevel0NrFile) + defaultLsmLevel0NrFile
    rw [nrSegment]
    exact Nat.lt_add_of_pos_right (Nat.succ_pos _)

end TreeMirrored

/-! ## Loading the tree -/

variable {files : List (FileStat S)}

section

variable {level0 level1 : BitLevel S}

theorem Mirrored.allFileStats {c : BitCatalogue S} (mirrored : Mirrored c [] files) :
    (bitcGetAllFileStats c).Perm files := by
  have ids : ((range c.bitValidityTable.nrSegment).filter
      c.bitValidityTable.segValidityTable).Perm (files.map FileStat.id) := by
    refine (perm_ext_iff_of_nodup (nodup_range.filter _) mirrored.distinct).mpr
      fun id => ?_
    rw [mem_filter, mem_range]
    constructor
    · rintro ⟨inside, set⟩
      exact (mirrored.holds.inUse id inside).mp set
    · intro member
      have inside := mirrored.holds.bound id member
      exact ⟨inside, (mirrored.holds.inUse id inside).mpr member⟩
  refine (ids.map c.fileStats).trans ?_
  rw [map_map]
  refine Perm.of_eq (map_congr_left ?_ |>.trans (map_id _))
  exact mirrored.stats

theorem foldl_withFile (files : List (FileStat S)) (sorted : l.bitFiles.Pairwise FileLe)
    (room : files.length + l.bitFiles.length ≤ l.maxSize) :
    ∃ added, files.foldl withFile l = { l with bitFiles := added } ∧
      added.Perm (files ++ l.bitFiles) ∧ added.Pairwise FileLe := by
  induction files generalizing l with
  | nil => exact ⟨l.bitFiles, rfl, Perm.refl _, sorted⟩
  | cons file files ih =>
    rw [length_cons] at room
    obtain ⟨one, oneEq, onePerm, ordered⟩ := withFile_of_room (l := l) file (by omega)
    obtain ⟨added, addedEq, perm, addedSorted⟩ := ih (l := { l with bitFiles := one })
      (ordered sorted) (by simp only [onePerm.length_eq, length_cons]; omega)
    refine ⟨added, ?_, ?_, addedSorted⟩
    · rw [foldl_cons, oneEq]
      exact addedEq
    · exact perm.trans ((Perm.append_left _ onePerm).trans perm_middle)

theorem filter_level_eq {kept dropped : List (FileStat S)}
    (isKept : ∀ file ∈ kept, file.level = level)
    (isDropped : ∀ file ∈ dropped, file.level ≠ level) :
    (kept.filter fun file => file.level == level) = kept ∧
      (dropped.filter fun file => file.level == level) = [] := by
  constructor
  · exact filter_eq_self.mpr fun file member => beq_iff_eq.mpr (isKept file member)
  · exact filter_eq_nil_iff.mpr fun file member same =>
      isDropped file member (beq_iff_eq.mp same)

theorem foldl_modify_levels (level0 level1 : BitLevel S) (stats : List (FileStat S))
    (known : ∀ stat ∈ stats, stat.level = 0 ∨ stat.level = 1) :
    stats.foldl (fun levels stat => levels.modify stat.level (withFile · stat)) [level0, level1] =
      [(stats.filter fun stat => stat.level == 0).foldl withFile level0,
        (stats.filter fun stat => stat.level == 1).foldl withFile level1] := by
  induction stats generalizing level0 level1 with
  | nil => rfl
  | cons stat stats ih =>
    have later := fun other member => known other (mem_cons_of_mem _ member)
    rw [foldl_cons]
    rcases known stat mem_cons_self with zero | one
    · rw [zero, filter_cons_of_pos (by simp [zero]), filter_cons_of_neg (by simp [zero])]
      exact ih _ _ later
    · rw [one, filter_cons_of_neg (by simp [one]), filter_cons_of_pos (by simp [one])]
      exact ih _ _ later

structure Reloaded (before loaded : BitLevel S) : Prop where
  shape : loaded.shape = before.shape
  perm : loaded.bitFiles.Perm before.bitFiles
  sorted : loaded.bitFiles.Pairwise FileLe

theorem reloaded_foldl {fresh before : BitLevel S} (empty : fresh.bitFiles = [])
    (shape : fresh.shape = before.shape) (perm : files.Perm before.bitFiles)
    (room : before.bitFiles.length ≤ before.maxSize) :
    Reloaded before (files.foldl withFile fresh) := by
  have maxSize : fresh.maxSize = before.maxSize := congrArg (·.2.2) shape
  obtain ⟨added, addedEq, addedPerm, sorted⟩ := foldl_withFile files (l := fresh)
    (by rw [empty]; exact Pairwise.nil)
    (by rw [empty, length_nil, Nat.add_zero, perm.length_eq, maxSize]; exact room)
  rw [empty, append_nil] at addedPerm
  rw [addedEq]
  exact ⟨shape, addedPerm.trans perm, sorted⟩

/-- `lsm_tree_init` rebuilds the levels of a tree that its catalogue mirrors.  It gets to its end
if the statistics that it frees keep their links. -/
theorem TreeMirrored.reloads (env : LsmEnv R H S V) (inv : TreeMirrored cap t level0 level1) :
    Achieves (∀ level ∈ t.levels, ∀ file ∈ level.bitFiles, env.freed.stat file = true)
      (lsmTreeInit env t.catalogue defaultLsmTreeNrDiskLevel lsmTreeDiskLevelCommonRatio
        (totalBit 2 lsmTreeDiskLevelCommonRatio cap))
      fun loaded => Forall₂ Reloaded t.levels loaded.levels := by
  have all := inv.job.mirrored.allFileStats
  have isOne : level1.level = 1 := congrArg Prod.fst inv.shape1
  have isZero : ∀ file ∈ level0.bitFiles, file.level = 0 :=
    fun file member => (inv.job.level1 file member).trans inv.level0_eq.1
  have isOnes : ∀ file ∈ level1.bitFiles, file.level = 1 :=
    fun file member => (inv.job.level2 file member).trans isOne
  have tags : ∀ stat ∈ bitcGetAllFileStats t.catalogue, stat.level = 0 ∨ stat.level = 1 := by
    intro stat member
    exact (mem_append.mp (all.mem_iff.mp member)).imp (isZero stat) (isOnes stat)
  have zeros : ((bitcGetAllFileStats t.catalogue).filter fun stat => stat.level == 0).Perm
      level0.bitFiles := by
    obtain ⟨kept, dropped⟩ := filter_level_eq isZero fun file member => by
      rw [isOnes file member]
      exact one_ne_zero
    refine (all.filter _).trans (Perm.of_eq ?_)
    rw [filter_append, kept, dropped, append_nil]
  have ones : ((bitcGetAllFileStats t.catalogue).filter fun stat => stat.level == 1).Perm
      level1.bitFiles := by
    obtain ⟨kept, dropped⟩ := filter_level_eq isOnes fun file member => by
      rw [isZero file member]
      exact zero_ne_one
    refine (all.filter _).trans (Perm.of_eq ?_)
    rw [filter_append, kept, dropped, nil_append]
  have folded : (bitcGetAllFileStats t.catalogue).foldl
      (fun levels stat => levels.modify stat.level (withFile · stat)) (emptyLevels
        defaultLsmTreeNrDiskLevel lsmTreeDiskLevelCommonRatio
        (totalBit 2 lsmTreeDiskLevelCommonRatio cap)) = _ :=
    foldl_modify_levels (bitLevelInit 0 defaultLsmLevel0NrFile)
      (bitLevelInit 1 (totalBit 2 lsmTreeDiskLevelCommonRatio cap)) _ tags
  refine Achieves.map ⟨fun kept => ⟨_, walkFreed_eq_some_iff.mpr ⟨fun stat member => ?_, rfl⟩⟩,
    fun levels done => ?_⟩
  · rw [inv.levels] at kept
    rcases mem_append.mp (all.mem_iff.mp member) with upper | lower
    · exact kept level0 mem_cons_self stat upper
    · exact kept level1 (mem_cons_of_mem _ mem_cons_self) stat lower
  obtain ⟨-, rfl⟩ := walkFreed_eq_some_iff.mp done
  rw [inv.levels, folded]
  refine .cons (reloaded_foldl rfl inv.shape0.symm zeros ?_)
    (.cons (reloaded_foldl rfl inv.shape1.symm ones inv.job.length_lt.le) .nil)
  rw [inv.level0_eq.2.2]
  exact inv.size0.trans (Nat.le_mul_of_pos_left _ (Nat.succ_pos _))

end

/-! ## Every reached state -/

/-- The identifiers marked in the catalogue are those of the files of the levels, and each is
entered with the statistics of its file. -/
structure MirrorsLevels (c : BitCatalogue S) (levels : List (BitLevel S)) : Prop where
  ids : ∀ id, (id < c.bitValidityTable.nrSegment ∧
      c.bitValidityTable.segValidityTable id = true) ↔
    ∃ level ∈ levels, ∃ file ∈ level.bitFiles, file.id = id
  stats : ∀ level ∈ levels, ∀ file ∈ level.bitFiles,
    c.fileStats file.id = file ∧ file.level = level.level

theorem TreeMirrored.mirrorsLevels {level0 level1 : BitLevel S}
    (inv : TreeMirrored cap t level0 level1) : MirrorsLevels t.catalogue t.levels := by
  have job := inv.job
  rw [inv.levels]
  constructor
  · intro id
    simp only [mem_cons, not_mem_nil, or_false, exists_eq_or_imp, exists_eq_left]
    have listed : (∃ file ∈ level0.bitFiles, file.id = id) ∨ (∃ file ∈ level1.bitFiles,
        file.id = id) ↔ id ∈ (level0.bitFiles ++ level1.bitFiles).map FileStat.id := by
      rw [map_append, mem_append, mem_map, mem_map]
    rw [listed]
    constructor
    · rintro ⟨inside, set⟩
      exact (job.mirrored.holds.inUse id inside).mp set
    · intro member
      have inside := job.mirrored.holds.bound id member
      exact ⟨inside, (job.mirrored.holds.inUse id inside).mpr member⟩
  · intro level isLevel file member
    rcases mem_cons.mp isLevel with rfl | isLevel
    · exact ⟨job.mirrored.stats file (mem_append_left _ member), job.level1 file member⟩
    · obtain rfl := mem_singleton.mp isLevel
      exact ⟨job.mirrored.stats file (mem_append_right _ member), job.level2 file member⟩

/-- In every state reached from an empty catalogue by puts and compactions, the catalogue mirrors
the levels, and a tree loaded from it has the same files in each level, in order.  Nothing is asked
of searches and iterators of files; a loop that finds the link of a freed node overwritten reaches
no state. -/
theorem catalogue_mirrors_levels (env : LsmEnv R H S V) (cap : Nat) (stats : Nat → FileStat S)
    (ops : List (TreeOp V)) (last : LsmTree R S)
    (ran : runTreeOps env (lsmTreeCreate env cap stats) ops = some last) :
    MirrorsLevels last.catalogue last.levels ∧
      Achieves (∀ level ∈ last.levels, ∀ file ∈ level.bitFiles, env.freed.stat file = true)
        (lsmTreeInit env last.catalogue defaultLsmTreeNrDiskLevel lsmTreeDiskLevelCommonRatio
          (totalBit 2 lsmTreeDiskLevelCommonRatio cap))
        fun loaded => List.Forall₂ Reloaded last.levels loaded.levels := by
  obtain ⟨level0, level1, inv⟩ := (TreeMirrored.create env cap stats).runTreeOps ran
  exact ⟨inv.mirrorsLevels, inv.reloads env⟩

theorem runTreeOps_puts (env : LsmEnv R H S V) (t : LsmTree R S) (puts : List (Nat × V)) :
    runTreeOps env t (puts.map fun put => .put put.1 put.2) = runPuts env t puts := by
  induction puts generalizing t with
  | nil => rfl
  | cons put puts ih =>
    rw [map_cons, runTreeOps, foldlM_cons, runPuts]
    exact congrArg _ (funext ih)

/-- After five rounds over all keys both levels have files, and the loaded tree has them too. -/
theorem catalogue_mirrors_levels_fiveRounds : ∃ count last loaded,
    count = defaultLsmFileCapacity ∧
      runTreeOps listEnv (listTree count) ((rounds count 5).map fun put => .put put.1 put.2) =
        some last ∧
      (∃ level ∈ last.levels, level.level = 1 ∧ level.bitFiles ≠ []) ∧
      MirrorsLevels last.catalogue last.levels ∧
      lsmTreeInit listEnv last.catalogue defaultLsmTreeNrDiskLevel lsmTreeDiskLevelCommonRatio
        (totalBit 2 lsmTreeDiskLevelCommonRatio count) = some loaded ∧
      List.Forall₂ Reloaded last.levels loaded.levels := by
  obtain ⟨count, full⟩ : ∃ count, count = defaultLsmFileCapacity := ⟨_, rfl⟩
  obtain ⟨-, last, ran, held⟩ := fifth_round_merges full
  rw [← runTreeOps_puts] at ran
  obtain ⟨mirrors, loads⟩ := catalogue_mirrors_levels listEnv count _ _ last ran
  obtain ⟨loaded, done⟩ := loads.completes fun _ _ _ _ => rfl
  exact ⟨count, last, loaded, full, ran, held, mirrors, done, loads.meets loaded done⟩

end SwornDisk.C
