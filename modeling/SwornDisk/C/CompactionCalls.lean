import SwornDisk.C.LsmTree

/-!
# Calls of a compaction that can fail

`compaction_job_run` and `lsm_tree_minor_compaction` ignore what `alloc_file` and `add_file`
return.  The calls are listed here in the order in which the code makes them, each with the
catalogue or the level that it finds.  A count of the identifiers in use and of the array slots
shows that none of them fails.

The merged files are released only after all new ones are written, so the count is of the files
before the job and the files that the distinct keys fill together.  Of the files only what their
iterators yield is used.
-/

namespace SwornDisk.C

open Lib List

variable {R H S V : Type}

/-- The calls of `lsm_tree_minor_compaction` for the file of the memtable. -/
def flushCalls (env : LsmEnv R H S V) (t : LsmTree R S) : List (JobCall S) :=
  .allocFile t.catalogue ::
    match t.levels[0]?, openBuilder t.catalogue 0 with
    | some level0, some (_, builder) =>
      [.addFile level0 (bitBuilderComplete env.files
        ((rbtreeMemtableGetAllEntry env.tree t.memtable).foldl bitBuilderAddEntry builder))]
    | _, _ => []

section

variable {env : LsmEnv R H S V} {cap : Nat} {job : CompactionJob S}

theorem findRelativeFiles_sublist (l : BitLevel S) (inputs : List (FileStat S)) :
    (bitLevelFindRelativeFiles l inputs).Sublist l.bitFiles := by
  unfold bitLevelFindRelativeFiles
  split
  · split
    · exact nil_sublist _
    · exact (takeWhile_sublist _).trans (drop_sublist _ _)
  · exact nil_sublist _

/-- Where the files of both levels and the files that all keys fill have identifiers and slots,
every call of a job of level zero succeeds.  The job completes if the files have iterators and
freed links stay. -/
theorem compactionJobCalls_succeed (env : LsmEnv R H S V)
    (yields : ∀ file ∈ job.level1.bitFiles ++ job.level2.bitFiles, Yields env.files cap file)
    (isZero : job.level1.level = 0)
    (holds : CatalogueHolds job.catalogue
      ((job.level1.bitFiles ++ job.level2.bitFiles).map FileStat.id))
    (room : CallRoom job (job.level1.bitFiles.length + job.level2.bitFiles.length)
      job.level2.bitFiles.length cap)
    (slots : job.level1.bitFiles.length + job.level2.bitFiles.length ≤ job.level2.maxSize) :
    (∀ call ∈ compactionJobCalls env job, call.Succeeds) ∧
      Achieves (iteratorsCreated env.files (job.level1.bitFiles ++ job.level2.bitFiles) = true ∧
          env.freed.Kept (job.level1.bitFiles ++ job.level2.bitFiles))
        (compactionJobRun env job) fun result => ∃ ids, CatalogueHolds result.catalogue ids ∧
          ids.length ≤ job.level1.bitFiles.length + job.level2.bitFiles.length + filesFor cap ∧
          result.catalogue.bitValidityTable.nrSegment =
            job.catalogue.bitValidityTable.nrSegment ∧
          result.level1 = { job.level1 with bitFiles := [] } := by
  have demoted : bitLevelPickDemotedFiles job.level1 = job.level1.bitFiles := if_pos isZero
  have counted : ((job.level1.bitFiles ++ job.level2.bitFiles).map FileStat.id).length =
      job.level1.bitFiles.length + job.level2.bitFiles.length := by
    rw [length_map, length_append]
  unfold compactionJobCalls compactionJobRun
  simp only [demoted]
  split
  · obtain ⟨table, -, level1, -⟩ := foldl_moveFile job job.level1.bitFiles slots
    refine ⟨moveCalls_succeed slots, .of_some rfl ⟨_, ⟨holds.nodup, table ▸ holds.bound,
      table ▸ holds.inUse⟩, ?_, congrArg _ table,
      level1.trans (foldl_withoutFile_all holds.nodup_left)⟩⟩
    rw [counted]
    exact Nat.le_add_right _ _
  · rename_i merges
    generalize isRelatives : bitLevelFindRelativeFiles job.level2 job.level1.bitFiles = relatives
      at merges ⊢
    have sublist : relatives.Sublist job.level2.bitFiles :=
      isRelatives ▸ findRelativeFiles_sublist _ _
    have nonempty : job.level1.bitFiles ++ relatives ≠ [] := by
      intro none
      obtain ⟨noDemoted, noRelative⟩ := append_eq_nil_iff.mp none
      rw [noDemoted, noRelative] at merges
      exact merges rfl
    have inputs : ∀ file ∈ job.level1.bitFiles ++ relatives,
        file ∈ job.level1.bitFiles ++ job.level2.bitFiles := fun file member =>
      mem_append.mpr ((mem_append.mp member).imp id (sublist.subset ·))
    obtain ⟨calls, runs⟩ : (∀ call ∈ mergeCalls env job _ relatives, call.Succeeds) ∧ _ :=
      mergeFiles_achieves (fun file member => yields file (inputs file member)) nonempty holds
        (by rw [counted]; exact room)
    refine ⟨calls, fun total => runs.completes ⟨all_eq_true.mpr fun file member =>
      all_eq_true.mp total.1 file (inputs file member),
      fun file member => total.2 file (inputs file member)⟩, fun result done => ?_⟩
    obtain ⟨entries, outputs, merged, ⟨-, written, ascending, -, below, -, isResult⟩⟩ :=
      runs.meets result done
    obtain ⟨kept, lower⟩ := sublist.exists_perm_append
    obtain ⟨level1, -, catalogue, -, nrSegment⟩ := written.retire_all lower isResult
    refine ⟨_, catalogue, ?_, nrSegment, level1⟩
    have few := written.length_le (ascending.length_le below)
    have stayed := lower.length_eq
    rw [length_append] at stayed
    rw [length_map, length_append]
    omega

end

/-- A tree state before a compaction of level zero into a level one that is not full: no
identifier is allocated but those of the files, and iterators of the files yield keys below
`cap`. -/
structure CompactionState (files : BitFileOps S V) (cap : Nat) (t : LsmTree R S)
    (level0 level1 : BitLevel S) : Prop where
  levels : t.levels = [level0, level1]
  shape0 : LevelShape level0 0 defaultLsmLevel0NrFile
  shape1 : LevelShape level1 1 (totalBit 2 lsmTreeDiskLevelCommonRatio cap)
  nrSegment : t.catalogue.bitValidityTable.nrSegment =
    totalBit defaultLsmTreeNrDiskLevel lsmTreeDiskLevelCommonRatio cap +
      totalBit 2 lsmTreeDiskLevelCommonRatio cap
  size0 : level0.bitFiles.length ≤ defaultLsmLevel0NrFile
  size1 : bitLevelIsFull level1 = false
  catalogue : CatalogueHolds t.catalogue ((level0.bitFiles ++ level1.bitFiles).map FileStat.id)
  yields : ∀ file ∈ level0.bitFiles ++ level1.bitFiles, Yields files cap file

def afterJob (t : LsmTree R S) (job : CompactionJob S) : LsmTree R S :=
  { t with catalogue := job.catalogue, levels := [job.level1, job.level2] }

section

variable {env : LsmEnv R H S V} {cap : Nat} {t : LsmTree R S} {level0 level1 : BitLevel S}

/-- The two formulas leave room: `2 * (n + 4)` identifiers for four files of level zero, the at
most `n + 3` of level one and the `n` that the keys fill, and as many slots. -/
theorem CompactionState.room (state : CompactionState env.files cap t level0 level1) :
    CallRoom ⟨t.catalogue, level0, level1⟩ (level0.bitFiles.length + level1.bitFiles.length)
        level1.bitFiles.length cap ∧
      level0.bitFiles.length + level1.bitFiles.length ≤ level1.maxSize ∧
      level0.bitFiles.length + level1.bitFiles.length + filesFor cap <
        t.catalogue.bitValidityTable.nrSegment := by
  have few := state.size0
  have notFull := of_decide_eq_false state.size1
  rw [state.shape1.capacity_eq] at notFull
  rw [CallRoom, state.nrSegment, state.shape1.maxSize_eq]
  simp only [defaultLsmTreeNrDiskLevel, totalBit_two, defaultLsmLevel0NrFile] at few notFull ⊢
  refine ⟨fun n starts => ?_, by omega, by omega⟩
  have := lt_filesFor starts
  omega

theorem CompactionState.jobCalls_succeed (state : CompactionState env.files cap t level0 level1) :
    (∀ call ∈ compactionJobCalls env ⟨t.catalogue, level0, level1⟩, call.Succeeds) ∧
      Achieves (iteratorsCreated env.files (level0.bitFiles ++ level1.bitFiles) = true ∧
          env.freed.Kept (level0.bitFiles ++ level1.bitFiles))
        (compactionJobRun env ⟨t.catalogue, level0, level1⟩) fun result => ∃ ids,
          CatalogueHolds result.catalogue ids ∧
          ids.length ≤ level0.bitFiles.length + level1.bitFiles.length + filesFor cap ∧
          result.catalogue.bitValidityTable.nrSegment = t.catalogue.bitValidityTable.nrSegment ∧
          result.level1 = { level0 with bitFiles := [] } := by
  obtain ⟨room, slots, -⟩ := state.room
  exact compactionJobCalls_succeed env state.yields state.shape0.level_eq state.catalogue room slots

theorem flushCalls_succeed (env : LsmEnv R H S V) {rest : List (BitLevel S)} {ids : List Nat}
    (levels : t.levels = level0 :: rest) (holds : CatalogueHolds t.catalogue ids)
    (room : ids.length < t.catalogue.bitValidityTable.nrSegment)
    (slots : level0.bitFiles.length < level0.maxSize) :
    ∀ call ∈ flushCalls env t, call.Succeeds := by
  obtain ⟨opened, fd, ok, -⟩ := openBuilder_of_room holds room (V := V) 0
  simp only [flushCalls, levels, ok, getElem?_cons_zero]
  exact forall_mem_cons.mpr ⟨holds.allocFile_succeeds room,
    forall_mem_singleton.mpr (addFile_succeeds slots _)⟩

/-- No call of a compaction fails: every `alloc_file` and `add_file` that the job of levels zero
and one makes succeeds, and, from whatever state the job leaves, those of the minor compaction
that follows, which is a flush. -/
theorem compaction_calls_succeed (env : LsmEnv R H S V) (cap : Nat) (t : LsmTree R S)
    (level0 level1 : BitLevel S) (state : CompactionState env.files cap t level0 level1) :
    (∀ call ∈ compactionJobCalls env ⟨t.catalogue, level0, level1⟩, call.Succeeds) ∧
      ∀ result, compactionJobRun env ⟨t.catalogue, level0, level1⟩ = some result →
        lsmTreeMinorCompaction env (afterJob t result) = flushMemtable env (afterJob t result) ∧
          ∀ call ∈ flushCalls env (afterJob t result), call.Succeeds := by
  obtain ⟨-, -, spare⟩ := state.room
  obtain ⟨calls, runs⟩ := state.jobCalls_succeed
  refine ⟨calls, fun result ran => ?_⟩
  obtain ⟨ids, holds, few, sameNr, empty⟩ := runs.meets result ran
  have maxSize : result.level1.bitFiles.length < result.level1.maxSize := by
    rw [empty, state.shape0.maxSize_eq]
    exact Nat.succ_pos _
  have notFull : bitLevelIsFull result.level1 = false := by
    rw [bitLevelIsFull, empty, state.shape0.capacity_eq]
    rfl
  exact ⟨lsmTreeMinorCompaction_of_room rfl notFull, flushCalls_succeed env rfl holds
    (by simp only [afterJob, sameNr]; exact few.trans_lt spare) maxSize⟩

end

/-- A file of `listEnv` with the given keys. -/
def keyedFile (level id : Nat) (keys : List Nat) : FileStat (List (Nat × Nat)) :=
  bitBuilderComplete listEnv.files ⟨id, level, id, keys.map fun key => (key, id)⟩

def crowdedZero : BitLevel (List (Nat × Nat)) :=
  ⟨0, 4, 12, [4, 5, 6, 7].map fun id => keyedFile 0 id [0, 5, 10, 15, 20, 25, 30, 35]⟩

def crowdedOne : BitLevel (List (Nat × Nat)) :=
  ⟨1, 5, 14, [0, 1, 2, 3].map fun id => keyedFile 1 id (List.range' (8 * id) 8)⟩

def crowdedTree : LsmTree (BinaryTree (Nat × Nat)) (List (Nat × Nat)) where
  catalogue :=
    { bitValidityTable := ⟨10, 0, fun id => decide (id < 8)⟩
      fileStats := fun id => keyedFile 0 id [0, 5, 10, 15, 20, 25, 30, 35]
      maxVersion := 8 }
  memtable := rbtreeMemtableInit listEnv.tree
  levels := [crowdedZero, crowdedOne]

theorem crowdedTree_yields : ∀ file ∈ crowdedZero.bitFiles ++ crowdedOne.bitFiles,
    Ascending file.store ∧ file.store ≠ [] ∧ ∀ entry ∈ file.store, entry.1 < 40 := by
  unfold Ascending
  decide +kernel

theorem crowdedTree_state :
    CompactionState listEnv.files 40 crowdedTree crowdedZero crowdedOne where
  levels := rfl
  shape0 := ⟨rfl, rfl, rfl⟩
  shape1 := ⟨rfl, rfl, rfl⟩
  nrSegment := rfl
  size0 := by decide
  size1 := rfl
  catalogue := ⟨by decide, by decide, by decide⟩
  yields := by
    intro file member entries isSome
    obtain rfl := Option.some.inj isSome
    exact crowdedTree_yields file member

/-- A compaction of the crowded tree, which completes, and the flush that follows. -/
theorem compaction_calls_succeed_crowded :
    (∀ call ∈ compactionJobCalls listEnv ⟨crowdedTree.catalogue, crowdedZero, crowdedOne⟩,
        call.Succeeds) ∧
      ∃ result,
        compactionJobRun listEnv ⟨crowdedTree.catalogue, crowdedZero, crowdedOne⟩ = some result ∧
        lsmTreeMinorCompaction listEnv (afterJob crowdedTree result) =
            flushMemtable listEnv (afterJob crowdedTree result) ∧
          ∀ call ∈ flushCalls listEnv (afterJob crowdedTree result), call.Succeeds := by
  obtain ⟨calls, flushes⟩ :=
    compaction_calls_succeed listEnv 40 crowdedTree crowdedZero crowdedOne crowdedTree_state
  obtain ⟨result, ran⟩ := crowdedTree_state.jobCalls_succeed.2.completes
    ⟨all_eq_true.mpr fun _ _ => rfl, listEnv_lawful.kept _⟩
  exact ⟨calls, result, ran, flushes result ran⟩

end SwornDisk.C
