import SwornDisk.C.CompactionCalls
import SwornDisk.C.LsmFill

/-!
# The order of the files of a level

Whatever a compaction adds to a level or takes from it, the array of its files stays sorted by
first and last key.  This holds at every call of `add_file` inside a job, also while the files
that the new ones replace are still in the array, and over every run of puts that completes.
-/

namespace SwornDisk.C

open Lib List Option

variable {R H S V : Type}

structure CompactionJob.Sorted (job : CompactionJob S) : Prop where
  level1 : job.level1.bitFiles.Pairwise FileLe
  level2 : job.level2.bitFiles.Pairwise FileLe

variable {l : BitLevel S}

section

variable (sorted : l.bitFiles.Pairwise FileLe)
include sorted

/-- `bit_level_add_file` inserts any file at a place that keeps the array sorted, whether or
not its range meets those of the other files. -/
theorem sorted_bitLevelAddFile {added : BitLevel S} {file : FileStat S}
    (ok : bitLevelAddFile l file = .ok added) :
    added.bitFiles.Pairwise FileLe ∧ added.bitFiles.Perm (file :: l.bitFiles) := by
  have room : l.bitFiles.length < l.maxSize := by
    by_contra full
    rw [bitLevelAddFile, if_pos (not_lt.mp full)] at ok
    cases ok
  obtain ⟨files, isOk, perm, ordered⟩ := bitLevelAddFile_ok file room
  obtain rfl := Except.ok.inj (isOk.symm.trans ok)
  exact ⟨ordered sorted, perm⟩

theorem sorted_withFile (file : FileStat S) : (withFile l file).bitFiles.Pairwise FileLe := by
  unfold withFile
  split
  · rename_i added ok
    exact (sorted_bitLevelAddFile sorted ok).1
  · exact sorted

theorem sorted_withoutFile (id : Nat) : (withoutFile l id).bitFiles.Pairwise FileLe := by
  rw [withoutFile_eq]
  exact sorted.sublist eraseP_sublist

end

/-- A call of `add_file` finds a sorted array and leaves a sorted array. -/
def JobCall.KeepsSorted : JobCall S → Prop
  | .allocFile _ => True
  | .addFile level file => level.bitFiles.Pairwise FileLe ∧
      ∀ added, bitLevelAddFile level file = .ok added →
        added.bitFiles.Pairwise FileLe ∧ added.bitFiles.Perm (file :: level.bitFiles)

theorem keepsSorted_addFile (sorted : l.bitFiles.Pairwise FileLe) (file : FileStat S) :
    (JobCall.addFile l file).KeepsSorted :=
  ⟨sorted, fun _ ok => sorted_bitLevelAddFile sorted ok⟩

variable {out : CompactionJob S × BitBuilder V} {env : LsmEnv R H S V}

namespace CompactionJob.Sorted

variable (files : BitFileOps S V) {job : CompactionJob S}

theorem finishFile (sorted : job.Sorted) (builder : BitBuilder V) :
    (C.finishFile files job builder).Sorted :=
  ⟨sorted.level1, sorted_withFile sorted.level2 _⟩

section

variable (sorted : job.Sorted) (file : FileStat S)
include sorted

theorem moveFile : (C.moveFile job file).Sorted :=
  ⟨sorted_withoutFile sorted.level1 _, sorted_withFile sorted.level2 _⟩

theorem retireDemoted : (C.retireDemoted job file).Sorted :=
  ⟨sorted_withoutFile sorted.level1 _, sorted.level2⟩

theorem retireRelative : (C.retireRelative job file).Sorted :=
  ⟨sorted.level1, sorted_withoutFile sorted.level2 _⟩

end

theorem foldl {body : CompactionJob S → FileStat S → CompactionJob S}
    (each : ∀ job file, job.Sorted → (body job file).Sorted) (sorted : job.Sorted)
    (inputs : List (FileStat S)) : (inputs.foldl body job).Sorted := by
  induction inputs generalizing job with
  | nil => exact sorted
  | cons file inputs ih => exact ih (each job file sorted)

theorem moveCalls (sorted : job.Sorted) (inputs : List (FileStat S)) :
    ∀ call ∈ C.moveCalls job inputs, call.KeepsSorted := by
  induction inputs generalizing job with
  | nil => exact fun call member => absurd member not_mem_nil
  | cons file inputs ih =>
    intro call member
    rcases mem_cons.mp member with rfl | member
    · exact keepsSorted_addFile sorted.level2 _
    · exact ih (sorted.moveFile file) call member

theorem emitCalls (sorted : out.1.Sorted) (entry : Nat × V) :
    ∀ call ∈ C.emitCalls files out entry, call.KeepsSorted := by
  unfold C.emitCalls
  split
  · intro call member
    rcases mem_cons.mp member with rfl | member
    · exact keepsSorted_addFile sorted.level2 _
    · rw [mem_singleton.mp member]
      trivial
  · exact fun call member => absurd member not_mem_nil

theorem emitEntry {next : CompactionJob S × BitBuilder V} {entry : Nat × V}
    (sorted : out.1.Sorted) (emitted : C.emitEntry files out entry = some next) :
    next.1.Sorted := by
  unfold C.emitEntry at emitted
  split at emitted
  · obtain ⟨opened, -, rfl⟩ := map_eq_some_iff.mp emitted
    have finished := sorted.finishFile files (bitBuilderAddEntry out.2 entry)
    exact ⟨finished.level1, finished.level2⟩
  · obtain rfl := some.inj emitted
    exact sorted

theorem emitAll (sorted : out.1.Sorted) (entries : List (Nat × V)) :
    (∀ call ∈ emitAllCalls files out entries, call.KeepsSorted) ∧
      ∀ next, entries.foldlM (C.emitEntry files) out = some next → next.1.Sorted := by
  induction entries generalizing out with
  | nil =>
    refine ⟨fun call member => absurd member not_mem_nil, fun next done => ?_⟩
    obtain rfl := some.inj done
    exact sorted
  | cons entry entries ih =>
    rw [emitAllCalls, foldlM_cons]
    cases emitted : C.emitEntry files out entry with
    | none =>
      rw [append_nil]
      exact ⟨sorted.emitCalls files entry, fun next done => by cases done⟩
    | some middle =>
      obtain ⟨later, done⟩ := ih (sorted.emitEntry files emitted)
      refine ⟨fun call member => ?_, done⟩
      exact (mem_append.mp member).elim (sorted.emitCalls files entry call) (later call)

theorem merge (sorted : job.Sorted) (demoted relatives : List (FileStat S)) :
    (∀ call ∈ mergeCalls env job demoted relatives, call.KeepsSorted) ∧
      ∀ result, mergeFiles env job demoted relatives = some result → result.Sorted := by
  unfold mergeCalls mergeFiles
  split
  case isFalse => exact ⟨fun call member => absurd member not_mem_nil, fun _ done => by cases done⟩
  simp only
  generalize env.heap.pushAll (mergeNodes env.files (demoted ++ relatives)) = heap
  cases env.heap.pop heap with
  | none =>
    exact ⟨fun call member => absurd member not_mem_nil, fun _ done => by cases done⟩
  | some top =>
    obtain ⟨distinct, rest⟩ := top
    simp only [mem_cons]
    cases openBuilder job.catalogue job.level2.level with
    | none =>
      refine ⟨fun call member => ?_, fun _ done => by cases done⟩
      rcases member with rfl | none
      · trivial
      · cases none
    | some opened =>
      obtain ⟨allocated, builder⟩ := opened
      have start : CompactionJob.Sorted { job with catalogue := allocated } :=
        ⟨sorted.level1, sorted.level2⟩
      obtain ⟨init, last, output, merged⟩ := kwayMerge_eq env.heap FileStat.version
        (C.emitEntry env.files) heap distinct ({ job with catalogue := allocated }, builder)
      simp only [merged, output, dropLast_concat]
      obtain ⟨calls, done⟩ := CompactionJob.Sorted.emitAll env.files
        (show (({ job with catalogue := allocated }, builder) :
          CompactionJob S × BitBuilder V).1.Sorted from start) init
      cases folded : init.foldlM (C.emitEntry env.files)
          ({ job with catalogue := allocated }, builder) with
      | none =>
        refine ⟨fun call member => ?_, fun _ none => by cases none⟩
        rcases member with rfl | member
        · trivial
        · rw [map_none, append_nil] at member
          exact calls call member
      | some out =>
        have written := done out folded
        constructor
        · intro call member
          rcases member with rfl | member
          · trivial
          · rcases mem_append.mp member with early | final
            · exact calls call early
            · rw [mem_singleton.mp final]
              exact keepsSorted_addFile written.level2 _
        · intro result isResult
          obtain ⟨-, rfl⟩ := retireInputs_eq_some_iff.mp isResult
          exact ((written.finishFile _ _).foldl (fun _ file => (·.retireDemoted file))
            demoted).foldl (fun _ file => (·.retireRelative file)) relatives

/-- A whole job: every array that `add_file` finds is sorted, and so are the levels in the end. -/
theorem compactionJobRun (sorted : job.Sorted) :
    (∀ call ∈ compactionJobCalls env job, call.KeepsSorted) ∧
      ∀ result, C.compactionJobRun env job = some result → result.Sorted := by
  unfold compactionJobCalls C.compactionJobRun
  simp only
  split
  · refine ⟨sorted.moveCalls _, fun result done => ?_⟩
    obtain rfl := some.inj done
    exact sorted.foldl (fun _ file => (·.moveFile file)) _
  · exact sorted.merge _ _

end CompactionJob.Sorted

def LevelsSorted (levels : List (BitLevel S)) : Prop :=
  ∀ level ∈ levels, level.bitFiles.Pairwise FileLe

theorem LevelsSorted.set {levels : List (BitLevel S)} (sorted : LevelsSorted levels) (i : Nat)
    {level : BitLevel S} (ordered : level.bitFiles.Pairwise FileLe) :
    LevelsSorted (levels.set i level) := by
  intro other member
  rcases mem_or_eq_of_mem_set member with old | rfl
  · exact sorted other old
  · exact ordered

variable {level : Nat}

section

variable {env : LsmEnv R H S V} {t next : LsmTree R S} (sorted : LevelsSorted t.levels)
include sorted

theorem LevelsSorted.compact (ran : lsmTreeCompact env t level = some next) :
    LevelsSorted next.levels := by
  unfold lsmTreeCompact at ran
  split at ran
  · rename_i level1 level2 isLevel1 isLevel2
    obtain ⟨job, jobRan, rfl⟩ := map_eq_some_iff.mp ran
    have start : CompactionJob.Sorted ⟨t.catalogue, level1, level2⟩ :=
      ⟨sorted level1 (mem_of_getElem? isLevel1), sorted level2 (mem_of_getElem? isLevel2)⟩
    have done := start.compactionJobRun.2 job jobRan
    exact (sorted.set level done.level1).set (level + 1) done.level2
  · cases ran

theorem LevelsSorted.majorCompaction (ran : lsmTreeMajorCompaction env t level = some next) :
    LevelsSorted next.levels := by
  fun_induction lsmTreeMajorCompaction env t level generalizing next with
  | case1 level missing => cases ran
  | case2 level below isBelow full ih =>
    obtain ⟨middle, first, second⟩ := Option.bind_eq_some_iff.mp ran
    exact (ih first).compact second
  | case3 level below isBelow notFull => exact sorted.compact ran

theorem LevelsSorted.flush (ran : flushMemtable env t = some next) : LevelsSorted next.levels := by
  unfold flushMemtable at ran
  split at ran
  · rename_i level0 allocated builder isLevel0 _
    obtain rfl := some.inj ran
    exact sorted.set 0 (sorted_withFile (sorted level0 (mem_of_getElem? isLevel0)) _)
  · cases ran

theorem LevelsSorted.minorCompaction (ran : lsmTreeMinorCompaction env t = some next) :
    LevelsSorted next.levels := by
  unfold lsmTreeMinorCompaction at ran
  split at ran
  · cases ran
  · split at ran
    · obtain ⟨middle, major, flushed⟩ := Option.bind_eq_some_iff.mp ran
      exact (sorted.majorCompaction major).flush flushed
    · exact sorted.flush ran

theorem LevelsSorted.put {key : Nat} {val : V} (ran : lsmTreePut env t key val = some next) :
    LevelsSorted next.levels := by
  unfold lsmTreePut at ran
  simp only at ran
  generalize (rbtreeMemtablePut env.tree t.memtable key val).2 = memtable at ran
  have same : LevelsSorted (LsmTree.levels { t with memtable := memtable }) := sorted
  split at ran
  · exact same.minorCompaction ran
  · obtain rfl := some.inj ran
    exact sorted

/-- The levels stay sorted over every run of puts that completes, also one with keys that the
memtable cannot order. -/
theorem LevelsSorted.runPuts {puts : List (Nat × V)} (ran : C.runPuts env t puts = some next) :
    LevelsSorted next.levels := by
  induction puts generalizing t with
  | nil =>
    obtain rfl := some.inj ran
    exact sorted
  | cons put puts ih =>
    obtain ⟨middle, first, rest⟩ := Option.bind_eq_some_iff.mp ran
    exact ih (sorted.put first) rest

end

theorem levelsSorted_create (env : LsmEnv R H S V) (cap : Nat) (stats : Nat → FileStat S) :
    LevelsSorted (lsmTreeCreate env cap stats).levels := by
  rw [(treeInv_lsmTreeCreate env cap stats).levels]
  intro level member
  rcases mem_cons.mp member with rfl | member
  · exact Pairwise.nil
  · rw [mem_singleton.mp member]
    exact Pairwise.nil

end SwornDisk.C
