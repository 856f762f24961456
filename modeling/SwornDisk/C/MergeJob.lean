import SwornDisk.C.CompactionCalls

/-!
# What a merge leaves behind

The merge path of `compaction_job_run`, for any two levels and any demoted and relative files:
the new files hold every key of the inputs once, with the record of the input of highest version
that has the key, and exactly the inputs are gone from their levels.

Nothing is asked of the sizes of the levels or of the catalogue but that the calls of the job
succeed.  The loops that remove the inputs free each file and then read its link, so the job gets
to its end only on memory that keeps its contents after it is freed.
-/

namespace SwornDisk.C

open Lib List Option

variable {R H S V : Type}

/-- `entries` has every key of the inputs, each once, with the record of the input of highest
version that has the key. -/
structure MergeOf (files : BitFileOps S V) (inputs : List (FileStat S))
    (entries : List (Nat × V)) : Prop where
  ascending : Ascending entries
  keys : ∀ key, key ∈ entries.map Prod.fst ↔
    ∃ file ∈ inputs, key ∈ (fileEntries files file).map Prod.fst
  newest : ∀ key val, (key, val) ∈ entries ↔
    ∃ file ∈ inputs, (key, val) ∈ fileEntries files file ∧
      ∀ other ∈ inputs, key ∈ (fileEntries files other).map Prod.fst →
        other.version ≤ file.version

section

variable {files : BitFileOps S V} {inputs : List (FileStat S)} {entries : List (Nat × V)}

theorem mem_map_fst {key : Nat} : key ∈ entries.map Prod.fst ↔ ∃ val, (key, val) ∈ entries := by
  simp

theorem mergeOf_of_isNewest (iterable : Iterable files inputs)
    (versions : inputs.Pairwise fun f g => f.version ≠ g.version) (ascending : Ascending entries)
    (newest : ∀ key, IsNewest (heldBy files inputs) key (entries.lookup key)) :
    MergeOf files inputs entries := by
  have symmetric : Std.Symm fun f g : FileStat S => f.version ≠ g.version :=
    ⟨fun _ _ differ => differ.symm⟩
  have found : ∀ {key val}, (key, val) ∈ entries → ∃ file ∈ inputs,
      (key, val) ∈ fileEntries files file ∧ ∀ other ∈ inputs,
        key ∈ (fileEntries files other).map Prod.fst → other.version ≤ file.version := by
    intro key val member
    have here := newest key
    rw [(lookup_eq_some_iff_mem ascending).mpr member] at here
    obtain ⟨version, ⟨file, isInput, rfl, inFile⟩, highest⟩ := here
    refine ⟨file, isInput, inFile, fun other isOther hasKey => ?_⟩
    obtain ⟨held, inOther⟩ := mem_map_fst.mp hasKey
    exact highest other.version held ⟨other, isOther, rfl, inOther⟩
  have covered : ∀ {key file}, file ∈ inputs → key ∈ (fileEntries files file).map Prod.fst →
      ∃ val, (key, val) ∈ entries := by
    intro key file isInput hasKey
    obtain ⟨held, inFile⟩ := mem_map_fst.mp hasKey
    cases bound : entries.lookup key with
    | some val => exact ⟨val, (lookup_eq_some_iff_mem ascending).mp bound⟩
    | none =>
      have here := newest key
      rw [bound] at here
      exact absurd ⟨file, isInput, rfl, inFile⟩ (here file.version held)
  refine ⟨ascending, fun key => ⟨fun hasKey => ?_, ?_⟩, fun key val => ⟨found, ?_⟩⟩
  · obtain ⟨val, member⟩ := mem_map_fst.mp hasKey
    obtain ⟨file, isInput, inFile, -⟩ := found member
    exact ⟨file, isInput, mem_map_fst.mpr ⟨val, inFile⟩⟩
  · rintro ⟨file, isInput, hasKey⟩
    exact mem_map_fst.mpr (covered isInput hasKey)
  · rintro ⟨file, isInput, inFile, highest⟩
    have hasKey : key ∈ (fileEntries files file).map Prod.fst := mem_map_fst.mpr ⟨val, inFile⟩
    obtain ⟨held, member⟩ := covered isInput hasKey
    obtain ⟨best, isBest, inBest, bestHighest⟩ := found member
    -- Two inputs of the highest version are one input, which has the key once.
    have sameVersion : file.version = best.version :=
      le_antisymm (bestHighest file isInput hasKey)
        (highest best isBest (mem_map_fst.mpr ⟨held, inBest⟩))
    have same : file = best := by
      by_contra differ
      exact versions.forall isInput isBest differ sameVersion
    subst same
    have ordered := iterable.ascending file isInput
    have equal := (lookup_eq_some_iff_mem ordered).mpr inFile
    rw [(lookup_eq_some_iff_mem ordered).mpr inBest] at equal
    rw [← some.inj equal]
    exact member

end

namespace CompactionJob

variable (job : CompactionJob S)

def demoted : List (FileStat S) :=
  bitLevelPickDemotedFiles job.level1

def relatives : List (FileStat S) :=
  bitLevelFindRelativeFiles job.level2 job.demoted

def Merges : Prop :=
  (job.relatives.isEmpty && !lsmFileOverlapping job.demoted) = false

/-- The files of both levels have identifiers of their own, which are in use. -/
structure Numbered : Prop where
  distinct : ((job.level1.bitFiles ++ job.level2.bitFiles).map FileStat.id).Nodup
  inUse : ∀ file ∈ job.level1.bitFiles ++ job.level2.bitFiles,
    file.id < job.catalogue.bitValidityTable.nrSegment ∧
      job.catalogue.bitValidityTable.segValidityTable file.id = true

end CompactionJob

section

variable {env : LsmEnv R H S V} {job : CompactionJob S}

theorem demoted_sublist (job : CompactionJob S) : job.demoted.Sublist job.level1.bitFiles := by
  unfold CompactionJob.demoted bitLevelPickDemotedFiles
  split
  · exact Sublist.refl _
  · exact take_sublist _ _

theorem relatives_sublist (job : CompactionJob S) : job.relatives.Sublist job.level2.bitFiles :=
  findRelativeFiles_sublist _ _

theorem catalogueHolds_inUse (c : BitCatalogue S) :
    CatalogueHolds c
      ((range c.bitValidityTable.nrSegment).filter c.bitValidityTable.segValidityTable) where
  nodup := nodup_range.filter _
  bound id member := mem_range.mp (mem_filter.mp member).1
  inUse id inside := by
    rw [mem_filter, mem_range]
    exact ⟨fun set => ⟨inside, set⟩, And.right⟩

/-- The job completes.  The new files, one after the other, are the merge of the demoted files and
their relatives, none of them empty or larger than a file may be, and exactly the inputs are gone
from the levels. -/
def MergesCorrectly (env : LsmEnv R H S V) (job : CompactionJob S) : Prop :=
  ∃ result outputs kept, compactionJobRun env job = some result ∧
    MergeOf env.files (job.demoted ++ job.relatives) (outputs.flatMap (fileEntries env.files)) ∧
    (∀ file ∈ outputs, 1 ≤ (fileEntries env.files file).length ∧
      (fileEntries env.files file).length ≤ defaultLsmFileCapacity) ∧
    job.level1.bitFiles.Perm (job.demoted ++ result.level1.bitFiles) ∧
    job.level2.bitFiles.Perm (job.relatives ++ kept) ∧
    result.level2.bitFiles.Perm (outputs ++ kept)

theorem compactionJobRun_of_merges (env : LsmEnv R H S V) (merges : job.Merges) :
    compactionJobRun env job = mergeFiles env job job.demoted job.relatives ∧
      compactionJobCalls env job = mergeCalls env job job.demoted job.relatives := by
  have isMerge : ¬ (job.relatives.isEmpty && !lsmFileOverlapping job.demoted) = true := by
    rw [merges]
    exact Bool.false_ne_true
  exact ⟨if_neg isMerge, if_neg isMerge⟩

theorem kept_of_merged {result : CompactionJob S} (merges : job.Merges)
    (ran : compactionJobRun env job = some result) :
    env.freed.Kept (job.demoted ++ job.relatives) := by
  rw [(compactionJobRun_of_merges env merges).1] at ran
  unfold mergeFiles at ran
  split at ran
  · simp only at ran
    split at ran
    · cases ran
    · split at ran
      · cases ran
      · split at ran
        · cases ran
        · exact (retireInputs_eq_some_iff.mp ran).1
  · cases ran

theorem ShareOut.flatMap_fileEntries {files : BitFileOps S V} {outputs : List (FileStat S)}
    {entries : List (Nat × V)} (iterates : files.Iterates)
    (shared : ShareOut files outputs entries) :
    outputs.flatMap (fileEntries files) = entries ∧
      ∀ file ∈ outputs, 1 ≤ (fileEntries files file).length ∧
        (fileEntries files file).length ≤ defaultLsmFileCapacity := by
  obtain ⟨content, held, rfl⟩ := shared
  have same : ∀ file ∈ outputs, fileEntries files file = content file := fun file member => by
    rw [fileEntries, (held file member).iterator_eq iterates, getD_some]
  refine ⟨flatMap_congr same, fun file member => ?_⟩
  rw [same file member]
  exact ⟨length_pos_of_ne_nil (held file member).ne_nil, (held file member).fits⟩

/-- A job on the merge path whose calls succeed does what it is for exactly if the links of the
files and iterators that it frees are still there when it reads them. -/
theorem mergesCorrectly_iff_kept (env : LsmEnv R H S V) (iterates : env.files.Iterates)
    (job : CompactionJob S) (merges : job.Merges)
    (iterable : Iterable env.files (job.demoted ++ job.relatives))
    (versions : (job.demoted ++ job.relatives).Pairwise fun f g => f.version ≠ g.version)
    (numbered : job.Numbered) (succeed : ∀ call ∈ compactionJobCalls env job, call.Succeeds) :
    MergesCorrectly env job ↔ env.freed.Kept (job.demoted ++ job.relatives) := by
  constructor
  · rintro ⟨result, -, -, ran, -⟩
    exact kept_of_merged merges ran
  · intro kept
    obtain ⟨runs, calls⟩ := compactionJobRun_of_merges env merges
    have nonempty : job.demoted ++ job.relatives ≠ [] := by
      intro none
      obtain ⟨noDemoted, noRelatives⟩ := append_eq_nil_iff.mp none
      rw [CompactionJob.Merges, noDemoted, noRelatives] at merges
      cases merges
    rw [calls] at succeed
    obtain ⟨entries, outputs, merged, ran, written, ascending, newest, -⟩ :=
      mergeFiles_rewritten iterable nonempty succeed (catalogueHolds_inUse job.catalogue)
    obtain ⟨kept1, upper⟩ := (demoted_sublist job).exists_perm_append
    obtain ⟨kept2, lower⟩ := (relatives_sublist job).exists_perm_append
    have covers : ∀ file ∈ job.level2.bitFiles, file.id ∈ (List.range
        job.catalogue.bitValidityTable.nrSegment).filter
          job.catalogue.bitValidityTable.segValidityTable := by
      intro file member
      obtain ⟨inside, set⟩ := numbered.inUse file (mem_append_right _ member)
      exact mem_filter.mpr ⟨mem_range.mpr inside, set⟩
    obtain ⟨left1, left2, level1, perm1, level2, perm2, -⟩ :=
      written.retire numbered.distinct covers upper lower rfl
    obtain ⟨shared, sizes⟩ := written.shared.flatMap_fileEntries iterates
    refine ⟨_, outputs, kept2, (runs.trans ran).trans
      (retireInputs_eq_some_iff.mpr ⟨kept, rfl⟩), ?_, sizes, ?_, lower, level2 ▸ perm2⟩
    · rw [shared]
      exact mergeOf_of_isNewest iterable versions ascending newest
    · rw [level1]
      exact upper.trans (List.Perm.append_left _ perm1.symm)

end

def crowdedJob : CompactionJob (List (Nat × Nat)) :=
  ⟨crowdedTree.catalogue, crowdedZero, crowdedOne⟩

theorem crowdedJob_merges : crowdedJob.Merges := by
  have overlapping : lsmFileOverlapping crowdedJob.demoted = true := by decide
  rw [CompactionJob.Merges, overlapping, Bool.not_true, Bool.and_false]

theorem crowdedJob_iterable :
    Iterable listEnv.files (crowdedJob.demoted ++ crowdedJob.relatives) := by
  have yields : ∀ file ∈ crowdedJob.demoted ++ crowdedJob.relatives,
      Ascending file.store ∧ file.store ≠ [] ∧ ∀ entry ∈ file.store, entry.1 < 40 := by
    intro file member
    apply crowdedTree_yields
    exact mem_append.mpr ((mem_append.mp member).imp
      ((demoted_sublist crowdedJob).subset ·) ((relatives_sublist crowdedJob).subset ·))
  exact ⟨all_eq_true.mpr fun _ _ => rfl, fun file member => (yields file member).1,
    fun file member => (yields file member).2.1⟩

theorem crowdedJob_versions : (crowdedJob.demoted ++ crowdedJob.relatives).Pairwise
    fun f g => f.version ≠ g.version := by
  decide +kernel

theorem crowdedJob_numbered : crowdedJob.Numbered :=
  ⟨by decide, by decide⟩

/-- Eight files are merged into one where freed memory keeps its contents. -/
theorem mergesCorrectly_crowded : MergesCorrectly listEnv crowdedJob :=
  (mergesCorrectly_iff_kept listEnv listFiles_exact.toIterates crowdedJob crowdedJob_merges
    crowdedJob_iterable crowdedJob_versions crowdedJob_numbered
    crowdedTree_state.jobCalls_succeed.1).mpr (listEnv_lawful.kept _)

def wipingEnv : LsmEnv (BinaryTree (Nat × Nat))
    (SortedList (MergeNode (FileStat (List (Nat × Nat))) Nat) MergeNode.key)
    (List (Nat × Nat)) Nat :=
  { listEnv with freed := ⟨fun _ => false, fun _ => false, fun _ => false⟩ }

/-- There the same job, whose calls succeed as before, does not get past the first file that it
removes. -/
theorem not_mergesCorrectly_wiped :
    (∀ call ∈ compactionJobCalls wipingEnv crowdedJob, call.Succeeds) ∧
      ¬ MergesCorrectly wipingEnv crowdedJob := by
  refine ⟨And.left (CompactionState.jobCalls_succeed crowdedTree_state), ?_⟩
  rintro ⟨result, -, -, ran, -⟩
  obtain ⟨file, isDemoted⟩ : ∃ file, file ∈ crowdedJob.demoted :=
    ⟨_, mem_of_getElem? (i := 0) (by rfl)⟩
  exact absurd (kept_of_merged crowdedJob_merges ran file (mem_append_left _ isDemoted)).1
    Bool.false_ne_true

end SwornDisk.C
