import SwornDisk.C.JobWrites

/-!
# Major compaction by merging

The merge path of a compaction job keeps the invariant of the disk levels: the
merged files and their relatives go, the files written from the merge come, and
every key stays bound to its record.  With the move-only path this covers every
major compaction of level zero.
-/

namespace SwornDisk.C

open Lib List

variable {R H S V : Type}

section

variable {files : BitFileOps S V} {cap : Nat} {inputs outputs rest : List (FileStat S)}
  {output : List (Nat × V)}

theorem ShareOut.pairwise_apart (shared : ShareOut files outputs output)
    (ascending : Ascending output) : outputs.Pairwise Apart := by
  obtain ⟨content, held, rfl⟩ := shared
  have follow := (pairwise_flatMap.mp ascending).2
  refine follow.imp_of_mem ?_
  intro f g fMember gMember less
  obtain ⟨last, lastMember⟩ := (held f fMember).last_mem
  obtain ⟨first, firstMember⟩ := (held g gMember).first_mem
  exact .inl (less _ lastMember _ firstMember)

theorem ShareOut.sound (shared : ShareOut files outputs output)
    (below : ∀ entry ∈ output, entry.1 < cap) : ∀ file ∈ outputs, FileSound files cap file := by
  obtain ⟨content, held, rfl⟩ := shared
  exact fun file member => ⟨content file, held file member, fun entry inFile =>
    below entry (mem_flatMap.mpr ⟨file, member, inFile⟩)⟩

theorem ShareOut.bounds_mem (shared : ShareOut files outputs output) :
    ∀ file ∈ outputs, (∃ val, (file.firstKey, val) ∈ output) ∧
      ∃ val, (file.lastKey, val) ∈ output := by
  obtain ⟨content, held, rfl⟩ := shared
  intro file member
  obtain ⟨first, isFirst⟩ := (held file member).first_mem
  obtain ⟨last, isLast⟩ := (held file member).last_mem
  exact ⟨⟨first, mem_flatMap.mpr ⟨file, member, isFirst⟩⟩,
    ⟨last, mem_flatMap.mpr ⟨file, member, isLast⟩⟩⟩

section

variable (exact : files.Exact)
include exact

theorem ShareOut.isNewest (shared : ShareOut files outputs output) (ascending : Ascending output)
    (key : Nat) : IsNewest (answers (bitFileSearch files) outputs) key (output.lookup key) := by
  have apart := shared.pairwise_apart ascending
  obtain ⟨content, held, rfl⟩ := shared
  have inRange : AnswersInRange (bitFileSearch files) outputs := fun file member _ _ ok =>
    (held file member).inRange _ ((held file member).search_mem exact.faithful ok)
  refine isNewest_of_apart apart inRange fun val => ?_
  rw [lookup_eq_some_iff_mem ascending, mem_flatMap]
  constructor
  · rintro ⟨file, member, inFile⟩
    exact ⟨file, member, ((held file member).search_ok exact).mpr inFile⟩
  · rintro ⟨file, member, ok⟩
    exact ⟨file, member, ((held file member).search_ok exact).mp ok⟩

/-- Replacing files by their merge keeps what every key is bound to, when the
files that stay are apart from those that go. -/
theorem isNewest_merged {key : Nat} {result : Option V}
    (inputSound : ∀ file ∈ inputs, FileSound files cap file)
    (restSound : ∀ file ∈ rest, FileSound files cap file)
    (apart : ∀ f ∈ rest, ∀ g ∈ inputs, Apart f g)
    (once : BindsOnce (answers (bitFileSearch files) inputs))
    (merged : IsNewest (answers (bitFileSearch files) inputs) key (output.lookup key))
    (newest : IsNewest (answers (bitFileSearch files) outputs) key (output.lookup key))
    (holds : IsNewest (answers (bitFileSearch files) (inputs ++ rest)) key result) :
    IsNewest (answers (bitFileSearch files) (outputs ++ rest)) key result := by
  have inputRange := answersInRange_of_sound exact.faithful inputSound
  have restRange := answersInRange_of_sound exact.faithful restSound
  rw [answers_append] at holds ⊢
  by_cases inRest : ∃ file ∈ rest, file.firstKey ≤ key ∧ key ≤ file.lastKey
  · -- The key belongs to a file that stays, so no file that goes has it.
    obtain ⟨file, member, range⟩ := inRest
    have inputsSilent : ∀ version val, (version, key, val) ∉
        answers (bitFileSearch files) inputs := by
      rintro version val ⟨other, otherMember, -, ok⟩
      have otherRange := inputRange other otherMember key val ok
      rcases apart file member other otherMember with below | above
      · omega
      · omega
    have unbound : output.lookup key = none := merged.unique once inputsSilent
    rw [unbound] at newest
    rw [Set.union_comm, isNewest_union_iff inputsSilent] at holds
    rw [Set.union_comm, isNewest_union_iff newest]
    exact holds
  · have restSilent : ∀ version val, (version, key, val) ∉
        answers (bitFileSearch files) rest := by
      rintro version val ⟨file, member, -, ok⟩
      exact inRest ⟨file, member, restRange file member key val ok⟩
    rw [isNewest_union_iff restSilent] at holds ⊢
    rw [merged.unique once holds] at newest
    exact newest

end

end

section

variable {env : LsmEnv R H S V} {cap : Nat} {job : CompactionJob S} {look : Nat → Option V}
  {before relatives after outputs : List (FileStat S)}

theorem DiskInv.merge (faithful : env.files.Faithful) (inv : DiskInv env.files cap job look)
    (full : job.level1.bitFiles.length = defaultLsmLevel0NrFile)
    (room : job.level2.bitFiles.length < filesFor cap + defaultLsmLevel0NrFile)
    (split : job.level2.bitFiles = before ++ relatives ++ after)
    (belowInputs : ∀ f ∈ before, ∀ g ∈ job.level1.bitFiles ++ relatives, f.lastKey < g.firstKey)
    (aboveInputs : ∀ f ∈ after, ∀ g ∈ job.level1.bitFiles ++ relatives, g.lastKey < f.firstKey) :
    Achieves env.Lawful (mergeFiles env job job.level1.bitFiles relatives) fun result =>
      DiskInv env.files cap result look ∧ result.level1.bitFiles = [] ∧
        result.level2.bitFiles ≠ [] := by
  have relativesSub : ∀ f ∈ relatives, f ∈ job.level2.bitFiles := fun f member => by
    rw [split]
    simp [member]
  have restSub : (before ++ after).Sublist job.level2.bitFiles := by
    rw [split]
    exact Sublist.append (sublist_append_left _ _) (Sublist.refl _)
  have inputSound : ∀ f ∈ job.level1.bitFiles ++ relatives, FileSound env.files cap f := by
    intro f member
    refine inv.sound f (mem_append.mpr ?_)
    exact (mem_append.mp member).imp id (relativesSub f)
  have restSound : ∀ f ∈ before ++ after, FileSound env.files cap f := fun f member =>
    inv.sound f (mem_append_right _ (restSub.subset member))
  have apartRest : ∀ f ∈ before ++ after, ∀ g ∈ job.level1.bitFiles ++ relatives, Apart f g := by
    intro f fMember g gMember
    exact (mem_append.mp fMember).imp (belowInputs f · g gMember) (aboveInputs f · g gMember)
  have nonempty : job.level1.bitFiles ++ relatives ≠ [] := by
    refine append_ne_nil_of_left_ne_nil (ne_nil_of_length_pos ?_) _
    rw [full]
    decide
  have outputRoom : CallRoom job
      ((job.level1.bitFiles ++ job.level2.bitFiles).map FileStat.id).length
      job.level2.bitFiles.length cap := by
    intro n starts
    have := lt_filesFor starts
    rw [length_map, length_append, full, inv.nrSegment, inv.shape1.maxSize_eq]
    simp only [defaultLsmLevel0NrFile] at room ⊢
    omega
  have runs := (mergeFiles_achieves (fun f member => (inputSound f member).yields faithful) nonempty
    inv.catalogue outputRoom).2
  refine ⟨fun lawful => runs.completes ⟨all_eq_true.mpr fun f member =>
    (inputSound f member).created lawful.exact.toIterates, lawful.kept _⟩, fun result done => ?_⟩
  obtain ⟨output, outputs, merged, ⟨iterable, written, ascending, newest, below, outputsNonempty,
    isResult⟩⟩ := runs.meets result done
  have inputHeld : ∀ f ∈ job.level1.bitFiles ++ relatives,
      FileHolds env.files f (fileEntries env.files f) := fun f member =>
    (inputSound f member).holds faithful (all_eq_true.mp iterable.created f member)
  have fromInput := exists_input_of_isNewest ascending newest
  have outputSound := written.shared.sound below
  have lower : job.level2.bitFiles.Perm (relatives ++ (before ++ after)) := by
    rw [split, ← append_assoc]
    exact perm_append_comm.append_right after
  obtain ⟨level1, ⟨left, level2, perm, ordered⟩, catalogue, maxVersion, nrSegment⟩ :=
    written.retire_all lower isResult
  have empty : result.level1.bitFiles = [] := by rw [level1]
  have restVersions : ∀ f ∈ before ++ after, f.version < job.catalogue.maxVersion :=
    fun f member => inv.versions f (mem_append_right _ (restSub.subset member))
  have grows : job.catalogue.maxVersion ≤ result.catalogue.maxVersion := by
    obtain ⟨f, member⟩ := exists_mem_of_ne_nil outputs outputsNonempty
    have := written.newer f member
    omega
  refine ⟨diskInv_of_level0_empty ?_ ?_ (nrSegment.trans inv.nrSegment) empty
    (by rw [level2]; exact perm) (by rw [level2]; exact ordered inv.ordered) catalogue ?_ ?_ ?_ ?_
    ?_ fun exact key => ?_, empty, ?_⟩
  · rw [level1]
    exact inv.shape0.withFiles []
  · rw [level2]
    exact inv.shape1.withFiles left
  · intro f member
    exact (mem_append.mp member).elim (outputSound f) (restSound f)
  · -- An output ranges between keys of merged files.
    refine pairwise_append.mpr ⟨written.shared.pairwise_apart ascending,
      inv.apart.sublist restSub, ?_⟩
    intro f fMember g gMember
    obtain ⟨⟨first, firstMember⟩, ⟨last, lastMember⟩⟩ := written.shared.bounds_mem f fMember
    rcases mem_append.mp gMember with isBefore | isAfter
    · right
      obtain ⟨input, inputMember, inInput⟩ := fromInput _ firstMember
      exact (belowInputs g isBefore input inputMember).trans_le
        ((inputHeld input inputMember).inRange _ inInput).1
    · left
      obtain ⟨input, inputMember, inInput⟩ := fromInput _ lastMember
      exact ((inputHeld input inputMember).inRange _ inInput).2.trans_lt
        (aboveInputs g isAfter input inputMember)
  · intro f member
    rcases mem_append.mp member with new | old
    · rw [maxVersion]
      exact (written.newer f new).2
    · exact (restVersions f old).trans_le grows
  · refine pairwise_append.mpr ⟨written.distinct,
      (pairwise_append.mp inv.distinct).2.1.sublist restSub, ?_⟩
    intro f new g old
    have := written.newer f new
    have := restVersions g old
    omega
  · have outputsFew := written.length_le (ascending.length_le below)
    have := restSub.length_le
    rw [length_append]
    simp only [defaultLsmLevel0NrFile] at room
    omega
  · rw [heldBy_eq_answers exact inputHeld] at newest
    refine isNewest_merged exact inputSound restSound apartRest ?_ (newest key)
      (written.shared.isNewest exact ascending key) ?_
    · refine bindsOnce_answers (inv.distinct.sublist (Sublist.append (Sublist.refl _) ?_))
      rw [split]
      exact (sublist_append_right _ _).trans (sublist_append_left _ _)
    · have holds := inv.holds exact key
      rw [answers_perm (perm_inputs lower), answers_perm perm_append_comm] at holds
      rw [append_assoc, answers_perm (Perm.append_left _ perm_append_comm)]
      exact holds
  · rw [level2]
    refine ne_nil_of_length_pos ?_
    rw [perm.length_eq, length_append]
    exact Nat.add_pos_left (length_pos_of_ne_nil outputsNonempty) _

end

/-- Files of different identifiers that `lsm_file_overlapping` passes are apart. -/
theorem pairwise_apart_of_not_overlapping {files : List (FileStat S)}
    (distinct : (files.map FileStat.id).Nodup) (passed : lsmFileOverlapping files = false) :
    files.Pairwise Apart := by
  refine (pairwise_map.mp distinct).imp_of_mem ?_
  intro f g fMember gMember differ
  have pair : (f.id != g.id &&
      intervalOverlapping f.firstKey f.lastKey g.firstKey g.lastKey) = false := by
    by_contra overlapping
    have : lsmFileOverlapping files = true :=
      any_eq_true.mpr ⟨f, fMember, any_eq_true.mpr ⟨g, gMember, by simpa using overlapping⟩⟩
    rw [passed] at this
    cases this
  rw [bne_iff_ne.mpr differ, Bool.true_and] at pair
  simp only [intervalOverlapping, Bool.not_eq_false', Bool.or_eq_true, decide_eq_true_eq] at pair
  exact pair

/-- A major compaction of a full level zero into a level one with room completes
where all files can be read and freed links stay.  It empties level zero and keeps what
every key is bound to. -/
theorem DiskInv.compactionJobRun {env : LsmEnv R H S V} {cap : Nat} {job : CompactionJob S}
    {look : Nat → Option V} (faithful : env.files.Faithful) (inv : DiskInv env.files cap job look)
    (full : job.level1.bitFiles.length = defaultLsmLevel0NrFile)
    (room : job.level2.bitFiles.length < filesFor cap + defaultLsmLevel0NrFile) :
    Achieves env.Lawful (compactionJobRun env job) fun result =>
      DiskInv env.files cap result look ∧ result.level1.bitFiles = [] ∧
        result.level2.bitFiles ≠ [] := by
  have demoted : bitLevelPickDemotedFiles job.level1 = job.level1.bitFiles :=
    if_pos inv.shape0.level_eq
  obtain ⟨before, after, split, below, above⟩ :=
    bitLevelFindRelativeFiles_spec inv.ranges job.level1.bitFiles
  have follow := inv.ranges.lt
  rw [split] at follow
  obtain ⟨front, -, frontAfter⟩ := pairwise_append.mp follow
  have belowInputs : ∀ f ∈ before, ∀ g ∈ job.level1.bitFiles ++
      bitLevelFindRelativeFiles job.level2 job.level1.bitFiles, f.lastKey < g.firstKey := by
    intro f fMember g gMember
    rcases mem_append.mp gMember with isDemoted | isRelative
    · exact (below f fMember).trans_le (leastFirstKey_le isDemoted)
    · exact (pairwise_append.mp front).2.2 f fMember g isRelative
  have aboveInputs : ∀ f ∈ after, ∀ g ∈ job.level1.bitFiles ++
      bitLevelFindRelativeFiles job.level2 job.level1.bitFiles, g.lastKey < f.firstKey := by
    intro f fMember g gMember
    rcases mem_append.mp gMember with isDemoted | isRelative
    · exact (le_greatestLastKey isDemoted).trans_lt (above f fMember)
    · exact frontAfter g (mem_append_right _ isRelative) f fMember
  unfold C.compactionJobRun
  simp only [demoted]
  split
  · rename_i untouched
    rw [Bool.and_eq_true, List.isEmpty_iff, Bool.not_eq_true'] at untouched
    have apart : (job.level1.bitFiles ++ job.level2.bitFiles).Pairwise Apart := by
      refine pairwise_append.mpr
        ⟨pairwise_apart_of_not_overlapping inv.catalogue.nodup_left untouched.2, inv.apart, ?_⟩
      intro f fMember g gMember
      rw [split, untouched.1, append_nil] at gMember
      rcases mem_append.mp gMember with isBefore | isAfter
      · exact .inr (belowInputs g isBefore f (mem_append_left _ fMember))
      · exact .inl (aboveInputs g isAfter f (mem_append_left _ fMember))
    exact .of_some rfl (inv.move full room apart)
  · exact inv.merge faithful full room split belowInputs aboveInputs

end SwornDisk.C
