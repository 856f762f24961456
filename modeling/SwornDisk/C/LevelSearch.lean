import SwornDisk.C.LevelOrder

/-!
# Searches of a level

Below level zero a search takes one file by `bsearch`, where the files are taken to be apart.
On runs of puts whose keys the memtable can order they are, and the search answers as a search of
all files of the level.  A memtable with keys that `memtable_entry_cmp` orders wrongly becomes a
file whose first key is above its last; it overlaps nothing and is never found.
-/

namespace SwornDisk.C

open Lib List Option

variable {cap count : Nat} {held : List (FileStat (List (Nat × Nat)))}

variable {R H S V : Type}

theorem bitLevelSearch_eq_linear {probe : FileStat S → Nat → Except Errno V} {l : BitLevel S}
    (deep : l.level ≠ 0 → RangesApart l.bitFiles ∧ AnswersInRange probe l.bitFiles)
    (distinct : l.bitFiles.Pairwise fun f g => f.version ≠ g.version)
    (missing : ∀ file ∈ l.bitFiles, ∀ key, probe file key = orNoData (probe file key).toOption)
    (key : Nat) : bitLevelSearch probe l key = bitLevelLinearSearch probe l key := by
  have same : (bitLevelSearch probe l key).toOption =
      (bitLevelLinearSearch probe l key).toOption :=
    (bitLevelSearch_spec deep).unique (bindsOnce_answers distinct) (bitLevelLinearSearch_spec l)
  have linear : bitLevelLinearSearch probe l key =
      orNoData (bitLevelLinearSearch probe l key).toOption := by
    rw [bitLevelLinearSearch, toOption_orNoData]
  have binary : bitLevelSearch probe l key = orNoData (bitLevelSearch probe l key).toOption := by
    unfold bitLevelSearch
    split
    · exact linear
    · rename_i isDeep
      rcases bitLevelLocateFile_spec (deep isDeep).1 key with
        ⟨file, member, located, -⟩ | ⟨missed, -⟩
      · rw [located]
        exact missing file member key
      · rw [missed]
        rfl
  rw [binary, linear, same]

section

variable {t : LsmTree (BinaryTree (Nat × Nat)) (List (Nat × Nat))} {entries : List (Nat × Nat)}

theorem not_overlapping_of_apart {files : List (FileStat S)} (apart : files.Pairwise Apart) :
    lsmFileOverlapping files = false := by
  rw [Bool.eq_false_iff]
  intro overlapping
  obtain ⟨f, fMember, meets⟩ := any_eq_true.mp overlapping
  obtain ⟨g, gMember, both⟩ := any_eq_true.mp meets
  rw [Bool.and_eq_true, bne_iff_ne] at both
  have differ : f ≠ g := fun same => both.1 (congrArg FileStat.id same)
  have ranges := both.2
  simp only [intervalOverlapping, Bool.not_eq_true', Bool.or_eq_false_iff,
    decide_eq_false_iff_not] at ranges
  rcases apart.forall fMember gMember differ with below | above
  · exact ranges.1 below
  · exact ranges.2 above

theorem Stacked.demote (stacked : Stacked cap t held)
    (four : held.length = defaultLsmLevel0NrFile) (apart : held.Pairwise Apart)
    (following : Following entries) (full : entries.length = defaultLsmFileCapacity) :
    ∃ next level1, runPuts listEnv t entries = some next ∧ level1 ∈ next.levels ∧
      level1.level = 1 ∧
      ∃ version files, files.Perm held ∧ level1.bitFiles.Perm (revised 1 version files) := by
  obtain ⟨files, perm, levels⟩ := stacked.levels
  obtain ⟨memtable, walk, -, ran⟩ := runPuts_batch stacked.fresh following full
  have length : files.length = defaultLsmLevel0NrFile := perm.length_eq.trans four
  have isFull : bitLevelIsFull (levelZero files) = true := decide_eq_true length.ge
  generalize isJob : (⟨t.catalogue, levelZero files,
    bitLevelInit 1 (totalBit 2 lsmTreeDiskLevelCommonRatio cap)⟩ :
      CompactionJob (List (Nat × Nat))) = job
  have moves : compactionJobRun listEnv job = some (files.foldl moveFile job) := by
    subst isJob
    have together := not_overlapping_of_apart ((perm.pairwise_iff (Std.Symm.symm _ _)).mpr apart)
    unfold compactionJobRun
    exact if_pos (by rw [Bool.and_eq_true, Bool.not_eq_true']; exact ⟨rfl, together⟩)
  obtain ⟨table, -, -, added, level2, addedPerm, -⟩ := foldl_moveFile job files
    (by
      subst isJob
      rw [length]
      simp only [bitLevelInit, length_nil]
      omega)
  have roomBelow : bitLevelIsFull (bitLevelInit 1 (totalBit 2 lsmTreeDiskLevelCommonRatio cap) :
      BitLevel (List (Nat × Nat))) = false := rfl
  have major : lsmTreeMajorCompaction listEnv { t with memtable := memtable } 0 = _ :=
    lsmTreeMajorCompaction_two levels roomBelow
  rw [isJob, moves, map_some] at major
  have holds : CatalogueHolds (files.foldl moveFile job).catalogue (held.map FileStat.id) := by
    rw [← isJob] at table ⊢
    exact ⟨stacked.catalogue.nodup, table ▸ stacked.catalogue.bound,
      table ▸ stacked.catalogue.inUse⟩
  obtain ⟨next, file, flushed, -, -, nextLevels, -⟩ := flushMemtable_listEnv
    (t := { t with
      memtable := memtable
      catalogue := (files.foldl moveFile job).catalogue
      levels := [(files.foldl moveFile job).level1, (files.foldl moveFile job).level2] })
    rfl holds (by
      rw [length_map, four, table, ← isJob]
      have := stacked.nrSegment
      simp only [defaultLsmLevel0NrFile] at this ⊢
      omega) walk
  refine ⟨next, (files.foldl moveFile job).level2, ?_, ?_, ?_, job.catalogue.maxVersion, files,
    perm, ?_⟩
  · rw [ran, lsmTreeMinorCompaction_of_full (t := { t with memtable := memtable }) levels isFull,
      major, bind_some, flushed]
  · rw [nextLevels]
    exact mem_cons_of_mem _ mem_cons_self
  · rw [level2, ← isJob]
    rfl
  · rw [level2]
    rw [← isJob] at addedPerm ⊢
    exact addedPerm.trans (by rw [bitLevelInit, append_nil])

end

/-- The array of the level is sorted, its files are apart if it is not level zero, and its
search answers as the search of all its files. -/
structure LevelSearchable (files : BitFileOps S V) (level : BitLevel S) : Prop where
  sorted : level.bitFiles.Pairwise FileLe
  apart : level.level ≠ 0 → level.bitFiles.Pairwise Apart
  searched : ∀ key, bitLevelSearch (bitFileSearch files) level key =
    bitLevelLinearSearch (bitFileSearch files) level key

section

variable {env : LsmEnv R H S V} {t : LsmTree R S} {job : CompactionJob S} {look : Nat → Option V}

theorem levelSearchable_of_sound (faithful : env.files.Faithful) {level : BitLevel S}
    (sorted : level.bitFiles.Pairwise FileLe)
    (apart : level.level ≠ 0 → level.bitFiles.Pairwise Apart)
    (sound : ∀ file ∈ level.bitFiles, FileSound env.files cap file)
    (distinct : level.bitFiles.Pairwise fun f g => f.version ≠ g.version) :
    LevelSearchable env.files level := by
  refine ⟨sorted, apart, fun key => bitLevelSearch_eq_linear (fun deep => ?_) distinct ?_ key⟩
  · exact ⟨⟨sorted, apart deep, fun file member => (sound file member).proper⟩,
      answersInRange_of_sound faithful sound⟩
  · intro file member key
    obtain ⟨entries, holds, -⟩ := sound file member
    exact holds.search_missing faithful key

theorem TreeInv.levelSearchable (faithful : env.files.Faithful) (inv : TreeInv env cap t job look)
    (sorted : LevelsSorted t.levels) :
    ∀ level ∈ t.levels, LevelSearchable env.files level := by
  have disk := inv.disk
  obtain ⟨distinct0, distinct1, -⟩ := pairwise_append.mp disk.distinct
  intro level member
  have ordered := sorted level member
  rw [inv.levels] at member
  rcases mem_cons.mp member with rfl | member
  · exact levelSearchable_of_sound faithful ordered (fun deep => absurd disk.shape0.level_eq deep)
      (fun file isFile => disk.sound file (mem_append_left _ isFile)) distinct0
  · obtain rfl := mem_singleton.mp member
    exact levelSearchable_of_sound faithful ordered (fun _ => disk.apart)
      (fun file isFile => disk.sound file (mem_append_right _ isFile)) distinct1

end

theorem filling_bounds (first : Nat) (positive : 0 < count) :
    (((filling first count 0).head?.map Prod.fst).getD 0 = first) ∧
      ((filling first count 0).getLast?.map Prod.fst).getD 0 = first + count - 1 := by
  obtain ⟨count, rfl⟩ := Nat.exists_eq_add_one_of_ne_zero (Nat.ne_of_gt positive)
  constructor
  · rw [filling, range'_succ]
    rfl
  · rw [filling, range'_1_concat, map_append, map_singleton,
      getLast?_append_of_ne_nil _ (cons_ne_nil _ _), getLast?_singleton]
    rfl

def wrappedPuts (count : Nat) : List (Nat × Nat) :=
  (2 ^ 31 + count, 0) :: filling 0 (count - 1) 0

theorem following_wrappedPuts {count : Nat} (small : count < 2 ^ 31) :
    Following (wrappedPuts count) := by
  refine pairwise_cons.mpr ⟨fun put member => ?_, following_filling (by omega) 0⟩
  have := (mem_filling member).1
  exact memtableEntryCmpRb_gt (.inr ⟨by omega, by simp only; omega⟩)

theorem not_searchable_of_hidden {level : BitLevel (List (Nat × Nat))}
    {hidden : FileStat (List (Nat × Nat))} {key val : Nat} (deep : level.level ≠ 0)
    (member : hidden ∈ level.bitFiles) (holds : hidden.store.lookup key = some val)
    (outside : ∀ file ∈ level.bitFiles, key < file.firstKey) :
    ¬ LevelSearchable listEnv.files level := by
  intro searchable
  have missed : bitLevelLocateFile level key = none := by
    unfold bitLevelLocateFile
    split
    · rename_i found hit
      obtain ⟨equal, bound⟩ := bsearch_eq_some hit
      rw [zero_add] at bound
      rw [keySide_eq bound, bitFileCmpKey_eq_iff] at equal
      exact absurd equal.1 (not_le.mpr (outside _ (getElem_mem bound)))
    · rfl
  have binary : bitLevelSearch (bitFileSearch listEnv.files) level key = .error .enodata := by
    rw [bitLevelSearch, if_neg deep, missed]
  have newest : IsNewest _ key
      (bitLevelLinearSearch (bitFileSearch listEnv.files) level key).toOption :=
    bitLevelLinearSearch_spec level
  rw [← searchable.searched key, binary] at newest
  refine newest hidden.version val ⟨hidden, member, rfl, ?_⟩
  change orNoData (hidden.store.lookup key) = .ok val
  rw [holds]
  rfl

def wrappedRun (count : Nat) : List (Nat × Nat) :=
  wrappedPuts count ++ (filling count count 0 ++ (filling (2 * count) count 0 ++
    (filling (3 * count) count 0 ++ filling (4 * count) count 0)))

variable {file : FileStat (List (Nat × Nat))}

section

variable {t : LsmTree (BinaryTree (Nat × Nat)) (List (Nat × Nat))}

theorem Stacked.andThen {entries rest : List (Nat × Nat)} (stacked : Stacked cap t held)
    (few : held.length < defaultLsmLevel0NrFile) (following : Following entries)
    (full : entries.length = defaultLsmFileCapacity) (below : ∀ put ∈ entries, put.1 < cap)
    {property : LsmTree (BinaryTree (Nat × Nat)) (List (Nat × Nat)) → Prop}
    (later : ∀ next file, Stacked cap next (file :: held) → BuiltFrom entries file →
      PutsMeet listEnv (PutAllowed listEnv cap) next rest ∧
        ∃ last, runPuts listEnv next rest = some last ∧ property last) :
    PutsMeet listEnv (PutAllowed listEnv cap) t (entries ++ rest) ∧
      ∃ last, runPuts listEnv t (entries ++ rest) = some last ∧ property last := by
  obtain ⟨next, file, ran, built, nextStacked, -⟩ := stacked.batch few following full
  obtain ⟨meets, last, ranOn, holds⟩ := later next file nextStacked built
  refine ⟨putsMeet_append (stacked.putsAllowed following full below) fun other ranOther => ?_,
    last, ?_, holds⟩
  · obtain rfl := some.inj (ran.symm.trans ranOther)
    exact meets
  · rw [runPuts_append, ran, bind_some, ranOn]

theorem BuiltFrom.bounds {first : Nat} (built : BuiltFrom (filling first count 0) file)
    (positive : 0 < count) :
    file.firstKey = first ∧ file.lastKey = first + count - 1 := by
  obtain ⟨isFirst, isLast⟩ := filling_bounds first positive
  exact ⟨built.firstKey_eq.trans isFirst, built.lastKey_eq.trans isLast⟩

theorem BuiltFrom.wrapped (built : BuiltFrom (wrappedPuts count) file) (several : 1 < count) :
    file.firstKey = 2 ^ 31 + count ∧ file.lastKey = count - 2 ∧ file.store.lookup 0 = some 0 := by
  obtain ⟨count, rfl⟩ : ∃ more, count = more + 2 := ⟨count - 2, by omega⟩
  have starts : filling 0 (count + 2 - 1) 0 = (0, 0) :: filling 1 count 0 := by
    rw [filling, show count + 2 - 1 = count + 1 by omega, range'_succ]
    rfl
  have isLast := (filling_bounds 0 (Nat.succ_pos count)).2
  refine ⟨built.firstKey_eq, ?_, ?_⟩
  · rw [built.lastKey_eq, wrappedPuts, getLast?_cons_of_ne_nil]
    · exact isLast.trans (by omega)
    · rw [starts]
      exact cons_ne_nil _ _
  · rw [built.store_eq, wrappedPuts, starts, lookup_cons_eq_ite, if_neg (by omega),
      lookup_cons_eq_ite, if_pos rfl]

/-- The file with the far key seems to meet none of the others, is moved to level one with them
and is never located there. -/
theorem wrapped_file_hidden (full : count = defaultLsmFileCapacity) (far : 2 ^ 31 + count < cap) :
    PutsMeet listEnv (PutAllowed listEnv cap) (listTree cap) (wrappedRun count) ∧
      ∃ last, runPuts listEnv (listTree cap) (wrappedRun count) = some last ∧
        ∃ level ∈ last.levels, ¬ LevelSearchable listEnv.files level := by
  have size : count = 1048576 := full
  have length : ∀ first, (filling first count 0).length = defaultLsmFileCapacity :=
    fun first => (length_filling first count 0).trans full
  have below : ∀ first ≤ 4 * count, ∀ put ∈ filling first count 0, put.1 < cap := by
    intro first le put member
    have := (mem_filling member).1.2
    omega
  have following : ∀ first ≤ 4 * count, Following (filling first count 0) :=
    fun first le => following_filling (by omega) 0
  apply (stacked_listTree cap).andThen (Nat.lt_of_sub_eq_succ rfl)
    (following_wrappedPuts (by omega))
  · rw [wrappedPuts, length_cons, length_filling, ← full]
    omega
  · intro put member
    rcases mem_cons.mp member with rfl | member
    · exact far
    · have := (mem_filling member).1.2
      omega
  intro tree1 hidden stacked1 built0
  apply stacked1.andThen (Nat.lt_of_sub_eq_succ rfl) (following count (by omega)) (length _)
    (below count (by omega))
  intro tree2 file1 stacked2 built1
  apply stacked2.andThen (Nat.lt_of_sub_eq_succ rfl) (following (2 * count) (by omega)) (length _)
    (below (2 * count) (by omega))
  intro tree3 file2 stacked3 built2
  apply stacked3.andThen (Nat.lt_of_sub_eq_succ rfl) (following (3 * count) (by omega)) (length _)
    (below (3 * count) (by omega))
  intro tree4 file3 stacked4 built3
  obtain ⟨first0, last0, holds⟩ := built0.wrapped (by omega)
  obtain ⟨first1, last1⟩ := built1.bounds (by omega)
  obtain ⟨first2, last2⟩ := built2.bounds (by omega)
  obtain ⟨first3, last3⟩ := built3.bounds (by omega)
  have apart : [file3, file2, file1, hidden].Pairwise Apart := by
    simp only [pairwise_cons, mem_cons, not_mem_nil, or_false, Apart,
      forall_eq_or_imp, forall_eq, List.Pairwise.nil, and_true, false_implies, implies_true]
    omega
  obtain ⟨last, level1, ran, member, isOne, version, moved, perm, inLevel⟩ :=
    stacked4.demote rfl apart (following (4 * count) le_rfl) (length _)
  have positive : ∀ file ∈ [file3, file2, file1, hidden], 0 < file.firstKey := by
    simp only [mem_cons, not_mem_nil, or_false, forall_eq_or_imp, forall_eq]
    omega
  refine ⟨stacked4.putsAllowed (following (4 * count) le_rfl) (length _)
    (below (4 * count) le_rfl), last, ran, level1, member, ?_⟩
  obtain ⟨file, isMoved, same⟩ : ∃ file ∈ revised 1 version moved, SameFile hidden file :=
    exists_mem_revised (perm.mem_iff.mpr (by simp))
  apply not_searchable_of_hidden (by rw [isOne]; exact one_ne_zero)
    (inLevel.mem_iff.mpr isMoved) (by rw [same.store_eq]; exact holds)
  intro other inOther
  obtain ⟨⟨old, isOld, sameOld⟩, -⟩ := mem_revised (inLevel.mem_iff.mp inOther)
  rw [sameOld.firstKey_eq]
  exact positive old (perm.mem_iff.mp isOld)

end

/-- After every run of puts whose keys the memtable can order, on files that yield nothing but
what was added to them, the levels are sorted, the files of level one are apart and every level is
searched as a whole; a compaction of two levels of the tree finds and leaves a sorted array at each
of its calls of `add_file`. -/
theorem levels_searchable_of_putsSafe (env : LsmEnv R H S V) (faithful : env.files.Faithful)
    (cap : Nat) (stats : Nat → FileStat S) (puts : List (Nat × V))
    (safe : PutsMeet env (PutSafe env cap) (lsmTreeCreate env cap stats) puts) (last : LsmTree R S)
    (ran : runPuts env (lsmTreeCreate env cap stats) puts = some last) :
    (∀ level ∈ last.levels, LevelSearchable env.files level) ∧
      ∀ upper ∈ last.levels, ∀ lower ∈ last.levels,
        ∀ call ∈ compactionJobCalls env ⟨last.catalogue, upper, lower⟩, call.KeepsSorted := by
  obtain ⟨job, look, inv, -⟩ := ((treeInv_lsmTreeCreate env cap stats).runPuts faithful
    (Nat.succ_pos _) safe).meets last ran
  have sorted := (levelsSorted_create env cap stats).runPuts ran
  refine ⟨inv.levelSearchable faithful sorted, fun upper isUpper lower isLower => ?_⟩
  have both : CompactionJob.Sorted ⟨last.catalogue, upper, lower⟩ :=
    ⟨sorted upper isUpper, sorted lower isLower⟩
  exact both.compactionJobRun.1

/-- Five rounds over all keys leave files in level one. -/
theorem levels_searchable_fiveRounds : ∃ count last, count = defaultLsmFileCapacity ∧
    runPuts listEnv (listTree count) (rounds count 5) = some last ∧
      (∃ level ∈ last.levels, level.level = 1 ∧ level.bitFiles ≠ []) ∧
      (∀ level ∈ last.levels, LevelSearchable listEnv.files level) ∧
      ∀ upper ∈ last.levels, ∀ lower ∈ last.levels,
        ∀ call ∈ compactionJobCalls listEnv ⟨last.catalogue, upper, lower⟩, call.KeepsSorted := by
  obtain ⟨count, full⟩ : ∃ count, count = defaultLsmFileCapacity := ⟨_, rfl⟩
  obtain ⟨safe, last, ran, held⟩ := fifth_round_merges full
  exact ⟨count, last, full, ran, held, levels_searchable_of_putsSafe listEnv
    listFiles_exact.faithful count _ _ safe last ran⟩

/-- On a device of `2 ^ 31 + 2 ^ 21` blocks, puts that are all allowed leave a file in level one
that has key `0` and is searched for no key. -/
theorem not_searchable_wrapped_file :
    PutsMeet listEnv (PutAllowed listEnv (2 ^ 31 + 2 ^ 21)) (listTree (2 ^ 31 + 2 ^ 21))
        (wrappedRun defaultLsmFileCapacity) ∧
      ∃ last, runPuts listEnv (listTree (2 ^ 31 + 2 ^ 21)) (wrappedRun defaultLsmFileCapacity) =
          some last ∧
        ∃ level ∈ last.levels, ¬ LevelSearchable listEnv.files level :=
  wrapped_file_hidden rfl (by decide)

end SwornDisk.C
