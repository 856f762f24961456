import SwornDisk.C.LsmMerge

/-!
# The LSM tree

`struct lsm_tree` of `lsm_tree.c`: a memtable over disk levels.  A put goes to the
memtable; a full memtable is written to level zero, and a full level zero is
first compacted into level one.  A search asks the memtable, then the levels.

The main result is newest-wins: after any run of puts, a search returns the
record of the latest put of the key.  It needs the keys to be close enough for
`memtable_entry_cmp`, whose `int` result wraps.
-/

namespace SwornDisk.C

open Lib List Function Option

variable {R H S V : Type}

def defaultLsmTreeNrDiskLevel : Nat := 2

def lsmTreeDiskLevelCommonRatio : Nat := 10

/-- `struct lsm_tree`. -/
structure LsmTree (R S : Type) where
  catalogue : BitCatalogue S
  memtable : Memtable R
  levels : List (BitLevel S)

def lowerLevels (commonRatio : Nat) : Nat → Nat → List (BitLevel S)
  | 0, _ => []
  | i + 1, capacity =>
    lowerLevels commonRatio i (capacity / commonRatio) ++ [bitLevelInit (i + 1) capacity]

def emptyLevels (nrDiskLevel commonRatio maxLevelNrFile : Nat) : List (BitLevel S) :=
  bitLevelInit 0 defaultLsmLevel0NrFile ::
    lowerLevels commonRatio (nrDiskLevel - 1) maxLevelNrFile

/-- `lsm_tree_init`: empty levels, into which the files of the catalogue are put.  The loop frees
the statistics of each file before it steps to the next. -/
def lsmTreeInit (env : LsmEnv R H S V) (catalogue : BitCatalogue S)
    (nrDiskLevel commonRatio maxLevelNrFile : Nat) : Option (LsmTree R S) :=
  (walkFreed env.freed.stat (fun levels stat => levels.modify stat.level (withFile · stat))
      (emptyLevels nrDiskLevel commonRatio maxLevelNrFile)
      (bitcGetAllFileStats catalogue)).map fun levels =>
    { catalogue := catalogue, memtable := rbtreeMemtableInit env.tree, levels := levels }

/-- `bit_catalogue_format` and `bit_catalogue_init`: no file in use.  `stats` is
what the unused slots of the array happen to hold. -/
def bitCatalogueFormat (nrDiskLevel commonRatio maxDiskLevelCapacity : Nat)
    (stats : Nat → FileStat S) : BitCatalogue S :=
  bitCatalogueInit
    { bitValidityTable := segValidatorFormat
        (totalBit nrDiskLevel commonRatio maxDiskLevelCapacity +
          totalBit 2 lsmTreeDiskLevelCommonRatio maxDiskLevelCapacity)
      fileStats := stats
      maxVersion := 0 }

/-- The tree over an empty catalogue for `maxDiskLevelCapacity` keys. -/
def lsmTreeCreate (env : LsmEnv R H S V) (maxDiskLevelCapacity : Nat)
    (stats : Nat → FileStat S) : LsmTree R S where
  catalogue := bitCatalogueFormat defaultLsmTreeNrDiskLevel lsmTreeDiskLevelCommonRatio
    maxDiskLevelCapacity stats
  memtable := rbtreeMemtableInit env.tree
  levels := emptyLevels defaultLsmTreeNrDiskLevel lsmTreeDiskLevelCommonRatio
    (totalBit 2 lsmTreeDiskLevelCommonRatio maxDiskLevelCapacity)

/-- `compaction_job_create` and `run` for `level` and the level below it. -/
def lsmTreeCompact (env : LsmEnv R H S V) (t : LsmTree R S) (level : Nat) :
    Option (LsmTree R S) :=
  match t.levels[level]?, t.levels[level + 1]? with
  | some level1, some level2 =>
    (compactionJobRun env ⟨t.catalogue, level1, level2⟩).map fun job =>
      { t with
        catalogue := job.catalogue
        levels := (t.levels.set level job.level1).set (level + 1) job.level2 }
  | _, _ => none

/-- `lsm_tree_major_compaction`.  A full last level has no level below it to look
at, and the run has no defined result. -/
def lsmTreeMajorCompaction (env : LsmEnv R H S V) (t : LsmTree R S) (level : Nat) :
    Option (LsmTree R S) :=
  match _next : t.levels[level + 1]? with
  | none => none
  | some next =>
    if bitLevelIsFull next then
      (lsmTreeMajorCompaction env t (level + 1)).bind (lsmTreeCompact env · level)
    else
      lsmTreeCompact env t level
termination_by t.levels.length - level
decreasing_by
  have := (List.getElem?_eq_some_iff.mp _next).1
  omega

section

variable (env : LsmEnv R H S V)

/-- The part of `lsm_tree_minor_compaction` that writes the memtable to level zero. -/
def flushMemtable (t : LsmTree R S) : Option (LsmTree R S) :=
  match t.levels[0]?, openBuilder t.catalogue 0 with
  | some level0, some (allocated, builder) =>
    let file := bitBuilderComplete env.files
      ((rbtreeMemtableGetAllEntry env.tree t.memtable).foldl bitBuilderAddEntry builder)
    some
      { catalogue := bitcSetFileStats allocated file.id file
        memtable := rbtreeMemtableInit env.tree
        levels := t.levels.set 0 (withFile level0 file) }
  | _, _ => none

def lsmTreeMinorCompaction (t : LsmTree R S) : Option (LsmTree R S) :=
  match t.levels[0]? with
  | none => none
  | some level0 =>
    if bitLevelIsFull level0 then
      (lsmTreeMajorCompaction env t 0).bind (flushMemtable env)
    else
      flushMemtable env t

def lsmTreePut (t : LsmTree R S) (key : Nat) (val : V) : Option (LsmTree R S) :=
  let memtable := (rbtreeMemtablePut env.tree t.memtable key val).2
  if defaultLsmFileCapacity ≤ memtable.size then
    lsmTreeMinorCompaction env { t with memtable := memtable }
  else
    some { t with memtable := memtable }

/-- The loop of `lsm_tree_search` over the levels: the first that answers. -/
def searchLevels (probe : FileStat S → Nat → Except Errno V) (key : Nat) :
    List (BitLevel S) → Except Errno V
  | [] => .error .enodata
  | level :: levels =>
    match bitLevelSearch probe level key with
    | .ok val => .ok val
    | .error _ => searchLevels probe key levels

/-- `lsm_tree_search`, with `probe` for the searches in the files. -/
def lsmTreeSearchWith (probe : FileStat S → Nat → Except Errno V) (t : LsmTree R S) (key : Nat) :
    Except Errno V :=
  match rbtreeMemtableGet env.tree t.memtable key with
  | .ok record => .ok record
  | .error _ => searchLevels probe key t.levels

/-- `lsm_tree_search` on files as their builders left them. -/
def lsmTreeSearch (t : LsmTree R S) (key : Nat) : Except Errno V :=
  lsmTreeSearchWith env (bitFileSearch env.files) t key

end

/-! ## Searches -/

section

variable {env : LsmEnv R H S V} {probe : FileStat S → Nat → Except Errno V}

theorem searchLevels_two {level0 level1 : BitLevel S} (key : Nat)
    (search0 : IsNewest (answers probe level0.bitFiles) key
      (bitLevelSearch probe level0 key).toOption)
    (search1 : IsNewest (answers probe level1.bitFiles) key
      (bitLevelSearch probe level1 key).toOption)
    (newer : ∀ f ∈ level0.bitFiles, ∀ g ∈ level1.bitFiles, g.version < f.version) :
    ∃ best, searchLevels probe key [level0, level1] = orNoData best ∧
      IsNewest (answers probe (level0.bitFiles ++ level1.bitFiles)) key best := by
  rw [answers_append]
  cases first : bitLevelSearch probe level0 key with
  | ok val =>
    rw [first] at search0
    refine ⟨some val, by simp only [searchLevels, first]; rfl, ?_⟩
    obtain ⟨version, ⟨file, member, versionEq, ok⟩, highest⟩ := search0
    refine ⟨version, .inl ⟨file, member, versionEq, ok⟩, ?_⟩
    rintro other held (upper | ⟨below, belowMember, rfl, -⟩)
    · exact highest other held upper
    · have less := newer file member below belowMember
      have same : version = file.version := versionEq
      omega
  | error err =>
    rw [first] at search0
    have silent : ∀ version val, (version, key, val) ∉ answers probe level0.bitFiles := search0
    refine ⟨(bitLevelSearch probe level1 key).toOption, ?_, ?_⟩
    · simp only [searchLevels, first]
      cases bitLevelSearch probe level1 key <;> rfl
    · rw [Set.union_comm, isNewest_union_iff silent]
      exact search1

end

/-! ## Runs of puts -/

def latestPut (puts : List (Nat × V)) (key : Nat) : Option V :=
  puts.reverse.lookup key

/-- A run of `lsm_tree_put` calls. -/
def runPuts (env : LsmEnv R H S V) : LsmTree R S → List (Nat × V) → Option (LsmTree R S)
  | t, [] => some t
  | t, put :: puts => (lsmTreePut env t put.1 put.2).bind (runPuts env · puts)

/-- Every put of a run is made in a state that meets `condition`. -/
def PutsMeet (env : LsmEnv R H S V) (condition : LsmTree R S → Nat × V → Prop) :
    LsmTree R S → List (Nat × V) → Prop
  | _, [] => True
  | t, put :: puts => condition t put ∧
      ∀ next, lsmTreePut env t put.1 put.2 = some next → PutsMeet env condition next puts

def StartsMajorCompaction (env : LsmEnv R H S V) (t : LsmTree R S) (put : Nat × V) : Prop :=
  defaultLsmFileCapacity ≤ (rbtreeMemtablePut env.tree t.memtable put.1 put.2).2.size ∧
    ∃ level0, t.levels.head? = some level0 ∧ bitLevelIsFull level0 = true

/-- The key is one of the tree, and the last level is not full when a major
compaction starts. -/
structure PutAllowed (env : LsmEnv R H S V) (cap : Nat) (t : LsmTree R S) (put : Nat × V) :
    Prop where
  below : put.1 < cap
  room : StartsMajorCompaction env t put →
    ∀ last, t.levels.getLast? = some last → bitLevelIsFull last = false

/-- In addition, `memtable_entry_cmp` orders the key against the memtable. -/
structure PutSafe (env : LsmEnv R H S V) (cap : Nat) (t : LsmTree R S) (put : Nat × V) : Prop
    extends PutAllowed env cap t put where
  comparable : Comparable put.1 (rbtreeMemtableGetAllEntry env.tree t.memtable)

/-- The run completes, and every search returns the record of the latest put. -/
def NewestWins (env : LsmEnv R H S V) (t : LsmTree R S) (puts : List (Nat × V)) : Prop :=
  ∃ last, runPuts env t puts = some last ∧
    ∀ key, lsmTreeSearch env last key = orNoData (latestPut puts key)

/-! ## The invariant of a run -/

/-- The tree stands for the memtable over what the disk levels stand for. -/
structure TreeInv (env : LsmEnv R H S V) (cap : Nat) (t : LsmTree R S) (job : CompactionJob S)
    (look : Nat → Option V) : Prop where
  levels : t.levels = [job.level1, job.level2]
  catalogue : t.catalogue = job.catalogue
  disk : DiskInv env.files cap job look
  memtable : t.memtable.Sound env.tree
  below : ∀ entry ∈ rbtreeMemtableGetAllEntry env.tree t.memtable, entry.1 < cap

def boundTo (env : LsmEnv R H S V) (t : LsmTree R S) (look : Nat → Option V) (key : Nat) :
    Option V :=
  ((rbtreeMemtableGetAllEntry env.tree t.memtable).lookup key).or (look key)

section

variable {env : LsmEnv R H S V} {cap : Nat} {t : LsmTree R S} {job : CompactionJob S}
  {look : Nat → Option V}

theorem TreeInv.search (exact : env.files.Exact) (inv : TreeInv env cap t job look) (key : Nat) :
    lsmTreeSearch env t key = orNoData (boundTo env t look key) := by
  unfold lsmTreeSearch lsmTreeSearchWith boundTo
  rw [inv.memtable.get, inv.levels]
  cases held : (rbtreeMemtableGetAllEntry env.tree t.memtable).lookup key with
  | some val => rfl
  | none =>
    have disk := inv.disk
    have inRange1 : AnswersInRange (bitFileSearch env.files) job.level2.bitFiles :=
      answersInRange_of_sound exact.faithful fun file member =>
        disk.sound file (mem_append_right _ member)
    obtain ⟨best, searched, newest⟩ := searchLevels_two key
      (bitLevelSearch_spec fun deep => absurd disk.shape0.level_eq deep)
      (bitLevelSearch_spec fun _ => ⟨disk.ranges, inRange1⟩) disk.newer
    have equal := newest.unique (bindsOnce_answers disk.distinct) (disk.holds exact key)
    rw [none_or, ← equal]
    exact searched

section

variable {level0 level1 : BitLevel S} {rest : List (BitLevel S)}

theorem lsmTreeMajorCompaction_two (levels : t.levels = [level0, level1])
    (room : bitLevelIsFull level1 = false) :
    lsmTreeMajorCompaction env t 0 =
      (compactionJobRun env ⟨t.catalogue, level0, level1⟩).map fun job =>
        { t with catalogue := job.catalogue, levels := [job.level1, job.level2] } := by
  have compacted : lsmTreeCompact env t 0 =
      (compactionJobRun env ⟨t.catalogue, level0, level1⟩).map fun job =>
        { t with catalogue := job.catalogue, levels := [job.level1, job.level2] } := by
    simp only [lsmTreeCompact, levels, getElem?_cons_zero, getElem?_cons_succ, zero_add,
      set_cons_zero, set_cons_succ]
  rw [lsmTreeMajorCompaction]
  split
  · rename_i missing
    simp [levels] at missing
  · rename_i next present
    obtain rfl : level1 = next := by simpa [levels] using present
    rw [room]
    exact compacted

theorem lsmTreeMinorCompaction_of_room (levels : t.levels = level0 :: rest)
    (room : bitLevelIsFull level0 = false) :
    lsmTreeMinorCompaction env t = flushMemtable env t := by
  simp only [lsmTreeMinorCompaction, levels, getElem?_cons_zero, room, Bool.false_eq_true,
    if_false]

theorem lsmTreeMinorCompaction_of_full (levels : t.levels = level0 :: rest)
    (full : bitLevelIsFull level0 = true) :
    lsmTreeMinorCompaction env t =
      (lsmTreeMajorCompaction env t 0).bind (flushMemtable env) := by
  simp only [lsmTreeMinorCompaction, levels, getElem?_cons_zero, full, if_true]

end

theorem TreeInv.majorCompaction (faithful : env.files.Faithful) (inv : TreeInv env cap t job look)
    (full : bitLevelIsFull job.level1 = true) (room : bitLevelIsFull job.level2 = false) :
    Achieves env.Lawful (lsmTreeMajorCompaction env t 0) fun next => ∃ job',
      TreeInv env cap next job' look ∧ next.memtable = t.memtable ∧
        job'.level1.bitFiles = [] ∧ job'.level2.bitFiles ≠ [] := by
  have disk := inv.disk
  have length0 : job.level1.bitFiles.length = defaultLsmLevel0NrFile := by
    have enough := of_decide_eq_true full
    rw [disk.shape0.capacity_eq] at enough
    exact le_antisymm disk.size0 enough
  have length1 : job.level2.bitFiles.length < filesFor cap + defaultLsmLevel0NrFile := by
    have short := of_decide_eq_false room
    rw [disk.shape1.capacity_eq] at short
    exact not_le.mp short
  rw [lsmTreeMajorCompaction_two inv.levels room, inv.catalogue]
  refine ((disk.compactionJobRun faithful length0 length1).mono fun result done => ?_).map
  obtain ⟨keeps, empty, nonempty⟩ := done
  exact ⟨result, ⟨rfl, rfl, keeps, inv.memtable, inv.below⟩, rfl, empty, nonempty⟩

theorem foldl_bitBuilderAddEntry (entries : List (Nat × V)) (b : BitBuilder V) :
    entries.foldl bitBuilderAddEntry b = { b with entries := b.entries ++ entries } := by
  induction entries generalizing b with
  | nil => simp
  | cons entry entries ih => simp [ih, bitBuilderAddEntry]

theorem TreeInv.flush (inv : TreeInv env cap t job look)
    (room : job.level1.bitFiles.length < defaultLsmLevel0NrFile)
    (full : t.memtable.size = defaultLsmFileCapacity) :
    ∃ next job', flushMemtable env t = some next ∧
      TreeInv env cap next job' (boundTo env t look) ∧
      next.memtable = rbtreeMemtableInit env.tree ∧ job'.level2 = job.level2 := by
  obtain ⟨opened, builder, ok, fresh, disk⟩ := inv.disk.flush room inv.memtable.ascending
    inv.below (inv.memtable.size_eq.symm.trans full)
  generalize isFile : bitBuilderComplete env.files
    { builder with entries := rbtreeMemtableGetAllEntry env.tree t.memtable } = file at disk
  have id_eq : builder.id = file.id := by
    rw [← isFile]
    rfl
  rw [id_eq] at disk
  refine ⟨{ catalogue := bitcSetFileStats opened file.id file
            memtable := rbtreeMemtableInit env.tree
            levels := [withFile job.level1 file, job.level2] },
    _, ?_, ⟨rfl, rfl, disk, Memtable.sound_init env.tree, ?_⟩, rfl, rfl⟩
  · simp only [flushMemtable, inv.levels, inv.catalogue, ok, getElem?_cons_zero,
      foldl_bitBuilderAddEntry, fresh, nil_append, set_cons_zero, isFile]
  · rw [rbtreeMemtableGetAllEntry_init]
    exact fun entry member => absurd member not_mem_nil

theorem boundTo_init (look : Nat → Option V) {next : LsmTree R S}
    (cleared : next.memtable = rbtreeMemtableInit env.tree) : boundTo env next look = look := by
  funext key
  rw [boundTo, cleared, rbtreeMemtableGetAllEntry_init]
  rfl

/-- A minor compaction keeps what the tree stands for.  Where it starts with a major compaction,
level one is not empty afterwards. -/
theorem TreeInv.minorCompaction (faithful : env.files.Faithful) (inv : TreeInv env cap t job look)
    (full : t.memtable.size = defaultLsmFileCapacity)
    (room : bitLevelIsFull job.level1 = true → bitLevelIsFull job.level2 = false) :
    Achieves env.Lawful (lsmTreeMinorCompaction env t) fun next => ∃ job',
      TreeInv env cap next job' (boundTo env t look) ∧
        next.memtable = rbtreeMemtableInit env.tree ∧
        (bitLevelIsFull job.level1 = true → job'.level2.bitFiles ≠ []) := by
  cases isFull : bitLevelIsFull job.level1 with
  | true =>
    rw [lsmTreeMinorCompaction_of_full inv.levels isFull]
    refine (inv.majorCompaction faithful isFull (room isFull)).bind fun middle _ done => ?_
    obtain ⟨job', middleInv, sameMemtable, empty, nonempty⟩ := done
    obtain ⟨next, job'', flushed, nextInv, cleared, sameLevel⟩ := middleInv.flush
      (by rw [empty]; exact Nat.succ_pos _) (by rw [sameMemtable]; exact full)
    have same : boundTo env middle look = boundTo env t look := by
      funext key
      rw [boundTo, boundTo, sameMemtable]
    rw [same] at nextInv
    exact .of_some flushed ⟨job'', nextInv, cleared, fun _ => sameLevel ▸ nonempty⟩
  | false =>
    rw [lsmTreeMinorCompaction_of_room inv.levels isFull]
    have short := of_decide_eq_false isFull
    rw [inv.disk.shape0.capacity_eq] at short
    obtain ⟨next, job', flushed, nextInv, cleared, -⟩ := inv.flush (not_le.mp short) full
    exact .of_some flushed ⟨job', nextInv, cleared, fun absent => by cases absent⟩

theorem size_rbtreeMemtablePut_le (tree : BalancedTree (Nat × V) R) (m : Memtable R) (key : Nat)
    (val : V) : (rbtreeMemtablePut tree m key val).2.size ≤ m.size + 1 := by
  simp only [rbtreeMemtablePut]
  split
  · exact le_rfl
  · exact Nat.le_succ _

theorem TreeInv.put (faithful : env.files.Faithful) (inv : TreeInv env cap t job look)
    (small : t.memtable.size < defaultLsmFileCapacity) {put : Nat × V}
    (safe : PutSafe env cap t put) :
    Achieves env.Lawful (lsmTreePut env t put.1 put.2) fun next => ∃ job' look',
      TreeInv env cap next job' look' ∧ next.memtable.size < defaultLsmFileCapacity ∧
        boundTo env next look' = update (boundTo env t look) put.1 (some put.2) := by
  obtain ⟨inserted, sound⟩ := inv.memtable.put put.2 safe.comparable
  have size := size_rbtreeMemtablePut_le env.tree t.memtable put.1 put.2
  have room := safe.room
  unfold StartsMajorCompaction at room
  unfold lsmTreePut
  generalize (rbtreeMemtablePut env.tree t.memtable put.1 put.2).2 = memtable at *
  have middle : TreeInv env cap { t with memtable := memtable } job look := by
    refine ⟨inv.levels, inv.catalogue, inv.disk, sound, fun entry member => ?_⟩
    rw [inserted] at member
    rcases mem_insertEntry member with rfl | old
    · exact safe.below
    · exact inv.below entry old
  have bound : boundTo env { t with memtable := memtable } look =
      update (boundTo env t look) put.1 (some put.2) := by
    funext key
    rw [boundTo, inserted, lookup_insertEntry, update_apply]
    split
    · rfl
    · rfl
  simp only
  by_cases isFull : defaultLsmFileCapacity ≤ memtable.size
  · rw [if_pos isFull]
    have filled : memtable.size = defaultLsmFileCapacity := le_antisymm (by omega) isFull
    refine (middle.minorCompaction faithful filled fun full0 => room ⟨isFull, job.level1,
      by rw [inv.levels]; rfl, full0⟩ job.level2 (by rw [inv.levels]; rfl)).mono fun next done => ?_
    obtain ⟨job', nextInv, cleared, -⟩ := done
    refine ⟨job', _, nextInv, ?_, ?_⟩
    · rw [cleared]
      exact Nat.succ_pos _
    · rw [boundTo_init _ cleared]
      exact bound
  · rw [if_neg isFull]
    exact .of_some rfl ⟨job, look, middle, not_le.mp isFull, bound⟩

theorem latestPut_cons (put : Nat × V) (puts : List (Nat × V)) (key : Nat) :
    latestPut (put :: puts) key =
      (latestPut puts key).or (if key = put.1 then some put.2 else none) := by
  rw [latestPut, reverse_cons, lookup_append, lookup_cons_eq_ite, lookup_nil]
  rfl

theorem TreeInv.runPuts (faithful : env.files.Faithful) (inv : TreeInv env cap t job look)
    (small : t.memtable.size < defaultLsmFileCapacity) {puts : List (Nat × V)}
    (safe : PutsMeet env (PutSafe env cap) t puts) :
    Achieves env.Lawful (C.runPuts env t puts) fun last => ∃ job' look',
      TreeInv env cap last job' look' ∧ last.memtable.size < defaultLsmFileCapacity ∧
        ∀ key, boundTo env last look' key = (latestPut puts key).or (boundTo env t look key) := by
  induction puts generalizing t job look with
  | nil => exact .of_some rfl ⟨job, look, inv, small, fun key => rfl⟩
  | cons put puts ih =>
    obtain ⟨safeHere, safeLater⟩ := safe
    refine (inv.put faithful small safeHere).bind fun next ran done => ?_
    obtain ⟨job', look', nextInv, nextSmall, bound⟩ := done
    refine (ih nextInv nextSmall (safeLater next ran)).mono fun last doneAll => ?_
    obtain ⟨job'', look'', lastInv, lastSmall, boundAll⟩ := doneAll
    refine ⟨job'', look'', lastInv, lastSmall, fun key => ?_⟩
    rw [boundAll, bound, latestPut_cons, update_apply]
    by_cases same : key = put.1
    · rw [if_pos same, if_pos same]
      cases latestPut puts key <;> rfl
    · rw [if_neg same, if_neg same]
      cases latestPut puts key <;> rfl

end

theorem treeInv_lsmTreeCreate (env : LsmEnv R H S V) (cap : Nat) (stats : Nat → FileStat S) :
    TreeInv env cap (lsmTreeCreate env cap stats)
      { catalogue := (lsmTreeCreate env cap stats).catalogue
        level1 := bitLevelInit 0 defaultLsmLevel0NrFile
        level2 := bitLevelInit 1 (totalBit 2 lsmTreeDiskLevelCommonRatio cap) } fun _ => none := by
  refine ⟨rfl, rfl, ?_, Memtable.sound_init env.tree, ?_⟩
  · refine ⟨⟨rfl, rfl, rfl⟩, ⟨rfl, rfl, rfl⟩, ?_, ⟨nodup_nil, by simp [bitLevelInit], ?_⟩,
      by simp [bitLevelInit], by simp [bitLevelInit], Pairwise.nil, Pairwise.nil,
      by simp [bitLevelInit], Pairwise.nil, by simp [bitLevelInit], Nat.zero_le _,
      Nat.zero_le _, fun _ key version val => ?_⟩
    · exact (Nat.two_mul _).symm
    · intro id _
      simp [lsmTreeCreate, bitCatalogueFormat, bitCatalogueInit, segValidatorInit,
        segValidatorFormat, bitLevelInit]
    · rintro ⟨file, member, -⟩
      cases member
  · change ∀ entry ∈ rbtreeMemtableGetAllEntry env.tree (rbtreeMemtableInit env.tree), entry.1 < cap
    rw [rbtreeMemtableGetAllEntry_init]
    exact fun entry member => absurd member not_mem_nil

/-- Newest-wins, over every run of puts whose keys the memtable can order: the run
completes and every search returns the record of the latest put of its key, or
`-ENODATA` for a key that was never put. -/
theorem newestWins_of_putsSafe (env : LsmEnv R H S V) (lawful : env.Lawful) (cap : Nat)
    (stats : Nat → FileStat S) (puts : List (Nat × V))
    (safe : PutsMeet env (PutSafe env cap) (lsmTreeCreate env cap stats) puts) :
    NewestWins env (lsmTreeCreate env cap stats) puts := by
  have runs := (treeInv_lsmTreeCreate env cap stats).runPuts lawful.exact.faithful
    (Nat.succ_pos _) safe
  obtain ⟨last, ran⟩ := runs.completes lawful
  obtain ⟨job, look, inv, -, bound⟩ := runs.meets last ran
  refine ⟨last, ran, fun key => ?_⟩
  rw [inv.search lawful.exact, bound, boundTo_init _ rfl, or_none]

def listEnv : LsmEnv (BinaryTree (Nat × Nat))
    (SortedList (MergeNode (FileStat (List (Nat × Nat))) Nat) MergeNode.key)
    (List (Nat × Nat)) Nat where
  tree := plainTree _
  heap := sortedListHeap _
  files := listFiles Nat
  freed := .intact

theorem listEnv_lawful : listEnv.Lawful :=
  ⟨listFiles_exact, fun _ _ _ => ⟨rfl, rfl⟩⟩

/-- A new tree of `listEnv`. -/
def listTree (cap : Nat) : LsmTree (BinaryTree (Nat × Nat)) (List (Nat × Nat)) :=
  lsmTreeCreate listEnv cap fun id => ⟨id, 0, 0, 0, 0, []⟩

theorem lsmTreePut_listEnv {t : LsmTree (BinaryTree (Nat × Nat)) (List (Nat × Nat))}
    (root : BinaryTree (Nat × Nat)) (size : Nat) (memtable : t.memtable = ⟨root, size⟩)
    (put : Nat × Nat) (small : size + 1 < defaultLsmFileCapacity)
    (missed : descend (memtableEntryCmpRb put.1) root = none) :
    lsmTreePut listEnv t put.1 put.2 =
      some { t with memtable := ⟨linkBy (memtableEntryCmpRb put.1) put root, size + 1⟩ } := by
  have inserted : rbtreeMemtablePut listEnv.tree t.memtable put.1 put.2 =
      (none, ⟨linkBy (memtableEntryCmpRb put.1) put root, size + 1⟩) := by
    rw [memtable, rbtreeMemtablePut, putLoop_of_missed listEnv.tree missed]
    rfl
  unfold lsmTreePut
  simp only [inserted]
  rw [if_neg (not_le.mpr small)]

theorem levels_listTree (cap : Nat) : (listTree cap).levels =
    [bitLevelInit 0 defaultLsmLevel0NrFile,
      bitLevelInit 1 (totalBit 2 lsmTreeDiskLevelCommonRatio cap)] :=
  (treeInv_lsmTreeCreate listEnv cap _).levels

theorem putAllowed_listTree {cap : Nat} {memtable : Memtable (BinaryTree (Nat × Nat))}
    {put : Nat × Nat} (below : put.1 < cap) :
    PutAllowed listEnv cap { listTree cap with memtable := memtable } put := by
  refine ⟨below, ?_⟩
  rintro ⟨-, level0, head, full⟩
  rw [levels_listTree] at head
  cases head
  cases full

/-- The tree after the puts of keys `0` and `2 ^ 31`.  Their difference does not fit
an `int`: the second node is linked to the left of the first. -/
theorem runPuts_wrapped (cap : Nat) :
    lsmTreePut listEnv (listTree cap) 0 7 =
        some { listTree cap with memtable := ⟨.node (0, 7) .nil .nil, 1⟩ } ∧
      lsmTreePut listEnv { listTree cap with memtable := ⟨.node (0, 7) .nil .nil, 1⟩ } (2 ^ 31) 9 =
        some { listTree cap with
          memtable := ⟨.node (0, 7) (.node (2 ^ 31, 9) .nil .nil) .nil, 2⟩ } := by
  constructor
  · rw [lsmTreePut_listEnv .nil 0 rfl (0, 7) (by decide) rfl]
    rfl
  · rw [lsmTreePut_listEnv (.node (0, 7) .nil .nil) 1 rfl (2 ^ 31, 9) (by decide) (by decide)]
    rfl

theorem searchLevels_listTree (cap key : Nat) :
    searchLevels (bitFileSearch listEnv.files) key (listTree cap).levels = .error .enodata := by
  rw [levels_listTree]
  simp only [searchLevels, bitLevelSearch, bitLevelInit, bitLevelLinearSearch, orNoData,
    bitLevelLocateFile, length_nil, foldl_nil, if_true, one_ne_zero, if_false]
  rw [bsearch, if_neg (lt_irrefl _)]

theorem wrapped_key_lost {cap : Nat} (big : 2 ^ 31 < cap) :
    PutsMeet listEnv (PutAllowed listEnv cap) (listTree cap) [(0, 7), (2 ^ 31, 9)] ∧
      ¬ NewestWins listEnv (listTree cap) [(0, 7), (2 ^ 31, 9)] := by
  obtain ⟨first, second⟩ := runPuts_wrapped cap
  constructor
  · refine ⟨putAllowed_listTree (Nat.zero_lt_of_lt big), fun next ran => ?_⟩
    obtain rfl := some.inj (first.symm.trans ran)
    exact ⟨putAllowed_listTree big, fun _ _ => trivial⟩
  · rintro ⟨last, ran, wins⟩
    rw [runPuts, first, bind_some, runPuts, second, bind_some, runPuts] at ran
    obtain rfl := some.inj ran
    have searched := wins (2 ^ 31)
    rw [lsmTreeSearch, lsmTreeSearchWith] at searched
    have missed : rbtreeMemtableGet listEnv.tree
        ⟨.node (0, 7) (.node (2 ^ 31, 9) .nil .nil) .nil, 2⟩ (2 ^ 31) = .error .enodata := rfl
    simp only [missed] at searched
    rw [searchLevels_listTree] at searched
    cases searched

/-- On a device with `2 ^ 21 + 1` segments of 1024 blocks. -/
theorem not_newestWins_wrapped_key :
    PutsMeet listEnv (PutAllowed listEnv (2 ^ 31 + 1024)) (listTree (2 ^ 31 + 1024))
        [(0, 7), (2 ^ 31, 9)] ∧
      ¬ NewestWins listEnv (listTree (2 ^ 31 + 1024)) [(0, 7), (2 ^ 31, 9)] :=
  wrapped_key_lost (by decide)

end SwornDisk.C
