import SwornDisk.C.LsmTree

/-!
# Runs that fill the memtable

Puts of keys that compare greater than all before them stay in the memtable until it is full;
the put that fills it writes them to one file of level zero, in the order of the puts.  The keys
need not ascend: where `memtable_entry_cmp` wraps, a key is walked last that is not the greatest,
and the first key of the file may be above its last.
-/

namespace SwornDisk.C

open Lib List Option

variable {held : List (FileStat (List (Nat × Nat)))} {count : Nat}

variable {R H S V : Type}

section

variable {env : LsmEnv R H S V} {t : LsmTree R S} {entries : List (Nat × V)}

theorem runPuts_append (env : LsmEnv R H S V) (t : LsmTree R S) (puts more : List (Nat × V)) :
    runPuts env t (puts ++ more) = (runPuts env t puts).bind (runPuts env · more) := by
  induction puts generalizing t with
  | nil => rfl
  | cons put puts ih =>
    rw [cons_append, runPuts, runPuts, Option.bind_assoc]
    congr 1
    funext next
    exact ih next

theorem putsMeet_append {condition : LsmTree R S → Nat × V → Prop} {puts more : List (Nat × V)}
    (first : PutsMeet env condition t puts)
    (second : ∀ next, runPuts env t puts = some next → PutsMeet env condition next more) :
    PutsMeet env condition t (puts ++ more) := by
  induction puts generalizing t with
  | nil => exact second t rfl
  | cons put puts ih =>
    refine ⟨first.1, fun next ran => ih (first.2 next ran) fun last ranOn => second last ?_⟩
    rw [runPuts, ran, bind_some]
    exact ranOn

theorem comparable_of_small {key : Nat} (small : key < 2 ^ 31)
    (allSmall : ∀ entry ∈ entries, entry.1 < 2 ^ 31) : Comparable key entries := by
  intro entry member
  have := allSmall entry member
  constructor <;> omega

end

def Following (entries : List (Nat × Nat)) : Prop :=
  entries.Pairwise fun earlier later => memtableEntryCmpRb later.1 earlier = .gt

/-- `memtable_entry_cmp` puts a key behind one that it exceeds by less than `2 ^ 31`, and behind
one that exceeds it by more. -/
theorem memtableEntryCmpRb_gt {key : Nat} {entry : Nat × Nat}
    (side : (entry.1 < key ∧ key < entry.1 + 2 ^ 31) ∨
      (key + 2 ^ 31 < entry.1 ∧ entry.1 < key + 2 ^ 32)) :
    memtableEntryCmpRb key entry = .gt := by
  apply compare_gt_iff_gt.mpr
  unfold memtableEntryCmp
  rw [Int.bmod_def]
  split
  · omega
  · omega

theorem following_of_ascending {entries : List (Nat × Nat)} (ascending : Ascending entries)
    (small : ∀ entry ∈ entries, entry.1 < 2 ^ 31) : Following entries := by
  refine ascending.imp_of_mem fun {earlier later} _ isLater less => ?_
  have := small later isLater
  exact memtableEntryCmpRb_gt (.inl ⟨less, by omega⟩)

theorem descend_of_gt {α : Type} {dir : α → Ordering} {t : BinaryTree α}
    (after : ∀ entry ∈ inorder t, dir entry = .gt) : descend dir t = none := by
  induction t with
  | nil => rfl
  | node entry left right _ ihRight =>
    rw [descend, after entry (by simp [inorder])]
    exact ihRight fun later member => after later (by simp [inorder, member])

theorem inorder_linkBy_of_gt {α : Type} {dir : α → Ordering} {t : BinaryTree α} (new : α)
    (after : ∀ entry ∈ inorder t, dir entry = .gt) :
    inorder (linkBy dir new t) = inorder t ++ [new] := by
  induction t with
  | nil => rfl
  | node entry left right _ ihRight =>
    rw [linkBy, after entry (by simp [inorder])]
    simp only [inorder]
    rw [ihRight fun later member => after later (by simp [inorder, member]), append_assoc]
    rfl

section

variable {cap : Nat} {t : LsmTree (BinaryTree (Nat × Nat)) (List (Nat × Nat))}
  {entries : List (Nat × Nat)} {put : Nat × Nat}

theorem lsmTreePut_following {root : BinaryTree (Nat × Nat)} {count : Nat}
    (following : Following (inorder root ++ [put])) :
    ∃ next, inorder next = inorder root ++ [put] ∧
      lsmTreePut listEnv { t with memtable := ⟨root, count⟩ } put.1 put.2 =
        if defaultLsmFileCapacity ≤ count + 1 then
          lsmTreeMinorCompaction listEnv { t with memtable := ⟨next, count + 1⟩ }
        else some { t with memtable := ⟨next, count + 1⟩ } := by
  have after : ∀ entry ∈ inorder root, memtableEntryCmpRb put.1 entry = .gt := fun entry member =>
    (pairwise_append.mp following).2.2 entry member put mem_cons_self
  have inserted : rbtreeMemtablePut listEnv.tree ⟨root, count⟩ put.1 put.2 =
      (none, ⟨linkBy (memtableEntryCmpRb put.1) put root, count + 1⟩) := by
    rw [rbtreeMemtablePut, putLoop_of_missed listEnv.tree (descend_of_gt after)]
    rfl
  refine ⟨linkBy (memtableEntryCmpRb put.1) put root, inorder_linkBy_of_gt put after, ?_⟩
  unfold lsmTreePut
  simp only [inserted]

section

variable (fresh : t.memtable = rbtreeMemtableInit listEnv.tree) (following : Following entries)
include fresh following

theorem runPuts_following (short : entries.length < defaultLsmFileCapacity) :
    ∃ root, inorder root = entries ∧
      runPuts listEnv t entries = some { t with memtable := ⟨root, entries.length⟩ } := by
  induction entries using reverseRecOn with
  | nil =>
    refine ⟨.nil, rfl, ?_⟩
    rw [runPuts]
    exact congrArg (fun memtable => some { t with memtable := memtable }) fresh
  | append_singleton entries put ih =>
    rw [length_append, length_singleton] at short
    obtain ⟨root, rfl, ran⟩ := ih (pairwise_append.mp following).1 (by omega)
    obtain ⟨next, walk, putEq⟩ := lsmTreePut_following (t := t) following
    refine ⟨next, walk, ?_⟩
    rw [runPuts_append, ran, bind_some, runPuts, putEq, if_neg (not_le.mpr short),
      bind_some, runPuts, length_append, length_singleton]

theorem runPuts_batch (full : entries.length = defaultLsmFileCapacity) :
    ∃ memtable, rbtreeMemtableGetAllEntry listEnv.tree memtable = entries ∧
      memtable.size = entries.length ∧
      runPuts listEnv t entries =
        lsmTreeMinorCompaction listEnv { t with memtable := memtable } := by
  have some : entries ≠ [] := by
    apply ne_nil_of_length_pos
    rw [full]
    exact Nat.succ_pos _
  obtain ⟨init, last, rfl⟩ : ∃ init last, entries = init ++ [last] :=
    ⟨entries.dropLast, entries.getLast some, (dropLast_append_getLast some).symm⟩
  rw [length_append, length_singleton] at full
  obtain ⟨root, rfl, ran⟩ := runPuts_following fresh (pairwise_append.mp following).1 (by omega)
  obtain ⟨next, walk, putEq⟩ := lsmTreePut_following (t := t) following
  refine ⟨⟨next, (inorder root).length + 1⟩, walk, by simp, ?_⟩
  rw [runPuts_append, ran, bind_some, runPuts, putEq, if_pos full.ge]
  exact bind_fun_some _

/-- Before the minor compaction only the memtable changes, so a condition on the levels and the
entries in the memtable holds at every put if it holds at the first. -/
theorem putsMeet_batch
    {condition : LsmTree (BinaryTree (Nat × Nat)) (List (Nat × Nat)) → Nat × Nat → Prop}
    (full : entries.length ≤ defaultLsmFileCapacity) (each : ∀ put ∈ entries, ∀ memtable,
      (∀ held ∈ rbtreeMemtableGetAllEntry listEnv.tree memtable, held ∈ entries) →
        condition { t with memtable := memtable } put) : PutsMeet listEnv condition t entries := by
  induction entries using reverseRecOn with
  | nil => trivial
  | append_singleton entries put ih =>
    rw [length_append, length_singleton] at full
    have before := (pairwise_append.mp following).1
    refine putsMeet_append (ih before (by omega) fun other member memtable within =>
      each other (mem_append_left _ member) memtable fun held inside =>
        mem_append_left _ (within held inside)) fun next ran => ⟨?_, fun _ _ => trivial⟩
    obtain ⟨root, rfl, same⟩ := runPuts_following fresh before (by omega)
    obtain rfl := some.inj (same.symm.trans ran)
    exact each put (mem_append_right _ mem_cons_self) _ fun held inside =>
      mem_append_left _ inside

end

/-- The file is what a builder makes of `entries`. -/
structure BuiltFrom (entries : List (Nat × Nat)) (file : FileStat (List (Nat × Nat))) : Prop where
  firstKey_eq : file.firstKey = (entries.head?.map Prod.fst).getD 0
  lastKey_eq : file.lastKey = (entries.getLast?.map Prod.fst).getD 0
  store_eq : file.store = entries

def levelZero (files : List (FileStat S)) : BitLevel S :=
  { (bitLevelInit 0 defaultLsmLevel0NrFile : BitLevel S) with bitFiles := files }

/-- Level zero holds `held`, and level one is empty. -/
structure Stacked (cap : Nat) (t : LsmTree (BinaryTree (Nat × Nat)) (List (Nat × Nat)))
    (held : List (FileStat (List (Nat × Nat)))) : Prop where
  fresh : t.memtable = rbtreeMemtableInit listEnv.tree
  levels : ∃ files, files.Perm held ∧
    t.levels = [levelZero files, bitLevelInit 1 (totalBit 2 lsmTreeDiskLevelCommonRatio cap)]
  catalogue : CatalogueHolds t.catalogue (held.map FileStat.id)
  nrSegment : t.catalogue.bitValidityTable.nrSegment =
    2 * (filesFor cap + defaultLsmLevel0NrFile)

theorem stacked_listTree (cap : Nat) : Stacked cap (listTree cap) [] where
  fresh := rfl
  levels := ⟨[], Perm.refl _, levels_listTree cap⟩
  catalogue := (treeInv_lsmTreeCreate listEnv cap _).disk.catalogue
  nrSegment := (treeInv_lsmTreeCreate listEnv cap _).disk.nrSegment

theorem flushMemtable_listEnv {level0 : BitLevel (List (Nat × Nat))}
    {rest : List (BitLevel (List (Nat × Nat)))} {ids : List Nat}
    (levels : t.levels = level0 :: rest) (holds : CatalogueHolds t.catalogue ids)
    (room : ids.length < t.catalogue.bitValidityTable.nrSegment)
    (walk : rbtreeMemtableGetAllEntry listEnv.tree t.memtable = entries) :
    ∃ next file, flushMemtable listEnv t = some next ∧ BuiltFrom entries file ∧
      next.memtable = rbtreeMemtableInit listEnv.tree ∧
      next.levels = withFile level0 file :: rest ∧
      CatalogueHolds next.catalogue (file.id :: ids) ∧
      next.catalogue.bitValidityTable.nrSegment = t.catalogue.bitValidityTable.nrSegment ∧
      file.version = t.catalogue.maxVersion ∧ file.version < next.catalogue.maxVersion := by
  obtain ⟨opened, fd, ok, openedHolds, nextVersion, sameNr⟩ :=
    openBuilder_of_room holds room (V := Nat) 0
  generalize isFile : bitBuilderComplete listEnv.files
    (⟨fd, 0, t.catalogue.maxVersion, entries⟩ : BitBuilder Nat) = file
  have built : BuiltFrom entries file := by
    subst isFile
    exact ⟨rfl, rfl, rfl⟩
  have id_eq : file.id = fd := by
    subst isFile
    rfl
  have version_eq : file.version = t.catalogue.maxVersion := by
    subst isFile
    rfl
  refine ⟨{ catalogue := bitcSetFileStats opened file.id file
            memtable := rbtreeMemtableInit listEnv.tree
            levels := withFile level0 file :: rest }, file, ?_, built, rfl, rfl, ?_, sameNr,
    version_eq, ?_⟩
  · simp only [flushMemtable, levels, getElem?_cons_zero, ok, walk,
      foldl_bitBuilderAddEntry, nil_append, isFile, set_cons_zero]
  · rw [id_eq]
    exact openedHolds.setFileStats fd file
  · change file.version < opened.maxVersion
    rw [version_eq, nextVersion]
    exact Nat.lt_succ_self _

variable (stacked : Stacked cap t held)
include stacked

theorem Stacked.batch (few : held.length < defaultLsmLevel0NrFile) (following : Following entries)
    (full : entries.length = defaultLsmFileCapacity) :
    ∃ next file, runPuts listEnv t entries = some next ∧ BuiltFrom entries file ∧
      Stacked cap next (file :: held) ∧ file.version = t.catalogue.maxVersion ∧
      file.version < next.catalogue.maxVersion := by
  obtain ⟨files, perm, levels⟩ := stacked.levels
  obtain ⟨memtable, walk, -, ran⟩ := runPuts_batch stacked.fresh following full
  have notFull : bitLevelIsFull (levelZero files) = false := by
    rw [← perm.length_eq] at few
    exact decide_eq_false (not_le.mpr few)
  obtain ⟨next, file, flushed, built, fresh, nextLevels, catalogue, sameNr, versions⟩ :=
    flushMemtable_listEnv (t := { t with memtable := memtable }) levels stacked.catalogue
      (by
        rw [length_map, stacked.nrSegment]
        simp only [defaultLsmLevel0NrFile] at few ⊢
        omega) walk
  obtain ⟨added, addedEq, addedPerm, -⟩ := withFile_of_room
    (l := levelZero files) file (by
      rw [← perm.length_eq] at few
      simp only [levelZero, bitLevelInit, defaultLsmLevel0NrFile] at few ⊢
      omega)
  refine ⟨next, file, ?_, built, ⟨fresh, ⟨added, addedPerm.trans (perm.cons file), ?_⟩, catalogue,
    sameNr.trans stacked.nrSegment⟩, versions⟩
  · rw [ran]
    exact (lsmTreeMinorCompaction_of_room (t := { t with memtable := memtable }) levels
      notFull).trans flushed
  · rw [nextLevels, addedEq]
    rfl

theorem Stacked.putAllowed (below : put.1 < cap) (memtable : Memtable (BinaryTree (Nat × Nat))) :
    PutAllowed listEnv cap { t with memtable := memtable } put := by
  refine ⟨below, fun _ last isLast => ?_⟩
  obtain ⟨files, -, levels⟩ := stacked.levels
  rw [levels] at isLast
  obtain rfl := some.inj isLast
  rfl

theorem Stacked.putsAllowed (following : Following entries)
    (full : entries.length = defaultLsmFileCapacity) (below : ∀ put ∈ entries, put.1 < cap) :
    PutsMeet listEnv (PutAllowed listEnv cap) t entries :=
  putsMeet_batch stacked.fresh following full.le fun put member memtable _ =>
    stacked.putAllowed (below put member) memtable

theorem Stacked.putsSafe (ascending : Ascending entries)
    (small : ∀ entry ∈ entries, entry.1 < 2 ^ 31) (full : entries.length = defaultLsmFileCapacity)
    (below : ∀ put ∈ entries, put.1 < cap) : PutsMeet listEnv (PutSafe listEnv cap) t entries :=
  putsMeet_batch stacked.fresh (following_of_ascending ascending small) full.le
    fun put member memtable within => ⟨stacked.putAllowed (below put member) memtable,
      comparable_of_small (small put member) fun entry inside => small entry (within entry inside)⟩

end

/-- One value under `count` consecutive keys. -/
def filling (first count val : Nat) : List (Nat × Nat) :=
  (List.range' first count).map fun key => (key, val)

section

variable {first val : Nat} {entry : Nat × Nat}

theorem ascending_filling (first count val : Nat) : Ascending (filling first count val) := by
  rw [Ascending, filling, pairwise_map]
  exact pairwise_lt_range'

theorem length_filling (first count val : Nat) : (filling first count val).length = count := by
  rw [filling, length_map, length_range']

theorem mem_filling (member : entry ∈ filling first count val) :
    (first ≤ entry.1 ∧ entry.1 < first + count) ∧ entry.2 = val := by
  obtain ⟨key, inRange, rfl⟩ := mem_map.mp member
  exact ⟨mem_range'_1.mp inRange, rfl⟩

theorem lt_of_mem_filling (member : entry ∈ filling 0 count val) : entry.1 < count :=
  Nat.zero_add count ▸ (mem_filling member).1.2

theorem zero_mem_filling (positive : 0 < count) (val : Nat) : (0, val) ∈ filling 0 count val :=
  mem_map.mpr ⟨0, mem_range'_1.mpr ⟨le_rfl, by omega⟩, rfl⟩

theorem following_filling (small : first + count ≤ 2 ^ 31) (val : Nat) :
    Following (filling first count val) := by
  apply following_of_ascending (ascending_filling first count val)
  intro put member
  have := (mem_filling member).1.2
  omega

end

section

variable {t : LsmTree (BinaryTree (Nat × Nat)) (List (Nat × Nat))}
  (full : count = defaultLsmFileCapacity)
include full

theorem Stacked.putsSafe_filling (stacked : Stacked count t held) (val : Nat) :
    PutsMeet listEnv (PutSafe listEnv count) t (filling 0 count val) :=
  stacked.putsSafe (ascending_filling 0 count val)
    (fun _ member => (lt_of_mem_filling member).trans (by rw [full]; decide))
    ((length_filling 0 count val).trans full) fun _ member => lt_of_mem_filling member

theorem Stacked.round (stacked : Stacked count t held)
    (few : held.length < defaultLsmLevel0NrFile) (val : Nat) :
    PutsMeet listEnv (PutSafe listEnv count) t (filling 0 count val) ∧
      ∃ next file, runPuts listEnv t (filling 0 count val) = some next ∧
        BuiltFrom (filling 0 count val) file ∧ Stacked count next (file :: held) ∧
        file.version = t.catalogue.maxVersion ∧ file.version < next.catalogue.maxVersion :=
  ⟨stacked.putsSafe_filling full val,
    stacked.batch few (following_filling (by rw [full]; decide) val)
      ((length_filling 0 count val).trans full)⟩

end

/-- Every key below `count` is put, `n` times over. -/
def rounds (count : Nat) : Nat → List (Nat × Nat)
  | 0 => []
  | n + 1 => rounds count n ++ filling 0 count (n + 1)

section

variable (full : count = defaultLsmFileCapacity)
include full

theorem stacked_rounds {n : Nat} (few : n ≤ defaultLsmLevel0NrFile) :
    PutsMeet listEnv (PutSafe listEnv count) (listTree count) (rounds count n) ∧
      ∃ t held, runPuts listEnv (listTree count) (rounds count n) = some t ∧
        Stacked count t held ∧ held.length = n := by
  induction n with
  | zero => exact ⟨trivial, listTree count, [], rfl, stacked_listTree count, rfl⟩
  | succ n ih =>
    obtain ⟨safe, t, held, ran, stacked, isLength⟩ := ih (Nat.le_of_succ_le few)
    obtain ⟨safeHere, next, file, ranOn, -, nextStacked, -⟩ :=
      stacked.round full (isLength.trans_lt few) (n + 1)
    refine ⟨putsMeet_append safe fun other ranOther => ?_, next, file :: held, ?_, nextStacked,
      congrArg (· + 1) isLength⟩
    · obtain rfl := some.inj (ran.symm.trans ranOther)
      exact safeHere
    · rw [rounds, runPuts_append, ran, bind_some, ranOn]

theorem fifth_round_merges :
    PutsMeet listEnv (PutSafe listEnv count) (listTree count) (rounds count 5) ∧
      ∃ last, runPuts listEnv (listTree count) (rounds count 5) = some last ∧
        ∃ level ∈ last.levels, level.level = 1 ∧ level.bitFiles ≠ [] := by
  obtain ⟨safe, t, held, ran, stacked, isLength⟩ := stacked_rounds full (le_refl 4)
  have start := treeInv_lsmTreeCreate listEnv count fun id => ⟨id, 0, 0, 0, 0, []⟩
  obtain ⟨job, look, inv, -⟩ :=
    (start.runPuts listFiles_exact.faithful (Nat.succ_pos _) safe).meets t ran
  obtain ⟨memtable, walk, size, batch⟩ := runPuts_batch stacked.fresh
    (following_filling (by rw [full]; decide) 5) ((length_filling 0 count 5).trans full)
  have filled : TreeInv listEnv count { t with memtable := memtable } job look := by
    refine ⟨inv.levels, inv.catalogue, inv.disk, ⟨?_, size.trans (congrArg _ walk.symm)⟩, ?_⟩
    · rw [walk]
      exact ascending_filling 0 count 5
    · rw [walk]
      exact fun entry member => lt_of_mem_filling member
  obtain ⟨files, perm, levels⟩ := stacked.levels
  obtain ⟨isZero, isOne⟩ : job.level1 = levelZero files ∧ job.level2 = _ := by
    have same := inv.levels.symm.trans levels
    exact ⟨(cons.inj same).1, (cons.inj (cons.inj same).2).1⟩
  have level0Full : bitLevelIsFull job.level1 = true := by
    rw [isZero]
    exact decide_eq_true (perm.length_eq.trans isLength).ge
  have runs := filled.minorCompaction listFiles_exact.faithful
    (size.trans ((length_filling 0 count 5).trans full)) fun _ => by rw [isOne]; rfl
  obtain ⟨last, ranOn⟩ := runs.completes listEnv_lawful
  obtain ⟨job', lastInv, -, nonempty⟩ := runs.meets last ranOn
  refine ⟨putsMeet_append safe fun other ranOther => ?_, last, ?_, job'.level2, ?_,
    lastInv.disk.shape1.level_eq, nonempty level0Full⟩
  · obtain rfl := some.inj (ran.symm.trans ranOther)
    exact stacked.putsSafe_filling full 5
  · rw [rounds, runPuts_append, ran, bind_some, batch, ranOn]
  · rw [lastInv.levels]
    exact mem_cons_of_mem _ mem_cons_self

end

/-- Five rounds, the last of which starts a major compaction on the merge path. -/
theorem newestWins_fiveRounds : ∃ count, count = defaultLsmFileCapacity ∧
    NewestWins listEnv (listTree count) (rounds count 5) := by
  obtain ⟨count, full⟩ : ∃ count, count = defaultLsmFileCapacity := ⟨_, rfl⟩
  exact ⟨count, full, newestWins_of_putsSafe listEnv listEnv_lawful count _ _
    (fifth_round_merges full).1⟩

end SwornDisk.C
