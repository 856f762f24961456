import SwornDisk.C.Catalogue
import SwornDisk.C.Memtable
import SwornDisk.Lib.BinarySearch
import SwornDisk.Lib.KWayMerge

/-!
# Levels of the LSM tree

`struct bit_level` of `lsm_tree.c`: the files of one disk level in the order of
their key ranges.  Level zero holds one file per full memtable, whose ranges
overlap and whose age is their version; the files of a deeper level are disjoint
and are found by binary search.

Searches take the file search as a parameter, `probe`, so that what they do to
the answers of the files is separate from whether those answers are right.
-/

namespace SwornDisk.C

open Lib List

variable {S V : Type}

def defaultLsmLevel0NrFile : Nat := 4

/-- `DEFAULT_LSM_FILE_CAPACITY`, which is also `DEFAULT_MEMTABLE_CAPACITY`. -/
def defaultLsmFileCapacity : Nat := 1048576

/-- `struct bit_level`; `bitFiles` are the first `size` elements of the array. -/
structure BitLevel (S : Type) where
  level : Nat
  capacity : Nat
  maxSize : Nat
  bitFiles : List (FileStat S)

def bitLevelInit (level capacity : Nat) : BitLevel S where
  level := level
  capacity := capacity
  maxSize := 2 * capacity + defaultLsmLevel0NrFile
  bitFiles := []

section

variable (l : BitLevel S)

def bitLevelIsFull : Bool :=
  decide (l.capacity ≤ l.bitFiles.length)

/-- `bit_file_cmp`, in 64 bits. -/
def bitFileCmp (file1 file2 : FileStat S) : Int :=
  if file1.firstKey = file2.firstKey then (file1.lastKey : Int) - file2.lastKey
  else (file1.firstKey : Int) - file2.firstKey

/-- The file at `i` is before `file` in the order of the level. -/
def fileBelow (files : List (FileStat S)) (file : FileStat S) (i : Nat) : Bool :=
  match files[i]? with
  | some other => decide (bitFileCmp other file < 0)
  | none => false

/-- `bit_level_search_file`: where a file belongs in the level. -/
def bitLevelSearchFile (file : FileStat S) : Nat :=
  match l.bitFiles.head?, l.bitFiles.getLast? with
  | some first, some last =>
    if 0 ≤ bitFileCmp first file then 0
    else if bitFileCmp last file ≤ 0 then l.bitFiles.length
    else partitionPoint (fileBelow l.bitFiles file) 0 (l.bitFiles.length - 1)
  | _, _ => 0

/-- `bit_level_add_file`.  The array has room behind the last element, so the
elements from the position on always move up by one. -/
def bitLevelAddFile (file : FileStat S) : Except Errno (BitLevel S) :=
  if l.maxSize ≤ l.bitFiles.length then
    .error .enospc
  else
    .ok { l with
      bitFiles := l.bitFiles.take (bitLevelSearchFile l file) ++
        file :: l.bitFiles.drop (bitLevelSearchFile l file) }

def bitLevelRemoveFile (id : Nat) : Except Errno (BitLevel S) :=
  if l.bitFiles.any (·.id == id) then
    .ok { l with bitFiles := l.bitFiles.eraseP (·.id == id) }
  else
    .error .einval

/-- `bit_file_cmp_key`: where a key lies from the range of a file. -/
def bitFileCmpKey (key : Nat) (file : FileStat S) : Ordering :=
  if file.firstKey ≤ key ∧ key ≤ file.lastKey then .eq
  else if key < file.firstKey then .lt
  else .gt

/-- `bit_file_cmp_key` on the array. -/
def keySide (files : List (FileStat S)) (key i : Nat) : Ordering :=
  match files[i]? with
  | some file => bitFileCmpKey key file
  | none => .lt

def bitLevelLocateFile (key : Nat) : Option (FileStat S) :=
  match bsearch (keySide l.bitFiles key) 0 l.bitFiles.length with
  | some found => l.bitFiles[found]?
  | none => none

end

section

variable (probe : FileStat S → Nat → Except Errno V)

/-- One file of `bit_level_linear_search`: a file older than the best hit is
skipped, any other answer replaces it. -/
def linearSearchStep (key : Nat) (cur : Nat × Option V) (file : FileStat S) : Nat × Option V :=
  if file.version < cur.1 then cur
  else
    match probe file key with
    | .ok val => (file.version, some val)
    | .error _ => cur

def bitLevelLinearSearch (l : BitLevel S) (key : Nat) : Except Errno V :=
  orNoData (l.bitFiles.foldl (linearSearchStep probe key) (0, none)).2

def bitLevelSearch (l : BitLevel S) (key : Nat) : Except Errno V :=
  if l.level = 0 then bitLevelLinearSearch probe l key
  else
    match bitLevelLocateFile l key with
    | some file => probe file key
    | none => .error .enodata

end

def bitLevelPickDemotedFiles (l : BitLevel S) : List (FileStat S) :=
  if l.level = 0 then l.bitFiles else l.bitFiles.take 1

/-- `bit_level_lower_bound` on a level with files. -/
def bitLevelLowerBound (l : BitLevel S) (first last : FileStat S) (key : Nat) : Nat :=
  if key < first.firstKey then 0
  else if last.lastKey < key then l.bitFiles.length
  else rangeSearch (keySide l.bitFiles key) 0 (l.bitFiles.length - 1)

/-- The least first key of some files, starting from `0xffffffff`. -/
def leastFirstKey (files : List (FileStat S)) : Nat :=
  files.foldl (fun firstKey file => min firstKey file.firstKey) 4294967295

def greatestLastKey (files : List (FileStat S)) : Nat :=
  files.foldl (fun lastKey file => max lastKey file.lastKey) 0

def bitLevelFindRelativeFiles (l : BitLevel S) (files : List (FileStat S)) :
    List (FileStat S) :=
  match l.bitFiles.head?, l.bitFiles.getLast? with
  | some first, some last =>
    if greatestLastKey files < first.firstKey ∨ last.lastKey < leastFirstKey files then []
    else
      (l.bitFiles.drop (bitLevelLowerBound l first last (leastFirstKey files))).takeWhile
        fun file => decide (file.firstKey ≤ greatestLastKey files)
  | _, _ => []

/-! ## The order of the files -/

/-- `file1` may stand before `file2` in a level. -/
def FileLe (file1 file2 : FileStat S) : Prop :=
  bitFileCmp file1 file2 ≤ 0

def Apart (file1 file2 : FileStat S) : Prop :=
  file1.lastKey < file2.firstKey ∨ file2.lastKey < file1.firstKey

variable {f g : FileStat S}

theorem fileLe_iff : FileLe f g ↔
    f.firstKey < g.firstKey ∨ f.firstKey = g.firstKey ∧ f.lastKey ≤ g.lastKey := by
  unfold FileLe bitFileCmp
  split <;> omega

theorem bitFileCmp_nonneg_iff : 0 ≤ bitFileCmp f g ↔ FileLe g f := by
  rw [fileLe_iff]
  unfold bitFileCmp
  split <;> omega

theorem FileLe.trans {h : FileStat S} (left : FileLe f g) (right : FileLe g h) :
    FileLe f h := by
  rw [fileLe_iff] at *
  omega

theorem FileLe.of_not_lt (notLess : ¬ bitFileCmp f g < 0) : FileLe g f :=
  bitFileCmp_nonneg_iff.mp (not_lt.mp notLess)

instance : Std.Symm (Apart (S := S)) where
  symm _ _ apart := Or.symm apart

theorem FileLe.lt_of_apart (le : FileLe f g) (apart : Apart f g) (proper : g.firstKey ≤ g.lastKey) :
    f.lastKey < g.firstKey := by
  rw [fileLe_iff] at le
  rcases apart with below | above
  · exact below
  · omega

variable {files : List (FileStat S)} {i : Nat} {last first : FileStat S}

section

variable {l : BitLevel S} {file : FileStat S}

section

variable (ordered : files.Pairwise FileLe)
include ordered

theorem fileLe_of_head (isHead : files.head? = some first) (member : f ∈ files) :
    f = first ∨ FileLe first f := by
  cases files with
  | nil => cases isHead
  | cons head rest =>
    obtain rfl := Option.some.inj isHead
    rcases mem_cons.mp member with rfl | later
    · exact .inl rfl
    · exact .inr ((pairwise_cons.mp ordered).1 f later)

theorem fileLe_of_getLast (isLast : files.getLast? = some last) (member : f ∈ files) :
    f = last ∨ FileLe f last := by
  obtain ⟨init, rfl⟩ := getLast?_eq_some_iff.mp isLast
  rcases mem_append.mp member with earlier | atEnd
  · exact .inr ((pairwise_append.mp ordered).2.2 f earlier last mem_cons_self)
  · exact .inl (mem_singleton.mp atEnd)

theorem getElem_fileLe {j : Nat} (le : i ≤ j) (bound : j < files.length) :
    files[i] = files[j] ∨ FileLe files[i] files[j] := by
  rcases Nat.lt_or_eq_of_le le with less | rfl
  · exact .inr (pairwise_iff_getElem.mp ordered i j (by omega) bound less)
  · exact .inl rfl

end

theorem fileBelow_eq (bound : i < files.length) :
    fileBelow files file i = decide (bitFileCmp files[i] file < 0) := by
  unfold fileBelow
  rw [getElem?_eq_getElem bound]

theorem bitLevelSearchFile_spec (ordered : l.bitFiles.Pairwise FileLe)
    (bound : i < l.bitFiles.length) :
    (i < bitLevelSearchFile l file → FileLe l.bitFiles[i] file) ∧
      (bitLevelSearchFile l file ≤ i → FileLe file l.bitFiles[i]) := by
  have member : l.bitFiles[i] ∈ l.bitFiles := getElem_mem bound
  unfold bitLevelSearchFile
  split
  · rename_i first last isFirst isLast
    split
    · -- before every file
      rename_i fromFirst
      refine ⟨fun impossible => absurd impossible (Nat.not_lt_zero _), fun _ => ?_⟩
      have below := bitFileCmp_nonneg_iff.mp fromFirst
      rcases fileLe_of_head ordered isFirst member with same | after
      · rw [same]
        exact below
      · exact below.trans after
    · split
      · -- behind every file
        rename_i toLast
        refine ⟨fun _ => ?_, fun impossible => absurd bound (not_lt.mpr impossible)⟩
        rcases fileLe_of_getLast ordered isLast member with same | before
        · rw [same]
          exact toLast
        · exact before.trans toLast
      · rename_i notToLast
        have mono : ∀ i j, i ≤ j → j < l.bitFiles.length - 1 →
            fileBelow l.bitFiles file j = true → fileBelow l.bitFiles file i = true := by
          intro i j le upper isBelow
          rw [fileBelow_eq (by omega), decide_eq_true_iff] at isBelow ⊢
          by_contra notBelow
          rcases getElem_fileLe ordered le (by omega) with same | before
          · rw [same] at notBelow
            exact notBelow isBelow
          · have := (FileLe.of_not_lt notBelow).trans before
            exact absurd isBelow (not_lt.mpr (bitFileCmp_nonneg_iff.mpr this))
        obtain ⟨-, -, before, after⟩ := partitionPoint_spec (Nat.zero_le _) mono
        constructor
        · intro early
          have isBelow := before i (Nat.zero_le _) early
          rw [fileBelow_eq bound, decide_eq_true_iff] at isBelow
          exact isBelow.le
        · intro late
          by_cases inner : i < l.bitFiles.length - 1
          · have notBelow := after i late inner
            rw [fileBelow_eq bound, decide_eq_false_iff_not] at notBelow
            exact FileLe.of_not_lt notBelow
          · have lastFile : l.bitFiles[i] = last := by
              rw [getLast?_eq_getElem?] at isLast
              obtain ⟨_, equal⟩ := List.getElem?_eq_some_iff.mp isLast
              rw [← equal]
              congr 1
              omega
            rw [lastFile]
            exact bitFileCmp_nonneg_iff.mp (not_le.mp notToLast).le
  · rename_i absent
    have nonempty : l.bitFiles ≠ [] := ne_nil_of_length_pos (by omega)
    exact (absent _ _ (head?_eq_some_head nonempty)
      (getLast?_eq_some_getLast nonempty)).elim

end

/-! ## Adding and removing files -/

section

variable {l : BitLevel S}

theorem bitLevelAddFile_ok (file : FileStat S) (room : l.bitFiles.length < l.maxSize) :
    ∃ files, bitLevelAddFile l file = .ok { l with bitFiles := files } ∧
      files.Perm (file :: l.bitFiles) ∧
      (l.bitFiles.Pairwise FileLe → files.Pairwise FileLe) := by
  refine ⟨_, if_neg (not_le.mpr room), ?_, fun ordered => ?_⟩
  · refine perm_middle.trans ?_
    rw [take_append_drop]
  · have before : ∀ f ∈ l.bitFiles.take (bitLevelSearchFile l file), FileLe f file := by
      intro f member
      obtain ⟨i, bound, rfl⟩ := mem_take_iff_getElem.mp member
      exact (bitLevelSearchFile_spec ordered (by omega)).1 (by omega)
    have after : ∀ f ∈ l.bitFiles.drop (bitLevelSearchFile l file), FileLe file f := by
      intro f member
      obtain ⟨i, bound, rfl⟩ := mem_drop_iff_getElem.mp member
      exact (bitLevelSearchFile_spec ordered (by omega)).2 (by omega)
    refine pairwise_append.mpr ⟨ordered.sublist (take_sublist _ _),
      pairwise_cons.mpr ⟨after, ordered.sublist (drop_sublist _ _)⟩, ?_⟩
    intro f inTake g member
    rcases mem_cons.mp member with rfl | inDrop
    · exact before f inTake
    · exact (before f inTake).trans (after g inDrop)

/-- A level after `remove_file`, whose return value the callers ignore. -/
def withoutFile (l : BitLevel S) (id : Nat) : BitLevel S :=
  match bitLevelRemoveFile l id with
  | .ok removed => removed
  | .error _ => l

theorem withoutFile_eq (l : BitLevel S) (id : Nat) :
    withoutFile l id = { l with bitFiles := l.bitFiles.eraseP (·.id == id) } := by
  unfold withoutFile bitLevelRemoveFile
  split
  · rename_i removed done
    split at done
    · exact (Except.ok.inj done).symm
    · cases done
  · rename_i err failed
    split at failed
    · cases failed
    · rename_i absent
      rw [eraseP_of_forall_not]
      intro f member same
      exact absent (any_eq_true.mpr ⟨f, member, same⟩)

theorem eraseP_id_eq_filter (distinct : (files.map FileStat.id).Nodup) (id : Nat) :
    files.eraseP (·.id == id) = files.filter (fun file => file.id != id) := by
  induction files with
  | nil => rfl
  | cons file files ih =>
    obtain ⟨absent, distinctRest⟩ := nodup_cons.mp distinct
    rw [eraseP_cons, filter_cons]
    by_cases same : file.id = id
    · subst same
      have untouched : files.filter (fun other => other.id != file.id) = files := by
        refine filter_eq_self.mpr fun other member => ?_
        refine bne_iff_ne.mpr fun equal => absent ?_
        rw [← equal]
        exact mem_map_of_mem member
      simp [untouched]
    · rw [beq_false_of_ne same, cond_false, ih distinctRest, if_pos (bne_iff_ne.mpr same)]

theorem foldl_withoutFile (distinct : (l.bitFiles.map FileStat.id).Nodup) (ids : List Nat) :
    ids.foldl withoutFile l =
      { l with bitFiles := l.bitFiles.filter fun file => decide (file.id ∉ ids) } := by
  induction ids generalizing l with
  | nil => simp
  | cons id ids ih =>
    have distinctLeft :
        ((l.bitFiles.filter fun file => file.id != id).map FileStat.id).Nodup :=
      distinct.sublist (filter_sublist.map _)
    rw [foldl_cons, withoutFile_eq, eraseP_id_eq_filter distinct, ih distinctLeft]
    simp only [filter_filter]
    congr 1
    refine filter_congr fun file _ => ?_
    rw [Bool.eq_iff_iff]
    simp [and_comm]

end

/-! ## Searches -/

def answers (probe : FileStat S → Nat → Except Errno V) (files : List (FileStat S)) :
    Set (Nat × Nat × V) :=
  {binding | ∃ file ∈ files, binding.1 = file.version ∧
    probe file binding.2.1 = .ok binding.2.2}

variable {file : FileStat S} {seen : List (FileStat S)} {cur : Nat × Option V} {l : BitLevel S}

section

variable {probe : FileStat S → Nat → Except Errno V} {key : Nat}

/-- The best hit so far is the newest answer of the files seen so far. -/
structure LinearInv (probe : FileStat S → Nat → Except Errno V) (key : Nat)
    (seen : List (FileStat S)) (cur : Nat × Option V) : Prop where
  missed : cur.2 = none → cur.1 = 0 ∧ ∀ file ∈ seen, ∀ val, probe file key ≠ .ok val
  hit : ∀ val, cur.2 = some val →
    (∃ file ∈ seen, file.version = cur.1 ∧ probe file key = .ok val) ∧
      ∀ file ∈ seen, ∀ other, probe file key = .ok other → file.version ≤ cur.1

section

variable (inv : LinearInv probe key seen cur)
include inv

theorem LinearInv.skip (older : ∀ val, probe file key = .ok val → file.version < cur.1) :
    LinearInv probe key (seen ++ [file]) cur := by
  constructor
  · intro none
    obtain ⟨zero, missed⟩ := inv.missed none
    refine ⟨zero, fun other member val ok => ?_⟩
    rcases mem_append.mp member with earlier | here
    · exact missed other earlier val ok
    · rw [mem_singleton.mp here] at ok
      have := older val ok
      omega
  · intro val some
    obtain ⟨⟨other, member, found⟩, highest⟩ := inv.hit val some
    refine ⟨⟨other, mem_append_left _ member, found⟩, fun third thirdMember held ok => ?_⟩
    rcases mem_append.mp thirdMember with earlier | here
    · exact highest third earlier held ok
    · rw [mem_singleton.mp here] at ok ⊢
      exact (older held ok).le

theorem LinearInv.take {val : V} (answer : probe file key = .ok val)
    (newer : cur.1 ≤ file.version) :
    LinearInv probe key (seen ++ [file]) (file.version, some val) := by
  refine ⟨nofun, fun newVal some => ?_⟩
  cases some
  refine ⟨⟨file, mem_append_right _ mem_cons_self, rfl, answer⟩, ?_⟩
  intro other member held ok
  rcases mem_append.mp member with earlier | here
  · cases best : cur.2 with
    | none => exact absurd ok ((inv.missed best).2 other earlier held)
    | some old => exact ((inv.hit old best).2 other earlier held ok).trans newer
  · rw [mem_singleton.mp here]

theorem LinearInv.step (file : FileStat S) :
    LinearInv probe key (seen ++ [file]) (linearSearchStep probe key cur file) := by
  unfold linearSearchStep
  split
  · rename_i older
    exact inv.skip fun _ _ => older
  · rename_i notOlder
    split
    · rename_i val answer
      exact inv.take answer (not_lt.mp notOlder)
    · rename_i err answer
      refine inv.skip fun val ok => ?_
      rw [answer] at ok
      cases ok

theorem LinearInv.foldl (files : List (FileStat S)) :
    LinearInv probe key (seen ++ files) (files.foldl (linearSearchStep probe key) cur) := by
  induction files generalizing seen cur with
  | nil => simpa using inv
  | cons file files ih => simpa using ih (inv.step file)

theorem LinearInv.isNewest : IsNewest (answers probe seen) key cur.2 := by
  cases best : cur.2 with
  | none =>
    rintro version val ⟨file, member, -, ok⟩
    exact (inv.missed best).2 file member val ok
  | some val =>
    obtain ⟨⟨file, member, sameVersion, ok⟩, highest⟩ := inv.hit val best
    refine ⟨cur.1, ⟨file, member, sameVersion.symm, ok⟩, ?_⟩
    rintro other held ⟨third, thirdMember, rfl, thirdOk⟩
    exact highest third thirdMember held thirdOk

end

theorem bitLevelLinearSearch_spec (l : BitLevel S) :
    IsNewest (answers probe l.bitFiles) key (bitLevelLinearSearch probe l key).toOption := by
  have start : LinearInv probe key ([] : List (FileStat S)) (0, none) :=
    ⟨fun _ => ⟨rfl, by simp⟩, nofun⟩
  rw [bitLevelLinearSearch, toOption_orNoData]
  exact (start.foldl l.bitFiles).isNewest

structure RangesApart (files : List (FileStat S)) : Prop where
  ordered : files.Pairwise FileLe
  apart : files.Pairwise Apart
  proper : ∀ file ∈ files, file.firstKey ≤ file.lastKey

theorem RangesApart.lt (ranges : RangesApart files) :
    files.Pairwise fun f g => f.lastKey < g.firstKey := by
  refine (ranges.ordered.and ranges.apart).imp_of_mem ?_
  rintro f g - member ⟨le, apart⟩
  exact le.lt_of_apart apart (ranges.proper g member)

theorem keySide_eq (bound : i < files.length) :
    keySide files key i = bitFileCmpKey key files[i] := by
  unfold keySide
  rw [getElem?_eq_getElem bound]

theorem bitFileCmpKey_eq_iff :
    bitFileCmpKey key file = .eq ↔ file.firstKey ≤ key ∧ key ≤ file.lastKey := by
  unfold bitFileCmpKey
  split
  · simp_all
  · split <;> simp_all

theorem bitFileCmpKey_gt (above : bitFileCmpKey key file = .gt) :
    file.lastKey < key := by
  unfold bitFileCmpKey at above
  split at above
  · cases above
  · split at above
    · cases above
    · omega

theorem RangesApart.rangesOrdered (ranges : RangesApart files) (key : Nat) :
    RangesOrdered (keySide files key) files.length := by
  intro i j less bound
  have follows := pairwise_iff_getElem.mp ranges.lt i j (by omega) bound less
  rw [keySide_eq (by omega), keySide_eq bound]
  by_cases above : files[i].lastKey < key
  · left
    unfold bitFileCmpKey
    have := ranges.proper files[i] (getElem_mem _)
    rw [if_neg (by omega), if_neg (by omega)]
  · right
    unfold bitFileCmpKey
    rw [if_neg (by omega), if_pos (by omega)]

theorem eq_of_inRange (apart : files.Pairwise Apart) (fMember : f ∈ files) (gMember : g ∈ files)
    (fRange : f.firstKey ≤ key ∧ key ≤ f.lastKey) (gRange : g.firstKey ≤ key ∧ key ≤ g.lastKey) :
    f = g := by
  by_contra differ
  rcases apart.forall fMember gMember differ with below | above
  · omega
  · omega

theorem bitLevelLocateFile_spec (ranges : RangesApart l.bitFiles) (key : Nat) :
    (∃ file ∈ l.bitFiles, bitLevelLocateFile l key = some file ∧
        file.firstKey ≤ key ∧ key ≤ file.lastKey) ∨
      bitLevelLocateFile l key = none ∧
        ∀ file ∈ l.bitFiles, ¬ (file.firstKey ≤ key ∧ key ≤ file.lastKey) := by
  unfold bitLevelLocateFile
  split
  · rename_i found hit
    obtain ⟨equal, bound⟩ := bsearch_eq_some hit
    rw [zero_add] at bound
    rw [keySide_eq bound, bitFileCmpKey_eq_iff] at equal
    exact .inl ⟨_, getElem_mem bound, getElem?_eq_getElem bound, equal⟩
  · rename_i missed
    refine .inr ⟨rfl, fun file member inRange => ?_⟩
    obtain ⟨i, bound, rfl⟩ := getElem_of_mem member
    have ordered := ranges.rangesOrdered key
    rw [← Nat.zero_add l.bitFiles.length] at ordered
    refine bsearch_eq_none ordered missed i (Nat.zero_le _) (by omega) ?_
    rw [keySide_eq bound, bitFileCmpKey_eq_iff]
    exact inRange

def AnswersInRange (probe : FileStat S → Nat → Except Errno V) (files : List (FileStat S)) :
    Prop :=
  ∀ file ∈ files, ∀ key val, probe file key = .ok val →
    file.firstKey ≤ key ∧ key ≤ file.lastKey

theorem bitLevelSearch_spec
    (deep : l.level ≠ 0 → RangesApart l.bitFiles ∧ AnswersInRange probe l.bitFiles) :
    IsNewest (answers probe l.bitFiles) key (bitLevelSearch probe l key).toOption := by
  unfold bitLevelSearch
  split
  · exact bitLevelLinearSearch_spec l
  · rename_i isDeep
    obtain ⟨ranges, inRange⟩ := deep isDeep
    rcases bitLevelLocateFile_spec ranges key with ⟨file, member, located, range⟩ | ⟨missed, none⟩
    · -- Any file that answers has the key in its range and so is this one.
      have only : ∀ version val, (version, key, val) ∈ answers probe l.bitFiles →
          version = file.version ∧ probe file key = .ok val := by
        rintro version val ⟨other, otherMember, rfl, ok⟩
        obtain rfl := eq_of_inRange ranges.apart otherMember member
          (inRange other otherMember _ _ ok) range
        exact ⟨rfl, ok⟩
      simp only [located]
      cases answer : probe file key with
      | error err =>
        intro version val bound
        have := (only version val bound).2
        rw [answer] at this
        cases this
      | ok val =>
        refine ⟨file.version, ⟨file, member, rfl, answer⟩, fun other held bound => ?_⟩
        exact (only other held bound).1.le
    · simp only [missed]
      rintro version val ⟨file, member, -, ok⟩
      exact none file member (inRange file member _ _ ok)

end

/-! ## Relative files -/

section

variable {l : BitLevel S} {files : List (FileStat S)}

section

variable (files) (start : Nat)

theorem foldl_min_le :
    files.foldl (fun firstKey file => min firstKey file.firstKey) start ≤ start ∧
      ∀ file ∈ files,
        files.foldl (fun firstKey file => min firstKey file.firstKey) start ≤ file.firstKey := by
  induction files generalizing start with
  | nil => simp
  | cons head rest ih =>
    obtain ⟨belowStart, belowRest⟩ := ih (min start head.firstKey)
    rw [foldl_cons]
    refine ⟨belowStart.trans (min_le_left _ _), fun file member => ?_⟩
    rcases mem_cons.mp member with rfl | later
    · exact belowStart.trans (min_le_right _ _)
    · exact belowRest file later

theorem le_foldl_max :
    start ≤ files.foldl (fun lastKey file => max lastKey file.lastKey) start ∧
      ∀ file ∈ files,
        file.lastKey ≤ files.foldl (fun lastKey file => max lastKey file.lastKey) start := by
  induction files generalizing start with
  | nil => simp
  | cons head rest ih =>
    obtain ⟨aboveStart, aboveRest⟩ := ih (max start head.lastKey)
    rw [foldl_cons]
    refine ⟨(le_max_left _ _).trans aboveStart, fun file member => ?_⟩
    rcases mem_cons.mp member with rfl | later
    · exact (le_max_right _ _).trans aboveStart
    · exact aboveRest file later

end

theorem leastFirstKey_le (member : file ∈ files) :
    leastFirstKey files ≤ file.firstKey :=
  (foldl_min_le files _).2 file member

theorem le_greatestLastKey (member : file ∈ files) :
    file.lastKey ≤ greatestLastKey files :=
  (le_foldl_max files _).2 file member

theorem RangesApart.firstKey_le (ranges : RangesApart files) (isFirst : files.head? = some first)
    (member : file ∈ files) :
    first.firstKey ≤ file.firstKey := by
  rcases fileLe_of_head ranges.ordered isFirst member with rfl | le
  · exact le_rfl
  · rw [fileLe_iff] at le
    omega

theorem RangesApart.le_lastKey (ranges : RangesApart files) (isLast : files.getLast? = some last)
    (member : file ∈ files) :
    file.lastKey ≤ last.lastKey := by
  obtain ⟨init, rfl⟩ := getLast?_eq_some_iff.mp isLast
  rcases mem_append.mp member with earlier | atEnd
  · have below := (pairwise_append.mp ranges.lt).2.2 file earlier last mem_cons_self
    exact below.le.trans (ranges.proper last (by simp))
  · rw [mem_singleton.mp atEnd]

theorem bitLevelLowerBound_spec (ranges : RangesApart l.bitFiles) (first : FileStat S)
    (isLast : l.bitFiles.getLast? = some last) (key : Nat) :
    ∀ file ∈ l.bitFiles.take (bitLevelLowerBound l first last key), file.lastKey < key := by
  intro file member
  obtain ⟨i, bound, rfl⟩ := mem_take_iff_getElem.mp member
  have inside : i < l.bitFiles.length := by omega
  have early : i < bitLevelLowerBound l first last key := by omega
  unfold bitLevelLowerBound at early
  split at early
  · omega
  · split at early
    · rename_i beyond
      exact (ranges.le_lastKey isLast (getElem_mem inside)).trans_lt beyond
    · have above := rangeSearch_spec (by omega) (ranges.rangesOrdered key)
        (fun j impossible => absurd impossible (Nat.not_lt_zero _)) i early
      rw [keySide_eq inside] at above
      exact bitFileCmpKey_gt above

theorem lt_firstKey_of_mem_dropWhile {bound : Nat}
    (ordered : files.Pairwise fun f g => f.lastKey < g.firstKey)
    (proper : ∀ file ∈ files, file.firstKey ≤ file.lastKey)
    (member : file ∈ files.dropWhile fun f => decide (f.firstKey ≤ bound)) :
    bound < file.firstKey := by
  induction files with
  | nil => simp at member
  | cons head rest ih =>
    obtain ⟨headBelow, restOrdered⟩ := pairwise_cons.mp ordered
    rw [dropWhile_cons] at member
    split at member
    · exact ih restOrdered (fun f later => proper f (mem_cons_of_mem _ later)) member
    · rename_i stopped
      rw [decide_eq_true_iff, not_le] at stopped
      rcases mem_cons.mp member with rfl | later
      · exact stopped
      · have := headBelow file later
        have := proper head mem_cons_self
        omega

/-- The relatives of some files are a contiguous part of the level; the files
before it end below, and the files after it begin above, the range of the files. -/
theorem bitLevelFindRelativeFiles_spec (ranges : RangesApart l.bitFiles)
    (files : List (FileStat S)) :
    ∃ before after, l.bitFiles = before ++ bitLevelFindRelativeFiles l files ++ after ∧
      (∀ file ∈ before, file.lastKey < leastFirstKey files) ∧
      ∀ file ∈ after, greatestLastKey files < file.firstKey := by
  unfold bitLevelFindRelativeFiles
  split
  · rename_i first last isFirst isLast
    split
    · rename_i outside
      rcases outside with below | above
      · refine ⟨[], l.bitFiles, rfl, by simp, fun file member => ?_⟩
        exact below.trans_le (ranges.firstKey_le isFirst member)
      · refine ⟨l.bitFiles, [], by simp, fun file member => ?_, by simp⟩
        exact (ranges.le_lastKey isLast member).trans_lt above
    · have below := bitLevelLowerBound_spec ranges first isLast (leastFirstKey files)
      generalize bitLevelLowerBound l first last (leastFirstKey files) = pos at below ⊢
      refine ⟨l.bitFiles.take pos, (l.bitFiles.drop pos).dropWhile
        fun file => decide (file.firstKey ≤ greatestLastKey files), ?_, below, ?_⟩
      · rw [append_assoc, takeWhile_append_dropWhile, take_append_drop]
      · intro file member
        exact lt_firstKey_of_mem_dropWhile (ranges.lt.sublist (drop_sublist _ _))
          (fun f later => ranges.proper f (mem_of_mem_drop later)) member
  · rename_i absent
    have empty : l.bitFiles = [] := by
      by_contra nonempty
      exact absent _ _ (head?_eq_some_head nonempty) (getLast?_eq_some_getLast nonempty)
    exact ⟨[], [], by simp [empty], by simp, by simp⟩

end

end SwornDisk.C
