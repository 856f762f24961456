import SwornDisk.C.LsmLevel

/-!
# Which files a compaction takes from the lower level

`bit_level_find_relative_files` looks for the files of a level that meet the range of some
demoted files.  Its binary search, with the signed indices of the C code, always ends and
reads nothing outside the array, but for a key between two files it may end at the file
before the gap.  The files are then exactly those that meet the range and, before them, that
one file.
-/

namespace SwornDisk.C

open Lib List Option

variable {S : Type}

/-- An access to the array of files; `none` is an access outside it. -/
def fileAt (files : List (FileStat S)) (i : Int) : Option (FileStat S) :=
  if 0 ≤ i then files[i.toNat]? else none

/-- The loop of `bit_level_lower_bound`. -/
def lowerBoundLoop (files : List (FileStat S)) (key : Nat) : Nat → Int → Int → Option Int
  | fuel, low, high =>
    if low < high then
      match fuel with
      | 0 => none
      | fuel + 1 =>
        let mid := low + (high - low) / 2
        (fileAt files mid).bind fun file =>
          if file.firstKey ≤ key ∧ key ≤ file.lastKey then some mid
          else if key < file.firstKey then lowerBoundLoop files key fuel low (mid - 1)
          else lowerBoundLoop files key fuel (mid + 1) high
    else some low

/-- `bit_level_lower_bound`, with at most `fuel` iterations. -/
def lowerBoundRun (files : List (FileStat S)) (key fuel : Nat) : Option Int :=
  let high : Int := files.length - 1
  (fileAt files 0).bind fun first =>
    if key < first.firstKey then some 0
    else
      (fileAt files high).bind fun last =>
        if last.lastKey < key then some (high + 1) else lowerBoundLoop files key fuel 0 high

variable {fuel : Nat}

section

variable (files : List (FileStat S))

theorem fileAt_natCast (i : Nat) : fileAt files i = files[i]? := by
  simp [fileAt]

theorem lowerBoundLoop_done (key fuel : Nat) {low high : Int} (done : ¬ low < high) :
    lowerBoundLoop files key fuel low high = some low := by
  cases fuel with
  | zero => rw [lowerBoundLoop, if_neg done]
  | succ fuel => rw [lowerBoundLoop, if_neg done]

theorem lowerBoundLoop_eq (key : Nat) {low high : Nat} (inside : high < files.length)
    (enough : high - low ≤ fuel) :
    lowerBoundLoop files key fuel low high =
      some ((rangeSearch (keySide files key) low high : Nat) : Int) := by
  induction fuel generalizing low high with
  | zero =>
    rw [lowerBoundLoop_done files key 0 (by omega), rangeSearch, if_neg (by omega)]
  | succ fuel ih =>
    by_cases less : low < high
    · rw [lowerBoundLoop, rangeSearch]
      have isMid : (low : Int) + (high - low) / 2 = (low + (high - low) / 2 : Nat) := by omega
      have bound : low + (high - low) / 2 < files.length := by omega
      rw [if_pos less, if_pos (by omega)]
      simp only [isMid, fileAt_natCast, getElem?_eq_getElem bound, bind_some,
        keySide_eq bound, bitFileCmpKey]
      generalize files[low + (high - low) / 2] = file
      split
      · rfl
      · split
        · -- The upper end passes below zero when the key is below the first file.
          by_cases atZero : low + (high - low) / 2 = 0
          · rw [atZero, lowerBoundLoop_done files key fuel (by omega)]
            simp only
            rw [rangeSearch, if_neg (by omega)]
          · have isHigh : ((low + (high - low) / 2 : Nat) : Int) - 1 =
                (low + (high - low) / 2 - 1 : Nat) := by omega
            rw [isHigh]
            exact ih (by omega) (by omega)
        · have isLow : ((low + (high - low) / 2 : Nat) : Int) + 1 =
              (low + (high - low) / 2 + 1 : Nat) := by omega
          rw [isLow]
          exact ih inside (by omega)
    · rw [lowerBoundLoop_done files key _ (by omega), rangeSearch, if_neg less]

end

variable {key : Nat}

section

variable {l : BitLevel S} {first last : FileStat S}

theorem lowerBoundRun_eq (isFirst : l.bitFiles.head? = some first)
    (isLast : l.bitFiles.getLast? = some last) (key : Nat) (enough : l.bitFiles.length ≤ fuel) :
    lowerBoundRun l.bitFiles key fuel =
      some ((bitLevelLowerBound l first last key : Nat) : Int) := by
  have positive : 0 < l.bitFiles.length := length_pos_of_mem (mem_of_head? isFirst)
  have isHigh : (l.bitFiles.length : Int) - 1 = (l.bitFiles.length - 1 : Nat) := by omega
  have atFirst : fileAt l.bitFiles 0 = some first := by
    rw [← Nat.cast_zero, fileAt_natCast, ← head?_eq_getElem?, isFirst]
  have atLast : fileAt l.bitFiles (l.bitFiles.length - 1 : Nat) = some last := by
    rw [fileAt_natCast, ← getLast?_eq_getElem?, isLast]
  unfold lowerBoundRun bitLevelLowerBound
  simp only [isHigh, atFirst, atLast, bind_some]
  split
  · rfl
  · split
    · have isEnd : ((l.bitFiles.length - 1 : Nat) : Int) + 1 = (l.bitFiles.length : Nat) := by
        omega
      rw [isEnd]
    · exact lowerBoundLoop_eq l.bitFiles key (by omega) (by omega)

theorem bitLevelLowerBound_le (l : BitLevel S) (first last : FileStat S)
    (positive : 0 < l.bitFiles.length) (key : Nat) :
    bitLevelLowerBound l first last key ≤ l.bitFiles.length := by
  unfold bitLevelLowerBound
  split
  · exact Nat.zero_le _
  · split
    · exact le_rfl
    · have within : rangeSearch (keySide l.bitFiles key) 0 (l.bitFiles.length - 1) ≤
          l.bitFiles.length - 1 + 1 := rangeSearch_le (Nat.zero_le _)
      omega

theorem bitFileCmpKey_lt {file : FileStat S} (below : bitFileCmpKey key file = .lt) :
    key < file.firstKey := by
  unfold bitFileCmpKey at below
  split at below
  · cases below
  · split at below
    · assumption
    · cases below

theorem lt_firstKey_of_lowerBound (ranges : RangesApart l.bitFiles)
    (isFirst : l.bitFiles.head? = some first) {i : Nat}
    (after : bitLevelLowerBound l first last key < i) (bound : i < l.bitFiles.length) :
    key < l.bitFiles[i].firstKey := by
  unfold bitLevelLowerBound at after
  split at after
  · rename_i below
    exact below.trans_le (ranges.firstKey_le isFirst (getElem_mem bound))
  · split at after
    · omega
    · have stop : ∀ j, l.bitFiles.length - 1 < j → j < l.bitFiles.length →
          keySide l.bitFiles key j = .lt := by omega
      have below := rangeSearch_after (by omega) (ranges.rangesOrdered key) stop i after bound
      rw [keySide_eq bound] at below
      exact bitFileCmpKey_lt below

end

/-- The keys of a file meet the interval from `lo` to `hi`. -/
def meets (lo hi : Nat) (file : FileStat S) : Bool :=
  decide (file.firstKey ≤ hi) && decide (lo ≤ file.lastKey)

theorem takeWhile_firstKey_eq_filter {files : List (FileStat S)}
    (ordered : files.Pairwise fun f g => f.lastKey < g.firstKey)
    (proper : ∀ file ∈ files, file.firstKey ≤ file.lastKey) (hi : Nat) :
    files.takeWhile (fun file => decide (file.firstKey ≤ hi)) =
      files.filter fun file => decide (file.firstKey ≤ hi) := by
  induction files with
  | nil => rfl
  | cons head rest ih =>
    obtain ⟨headBelow, restOrdered⟩ := pairwise_cons.mp ordered
    have restProper : ∀ file ∈ rest, file.firstKey ≤ file.lastKey :=
      fun file member => proper file (mem_cons_of_mem _ member)
    rw [takeWhile_cons, filter_cons]
    split
    · rw [ih restOrdered restProper]
    · rename_i stopped
      rw [decide_eq_true_iff, not_le] at stopped
      symm
      apply filter_eq_nil_iff.mpr
      intro file member
      have := headBelow file member
      have := proper head mem_cons_self
      rw [decide_eq_true_iff, not_le]
      omega

variable {first last : FileStat S} {lo hi : Nat}

section

variable {l : BitLevel S} {files : List (FileStat S)}

theorem foldl_choice_mem {op : Nat → Nat → Nat} (choice : ∀ a b, op a b = a ∨ op a b = b)
    (key : FileStat S → Nat) (files : List (FileStat S)) (start : Nat) :
    files.foldl (fun held file => op held (key file)) start = start ∨
      ∃ file ∈ files, key file = files.foldl (fun held file => op held (key file)) start := by
  induction files generalizing start with
  | nil => exact .inl rfl
  | cons head rest ih =>
    rw [foldl_cons]
    rcases ih (op start (key head)) with same | ⟨file, member, isKey⟩
    · rcases choice start (key head) with isStart | isHead
      · exact .inl (same.trans isStart)
      · exact .inr ⟨head, mem_cons_self, (same.trans isHead).symm⟩
    · exact .inr ⟨file, mem_cons_of_mem _ member, isKey⟩

theorem isLeast_leastFirstKey (nonempty : files ≠ [])
    (small : ∀ file ∈ files, file.firstKey < 2 ^ 32) :
    IsLeast {key | ∃ file ∈ files, file.firstKey = key} (leastFirstKey files) := by
  constructor
  · rcases foldl_choice_mem min_choice FileStat.firstKey files 4294967295 with same | found
    · obtain ⟨file, member⟩ := exists_mem_of_ne_nil files nonempty
      have least : leastFirstKey files ≤ file.firstKey := leastFirstKey_le member
      have bound := small file member
      change leastFirstKey files = 4294967295 at same
      exact ⟨file, member, by omega⟩
    · exact found
  · rintro key ⟨file, member, rfl⟩
    exact leastFirstKey_le member

theorem isGreatest_greatestLastKey (nonempty : files ≠ []) :
    IsGreatest {key | ∃ file ∈ files, file.lastKey = key} (greatestLastKey files) := by
  constructor
  · rcases foldl_choice_mem max_choice FileStat.lastKey files 0 with same | found
    · obtain ⟨file, member⟩ := exists_mem_of_ne_nil files nonempty
      have greatest : file.lastKey ≤ greatestLastKey files := le_greatestLastKey member
      change greatestLastKey files = 0 at same
      exact ⟨file, member, by omega⟩
    · exact found
  · rintro key ⟨file, member, rfl⟩
    exact le_greatestLastKey member

/-- The file at which the search for `lo` stops, if it ends below `lo`. -/
def staleFile (l : BitLevel S) (lo : Nat) : Option (FileStat S) :=
  match l.bitFiles.head?, l.bitFiles.getLast? with
  | some first, some last =>
    l.bitFiles[bitLevelLowerBound l first last lo]?.filter fun file =>
      decide (file.lastKey < lo)
  | _, _ => none

theorem staleFile_eq (isFirst : l.bitFiles.head? = some first)
    (isLast : l.bitFiles.getLast? = some last) (lo : Nat) :
    staleFile l lo = l.bitFiles[bitLevelLowerBound l first last lo]?.filter fun file =>
      decide (file.lastKey < lo) := by
  unfold staleFile
  rw [isFirst, isLast]

variable (ranges : RangesApart l.bitFiles)
include ranges

/-- From where the search stops, the files that begin before the end of a range are the stale
file and those that meet the range. -/
theorem filter_firstKey_drop {pos : Nat}
    (after : ∀ i, pos < i → ∀ bound : i < l.bitFiles.length, lo < l.bitFiles[i].firstKey)
    (le : lo ≤ hi) :
    (l.bitFiles.drop pos).filter (fun file => decide (file.firstKey ≤ hi)) =
      (l.bitFiles[pos]?.filter fun file => decide (file.lastKey < lo)).toList ++
        (l.bitFiles.drop pos).filter (meets lo hi) := by
  by_cases inside : pos < l.bitFiles.length
  · have behind : (l.bitFiles.drop (pos + 1)).filter (fun file => decide (file.firstKey ≤ hi)) =
        (l.bitFiles.drop (pos + 1)).filter (meets lo hi) := by
      apply filter_congr
      intro file member
      obtain ⟨i, bound, rfl⟩ := mem_drop_iff_getElem.mp member
      have above := after (pos + 1 + i) (by omega) (by omega)
      have proper := ranges.proper _ (getElem_mem (by omega : pos + 1 + i < _))
      rw [meets, decide_eq_true (above.le.trans proper), Bool.and_true]
    rw [drop_eq_getElem_cons inside, filter_cons, filter_cons, behind,
      getElem?_eq_getElem inside]
    have proper := ranges.proper _ (getElem_mem inside)
    generalize l.bitFiles[pos] = file at proper ⊢
    by_cases ends : file.lastKey < lo
    · have begins : file.firstKey ≤ hi := by omega
      simp [meets, Option.filter, ends, begins]
    · simp [meets, Option.filter, ends, Nat.not_lt.mp ends]
  · rw [drop_eq_nil_of_le (Nat.not_lt.mp inside),
      getElem?_eq_none (Nat.not_lt.mp inside)]
    simp

theorem outside_level (isFirst : l.bitFiles.head? = some first)
    (isLast : l.bitFiles.getLast? = some last) (le : lo ≤ hi)
    (outside : hi < first.firstKey ∨ last.lastKey < lo) :
    l.bitFiles.filter (meets lo hi) = [] ∧ staleFile l lo = none := by
  rw [staleFile_eq isFirst isLast, filter_eq_nil_iff, filter_eq_none_iff]
  unfold bitLevelLowerBound meets
  rcases outside with below | above
  · constructor
    · intro file member
      have := ranges.firstKey_le isFirst member
      simp only [Bool.and_eq_true, decide_eq_true_eq]
      omega
    · intro file found
      rw [if_pos (le.trans_lt below)] at found
      have member := mem_of_getElem? found
      have := ranges.firstKey_le isFirst member
      have := ranges.proper file member
      simp only [decide_eq_true_eq]
      omega
  · have firstMember := mem_of_head? isFirst
    have := ranges.proper first firstMember
    have := ranges.le_lastKey isLast firstMember
    constructor
    · intro file member
      have := ranges.le_lastKey isLast member
      simp only [Bool.and_eq_true, decide_eq_true_eq]
      omega
    · intro file found
      rw [if_neg (by omega), if_pos above, getElem?_eq_none le_rfl] at found
      cases found

/-- The relatives of some files are the stale file, if the search stops at one, and the files
of the level that meet their range, in order. -/
theorem findRelativeFiles_eq (le : leastFirstKey files ≤ greatestLastKey files) :
    bitLevelFindRelativeFiles l files = (staleFile l (leastFirstKey files)).toList ++
      l.bitFiles.filter (meets (leastFirstKey files) (greatestLastKey files)) := by
  unfold bitLevelFindRelativeFiles
  split
  · rename_i first last isFirst isLast
    split
    · rename_i outside
      obtain ⟨noFile, fresh⟩ := outside_level ranges isFirst isLast le outside
      rw [noFile, fresh]
      rfl
    · rw [staleFile_eq isFirst isLast]
      have before := bitLevelLowerBound_spec ranges first isLast (leastFirstKey files)
      have after : ∀ i, bitLevelLowerBound l first last (leastFirstKey files) < i →
          ∀ bound : i < l.bitFiles.length, leastFirstKey files < l.bitFiles[i].firstKey :=
        fun i => lt_firstKey_of_lowerBound ranges isFirst
      generalize bitLevelLowerBound l first last (leastFirstKey files) = pos at before after ⊢
      have skipped : (l.bitFiles.take pos).filter
          (meets (leastFirstKey files) (greatestLastKey files)) = [] := by
        apply filter_eq_nil_iff.mpr
        intro file member
        simp [meets, Nat.not_le.mpr (before file member)]
      have split := congrArg
        (List.filter (meets (leastFirstKey files) (greatestLastKey files)))
        (take_append_drop pos l.bitFiles)
      rw [filter_append, skipped, nil_append] at split
      rw [takeWhile_firstKey_eq_filter (ranges.lt.sublist (drop_sublist _ _))
        (fun file member => ranges.proper file (mem_of_mem_drop member)), ← split]
      exact filter_firstKey_drop ranges after le
  · rename_i absent
    have empty : l.bitFiles = [] := by
      by_contra nonempty
      exact absent _ _ (head?_eq_some_head nonempty)
        (getLast?_eq_some_getLast nonempty)
    simp [staleFile, empty]

end

def filesBelow (files : List (FileStat S)) (key : Nat) : Nat :=
  files.countP fun file => decide (file.lastKey < key)

/-- The key lies in a gap between two files, and cutting the files in halves until at most
one is left leaves the file before the gap. -/
def MissedGap (files : List (FileStat S)) (key : Nat) : Prop :=
  0 < filesBelow files key ∧
    (∃ next, files[filesBelow files key]? = some next ∧ key < next.firstKey) ∧
    secondOfTwo (files.length + 1) (filesBelow files key) = true

theorem lt_countP_iff {α : Type} {p : α → Bool} {items : List α}
    (closed : items.Pairwise fun a b => p b = true → p a = true) {i : Nat}
    (bound : i < items.length) : i < items.countP p ↔ p items[i] = true := by
  induction items generalizing i with
  | nil => cases bound
  | cons head rest ih =>
    obtain ⟨headClosed, restClosed⟩ := pairwise_cons.mp closed
    rw [countP_cons]
    by_cases holds : p head = true
    · cases i with
      | zero => simp [holds]
      | succ i =>
        rw [if_pos holds, Nat.add_lt_add_iff_right, ih restClosed (Nat.lt_of_succ_lt_succ bound),
          getElem_cons_succ]
    · have none : ∀ item ∈ head :: rest, ¬ p item = true := by
        rintro item (_ | ⟨_, member⟩)
        · exact holds
        · exact fun itemHolds => holds (headClosed item member itemHolds)
      rw [countP_eq_zero.mpr fun item member => none item (mem_cons_of_mem _ member), if_neg holds]
      exact iff_of_false (Nat.not_lt_zero i) (none _ (getElem_mem bound))

section

variable {l : BitLevel S} (ranges : RangesApart l.bitFiles)
include ranges

theorem lt_filesBelow_iff (key : Nat) {i : Nat} (bound : i < l.bitFiles.length) :
    i < filesBelow l.bitFiles key ↔ l.bitFiles[i].lastKey < key := by
  have closed : l.bitFiles.Pairwise fun f g =>
      decide (g.lastKey < key) = true → decide (f.lastKey < key) = true := by
    refine ranges.lt.imp_of_mem ?_
    intro f g _ member less
    have := ranges.proper g member
    simp only [decide_eq_true_eq]
    omega
  rw [filesBelow, lt_countP_iff closed bound, decide_eq_true_eq]

theorem keySide_of_lt {i : Nat} (bound : i < l.bitFiles.length)
    (before : i < filesBelow l.bitFiles key) : keySide l.bitFiles key i = .gt := by
  have ends := (lt_filesBelow_iff ranges key bound).mp before
  have proper := ranges.proper _ (getElem_mem bound)
  rw [keySide_eq bound, bitFileCmpKey, if_neg (by omega), if_neg (by omega)]

theorem keySide_of_gap {next : FileStat S} {i : Nat}
    (isNext : l.bitFiles[filesBelow l.bitFiles key]? = some next) (less : key < next.firstKey)
    (behind : filesBelow l.bitFiles key ≤ i) (bound : i < l.bitFiles.length) :
    keySide l.bitFiles key i = .lt := by
  obtain ⟨inside, rfl⟩ := List.getElem?_eq_some_iff.mp isNext
  have begins : key < l.bitFiles[i].firstKey := by
    rcases Nat.eq_or_lt_of_le behind with same | after
    · simpa only [same] using less
    · have ordered := pairwise_iff_getElem.mp ranges.lt _ i inside bound after
      have proper := ranges.proper _ (getElem_mem inside)
      omega
  rw [keySide_eq bound, bitFileCmpKey, if_neg (by omega), if_pos begins]

theorem bitLevelLowerBound_gap {next : FileStat S} (isFirst : l.bitFiles.head? = some first)
    (isLast : l.bitFiles.getLast? = some last) (positive : 0 < filesBelow l.bitFiles key)
    (isNext : l.bitFiles[filesBelow l.bitFiles key]? = some next) (less : key < next.firstKey) :
    bitLevelLowerBound l first last key =
      if secondOfTwo (l.bitFiles.length + 1) (filesBelow l.bitFiles key) then
        filesBelow l.bitFiles key - 1
      else filesBelow l.bitFiles key := by
  obtain ⟨inside, _⟩ := List.getElem?_eq_some_iff.mp isNext
  have firstAbove : first.firstKey ≤ key := by
    have ends := (lt_filesBelow_iff ranges key (by omega)).mp positive
    have proper := ranges.proper _ (getElem_mem (by omega : 0 < l.bitFiles.length))
    obtain ⟨_, rfl⟩ := List.getElem?_eq_some_iff.mp (head?_eq_getElem? ▸ isFirst)
    omega
  have lastBehind : key ≤ last.lastKey := by
    obtain ⟨atLast, rfl⟩ := List.getElem?_eq_some_iff.mp (getLast?_eq_getElem? ▸ isLast)
    have notBelow := mt (lt_filesBelow_iff ranges key atLast).mpr (by omega)
    omega
  rw [bitLevelLowerBound, if_neg (Nat.not_lt.mpr firstAbove), if_neg (Nat.not_lt.mpr lastBehind),
    rangeSearch_gap
      (fun i (before : i < filesBelow l.bitFiles key) => keySide_of_lt ranges (by omega) before)
      (fun i behind within => keySide_of_gap ranges isNext less behind (by omega))
      (Nat.zero_le _) (by omega), Nat.sub_zero, Nat.sub_zero,
    show l.bitFiles.length - 1 + 2 = l.bitFiles.length + 1 by omega]

/-- The search stops at a file that ends below the key exactly for a key in a missed gap. -/
theorem staleFile_eq_none_iff : staleFile l key = none ↔ ¬ MissedGap l.bitFiles key := by
  rcases l.bitFiles.eq_nil_or_concat with empty | ⟨_, _, isConcat⟩
  · simp [staleFile, MissedGap, filesBelow, empty]
  have nonempty : l.bitFiles ≠ [] := by simp [isConcat]
  clear isConcat
  rw [staleFile_eq (head?_eq_some_head nonempty) (getLast?_eq_some_getLast nonempty)]
  by_cases gap : 0 < filesBelow l.bitFiles key ∧
      ∃ next, l.bitFiles[filesBelow l.bitFiles key]? = some next ∧ key < next.firstKey
  · obtain ⟨positive, next, isNext, less⟩ := gap
    obtain ⟨inside, _⟩ := List.getElem?_eq_some_iff.mp isNext
    rw [bitLevelLowerBound_gap ranges (head?_eq_some_head nonempty)
      (getLast?_eq_some_getLast nonempty) positive isNext less]
    have missed : MissedGap l.bitFiles key ↔
        secondOfTwo (l.bitFiles.length + 1) (filesBelow l.bitFiles key) = true :=
      ⟨fun missed => missed.2.2, fun second => ⟨positive, ⟨next, isNext, less⟩, second⟩⟩
    rw [missed]
    split
    · rename_i second
      have stale := (lt_filesBelow_iff ranges key
        (by omega : filesBelow l.bitFiles key - 1 < l.bitFiles.length)).mp (by omega)
      simp [getElem?_eq_getElem (by omega : filesBelow l.bitFiles key - 1 < l.bitFiles.length),
        stale, second]
    · rename_i notSecond
      have fresh := Nat.not_lt.mp (mt (lt_filesBelow_iff ranges key inside).mpr (lt_irrefl _))
      simp [getElem?_eq_getElem inside, fresh, notSecond]
  · refine iff_of_true ?_ fun missed => gap ⟨missed.1, missed.2.1⟩
    rw [filter_eq_none_iff]
    intro file found ends
    obtain ⟨inside, rfl⟩ := List.getElem?_eq_some_iff.mp found
    rw [decide_eq_true_eq] at ends
    have before := (lt_filesBelow_iff ranges key inside).mpr ends
    rcases Nat.lt_or_ge (filesBelow l.bitFiles key) l.bitFiles.length with within | beyond
    · -- The key is in the range of the next file, and the search stops no earlier.
      refine gap ⟨by omega, _, getElem?_eq_getElem within, ?_⟩
      exact lt_firstKey_of_lowerBound ranges (head?_eq_some_head nonempty) before within
    · have positive : 0 < l.bitFiles.length := length_pos_of_ne_nil nonempty
      have lastBelow := (lt_filesBelow_iff ranges key
        (by omega : l.bitFiles.length - 1 < l.bitFiles.length)).mp (by omega)
      have firstBelow := (lt_filesBelow_iff ranges key positive).mp (by omega)
      have proper := ranges.proper _ (getElem_mem positive)
      rw [← getLast_eq_getElem nonempty] at lastBelow
      rw [← head_eq_getElem_zero nonempty] at firstBelow proper
      rw [bitLevelLowerBound, if_neg (by omega), if_pos lastBelow] at inside
      exact lt_irrefl _ inside

end

/-- For a level of ordered files with disjoint ranges and a non-empty list of demoted files of
32-bit keys: the search of the lower bound ends within as many iterations as there are files
and never leaves the array, and the relatives are, in order, the files that meet the interval
from the least first key to the greatest last key of the demoted files, exactly if the least
first key does not lie in a gap that halving the files misses. -/
theorem relativeFiles_exact_iff {l : BitLevel S} {files : List (FileStat S)} {lo hi : Nat}
    (ranges : RangesApart l.bitFiles) (nonempty : files ≠ [])
    (proper : ∀ file ∈ files, file.firstKey ≤ file.lastKey ∧ file.lastKey < 2 ^ 32)
    (least : IsLeast {key | ∃ file ∈ files, file.firstKey = key} lo)
    (greatest : IsGreatest {key | ∃ file ∈ files, file.lastKey = key} hi) :
    (∀ first last, l.bitFiles.head? = some first → l.bitFiles.getLast? = some last → ∀ key,
        ∃ pos ≤ l.bitFiles.length, pos = bitLevelLowerBound l first last key ∧
          ∀ fuel ≥ l.bitFiles.length, lowerBoundRun l.bitFiles key fuel = some (pos : Int)) ∧
      (bitLevelFindRelativeFiles l files = l.bitFiles.filter (meets lo hi) ↔
        ¬ MissedGap l.bitFiles lo) := by
  obtain rfl : leastFirstKey files = lo :=
    (isLeast_leastFirstKey nonempty fun file member =>
      (proper file member).1.trans_lt (proper file member).2).unique least
  obtain rfl : greatestLastKey files = hi := (isGreatest_greatestLastKey nonempty).unique greatest
  obtain ⟨file, member⟩ := exists_mem_of_ne_nil files nonempty
  have le : leastFirstKey files ≤ greatestLastKey files :=
    (leastFirstKey_le member).trans ((proper file member).1.trans (le_greatestLastKey member))
  constructor
  · intro first last isFirst isLast key
    have positive : 0 < l.bitFiles.length :=
      length_pos_of_mem (mem_of_head? isFirst)
    refine ⟨_, bitLevelLowerBound_le l first last positive key, rfl, ?_⟩
    intro fuel enough
    exact lowerBoundRun_eq isFirst isLast key enough
  · rw [findRelativeFiles_eq ranges le, append_left_eq_self, toList_eq_nil_iff,
      staleFile_eq_none_iff ranges]

def rangeFile (id firstKey lastKey : Nat) : FileStat Unit :=
  ⟨id, 1, 0, firstKey, lastKey, ()⟩

def gappedLevel : BitLevel Unit where
  level := 1
  capacity := 10
  maxSize := 24
  bitFiles := [rangeFile 0 0 9, rangeFile 1 20 29, rangeFile 2 40 49]

theorem rangesApart_gappedLevel : RangesApart gappedLevel.bitFiles := by
  constructor
  · unfold FileLe
    decide
  · unfold Apart
    decide
  · decide

theorem isLeast_singleton_file (file : FileStat Unit) :
    IsLeast {key | ∃ f ∈ [file], f.firstKey = key} file.firstKey ∧
      IsGreatest {key | ∃ f ∈ [file], f.lastKey = key} file.lastKey := by
  simp [IsLeast, IsGreatest, lowerBounds, upperBounds]

/-- A range that begins in the gap before the last file, where the search ends behind the gap,
and ends in that file. -/
theorem relativeFiles_exact_inside :
    bitLevelFindRelativeFiles gappedLevel [rangeFile 3 35 45] = [rangeFile 2 40 49] := by
  obtain ⟨least, greatest⟩ := isLeast_singleton_file (rangeFile 3 35 45)
  have caught : ¬ MissedGap gappedLevel.bitFiles (rangeFile 3 35 45).firstKey := by
    rintro ⟨-, -, second⟩
    change secondOfTwo 4 2 = true at second
    simp [secondOfTwo] at second
  exact (relativeFiles_exact_iff rangesApart_gappedLevel (cons_ne_nil _ _) (by decide)
    least greatest).2.mpr caught

/-- For a range that begins between the first two files, the search stops at the first file,
which the range does not meet. -/
theorem relativeFiles_before_gap :
    RangesApart gappedLevel.bitFiles ∧
      gappedLevel.bitFiles.filter (meets 15 45) = [rangeFile 1 20 29, rangeFile 2 40 49] ∧
      bitLevelFindRelativeFiles gappedLevel [rangeFile 3 15 45] = gappedLevel.bitFiles := by
  have runs : lowerBoundRun gappedLevel.bitFiles 15 3 = some
      ((bitLevelLowerBound gappedLevel (rangeFile 0 0 9) (rangeFile 2 40 49) 15 : Nat) : Int) :=
    lowerBoundRun_eq rfl rfl 15 le_rfl
  have stops : bitLevelLowerBound gappedLevel (rangeFile 0 0 9) (rangeFile 2 40 49) 15 = 0 :=
    Int.ofNat_inj.mp (some.inj runs).symm
  refine ⟨rangesApart_gappedLevel, rfl, ?_⟩
  change List.takeWhile _ (List.drop (bitLevelLowerBound gappedLevel (rangeFile 0 0 9)
    (rangeFile 2 40 49) 15) gappedLevel.bitFiles) = _
  rw [stops]
  rfl

end SwornDisk.C
