import SwornDisk.Rust.Serialize

/-!
# Format of the checkpoint sections

`Serialize` and `Deserialize` of the tables that make up a checkpoint: `BitMap` (and
`SVT`, which wraps it), `DST`, `BITRootMeta` and `BITCategory`.  Each section is read back
from any buffer in which its bytes stand.
-/

namespace SwornDisk.Rust

open Lib List Function

def BitMap.serialize (m : BitMap) : List UInt8 :=
  [if m.isSeq then 1 else 0] ++ (wordBytes m.maxLen ++ (wordBytes m.availLen ++ m.map))

def BitMap.deserialize (buf : List UInt8) : Except Fault BitMap := do
  let isSeq ← sliceOf buf 0 1
  let maxLen ← wordAt buf 1
  let availLen ← wordAt buf 9
  if bitmapVecLen maxLen + 17 ≠ buf.length then
    .error (.error .einval)
  else
    let map ← sliceOf buf 17 (17 + bitmapVecLen maxLen)
    return ⟨isSeq != [0], maxLen, availLen, map⟩

/-- What `deserialize` relies on: the vector has the length that `max_len` asks for. -/
structure BitMap.Storable (m : BitMap) : Prop where
  sized : m.map.length = bitmapVecLen m.maxLen
  maxLen : IsWord m.maxLen
  availLen : IsWord m.availLen

variable {m : BitMap}

theorem BitMap.Storable.length_serialize (storable : m.Storable) :
    m.serialize.length = bitmapVecLen m.maxLen + 17 := by
  simp only [BitMap.serialize, length_append, length_singleton, length_wordBytes,
    storable.sized]
  omega

theorem BitMap.Storable.deserialize_serialize (storable : m.Storable) :
    BitMap.deserialize m.serialize = .ok m := by
  have stands : HasAt m.serialize 0 ([if m.isSeq then 1 else 0] ++
    (wordBytes m.maxLen ++ (wordBytes m.availLen ++ m.map))) := HasAt.whole _
  have maxLenOn : HasAt m.serialize 1 _ := stands.right rfl
  have availLenOn := maxLenOn.right (by rw [length_wordBytes])
  have mapOn := availLenOn.right (by rw [length_wordBytes])
  have isSeq : sliceOf m.serialize 0 1 = .ok [if m.isSeq then 1 else 0] :=
    sliceOf_hasAt stands.left rfl
  have maxLen := wordAt_hasAt maxLenOn.left storable.maxLen
  have availLen := wordAt_hasAt availLenOn.left storable.availLen
  have map : sliceOf m.serialize 17 (17 + bitmapVecLen m.maxLen) = .ok m.map :=
    sliceOf_hasAt mapOn (by rw [storable.sized])
  have flag : (([if m.isSeq then 1 else 0] : List UInt8) != [0]) = m.isSeq := by
    cases m.isSeq <;> rfl
  unfold BitMap.deserialize
  simp only [isSeq, maxLen, availLen, map, ok_bind, storable.length_serialize, ne_eq,
    not_true_eq_false, if_false, flag]
  rfl

def Dst.serialize (dst : Dst) : List UInt8 :=
  wordBytes dst.lastModify ++ (wordBytes dst.bvm.serialize.length ++ dst.bvm.serialize)

def Dst.deserialize (buf : List UInt8) : Except Fault Dst := do
  let lastModify ← wordAt buf 0
  let bvmLen ← wordAt buf 8
  if bvmLen + 16 ≠ buf.length then
    .error (.error .einval)
  else
    let bvm ← BitMap.deserialize (← sliceOf buf 16 (16 + bvmLen))
    return ⟨bvm, lastModify⟩

structure Dst.Storable (dst : Dst) : Prop where
  bvm : dst.bvm.Storable
  lastModify : IsWord dst.lastModify

theorem Dst.length_serialize (dst : Dst) :
    dst.serialize.length = 16 + dst.bvm.serialize.length := by
  simp only [Dst.serialize, length_append, length_wordBytes]
  omega

variable {dst : Dst}

theorem Dst.Storable.bvmLen (storable : dst.Storable) :
    IsWord dst.bvm.serialize.length := by
  have maxLen := storable.bvm.maxLen
  rw [storable.bvm.length_serialize]
  unfold IsWord at maxLen ⊢
  unfold bitmapVecLen bitmapItemSize
  split <;> omega

theorem Dst.Storable.deserialize_serialize (storable : dst.Storable) :
    Dst.deserialize dst.serialize = .ok dst := by
  have stands : HasAt dst.serialize 0 (wordBytes dst.lastModify ++
    (wordBytes dst.bvm.serialize.length ++ dst.bvm.serialize)) := HasAt.whole _
  have bvmLenOn := stands.right (by rw [length_wordBytes])
  have bvmOn := bvmLenOn.right (by rw [length_wordBytes])
  have lastModify := wordAt_hasAt stands.left storable.lastModify
  have bvmLen := wordAt_hasAt bvmLenOn.left storable.bvmLen
  have bvm : sliceOf dst.serialize 16 (16 + dst.bvm.serialize.length) = .ok dst.bvm.serialize :=
    sliceOf_hasAt bvmOn rfl
  have sized := dst.length_serialize
  rw [Nat.add_comm] at sized
  unfold Dst.deserialize
  simp only [lastModify, bvmLen, bvm, storable.bvm.deserialize_serialize, ok_bind, sized, ne_eq,
    not_true_eq_false, if_false]
  rfl

/-- What `BITRootMeta` keeps of a block index table. -/
structure BitInfo where
  record : IndirectRecord
  level : Nat
  size : Nat
deriving DecidableEq

def bitRootMetaSize : Nat := 96

def BitRootMeta.serialize (held : BitRootMeta BitInfo) : List UInt8 :=
  resize bitRootMetaSize (wordBytes held.uniqueId ++ (wordBytes held.bit.level ++
    (wordBytes held.bit.size ++ held.bit.record.serialize)))

def BitRootMeta.deserialize (buf : List UInt8) : Except Fault (BitRootMeta BitInfo) :=
  if buf.length ≠ bitRootMetaSize then .error (.error .einval)
  else do
    let uniqueId ← wordAt buf 0
    let level ← wordAt buf 8
    let size ← wordAt buf 16
    let record ← IndirectRecord.deserialize (← sliceOf buf 24 (24 + indirectRecordSize))
    return ⟨uniqueId, record, level, size⟩

structure BitRootMeta.Storable (held : BitRootMeta BitInfo) : Prop where
  uniqueId : IsWord held.uniqueId
  level : IsWord held.bit.level
  size : IsWord held.bit.size
  record : held.bit.record.Words

@[simp] theorem BitRootMeta.length_serialize (held : BitRootMeta BitInfo) :
    held.serialize.length = bitRootMetaSize := length_resize ..

theorem BitRootMeta.Storable.deserialize_serialize {held : BitRootMeta BitInfo}
    (storable : held.Storable) : BitRootMeta.deserialize held.serialize = .ok held := by
  have stands : HasAt held.serialize 0 (wordBytes held.uniqueId ++ (wordBytes held.bit.level ++
      (wordBytes held.bit.size ++ held.bit.record.serialize))) := by
    unfold BitRootMeta.serialize
    rw [resize_of_le (by simp [bitRootMetaSize, indirectRecordSize])]
    exact HasAt.front _ _
  have levelOn := stands.right (by rw [length_wordBytes])
  have sizeOn := levelOn.right (by rw [length_wordBytes])
  have recordOn := sizeOn.right (by rw [length_wordBytes])
  have uniqueId := wordAt_hasAt stands.left storable.uniqueId
  have level := wordAt_hasAt levelOn.left storable.level
  have size := wordAt_hasAt sizeOn.left storable.size
  have record : sliceOf held.serialize 24 (24 + indirectRecordSize) =
      .ok held.bit.record.serialize :=
    sliceOf_hasAt recordOn (by rw [IndirectRecord.length_serialize])
  unfold BitRootMeta.deserialize
  rw [if_neg (not_not.mpr held.length_serialize)]
  simp only [uniqueId, level, size, record, ok_bind,
    IndirectRecord.deserialize_serialize storable.record]
  rfl

/-- One level of `BITCategory::serialize`. -/
def serializeLevel (level : List (BitRootMeta BitInfo)) : List UInt8 :=
  wordBytes level.length ++ level.flatMap BitRootMeta.serialize

def BitCategory.serialize (c : BitCategory BitInfo) : List UInt8 :=
  wordBytes c.bitUniqueId ++
    (List.range lsmTreeMaxLevel).flatMap fun level => serializeLevel (c.category level)

/-- The inner loop of `BITCategory::deserialize`: the tables of one level and the index
behind them. -/
def readMetas (buf : List UInt8) : Nat → Nat → Except Fault (List (BitRootMeta BitInfo) × Nat)
  | 0, index => .ok ([], index)
  | len + 1, index => do
      let held ← BitRootMeta.deserialize (← sliceOf buf index (index + bitRootMetaSize))
      let (rest, last) ← readMetas buf len (index + bitRootMetaSize)
      return (held :: rest, last)

/-- The outer loop of `BITCategory::deserialize`. -/
def readLevels (buf : List UInt8) : List Nat → Nat → (Nat → List (BitRootMeta BitInfo)) →
    Except Fault (Nat → List (BitRootMeta BitInfo))
  | [], _, category => .ok category
  | level :: rest, index, category => do
      let len ← wordAt buf index
      let (metas, last) ← readMetas buf len (index + 8)
      readLevels buf rest last (Function.update category level metas)

def BitCategory.deserialize (buf : List UInt8) : Except Fault (BitCategory BitInfo) := do
  let bitUniqueId ← wordAt buf 0
  let category ← readLevels buf (List.range lsmTreeMaxLevel) 8 fun _ => []
  return ⟨bitUniqueId, category⟩

/-- There are `LSM_TREE_MAX_LEVEL` levels, of tables whose fields are words. -/
structure BitCategory.Storable (c : BitCategory BitInfo) : Prop where
  bitUniqueId : IsWord c.bitUniqueId
  held : ∀ level, ∀ held ∈ c.category level, held.Storable
  levels : ∀ level, lsmTreeMaxLevel ≤ level → c.category level = []

variable {buf : List UInt8} {index : Nat}

theorem readMetas_hasAt {metas : List (BitRootMeta BitInfo)}
    (storable : ∀ held ∈ metas, held.Storable)
    (stands : HasAt buf index (metas.flatMap BitRootMeta.serialize)) :
    readMetas buf metas.length index =
      .ok (metas, index + (metas.flatMap BitRootMeta.serialize).length) := by
  induction metas generalizing index with
  | nil => rfl
  | cons held rest ih =>
    rw [flatMap_cons] at stands ⊢
    have here : sliceOf buf index (index + bitRootMetaSize) = .ok held.serialize :=
      sliceOf_hasAt stands.left (by rw [BitRootMeta.length_serialize])
    have later := ih (fun other member => storable other (mem_cons_of_mem _ member))
      (stands.right (by rw [BitRootMeta.length_serialize]))
    have back := (storable held mem_cons_self).deserialize_serialize
    rw [length_cons, readMetas]
    simp only [here, back, later, ok_bind, length_append, BitRootMeta.length_serialize,
      Nat.add_assoc]
    rfl

section

variable {c : BitCategory BitInfo} (storable : c.Storable)
  (lengths : ∀ level, IsWord (c.category level).length)
include storable lengths

theorem readLevels_hasAt {levels : List Nat} {category : Nat → List (BitRootMeta BitInfo)}
    (stands : HasAt buf index (levels.flatMap fun level => serializeLevel (c.category level))) :
    readLevels buf levels index category =
      .ok fun level => if level ∈ levels then c.category level else category level := by
  induction levels generalizing index category with
  | nil =>
    refine congrArg Except.ok ?_
    funext level
    rw [if_neg not_mem_nil]
  | cons first rest ih =>
    rw [flatMap_cons, serializeLevel, append_assoc] at stands
    have metasOn := stands.right (by rw [length_wordBytes])
    have len := wordAt_hasAt stands.left (lengths first)
    have metas := readMetas_hasAt (storable.held first) metasOn.left
    have later : readLevels buf rest _ (update category first (c.category first)) = _ :=
      ih (metasOn.right rfl)
    rw [readLevels]
    simp only [len, metas, later, ok_bind]
    refine congrArg Except.ok ?_
    funext level
    by_cases same : level = first
    · subst same
      rw [update_self, ite_self, if_pos mem_cons_self]
    · rw [update_of_ne same]
      simp only [mem_cons, same, false_or]

theorem BitCategory.Storable.deserialize_serialize :
    BitCategory.deserialize c.serialize = .ok c := by
  have stands : HasAt c.serialize 0 (wordBytes c.bitUniqueId ++
    (range lsmTreeMaxLevel).flatMap fun level => serializeLevel (c.category level)) :=
    HasAt.whole _
  have bitUniqueId := wordAt_hasAt stands.left storable.bitUniqueId
  have levels : readLevels c.serialize (range lsmTreeMaxLevel) 8 (fun _ => []) = _ :=
    readLevels_hasAt storable lengths (stands.right (by rw [length_wordBytes]))
  unfold BitCategory.deserialize
  simp only [bitUniqueId, levels, ok_bind]
  have same : (fun level => if level ∈ range lsmTreeMaxLevel then c.category level else []) =
      c.category := by
    funext level
    split
    · rfl
    · next above =>
        rw [mem_range] at above
        exact (storable.levels level (Nat.le_of_not_lt above)).symm
  rw [same]
  rfl

end

/-- `CheckpointHelper`, the first sector of the checkpoint region. -/
structure CheckpointHelper where
  dataSvtLen : Nat
  indexSvtLen : Nat
  dstSize : Nat
  dstLen : Nat
  bitCategoryLen : Nat
  sectorNumber : Nat

def checkpointHelperSize : Nat := 48

def CheckpointHelper.serialize (helper : CheckpointHelper) : List UInt8 :=
  resize checkpointHelperSize
    (wordBytes helper.dataSvtLen ++ (wordBytes helper.indexSvtLen ++
      (wordBytes helper.dstSize ++ (wordBytes helper.dstLen ++
        (wordBytes helper.bitCategoryLen ++ wordBytes helper.sectorNumber)))))

def CheckpointHelper.deserialize (buf : List UInt8) : Except Fault CheckpointHelper :=
  if buf.length ≠ checkpointHelperSize then .error (.error .einval)
  else do
    let dataSvtLen ← wordAt buf 0
    let indexSvtLen ← wordAt buf 8
    let dstSize ← wordAt buf 16
    let dstLen ← wordAt buf 24
    let bitCategoryLen ← wordAt buf 32
    let sectorNumber ← wordAt buf 40
    return ⟨dataSvtLen, indexSvtLen, dstSize, dstLen, bitCategoryLen, sectorNumber⟩

structure CheckpointHelper.Words (helper : CheckpointHelper) : Prop where
  dataSvtLen : IsWord helper.dataSvtLen
  indexSvtLen : IsWord helper.indexSvtLen
  dstSize : IsWord helper.dstSize
  dstLen : IsWord helper.dstLen
  bitCategoryLen : IsWord helper.bitCategoryLen
  sectorNumber : IsWord helper.sectorNumber

@[simp] theorem CheckpointHelper.length_serialize (helper : CheckpointHelper) :
    helper.serialize.length = checkpointHelperSize := length_resize ..

theorem CheckpointHelper.Words.deserialize_serialize {helper : CheckpointHelper}
    (words : helper.Words) : CheckpointHelper.deserialize helper.serialize = .ok helper := by
  have stands : HasAt helper.serialize 0 (wordBytes helper.dataSvtLen ++
      (wordBytes helper.indexSvtLen ++ (wordBytes helper.dstSize ++ (wordBytes helper.dstLen ++
        (wordBytes helper.bitCategoryLen ++ wordBytes helper.sectorNumber))))) := by
    unfold CheckpointHelper.serialize
    rw [resize_of_le (by simp [checkpointHelperSize])]
    exact HasAt.front _ _
  have indexSvtLenOn := stands.right (by rw [length_wordBytes])
  have dstSizeOn := indexSvtLenOn.right (by rw [length_wordBytes])
  have dstLenOn := dstSizeOn.right (by rw [length_wordBytes])
  have bitCategoryLenOn := dstLenOn.right (by rw [length_wordBytes])
  have sectorNumberOn := bitCategoryLenOn.right (by rw [length_wordBytes])
  have dataSvtLen := wordAt_hasAt stands.left words.dataSvtLen
  have indexSvtLen := wordAt_hasAt indexSvtLenOn.left words.indexSvtLen
  have dstSize := wordAt_hasAt dstSizeOn.left words.dstSize
  have dstLen := wordAt_hasAt dstLenOn.left words.dstLen
  have bitCategoryLen := wordAt_hasAt bitCategoryLenOn.left words.bitCategoryLen
  have sectorNumber := wordAt_hasAt sectorNumberOn words.sectorNumber
  unfold CheckpointHelper.deserialize
  rw [if_neg (not_not.mpr helper.length_serialize)]
  simp only [dataSvtLen, indexSvtLen, dstSize, dstLen, bitCategoryLen, sectorNumber, ok_bind]
  rfl

end SwornDisk.Rust
