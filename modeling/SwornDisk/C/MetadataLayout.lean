import SwornDisk.Lib.Tiling
import SwornDisk.C.BitBuilder
import SwornDisk.C.Dst
import SwornDisk.C.LsmTree

/-!
# Layout of the metadata device

`superblock_init` places the tables one behind the other with a number of blocks for each, and
`disk_array` works out for itself which blocks it reads, writes and formats.  The two agree except
in one place: `disk_array_format` counts one block more than there are full blocks, also where the
bits of a validity table fill their blocks exactly.
-/

namespace SwornDisk.C

open Lib List

def metadataBlockSize : Nat := 4096

def bitsPerLong : Nat := 64

/-- `sizeof(unsigned long)`. -/
def longSize : Nat := 8

/-- `sizeof(struct dst_entry)`: a count and a bit for every block. -/
def dstEntrySize : Nat := 8 + blocksPerSegment / 8

/-- `sizeof(struct reverse_index_entry)`. -/
def reverseIndexEntrySize : Nat := 8

/-- `sizeof(struct file_stat)`, packed. -/
def fileStatSize : Nat := 2 * 8 + 16 + 12 + 3 * 8 + 2 * 4 + 16

/-- `sizeof(struct superblock)`, packed, with the pointers of its methods. -/
def superblockSize : Nat := 140

/-- `__bytes_to_block`; `STRUCTURE_BLOCKS` is the same for the size of a structure. -/
def bytesToBlock (bytes blockSize : Nat) : Nat :=
  if bytes = 0 then 0 else (bytes - 1) / blockSize + 1

def diskArrayBlocks (nrElem elemSize blockSize : Nat) : Nat :=
  if elemSize = 0 then 0 else nrElem / (blockSize / elemSize) + 1

def extraBit (maxDiskLevelCapacity : Nat) : Nat :=
  totalBit 2 lsmTreeDiskLevelCommonRatio maxDiskLevelCapacity

def indexRegionBlocks (nrDiskLevel commonRatio maxDiskLevelCapacity : Nat) : Nat :=
  bytesToBlock
    ((totalBit nrDiskLevel commonRatio maxDiskLevelCapacity + extraBit maxDiskLevelCapacity) *
      Bit.calculateBitSize defaultLsmFileCapacity Bit.bitDegree) metadataBlockSize

def diskBitsetNrGroup (nrBit : Nat) : Nat :=
  if nrBit = 0 then 0 else (nrBit - 1) / bitsPerLong + 1

def segValidityTableBlocks (nrSegment : Nat) : Nat :=
  if nrSegment = 0 then 0
  else (((nrSegment - 1) / bitsPerLong + 1) * longSize - 1) / metadataBlockSize + 1

/-- The places in `struct superblock`, in blocks, and what the tables are made from. -/
structure Superblock where
  nrSegment : Nat
  nrDiskLevel : Nat
  commonRatio : Nat
  maxDiskLevelCapacity : Nat
  indexRegionStart : Nat
  journalRegionStart : Nat
  segValidityTableStart : Nat
  dataSegTableStart : Nat
  reverseIndexTableStart : Nat
  blockIndexTableCatalogueStart : Nat

/-- `superblock_init` on a device without a superblock.  The journal has no entries, of size
zero. -/
def superblockInit (nrSegment : Nat) : Superblock :=
  let capacity := nrSegment * blocksPerSegment
  let index := 0 + bytesToBlock superblockSize metadataBlockSize
  let journal := index +
    indexRegionBlocks defaultLsmTreeNrDiskLevel lsmTreeDiskLevelCommonRatio capacity
  let validity := journal + diskArrayBlocks 0 0 metadataBlockSize
  let segments := validity + segValidityTableBlocks nrSegment
  let reverse := segments + diskArrayBlocks nrSegment dstEntrySize metadataBlockSize
  { nrSegment := nrSegment
    nrDiskLevel := defaultLsmTreeNrDiskLevel
    commonRatio := lsmTreeDiskLevelCommonRatio
    maxDiskLevelCapacity := capacity
    indexRegionStart := index
    journalRegionStart := journal
    segValidityTableStart := validity
    dataSegTableStart := segments
    reverseIndexTableStart := reverse
    blockIndexTableCatalogueStart := reverse +
      diskArrayBlocks (nrSegment * blocksPerSegment) reverseIndexEntrySize metadataBlockSize }

/-- `struct disk_array`. -/
structure DiskArray where
  start : Nat
  nrEntry : Nat
  entrySize : Nat
  entriesPerBlock : Nat

def diskArrayInit (start nrEntry entrySize : Nat) : DiskArray where
  start := start
  nrEntry := nrEntry
  entrySize := entrySize
  entriesPerBlock := metadataBlockSize / entrySize

variable {start nrEntry entrySize : Nat}

namespace DiskArray

/-- The block that `disk_array_set` and `disk_array_get` lock. -/
def entryBlock (a : DiskArray) (index : Nat) : Except Errno Nat :=
  if a.nrEntry ≤ index then .error .einval else .ok (a.start + index / a.entriesPerBlock)

/-- The loop of `disk_array_format`: the blocks that are locked while `total` bytes are left. -/
def formatLoop (start total shift : Nat) : List Nat :=
  if total = 0 then []
  else (start + shift) :: formatLoop start (total - min total metadataBlockSize) (shift + 1)
termination_by total
decreasing_by
  unfold metadataBlockSize
  omega

/-- The blocks that `disk_array_format` locks. -/
def formatBlocks (a : DiskArray) : List Nat :=
  formatLoop a.start
    (diskArrayBlocks a.nrEntry a.entrySize metadataBlockSize * metadataBlockSize) 0

/-- The block is locked by `set`, `get` or `format`. -/
def Touches (a : DiskArray) (block : Nat) : Prop :=
  (∃ index, a.entryBlock index = .ok block) ∨ block ∈ a.formatBlocks

theorem formatLoop_eq (start count shift : Nat) :
    formatLoop start (count * metadataBlockSize) shift = List.range' (start + shift) count := by
  induction count generalizing shift with
  | zero =>
    rw [Nat.zero_mul, formatLoop, if_pos rfl]
    rfl
  | succ count ih =>
    have some : (count + 1) * metadataBlockSize ≠ 0 := Nat.succ_ne_zero _
    have left : (count + 1) * metadataBlockSize -
        min ((count + 1) * metadataBlockSize) metadataBlockSize = count * metadataBlockSize := by
      unfold metadataBlockSize
      omega
    rw [formatLoop, if_neg some, left, ih, range'_succ, Nat.add_assoc]

theorem mem_formatBlocks (start nrEntry entrySize block : Nat) :
    block ∈ (diskArrayInit start nrEntry entrySize).formatBlocks ↔
      (⟨start, diskArrayBlocks nrEntry entrySize metadataBlockSize⟩ : Span).Contains block := by
  rw [formatBlocks, formatLoop_eq, mem_range'_1]
  rfl

/-- The blocks of an array are those from its start up to the last that `format` clears. -/
theorem touches_diskArrayInit (some : 0 < entrySize) (small : entrySize ≤ metadataBlockSize)
    (block : Nat) :
    (diskArrayInit start nrEntry entrySize).Touches block ↔
      (⟨start, diskArrayBlocks nrEntry entrySize metadataBlockSize⟩ : Span).Contains block := by
  have perBlock : 0 < metadataBlockSize / entrySize := Nat.div_pos small some
  have formatted := mem_formatBlocks start nrEntry entrySize block
  constructor
  · rintro (⟨index, locked⟩ | cleared)
    · unfold entryBlock at locked
      split at locked
      · cases locked
      · rename_i inside
        obtain rfl := Except.ok.inj locked
        have below : index / (metadataBlockSize / entrySize) ≤
            nrEntry / (metadataBlockSize / entrySize) := Nat.div_le_div_right (not_le.mp inside).le
        rw [diskArrayBlocks, if_neg some.ne']
        exact ⟨Nat.le_add_right _ _, Nat.add_lt_add_left (Nat.lt_succ_of_le below) _⟩
    · exact formatted.mp cleared
  · exact fun inside => .inr (formatted.mpr inside)

end DiskArray

/-- `struct disk_bitset`. -/
structure DiskBitset where
  nrBit : Nat
  array : DiskArray

def diskBitsetInit (start nrBit : Nat) : DiskBitset where
  nrBit := nrBit
  array := diskArrayInit start (diskBitsetNrGroup nrBit) longSize

namespace DiskBitset

/-- The block that `__disk_bitset_operate` locks to set or clear a bit. -/
def operateBlock (b : DiskBitset) (index : Nat) : Except Errno Nat :=
  if b.nrBit ≤ index then .error .einval else b.array.entryBlock (index / bitsPerLong)

/-- The block that `disk_bitset_get` locks. -/
def getBlock (b : DiskBitset) (index : Nat) : Except Errno Nat :=
  b.array.entryBlock (index / bitsPerLong)

/-- The block is locked by `set`, `clear`, `get` or `format`. -/
def Touches (b : DiskBitset) (block : Nat) : Prop :=
  (∃ index, b.operateBlock index = .ok block) ∨ (∃ index, b.getBlock index = .ok block) ∨
    block ∈ b.array.formatBlocks

theorem touches_iff {b : DiskBitset} {block : Nat} : b.Touches block ↔ b.array.Touches block := by
  constructor
  · rintro (⟨index, locked⟩ | ⟨index, locked⟩ | formatted)
    · unfold operateBlock at locked
      split at locked
      · cases locked
      · exact .inl ⟨_, locked⟩
    · exact .inl ⟨_, locked⟩
    · exact .inr formatted
  · rintro (⟨group, locked⟩ | formatted)
    · refine .inr (.inl ⟨group * bitsPerLong, ?_⟩)
      rw [getBlock, Nat.mul_div_cancel _ (by decide : 0 < bitsPerLong)]
      exact locked
    · exact .inr (.inr formatted)

theorem inside_iff (start nrBit : Nat) :
    (∀ block, (diskBitsetInit start nrBit).Touches block →
        (⟨start, segValidityTableBlocks nrBit⟩ : Span).Contains block) ↔
      diskBitsetNrGroup nrBit % 512 ≠ 0 := by
  simp only [touches_iff, diskBitsetInit,
    DiskArray.touches_diskArrayInit (by decide : 0 < longSize) (by decide), Span.subset_iff]
  simp only [diskArrayBlocks, segValidityTableBlocks, diskBitsetNrGroup, longSize, bitsPerLong,
    metadataBlockSize]
  by_cases none : nrBit = 0
  · simp [none]
  · simp only [none, if_false, OfNat.ofNat_ne_zero, Nat.reduceDiv]
    omega

end DiskBitset

inductive MetaTable where
  | array (region : Span) (a : DiskArray)
  | bitset (region : Span) (b : DiskBitset)

def MetaTable.region : MetaTable → Span
  | .array region _ => region
  | .bitset region _ => region

def MetaTable.Touches : MetaTable → Nat → Prop
  | .array _ a => a.Touches
  | .bitset _ b => b.Touches

def MetaTable.Inside (table : MetaTable) : Prop :=
  ∀ block, table.Touches block → table.region.Contains block

namespace Superblock

variable (s : Superblock)

/-- `max_fd` of `bit_catalogue_init`. -/
def maxFd : Nat :=
  totalBit s.nrDiskLevel s.commonRatio s.maxDiskLevelCapacity + extraBit s.maxDiskLevelCapacity

/-- An array at `start`, with the blocks that `__disk_array_blocks` counts. -/
def arrayAt (start nrEntry entrySize : Nat) : MetaTable :=
  .array ⟨start, diskArrayBlocks nrEntry entrySize metadataBlockSize⟩
    (diskArrayInit start nrEntry entrySize)

/-- A validity table at `start`, with the blocks that `__seg_validity_table_blocks` counts. -/
def bitsetAt (start nrBit : Nat) : MetaTable :=
  .bitset ⟨start, segValidityTableBlocks nrBit⟩ (diskBitsetInit start nrBit)

/-- The tables that `metadata_init` and `bit_catalogue_init` make. -/
def tables : List MetaTable :=
  [bitsetAt s.segValidityTableStart s.nrSegment,
    arrayAt s.dataSegTableStart s.nrSegment dstEntrySize,
    arrayAt s.reverseIndexTableStart (s.nrSegment * blocksPerSegment) reverseIndexEntrySize,
    bitsetAt s.blockIndexTableCatalogueStart s.maxFd,
    arrayAt (s.blockIndexTableCatalogueStart + segValidityTableBlocks s.maxFd) s.maxFd fileStatSize]

def indexRegion : Span where
  start := s.indexRegionStart
  len := indexRegionBlocks s.nrDiskLevel s.commonRatio s.maxDiskLevelCapacity

def regions : List Span :=
  ⟨0, bytesToBlock superblockSize metadataBlockSize⟩ :: s.indexRegion ::
    s.tables.map MetaTable.region

/-- The regions are disjoint, the files are in the index region and the tables in theirs. -/
structure Sound : Prop where
  disjoint : s.regions.Pairwise Span.Disjoint
  slots : ∀ fd < s.maxFd, Bit.fileBegin (s.indexRegionStart * metadataBlockSize) fd +
    Bit.calculateBitSize defaultLsmFileCapacity Bit.bitDegree ≤
      (s.indexRegion.start + s.indexRegion.len) * metadataBlockSize
  inside : ∀ table ∈ s.tables, table.Inside

end Superblock

theorem le_bytesToBlock_mul (bytes : Nat) : bytes ≤ bytesToBlock bytes metadataBlockSize *
    metadataBlockSize := by
  unfold bytesToBlock metadataBlockSize
  split <;> omega

theorem superblockInit_tiles (nrSegment : Nat) :
    ∃ last, Tiles 0 (superblockInit nrSegment).regions last := by
  generalize isSuperblock : superblockInit nrSegment = s
  have index : s.indexRegionStart = 0 + bytesToBlock superblockSize metadataBlockSize := by
    rw [← isSuperblock]
    rfl
  have journal : diskArrayBlocks 0 0 metadataBlockSize = 0 := rfl
  have validity : s.segValidityTableStart = s.indexRegionStart + s.indexRegion.len := by
    rw [← isSuperblock]
    exact (congrArg (_ + ·) journal).trans (Nat.add_zero _)
  have segments : s.dataSegTableStart =
      s.segValidityTableStart + segValidityTableBlocks s.nrSegment := by
    rw [← isSuperblock]
    rfl
  have reverse : s.reverseIndexTableStart = s.dataSegTableStart +
      diskArrayBlocks s.nrSegment dstEntrySize metadataBlockSize := by
    rw [← isSuperblock]
    rfl
  have catalogue : s.blockIndexTableCatalogueStart = s.reverseIndexTableStart +
      diskArrayBlocks (s.nrSegment * blocksPerSegment) reverseIndexEntrySize
        metadataBlockSize := by
    rw [← isSuperblock]
    rfl
  rw [index] at validity
  rw [validity] at segments
  rw [segments] at reverse
  rw [reverse] at catalogue
  exact ⟨_, rfl, index, validity, segments, reverse, catalogue, catalogue ▸ rfl, rfl⟩

theorem superblockInit_slots (nrSegment : Nat) {fd : Nat}
    (inside : fd < (superblockInit nrSegment).maxFd) :
    Bit.fileBegin ((superblockInit nrSegment).indexRegionStart * metadataBlockSize) fd +
        Bit.calculateBitSize defaultLsmFileCapacity Bit.bitDegree ≤
      ((superblockInit nrSegment).indexRegion.start + (superblockInit nrSegment).indexRegion.len) *
        metadataBlockSize := by
  have all := le_bytesToBlock_mul ((superblockInit nrSegment).maxFd *
    Bit.calculateBitSize defaultLsmFileCapacity Bit.bitDegree)
  have slot := Nat.mul_le_mul_right
    (Bit.calculateBitSize defaultLsmFileCapacity Bit.bitDegree) (Nat.succ_le_of_lt inside)
  rw [Nat.succ_mul] at slot
  have region : (superblockInit nrSegment).indexRegion.len =
      bytesToBlock ((superblockInit nrSegment).maxFd *
        Bit.calculateBitSize defaultLsmFileCapacity Bit.bitDegree) metadataBlockSize := rfl
  rw [Bit.fileBegin, Nat.add_mul, region, Nat.add_assoc]
  exact Nat.add_le_add_left (slot.trans all) _

theorem arrayAt_inside (some : 0 < entrySize) (small : entrySize ≤ metadataBlockSize) :
    (Superblock.arrayAt start nrEntry entrySize).Inside := fun block touched =>
  (DiskArray.touches_diskArrayInit some small block).mp touched

/-- The layout is sound exactly if neither validity table, that of the segments and that of the
files, has groups of bits that fill their blocks. -/
theorem superblockInit_sound_iff (nrSegment : Nat) :
    (superblockInit nrSegment).Sound ↔
      diskBitsetNrGroup nrSegment % 512 ≠ 0 ∧
        diskBitsetNrGroup (superblockInit nrSegment).maxFd % 512 ≠ 0 := by
  obtain ⟨last, tiles⟩ := superblockInit_tiles nrSegment
  constructor
  · intro sound
    have segments := sound.inside _ mem_cons_self
    have catalogue := sound.inside (Superblock.bitsetAt
      (superblockInit nrSegment).blockIndexTableCatalogueStart (superblockInit nrSegment).maxFd)
      (by simp [Superblock.tables])
    exact ⟨(DiskBitset.inside_iff _ _).mp segments, (DiskBitset.inside_iff _ _).mp catalogue⟩
  · rintro ⟨segments, catalogue⟩
    refine ⟨tiles.pairwise_disjoint, fun fd => superblockInit_slots nrSegment, ?_⟩
    simp only [Superblock.tables, mem_cons, not_mem_nil, or_false, forall_eq_or_imp,
      forall_eq]
    exact ⟨(DiskBitset.inside_iff _ _).mpr segments, arrayAt_inside (by decide) (by decide),
      arrayAt_inside (by decide) (by decide), (DiskBitset.inside_iff _ _).mpr catalogue,
      arrayAt_inside (by decide) (by decide)⟩

/-- With 32768 segments, the format of the segment validity table goes on to the first block of
the data segment table. -/
theorem superblockInit_overrun :
    ∃ table ∈ (superblockInit 32768).tables,
      table.Touches (superblockInit 32768).dataSegTableStart ∧
        ¬ table.region.Contains (superblockInit 32768).dataSegTableStart := by
  refine ⟨_, mem_cons_self, ?_, fun inside => lt_irrefl _ inside.2⟩
  apply DiskBitset.touches_iff.mpr
  apply (DiskArray.touches_diskArrayInit (by decide) (by decide) _).mpr
  exact ⟨Nat.le_add_right _ _, Nat.add_lt_add_left (by decide) _⟩

end SwornDisk.C
