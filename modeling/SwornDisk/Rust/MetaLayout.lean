import SwornDisk.Rust.CheckpointDisk
import SwornDisk.Rust.IndexRegion
import SwornDisk.Rust.RequestSplit

/-!
# Layout of the meta device

`SuperBlock::new` puts the index region behind a segment for the superblocks, the journal behind
the index region and the checkpoint behind the journal, from half and a quarter of the size of the
meta device; nothing compares the result with that size.  Sizes in bytes are those of real
devices, so that no product overflows.
-/

namespace SwornDisk.Rust

open Lib List

theorem sectorSize_eq : sectorSize = 512 := by
  unfold sectorSize
  rfl

theorem segmentSize_eq : segmentSize = 4194304 := by
  rw [← segmentSectors_mul_sectorSize, segmentSectors_eq, sectorSize_eq]

structure MetaLayout where
  superBlocks : Span
  index : Span
  journal : Span
  checkpoint : Span

/-- The header sector and the body that `Checkpoint::write_to_disk` writes. -/
def Checkpoint.span (c : StoredCheckpoint) (checkpointHba : Nat) : Span where
  start := checkpointHba * sectorSize
  len := (1 + sectorCount c.body.length) * sectorSize

/-- `DmSwornDiskHandler::ctr` on two devices without a superblock: both copies of the superblock
are written, and a data segment is allocated for the buffer. -/
def ctrLayout (dataDev metaDev : Device) (times : Nat → Nat) : Except Error MetaLayout := do
  if metaDev.sectors < 2 * blockSectors then
    .error .eio
  let superblock := metaDev.superBlock
  let checkpoint : StoredCheckpoint := Checkpoint.new BitCategory.new
    (superBlockDataSegments dataDev) superblock.nrIndexSegments times
  let (_, svt) ← svtAlloc checkpoint.dataSvt
  return {
    superBlocks := ⟨0, 2 * blockSize⟩
    index := ⟨superblock.indexRegion, superblock.nrIndexSegments * segmentSize⟩
    journal := ⟨superblock.journalRegion, metaDev.sectors * sectorSize / 4⟩
    checkpoint := Checkpoint.span { checkpoint with dataSvt := svt }
      (superblock.checkpointRegion / sectorSize) }

def MetaLayout.parts (layout : MetaLayout) : List Span :=
  [layout.superBlocks, layout.index, layout.journal, layout.checkpoint]

structure MetaLayout.Sound (layout : MetaLayout) (metaDev : Device) : Prop where
  disjoint : layout.parts.Pairwise Span.Disjoint
  inside : ∀ span ∈ layout.parts, span.start + span.len ≤ metaDev.sectors * sectorSize

/-- The length of the body for `dataSegs` data segments and `indexSegs` index segments. -/
def newBodyLength (dataSegs indexSegs : Nat) : Nat :=
  74 + bitmapVecLen dataSegs + bitmapVecLen indexSegs + 161 * dataSegs

theorem length_serialize_bitMap (m : BitMap) : m.serialize.length = m.map.length + 17 := by
  simp only [BitMap.serialize, length_append, length_singleton, length_wordBytes]
  omega

theorem length_serialize_dstNew (now : Nat) : (Dst.new now).serialize.length = 161 := by
  rw [Dst.length_serialize, length_serialize_bitMap, Dst.new, BitMap.new, length_replicate]
  unfold segmentBlockNumber
  decide

theorem length_body_new (dataSegs indexSegs : Nat) (times : Nat → Nat) {svt : BitMap}
    (sized : svt.map.length = bitmapVecLen dataSegs) :
    ({ (Checkpoint.new BitCategory.new dataSegs indexSegs times : StoredCheckpoint) with
      dataSvt := svt }).body.length = newBodyLength dataSegs indexSegs := by
  have entries : (((range dataSegs).map fun i => Dst.new (times i)).flatMap
      Dst.serialize).length = dataSegs * 161 := by
    have sizes : ∀ dst ∈ (range dataSegs).map fun i => Dst.new (times i),
        dst.serialize.length = 161 := by
      simp [length_serialize_dstNew]
    rw [length_flatMap_of_sized sizes, length_map, length_range]
  have category : (BitCategory.new : BitCategory BitInfo).serialize.length = 32 := by decide
  simp only [Checkpoint.body, Checkpoint.new, length_append, length_wordBytes,
    length_serialize_bitMap, entries, category, sized]
  simp only [BitMap.new, length_replicate, newBodyLength]
  omega

/-- What `ctr` lays out when it succeeds. -/
def plannedLayout (dataDev metaDev : Device) : MetaLayout where
  superBlocks := ⟨0, 2 * blockSize⟩
  index := ⟨metaDev.superBlock.indexRegion, metaDev.superBlock.nrIndexSegments * segmentSize⟩
  journal := ⟨metaDev.superBlock.journalRegion, metaDev.sectors * sectorSize / 4⟩
  checkpoint :=
    { start := metaDev.superBlock.checkpointRegion / sectorSize * sectorSize
      len := (1 + sectorCount (newBodyLength (superBlockDataSegments dataDev)
        metaDev.superBlock.nrIndexSegments)) * sectorSize }

/-- `ctr` fails without room for the superblocks or without a data segment. -/
theorem ctrLayout_eq (dataDev metaDev : Device) (times : Nat → Nat) :
    ctrLayout dataDev metaDev times =
      if metaDev.sectors < 2 * blockSectors then .error .eio
      else if superBlockDataSegments dataDev = 0 then .error .enospc
      else .ok (plannedLayout dataDev metaDev) := by
  unfold ctrLayout
  split
  · rfl
  · simp only
    split
    · rename_i none
      rw [Checkpoint.new, svtAlloc, if_pos (by rw [none]; rfl)]
      rfl
    · rename_i some
      obtain ⟨first, svt, taken⟩ := (BitMap.valid_new _).alloc_of_clear
        (Nat.pos_of_ne_zero some) (BitMap.bit_new _ 0)
      obtain ⟨-, -, -, valid, maxLen, -⟩ := (BitMap.valid_new _).alloc_ok taken
      have sized : svt.map.length = bitmapVecLen (superBlockDataSegments dataDev) := by
        rw [valid.sized, maxLen]
        rfl
      have allocated : svtAlloc (Checkpoint.new BitCategory.new (superBlockDataSegments dataDev)
          metaDev.superBlock.nrIndexSegments times : StoredCheckpoint).dataSvt = .ok (first, svt) :=
        (svtAlloc_eq _).trans taken
      rw [allocated]
      change Except.ok _ = _
      simp only [Checkpoint.span, length_body_new _ _ _ sized]
      rfl

/-- The parts follow each other when the journal ends on a sector, so they are disjoint exactly
then; the checkpoint is the last of them. -/
theorem plannedLayout_sound_iff (dataDev metaDev : Device) :
    (plannedLayout dataDev metaDev).Sound metaDev ↔
      metaDev.sectors % 4 = 0 ∧
        segmentSectors * (1 + metaDev.superBlock.nrIndexSegments) + metaDev.sectors / 4 + 1 +
          sectorCount (newBodyLength (superBlockDataSegments dataDev)
            metaDev.superBlock.nrIndexSegments) ≤ metaDev.sectors := by
  have journalRegion : metaDev.superBlock.journalRegion =
      segmentSize + metaDev.superBlock.nrIndexSegments * segmentSize := rfl
  have checkpointRegion : metaDev.superBlock.checkpointRegion =
      metaDev.superBlock.journalRegion + metaDev.sectors * sectorSize / 4 := rfl
  generalize isLength : sectorCount _ = sectors
  constructor
  · intro sound
    have apart := sound.disjoint
    have last := sound.inside (plannedLayout dataDev metaDev).checkpoint
      (by simp [MetaLayout.parts])
    simp only [MetaLayout.parts, pairwise_cons, mem_cons, not_mem_nil, or_false,
      forall_eq_or_imp, forall_eq, Span.disjoint_iff] at apart
    have behind := apart.2.2.1
    simp only [plannedLayout, isLength, checkpointRegion, journalRegion, segmentSize_eq,
      sectorSize_eq] at behind last
    rw [segmentSectors_eq]
    omega
  · rintro ⟨whole, fits⟩
    rw [segmentSectors_eq] at fits
    constructor
    · simp only [MetaLayout.parts, pairwise_cons, mem_cons, not_mem_nil, or_false,
        forall_eq_or_imp, forall_eq, false_implies, implies_true, Pairwise.nil, and_true,
        Span.disjoint_iff]
      simp only [plannedLayout, isLength, checkpointRegion, journalRegion, segmentSize_eq,
        sectorSize_eq, blockSize_eq,
        show metaDev.superBlock.indexRegion = segmentSize from rfl]
      omega
    · simp only [MetaLayout.parts, mem_cons, not_mem_nil, or_false, forall_eq_or_imp,
        forall_eq]
      simp only [plannedLayout, isLength, checkpointRegion, journalRegion, segmentSize_eq,
        sectorSize_eq, blockSize_eq,
        show metaDev.superBlock.indexRegion = segmentSize from rfl]
      omega

/-- Construction fails or the parts are disjoint and on the device, exactly if there is no room
for the superblocks, no data segment, or the meta device has a multiple of four sectors that hold
the superblock segment, the index segments, a quarter for the journal and the checkpoint. -/
theorem ctrLayout_sound_iff (dataDev metaDev : Device) (times : Nat → Nat) :
    (∀ layout, ctrLayout dataDev metaDev times = .ok layout → layout.Sound metaDev) ↔
      metaDev.sectors < 2 * blockSectors ∨ superBlockDataSegments dataDev = 0 ∨
        (metaDev.sectors % 4 = 0 ∧
          segmentSectors * (1 + metaDev.superBlock.nrIndexSegments) + metaDev.sectors / 4 + 1 +
            sectorCount (newBodyLength (superBlockDataSegments dataDev)
              metaDev.superBlock.nrIndexSegments) ≤ metaDev.sectors) := by
  rw [← plannedLayout_sound_iff, ctrLayout_eq]
  by_cases small : metaDev.sectors < 2 * blockSectors
  · simp [small]
  · by_cases none : superBlockDataSegments dataDev = 0
    · simp [small, none]
    · simp only [small, none, if_false, Except.ok.injEq, forall_eq', false_or]

/-- A data device of one segment and a meta device of 8 MiB: the superblocks' segment and two
index segments alone take 12 MiB. -/
theorem ctrLayout_overrun :
    ∃ layout, ctrLayout ⟨8192, Memory.zeroed⟩ ⟨16384, Memory.zeroed⟩ (fun _ => 0) = .ok layout ∧
      ¬ layout.Sound ⟨16384, Memory.zeroed⟩ := by
  refine ⟨plannedLayout ⟨8192, Memory.zeroed⟩ ⟨16384, Memory.zeroed⟩, ?_, ?_⟩
  · have some : superBlockDataSegments ⟨8192, Memory.zeroed⟩ = 1 := by
      unfold superBlockDataSegments
      rw [blockSize_eq, sectorSize_eq]
      unfold segmentBlockNumber
      rfl
    rw [ctrLayout_eq, some, blockSectors_eq]
    rfl
  · rw [plannedLayout_sound_iff]
    have two : (Device.mk 16384 Memory.zeroed).superBlock.nrIndexSegments = 2 := by
      unfold Device.superBlock SuperBlock.new
      simp only [segmentSize_eq, sectorSize_eq]
      rfl
    rw [two, segmentSectors_eq]
    simp only
    omega

end SwornDisk.Rust
