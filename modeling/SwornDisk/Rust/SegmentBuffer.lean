import SwornDisk.Rust.DataReads

/-!
# Blocks of the segment buffer

A block is written in place, or logged at a place of the buffer that no address uses.  The part
of the buffer that is not in use is zero.
-/

namespace SwornDisk.Rust

open Lib List Function Option

variable {X : Type}

def zeroBlock : List UInt8 := List.replicate blockSize 0

def DataSegment.content (segment : DataSegment) (lba : Nat) : List UInt8 :=
  (segment.read lba).getD zeroBlock

variable {lba : Nat}

theorem DataSegment.read_eq_none_iff {segment : DataSegment} :
    segment.read lba = none ↔ segment.lbaIndexMap.find lba = none := by
  unfold DataSegment.read
  cases segment.lbaIndexMap.find lba <;> simp

def CleanBuffer (s : DataPath X) : Prop :=
  ∀ block, (∀ lba, s.segment.lbaIndexMap.find lba ≠ some (block * blockSize)) →
    s.segment.buffer.read (block * blockSize) blockSize = zeroBlock

variable {other index : Nat}

section

variable {nrSegments : Nat} {s s' : DataPath X} {lba block offset : Nat} {data : List UInt8}

theorem cleanBuffer_zeroed (zero : s.segment.buffer = Memory.zeroed) : CleanBuffer s := by
  intro block _
  rw [zero, Memory.read_zeroed]
  rfl

theorem CleanBuffer.congr (clean : CleanBuffer s) (segment : s'.segment = s.segment) :
    CleanBuffer s' := by
  unfold CleanBuffer
  rw [segment]
  exact clean

theorem DataPath.fillBlock_eq (s : DataPath X) (bound : block < segmentBlockNumber)
    (fits : offset + data.length ≤ blockSize) :
    s.fillBlock (block * blockSize) offset data = (.ok (),
      { s with
        segment :=
          { s.segment with
            buffer := s.segment.buffer.write (block * blockSize + offset) data } }) := by
  have last := block_inside bound
  unfold DataPath.fillBlock
  rw [if_pos (by omega)]

theorem DataPath.logBlock_eq (s : DataPath X) (lba : Nat) (bound : block < segmentBlockNumber)
    (fits : offset + data.length ≤ blockSize) :
    s.logBlock lba block offset data = (.ok (block, s.segment.hba + block * blockSectors),
      { s with
        segment :=
          { s.segment with
            buffer := s.segment.buffer.write (block * blockSize + offset) data
            lbaIndexMap := s.segment.lbaIndexMap.insert lba (block * blockSize)
            used := s.segment.used + 1 } }) := by
  unfold DataPath.logBlock
  rw [s.fillBlock_eq bound fits]

theorem read_write_other_block (buffer : Memory) (differ : other ≠ block)
    (fits : offset + data.length ≤ blockSize) :
    (buffer.write (block * blockSize + offset) data).read (other * blockSize) blockSize =
      buffer.read (other * blockSize) blockSize := by
  apply Memory.read_write_disjoint
  rcases blocks_apart differ with before | after
  · left
    omega
  · right
    omega

section

variable (bound : block < segmentBlockNumber) (fits : offset + data.length ≤ blockSize)
  (unused : ∀ lba, s.segment.lbaIndexMap.find lba ≠ some (block * blockSize))
include bound fits unused

theorem PathInv.read_logBlock_other (inv : PathInv nrSegments s) (differ : other ≠ lba) :
    (s.logBlock lba block offset data).2.segment.read other = s.segment.read other := by
  rw [s.logBlock_eq lba bound fits]
  unfold DataSegment.read
  simp only [OrdMap.find_insert, update_of_ne differ]
  cases found : s.segment.lbaIndexMap.find other with
  | none => rfl
  | some index =>
    obtain ⟨mapped, -, rfl, -⟩ := inv.marked other index found
    have apart : mapped ≠ block := by
      rintro rfl
      exact unused other found
    exact congrArg some (read_write_other_block _ apart fits)

omit unused in
theorem CleanBuffer.logBlock (clean : CleanBuffer s)
    (missing : s.segment.lbaIndexMap.find lba = none) :
    CleanBuffer (s.logBlock lba block offset data).2 := by
  intro other free
  rw [s.logBlock_eq lba bound fits] at free ⊢
  simp only [OrdMap.find_insert] at free
  have apart : other ≠ block := by
    rintro rfl
    exact free lba (update_self _ _ _)
  simp only
  rw [read_write_other_block _ apart fits]
  apply clean
  intro other'
  by_cases same : other' = lba
  · rw [same, missing]
    exact nofun
  · have before := free other'
    rwa [update_of_ne same] at before

end

theorem ReadInv.read_fillBlock_other (inv : ReadInv nrSegments s)
    (found : s.segment.lbaIndexMap.find lba = some index)
    (fits : offset + data.length ≤ blockSize) (differ : other ≠ lba) :
    (s.fillBlock index offset data).2.segment.read other = s.segment.read other := by
  obtain ⟨block, bound, rfl, -⟩ := inv.marked lba index found
  rw [s.fillBlock_eq bound fits]
  unfold DataSegment.read
  simp only
  cases here : s.segment.lbaIndexMap.find other with
  | none => rfl
  | some index =>
    obtain ⟨mapped, -, rfl, -⟩ := inv.marked other index here
    have apart : mapped ≠ block := by
      rintro rfl
      exact differ (inv.distinct other lba _ here found)
    exact congrArg some (read_write_other_block _ apart fits)

theorem CleanBuffer.fillBlock (clean : CleanBuffer s) (inv : PathInv nrSegments s)
    (found : s.segment.lbaIndexMap.find lba = some index)
    (fits : offset + data.length ≤ blockSize) :
    CleanBuffer (s.fillBlock index offset data).2 := by
  obtain ⟨block, bound, rfl, -⟩ := inv.marked lba index found
  intro other free
  rw [s.fillBlock_eq bound fits] at free ⊢
  have apart : other ≠ block := by
    rintro rfl
    exact free lba found
  simp only
  rw [read_write_other_block _ apart fits]
  exact clean other free

end

section

variable {s : DataPath X} (kernel : Kernel) (inside : s.Inside)
include inside

theorem DataPath.map_doFlush : (s.doFlush kernel).2.segment.lbaIndexMap = OrdMap.empty := by
  rcases DataPath.doFlush_cases kernel inside with
    ⟨_, _, -, -, -, -, map⟩ | ⟨_, -, -, -, -, map⟩ <;> exact map

theorem cleanBuffer_doFlush : CleanBuffer (s.doFlush kernel).2 := by
  apply cleanBuffer_zeroed
  rw [s.doFlush_eq kernel inside]
  unfold DataPath.nextSegment
  split <;> rfl

theorem DataPath.dataDev_doFlush :
    (s.doFlush kernel).2.dataDev = s.dataDev.writeSectors s.segment.hba segmentSectors
      (s.encryptEntries kernel s.segment.lbaIndexMap.entries).2.segment.buffer := by
  have frame := s.sameFrame_encryptEntries kernel s.segment.lbaIndexMap.entries
  rw [s.doFlush_eq kernel inside, ← frame.dataDev, ← frame.hba]
  unfold DataPath.nextSegment
  split <;> rfl

end

end SwornDisk.Rust
