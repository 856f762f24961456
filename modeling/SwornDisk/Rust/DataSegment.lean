import SwornDisk.Lib.Aead
import SwornDisk.Lib.Bytes
import SwornDisk.Rust.BitMap

/-!
# Data segment buffer of the Rust implementation

`DataSegment` of `regions/data/segment.rs` over the tables of the checkpoint it uses:
writes go to the buffer at a block of the current segment, and a full segment is
encrypted, written back and replaced by a newly allocated one (`do_flush`).
Allocation of kernel memory and random numbers are taken to succeed.
-/

namespace SwornDisk.Rust

open Lib

-- The sizes are irreducible so that no proof step computes with them by accident.

@[irreducible] def sectorSize : Nat := 512

@[irreducible] def blockSize : Nat := 4096

@[irreducible] def segmentBlockNumber : Nat := 1024

def blockSectors : Nat := blockSize / sectorSize

def segmentSize : Nat := blockSize * segmentBlockNumber

def segmentSectors : Nat := segmentBlockNumber * blockSectors

theorem blockSectors_eq : blockSectors = 8 := by
  unfold blockSectors blockSize sectorSize
  rfl

theorem segmentSectors_eq : segmentSectors = 8192 := by
  unfold segmentSectors segmentBlockNumber
  rw [blockSectors_eq]

theorem blockSectors_mul_sectorSize : blockSectors * sectorSize = blockSize := by
  rw [blockSectors_eq]
  unfold sectorSize blockSize
  rfl

theorem segmentSectors_mul_sectorSize : segmentSectors * sectorSize = segmentSize := by
  unfold segmentSectors segmentSize
  rw [Nat.mul_assoc, blockSectors_mul_sectorSize, Nat.mul_comm]

/-- `KeyType` -/
abbrev Key := Vector UInt8 16

/-- `NonceType` -/
abbrev Nonce := Vector UInt8 12

/-- `MacType` -/
abbrev Mac := Vector UInt8 16

/-- `Record`: sector address and what opens the block stored there. -/
structure Record where
  hba : Nat
  key : Key
  nonce : Nonce
  mac : Mac
deriving DecidableEq

/-- How a function stops early: with an error code, or by a failed bounds check or
assertion. -/
inductive Fault where
  | error (err : Error)
  | panic
deriving DecidableEq, Repr

/-- What the kernel provides: the cipher, the random numbers in the order they are
drawn, and the clock. -/
structure Kernel where
  aead : ByteAead Key Nonce Mac
  randomKey : Nat → Key
  randomNonce : Nat → Nonce
  timestamp : Nat → Nat

/-- `DST`: block validity map of one segment, with the time of its last change. -/
structure Dst where
  bvm : BitMap
  lastModify : Nat
deriving DecidableEq

def Dst.new (now : Nat) : Dst := ⟨BitMap.new segmentBlockNumber, now⟩

def Dst.allocBlock (dst : Dst) (now : Nat) : Except Error (Nat × Dst) :=
  match dst.bvm.alloc with
  | .error err => .error err
  | .ok (index, bvm) => .ok (index, ⟨bvm, now⟩)

def svtAlloc (svt : BitMap) : Except Error (Nat × BitMap) :=
  if svt.isFull then .error .enospc else svt.alloc

/-- `Checkpoint`; `X` is the BIT category. -/
structure Checkpoint (X : Type) where
  dataSvt : BitMap
  indexSvt : BitMap
  dst : List Dst
  currentDataSegment : Nat
  bitCategory : X

/-- `Checkpoint::new`, with the times at which its table entries are made. -/
def Checkpoint.new {X : Type} (category : X) (dataSegs indexSegs : Nat) (times : Nat → Nat) :
    Checkpoint X where
  dataSvt := BitMap.new dataSegs
  indexSvt := BitMap.new indexSegs
  dst := (List.range dataSegs).map fun i => Dst.new (times i)
  currentDataSegment := 0
  bitCategory := category

/-- `DataSegment` -/
structure DataSegment where
  buffer : Memory
  hba : Nat
  used : Nat
  lbaIndexMap : OrdMap Nat

def DataSegment.new (hba : Nat) : DataSegment where
  buffer := Memory.zeroed
  hba := hba
  used := 0
  lbaIndexMap := OrdMap.empty

/-- A block device of `sectors` sectors. -/
structure Device where
  sectors : Nat
  bytes : Memory

def Device.readSectors (dev : Device) (hba count : Nat) : List UInt8 :=
  if hba + count ≤ dev.sectors then dev.bytes.read (hba * sectorSize) (count * sectorSize)
  else List.replicate (count * sectorSize) 0

/-- Write sectors from a buffer; a request beyond the end is not carried out. -/
def Device.writeSectors (dev : Device) (hba count : Nat) (source : Memory) : Device :=
  if hba + count ≤ dev.sectors then
    { dev with bytes := dev.bytes.copy (hba * sectorSize) source (count * sectorSize) }
  else dev

@[simp] theorem sectors_writeSectors (dev : Device) (hba count : Nat) (source : Memory) :
    (dev.writeSectors hba count source).sectors = dev.sectors := by
  unfold Device.writeSectors
  split <;> rfl

theorem Device.readSectors_writeSectors_same {dev : Device} {hba count : Nat} (source : Memory)
    (inRange : hba + count ≤ dev.sectors) :
    (dev.writeSectors hba count source).readSectors hba count =
      source.read 0 (count * sectorSize) := by
  unfold Device.readSectors Device.writeSectors
  rw [if_pos inRange, if_pos inRange]
  exact Memory.read_copy_inside _ _ (Nat.zero_add _).le

theorem Device.readSectors_writeSectors_disjoint (dev : Device) {hba count other len : Nat}
    (source : Memory) (disjoint : other + len ≤ hba ∨ hba + count ≤ other) :
    (dev.writeSectors hba count source).readSectors other len = dev.readSectors other len := by
  unfold Device.writeSectors
  split
  · unfold Device.readSectors
    split
    · refine Memory.read_copy_disjoint _ _ ?_
      rcases disjoint with below | above
      · left
        rw [← Nat.add_mul]
        exact Nat.mul_le_mul_right _ below
      · right
        rw [← Nat.add_mul]
        exact Nat.mul_le_mul_right _ above
    · rfl
  · rfl

def openRecord (kernel : Kernel) (dev : Device) (record : Record) : Except Fault (List UInt8) :=
  match kernel.aead.decrypt record.key record.mac record.nonce
      (dev.readSectors record.hba blockSectors) with
  | some plain => .ok plain
  | none => .error (.error .ebadmsg)

/-- What `DataSegment` works on. -/
structure DataPath (X : Type) where
  segment : DataSegment
  checkpoint : Checkpoint X
  memtable : MemTable Record
  dataDev : Device
  draws : Nat
  ticks : Nat

variable {X : Type}

/-- `DataSegment::read` of a whole block. -/
def DataSegment.read (segment : DataSegment) (lba : Nat) : Option (List UInt8) :=
  match segment.lbaIndexMap.find lba with
  | some index => some (segment.buffer.read index blockSize)
  | none => none

namespace DataPath

/-- One round of the encryption loop of `do_flush`. -/
def encryptEntry (kernel : Kernel) (s : DataPath X) (lba index : Nat) :
    Except Fault Unit × DataPath X :=
  if index + blockSize ≤ segmentSize then
    let key := kernel.randomKey s.draws
    let nonce := kernel.randomNonce s.draws
    let sealed := kernel.aead.encrypt key nonce (s.segment.buffer.read index blockSize)
    let record : Record :=
      ⟨s.segment.hba + index / blockSize * blockSectors, key, nonce, sealed.2⟩
    (.ok (),
      { s with
        segment := { s.segment with buffer := s.segment.buffer.write index sealed.1 }
        memtable := s.memtable.insert lba record
        draws := s.draws + 1 })
  else (.error .panic, s)

/-- The encryption loop of `do_flush`. -/
def encryptEntries (kernel : Kernel) (s : DataPath X) :
    List (Nat × Nat) → Except Fault Unit × DataPath X
  | [] => (.ok (), s)
  | (lba, index) :: rest =>
    match s.encryptEntry kernel lba index with
    | (.error fault, s) => (.error fault, s)
    | (.ok (), s) => s.encryptEntries kernel rest

/-- The writeback of `do_flush`, with a fresh buffer and map afterwards. -/
def writeback (s : DataPath X) : DataPath X :=
  { s with
    dataDev := s.dataDev.writeSectors s.segment.hba segmentSectors s.segment.buffer
    segment :=
      { s.segment with buffer := Memory.zeroed, used := 0, lbaIndexMap := OrdMap.empty } }

/-- The last part of `do_flush`: allocate the next segment. -/
def nextSegment (s : DataPath X) : Except Fault Unit × DataPath X :=
  match svtAlloc s.checkpoint.dataSvt with
  | .error err => (.error (.error err), s)
  | .ok (index, svt) =>
    (.ok (),
      { s with
        checkpoint := { s.checkpoint with dataSvt := svt, currentDataSegment := index }
        segment := { s.segment with hba := (1 + index) * segmentSectors } })

def doFlush (kernel : Kernel) (s : DataPath X) : Except Fault Unit × DataPath X :=
  match s.encryptEntries kernel s.segment.lbaIndexMap.entries with
  | (.error fault, s) => (.error fault, s)
  | (.ok (), s) => s.writeback.nextSegment

def allocBlock (kernel : Kernel) (s : DataPath X) : Except Fault Nat × DataPath X :=
  match s.checkpoint.dst[s.checkpoint.currentDataSegment]? with
  | none => (.error .panic, s)
  | some dst =>
    match dst.allocBlock (kernel.timestamp s.ticks) with
    | .error err => (.error (.error err), s)
    | .ok (index, dst) =>
      (.ok index,
        { s with
          checkpoint :=
            { s.checkpoint with
              dst := s.checkpoint.dst.set s.checkpoint.currentDataSegment dst }
          ticks := s.ticks + 1 })

def fillBlock (s : DataPath X) (index offset : Nat) (data : List UInt8) :
    Except Fault Unit × DataPath X :=
  if index + offset + data.length ≤ segmentSize then
    (.ok (),
      { s with
        segment := { s.segment with buffer := s.segment.buffer.write (index + offset) data } })
  else (.error .panic, s)

def logBlock (s : DataPath X) (lba blockIndex offset : Nat) (data : List UInt8) :
    Except Fault (Nat × Nat) × DataPath X :=
  match s.fillBlock (blockIndex * blockSize) offset data with
  | (.error fault, s) => (.error fault, s)
  | (.ok (), s) =>
    (.ok (blockIndex, s.segment.hba + blockIndex * blockSectors),
      { s with
        segment :=
          { s.segment with
            lbaIndexMap := s.segment.lbaIndexMap.insert lba (blockIndex * blockSize)
            used := s.segment.used + 1 } })

/-- `DataSegment::write`: in place if the address is in the buffer, else at a new block
of the current segment, after a flush if that is full. -/
def write (kernel : Kernel) (s : DataPath X) (lba offset : Nat) (data : List UInt8) :
    Except Fault (Nat × Nat) × DataPath X :=
  match s.segment.lbaIndexMap.find lba with
  | some index =>
    match s.fillBlock index offset data with
    | (.error fault, s) => (.error fault, s)
    | (.ok (), s) => (.ok (index / blockSize, s.segment.hba + index / blockSize * blockSectors), s)
  | none =>
    match s.allocBlock kernel with
    | (.ok blockIndex, s) => s.logBlock lba blockIndex offset data
    | (.error .panic, s) => (.error .panic, s)
    | (.error (.error _), s) =>
      match s.doFlush kernel with
      | (.error fault, s) => (.error fault, s)
      | (.ok (), s) =>
        match s.allocBlock kernel with
        | (.error fault, s) => (.error fault, s)
        | (.ok blockIndex, s) => s.logBlock lba blockIndex offset data

end DataPath

namespace DataPath

structure SameFrame (s s' : DataPath X) : Prop where
  checkpoint : s'.checkpoint = s.checkpoint
  hba : s'.segment.hba = s.segment.hba
  lbaIndexMap : s'.segment.lbaIndexMap = s.segment.lbaIndexMap
  used : s'.segment.used = s.segment.used
  dataDev : s'.dataDev = s.dataDev
  ticks : s'.ticks = s.ticks

theorem SameFrame.refl (s : DataPath X) : SameFrame s s :=
  ⟨rfl, rfl, rfl, rfl, rfl, rfl⟩

theorem SameFrame.trans {s s' s'' : DataPath X} (first : SameFrame s s')
    (second : SameFrame s' s'') : SameFrame s s'' where
  checkpoint := second.checkpoint.trans first.checkpoint
  hba := second.hba.trans first.hba
  lbaIndexMap := second.lbaIndexMap.trans first.lbaIndexMap
  used := second.used.trans first.used
  dataDev := second.dataDev.trans first.dataDev
  ticks := second.ticks.trans first.ticks

section

variable (kernel : Kernel) (s : DataPath X)

theorem sameFrame_encryptEntry (lba index : Nat) :
    SameFrame s (s.encryptEntry kernel lba index).2 := by
  unfold encryptEntry
  split
  · exact ⟨rfl, rfl, rfl, rfl, rfl, rfl⟩
  · exact SameFrame.refl s

theorem sameFrame_encryptEntries (entries : List (Nat × Nat)) :
    SameFrame s (s.encryptEntries kernel entries).2 := by
  induction entries generalizing s with
  | nil => exact SameFrame.refl s
  | cons entry rest ih =>
    obtain ⟨lba, index⟩ := entry
    have first := sameFrame_encryptEntry kernel s lba index
    unfold encryptEntries
    split
    · next fault s' encrypted =>
        rw [encrypted] at first
        exact first
    · next s' encrypted =>
        rw [encrypted] at first
        exact first.trans (ih s')

theorem encryptEntries_ok {entries : List (Nat × Nat)}
    (inside : ∀ entry ∈ entries, entry.2 + blockSize ≤ segmentSize) :
    (s.encryptEntries kernel entries).1 = .ok () := by
  induction entries generalizing s with
  | nil => rfl
  | cons entry rest ih =>
    obtain ⟨lba, index⟩ := entry
    have here : (s.encryptEntry kernel lba index).1 = .ok () := by
      unfold encryptEntry
      rw [if_pos (inside (lba, index) List.mem_cons_self)]
    unfold encryptEntries
    split
    · next fault s' encrypted =>
        rw [encrypted] at here
        cases here
    · next s' encrypted =>
        exact ih s' fun other member => inside other (List.mem_cons_of_mem _ member)

end

def Inside (s : DataPath X) : Prop :=
  ∀ lba index, s.segment.lbaIndexMap.find lba = some index → index + blockSize ≤ segmentSize

variable {s : DataPath X} (kernel : Kernel) (inside : s.Inside)
include inside

theorem doFlush_eq :
    s.doFlush kernel =
      (s.encryptEntries kernel s.segment.lbaIndexMap.entries).2.writeback.nextSegment := by
  have blocks : ∀ entry ∈ s.segment.lbaIndexMap.entries, entry.2 + blockSize ≤ segmentSize :=
    fun entry member => inside entry.1 entry.2 ((OrdMap.find_eq_some_iff_mem _).mpr member)
  have encrypted := s.encryptEntries_ok kernel blocks
  unfold doFlush
  split
  · next fault s' failed =>
      rw [failed] at encrypted
      cases encrypted
  · next s' done => rw [done]

theorem doFlush_cases :
    (∃ index svt, svtAlloc s.checkpoint.dataSvt = .ok (index, svt) ∧
      (s.doFlush kernel).1 = .ok () ∧
      (s.doFlush kernel).2.checkpoint =
        { s.checkpoint with dataSvt := svt, currentDataSegment := index } ∧
      (s.doFlush kernel).2.segment.hba = (1 + index) * segmentSectors ∧
      (s.doFlush kernel).2.segment.lbaIndexMap = OrdMap.empty) ∨
    (∃ err, svtAlloc s.checkpoint.dataSvt = .error err ∧
      (s.doFlush kernel).1 = .error (.error err) ∧
      (s.doFlush kernel).2.checkpoint = s.checkpoint ∧
      (s.doFlush kernel).2.segment.hba = s.segment.hba ∧
      (s.doFlush kernel).2.segment.lbaIndexMap = OrdMap.empty) := by
  have frame := sameFrame_encryptEntries kernel s s.segment.lbaIndexMap.entries
  rw [doFlush_eq kernel inside]
  generalize (s.encryptEntries kernel s.segment.lbaIndexMap.entries).2 = s' at frame
  have checkpoint : s'.writeback.checkpoint = s.checkpoint := frame.checkpoint
  unfold nextSegment
  rw [checkpoint]
  cases allocated : svtAlloc s.checkpoint.dataSvt with
  | error err => exact Or.inr ⟨err, rfl, rfl, checkpoint, frame.hba, rfl⟩
  | ok result => exact Or.inl ⟨result.1, result.2, rfl, rfl, rfl, rfl, rfl⟩

end DataPath

end SwornDisk.Rust
