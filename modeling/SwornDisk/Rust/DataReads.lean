import SwornDisk.Rust.SegmentWrites

/-!
# Reads of a block and the flush

A block is read from the segment buffer, or from the device through the record that the
memtable or the BIT category has for it.  A flush moves the blocks of the buffer behind
records of the memtable, and as long as no other block lives in the segment that is
written, no read changes.
-/

namespace SwornDisk.Rust

open Lib List Function Option

variable {X : Type}

/-- The record of an address: memtable first, then the BIT category. -/
def lookupRecord (lookup : X → Nat → Option Record) (s : DataPath X) (lba : Nat) : Option Record :=
  (s.memtable.find lba).or (lookup s.checkpoint.bitCategory lba)

/-- What `handle_read_request` finds for a whole block. -/
def readBlock (kernel : Kernel) (lookup : X → Nat → Option Record) (s : DataPath X) (lba : Nat) :
    Except Fault (Option (List UInt8)) :=
  match s.segment.read lba with
  | some block => .ok (some block)
  | none =>
    match lookupRecord lookup s lba with
    | none => .ok none
    | some record => (openRecord kernel s.dataDev record).map some

theorem blockSize_pos : 0 < blockSize := by
  unfold blockSize
  decide

theorem blocks_apart {left right : Nat} (differ : left ≠ right) :
    left * blockSize + blockSize ≤ right * blockSize ∨
      right * blockSize + blockSize ≤ left * blockSize := by
  rw [← Nat.succ_mul, ← Nat.succ_mul]
  rcases Nat.lt_or_gt_of_ne differ with less | greater
  · exact .inl (Nat.mul_le_mul_right _ less)
  · exact .inr (Nat.mul_le_mul_right _ greater)

variable {block : Nat}

theorem readSectors_written {dev : Device} {hba : Nat} {source : Memory}
    (inRange : hba + segmentSectors ≤ dev.sectors) (bound : block < segmentBlockNumber) :
    (dev.writeSectors hba segmentSectors source).readSectors (hba + block * blockSectors)
      blockSectors = source.read (block * blockSize) blockSize := by
  have last := block_sectors_inside bound
  have readable : hba + block * blockSectors + blockSectors ≤ dev.sectors := by omega
  unfold Device.readSectors Device.writeSectors
  rw [if_pos inRange, if_pos readable, Nat.add_mul, Nat.mul_assoc, blockSectors_mul_sectorSize,
    segmentSectors_mul_sectorSize]
  exact Memory.read_copy_inside _ _ (block_inside bound)

def Outside (hba : Nat) (record : Record) : Prop :=
  record.hba + blockSectors ≤ hba ∨ hba + segmentSectors ≤ record.hba

theorem readSectors_outside (dev : Device) {hba : Nat} {record : Record} (source : Memory)
    (outside : Outside hba record) :
    (dev.writeSectors hba segmentSectors source).readSectors record.hba blockSectors =
      dev.readSectors record.hba blockSectors :=
  dev.readSectors_writeSectors_disjoint source outside

/-- Distinct addresses at places of the buffer that do not overlap. -/
def SpreadOut (entries : List (Nat × Nat)) : Prop :=
  entries.Pairwise fun left right => left.1 ≠ right.1 ∧
    (left.2 + blockSize ≤ right.2 ∨ right.2 + blockSize ≤ left.2)

/-- What the encryption loop does: every entry gets a record that opens the block now in
the buffer to the block that was there, and nothing else changes. -/
structure Encrypted (kernel : Kernel) (entries : List (Nat × Nat)) (s s' : DataPath X) : Prop where
  records : ∀ entry ∈ entries, ∃ key nonce mac,
    s'.memtable.inner.find entry.1 =
      some ⟨s.segment.hba + entry.2 / blockSize * blockSectors, key, nonce, mac⟩ ∧
    kernel.aead.encrypt key nonce (s.segment.buffer.read entry.2 blockSize) =
      (s'.segment.buffer.read entry.2 blockSize, mac)
  others : ∀ lba, (∀ entry ∈ entries, entry.1 ≠ lba) →
    s'.memtable.inner.find lba = s.memtable.inner.find lba
  untouched : ∀ start, (∀ entry ∈ entries,
    entry.2 + blockSize ≤ start ∨ start + blockSize ≤ entry.2) →
    s'.segment.buffer.read start blockSize = s.segment.buffer.read start blockSize
  covered : s.memtable.Covered → s'.memtable.Covered

theorem encrypted_encryptEntries (kernel : Kernel) (s : DataPath X) {entries : List (Nat × Nat)}
    (inside : ∀ entry ∈ entries, entry.2 + blockSize ≤ segmentSize) (spread : SpreadOut entries) :
    Encrypted kernel entries s (s.encryptEntries kernel entries).2 := by
  induction entries generalizing s with
  | nil => exact ⟨nofun, fun _ _ => rfl, fun _ _ => rfl, id⟩
  | cons entry rest ih =>
    obtain ⟨lba, index⟩ := entry
    obtain ⟨apart, spreadRest⟩ := pairwise_cons.mp spread
    have insideRest : ∀ entry ∈ rest, entry.2 + blockSize ≤ segmentSize :=
      fun entry member => inside entry (mem_cons_of_mem _ member)
    let key := kernel.randomKey s.draws
    let nonce := kernel.randomNonce s.draws
    let sealed := kernel.aead.encrypt key nonce (s.segment.buffer.read index blockSize)
    let record : Record := ⟨s.segment.hba + index / blockSize * blockSectors, key, nonce, sealed.2⟩
    let s₁ : DataPath X :=
      { s with
        segment := { s.segment with buffer := s.segment.buffer.write index sealed.1 }
        memtable := s.memtable.insert lba record
        draws := s.draws + 1 }
    have first : s.encryptEntry kernel lba index = (.ok (), s₁) := by
      unfold DataPath.encryptEntry
      rw [if_pos (inside (lba, index) mem_cons_self)]
    have unfolded : s.encryptEntries kernel ((lba, index) :: rest) =
        s₁.encryptEntries kernel rest := by
      rw [DataPath.encryptEntries, first]
    have length : sealed.1.length = blockSize := by
      rw [kernel.aead.length_encrypt, Memory.length_read]
    have later := ih s₁ insideRest spreadRest
    -- the head's block is where its ciphertext was put, and no later entry touches it
    have headBlock : s₁.segment.buffer.read index blockSize = sealed.1 := by
      rw [← length]
      exact Memory.read_write_same _ _ _
    have elsewhere : ∀ start, index + blockSize ≤ start ∨ start + blockSize ≤ index →
        s₁.segment.buffer.read start blockSize = s.segment.buffer.read start blockSize := by
      intro start disjoint
      refine Memory.read_write_disjoint _ ?_
      rw [length]
      omega
    rw [unfolded]
    constructor
    · intro entry member
      rcases mem_cons.mp member with rfl | member
      · refine ⟨key, nonce, sealed.2, ?_, ?_⟩
        · rw [later.others lba fun other inRest => (apart other inRest).1.symm]
          change (s.memtable.inner.insert lba record).find lba = _
          rw [OrdMap.find_insert, update_self]
        · rw [later.untouched index fun other inRest => by
            have := (apart other inRest).2
            omega, headBlock]
      · obtain ⟨key', nonce', mac', found, encrypted⟩ := later.records entry member
        refine ⟨key', nonce', mac', found, ?_⟩
        rw [← encrypted, elsewhere entry.2 (apart entry member).2]
    · intro other missing
      rw [later.others other fun entry member => missing entry (mem_cons_of_mem _ member)]
      change (s.memtable.inner.insert lba record).find other = _
      rw [OrdMap.find_insert,
        update_of_ne (Ne.symm (missing (lba, index) mem_cons_self))]
    · intro start disjoint
      rw [later.untouched start fun entry member => disjoint entry (mem_cons_of_mem _ member),
        elsewhere start (disjoint (lba, index) mem_cons_self)]
    · intro covered
      exact later.covered (covered.insert lba record)

/-- The buffer holds every address once, and the memtable's range covers its records. -/
structure ReadInv (nrSegments : Nat) (s : DataPath X) : Prop extends PathInv nrSegments s where
  distinct : ∀ left right index, s.segment.lbaIndexMap.find left = some index →
    s.segment.lbaIndexMap.find right = some index → left = right
  covered : s.memtable.Covered

variable {s : DataPath X} {nrSegments : Nat}

theorem ReadInv.inside_entries (inv : ReadInv nrSegments s) :
    ∀ entry ∈ s.segment.lbaIndexMap.entries, entry.2 + blockSize ≤ segmentSize :=
  fun entry member => inv.inside entry.1 entry.2 ((OrdMap.find_eq_some_iff_mem _).mpr member)

theorem ReadInv.spreadOut (inv : ReadInv nrSegments s) :
    SpreadOut s.segment.lbaIndexMap.entries := by
  refine List.Pairwise.imp_of_mem ?_ s.segment.lbaIndexMap.ascending
  intro left right leftMember rightMember less
  have leftFound := (OrdMap.find_eq_some_iff_mem _).mpr leftMember
  have rightFound := (OrdMap.find_eq_some_iff_mem _).mpr rightMember
  refine ⟨Nat.ne_of_lt less, ?_⟩
  obtain ⟨leftBlock, -, leftEq, -⟩ := inv.marked _ _ leftFound
  obtain ⟨rightBlock, -, rightEq, -⟩ := inv.marked _ _ rightFound
  rw [leftEq, rightEq]
  refine blocks_apart fun equal => ?_
  rw [leftEq, equal, ← rightEq] at leftFound
  exact absurd (inv.distinct _ _ _ leftFound rightFound) (Nat.ne_of_lt less)

/-- No block that is read through a record lies in the segment of the buffer. -/
def SegmentFree (lookup : X → Nat → Option Record) (s : DataPath X) : Prop :=
  ∀ lba record, s.segment.lbaIndexMap.find lba = none → lookupRecord lookup s lba = some record →
    Outside s.segment.hba record

variable {lookup : X → Nat → Option Record}

theorem lookupRecord_of_inner (covered : s.memtable.Covered) (lba : Nat) :
    lookupRecord lookup s lba =
      (s.memtable.inner.find lba).or (lookup s.checkpoint.bitCategory lba) := by
  unfold lookupRecord
  rw [covered.find_eq]

/-- After the writeback a block reads as before: one of the buffer through its new record, if
the segment lies inside the device, any other one if it lies elsewhere. -/
theorem ReadInv.readBlock_writeback (inv : ReadInv nrSegments s) (kernel : Kernel) (lba : Nat)
    (inRange : ∀ index, s.segment.lbaIndexMap.find lba = some index →
      s.segment.hba + segmentSectors ≤ s.dataDev.sectors)
    (free : ∀ record, s.segment.lbaIndexMap.find lba = none →
      lookupRecord lookup s lba = some record → Outside s.segment.hba record) :
    readBlock kernel lookup
        (s.encryptEntries kernel s.segment.lbaIndexMap.entries).2.writeback lba =
      readBlock kernel lookup s lba := by
  have frame := DataPath.sameFrame_encryptEntries kernel s s.segment.lbaIndexMap.entries
  have encrypted := encrypted_encryptEntries kernel s inv.inside_entries inv.spreadOut
  generalize (s.encryptEntries kernel s.segment.lbaIndexMap.entries).2 = s' at frame encrypted
  have covered := encrypted.covered inv.covered
  have device : s'.writeback.dataDev =
      s.dataDev.writeSectors s.segment.hba segmentSectors s'.segment.buffer := by
    rw [← frame.dataDev, ← frame.hba]
    rfl
  have record : lookupRecord lookup s'.writeback lba =
      (s'.memtable.inner.find lba).or (lookup s.checkpoint.bitCategory lba) := by
    rw [← frame.checkpoint]
    exact lookupRecord_of_inner (s := s'.writeback) covered lba
  have empty : s'.writeback.segment.read lba = none := rfl
  unfold readBlock
  rw [empty, record, device]
  unfold DataSegment.read
  cases found : s.segment.lbaIndexMap.find lba with
  | some index =>
    have member := (OrdMap.find_eq_some_iff_mem _).mp found
    obtain ⟨block, bound, rfl, -⟩ := inv.marked lba index found
    obtain ⟨key, nonce, mac, here, sealed⟩ := encrypted.records _ member
    simp only at here sealed
    rw [Nat.mul_div_cancel _ blockSize_pos] at here
    rw [here, some_or]
    simp only
    unfold openRecord
    rw [readSectors_written (inRange _ found) bound]
    have opened := kernel.aead.decrypt_encrypt key nonce
      (s.segment.buffer.read (block * blockSize) blockSize)
    rw [sealed] at opened
    rw [opened]
    rfl
  | none =>
    have missing : ∀ entry ∈ s.segment.lbaIndexMap.entries, entry.1 ≠ lba := by
      rintro entry member rfl
      rw [(OrdMap.find_eq_some_iff_mem _).mpr member] at found
      cases found
    rw [encrypted.others lba missing, ← lookupRecord_of_inner inv.covered lba]
    simp only
    cases foundRecord : lookupRecord lookup s lba with
    | none => rfl
    | some old =>
      simp only
      unfold openRecord
      rw [readSectors_outside _ _ (free old found foundRecord)]

theorem readBlock_nextSegment (kernel : Kernel) (lookup : X → Nat → Option Record)
    (s : DataPath X) (lba : Nat) :
    readBlock kernel lookup s.nextSegment.2 lba = readBlock kernel lookup s lba := by
  unfold DataPath.nextSegment
  split <;> rfl

theorem ReadInv.readBlock_doFlush (inv : ReadInv nrSegments s) (kernel : Kernel) (lba : Nat)
    (inRange : ∀ index, s.segment.lbaIndexMap.find lba = some index →
      s.segment.hba + segmentSectors ≤ s.dataDev.sectors)
    (free : ∀ record, s.segment.lbaIndexMap.find lba = none →
      lookupRecord lookup s lba = some record → Outside s.segment.hba record) :
    readBlock kernel lookup (s.doFlush kernel).2 lba = readBlock kernel lookup s lba := by
  rw [DataPath.doFlush_eq kernel inv.inside, readBlock_nextSegment]
  exact inv.readBlock_writeback kernel lba inRange free

structure SameIndex (s s' : DataPath X) : Prop where
  memtable : s'.memtable = s.memtable
  bitCategory : s'.checkpoint.bitCategory = s.checkpoint.bitCategory
  dataDev : s'.dataDev = s.dataDev

variable {s' : DataPath X}

theorem SameIndex.trans {s'' : DataPath X} (first : SameIndex s s') (second : SameIndex s' s'') :
    SameIndex s s'' where
  memtable := second.memtable.trans first.memtable
  bitCategory := second.bitCategory.trans first.bitCategory
  dataDev := second.dataDev.trans first.dataDev

theorem sameIndex_fillBlock (s : DataPath X) (index offset : Nat) (data : List UInt8) :
    SameIndex s (s.fillBlock index offset data).2 := by
  unfold DataPath.fillBlock
  split <;> exact ⟨rfl, rfl, rfl⟩

theorem sameIndex_allocBlock (kernel : Kernel) (s : DataPath X) :
    SameIndex s (s.allocBlock kernel).2 := by
  unfold DataPath.allocBlock
  split
  · exact ⟨rfl, rfl, rfl⟩
  · split <;> exact ⟨rfl, rfl, rfl⟩

theorem sameIndex_logBlock (s : DataPath X) (lba block offset : Nat) (data : List UInt8) :
    SameIndex s (s.logBlock lba block offset data).2 := by
  have filled := sameIndex_fillBlock s (block * blockSize) offset data
  unfold DataPath.logBlock
  split
  · next fault s' result =>
      rw [result] at filled
      exact filled
  · next s' result =>
      rw [result] at filled
      exact ⟨filled.memtable, filled.bitCategory, filled.dataDev⟩

theorem SameIndex.lookupRecord_eq (same : SameIndex s s') (lookup : X → Nat → Option Record) :
    lookupRecord lookup s' = lookupRecord lookup s := by
  funext lba
  unfold lookupRecord
  rw [same.memtable, same.bitCategory]

theorem DataPath.map_logBlock (s : DataPath X) (lba block offset : Nat) (data : List UInt8) :
    (s.logBlock lba block offset data).2.segment.lbaIndexMap = s.segment.lbaIndexMap ∨
      (s.logBlock lba block offset data).2.segment.lbaIndexMap =
        s.segment.lbaIndexMap.insert lba (block * blockSize) := by
  have map := (s.fillBlock_frame (block * blockSize) offset data).2.2
  unfold DataPath.logBlock
  split
  · next fault s' result =>
      rw [result] at map
      exact Or.inl map
  · next s' result =>
      rw [result] at map
      exact Or.inr (by rw [← map])

theorem PathInv.unused (inv : PathInv nrSegments s) (taken : BlockTaken nrSegments s s' block)
    (lba : Nat) :
    s'.segment.lbaIndexMap.find lba ≠ some (block * blockSize) := by
  rw [taken.segment]
  intro found
  obtain ⟨old, new, oldAt, -, clear, -⟩ := taken.entry
  obtain ⟨mapped, -, eq, set⟩ := inv.marked lba _ found
  obtain rfl := Nat.eq_of_mul_eq_mul_right blockSize_pos eq
  rw [set old oldAt] at clear
  cases clear

theorem sameIndex_logged {kernel : Kernel} (allocated : s.allocBlock kernel = (.ok block, s'))
    (lba offset : Nat) (data : List UInt8) : SameIndex s (s'.logBlock lba block offset data).2 := by
  have first := sameIndex_allocBlock kernel s
  rw [allocated] at first
  exact first.trans (sameIndex_logBlock s' lba block offset data)

theorem ReadInv.logBlock (inv : ReadInv nrSegments s) (taken : BlockTaken nrSegments s s' block)
    (kernel : Kernel) (allocated : s.allocBlock kernel = (.ok block, s')) (lba offset : Nat)
    (data : List UInt8) :
    ReadInv nrSegments (s'.logBlock lba block offset data).2 := by
  have index := sameIndex_logged allocated lba offset data
  refine ⟨(taken.logBlock rfl lba offset data).inv, ?_, ?_⟩
  · have unused := inv.unused taken
    rw [taken.segment] at unused
    rcases s'.map_logBlock lba block offset data with same | inserted
    · rw [same, taken.segment]
      exact inv.distinct
    · rw [inserted, taken.segment]
      intro left right position leftFound rightFound
      rw [OrdMap.find_insert, update_apply] at leftFound rightFound
      split at leftFound
      · next leftEq =>
          split at rightFound
          · next rightEq => rw [leftEq, rightEq]
          · obtain rfl := some.inj leftFound
            exact absurd rightFound (unused right)
      · split at rightFound
        · obtain rfl := some.inj rightFound
          exact absurd leftFound (unused left)
        · exact inv.distinct left right position leftFound rightFound
  · rw [index.memtable]
    exact inv.covered

theorem DataPath.memtable_doFlush (kernel : Kernel) (inside : s.Inside) :
    (s.doFlush kernel).2.memtable =
      (s.encryptEntries kernel s.segment.lbaIndexMap.entries).2.memtable := by
  rw [DataPath.doFlush_eq kernel inside]
  unfold DataPath.nextSegment
  split <;> rfl

theorem ReadInv.doFlush (inv : ReadInv nrSegments s) (kernel : Kernel) :
    ReadInv nrSegments (s.doFlush kernel).2 := by
  have map : (s.doFlush kernel).2.segment.lbaIndexMap = OrdMap.empty := by
    rcases DataPath.doFlush_cases kernel inv.inside with
      ⟨_, _, -, -, -, -, map⟩ | ⟨_, -, -, -, -, map⟩ <;> exact map
  refine ⟨inv.toPathInv.doFlush kernel, ?_, ?_⟩
  · rw [map]
    intro left right position found
    cases found
  · rw [DataPath.memtable_doFlush kernel inv.inside]
    exact (encrypted_encryptEntries kernel s inv.inside_entries inv.spreadOut).covered inv.covered

inductive WriteCase (kernel : Kernel) (nrSegments : Nat) (s : DataPath X) (lba offset : Nat)
    (data : List UInt8) : Prop where
  /-- in place -/
  | buffered (index : Nat) (found : s.segment.lbaIndexMap.find lba = some index)
      (state : (s.write kernel lba offset data).2 = (s.fillBlock index offset data).2)
      (result : (s.fillBlock index offset data).1 = .ok () →
        ∃ place, (s.write kernel lba offset data).1 = .ok place)
  /-- at a new block of the current segment -/
  | logged (block : Nat) (s' : DataPath X) (missing : s.segment.lbaIndexMap.find lba = none)
      (allocated : s.allocBlock kernel = (.ok block, s'))
      (written : s.write kernel lba offset data = s'.logBlock lba block offset data)
  /-- at a block of the next segment -/
  | moved (t : DataPath X) (needs : NeedsSegment s lba) (flushed : s.doFlush kernel = (.ok (), t))
      (block : Nat) (t' : DataPath X) (allocated : t.allocBlock kernel = (.ok block, t'))
      (written : s.write kernel lba offset data = t'.logBlock lba block offset data)
  /-- the next segment has no free block -/
  | stuck (t : DataPath X) (needs : NeedsSegment s lba) (flushed : s.doFlush kernel = (.ok (), t))
      (full : t.allocBlock kernel = (.error (.error .enospc), t))
      (written : s.write kernel lba offset data = (.error (.error .enospc), t))
  /-- there is no next segment -/
  | refused (t : DataPath X) (err : Error) (needs : NeedsSegment s lba)
      (flushed : s.doFlush kernel = (.error (.error err), t))
      (written : s.write kernel lba offset data = (.error (.error err), t))

theorem PathInv.writeCase (inv : PathInv nrSegments s) (kernel : Kernel) (lba offset : Nat)
    (data : List UInt8) :
    WriteCase kernel nrSegments s lba offset data := by
  cases found : s.segment.lbaIndexMap.find lba with
  | some index =>
    refine .buffered index found ?_ ?_
    · unfold DataPath.write
      rw [found]
      simp only
      split
      · next fault s' result => rw [result]
      · next s' result => rw [result]
    · intro filled
      unfold DataPath.write
      rw [found]
      simp only
      split
      · next fault s' result =>
          rw [result] at filled
          cases filled
      · exact ⟨_, rfl⟩
  | none =>
    cases allocated : s.allocBlock kernel with
    | mk result s' =>
      cases result with
      | ok block =>
        refine .logged block s' found allocated ?_
        unfold DataPath.write
        rw [found, allocated]
      | error fault =>
        obtain ⟨rfl, rfl, full⟩ := inv.allocBlock_error allocated
        have needs : NeedsSegment s' lba := ⟨found, full⟩
        rcases DataPath.doFlush_cases kernel inv.inside with
          ⟨_, _, -, ok, -⟩ | ⟨err, -, error, -⟩
        · cases flushed : s'.doFlush kernel with
          | mk result t =>
            rw [flushed] at ok
            obtain rfl : result = .ok () := ok
            have inv' := inv.doFlush kernel
            rw [flushed] at inv'
            cases again : t.allocBlock kernel with
            | mk result t' =>
              cases result with
              | ok block =>
                refine .moved t needs flushed block t' again ?_
                simp only [DataPath.write, found, allocated, flushed, again]
              | error fault =>
                obtain ⟨rfl, rfl, -⟩ := inv'.allocBlock_error again
                refine .stuck t' needs flushed again ?_
                simp only [DataPath.write, found, allocated, flushed, again]
        · cases flushed : s'.doFlush kernel with
          | mk result t =>
            rw [flushed] at error
            obtain rfl : result = .error (.error err) := error
            refine .refused t err needs flushed ?_
            simp only [DataPath.write, found, allocated, flushed]

theorem ReadInv.write (inv : ReadInv nrSegments s) (kernel : Kernel) (lba offset : Nat)
    (data : List UInt8) :
    ReadInv nrSegments (s.write kernel lba offset data).2 := by
  have flushedInv := inv.doFlush kernel
  cases inv.toPathInv.writeCase kernel lba offset data with
  | buffered index found state result =>
    obtain ⟨checkpoint, hba, map⟩ := s.fillBlock_frame index offset data
    rw [state]
    refine ⟨inv.toPathInv.congr checkpoint hba map, ?_, ?_⟩
    · rw [map]
      exact inv.distinct
    · rw [(sameIndex_fillBlock s index offset data).memtable]
      exact inv.covered
  | logged block s' missing allocated written =>
    rw [written]
    exact inv.logBlock (inv.toPathInv.allocBlock_ok allocated) kernel allocated lba offset data
  | moved t needs flushed block t' allocated written =>
    rw [flushed] at flushedInv
    rw [written]
    exact flushedInv.logBlock (flushedInv.toPathInv.allocBlock_ok allocated) kernel allocated lba
      offset data
  | stuck t needs flushed full written =>
    rw [flushed] at flushedInv
    rw [written]
    exact flushedInv
  | refused t err needs flushed written =>
    rw [flushed] at flushedInv
    rw [written]
    exact flushedInv

end SwornDisk.Rust
