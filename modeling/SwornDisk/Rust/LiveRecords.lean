import SwornDisk.Rust.SegmentBuffer

/-!
# Live records

Every record that is found points below the segment being filled, so a flush never
writes over a live block while a free segment is left.  Without one, a flush fails after it
moved the blocks of the buffer to the current segment, and the next flush writes over them.
-/

namespace SwornDisk.Rust

open Lib List Function Option

variable {X : Type}

/-- The block of the record lies in a segment before the given one. -/
def Below (limit : Nat) (record : Record) : Prop :=
  ∃ segment < limit, segmentPlace segment ≤ record.hba ∧
    record.hba + blockSectors ≤ segmentPlace segment + segmentSectors

variable {record : Record} {limit : Nat}

theorem Below.mono {limit' : Nat} (below : Below limit record) (le : limit ≤ limit') :
    Below limit' record := by
  obtain ⟨segment, less, located⟩ := below
  exact ⟨segment, Nat.lt_of_lt_of_le less le, located⟩

theorem Below.outside (below : Below limit record) :
    Outside (segmentPlace limit) record := by
  obtain ⟨segment, less, first, last⟩ := below
  unfold Outside
  rcases apart_segmentPlace segment limit (Nat.ne_of_lt less) with before | after
  · omega
  · omega

/-- The block of the record was put in the current segment by a flush that found no other one:
it is marked, and no address of the buffer uses it. -/
def Spent (s : DataPath X) (record : Record) : Prop :=
  ∃ block < segmentBlockNumber, record.hba = s.segment.hba + block * blockSectors ∧
    (∀ dst, s.checkpoint.dst[s.checkpoint.currentDataSegment]? = some dst →
      dst.bvm.bit block = true) ∧
    ∀ lba, s.segment.lbaIndexMap.find lba ≠ some (block * blockSize)

def FreshSegments (checkpoint : Checkpoint X) : Prop :=
  ∀ i dst, checkpoint.dst[i]? = some dst → checkpoint.dataSvt.bit i = false →
    dst.bvm.isFull = false

/-- The unused part of the buffer is zero, and records point below the current segment unless
there is no free one. -/
structure LiveInv (lookup : X → Nat → Option Record) (nrSegments : Nat) (s : DataPath X) : Prop
    extends ReadInv nrSegments s where
  fresh : FreshSegments s.checkpoint
  clean : CleanBuffer s
  below : ∀ lba record, lookupRecord lookup s lba = some record →
    Below s.checkpoint.currentDataSegment record ∨
      s.checkpoint.dataSvt.isFull = true ∧ Spent s record

variable {s : DataPath X} {nrSegments : Nat} {lookup : X → Nat → Option Record} {lba : Nat}

theorem LiveInv.below_of_free (inv : LiveInv lookup nrSegments s)
    (free : s.checkpoint.dataSvt.isFull = false) (found : lookupRecord lookup s lba = some record) :
    Below s.checkpoint.currentDataSegment record := by
  rcases inv.below lba record found with below | ⟨full, -⟩
  · exact below
  · rw [free] at full
    cases full

theorem LiveInv.segmentFree (inv : LiveInv lookup nrSegments s)
    (free : s.checkpoint.dataSvt.isFull = false) : SegmentFree lookup s := by
  intro lba record _ found
  rw [inv.placed]
  exact (inv.below_of_free free found).outside

theorem LiveInv.reindex (inv : LiveInv lookup nrSegments s) {memtable : MemTable Record}
    {category : X} (covered : memtable.Covered)
    (same : ∀ lba, (memtable.find lba).or (lookup category lba) = lookupRecord lookup s lba) :
    LiveInv lookup nrSegments
      { s with
        memtable := memtable
        checkpoint := { s.checkpoint with bitCategory := category } } where
  allocated := inv.allocated
  dstLength := inv.dstLength
  dstValid := inv.dstValid
  marked := inv.marked
  placed := inv.placed
  distinct := inv.distinct
  covered := covered
  fresh := inv.fresh
  clean := inv.clean
  below := by
    intro lba record found
    refine inv.below lba record ?_
    rw [← same lba]
    exact found

section

variable (inv : ReadInv nrSegments s) (kernel : Kernel) (lookup : X → Nat → Option Record)
include inv

theorem ReadInv.lookupRecord_doFlush (lba : Nat) :
    lookupRecord lookup (s.doFlush kernel).2 lba =
      ((s.encryptEntries kernel s.segment.lbaIndexMap.entries).2.memtable.inner.find lba).or
        (lookup s.checkpoint.bitCategory lba) := by
  have category : (s.doFlush kernel).2.checkpoint.bitCategory = s.checkpoint.bitCategory := by
    rcases DataPath.doFlush_cases kernel inv.inside with
      ⟨_, _, -, -, checkpoint, -⟩ | ⟨_, -, -, checkpoint, -⟩ <;> rw [checkpoint]
  rw [lookupRecord_of_inner (inv.doFlush kernel).covered, category,
    DataPath.memtable_doFlush kernel inv.inside]

theorem ReadInv.lookupRecord_flushed {index : Nat}
    (mapped : s.segment.lbaIndexMap.find lba = some index) :
    ∃ block < segmentBlockNumber, index = block * blockSize ∧
      (∀ dst, s.checkpoint.dst[s.checkpoint.currentDataSegment]? = some dst →
        dst.bvm.bit block = true) ∧
      ∃ record, lookupRecord lookup (s.doFlush kernel).2 lba = some record ∧
        record.hba = s.segment.hba + block * blockSectors := by
  have encrypted := encrypted_encryptEntries kernel s inv.inside_entries inv.spreadOut
  obtain ⟨block, bound, rfl, marked⟩ := inv.marked lba index mapped
  obtain ⟨key, nonce, mac, here, -⟩ :=
    encrypted.records _ ((OrdMap.find_eq_some_iff_mem _).mp mapped)
  simp only at here
  rw [Nat.mul_div_cancel _ blockSize_pos] at here
  refine ⟨block, bound, rfl, marked, ⟨_, key, nonce, mac⟩, ?_, rfl⟩
  rw [inv.lookupRecord_doFlush kernel, here, some_or]

theorem ReadInv.lookupRecord_unflushed (missing : s.segment.lbaIndexMap.find lba = none) :
    lookupRecord lookup (s.doFlush kernel).2 lba = lookupRecord lookup s lba := by
  have encrypted := encrypted_encryptEntries kernel s inv.inside_entries inv.spreadOut
  rw [inv.lookupRecord_doFlush kernel, lookupRecord_of_inner inv.covered, encrypted.others lba]
  rintro entry member rfl
  rw [(OrdMap.find_eq_some_iff_mem _).mpr member] at missing
  cases missing

end

variable {svt : BitMap} {err : Error}

theorem isFull_of_svtAlloc_error (valid : svt.Valid) (failed : svtAlloc svt = .error err) :
    svt.isFull = true := by
  rw [svtAlloc_eq] at failed
  have available := valid.available
  rw [countSet_eq_self_iff.mpr (valid.alloc_error failed).2] at available
  simp only [BitMap.isFull, beq_iff_eq]
  omega

theorem svtAlloc_of_isFull (full : svt.isFull = true) :
    svtAlloc svt = .error .enospc := by
  unfold svtAlloc
  rw [if_pos full]

variable {kernel : Kernel} {t : DataPath X}

theorem LiveInv.flushed (inv : LiveInv lookup nrSegments s)
    (flushed : s.doFlush kernel = (.ok (), t)) :
    s.checkpoint.dataSvt.isFull = false ∧
      s.checkpoint.currentDataSegment < t.checkpoint.currentDataSegment ∧
      LiveInv lookup nrSegments t ∧
      (∀ lba record, lookupRecord lookup t lba = some record →
        Below t.checkpoint.currentDataSegment record) ∧
      ∀ dst, t.checkpoint.dst[t.checkpoint.currentDataSegment]? = some dst →
        dst.bvm.isFull = false := by
  have readInv := inv.toReadInv.doFlush kernel
  have clean := cleanBuffer_doFlush kernel inv.inside
  rcases DataPath.doFlush_cases kernel inv.inside with
    ⟨index, svt, taken, -, checkpoint, -⟩ | ⟨err, -, error, -⟩
  · obtain ⟨count, allocated, less⟩ := inv.allocated
    obtain ⟨-, clear, -, -, -, bits⟩ := allocated.valid.alloc_ok (by
      rw [← svtAlloc_eq]
      exact taken)
    obtain ⟨rfl, -, -⟩ := allocated.svtAlloc_ok taken
    have free : s.checkpoint.dataSvt.isFull = false := by
      cases full : s.checkpoint.dataSvt.isFull with
      | false => rfl
      | true =>
        rw [svtAlloc_of_isFull full] at taken
        cases taken
    have below : ∀ lba record, lookupRecord lookup (s.doFlush kernel).2 lba = some record →
        Below index record := by
      intro lba record found
      cases mapped : s.segment.lbaIndexMap.find lba with
      | none =>
        rw [inv.lookupRecord_unflushed kernel lookup mapped] at found
        exact (inv.below_of_free free found).mono (Nat.le_of_lt less)
      | some place =>
        obtain ⟨block, bound, -, -, record', found', hba⟩ :=
          inv.lookupRecord_flushed kernel lookup mapped
        obtain rfl := some.inj (found.symm.trans found')
        have last := block_sectors_inside bound
        exact ⟨_, less, by rw [hba, inv.placed]; omega, by rw [hba, inv.placed]; omega⟩
    rw [flushed] at readInv checkpoint clean below
    simp only at readInv checkpoint clean below
    have current : t.checkpoint.currentDataSegment = index := by rw [checkpoint]
    rw [current]
    refine ⟨free, less, ⟨readInv, ?_, clean, ?_⟩, below, ?_⟩
    · intro i dst entry unallocated
      rw [checkpoint] at entry unallocated
      simp only at entry unallocated
      rw [bits, update_apply] at unallocated
      split at unallocated
      · cases unallocated
      · exact inv.fresh i dst entry unallocated
    · rw [current]
      exact fun lba record found => .inl (below lba record found)
    · intro dst entry
      rw [checkpoint] at entry
      exact inv.fresh index dst entry clear
  · rw [flushed] at error
    cases error

theorem PathInv.flush_refused (inv : PathInv nrSegments s) {fault : Fault}
    (flushed : s.doFlush kernel = (.error fault, t)) :
    s.checkpoint.dataSvt.isFull = true ∧ t.checkpoint = s.checkpoint ∧
      t.segment.hba = s.segment.hba ∧ t.segment.lbaIndexMap = OrdMap.empty := by
  rcases DataPath.doFlush_cases kernel inv.inside with
    ⟨_, _, -, ok, -⟩ | ⟨err, failed, -, checkpoint, hba, map⟩
  · rw [flushed] at ok
    cases ok
  · rw [flushed] at checkpoint hba map
    obtain ⟨count, allocated, -⟩ := inv.allocated
    exact ⟨isFull_of_svtAlloc_error allocated.valid failed, checkpoint, hba, map⟩

theorem LiveInv.refused (inv : LiveInv lookup nrSegments s) {fault : Fault}
    (flushed : s.doFlush kernel = (.error fault, t)) : LiveInv lookup nrSegments t := by
  have readInv := inv.toReadInv.doFlush kernel
  have clean := cleanBuffer_doFlush kernel inv.inside
  obtain ⟨full, checkpoint, hba, map⟩ := inv.flush_refused flushed
  have spent : ∀ record, (∃ block < segmentBlockNumber,
      record.hba = s.segment.hba + block * blockSectors ∧
        ∀ dst, s.checkpoint.dst[s.checkpoint.currentDataSegment]? = some dst →
          dst.bvm.bit block = true) → Spent t record := by
    rintro record ⟨block, bound, place, marked⟩
    refine ⟨block, bound, by rw [hba, place], by rw [checkpoint]; exact marked, ?_⟩
    rw [map]
    exact fun _ => nofun
  refine ⟨by rw [flushed] at readInv; exact readInv, by rw [checkpoint]; exact inv.fresh,
    by rw [flushed] at clean; exact clean, fun lba record found => ?_⟩
  rw [checkpoint]
  cases mapped : s.segment.lbaIndexMap.find lba with
  | none =>
    have same := inv.lookupRecord_unflushed kernel lookup mapped
    rw [flushed] at same
    rw [same] at found
    refine (inv.below lba record found).imp_right fun ⟨_, block, bound, place, marked, _⟩ => ?_
    exact ⟨full, spent record ⟨block, bound, place, marked⟩⟩
  | some place =>
    obtain ⟨block, bound, -, marked, record', found', place⟩ :=
      inv.lookupRecord_flushed kernel lookup mapped
    rw [flushed] at found'
    obtain rfl := some.inj (found.symm.trans found')
    exact .inr ⟨full, spent record ⟨block, bound, place, marked⟩⟩

theorem LiveInv.doFlush (inv : LiveInv lookup nrSegments s) (kernel : Kernel) :
    LiveInv lookup nrSegments (s.doFlush kernel).2 := by
  cases flushed : s.doFlush kernel with
  | mk result t =>
    cases result with
    | ok done => exact (inv.flushed flushed).2.2.1
    | error fault => exact inv.refused flushed

variable {block offset : Nat} {data : List UInt8}

theorem LiveInv.logged {s' : DataPath X} (inv : LiveInv lookup nrSegments s)
    (allocated : s.allocBlock kernel = (.ok block, s'))
    (missing : s.segment.lbaIndexMap.find lba = none) (fits : offset + data.length ≤ blockSize) :
    LiveInv lookup nrSegments (s'.logBlock lba block offset data).2 := by
  have taken := inv.allocBlock_ok allocated
  have index := sameIndex_logged allocated lba offset data
  have readInv := inv.toReadInv.logBlock taken kernel allocated lba offset data
  have clean := (inv.clean.congr taken.segment).logBlock taken.bound fits
    (by rw [taken.segment]; exact missing)
  obtain ⟨old, new, oldAt, newAt, clear, bits, -⟩ := taken.entry
  rw [s'.logBlock_eq lba taken.bound fits] at index readInv clean ⊢
  refine ⟨readInv, ?_, clean, ?_⟩
  · intro i dst entry unallocated
    simp only [taken.dataSvt] at unallocated
    -- the entry that changed is that of an allocated segment
    have differ : i ≠ s.checkpoint.currentDataSegment := by
      rintro rfl
      obtain ⟨count, allocated, less⟩ := inv.allocated
      rw [allocated.bits _ (Nat.lt_of_lt_of_le less allocated.le)] at unallocated
      simp only [decide_eq_false_iff_not] at unallocated
      exact unallocated less
    simp only [taken.others i differ] at entry
    exact inv.fresh i dst entry unallocated
  · intro lba' record found
    rw [index.lookupRecord_eq lookup] at found
    simp only [taken.current, taken.dataSvt]
    refine (inv.below lba' record found).imp_right fun ⟨full, spent⟩ => ⟨full, ?_⟩
    obtain ⟨place, bound, hba, marked, unused⟩ := spent
    have apart : place ≠ block := by
      rintro rfl
      rw [marked old oldAt] at clear
      cases clear
    refine ⟨place, bound, by simp only [taken.segment, hba], ?_, ?_⟩
    · intro dst entry
      simp only [taken.current, newAt, some.injEq] at entry
      rw [← entry, bits, update_of_ne apart]
      exact marked old oldAt
    · intro other
      simp only [OrdMap.find_insert, update_apply, taken.segment]
      split
      · intro same
        exact apart (Nat.eq_of_mul_eq_mul_right blockSize_pos (some.inj same)).symm
      · exact unused other

theorem LiveInv.write (inv : LiveInv lookup nrSegments s) (kernel : Kernel) (lba : Nat)
    (fits : offset + data.length ≤ blockSize) :
    LiveInv lookup nrSegments (s.write kernel lba offset data).2 := by
  cases inv.writeCase kernel lba offset data with
  | buffered index found state result =>
    have readInv := inv.toReadInv.write kernel lba offset data
    obtain ⟨checkpoint, hba, map⟩ := s.fillBlock_frame index offset data
    rw [state] at readInv ⊢
    refine ⟨readInv, by rw [checkpoint]; exact inv.fresh,
      inv.clean.fillBlock inv.toPathInv found fits, ?_⟩
    rw [(sameIndex_fillBlock s index offset data).lookupRecord_eq lookup, checkpoint]
    unfold Spent
    rw [checkpoint, hba, map]
    exact inv.below
  | logged block s' missing allocated written =>
    rw [written]
    exact inv.logged allocated missing fits
  | moved t needs flushed block t' allocated written =>
    have map := DataPath.map_doFlush kernel inv.inside
    rw [flushed] at map
    rw [written]
    exact (inv.flushed flushed).2.2.1.logged allocated (by rw [map]; rfl) fits
  | stuck t needs flushed full written =>
    rw [written]
    exact (inv.flushed flushed).2.2.1
  | refused t err needs flushed written =>
    rw [written]
    exact inv.refused flushed

theorem DataPath.fillBlock_ok (s : DataPath X) (bound : block < segmentBlockNumber)
    (fits : offset + data.length ≤ blockSize) :
    (s.fillBlock (block * blockSize) offset data).1 = .ok () := by
  rw [s.fillBlock_eq bound fits]

theorem DataPath.logBlock_ok (s : DataPath X) (lba : Nat) (bound : block < segmentBlockNumber)
    (fits : offset + data.length ≤ blockSize) :
    ∃ place, (s.logBlock lba block offset data).1 = .ok place := by
  rw [s.logBlock_eq lba bound fits]
  exact ⟨_, rfl⟩

section

variable (inv : LiveInv lookup nrSegments s)
include inv

theorem LiveInv.allocBlock_flushed (flushed : s.doFlush kernel = (.ok (), t)) (fault : Fault)
    (t' : DataPath X) : t.allocBlock kernel ≠ (.error fault, t') := by
  obtain ⟨-, -, inv', -, notFull⟩ := inv.flushed flushed
  intro failed
  have entry := getElem?_eq_getElem inv'.current_lt
  have full := (inv'.allocBlock_error failed).2.2 _ entry
  rw [notFull _ entry] at full
  cases full

/-- A write of part of a block fails exactly if it needs a segment and none is free. -/
theorem LiveInv.write_error_iff (kernel : Kernel) (fits : offset + data.length ≤ blockSize) :
    (∃ err, (s.write kernel lba offset data).1 = .error (.error err)) ↔
      NeedsSegment s lba ∧ s.checkpoint.dataSvt.isFull = true := by
  have succeeded : ∀ place, (s.write kernel lba offset data).1 = .ok place →
      ¬ ∃ err, (s.write kernel lba offset data).1 = .error (.error err) := by
    rintro place ok ⟨err, error⟩
    rw [ok] at error
    cases error
  cases inv.writeCase kernel lba offset data with
  | buffered index found state result =>
    obtain ⟨block, bound, rfl, -⟩ := inv.marked lba index found
    obtain ⟨place, ok⟩ := result (s.fillBlock_ok bound fits)
    refine iff_of_false (succeeded place ok) ?_
    rintro ⟨⟨missing, -⟩, -⟩
    rw [found] at missing
    cases missing
  | logged block s' missing allocated written =>
    have taken := inv.allocBlock_ok allocated
    obtain ⟨place, ok⟩ := s'.logBlock_ok lba taken.bound fits
    refine iff_of_false (succeeded place (by rw [written, ok])) ?_
    rintro ⟨⟨-, full⟩, -⟩
    rw [inv.allocBlock_of_full kernel full] at allocated
    cases allocated
  | moved t needs flushed block t' allocated written =>
    obtain ⟨free, -, inv', -⟩ := inv.flushed flushed
    obtain ⟨place, ok⟩ := t'.logBlock_ok lba (inv'.allocBlock_ok allocated).bound fits
    refine iff_of_false (succeeded place (by rw [written, ok])) ?_
    rintro ⟨-, full⟩
    rw [free] at full
    cases full
  | stuck t needs flushed full written =>
    exact absurd full (inv.allocBlock_flushed flushed _ _)
  | refused t err needs flushed written =>
    exact iff_of_true ⟨err, by rw [written]⟩ ⟨needs, (inv.flush_refused flushed).1⟩

end

section

variable (inv : PathInv nrSegments s) (kernel : Kernel)
include inv

theorem PathInv.doFlush_full (full : s.checkpoint.dataSvt.isFull = true) :
    ∃ t, s.doFlush kernel = (.error (.error .enospc), t) := by
  rcases DataPath.doFlush_cases kernel inv.inside with ⟨_, _, taken, -⟩ | ⟨err, failed, error, -⟩
  · rw [svtAlloc_of_isFull full] at taken
    cases taken
  · rw [svtAlloc_of_isFull full] at failed
    obtain rfl := Except.error.inj failed
    exact ⟨_, Prod.ext error rfl⟩

theorem PathInv.write_refused (needs : NeedsSegment s lba)
    (full : s.checkpoint.dataSvt.isFull = true) (offset : Nat) (data : List UInt8) :
    s.write kernel lba offset data = (.error (.error .enospc), (s.doFlush kernel).2) := by
  obtain ⟨t, flushed⟩ := inv.doFlush_full kernel full
  simp only [DataPath.write, needs.1, inv.allocBlock_of_full kernel needs.2, flushed]

end

/-- The cipher opens neither zeros nor, where the segment of the buffer does not lie inside the
device, what is at its place: both are blocks that it did not seal. -/
structure RefusesUnwritten (kernel : Kernel) (s : DataPath X) : Prop where
  zeros : ∀ key mac nonce, kernel.aead.decrypt key mac nonce zeroBlock = none
  outside : s.dataDev.sectors < s.segment.hba + segmentSectors →
    ∀ block < segmentBlockNumber, ∀ key mac nonce, kernel.aead.decrypt key mac nonce
      (s.dataDev.readSectors (s.segment.hba + block * blockSectors) blockSectors) = none

theorem Device.writeSectors_outside {dev : Device} {hba count : Nat}
    (outside : dev.sectors < hba + count) (source : Memory) :
    dev.writeSectors hba count source = dev := by
  unfold Device.writeSectors
  rw [if_neg (by omega)]

theorem RefusesUnwritten.refused (refuses : RefusesUnwritten kernel s) (inv : PathInv nrSegments s)
    {fault : Fault} (flushed : s.doFlush kernel = (.error fault, t)) :
    RefusesUnwritten kernel t := by
  obtain ⟨-, -, hba, -⟩ := inv.flush_refused flushed
  have device := DataPath.dataDev_doFlush kernel inv.inside
  rw [flushed] at device
  refine ⟨refuses.zeros, fun outside => ?_⟩
  rw [device, hba, sectors_writeSectors] at outside
  rw [device, hba, Device.writeSectors_outside outside]
  exact refuses.outside outside

theorem PathInv.readBlock_doFlush_refused (inv : PathInv nrSegments s)
    (found : lookupRecord lookup (s.doFlush kernel).2 lba = some record)
    (refused : kernel.aead.decrypt record.key record.mac record.nonce
      ((s.doFlush kernel).2.dataDev.readSectors record.hba blockSectors) = none) :
    readBlock kernel lookup (s.doFlush kernel).2 lba = .error (.error .ebadmsg) := by
  have unbuffered : (s.doFlush kernel).2.segment.read lba = none := by
    rw [DataSegment.read_eq_none_iff, DataPath.map_doFlush kernel inv.inside]
    rfl
  simp only [readBlock, unbuffered, found, openRecord, refused]
  rfl

section

variable (inv : LiveInv lookup nrSegments s) (refuses : RefusesUnwritten kernel s)
include inv refuses

theorem LiveInv.readBlock_spent (missing : s.segment.lbaIndexMap.find lba = none)
    (found : lookupRecord lookup s lba = some record) (spent : Spent s record) :
    readBlock kernel lookup (s.doFlush kernel).2 lba = .error (.error .ebadmsg) := by
  obtain ⟨block, bound, place, -, unused⟩ := spent
  have encrypted := encrypted_encryptEntries kernel s inv.inside_entries inv.spreadOut
  refine inv.readBlock_doFlush_refused
    (by rw [inv.lookupRecord_unflushed kernel lookup missing, found]) ?_
  rw [DataPath.dataDev_doFlush kernel inv.inside, place]
  by_cases inRange : s.segment.hba + segmentSectors ≤ s.dataDev.sectors
  · rw [readSectors_written inRange bound, encrypted.untouched, inv.clean block unused]
    · exact refuses.zeros _ _ _
    · intro entry member
      have mapped := (OrdMap.find_eq_some_iff_mem _).mpr member
      obtain ⟨other, -, index, -⟩ := inv.marked _ _ mapped
      rw [index] at mapped ⊢
      refine blocks_apart ?_
      rintro rfl
      exact unused _ mapped
  · have outside : s.dataDev.sectors < s.segment.hba + segmentSectors := by omega
    rw [Device.writeSectors_outside outside]
    exact refuses.outside outside block bound _ _ _

end

end SwornDisk.Rust
