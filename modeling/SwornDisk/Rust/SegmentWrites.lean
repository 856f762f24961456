import SwornDisk.Rust.DataSegment

/-!
# Segment tables and writes

The segment validity table fills up from the start, and the blocks of the buffer are
marked in the table entry of the current segment.  A write stays in the current segment
or moves to the next one as a flush does.
-/

namespace SwornDisk.Rust

open Lib List Function Option

variable {X : Type}

def Apart (place : Nat → Nat) : Prop :=
  ∀ i j, i ≠ j → place i + segmentSectors ≤ place j ∨ place j + segmentSectors ≤ place i

def segmentPlace : Nat → Nat
  | 0 => 0
  | i + 1 => (i + 2) * segmentSectors

theorem apart_segmentPlace : Apart segmentPlace := by
  intro i j differ
  have spread : ∀ a b, a < b → segmentPlace a + segmentSectors ≤ segmentPlace b := by
    intro a b less
    cases b with
    | zero => omega
    | succ b =>
      cases a with
      | zero =>
        change 0 + segmentSectors ≤ (b + 2) * segmentSectors
        rw [Nat.zero_add]
        exact Nat.le_mul_of_pos_left _ (by omega)
      | succ a =>
        change (a + 2) * segmentSectors + segmentSectors ≤ (b + 2) * segmentSectors
        rw [← Nat.succ_mul]
        exact Nat.mul_le_mul_right _ (by omega)
  rcases Nat.lt_or_gt_of_ne differ with less | greater
  · exact Or.inl (spread i j less)
  · exact Or.inr (spread j i greater)

/-- A write changes no table entry but that of the segment it writes to, and a block it
returns lies in that segment and is marked in its entry. -/
def OwnEntry (s : DataPath X) (written : Except Fault (Nat × Nat) × DataPath X) : Prop :=
  (∀ i ≠ written.2.checkpoint.currentDataSegment,
      written.2.checkpoint.dst[i]? = s.checkpoint.dst[i]?) ∧
    ∀ block hba, written.1 = .ok (block, hba) →
      hba = written.2.segment.hba + block * blockSectors ∧
        ∃ dst, written.2.checkpoint.dst[written.2.checkpoint.currentDataSegment]? = some dst ∧
          block < segmentBlockNumber ∧ dst.bvm.bit block = true

def NeedsSegment (s : DataPath X) (lba : Nat) : Prop :=
  s.segment.lbaIndexMap.find lba = none ∧
    ∀ dst, s.checkpoint.dst[s.checkpoint.currentDataSegment]? = some dst → dst.bvm.isFull = true

/-- The first `count` of `nrSegments` segments are allocated. -/
structure Allocated (svt : BitMap) (nrSegments count : Nat) : Prop where
  valid : svt.Valid
  maxLen : svt.maxLen = nrSegments
  bits : ∀ i < nrSegments, svt.bit i = decide (i < count)
  le : count ≤ nrSegments

theorem allocated_new (nrSegments : Nat) : Allocated (BitMap.new nrSegments) nrSegments 0 where
  valid := BitMap.valid_new nrSegments
  maxLen := rfl
  bits := by
    intro i _
    rw [BitMap.bit_new]
    simp
  le := Nat.zero_le _

theorem svtAlloc_eq (svt : BitMap) : svtAlloc svt = svt.alloc := by
  unfold svtAlloc
  split
  · next full =>
      have none' : svt.availLen = 0 := by simpa [BitMap.isFull] using full
      unfold BitMap.alloc BitMap.getFirstZeroBit
      rw [if_pos none']
  · rfl

variable {nrSegments count index : Nat}

theorem Allocated.svtAlloc_ok {svt svt' : BitMap} (allocated : Allocated svt nrSegments count)
    (taken : svtAlloc svt = .ok (index, svt')) :
    index = count ∧ count < nrSegments ∧ Allocated svt' nrSegments (count + 1) := by
  rw [svtAlloc_eq] at taken
  obtain ⟨bound, clear, lower, valid, maxLen, bits⟩ := allocated.valid.alloc_ok taken
  rw [allocated.maxLen] at bound maxLen
  have least : index = count := by
    rw [allocated.bits index bound, decide_eq_false_iff_not] at clear
    by_contra differ
    have set := lower count (by omega)
    rw [allocated.bits count (by omega)] at set
    simp at set
  subst least
  refine ⟨rfl, bound, valid, maxLen, ?_, bound⟩
  intro i inside
  rw [bits, update_apply]
  split
  · next same => simp [same]
  · next differ =>
      rw [allocated.bits i inside]
      exact decide_eq_decide.mpr (by omega)

/-- Tables of the right sizes, buffered blocks marked in the entry of the current segment,
and the current segment at its place. -/
structure PathInv (nrSegments : Nat) (s : DataPath X) : Prop where
  allocated : ∃ count, Allocated s.checkpoint.dataSvt nrSegments count ∧
    s.checkpoint.currentDataSegment < count
  dstLength : s.checkpoint.dst.length = nrSegments
  dstValid : ∀ dst ∈ s.checkpoint.dst,
    dst.bvm.Valid ∧ dst.bvm.maxLen = segmentBlockNumber
  marked : ∀ lba index, s.segment.lbaIndexMap.find lba = some index →
    ∃ block < segmentBlockNumber, index = block * blockSize ∧
      ∀ dst, s.checkpoint.dst[s.checkpoint.currentDataSegment]? = some dst →
        dst.bvm.bit block = true
  placed : s.segment.hba = segmentPlace s.checkpoint.currentDataSegment

variable {block : Nat}

theorem block_inside (bound : block < segmentBlockNumber) :
    block * blockSize + blockSize ≤ segmentSize := by
  unfold segmentSize
  rw [← Nat.succ_mul, Nat.mul_comm blockSize]
  exact Nat.mul_le_mul_right _ bound

theorem block_sectors_inside (bound : block < segmentBlockNumber) :
    block * blockSectors + blockSectors ≤ segmentSectors := by
  unfold segmentSectors
  rw [← Nat.succ_mul]
  exact Nat.mul_le_mul_right _ bound

variable {s : DataPath X}

theorem PathInv.inside (inv : PathInv nrSegments s) :
    s.Inside := by
  intro lba index found
  obtain ⟨block, bound, rfl, -⟩ := inv.marked lba index found
  exact block_inside bound

theorem PathInv.current_lt (inv : PathInv nrSegments s) :
    s.checkpoint.currentDataSegment < s.checkpoint.dst.length := by
  obtain ⟨count, allocated, below⟩ := inv.allocated
  rw [inv.dstLength]
  exact Nat.lt_of_lt_of_le below allocated.le

variable {s' : DataPath X}

/-- The invariant speaks of the checkpoint, the place and the map only. -/
theorem PathInv.congr (inv : PathInv nrSegments s) (checkpoint : s'.checkpoint = s.checkpoint)
    (hba : s'.segment.hba = s.segment.hba) (map : s'.segment.lbaIndexMap = s.segment.lbaIndexMap) :
    PathInv nrSegments s' where
  allocated := by rw [checkpoint]; exact inv.allocated
  dstLength := by rw [checkpoint]; exact inv.dstLength
  dstValid := by rw [checkpoint]; exact inv.dstValid
  marked := by rw [checkpoint, map]; exact inv.marked
  placed := by rw [checkpoint, hba]; exact inv.placed

/-- A flush keeps the invariant. -/
theorem PathInv.doFlush (inv : PathInv nrSegments s) (kernel : Kernel) :
    PathInv nrSegments (s.doFlush kernel).2 := by
  rcases DataPath.doFlush_cases kernel inv.inside with
    ⟨index, svt, taken, -, checkpoint, hba, map⟩ | ⟨err, -, -, checkpoint, hba, map⟩
  · obtain ⟨count, allocated, below⟩ := inv.allocated
    obtain ⟨rfl, -, allocated'⟩ := allocated.svtAlloc_ok taken
    constructor
    · rw [checkpoint]
      exact ⟨index + 1, allocated', Nat.lt_succ_self _⟩
    · rw [checkpoint]
      exact inv.dstLength
    · rw [checkpoint]
      exact inv.dstValid
    · rw [map]
      intro lba position found
      cases found
    · rw [checkpoint, hba]
      -- the new index is above the current one, so it is not zero
      cases index with
      | zero => omega
      | succ index =>
        change (1 + (index + 1)) * segmentSectors = (index + 2) * segmentSectors
        rw [Nat.add_comm 1]
  · constructor
    · rw [checkpoint]
      exact inv.allocated
    · rw [checkpoint]
      exact inv.dstLength
    · rw [checkpoint]
      exact inv.dstValid
    · rw [map]
      intro lba position found
      cases found
    · rw [checkpoint, hba]
      exact inv.placed

/-- A block allocation that succeeds marks a block of the current segment. -/
structure BlockTaken (nrSegments : Nat) (s s' : DataPath X) (block : Nat) : Prop where
  inv : PathInv nrSegments s'
  segment : s'.segment = s.segment
  dataSvt : s'.checkpoint.dataSvt = s.checkpoint.dataSvt
  current : s'.checkpoint.currentDataSegment = s.checkpoint.currentDataSegment
  others : ∀ i ≠ s.checkpoint.currentDataSegment, s'.checkpoint.dst[i]? = s.checkpoint.dst[i]?
  bound : block < segmentBlockNumber
  entry : ∃ old new, s.checkpoint.dst[s.checkpoint.currentDataSegment]? = some old ∧
    s'.checkpoint.dst[s.checkpoint.currentDataSegment]? = some new ∧
    old.bvm.bit block = false ∧ new.bvm.bit = Function.update old.bvm.bit block true ∧
    new.bvm.availLen + 1 = old.bvm.availLen

variable {kernel : Kernel}

section

variable (inv : PathInv nrSegments s)
include inv

theorem PathInv.allocBlock_ok (taken : s.allocBlock kernel = (.ok block, s')) :
    BlockTaken nrSegments s s' block := by
  have current := inv.current_lt
  unfold DataPath.allocBlock at taken
  rw [getElem?_eq_getElem current] at taken
  simp only at taken
  obtain ⟨valid, maxLen⟩ := inv.dstValid _ (getElem_mem current)
  unfold Dst.allocBlock at taken
  cases result : s.checkpoint.dst[s.checkpoint.currentDataSegment].bvm.alloc with
  | error err =>
    rw [result] at taken
    cases taken
  | ok allocated =>
    obtain ⟨index, bvm⟩ := allocated
    rw [result] at taken
    obtain ⟨ok, rfl⟩ := Prod.mk.inj taken
    obtain rfl := Except.ok.inj ok
    obtain ⟨bound, clear, -, valid', maxLen', bits⟩ := valid.alloc_ok result
    rw [maxLen] at bound maxLen'
    have fewer : bvm.availLen + 1 =
        s.checkpoint.dst[s.checkpoint.currentDataSegment].bvm.availLen := by
      have before := valid.available
      have after := valid'.available
      rw [maxLen] at before
      rw [maxLen', bits, countSet_set bound clear] at after
      omega
    refine ⟨⟨inv.allocated, ?_, ?_, ?_, inv.placed⟩, rfl, rfl, rfl, ?_, bound,
      ⟨_, ⟨bvm, kernel.timestamp s.ticks⟩, getElem?_eq_getElem current, ?_, clear, bits,
        fewer⟩⟩
    · exact (length_set ..).trans inv.dstLength
    · intro dst member
      rcases mem_or_eq_of_mem_set member with old | rfl
      · exact inv.dstValid dst old
      · exact ⟨valid', maxLen'⟩
    · intro lba position found
      obtain ⟨other, otherBound, eq, otherSet⟩ := inv.marked lba position found
      refine ⟨other, otherBound, eq, ?_⟩
      intro dst entry
      change (s.checkpoint.dst.set _ _)[s.checkpoint.currentDataSegment]? = some dst at entry
      rw [getElem?_set_self current] at entry
      obtain rfl := some.inj entry
      change bvm.bit other = true
      rw [bits, update_apply]
      split
      · rfl
      · exact otherSet _ (getElem?_eq_getElem current)
    · intro i differ
      exact getElem?_set_ne (Ne.symm differ)
    · exact getElem?_set_self current

theorem PathInv.allocBlock_error {fault : Fault}
    (failed : s.allocBlock kernel = (.error fault, s')) :
    s' = s ∧ fault = .error .enospc ∧
      ∀ dst, s.checkpoint.dst[s.checkpoint.currentDataSegment]? = some dst →
        dst.bvm.isFull = true := by
  have current := inv.current_lt
  obtain ⟨valid, maxLen⟩ := inv.dstValid _ (getElem_mem current)
  unfold DataPath.allocBlock at failed
  rw [getElem?_eq_getElem current] at failed ⊢
  simp only at failed
  unfold Dst.allocBlock at failed
  cases result : s.checkpoint.dst[s.checkpoint.currentDataSegment].bvm.alloc with
  | ok allocated =>
    rw [result] at failed
    cases failed
  | error err =>
    rw [result] at failed
    obtain ⟨faulted, rfl⟩ := Prod.mk.inj failed
    obtain ⟨rfl, full⟩ := valid.alloc_error result
    refine ⟨rfl, (Except.error.inj faulted).symm, ?_⟩
    intro dst entry
    obtain rfl := some.inj entry
    have available := valid.available
    rw [countSet_eq_self_iff.mpr full] at available
    simp only [BitMap.isFull, beq_iff_eq]
    omega

theorem PathInv.allocBlock_of_full (kernel : Kernel)
    (full : ∀ dst, s.checkpoint.dst[s.checkpoint.currentDataSegment]? = some dst →
      dst.bvm.isFull = true) : s.allocBlock kernel = (.error (.error .enospc), s) := by
  have current := inv.current_lt
  have entryFull := full _ (getElem?_eq_getElem current)
  unfold DataPath.allocBlock
  rw [getElem?_eq_getElem current]
  simp only [BitMap.isFull, beq_iff_eq] at entryFull ⊢
  unfold Dst.allocBlock BitMap.alloc BitMap.getFirstZeroBit
  rw [if_pos entryFull]

end

theorem DataPath.fillBlock_frame (s : DataPath X) (index offset : Nat) (data : List UInt8) :
    (s.fillBlock index offset data).2.checkpoint = s.checkpoint ∧
      (s.fillBlock index offset data).2.segment.hba = s.segment.hba ∧
      (s.fillBlock index offset data).2.segment.lbaIndexMap = s.segment.lbaIndexMap := by
  unfold DataPath.fillBlock
  split <;> exact ⟨rfl, rfl, rfl⟩

theorem PathInv.logBlock (inv : PathInv nrSegments s) (bound : block < segmentBlockNumber)
    (set : ∀ dst, s.checkpoint.dst[s.checkpoint.currentDataSegment]? = some dst →
      dst.bvm.bit block = true) (lba offset : Nat) (data : List UInt8) :
    PathInv nrSegments (s.logBlock lba block offset data).2 ∧
      (s.logBlock lba block offset data).2.checkpoint = s.checkpoint ∧
      (s.logBlock lba block offset data).2.segment.hba = s.segment.hba ∧
      ∀ place, (s.logBlock lba block offset data).1 = .ok place →
        place = (block, s.segment.hba + block * blockSectors) := by
  obtain ⟨checkpoint, hba, map⟩ := s.fillBlock_frame (block * blockSize) offset data
  unfold DataPath.logBlock
  cases filled : s.fillBlock (block * blockSize) offset data with
  | mk result s' =>
    rw [filled] at checkpoint hba map
    simp only at checkpoint hba map
    cases result with
    | error fault => exact ⟨inv.congr checkpoint hba map, checkpoint, hba, nofun⟩
    | ok done =>
      refine ⟨?_, checkpoint, hba, ?_⟩
      · have kept := inv.congr checkpoint hba map
        refine ⟨kept.allocated, kept.dstLength, kept.dstValid, ?_, kept.placed⟩
        intro other position found
        change (s'.segment.lbaIndexMap.insert lba (block * blockSize)).find other =
          some position at found
        rw [OrdMap.find_insert, update_apply] at found
        split at found
        · obtain rfl := some.inj found
          refine ⟨block, bound, rfl, ?_⟩
          change ∀ dst, s'.checkpoint.dst[s'.checkpoint.currentDataSegment]? = some dst → _
          rw [checkpoint]
          exact set
        · exact kept.marked other position found
      · intro place placed
        rw [← Except.ok.inj placed, hba]

/-- What a write does besides the buffer: it stays at its place or moves like a flush. -/
structure Written (nrSegments : Nat) (s target : DataPath X)
    (written : Except Fault (Nat × Nat) × DataPath X) : Prop where
  inv : PathInv nrSegments written.2
  own : OwnEntry s written
  hba : written.2.segment.hba = target.segment.hba
  current : written.2.checkpoint.currentDataSegment = target.checkpoint.currentDataSegment

variable {t : DataPath X}

theorem BlockTaken.logBlock {t' : DataPath X} (taken : BlockTaken nrSegments t t' block)
    (dst : t.checkpoint.dst = s.checkpoint.dst) (lba offset : Nat) (data : List UInt8) :
    Written nrSegments s t (t'.logBlock lba block offset data) := by
  obtain ⟨_, entry, -, entryAt, -, bits, -⟩ := taken.entry
  have set : entry.bvm.bit block = true := by rw [bits, update_self]
  rw [← taken.current] at entryAt
  have marked : ∀ dst, t'.checkpoint.dst[t'.checkpoint.currentDataSegment]? = some dst →
      dst.bvm.bit block = true := by
    intro other otherAt
    rw [entryAt] at otherAt
    obtain rfl := some.inj otherAt
    exact set
  obtain ⟨inv, checkpoint, hba, result⟩ :=
    taken.inv.logBlock taken.bound marked lba offset data
  refine ⟨inv, ⟨?_, ?_⟩, by rw [hba, taken.segment], by rw [checkpoint, taken.current]⟩
  · intro i differ
    rw [checkpoint] at differ ⊢
    rw [taken.others i (by rw [← taken.current]; exact differ), dst]
  · intro block' hba' done
    obtain ⟨rfl, rfl⟩ := Prod.mk.inj (result _ done)
    rw [checkpoint, hba]
    exact ⟨rfl, entry, entryAt, taken.bound, set⟩

theorem PathInv.stopped (inv : PathInv nrSegments t) (dst : t.checkpoint.dst = s.checkpoint.dst)
    (fault : Fault) :
    Written nrSegments s t (.error fault, t) :=
  ⟨inv, ⟨fun i _ => by rw [dst], nofun⟩, rfl, rfl⟩

theorem DataPath.doFlush_dst (kernel : Kernel) (inside : s.Inside) :
    (s.doFlush kernel).2.checkpoint.dst = s.checkpoint.dst := by
  rcases DataPath.doFlush_cases kernel inside with
    ⟨_, _, -, -, checkpoint, -⟩ | ⟨_, -, -, checkpoint, -⟩ <;> rw [checkpoint]

variable {lba : Nat}

theorem PathInv.write_buffered (inv : PathInv nrSegments s) (kernel : Kernel)
    (found : s.segment.lbaIndexMap.find lba = some index) (offset : Nat) (data : List UInt8) :
    Written nrSegments s s (s.write kernel lba offset data) := by
  obtain ⟨checkpoint, hba, map⟩ := s.fillBlock_frame index offset data
  obtain ⟨block, bound, rfl, marked⟩ := inv.marked lba index found
  have positive : 0 < blockSize := by unfold blockSize; decide
  unfold DataPath.write
  rw [found]
  simp only
  cases filled : s.fillBlock (block * blockSize) offset data with
  | mk result s' =>
    rw [filled] at checkpoint hba map
    simp only at checkpoint hba map
    have kept := inv.congr checkpoint hba map
    have others : ∀ i ≠ s'.checkpoint.currentDataSegment,
        s'.checkpoint.dst[i]? = s.checkpoint.dst[i]? := fun i _ => by rw [checkpoint]
    cases result with
    | error fault => exact ⟨kept, ⟨others, nofun⟩, hba, by rw [checkpoint]⟩
    | ok done =>
      refine ⟨kept, ⟨others, ?_⟩, hba, by rw [checkpoint]⟩
      intro block' hba' ok
      obtain ⟨rfl, rfl⟩ := Prod.mk.inj (Except.ok.inj ok)
      rw [Nat.mul_div_cancel _ positive]
      have current := kept.current_lt
      refine ⟨rfl, _, getElem?_eq_getElem current, bound, ?_⟩
      refine marked _ ?_
      rw [← checkpoint]
      exact getElem?_eq_getElem current

variable {data : List UInt8} {offset : Nat}

theorem PathInv.write_unflushed (inv : PathInv nrSegments s) (kernel : Kernel)
    (still : ¬ NeedsSegment s lba) :
    Written nrSegments s s (s.write kernel lba offset data) := by
  cases found : s.segment.lbaIndexMap.find lba with
  | some index => exact inv.write_buffered kernel found offset data
  | none =>
    unfold DataPath.write
    rw [found]
    simp only
    cases allocated : s.allocBlock kernel with
    | mk result s' =>
      cases result with
      | ok block => exact (inv.allocBlock_ok allocated).logBlock rfl lba offset data
      | error fault =>
        exact absurd ⟨found, (inv.allocBlock_error allocated).2.2⟩ still

theorem PathInv.write_flushed (inv : PathInv nrSegments s) (kernel : Kernel)
    (full : NeedsSegment s lba) :
    Written nrSegments s (s.doFlush kernel).2 (s.write kernel lba offset data) := by
  obtain ⟨missing, full⟩ := full
  have inv' := inv.doFlush kernel
  have dst := DataPath.doFlush_dst kernel inv.inside
  unfold DataPath.write
  rw [missing, inv.allocBlock_of_full kernel full]
  simp only
  cases flushed : s.doFlush kernel with
  | mk result t =>
    rw [flushed] at inv' dst
    cases result with
    | error fault => exact inv'.stopped dst fault
    | ok done =>
      simp only
      cases allocated : t.allocBlock kernel with
      | mk result t' =>
        cases result with
        | ok block => exact (inv'.allocBlock_ok allocated).logBlock dst lba offset data
        | error fault =>
          obtain ⟨rfl, -, -⟩ := inv'.allocBlock_error allocated
          exact inv'.stopped dst fault

/-- A session after it wrote the addresses below `count` to an empty segment. -/
structure Filling (nrSegments count : Nat) (s : DataPath X) : Prop where
  inv : PathInv nrSegments s
  unwritten : ∀ lba, count ≤ lba → s.segment.lbaIndexMap.find lba = none
  room : ∃ dst, s.checkpoint.dst[s.checkpoint.currentDataSegment]? = some dst ∧
    dst.bvm.availLen + count = segmentBlockNumber

theorem PathInv.write_logged (inv : PathInv nrSegments s) (kernel : Kernel) {dst : Dst}
    (missing : s.segment.lbaIndexMap.find lba = none)
    (entry : s.checkpoint.dst[s.checkpoint.currentDataSegment]? = some dst)
    (room : dst.bvm.isFull = false) (fits : offset + data.length ≤ blockSize) :
    ∃ block s', s.allocBlock kernel = (.ok block, s') ∧ BlockTaken nrSegments s s' block ∧
      s.write kernel lba offset data =
        (.ok (block, s.segment.hba + block * blockSectors),
          { s' with
            segment :=
              { s.segment with
                buffer := s.segment.buffer.write (block * blockSize + offset) data
                lbaIndexMap := s.segment.lbaIndexMap.insert lba (block * blockSize)
                used := s.segment.used + 1 } }) := by
  cases allocated : s.allocBlock kernel with
  | mk result s' =>
    cases result with
    | error fault =>
      have full := (inv.allocBlock_error allocated).2.2 dst entry
      rw [room] at full
      cases full
    | ok block =>
      have taken := inv.allocBlock_ok allocated
      have inside : block * blockSize + offset + data.length ≤ segmentSize := by
        have last := block_inside taken.bound
        omega
      refine ⟨block, s', rfl, taken, ?_⟩
      unfold DataPath.write DataPath.logBlock DataPath.fillBlock
      rw [missing, allocated]
      simp only
      rw [if_pos inside, taken.segment]

theorem Filling.write (filling : Filling nrSegments count s) (room : count < segmentBlockNumber)
    (kernel : Kernel) (fits : data.length ≤ blockSize) :
    Filling nrSegments (count + 1) (s.write kernel count 0 data).2 ∧
      (s.write kernel count 0 data).2.checkpoint.dataSvt = s.checkpoint.dataSvt := by
  obtain ⟨dst, entry, available⟩ := filling.room
  have notFull : dst.bvm.isFull = false := by
    simp only [BitMap.isFull, beq_eq_false_iff_ne]
    omega
  have fits' : 0 + data.length ≤ blockSize := by omega
  obtain ⟨block, s', -, taken, written⟩ := filling.inv.write_logged kernel
    (filling.unwritten count (Nat.le_refl _)) entry notFull fits'
  obtain ⟨old, new, oldAt, newAt, -, -, fewer⟩ := taken.entry
  have still : ¬ NeedsSegment s count := by
    rintro ⟨-, full⟩
    rw [full dst entry] at notFull
    cases notFull
  refine ⟨⟨(filling.inv.write_unflushed kernel still).inv, ?_, ?_⟩, ?_⟩
  · intro lba above
    rw [written]
    change (s.segment.lbaIndexMap.insert count (block * blockSize)).find lba = none
    rw [OrdMap.find_insert, update_of_ne (by omega)]
    exact filling.unwritten lba (by omega)
  · rw [written]
    change ∃ dst, s'.checkpoint.dst[s'.checkpoint.currentDataSegment]? = some dst ∧ _
    rw [taken.current]
    refine ⟨new, newAt, ?_⟩
    rw [entry] at oldAt
    obtain rfl := some.inj oldAt
    omega
  · rw [written]
    exact taken.dataSvt

theorem Filling.needsSegment (filling : Filling nrSegments segmentBlockNumber s) :
    NeedsSegment s segmentBlockNumber := by
  obtain ⟨dst, entry, available⟩ := filling.room
  refine ⟨filling.unwritten _ (Nat.le_refl _), ?_⟩
  intro other otherAt
  rw [entry] at otherAt
  obtain rfl := some.inj otherAt
  simp only [BitMap.isFull, beq_iff_eq]
  omega

end SwornDisk.Rust
