import SwornDisk.Rust.FullDisk

/-!
# Writes of a part of a block

A write to an address that is in the segment buffer changes the block in place.  Any other
write goes to a new block of the buffer, which is zero: what the block had elsewhere, behind
a record, is not read.  So the rest of the block is lost unless it was zero.  And the block itself
is lost with a later flush if the segment of the buffer does not lie inside the device, or is the
last one that could be allocated.
-/

namespace SwornDisk.Rust

open Lib List Function Option

variable {kernel : Kernel} {nrSegments lba other offset : Nat} {data content : List UInt8}

variable {X : Type}

/-- The segment can be flushed: another one is free, and it lies inside the device. -/
def Flushable (s : DataPath X) : Prop :=
  s.checkpoint.dataSvt.isFull = false ∧ s.segment.hba + segmentSectors ≤ s.dataDev.sectors

section

variable {lookup : X → Nat → Option Record} {s t : DataPath X}

end

/-- The states that writes to other addresses, flushes and changes of the index that keep what is
found lead to, whether they fail or not. -/
inductive Later (kernel : Kernel) (lookup : X → Nat → Option Record) (lba : Nat) (s : DataPath X) :
    DataPath X → Prop
  | refl : Later kernel lookup lba s s
  | write {t : DataPath X} (before : Later kernel lookup lba s t) {other offset : Nat}
      {data : List UInt8} (differ : other ≠ lba) (fits : offset + data.length ≤ blockSize) :
      Later kernel lookup lba s (t.write kernel other offset data).2
  | flush {t : DataPath X} (before : Later kernel lookup lba s t) :
      Later kernel lookup lba s (t.doFlush kernel).2
  | reindex {t : DataPath X} (before : Later kernel lookup lba s t) {memtable : MemTable Record}
      {category : X} (covered : memtable.Covered)
      (same : ∀ lba, (memtable.find lba).or (lookup category lba) = lookupRecord lookup t lba) :
      Later kernel lookup lba s
        { t with
          memtable := memtable
          checkpoint := { t.checkpoint with bitCategory := category } }

/-- The block of an address is in a buffer that can be flushed, or behind a record of a segment
that is no longer written. -/
inductive Safe (kernel : Kernel) (lookup : X → Nat → Option Record) (lba : Nat)
    (content : List UInt8) (s : DataPath X) : Prop
  | buffered (read : s.segment.read lba = some content) (flushable : Flushable s)
  | recorded (record : Record) (missing : s.segment.lbaIndexMap.find lba = none)
      (found : lookupRecord lookup s lba = some record)
      (below : Below s.checkpoint.currentDataSegment record)
      (opened : openRecord kernel s.dataDev record = .ok content)

section

variable {lookup : X → Nat → Option Record} {s s' t : DataPath X}

theorem Safe.congr (safe : Safe kernel lookup lba content s) (index : SameIndex s s')
    (read : s'.segment.read lba = s.segment.read lba) (hba : s'.segment.hba = s.segment.hba)
    (svt : s'.checkpoint.dataSvt = s.checkpoint.dataSvt)
    (current : s'.checkpoint.currentDataSegment = s.checkpoint.currentDataSegment) :
    Safe kernel lookup lba content s' := by
  cases safe with
  | buffered here flushable =>
    refine .buffered (read.trans here) ?_
    unfold Flushable
    rw [svt, hba, index.dataDev]
    exact flushable
  | recorded record missing found below opened =>
    refine .recorded record ?_ ?_ ?_ ?_
    · rw [← DataSegment.read_eq_none_iff, read, DataSegment.read_eq_none_iff]
      exact missing
    · rw [index.lookupRecord_eq lookup]
      exact found
    · rw [current]
      exact below
    · rw [index.dataDev]
      exact opened

section

variable (safe : Safe kernel lookup lba content s) (live : LiveInv lookup nrSegments s)
include safe live

theorem Safe.doFlush : Safe kernel lookup lba content (s.doFlush kernel).2 := by
  have missing' : (s.doFlush kernel).2.segment.lbaIndexMap.find lba = none := by
    rw [DataPath.map_doFlush kernel live.inside]
    rfl
  cases safe with
  | buffered read flushable =>
    have kept := live.readBlock_doFlush kernel lba (fun _ _ => flushable.2)
      fun record => live.segmentFree flushable.1 lba record
    simp only [readBlock, read, DataSegment.read_eq_none_iff.mpr missing'] at kept
    cases flushed : s.doFlush kernel with
    | mk result t =>
      cases result with
      | error fault =>
        have full := (live.flush_refused flushed).1
        rw [flushable.1] at full
        cases full
      | ok done =>
        rw [flushed] at kept missing'
        split at kept
        · cases kept
        · next record found =>
          refine .recorded record missing' found
            ((live.flushed flushed).2.2.2.1 lba record found) ?_
          cases opened : openRecord kernel t.dataDev record with
          | error fault =>
            simp only [opened] at kept
            cases kept
          | ok block =>
            simp only [opened] at kept
            rw [← some.inj (Except.ok.inj kept)]
  | recorded record missing found below opened =>
    have outside : Outside s.segment.hba record := by
      rw [live.placed]
      exact below.outside
    refine .recorded record missing' ?_ ?_ ?_
    · rw [live.lookupRecord_unflushed kernel lookup missing]
      exact found
    · cases flushed : s.doFlush kernel with
      | mk result t =>
        cases result with
        | ok done => exact below.mono (Nat.le_of_lt (live.flushed flushed).2.1)
        | error fault =>
          simp only [(live.flush_refused flushed).2.1]
          exact below
    · rw [DataPath.dataDev_doFlush kernel live.inside]
      unfold openRecord at opened ⊢
      rw [readSectors_outside _ _ outside]
      exact opened

theorem Safe.logged {block : Nat} (allocated : s.allocBlock kernel = (.ok block, s'))
    (fits : offset + data.length ≤ blockSize) (differ : other ≠ lba) :
    Safe kernel lookup lba content (s'.logBlock other block offset data).2 := by
  have taken := live.allocBlock_ok allocated
  have read := taken.inv.read_logBlock_other taken.bound fits (live.unused taken) (Ne.symm differ)
  rw [taken.segment] at read
  have index := sameIndex_logged allocated other offset data
  rw [s'.logBlock_eq other taken.bound fits] at read index ⊢
  refine safe.congr index read ?_ taken.dataSvt taken.current
  simp only [taken.segment]

theorem Safe.write (fits : offset + data.length ≤ blockSize) (differ : other ≠ lba) :
    Safe kernel lookup lba content (s.write kernel other offset data).2 := by
  have later := safe.doFlush live
  cases live.writeCase kernel other offset data with
  | buffered index found state result =>
    obtain ⟨checkpoint, hba, -⟩ := s.fillBlock_frame index offset data
    rw [state]
    exact safe.congr (sameIndex_fillBlock s index offset data)
      (live.read_fillBlock_other found fits (Ne.symm differ)) hba (by rw [checkpoint])
      (by rw [checkpoint])
  | logged block s' missing allocated written =>
    rw [written]
    exact safe.logged live allocated fits differ
  | moved t needs flushed block t' allocated written =>
    rw [flushed] at later
    rw [written]
    exact later.logged (live.flushed flushed).2.2.1 allocated fits differ
  | stuck t needs flushed full written =>
    rw [flushed] at later
    rw [written]
    exact later
  | refused t err needs flushed written =>
    rw [flushed] at later
    rw [written]
    exact later

end

theorem Later.safe (later : Later kernel lookup lba s t) (live : LiveInv lookup nrSegments s)
    (safe : Safe kernel lookup lba content s) :
    LiveInv lookup nrSegments t ∧ Safe kernel lookup lba content t := by
  induction later with
  | refl => exact ⟨live, safe⟩
  | write _ differ fits ih => exact ⟨ih.1.write kernel _ fits, ih.2.write ih.1 fits differ⟩
  | flush _ ih => exact ⟨ih.1.doFlush kernel, ih.2.doFlush ih.1⟩
  | reindex _ covered same ih =>
    refine ⟨ih.1.reindex covered same, ?_⟩
    cases ih.2 with
    | buffered read flushable => exact .buffered read flushable
    | recorded record missing found below opened =>
      exact .recorded record missing ((same lba).trans found) below opened

end

end SwornDisk.Rust
