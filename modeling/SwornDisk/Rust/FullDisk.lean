import SwornDisk.Rust.Dispatch
import SwornDisk.Rust.LiveRecords
import SwornDisk.Rust.SegmentPlacement

/-!
# Writes and flushes on a full disk

With no free segment left, a flush, and a write that finds the current segment full, returns an
error after the buffer was written back.  The first such call keeps every block readable if
the segment lies inside the device, but the buffer is empty from then on, and the next flush
writes it over the segment.  The error itself never reaches the submitter: `IoWorker::work` ends
the bio without setting its status.
-/

namespace SwornDisk.Rust

open Lib List Function Option

variable {X : Type}

/-! ## Calls that fail -/

inductive SegmentCall where
  | write (lba offset : Nat) (data : List UInt8)
  | flush

namespace SegmentCall

variable (kernel : Kernel) (s : DataPath X)

def run : SegmentCall → Except Fault Unit × DataPath X
  | write lba offset data =>
    ((s.write kernel lba offset data).1.map fun _ => (), (s.write kernel lba offset data).2)
  | flush => s.doFlush kernel

end SegmentCall

/-- The states that writes which fail, one after another, lead to. -/
inductive FailingWrites (kernel : Kernel) (s : DataPath X) : DataPath X → Prop
  | refl : FailingWrites kernel s s
  | write {t : DataPath X} (before : FailingWrites kernel s t) {lba offset : Nat}
      {data : List UInt8} {err : Error} (fits : offset + data.length ≤ blockSize)
      (failed : (t.write kernel lba offset data).1 = .error (.error err)) :
      FailingWrites kernel s (t.write kernel lba offset data).2

/-- A round of `IoWorker::work` from the handler of the bio to the next `pop_front`. -/
def Dispatch.finish (d : Dispatch) (worker : Fin maxWorkers) (bio : Bio) (outcome : Outcome) :
    Dispatch :=
  let served := d.handle worker bio outcome
  match (served.rwWorker worker).phase with
  | .failing bio => served.endFailed worker bio
  | _ => served

/-- No readable block of an address outside the buffer lies in the segment of the buffer. -/
def Spared (kernel : Kernel) (lookup : X → Nat → Option Record) (s : DataPath X) : Prop :=
  ∀ lba record block, s.segment.lbaIndexMap.find lba = none →
    lookupRecord lookup s lba = some record → openRecord kernel s.dataDev record = .ok block →
      Outside s.segment.hba record

/-- A flush has nothing to destroy: what is readable lies elsewhere, and the buffer is empty, or
its segment lies inside the device and has a free block. -/
structure FlushHarmless (kernel : Kernel) (lookup : X → Nat → Option Record)
    (s : DataPath X) : Prop where
  spared : Spared kernel lookup s
  room : s.segment.lbaIndexMap = OrdMap.empty ∨
    s.segment.hba + segmentSectors ≤ s.dataDev.sectors ∧
      ∃ dst, s.checkpoint.dst[s.checkpoint.currentDataSegment]? = some dst ∧
        dst.bvm.isFull = false

section

variable {kernel : Kernel} {lookup : X → Nat → Option Record} {nrSegments lba : Nat}
  {s t : DataPath X} {call : SegmentCall}

section

variable (inv : LiveInv lookup nrSegments s)
include inv

variable (refuses : RefusesUnwritten kernel s)
include refuses

theorem LiveInv.readBlock_harmless (spared : Spared kernel lookup s)
    (room : s.segment.lbaIndexMap = OrdMap.empty ∨
      s.segment.hba + segmentSectors ≤ s.dataDev.sectors) (lba : Nat) :
    readBlock kernel lookup (s.doFlush kernel).2 lba = readBlock kernel lookup s lba := by
  by_cases lost : ∃ record, s.segment.lbaIndexMap.find lba = none ∧
      lookupRecord lookup s lba = some record ∧ ¬ Outside s.segment.hba record
  · -- a block in the segment that is written could not be read before
    obtain ⟨record, missing, found, inside⟩ := lost
    have spent : Spent s record := by
      rcases inv.below lba record found with below | ⟨-, spent⟩
      · rw [inv.placed] at inside
        exact absurd below.outside inside
      · exact spent
    rw [inv.readBlock_spent refuses missing found spent]
    simp only [readBlock, DataSegment.read_eq_none_iff.mpr missing, found]
    cases opened : openRecord kernel s.dataDev record with
    | ok block => exact absurd (spared lba record block missing found opened) inside
    | error fault =>
      unfold openRecord at opened
      split at opened
      · cases opened
      · rw [← Except.error.inj opened]
        rfl
  · refine inv.readBlock_doFlush kernel lba ?_ ?_
    · intro index mapped
      refine room.resolve_left fun empty => ?_
      rw [empty] at mapped
      cases mapped
    · intro record missing found
      by_contra inside
      exact lost ⟨record, missing, found, inside⟩

end

structure Emptied (kernel : Kernel) (lookup : X → Nat → Option Record) (nrSegments : Nat)
    (s : DataPath X) : Prop extends LiveInv lookup nrSegments s where
  refuses : RefusesUnwritten kernel s
  empty : s.segment.lbaIndexMap = OrdMap.empty
  spared : Spared kernel lookup s

theorem Emptied.refused (emptied : Emptied kernel lookup nrSegments s) {fault : Fault}
    (flushed : s.doFlush kernel = (.error fault, t)) :
    Emptied kernel lookup nrSegments t ∧
      ∀ lba, readBlock kernel lookup t lba = readBlock kernel lookup s lba := by
  have inv := emptied.toLiveInv
  have missing : ∀ lba, s.segment.lbaIndexMap.find lba = none := by
    rw [emptied.empty]
    exact fun _ => rfl
  have reads := inv.readBlock_harmless emptied.refuses emptied.spared (.inl emptied.empty)
  have records := fun lba => inv.lookupRecord_unflushed kernel lookup (missing lba)
  obtain ⟨-, -, hba, map⟩ := inv.flush_refused flushed
  rw [flushed] at reads records
  refine ⟨⟨inv.refused flushed, emptied.refuses.refused inv.toPathInv flushed, map, ?_⟩, reads⟩
  intro lba record block missing' found opened
  have read := reads lba
  rw [records] at found
  simp only [readBlock, DataSegment.read_eq_none_iff.mpr missing', records, found, opened,
    DataSegment.read_eq_none_iff.mpr (missing lba)] at read
  cases before : openRecord kernel s.dataDev record with
  | ok block' =>
    rw [hba]
    exact emptied.spared lba record block' (missing lba) found before
  | error fault =>
    rw [before] at read
    cases read

theorem Emptied.failingWrites (emptied : Emptied kernel lookup nrSegments s)
    (failing : FailingWrites kernel s t) :
    Emptied kernel lookup nrSegments t ∧
      ∀ lba, readBlock kernel lookup t lba = readBlock kernel lookup s lba := by
  induction failing with
  | refl => exact ⟨emptied, fun _ => rfl⟩
  | @write t before lba offset data err fits failed ih =>
    obtain ⟨emptied', reads⟩ := ih
    obtain ⟨needs, full⟩ := (emptied'.write_error_iff kernel fits).mp ⟨err, failed⟩
    obtain ⟨u, flushed⟩ := emptied'.doFlush_full kernel full
    obtain ⟨later, same⟩ := emptied'.refused flushed
    rw [emptied'.write_refused kernel needs full, flushed]
    exact ⟨later, fun lba => (same lba).trans (reads lba)⟩

theorem FlushHarmless.readable (harmless : FlushHarmless kernel lookup s)
    (inv : LiveInv lookup nrSegments s)
    (refuses : RefusesUnwritten kernel s) {fault : Fault}
    (flushed : s.doFlush kernel = (.error fault, t)) {u : DataPath X}
    (failing : FailingWrites kernel t u) (lba : Nat) :
    readBlock kernel lookup u lba = readBlock kernel lookup s lba := by
  rcases harmless.room with empty | ⟨inRange, dst, entry, free⟩
  · have emptied : Emptied kernel lookup nrSegments s := ⟨inv, refuses, empty, harmless.spared⟩
    obtain ⟨later, first⟩ := emptied.refused flushed
    exact ((later.failingWrites failing).2 lba).trans (first lba)
  · -- the segment has a free block, so no write fails
    obtain ⟨-, checkpoint, -, -⟩ := inv.flush_refused flushed
    have still : u = t := by
      induction failing with
      | refl => rfl
      | @write u before lba offset data err fits failed ih =>
        subst ih
        have needs := ((inv.refused flushed).write_error_iff kernel fits).mp ⟨err, failed⟩
        have taken := needs.1.2 dst (by rw [checkpoint]; exact entry)
        rw [free] at taken
        cases taken
    have kept := inv.readBlock_harmless refuses harmless.spared (.inr inRange) lba
    rw [flushed] at kept
    rw [still]
    exact kept

end

/-! ## Sessions -/

/-- What the steps that change the index keep: a record is found for an address after the
step exactly if it was found before.  Writes stay inside one block. -/
def IndexKept (kernel : Kernel) (lookup : X → Nat → Option Record) (host : Host X) :
    SegmentEvent X → Prop
  | .ctr _ _ => True
  | .write _ offset data => offset + data.length ≤ blockSize
  | .flush => True
  | .reindex memtable category => memtable.Covered ∧ ∀ s, host.context = some s →
      ∀ lba, (memtable.find lba).or (lookup category lba) = lookupRecord lookup s lba
  | .dtr (.ok category) => ∀ s, host.context = some s →
      ∀ lba, lookup category lba = lookupRecord lookup (s.doFlush kernel).2 lba
  | .dtr (.error _) => True

structure HostLive (lookup : X → Nat → Option Record) (nrSegments : Nat) (host : Host X) : Prop
    extends HostInv nrSegments host where
  storedFresh : ∀ checkpoint, host.checkpointRegion = some checkpoint → FreshSegments checkpoint
  storedBelow : ∀ checkpoint, host.checkpointRegion = some checkpoint →
    ∀ lba record, lookup checkpoint.bitCategory lba = some record →
      Below checkpoint.currentDataSegment record
  live : ∀ s, host.context = some s → LiveInv lookup nrSegments s

variable {host : Host X} {s : DataPath X} {checkpoint : Checkpoint X}

theorem Host.ctr_context (unmounted : host.context = none)
    (mounted : (host.ctr (some checkpoint)).context = some s) :
    ∃ index svt, svtAlloc checkpoint.dataSvt = .ok (index, svt) ∧
      s.checkpoint = { checkpoint with dataSvt := svt } ∧
      s.segment = DataSegment.new (index * segmentSectors) ∧ s.memtable = MemTable.new ∧
      s.dataDev = host.dataDev := by
  cases taken : svtAlloc checkpoint.dataSvt with
  | error err =>
    simp only [Host.ctr, taken] at mounted
    rw [unmounted] at mounted
    cases mounted
  | ok result =>
    simp only [Host.ctr, taken] at mounted
    obtain rfl := some.inj mounted
    exact ⟨result.1, result.2, rfl, rfl, rfl, rfl, rfl⟩

theorem MemTable.find_new {V : Type} (lba : Nat) : (MemTable.new : MemTable V).find lba = none := by
  rw [MemTable.covered_new.find_eq]
  rfl

variable {lookup : X → Nat → Option Record} {nrSegments : Nat}

theorem liveInv_ctr (unmounted : host.context = none)
    (mounted : (host.ctr (some checkpoint)).context = some s) (path : PathInv nrSegments s)
    (valid : checkpoint.dataSvt.Valid) (fresh : FreshSegments checkpoint)
    (below : ∀ lba record, lookup checkpoint.bitCategory lba = some record →
      Below checkpoint.currentDataSegment record) : LiveInv lookup nrSegments s := by
  obtain ⟨index, svt, taken, tables, segment, memtable, -⟩ := Host.ctr_context unmounted mounted
  refine ⟨⟨path, ?_, ?_⟩, ?_, cleanBuffer_zeroed (by rw [segment]; rfl), ?_⟩
  · rw [segment]
    intro left right position found
    cases found
  · rw [memtable]
    exact MemTable.covered_new
  · intro i dst entry unallocated
    rw [tables] at entry unallocated
    rw [svtAlloc_eq] at taken
    obtain ⟨-, -, -, -, -, bits⟩ := valid.alloc_ok taken
    simp only at entry unallocated
    rw [bits, update_apply] at unallocated
    split at unallocated
    · cases unallocated
    · exact fresh i dst entry unallocated
  · intro lba record found
    unfold lookupRecord at found
    rw [memtable, MemTable.find_new, none_or, tables] at found
    rw [tables]
    exact .inl (below lba record found)

theorem freshSegments_new (category : X) (dataSegs indexSegs : Nat) (times : Nat → Nat) :
    FreshSegments (Checkpoint.new category dataSegs indexSegs times) := by
  intro i dst entry _
  change ((range dataSegs).map fun i => Dst.new (times i))[i]? = some dst at entry
  obtain ⟨j, -, rfl⟩ := mem_map.mp (mem_of_getElem? entry)
  simp only [Dst.new, BitMap.new, BitMap.isFull, beq_eq_false_iff_ne]
  unfold segmentBlockNumber
  decide

theorem Host.dtr_region {kernel : Kernel} {converted : Except Fault X}
    (stored : (host.dtr kernel s converted).checkpointRegion = some checkpoint) :
    host.checkpointRegion = some checkpoint ∨
      ∃ t category, s.doFlush kernel = (.ok (), t) ∧ converted = .ok category ∧
        checkpoint = { t.checkpoint with bitCategory := category } := by
  cases flushed : s.doFlush kernel with
  | mk result t =>
    cases result with
    | error fault =>
      simp only [Host.dtr, flushed] at stored
      exact Or.inl stored
    | ok done =>
      cases converted with simp only [Host.dtr, flushed] at stored
      | error fault => exact Or.inl stored
      | ok category =>
        exact Or.inr ⟨t, category, rfl, rfl, (some.inj stored).symm⟩

theorem HostLive.step (inv : HostLive lookup nrSegments host) (kernel : Kernel) (category : X)
    (empty : ∀ lba, lookup category lba = none) {event : SegmentEvent X}
    (kept : IndexKept kernel lookup host event) :
    HostLive lookup nrSegments (host.step kernel category event) := by
  have hostInv := inv.toHostInv.step kernel category event
  cases context : host.context with
  | none =>
    cases event with simp only [Host.step, context] at hostInv ⊢
    | ctr shouldInit nrIndexSegments =>
      have region : ∀ checkpoint?, (host.ctr checkpoint?).checkpointRegion =
          host.checkpointRegion := by
        intro checkpoint?
        unfold Host.ctr
        split
        · rfl
        · split <;> rfl
      refine ⟨hostInv, by rw [region]; exact inv.storedFresh,
        by rw [region]; exact inv.storedBelow, ?_⟩
      intro s mounted
      have path := hostInv.mounted s mounted
      unfold Host.ctrCheckpoint at mounted
      cases shouldInit with
      | true =>
        refine liveInv_ctr context mounted path (BitMap.valid_new _)
          (freshSegments_new _ _ _ _) ?_
        intro lba record found
        change lookup category lba = some record at found
        rw [empty] at found
        cases found
      | false =>
        cases stored : host.checkpointRegion with
        | none =>
          rw [stored] at mounted
          change host.context = some s at mounted
          rw [context] at mounted
          cases mounted
        | some checkpoint =>
          rw [stored] at mounted
          exact liveInv_ctr context mounted path
            (inv.stored checkpoint stored).allocated.valid
            (inv.storedFresh checkpoint stored) (inv.storedBelow checkpoint stored)
    | _ =>
      exact inv
  | some s =>
    have live := inv.live s context
    -- a step inside the session
    have session : ∀ s' : DataPath X, LiveInv lookup nrSegments s' →
        HostInv nrSegments { host with context := some s' } →
        HostLive lookup nrSegments { host with context := some s' } := by
      intro s' live' hostInv'
      refine ⟨hostInv', inv.storedFresh, inv.storedBelow, ?_⟩
      intro t mounted
      obtain rfl := some.inj mounted
      exact live'
    cases event with simp only [Host.step, context] at hostInv ⊢
    | ctr shouldInit nrIndexSegments =>
      exact inv
    | write lba offset data =>
      exact session _ (live.write kernel lba kept) hostInv
    | flush =>
      exact session _ (live.doFlush kernel) hostInv
    | reindex memtable category' =>
      obtain ⟨covered, same⟩ := kept
      exact session _ (live.reindex covered (same s context)) hostInv
    | dtr converted =>
      have gone := (inv.toHostInv.dtr live.toPathInv kernel converted).2
      refine ⟨hostInv, ?_, ?_, ?_⟩
      · intro checkpoint stored
        rcases Host.dtr_region stored with old | ⟨t, category', flushed, -, rfl⟩
        · exact inv.storedFresh checkpoint old
        · exact (live.flushed flushed).2.2.1.fresh
      · intro checkpoint stored
        rcases Host.dtr_region stored with old | ⟨t, category', flushed, rfl, rfl⟩
        · exact inv.storedBelow checkpoint old
        · intro lba record found
          refine (live.flushed flushed).2.2.2.1 lba record ?_
          have same := kept s context lba
          rw [flushed] at same
          rw [← same]
          exact found
      · intro t mounted
        rw [gone] at mounted
        cases mounted

theorem hostLive_run (kernel : Kernel) {category : X} (empty : ∀ lba, lookup category lba = none)
    (dev : Device) {events : List (SegmentEvent X)}
    (kept : ∀ done event rest, events = done ++ event :: rest →
      IndexKept kernel lookup ((Host.blank dev).run kernel category done) event) :
    HostLive lookup (superBlockDataSegments dev) ((Host.blank dev).run kernel category events) := by
  induction events using reverseRecOn with
  | nil => exact ⟨hostInv_blank dev, nofun, nofun, nofun⟩
  | append_singleton events event ih =>
    rw [Host.run_concat]
    refine (ih ?_).step kernel category empty (kept events event [] rfl)
    intro done event' rest split
    exact kept done event' (rest ++ [event]) (by simp [split])

def oneSegment : Device := ⟨segmentSectors, Memory.zeroed⟩

theorem superBlockDataSegments_oneSegment : superBlockDataSegments oneSegment = 1 := by
  unfold superBlockDataSegments oneSegment
  rw [segmentSectors_eq]
  unfold sectorSize blockSize segmentBlockNumber
  rfl

variable {count : Nat}

/-- The block that `fillEvents` writes. -/
def onesBlock : List UInt8 := List.replicate blockSize 1

theorem length_onesBlock : onesBlock.length = blockSize := length_replicate

theorem onesBlock_fits : 0 + onesBlock.length ≤ blockSize := by
  rw [length_onesBlock, Nat.zero_add]

theorem read_logged (inv : PathInv nrSegments s) (kernel : Kernel) {lba : Nat} {data : List UInt8}
    {dst : Dst} (missing : s.segment.lbaIndexMap.find lba = none)
    (entry : s.checkpoint.dst[s.checkpoint.currentDataSegment]? = some dst)
    (room : dst.bvm.isFull = false) (whole : data.length = blockSize) (other : Nat) :
    (s.write kernel lba 0 data).2.segment.read other =
      if other = lba then some data else s.segment.read other := by
  have fits : 0 + data.length ≤ blockSize := by omega
  obtain ⟨block, s', -, taken, written⟩ := inv.write_logged kernel missing entry room fits
  rw [written]
  unfold DataSegment.read
  simp only [Nat.add_zero, OrdMap.find_insert, update_apply]
  by_cases same : other = lba
  · rw [if_pos same, if_pos same]
    simp only
    rw [← whole, Memory.read_write_same]
  · rw [if_neg same, if_neg same]
    cases found : s.segment.lbaIndexMap.find other with
    | none => rfl
    | some index =>
      simp only
      obtain ⟨mapped, -, rfl, -⟩ := inv.marked other index found
      have differ : mapped ≠ block := by
        rintro rfl
        exact inv.unused taken other (taken.segment ▸ found)
      rw [Memory.read_write_disjoint]
      rw [whole]
      exact blocks_apart differ

end SwornDisk.Rust
