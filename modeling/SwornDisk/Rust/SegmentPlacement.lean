import SwornDisk.Rust.SegmentWrites

/-!
# Where the buffered data segment lies

Sessions of the Rust implementation as far as they place data segments: `ctr` takes a
checkpoint and allocates the first segment, writes and flushes allocate more, and `dtr`
flushes and stores the checkpoint.  `ctr` places segment `i` at `i` segments from the
start, `do_flush` at `1 + i`.  Both agree with one injective mapping of the current
segment, but the last segment of the device is placed behind its end.
-/

namespace SwornDisk.Rust

open Lib List Option

variable {X : Type}

/-- The devices, with the superblock's number of data segments, and, while mounted, the
context. -/
structure Host (X : Type) where
  nrDataSegments : Nat
  checkpointRegion : Option (Checkpoint X)
  dataDev : Device
  context : Option (DataPath X)
  draws : Nat
  ticks : Nat

/-- `SuperBlock::new`: the number of data segments of a device. -/
def superBlockDataSegments (dev : Device) : Nat :=
  dev.sectors * sectorSize / blockSize / segmentBlockNumber

def Host.blank (dev : Device) : Host X where
  nrDataSegments := superBlockDataSegments dev
  checkpointRegion := none
  dataDev := dev
  context := none
  draws := 0
  ticks := 0

/-- What happens to a device.  `reindex` stands for everything that changes the memtable
and the BIT category between two uses of the segment buffer. -/
inductive SegmentEvent (X : Type) where
  | ctr (shouldInit : Bool) (nrIndexSegments : Nat)
  | write (lba offset : Nat) (data : List UInt8)
  | flush
  | reindex (memtable : MemTable Record) (category : X)
  | dtr (converted : Except Fault X)

/-- The checkpoint that `ctr` starts from. -/
def Host.ctrCheckpoint (kernel : Kernel) (category : X) (host : Host X) (shouldInit : Bool)
    (nrIndexSegments : Nat) : Option (Checkpoint X) :=
  if shouldInit then
    some (Checkpoint.new category host.nrDataSegments nrIndexSegments
      fun i => kernel.timestamp (host.ticks + i))
  else host.checkpointRegion

/-- `DmSwornDiskHandler::ctr`: allocate a segment and place the buffer at its index. -/
def Host.ctr (host : Host X) : Option (Checkpoint X) → Host X
  | none => host
  | some checkpoint =>
    match svtAlloc checkpoint.dataSvt with
    | .error _ => host
    | .ok (dataSegIndex, svt) =>
      { host with
        context := some
          { segment := DataSegment.new (dataSegIndex * segmentSectors)
            checkpoint := { checkpoint with dataSvt := svt }
            memtable := MemTable.new
            dataDev := host.dataDev
            draws := host.draws
            ticks := host.ticks } }

def Host.release (host : Host X) (s : DataPath X) : Host X :=
  { host with context := none, dataDev := s.dataDev, draws := s.draws, ticks := s.ticks }

/-- `DmSwornDiskHandler::dtr`: the context is taken, the data segment flushed, the
memtable converted, and the checkpoint stored if both succeeded. -/
def Host.dtr (kernel : Kernel) (host : Host X) (s : DataPath X) (converted : Except Fault X) :
    Host X :=
  match s.doFlush kernel with
  | (.error _, s) => host.release s
  | (.ok (), s) =>
    match converted with
    | .error _ => host.release s
    | .ok category =>
      { host.release s with
        checkpointRegion := some { s.checkpoint with bitCategory := category } }

def Host.step (kernel : Kernel) (category : X) (host : Host X) : SegmentEvent X → Host X
  | .ctr shouldInit nrIndexSegments =>
    match host.context with
    | some _ => host
    | none => host.ctr (host.ctrCheckpoint kernel category shouldInit nrIndexSegments)
  | .write lba offset data =>
    match host.context with
    | none => host
    | some s => { host with context := some (s.write kernel lba offset data).2 }
  | .flush =>
    match host.context with
    | none => host
    | some s => { host with context := some (s.doFlush kernel).2 }
  | .reindex memtable category =>
    match host.context with
    | none => host
    | some s =>
      { host with
        context := some
          { s with
            memtable := memtable
            checkpoint := { s.checkpoint with bitCategory := category } } }
  | .dtr converted =>
    match host.context with
    | none => host
    | some s => host.dtr kernel s converted

def Host.run (kernel : Kernel) (category : X) (host : Host X) (events : List (SegmentEvent X)) :
    Host X :=
  events.foldl (fun host event => host.step kernel category event) host

/-- The buffered segment lies where the mapping puts the current one, inside the device. -/
def Placed (place : Nat → Nat) (nrSegments : Nat) (s : DataPath X) : Prop :=
  s.segment.hba = place s.checkpoint.currentDataSegment ∧
    s.segment.hba + segmentSectors ≤ nrSegments * segmentSectors

def Flushes (s : DataPath X) : SegmentEvent X → Prop
  | .write lba _ _ => NeedsSegment s lba
  | .flush => True
  | _ => False

/-- A flush does not find the last segment of the device as the first free one. -/
def SparesLast (nrSegments : Nat) (host : Host X) (event : SegmentEvent X) : Prop :=
  ∀ s, host.context = some s → Flushes s event → ∀ index svt,
    svtAlloc s.checkpoint.dataSvt = .ok (index, svt) → index + 1 < nrSegments

/-- A stored checkpoint: the current segment is the last one allocated, and not the first. -/
structure StoredInv (nrSegments : Nat) (checkpoint : Checkpoint X) : Prop where
  allocated : Allocated checkpoint.dataSvt nrSegments (checkpoint.currentDataSegment + 1)
  positive : 0 < checkpoint.currentDataSegment
  dstLength : checkpoint.dst.length = nrSegments
  dstValid : ∀ dst ∈ checkpoint.dst, dst.bvm.Valid ∧ dst.bvm.maxLen = segmentBlockNumber

structure HostInv (nrSegments : Nat) (host : Host X) : Prop where
  segments : host.nrDataSegments = nrSegments
  stored : ∀ checkpoint, host.checkpointRegion = some checkpoint → StoredInv nrSegments checkpoint
  mounted : ∀ s, host.context = some s → PathInv nrSegments s

def Bounded (nrSegments : Nat) (host : Host X) : Prop :=
  ∀ s, host.context = some s → s.segment.hba + segmentSectors ≤ nrSegments * segmentSectors

variable {nrSegments : Nat}

theorem segments_le {i : Nat} (bound : i < nrSegments) :
    i * segmentSectors + segmentSectors ≤ nrSegments * segmentSectors := by
  rw [← Nat.succ_mul]
  exact Nat.mul_le_mul_right _ bound

variable {host : Host X}

/-- A mount of a new or of a stored checkpoint: the first segment of the session is the
next free one, and it is where the mapping puts the current segment. -/
theorem HostInv.ctr (inv : HostInv nrSegments host) (unmounted : host.context = none)
    (kernel : Kernel) (category : X) (shouldInit : Bool) (nrIndexSegments : Nat) :
    let host' := host.ctr (host.ctrCheckpoint kernel category shouldInit nrIndexSegments)
    HostInv nrSegments host' ∧ Bounded nrSegments host' := by
  have idle : Bounded nrSegments host := by
    intro s mounted
    rw [unmounted] at mounted
    cases mounted
  -- what both kinds of checkpoint have in common
  have mount : ∀ (checkpoint : Checkpoint X) (count : Nat),
      Allocated checkpoint.dataSvt nrSegments count →
      checkpoint.currentDataSegment < count + 1 →
      count * segmentSectors = segmentPlace checkpoint.currentDataSegment →
      checkpoint.dst.length = nrSegments →
      (∀ dst ∈ checkpoint.dst, dst.bvm.Valid ∧ dst.bvm.maxLen = segmentBlockNumber) →
      HostInv nrSegments (host.ctr (some checkpoint)) ∧
        Bounded nrSegments (host.ctr (some checkpoint)) := by
    intro checkpoint count allocated below place dstLength dstValid
    cases taken : svtAlloc checkpoint.dataSvt with
    | error err =>
      simp only [Host.ctr, taken]
      exact ⟨inv, idle⟩
    | ok result =>
      obtain ⟨index, svt⟩ := result
      simp only [Host.ctr, taken]
      obtain ⟨rfl, bound, allocated'⟩ := allocated.svtAlloc_ok taken
      refine ⟨⟨inv.segments, inv.stored, ?_⟩, ?_⟩
      · intro s mounted
        obtain rfl := some.inj mounted
        exact ⟨⟨_, allocated', below⟩, dstLength, dstValid, nofun, place⟩
      · intro s mounted
        obtain rfl := some.inj mounted
        exact segments_le bound
  unfold Host.ctrCheckpoint
  cases shouldInit with
  | true =>
    refine mount _ 0 ?_ (Nat.zero_lt_one) (Nat.zero_mul _) ?_ ?_
    · rw [inv.segments]
      exact allocated_new nrSegments
    · change ((range host.nrDataSegments).map _).length = nrSegments
      rw [length_map, length_range, inv.segments]
    · intro dst member
      obtain ⟨i, -, rfl⟩ := mem_map.mp member
      exact ⟨BitMap.valid_new _, rfl⟩
  | false =>
    cases region : host.checkpointRegion with
    | none => exact ⟨inv, idle⟩
    | some checkpoint =>
      have stored := inv.stored checkpoint region
      refine mount checkpoint _ stored.allocated (by omega) ?_ stored.dstLength stored.dstValid
      cases current : checkpoint.currentDataSegment with
      | zero =>
        have positive := stored.positive
        omega
      | succ i => rfl

theorem HostInv.dtr (inv : HostInv nrSegments host) {s : DataPath X} (path : PathInv nrSegments s)
    (kernel : Kernel) (converted : Except Fault X) :
    HostInv nrSegments (host.dtr kernel s converted) ∧
      (host.dtr kernel s converted).context = none := by
  have released : ∀ t : DataPath X, HostInv nrSegments (host.release t) := fun t =>
    ⟨inv.segments, inv.stored, nofun⟩
  unfold Host.dtr
  rcases DataPath.doFlush_cases kernel path.inside with
    ⟨index, svt, taken, ok, checkpoint, -⟩ | ⟨err, -, error, -⟩
  · cases flushed : s.doFlush kernel with
    | mk result t =>
      rw [flushed] at ok checkpoint
      obtain rfl : result = .ok () := ok
      cases converted with
      | error fault => exact ⟨released t, rfl⟩
      | ok category =>
        obtain ⟨count, allocated, below⟩ := path.allocated
        obtain ⟨rfl, bound, allocated'⟩ := allocated.svtAlloc_ok taken
        refine ⟨⟨inv.segments, ?_, nofun⟩, rfl⟩
        intro stored region
        obtain rfl := some.inj region
        simp only at checkpoint
        constructor
        · rw [checkpoint]
          exact allocated'
        · rw [checkpoint]
          exact Nat.lt_of_le_of_lt (Nat.zero_le _) below
        · rw [checkpoint]
          exact path.dstLength
        · rw [checkpoint]
          exact path.dstValid
  · cases flushed : s.doFlush kernel with
    | mk result t =>
      rw [flushed] at error
      obtain rfl : result = .error (.error err) := error
      exact ⟨released t, rfl⟩

theorem PathInv.hba_doFlush {s : DataPath X} (inv : PathInv nrSegments s) (kernel : Kernel) :
    (s.doFlush kernel).2.segment.hba + segmentSectors ≤ nrSegments * segmentSectors ↔
      (∃ index svt, svtAlloc s.checkpoint.dataSvt = .ok (index, svt) ∧ index + 1 < nrSegments) ∨
      (∃ err, svtAlloc s.checkpoint.dataSvt = .error err ∧
        s.segment.hba + segmentSectors ≤ nrSegments * segmentSectors) := by
  have positive : 0 < segmentSectors := by
    rw [segmentSectors_eq]
    decide
  rcases DataPath.doFlush_cases kernel inv.inside with
    ⟨index, svt, taken, -, -, hba, -⟩ | ⟨err, failed, -, -, hba, -⟩
  · rw [hba, taken]
    have multiple : (1 + index) * segmentSectors + segmentSectors =
        (index + 2) * segmentSectors := by
      rw [← Nat.succ_mul]
      congr 1
      omega
    rw [multiple, Nat.mul_le_mul_right_iff positive]
    constructor
    · intro bound
      exact Or.inl ⟨index, svt, rfl, by omega⟩
    · rintro (⟨index', svt', same, bound⟩ | ⟨err, failed, -⟩)
      · obtain ⟨rfl, -⟩ := Prod.mk.inj (Except.ok.inj same)
        omega
      · cases failed
  · rw [hba, failed]
    constructor
    · intro bound
      exact Or.inr ⟨err, rfl, bound⟩
    · rintro (⟨index, svt, taken, -⟩ | ⟨err', -, bound⟩)
      · cases taken
      · exact bound

theorem HostInv.step (inv : HostInv nrSegments host) (kernel : Kernel) (category : X)
    (event : SegmentEvent X) :
    HostInv nrSegments (host.step kernel category event) := by
  cases context : host.context with
  | none =>
    cases event with simp only [Host.step, context]
    | ctr shouldInit nrIndexSegments =>
      exact (inv.ctr context kernel category shouldInit nrIndexSegments).1
    | _ =>
      exact inv
  | some s =>
    have path := inv.mounted s context
    -- a step inside the session keeps the superblock and the stored checkpoint
    have session : ∀ s' : DataPath X, PathInv nrSegments s' →
        HostInv nrSegments { host with context := some s' } := by
      intro s' path'
      refine ⟨inv.segments, inv.stored, ?_⟩
      intro t mounted
      obtain rfl := some.inj mounted
      exact path'
    cases event with simp only [Host.step, context]
    | ctr shouldInit nrIndexSegments =>
      exact inv
    | write lba offset data =>
      refine session _ ?_
      by_cases flushes : NeedsSegment s lba
      · exact (path.write_flushed kernel flushes).inv
      · exact (path.write_unflushed kernel flushes).inv
    | flush =>
      exact session _ (path.doFlush kernel)
    | reindex memtable category' =>
      exact session _
        ⟨path.allocated, path.dstLength, path.dstValid, path.marked, path.placed⟩
    | dtr converted =>
      exact (inv.dtr path kernel converted).1

/-- The buffer stays inside the device over a step exactly if the step spares the last
segment. -/
theorem HostInv.bounded_step (inv : HostInv nrSegments host) (bounded : Bounded nrSegments host)
    (kernel : Kernel) (category : X) (event : SegmentEvent X) :
    Bounded nrSegments (host.step kernel category event) ↔ SparesLast nrSegments host event := by
  cases context : host.context with
  | none =>
    have spares : SparesLast nrSegments host event := by
      intro s mounted
      rw [context] at mounted
      cases mounted
    refine iff_of_true ?_ spares
    cases event with simp only [Host.step, context]
    | ctr shouldInit nrIndexSegments =>
      exact (inv.ctr context kernel category shouldInit nrIndexSegments).2
    | _ =>
      exact bounded
  | some s =>
    have path := inv.mounted s context
    have inside := bounded s context
    -- a state that the event leaves where it was, and one that it flushes
    have still : ∀ s' : DataPath X, ¬ Flushes s event → s'.segment.hba = s.segment.hba →
        (Bounded nrSegments { host with context := some s' } ↔
          SparesLast nrSegments host event) := by
      intro s' unflushed hba
      refine iff_of_true ?_ ?_
      · intro t mounted
        obtain rfl := some.inj mounted
        rw [hba]
        exact inside
      · intro t mounted flushes
        rw [context] at mounted
        obtain rfl := some.inj mounted
        exact absurd flushes unflushed
    have moved : ∀ s' : DataPath X, Flushes s event →
        s'.segment.hba = (s.doFlush kernel).2.segment.hba →
        (Bounded nrSegments { host with context := some s' } ↔
          SparesLast nrSegments host event) := by
      intro s' flushes hba
      have place := path.hba_doFlush kernel
      constructor
      · intro bounded' t mounted _ index svt taken
        rw [context] at mounted
        obtain rfl := some.inj mounted
        have inside' := bounded' s' rfl
        rw [hba, place] at inside'
        rcases inside' with ⟨index', svt', taken', bound⟩ | ⟨err, failed, -⟩
        · rw [taken] at taken'
          obtain ⟨rfl, -⟩ := Prod.mk.inj (Except.ok.inj taken')
          exact bound
        · rw [taken] at failed
          cases failed
      · intro spares t mounted
        obtain rfl := some.inj mounted
        rw [hba, place]
        cases result : svtAlloc s.checkpoint.dataSvt with
        | error err => exact Or.inr ⟨err, rfl, inside⟩
        | ok taken =>
          exact Or.inl ⟨taken.1, taken.2, rfl, spares s context flushes _ _ result⟩
    cases event with simp only [Host.step, context]
    | ctr shouldInit nrIndexSegments =>
      exact iff_of_true bounded fun t _ flushes => absurd flushes id
    | write lba offset data =>
      by_cases flushes : NeedsSegment s lba
      · exact moved _ flushes (path.write_flushed kernel flushes).hba
      · exact still _ flushes (path.write_unflushed kernel flushes).hba
    | flush =>
      exact moved _ trivial rfl
    | reindex memtable category' =>
      exact still _ id rfl
    | dtr converted =>
      refine iff_of_true ?_ ?_
      · intro t mounted
        rw [(inv.dtr path kernel converted).2] at mounted
        cases mounted
      · intro t mounted flushes
        exact absurd flushes id

theorem hostInv_blank (dev : Device) :
    HostInv (superBlockDataSegments dev) (Host.blank dev : Host X) :=
  ⟨rfl, nofun, nofun⟩

section

variable (kernel : Kernel) (category : X)

theorem Host.run_concat (host : Host X) (events : List (SegmentEvent X)) (event : SegmentEvent X) :
    host.run kernel category (events ++ [event]) =
      (host.run kernel category events).step kernel category event := by
  unfold Host.run
  rw [foldl_append]
  rfl

variable (dev : Device) (events : List (SegmentEvent X))

theorem hostInv_run :
    HostInv (superBlockDataSegments dev) ((Host.blank dev).run kernel category events) := by
  induction events using reverseRecOn with
  | nil => exact hostInv_blank dev
  | append_singleton events event ih =>
    rw [Host.run_concat]
    exact ih.step kernel category event

/-- Along a run the buffer stays inside the device exactly if every step spares the last
segment. -/
theorem bounded_along_iff :
    (∀ done rest, events = done ++ rest →
      Bounded (superBlockDataSegments dev) ((Host.blank dev).run kernel category done)) ↔
    ∀ done event rest, events = done ++ event :: rest →
      SparesLast (superBlockDataSegments dev)
        ((Host.blank dev).run kernel category done) event := by
  have invAt := hostInv_run (X := X) kernel category dev
  constructor
  · intro bounded done event rest split
    have after := bounded (done ++ [event]) rest (by simp [split])
    rw [Host.run_concat] at after
    exact ((invAt done).bounded_step (bounded done _ split) kernel category event).mp after
  · intro spares done
    induction done using reverseRecOn with
    | nil =>
      intro rest _ s mounted
      cases mounted
    | append_singleton done event ih =>
      intro rest split
      have split' : events = done ++ event :: rest := by simp [split]
      rw [Host.run_concat]
      exact ((invAt done).bounded_step (ih _ split') kernel category event).mpr
        (spares done event rest split')

end

/-- Along every sequence of mounts, writes, flushes and unmounts, the buffered segment is
at the place of the current segment under one mapping that keeps segments apart, inside
the data segments of the device, with writes marking the entry of that segment, exactly
if no flush of a session takes the last segment of the device. -/
theorem segment_placement_iff (kernel : Kernel) (category : X) (dev : Device)
    (events : List (SegmentEvent X)) :
    (∃ place, Apart place ∧ ∀ done rest, events = done ++ rest →
      ∀ s, ((Host.blank dev).run kernel category done).context = some s →
        Placed place (superBlockDataSegments dev) s ∧
          ∀ lba offset data, OwnEntry s (s.write kernel lba offset data)) ↔
    ∀ done event rest, events = done ++ event :: rest →
      SparesLast (superBlockDataSegments dev)
        ((Host.blank dev).run kernel category done) event := by
  rw [← bounded_along_iff]
  constructor
  · rintro ⟨place, -, along⟩ done rest split s mounted
    exact (along done rest split s mounted).1.2
  · intro bounded
    refine ⟨segmentPlace, apart_segmentPlace, ?_⟩
    intro done rest split s mounted
    have path := (hostInv_run kernel category dev done).mounted s mounted
    refine ⟨⟨path.placed, bounded done rest split s mounted⟩, ?_⟩
    intro lba offset data
    by_cases flushes : NeedsSegment s lba
    · exact (path.write_flushed kernel flushes).own
    · exact (path.write_unflushed kernel flushes).own

def plainKernel : Kernel where
  aead :=
    { encrypt := fun _ _ plain => (plain, Vector.replicate 16 0)
      decrypt := fun _ _ _ cipher => some cipher
      length_encrypt := fun _ _ _ => rfl
      decrypt_encrypt := fun _ _ _ => rfl }
  randomKey := fun _ => Vector.replicate 16 0
  randomNonce := fun _ => Vector.replicate 12 0
  timestamp := id

def twoSegments : Device := ⟨2 * segmentSectors, Memory.zeroed⟩

theorem superBlockDataSegments_twoSegments : superBlockDataSegments twoSegments = 2 := by
  unfold superBlockDataSegments twoSegments
  rw [segmentSectors_eq]
  unfold sectorSize blockSize segmentBlockNumber
  rfl

/-- Whole-block writes to the addresses below `count`. -/
def fillEvents (count : Nat) : List (SegmentEvent Unit) :=
  (List.range count).map fun lba => .write lba 0 (List.replicate blockSize 1)

theorem fillEvents_succ (count : Nat) :
    fillEvents (count + 1) =
      fillEvents count ++ [.write count 0 (replicate blockSize 1)] := by
  unfold fillEvents
  rw [range_succ, map_append]
  rfl

theorem filling_fillEvents (kernel : Kernel) (dev : Device)
    (positive : 0 < superBlockDataSegments dev) {count : Nat} (le : count ≤ segmentBlockNumber) :
    ∃ s, ((Host.blank dev).run kernel () (.ctr true 0 :: fillEvents count)).context = some s ∧
      Filling (superBlockDataSegments dev) count s ∧
      Allocated s.checkpoint.dataSvt (superBlockDataSegments dev) 1 := by
  induction count with
  | zero =>
    have valid := BitMap.valid_new (superBlockDataSegments dev)
    obtain ⟨index, svt, taken⟩ := valid.alloc_of_clear positive (BitMap.bit_new _ 0)
    rw [← svtAlloc_eq] at taken
    obtain ⟨rfl, -, allocated⟩ := (allocated_new (superBlockDataSegments dev)).svtAlloc_ok taken
    have inv := hostInv_run kernel () dev [.ctr true 0]
    have mounted : ∃ s, ((Host.blank dev).run kernel () [.ctr true 0]).context = some s ∧
        s.checkpoint = { Checkpoint.new () (superBlockDataSegments dev) 0
          (fun i => kernel.timestamp (0 + i)) with dataSvt := svt } ∧
        s.segment.lbaIndexMap = OrdMap.empty := by
      change ∃ s, ((Host.blank dev).ctr (some (Checkpoint.new () (superBlockDataSegments dev) 0
        (fun i => kernel.timestamp (0 + i))))).context = some s ∧ _
      have fresh : svtAlloc (Checkpoint.new () (superBlockDataSegments dev) 0
          (fun i => kernel.timestamp (0 + i))).dataSvt = .ok (0, svt) := taken
      simp only [Host.ctr, fresh]
      exact ⟨_, rfl, rfl, rfl⟩
    obtain ⟨s, context, checkpoint, map⟩ := mounted
    refine ⟨s, context, ⟨inv.mounted s context, ?_, ?_⟩, ?_⟩
    · intro lba _
      rw [map]
      rfl
    · rw [checkpoint]
      change ∃ dst, ((range (superBlockDataSegments dev)).map _)[0]? = some dst ∧ _
      rw [getElem?_map, getElem?_range positive]
      exact ⟨_, rfl, Nat.add_zero _⟩
    · rw [checkpoint]
      exact allocated
  | succ count ih =>
    obtain ⟨s, context, filling, allocated⟩ := ih (by omega)
    have fits : (replicate blockSize (1 : UInt8)).length ≤ blockSize := by
      rw [length_replicate]
    obtain ⟨filling', svt⟩ := filling.write (by omega) kernel fits
    refine ⟨_, ?_, filling', ?_⟩
    · rw [fillEvents_succ, ← cons_append, Host.run_concat]
      simp only [Host.step, context]
    · rw [svt]
      exact allocated

/-- One block more than a segment on a device of two segments puts the buffer behind the
end of the device. -/
theorem not_placed_last_segment :
    ¬ ∃ place, Apart place ∧ ∀ done rest,
      SegmentEvent.ctr true 0 :: fillEvents (segmentBlockNumber + 1) = done ++ rest →
        ∀ s, ((Host.blank twoSegments).run plainKernel () done).context = some s →
          Placed place (superBlockDataSegments twoSegments) s ∧
            ∀ lba offset data, OwnEntry s (s.write plainKernel lba offset data) := by
  rintro ⟨place, -, along⟩
  have spares := (bounded_along_iff plainKernel () twoSegments _).mp
    fun done rest split s mounted => (along done rest split s mounted).1.2
  have two := superBlockDataSegments_twoSegments
  obtain ⟨s, context, filling, allocated⟩ := filling_fillEvents plainKernel twoSegments
    (by omega) (Nat.le_refl segmentBlockNumber)
  have split : SegmentEvent.ctr true 0 :: fillEvents (segmentBlockNumber + 1) =
      (.ctr true 0 :: fillEvents segmentBlockNumber) ++
        [.write segmentBlockNumber 0 (List.replicate blockSize 1)] := by
    rw [fillEvents_succ, cons_append]
  rw [two] at allocated
  have free : s.checkpoint.dataSvt.bit 1 = false := by
    rw [allocated.bits 1 (by omega)]
    rfl
  obtain ⟨index, svt, taken⟩ :=
    allocated.valid.alloc_of_clear (by rw [allocated.maxLen]; omega) free
  rw [← svtAlloc_eq] at taken
  obtain ⟨rfl, -, -⟩ := allocated.svtAlloc_ok taken
  have last := spares _ _ [] split s context filling.needsSegment 1 svt taken
  omega

end SwornDisk.Rust
