import SwornDisk.C.Dst
import SwornDisk.Lib.Aead

/-!
# Data path of the C implementation

The state of a mapped device and the functions of `segment_buffer.c`,
`segment_allocator.c` and `dm-sworndisk.c` that write to it: the segment buffer,
segment allocation, foreground garbage collection and threaded logging.  The LSM
tree is a map from keys to records.  Where a loop may run on, its model takes fuel
and the result is an option; `none` is also a dereferenced null pointer.
-/

namespace SwornDisk.C

open Lib

def sectorsPerBlock : Nat := 8

def sectorsPerSegment : Nat := 8192

abbrev Sector := Fin 512 → UInt8

abbrev Block := Fin 8 → Sector

/-- `struct record`: where the latest version of a block lies and how it is sealed. -/
structure Record (K I M : Type) where
  pba : Nat
  mac : M
  key : K
  iv : I

/-- `enum segment_allocator_status`. -/
inductive AllocatorStatus where
  | allocating
  | cleaning
  deriving DecidableEq, Repr

/-- `struct default_segment_buffer`: `buffer` holds plaintext, `pipe` ciphertext,
both by block. -/
structure SegmentBuffer (G : Type) where
  buffer : Nat → Block
  pipe : Nat → G
  curSegment : Nat
  curSector : Nat

/-- `struct default_segment_allocator`. -/
structure SegmentAllocator where
  nrValidSegment : Nat
  status : AllocatorStatus

/-- `struct bio_prefetcher`. -/
structure BioPrefetcher (G : Type) where
  buffer : Nat → G
  first : Nat
  last : Nat
  lastBlkaddr : Nat
  nrFetch : Nat

/-- `struct dm_sworndisk` with the metadata it points to.  `nrRecord` counts the
records created so far, each of which drew a fresh key. -/
structure DmSwornDisk (K I M G : Type) where
  nrSegment : Nat
  dataDev : Nat → G
  segValidator : SegValidator
  rit : Nat → Nat
  dst : Dst
  lsmTree : Nat → Option (Record K I M)
  segAllocator : SegmentAllocator
  segBuffer : SegmentBuffer G
  prefetcher : BioPrefetcher G
  nrRecord : Nat

/-- What the code takes from outside: the cipher, the keys and vectors that
`record_create` draws, the bytes of a ciphertext, the contents of allocated memory
and of a record variable before they are assigned, and a bound on the victims of
one collection. -/
structure Env (K I M G : Type) where
  aead : IdealAead K I M Block G
  random : Nat → K × I
  rawBytes : G → Block
  allocated : Nat → G
  unassigned : Record K I M
  gcFuel : Nat

variable {K I M G : Type}

section

variable (s : DmSwornDisk K I M G)

def curBlock : Nat :=
  s.segBuffer.curSector / sectorsPerBlock

/-- Whether a block address lies in the filled part of the segment buffer. -/
def inSegmentBuffer (pba : Nat) : Bool :=
  s.segBuffer.curSegment * blocksPerSegment ≤ pba &&
    pba < s.segBuffer.curSegment * blocksPerSegment + curBlock s

def segbufQueryEncryptedBlock (blkaddr : Nat) : Option G :=
  let first := s.segBuffer.curSegment * blocksPerSegment
  let last := first + curBlock s
  if blkaddr < first ∨ last ≤ blkaddr then none
  else some (s.segBuffer.pipe (blkaddr - first))

/-- One block of `sworndisk_read_blocks`: the device, overlaid by the buffer. -/
def sworndiskReadBlock (blkaddr : Nat) : G :=
  (segbufQueryEncryptedBlock s blkaddr).getD (s.dataDev blkaddr)

end

def lsmKey (lba : Nat) : Nat := lba % 2 ^ 32

/-- `lsm_tree->search`. -/
def lsmSearch (s : DmSwornDisk K I M G) (lba : Nat) : Option (Record K I M) :=
  s.lsmTree (lsmKey lba)

/-- `GC_THREADHOLD`, in the arithmetic of `size_t`. -/
def gcThreshold (nrSegment : Nat) : Nat := (nrSegment + (2 ^ 64 - 16)) % 2 ^ 64

/-- `GC_THREADHOLD - THREAD_LOGGING_AHEAD`. -/
def threadedThreshold (nrSegment : Nat) : Nat := (gcThreshold nrSegment + (2 ^ 64 - 1)) % 2 ^ 64

def sworndiskShouldThreadedLogging (s : DmSwornDisk K I M G) : Bool :=
  if s.segAllocator.nrValidSegment < threadedThreshold s.nrSegment then false
  else shouldThreadedLogging s.dst

/-- `find_first_zero_bit` over the bitmap of a segment. -/
def findFirstZeroBit (table : Nat → Bool) : Nat :=
  (firstClear table 0 blocksPerSegment).getD blocksPerSegment

def ignoreError (d : Dst) : Except Errno Dst → Dst
  | .ok updated => updated
  | .error _ => d

/-- `next_block`.  The victim of threaded logging is the emptiest one after the old
block was returned; there is one, the returned block's segment if no other. -/
def nextBlock (s : DmSwornDisk K I M G) (threadedLogging : Bool) :
    Nat × DmSwornDisk K I M G :=
  if threadedLogging then
    match dstPeekVictim s.dst with
    | none => (0, s)
    | some victim =>
      let offset := findFirstZeroBit victim.blockValidityTable
      let blkaddr := victim.segno * blocksPerSegment + offset
      (blkaddr, { s with dst := ignoreError s.dst (dstTakeBlock s.dst blkaddr) })
  else
    ((s.segBuffer.curSegment * sectorsPerSegment + s.segBuffer.curSector) / sectorsPerBlock, s)

/-- First part of `segbuf_push_block`: the old block of the address is returned. -/
def returnOld (s : DmSwornDisk K I M G) (lba : Nat) : DmSwornDisk K I M G :=
  match lsmSearch s lba with
  | some pre => { s with dst := ignoreError s.dst (dstReturnBlock s.dst pre.pba) }
  | none => s

/-- `record_create` and the tag that the encryption of `data` adds to the record. -/
def newRecord (env : Env K I M G) (s : DmSwornDisk K I M G) (pba : Nat) (data : Block) :
    Record K I M where
  pba := pba
  mac := (env.aead.encrypt (env.random s.nrRecord).1 (env.random s.nrRecord).2 pba data).2
  key := (env.random s.nrRecord).1
  iv := (env.random s.nrRecord).2

/-- Middle part of `segbuf_push_block`: a record with a fresh key seals the block at
`pba`; the block is left in the current slot of `buffer`, its ciphertext in that of
`pipe`, and record and reverse index are stored. -/
def sealBlock (env : Env K I M G) (s : DmSwornDisk K I M G) (lba pba : Nat) (data : Block) :
    DmSwornDisk K I M G :=
  let record := newRecord env s pba data
  { s with
    nrRecord := s.nrRecord + 1
    segBuffer := { s.segBuffer with
      buffer := Function.update s.segBuffer.buffer (curBlock s) data
      pipe := Function.update s.segBuffer.pipe (curBlock s)
        (env.aead.encrypt record.key record.iv pba data).1 }
    lsmTree := Function.update s.lsmTree (lsmKey lba) (some record)
    rit := Function.update s.rit pba lba }

/-- `segbuf_flush_bios`: the whole pipe goes to the current segment. -/
def segbufFlushBios (s : DmSwornDisk K I M G) : DmSwornDisk K I M G :=
  { s with
    dataDev := fun blkaddr =>
      if blockToSegment blkaddr = s.segBuffer.curSegment then
        s.segBuffer.pipe (blockOffsetWithinSegment blkaddr)
      else s.dataDev blkaddr }

def saWillTriggerGc (s : DmSwornDisk K I M G) : Bool :=
  gcThreshold s.nrSegment < s.segAllocator.nrValidSegment

/-- What a call finds outside the tables: whether the bit of a segment is read in the first and in
the second pass of the scan, whether a bit is stored, and what the data segment table finds. -/
structure SaIo where
  svtReads : Bool → Nat → Bool
  svtStores : Bool
  dst : DstIo

def SaIo.quiet : SaIo := ⟨fun _ _ => true, true, .quiet⟩

/-- What `sa_alloc` changes: the tables, the count and `*seg`. -/
structure SaTables where
  segValidator : SegValidator
  nrValidSegment : Nat
  dst : Dst
  seg : Nat

def scanNext (io : SaIo) (v : SegValidator) : Except Errno Nat × SegValidator :=
  segValidatorScan v io.svtReads

/-- `seg_validator_take`. -/
def takeBit (io : SaIo) (v : SegValidator) (seg : Nat) : Except Errno SegValidator :=
  if io.svtStores then segValidatorTake v seg else .error .eio

/-- `sa_alloc` up to the collection. -/
def saAllocTables (io : SaIo) (s : SaTables) : Except Errno Unit × SaTables :=
  let next := scanNext io s.segValidator
  let s := { s with segValidator := next.2 }
  match next.1 with
  | .error err => (.error err, s)
  | .ok seg =>
    let s := { s with seg := seg }
    match takeBit io s.segValidator seg with
    | .error err => (.error err, s)
    | .ok taken =>
      let s := { s with
        segValidator := taken
        nrValidSegment := s.nrValidSegment + 1 }
      let took := Dst.takeSegment io.dst s.dst seg
      (took.1, { s with dst := took.2 })

namespace DmSwornDisk

/-- The tables of the target; `*seg` is the segment of the buffer. -/
def saTables (s : DmSwornDisk K I M G) : SaTables :=
  ⟨s.segValidator, s.segAllocator.nrValidSegment, s.dst, s.segBuffer.curSegment⟩

def withSaTables (s : DmSwornDisk K I M G) (t : SaTables) : DmSwornDisk K I M G :=
  { s with
    segValidator := t.segValidator
    segAllocator := { s.segAllocator with nrValidSegment := t.nrValidSegment }
    dst := t.dst
    segBuffer := { s.segBuffer with curSegment := t.seg } }

end DmSwornDisk

section

variable (gc : DmSwornDisk K I M G → Option (DmSwornDisk K I M G)) (s : DmSwornDisk K I M G)

/-- `sa_alloc` for the segment buffer, whose `cur_segment` receives the segment as
soon as the scan finds one.  `gc` is the foreground collection. -/
def saAlloc : Option (Except Errno Unit × DmSwornDisk K I M G) :=
  match saAllocTables .quiet s.saTables with
  | (.error err, t) => some (.error err, s.withSaTables t)
  | (.ok (), t) =>
    let s := s.withSaTables t
    if saWillTriggerGc s && s.segAllocator.status != .cleaning then
      (gc s).map fun s => (.ok (), s)
    else some (.ok (), s)

theorem saAlloc_steps :
    saAlloc gc s =
      let next := segValidatorNext s.segValidator
      let s := { s with segValidator := next.2 }
      match next.1 with
      | .error err => some (.error err, s)
      | .ok seg =>
        let s := { s with segBuffer := { s.segBuffer with curSegment := seg } }
        match segValidatorTake s.segValidator seg with
        | .error err => some (.error err, s)
        | .ok taken =>
          let s := { s with
            segValidator := taken
            segAllocator := { s.segAllocator with
              nrValidSegment := s.segAllocator.nrValidSegment + 1 } }
          match dstTakeSegment s.dst seg with
          | .error err => some (.error err, s)
          | .ok dst =>
            let s := { s with dst := dst }
            if saWillTriggerGc s && s.segAllocator.status != .cleaning then
              (gc s).map fun s => (.ok (), s)
            else some (.ok (), s) := by
  have scan : scanNext .quiet s.segValidator = segValidatorNext s.segValidator := rfl
  have stores : SaIo.quiet.svtStores = true := rfl
  simp only [saAlloc, saAllocTables, DmSwornDisk.saTables, scan, takeBit, stores, if_true]
  cases (segValidatorNext s.segValidator).1 with
  | error err => rfl
  | ok seg =>
    simp only
    cases segValidatorTake (segValidatorNext s.segValidator).2 seg with
    | error err => rfl
    | ok taken =>
      simp only [dstTakeSegment, show SaIo.quiet.dst = .quiet from rfl]
      rcases took : Dst.takeSegment .quiet s.dst seg with ⟨_ | _, dst⟩
      · rw [show dst = s.dst from Dst.takeSegment_error took]
        rfl
      · rfl

/-- Last part of `segbuf_push_block` without threaded logging: the slot is used up;
a full buffer is flushed and moves to a new segment, or, if there is none, starts
over in the same one. -/
def advanceBuffer : Option (DmSwornDisk K I M G) :=
  let s := { s with segBuffer := { s.segBuffer with
    curSector := s.segBuffer.curSector + sectorsPerBlock } }
  if sectorsPerSegment ≤ s.segBuffer.curSector then
    let s := segbufFlushBios s
    let s := { s with segBuffer := { s.segBuffer with curSector := 0 } }
    (saAlloc gc s).map Prod.snd
  else some s

end

def segbufPushBlock (env : Env K I M G)
    (gc : DmSwornDisk K I M G → Option (DmSwornDisk K I M G))
    (s : DmSwornDisk K I M G) (lba : Nat) (data : Block) : Option (DmSwornDisk K I M G) :=
  let threadedLogging := sworndiskShouldThreadedLogging s
  let next := nextBlock (returnOld s lba) threadedLogging
  let s := sealBlock env next.2 lba next.1 data
  if threadedLogging then
    some { s with dataDev := Function.update s.dataDev next.1 (s.segBuffer.pipe (curBlock s)) }
  else advanceBuffer gc s

/-- The valid offsets of the victim's bitmap in ascending order, as `find_first_bit`
and `find_next_bit` yield them. -/
def validOffsets (victim : Victim) : List Nat :=
  (List.range blocksPerSegment).filter victim.blockValidityTable

/-- `find_next_zero_bit` over the bitmap of a segment. -/
def findNextZeroBit (table : Nat → Bool) (start : Nat) : Nat :=
  (firstClear table start (blocksPerSegment - start)).getD blocksPerSegment

/-- Local variables of the scan of one victim: the blocks read ahead and the run
of valid blocks they cover. -/
structure GcScan (K I M G : Type) where
  state : DmSwornDisk K I M G
  buffer : Nat → G
  regionBegin : Nat
  regionEnd : Nat

/-- Reading ahead the run of valid blocks that starts at `offset`. -/
def gcReadRegion (victim : Victim) (scan : GcScan K I M G) (offset : Nat) : GcScan K I M G :=
  if scan.regionBegin ≤ offset ∧ offset < scan.regionEnd then scan
  else
    let regionEnd := findNextZeroBit victim.blockValidityTable offset
    { scan with
      regionBegin := offset
      regionEnd := regionEnd
      buffer := fun i =>
        if offset ≤ i ∧ i < regionEnd then
          sworndiskReadBlock scan.state (victim.segno * blocksPerSegment + i)
        else scan.buffer i }

/-- One block of a victim: its owner's record decides whether it opens, and an
opened block is pushed again. -/
def gcBlock (env : Env K I M G) (victim : Victim) (scan : GcScan K I M G) (offset : Nat) :
    Option (GcScan K I M G) :=
  let scan := gcReadRegion victim scan offset
  let pba := victim.segno * blocksPerSegment + offset
  let lba := scan.state.rit pba
  let record := (lsmSearch scan.state lba).getD env.unassigned
  match env.aead.decrypt record.key record.iv record.mac record.pba (scan.buffer offset) with
  | none => some scan
  -- A collection never nests: the status is `SEGMENT_CLEANING`.
  | some plaintext =>
    (segbufPushBlock env (fun _ => none) scan.state lba plaintext).map fun s =>
      { scan with state := s }

/-- The scan of one victim in `sa_foreground_gc`. -/
def gcScanVictim (env : Env K I M G) (victim : Victim) (s : DmSwornDisk K I M G) :
    Option (DmSwornDisk K I M G) :=
  if victim.nrValidBlock ≠ 0 then
    ((validOffsets victim).foldlM (gcBlock env victim)
      ⟨s, env.allocated, 0, 0⟩).map GcScan.state
  else some s

/-- The end of an iteration of `sa_foreground_gc`: the victim's segment is freed, and
the victim leaves the tree.  Returns the updated `clean`. -/
def gcReclaim (victim : Victim) (clean : Nat) (s : DmSwornDisk K I M G) :
    Nat × DmSwornDisk K I M G :=
  match segValidatorTestAndReturn s.segValidator victim.segno with
  | .error _ => (clean, { s with dst := dstRemoveVictim s.dst victim.segno })
  | .ok (true, returned) =>
    (clean + (blocksPerSegment - victim.nrValidBlock),
      { s with
        segValidator := returned
        segAllocator := { s.segAllocator with
          nrValidSegment := s.segAllocator.nrValidSegment - 1 }
        dst := dstRemoveVictim s.dst victim.segno })
  | .ok (false, returned) =>
    (clean, { s with
      segValidator := returned
      dst := dstRemoveVictim s.dst victim.segno })

/-- `LEAST_CLEAN_SEGMENT_ONCE * BLOCKS_PER_SEGMENT`. -/
def gcTarget : Nat := blocksPerSegment

/-- The loop of `sa_foreground_gc` over a scan of victims. -/
def gcLoop (scanVictim : Victim → DmSwornDisk K I M G → Option (DmSwornDisk K I M G)) :
    Nat → Nat → DmSwornDisk K I M G → Option (DmSwornDisk K I M G)
  | fuel, clean, s =>
    match dstPeekVictim s.dst with
    | none => some s
    | some victim =>
      if clean < gcTarget then
        match fuel with
        | 0 => none
        | fuel + 1 =>
          (scanVictim victim s).bind fun s =>
            gcLoop scanVictim fuel (gcReclaim victim clean s).1 (gcReclaim victim clean s).2
      else some s

def saForegroundGc (env : Env K I M G) (s : DmSwornDisk K I M G) :
    Option (DmSwornDisk K I M G) :=
  let s := { s with segAllocator := { s.segAllocator with status := .cleaning } }
  (gcLoop (gcScanVictim env) env.gcFuel 0 s).map fun s =>
    { s with segAllocator := { s.segAllocator with status := .allocating } }

end SwornDisk.C
