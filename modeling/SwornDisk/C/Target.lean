import SwornDisk.C.Device

/-!
# Requests, mount and unmount

`segbuf_push_bio`, `segbuf_query_bio` and the prefetcher, the request handlers
`sworndisk_do_read` and `sworndisk_do_write`, and what the constructor and the
destructor of the target do to the state.
-/

namespace SwornDisk.C

open Lib

variable {K I M G : Type}

/-- A bio as `dm_sworndisk_target_map` hands it on: its sectors are inside one
block.  `pages` has one entry for each sector. -/
structure Bio where
  sector : Nat
  pages : List Sector
  nonempty : pages ≠ []
  inBlock : sector % sectorsPerBlock + pages.length ≤ sectorsPerBlock

/-- `bio_get_sector` and `bio_set_sector` pass the sector as an `unsigned int`. -/
def toUnsignedInt (sector : Nat) : Nat := sector % 2 ^ 32

def bioGetBlockAddress (bio : Bio) : Nat := toUnsignedInt bio.sector / sectorsPerBlock

def bioBlockSectorOffset (bio : Bio) : Nat := toUnsignedInt bio.sector % sectorsPerBlock

/-- `bio_get_data`: the pages are copied over the sectors of a block from `offset` on. -/
def bioGetData (pages : List Sector) (offset : Nat) (block : Block) : Block :=
  fun i => if offset ≤ i.val then (pages[i.val - offset]?).getD (block i) else block i

def sectorInBlock (sector : Nat) : Fin 8 := Fin.ofNat 8 sector

@[simp] theorem sectorInBlock_val (sector : Nat) : (sectorInBlock sector).val = sector % 8 :=
  rfl

/-- `bio_set_data`: `count` sectors of a block from `offset` on. -/
def bioSetData (block : Block) (offset count : Nat) : List Sector :=
  (List.range count).map fun i => block (sectorInBlock (offset + i))

section

variable (env : Env K I M G) (s : DmSwornDisk K I M G)

/-- A write inside a block of the segment buffer: the slot is modified and sealed
again under the same key. -/
def modifyInMemBuffer (lba : Nat) (record : Record K I M) (bio : Bio) : DmSwornDisk K I M G :=
  let slot := record.pba - s.segBuffer.curSegment * blocksPerSegment
  let data := bioGetData bio.pages (bioBlockSectorOffset bio) (s.segBuffer.buffer slot)
  let encrypted := env.aead.encrypt record.key record.iv record.pba data
  { s with
    segBuffer := { s.segBuffer with
      buffer := Function.update s.segBuffer.buffer slot data
      pipe := Function.update s.segBuffer.pipe slot encrypted.1 }
    lsmTree := Function.update s.lsmTree (lsmKey lba) (some { record with mac := encrypted.2 }) }

/-- The block under which a partial write of an address that is not in the buffer
starts: the current version, or what the slot holds if there is none. -/
def underlyingBlock (found : Option (Record K I M)) : Block :=
  match found with
  | none => s.segBuffer.buffer (curBlock s)
  | some record =>
    let cipher := sworndiskReadBlock s record.pba
    (env.aead.decrypt record.key record.iv record.mac record.pba cipher).getD
      (env.rawBytes cipher)

/-- `fill_buffer` of `segbuf_push_bio`: the pages over `block`, in the current slot. -/
def fillBuffer (bio : Bio) (block : Block) : Option (DmSwornDisk K I M G) :=
  let data := bioGetData bio.pages (bioBlockSectorOffset bio) block
  let s := { s with segBuffer := { s.segBuffer with
    buffer := Function.update s.segBuffer.buffer (curBlock s) data } }
  segbufPushBlock env (saForegroundGc env) s (bioGetBlockAddress bio) data

def segbufPushBio (bio : Bio) : Option (DmSwornDisk K I M G) :=
  if sectorsPerBlock ≤ bio.pages.length then
    fillBuffer env s bio (s.segBuffer.buffer (curBlock s))
  else
    let found := lsmSearch s (bioGetBlockAddress bio)
    match found with
    | some record =>
      if inSegmentBuffer s record.pba then
        some (modifyInMemBuffer env s (bioGetBlockAddress bio) record bio)
      else fillBuffer env s bio (underlyingBlock env s found)
    | none => fillBuffer env s bio (underlyingBlock env s found)

end

def bioPrefetcherClear (s : DmSwornDisk K I M G) : DmSwornDisk K I M G :=
  { s with prefetcher := { s.prefetcher with first := 0, last := 0 } }

def sworndiskDoWrite (env : Env K I M G) (s : DmSwornDisk K I M G) (bio : Bio) :
    Option (DmSwornDisk K I M G) :=
  (segbufPushBio env s bio).map bioPrefetcherClear

/-- `segbuf_query_bio` for `count` sectors from `sector` on: they are copied from the
plaintext buffer if all of them are in its filled part. -/
def segbufQueryBio (s : DmSwornDisk K I M G) (sector count : Nat) : Option (List Sector) :=
  let first := s.segBuffer.curSegment * sectorsPerSegment
  let last := first + s.segBuffer.curSector
  if sector < first ∨ last < sector + count then none
  else
    some ((List.range count).map fun i =>
      s.segBuffer.buffer ((sector - first + i) / sectorsPerBlock)
        (sectorInBlock (sector - first + i)))

def minNrFetch : Nat := 1

def maxNrFetch : Nat := 64

/-- Subtraction of `size_t`. -/
def sizeSub (left right : Nat) : Nat := (left + 2 ^ 64 - right) % 2 ^ 64

/-- `bio_prefetcher_get`: the block from the prefetched range, which a miss replaces. -/
def bioPrefetcherGet (s : DmSwornDisk K I M G) (blkaddr : Nat) : G × DmSwornDisk K I M G :=
  let this := s.prefetcher
  let this :=
    if this.first ≤ blkaddr ∧ blkaddr < this.last then
      { this with
        nrFetch :=
          if this.nrFetch / 2 ≤ blkaddr - this.first then min (this.nrFetch * 2) maxNrFetch
          else this.nrFetch
        lastBlkaddr := blkaddr }
    else
      let remainBlock := sizeSub (s.nrSegment * blocksPerSegment) blkaddr
      let fetched := min this.nrFetch remainBlock
      { this with
        buffer := fun i =>
          if i < fetched then sworndiskReadBlock s (blkaddr + i) else this.buffer i
        last := blkaddr + fetched
        nrFetch :=
          if sizeSub this.lastBlkaddr this.first < this.nrFetch / 4 * 3 then
            max (this.nrFetch / 2) (minNrFetch + 1)
          else this.nrFetch
        first := blkaddr }
  (this.buffer (blkaddr - this.first), { s with prefetcher := this })

/-- `bi_status` of a completed bio. -/
inductive BlkStatus where
  | ok
  | ioerr
  deriving DecidableEq, Repr

structure BioResult where
  pages : List Sector
  status : BlkStatus

/-- `sworndisk_do_read`.  No exit assigns `bi_status`, so it keeps its initial value;
the pages of the bio are only written by `bio_set_data`. -/
def sworndiskDoRead (env : Env K I M G) (s : DmSwornDisk K I M G) (bio : Bio) :
    BioResult × DmSwornDisk K I M G :=
  match lsmSearch s (bioGetBlockAddress bio) with
  | none => (⟨bio.pages, .ok⟩, s)
  | some record =>
    let sector := toUnsignedInt (record.pba * sectorsPerBlock + bioBlockSectorOffset bio)
    match segbufQueryBio s sector bio.pages.length with
    | some pages => (⟨pages, .ok⟩, s)
    | none =>
      let fetched := bioPrefetcherGet s record.pba
      match env.aead.decrypt record.key record.iv record.mac record.pba fetched.1 with
      | some block =>
        (⟨bioSetData block (sector % sectorsPerBlock) bio.pages.length, .ok⟩, fetched.2)
      | none => (⟨bio.pages, .ok⟩, fetched.2)

/-- The scan of a victim while the constructor allocates the first segment: the
segment buffer does not exist yet, so reading a valid block dereferences null. -/
def mountScanVictim (victim : Victim) (s : DmSwornDisk K I M G) :
    Option (DmSwornDisk K I M G) :=
  if victim.nrValidBlock ≠ 0 then
    if validOffsets victim = [] then some s else none
  else some s

/-- The foreground collection while the constructor allocates the first segment. -/
def mountForegroundGc (env : Env K I M G) (s : DmSwornDisk K I M G) :
    Option (DmSwornDisk K I M G) :=
  let s := { s with segAllocator := { s.segAllocator with status := .cleaning } }
  (gcLoop mountScanVictim env.gcFuel 0 s).map fun s =>
    { s with segAllocator := { s.segAllocator with status := .allocating } }

/-- `dm_sworndisk_target_ctr` over the persistent part of a state: the tables are
loaded, the valid segments counted and the segment buffer gets its first segment.  The tree that
`lsm_tree_init` reloads is part of the given state. -/
def mount (env : Env K I M G) (s : DmSwornDisk K I M G) : Option (DmSwornDisk K I M G) :=
  let validator := segValidatorInit s.segValidator
  let s : DmSwornDisk K I M G :=
    { s with
      segValidator := validator
      dst := dstInit s.nrSegment s.dst.array
      segAllocator := ⟨segValidatorValidSegmentCount validator, .allocating⟩
      segBuffer := ⟨fun i => env.rawBytes (env.allocated i), env.allocated, 0, 0⟩
      prefetcher := ⟨env.allocated, 0, 0, 0, minNrFetch + 1⟩ }
  match saAlloc (mountForegroundGc env) s with
  | some (.ok (), s) => some { s with segBuffer := { s.segBuffer with curSector := 0 } }
  | _ => none

/-- `segbuf_destroy` at the end of a session, without what `lsm_tree_destroy` writes. -/
def unmount (s : DmSwornDisk K I M G) : DmSwornDisk K I M G :=
  segbufFlushBios s

/-- A formatted device: no valid segment, no valid block, an empty tree. -/
def format (nrSegment : Nat) (dataDev : Nat → G) : DmSwornDisk K I M G where
  nrSegment := nrSegment
  dataDev := dataDev
  segValidator := segValidatorFormat nrSegment
  rit := fun _ => 0
  dst := dstInit nrSegment fun _ => ⟨0, fun _ => false⟩
  lsmTree := fun _ => none
  segAllocator := ⟨0, .allocating⟩
  segBuffer := ⟨fun _ _ _ => 0, dataDev, 0, 0⟩
  prefetcher := ⟨dataDev, 0, 0, 0, 0⟩
  nrRecord := 0

end SwornDisk.C
