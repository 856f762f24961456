import SwornDisk.Rust.BitBlocks
import SwornDisk.Rust.CheckpointFormat
import SwornDisk.Rust.LruCache

/-!
# Index segment and block reads

`IndexSegment::write` encrypts a block and writes it at a cursor that only advances.
`BIT::read_block` looks a block up in the cache of its type by its sector address, and
reads and decrypts it only on a miss; `BIT::read_block_directly` does without the cache.
-/

namespace SwornDisk.Rust

open Lib

/-- A call of `IndexSegment::write`: the cursor, the device, and how many blocks the session
has written before. -/
structure IndexCall where
  hba : Nat
  metaDev : Device
  earlier : Nat

/-- What the block index tables work on: the meta device, the cursor of the index segment,
the random numbers and the two caches.  The history of `IndexSegment::write` is kept
beside them: `calls` has the calls, `written` each record that
was returned, with the block it stands for. -/
structure IndexStore where
  metaDev : Device
  hba : Nat
  draws : Nat
  indirectBlockCache : LruCache IndirectBlock
  leafBlockCache : LruCache LeafBlock
  calls : List IndexCall
  written : List (Record × List UInt8)

def IndexStore.call (s : IndexStore) : IndexCall := ⟨s.hba, s.metaDev, s.written.length⟩

def lruCacheMaxSize : Nat := 4096

/-- The store of a new session; the cursor starts at `SEGMENT_SECTORS`. -/
def IndexStore.mount (metaDev : Device) (draws : Nat) : IndexStore where
  metaDev := metaDev
  hba := segmentSectors
  draws := draws
  indirectBlockCache := LruCache.new lruCacheMaxSize
  leafBlockCache := LruCache.new lruCacheMaxSize
  calls := []
  written := []

abbrev IndexProgram (α : Type) : Type := Program Fault IndexStore α

/-- `IndexSegment::write` of a whole block.  The cursor is a `u64`. -/
def IndexSegment.write (kernel : Kernel) (data : List UInt8) : IndexProgram Record := do
  if data.length < blockSize then
    throw .panic
  let s ← get
  let key := kernel.randomKey s.draws
  let nonce := kernel.randomNonce s.draws
  let sealed := kernel.aead.encrypt key nonce (data.take blockSize)
  let record : Record := ⟨s.hba, key, nonce, sealed.2⟩
  let metaDev := s.metaDev.writeSectors s.hba blockSectors (Memory.zeroed.write 0 sealed.1)
  if IsWord (s.hba + blockSectors) then
    set { s with
      metaDev := metaDev
      hba := s.hba + blockSectors
      draws := s.draws + 1
      calls := s.calls ++ [s.call]
      written := s.written ++ [(record, data.take blockSize)] }
    return record
  else
    set { s with
      metaDev := metaDev
      draws := s.draws + 1
      calls := s.calls ++ [s.call] }
    throw .panic

/-- `BIT` -/
structure Bit extends BitInfo where
  root : IndirectBlock

def Bit.writebackBlock {T : Type} [BlockFormat T] (kernel : Kernel) (block : T) :
    IndexProgram Record := do
  let buf ← Program.ofExcept (BlockFormat.serialize block)
  IndexSegment.write kernel buf

def Bit.readBlockDirectly {T : Type} [BlockFormat T] (kernel : Kernel) (metaDev : Device)
    (record : Record) : Except Fault T := do
  let block ← openRecord kernel metaDev record
  BlockFormat.deserialize block

class CachedBlock (T : Type) extends BlockFormat T where
  cache : IndexStore → LruCache T
  setCache : IndexStore → LruCache T → IndexStore

instance : CachedBlock IndirectBlock where
  cache s := s.indirectBlockCache
  setCache s cache := { s with indirectBlockCache := cache }

instance : CachedBlock LeafBlock where
  cache s := s.leafBlockCache
  setCache s cache := { s with leafBlockCache := cache }

/-- The miss path of `BIT::read_block`: read the block and cache it. -/
def Bit.fillCache {T : Type} [CachedBlock T] (kernel : Kernel) (record : Record) :
    IndexProgram T := do
  let s ← get
  let result ← Program.ofExcept (Bit.readBlockDirectly kernel s.metaDev record)
  let (_, cache) ← Program.ofExcept ((CachedBlock.cache s).put record.hba result)
  set (CachedBlock.setCache s cache)
  return result

def Bit.readBlock {T : Type} [CachedBlock T] (kernel : Kernel) (record : Record) :
    IndexProgram T := do
  let s ← get
  let (hit, cache) := (CachedBlock.cache s).get record.hba
  set (CachedBlock.setCache s cache)
  match hit with
  | some block => return block
  | none => Bit.fillCache kernel record

def BitRootMeta.readFromDisk (kernel : Kernel) (rootMeta : BitRootMeta BitInfo) :
    IndexProgram Bit := do
  let root ← Bit.readBlock kernel rootMeta.bit.record.record
  return ⟨rootMeta.bit, root⟩

end SwornDisk.Rust
