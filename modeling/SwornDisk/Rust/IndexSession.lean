import SwornDisk.Rust.BlockCache
import SwornDisk.Rust.SegmentPlacement

/-!
# A session of the index

The threads that use the block index tables: the writer that converts a memtable, the
compaction worker, and the readers.  Constructions run under the write lock.  Readers
share the read lock, so the parts of their block reads may interleave.
-/

namespace SwornDisk.Rust

open Lib List Function Program Option

variable {category : BitCategory BitInfo} {kernel : Kernel}

structure IndexSession where
  store : IndexStore
  category : BitCategory BitInfo

namespace IndexSession

/-- `ctr` on a freshly formatted device. -/
def mount (metaDev : Device) (draws : Nat) : IndexSession where
  store := IndexStore.mount metaDev draws
  category := BitCategory.new

/-- Minor compaction: convert the memtable and add the table at level 0. -/
def convert (kernel : Kernel) (memtable : MemTable Record) (room : Bool) (x : IndexSession) :
    IndexSession :=
  match (Bit.fromMemtable kernel memtable).exec x.store with
  | (.ok bit, store) => ⟨store, (x.category.addBit bit.toBitInfo 0 room).2⟩
  | (.error _, store) => ⟨store, x.category⟩

/-- Read the roots of a level and merge them, for `fuel` rounds. -/
def mergeLevel (kernel : Kernel) (fuel : Nat) (tables : List (BitRootMeta BitInfo)) :
    IndexProgram (Option Bit) := do
  let bits ← readRoots kernel tables
  Bit.fromCompaction kernel fuel bits

/-- The end of a level iteration: add the merged table, then release the old ones. -/
def replaceLevel (category : BitCategory BitInfo) (level : Nat) (bit : BitInfo) (room : Bool) :
    BitCategory BitInfo :=
  match category.addBit bit (level + 1) room with
  | (.ok (), added) =>
    (added.releaseAll level ((category.category level).map BitRootMeta.uniqueId)).2
  | (.error _, added) => added

/-- A level iteration of `CompactionWorker::work`. -/
def compact (kernel : Kernel) (level fuel : Nat) (room : Bool) (x : IndexSession) : IndexSession :=
  if maxCompactionNumber ≤ x.category.levelSize level then
    match (mergeLevel kernel fuel (x.category.category level)).exec x.store with
    | (.ok (some bit), store) => ⟨store, replaceLevel x.category level bit.toBitInfo room⟩
    | (_, store) => ⟨store, x.category⟩
  else x

/-- The index lookup of `handle_read_request`. -/
def lookup (kernel : Kernel) (lba : Nat) (x : IndexSession) : IndexSession :=
  { x with store := ((findInCategory kernel x.category lba).exec x.store).2 }

end IndexSession

def BitCategory.Lists (category : BitCategory BitInfo) (held : BitRootMeta BitInfo) : Prop :=
  ∃ level, held ∈ category.category level

/-- The records reachable from some tables on a device, with the height of the tree below. -/
inductive Reaches (kernel : Kernel) (metaDev : Device) (tables : BitRootMeta BitInfo → Prop) :
    Nat → Record → Prop
  | root {held : BitRootMeta BitInfo} (listed : tables held) :
      Reaches kernel metaDev tables (held.bit.level - 1) held.bit.record.record
  | child {height : Nat} {record : Record} {block : IndirectBlock} {i : Nat}
      {child : IndirectRecord}
      (parent : Reaches kernel metaDev tables (height + 1) record)
      (direct : Bit.readBlockDirectly kernel metaDev record = .ok block)
      (within : i < block.count) (here : block.children[i]? = some child) :
      Reaches kernel metaDev tables height child.record

def IndexSession.Reaches (kernel : Kernel) (x : IndexSession) : Nat → Record → Prop :=
  Rust.Reaches kernel x.store.metaDev x.category.Lists

/-- A step of one of the threads.  `touch` and `fill` are the two parts of a block read
of a reader that others may come between. -/
inductive IndexStep (kernel : Kernel) (x : IndexSession) : IndexSession → Prop
  | convert (memtable : MemTable Record) (room : Bool) :
      IndexStep kernel x (x.convert kernel memtable room)
  | compact (level fuel : Nat) (room : Bool) (inside : level + 1 < lsmTreeMaxLevel) :
      IndexStep kernel x (x.compact kernel level fuel room)
  | release {level uniqueId : Nat} {category : BitCategory BitInfo}
      (released : x.category.releaseBit level uniqueId = .ok category) :
      IndexStep kernel x { x with category := category }
  | lookup (lba : Nat) : IndexStep kernel x (x.lookup kernel lba)
  | touchIndirect (hba : Nat) :
      IndexStep kernel x { x with store :=
        { x.store with indirectBlockCache := (x.store.indirectBlockCache.get hba).2 } }
  | touchLeaf (hba : Nat) :
      IndexStep kernel x { x with store :=
        { x.store with leafBlockCache := (x.store.leafBlockCache.get hba).2 } }
  | fillIndirect {height : Nat} {record : Record} (reached : x.Reaches kernel height record) :
      IndexStep kernel x { x with store :=
        ((Bit.fillCache kernel record : IndexProgram IndirectBlock).exec x.store).2 }
  | fillLeaf {height : Nat} {record : Record} (reached : x.Reaches kernel height record) :
      IndexStep kernel x { x with store :=
        ((Bit.fillCache kernel record : IndexProgram LeafBlock).exec x.store).2 }

/-- The sessions that an interleaving reaches from a mount of a new device.  The cipher is
assumed to reject what a read beyond the end of the device leaves in the buffer. -/
inductive IndexReachable (kernel : Kernel) (metaDev : Device) (draws : Nat) : IndexSession → Prop
  | mount : IndexReachable kernel metaDev draws (IndexSession.mount metaDev draws)
  | step {x x' : IndexSession} (before : IndexReachable kernel metaDev draws x)
      (rejected : LostRejected kernel x.store) (step : IndexStep kernel x x') :
      IndexReachable kernel metaDev draws x'

variable {level : Nat} {bit : BitInfo} {room : Bool}

namespace BitCategory

variable {held : BitRootMeta BitInfo}

theorem lists_addBit (listed : (category.addBit bit level room).2.Lists held) :
    category.Lists held ∨ held = ⟨category.bitUniqueId, bit⟩ := by
  obtain ⟨other, member⟩ := listed
  unfold addBit at member
  split at member
  · exact .inl ⟨other, member⟩
  · split at member
    · by_cases same : other = level
      · subst same
        simp only [update_self] at member
        rcases mem_append.mp member with old | new
        · exact .inl ⟨other, old⟩
        · exact .inr (mem_singleton.mp new)
      · simp only [update_of_ne same] at member
        exact .inl ⟨other, member⟩
    · exact .inl ⟨other, member⟩

theorem lists_releaseBit {uniqueId : Nat} {released : BitCategory BitInfo}
    (done : category.releaseBit level uniqueId = .ok released) (listed : released.Lists held) :
    category.Lists held := by
  unfold releaseBit at done
  split at done
  · obtain rfl := Except.ok.inj done
    obtain ⟨other, member⟩ := listed
    by_cases same : other = level
    · subst same
      simp only [update_self] at member
      exact ⟨other, mem_of_mem_eraseIdx member⟩
    · simp only [update_of_ne same] at member
      exact ⟨other, member⟩
  · cases done

theorem lists_releaseAll {uniqueIds : List Nat}
    (listed : (category.releaseAll level uniqueIds).2.Lists held) : category.Lists held := by
  induction uniqueIds generalizing category with
  | nil => exact listed
  | cons uniqueId rest ih =>
    unfold releaseAll at listed
    split at listed
    · next released done => exact lists_releaseBit done (ih listed)
    · exact listed

theorem lists_replaceLevel
    (listed : (IndexSession.replaceLevel category level bit room).Lists held) :
    category.Lists held ∨ held = ⟨category.bitUniqueId, bit⟩ := by
  unfold IndexSession.replaceLevel at listed
  split at listed
  · next added done =>
      have lists : (category.addBit bit (level + 1) room).2.Lists held := by
        rw [done]
        exact lists_releaseAll listed
      exact lists_addBit lists
  · next done =>
      have lists : (category.addBit bit (level + 1) room).2.Lists held := by
        rw [done]
        exact listed
      exact lists_addBit lists

end BitCategory

def ListedTrees (written : List (Record × List UInt8)) (category : BitCategory BitInfo) : Prop :=
  ∀ held, category.Lists held → ListedTree written held

section

variable {written : List (Record × List UInt8)} (listed : ListedTrees written category)
include listed

theorem ListedTrees.mono {written' : List (Record × List UInt8)} (more : written <+: written') :
    ListedTrees written' category :=
  fun held member => ⟨(listed held member).1, (listed held member).2.mono more⟩

theorem ListedTrees.add {category' : BitCategory BitInfo} {added : BitRootMeta BitInfo}
    (tree : ListedTree written added)
    (lists : ∀ held, category'.Lists held → category.Lists held ∨ held = added) :
    ListedTrees written category' := by
  intro held member
  rcases lists held member with old | rfl
  · exact listed held old
  · exact tree

end

/-- What holds between two steps: each write took the next place, the caches are sound and
the listed tables are trees of written blocks. -/
structure IndexInv (kernel : Kernel) (x : IndexSession) : Prop where
  placement : Placement kernel segmentSectors x.store
  caches : CachesSound kernel x.store
  listed : ListedTrees x.store.written x.category

variable {record : Record} {T : Type} {s store : IndexStore} {height : Nat}

section

variable {x : IndexSession}

section

variable (inv : IndexInv kernel x)
include inv

theorem IndexInv.storeInv (rejected : LostRejected kernel x.store) :
    StoreInv kernel segmentSectors x.store :=
  ⟨inv.placement, inv.caches, rejected⟩

/-- Reads keep the invariant. -/
theorem IndexInv.cached (cached : Cached kernel x.store store) :
    IndexInv kernel { x with store := store } where
  placement := cached.1.placement inv.placement
  caches := cached.2
  listed := by
    rw [cached.1.written]
    exact inv.listed

/-- Constructions keep the invariant, finished or not. -/
theorem IndexInv.built (built : Built kernel segmentSectors x.store store) :
    IndexInv kernel { x with store := store } where
  placement := built.1
  caches := inv.caches.grows inv.placement built.2
  listed := inv.listed.mono built.2.written

theorem IndexInv.convert (memtable : MemTable Record) (room : Bool) :
    IndexInv kernel (x.convert kernel memtable room) := by
  have spec := fromMemtable_spec inv.placement memtable
  unfold IndexSession.convert
  unfold wp at spec
  split at spec
  · next bit store done =>
      obtain ⟨built, atLeast, subtree⟩ := spec
      have inv' := inv.built built
      rw [done]
      exact ⟨inv'.placement, inv'.caches, inv'.listed.add ⟨atLeast, subtree⟩ fun _ member =>
        BitCategory.lists_addBit member⟩
  · next fault store done =>
      rw [done]
      exact inv.built spec

variable (rejected : LostRejected kernel x.store)
include rejected

theorem mergeLevel_spec (fuel level : Nat) :
    wp (IndexSession.mergeLevel kernel fuel (x.category.category level))
      (fun result store => IndexInv kernel { x with store := store } ∧
        ∀ bit, result = some bit → 2 ≤ bit.level ∧
          Subtree store.written (bit.level - 1) bit.record.record)
      (fun _ store => IndexInv kernel { x with store := store }) x.store := by
  unfold IndexSession.mergeLevel
  refine wp_seq (readRoots_spec (inv.storeInv rejected) fun held member =>
      inv.listed held ⟨level, member⟩)
    (fun bits store cached => ?_) fun _ _ cached => inv.cached cached
  have inv' := inv.cached cached
  refine wp_mono (fromCompaction_spec inv'.placement fuel bits)
    (fun result store' after => ⟨inv'.built after.1, fun bit here => ?_⟩)
    fun _ _ built => inv'.built built
  exact (after.2 bit here).2

theorem IndexInv.compact (level fuel : Nat) (room : Bool) :
    IndexInv kernel (x.compact kernel level fuel room) := by
  have spec := mergeLevel_spec inv rejected fuel level
  unfold IndexSession.compact
  split
  · unfold wp at spec
    split at spec
    · next result store done =>
        rw [done]
        obtain ⟨inv', merged⟩ := spec
        cases result with
        | none => exact inv'
        | some bit =>
          obtain ⟨atLeast, subtree⟩ := merged bit rfl
          exact ⟨inv'.placement, inv'.caches, inv'.listed.add ⟨atLeast, subtree⟩ fun _ member =>
            BitCategory.lists_replaceLevel member⟩
    · next fault store done =>
        rw [done]
        exact spec
  · exact inv

theorem IndexInv.lookup (lba : Nat) : IndexInv kernel (x.lookup kernel lba) := by
  refine inv.cached (wp_exec (findInTables_spec (inv.storeInv rejected) lba ?_))
  intro held member
  obtain ⟨level, -, here⟩ := mem_flatMap.mp member
  exact inv.listed held ⟨level, mem_reverse.mp here⟩

theorem IndexSession.Reaches.subtree (reached : x.Reaches kernel height record) :
    Subtree x.store.written height record := by
  induction reached with
  | root listed => exact (inv.listed _ listed).2
  | child _ direct within here ih =>
    obtain ⟨child, there, below⟩ :=
      inv.placement.storedChildren rejected ih direct _ within
    rw [here] at there
    obtain rfl := some.inj there
    exact below

end

theorem CacheSound.get [BlockFormat T] {cache : LruCache T} (sound : CacheSound kernel s cache)
    (hba : Nat) : CacheSound kernel s (cache.get hba).2 where
  valid := (sound.valid.get hba).2.1
  direct := by
    rw [(sound.valid.get hba).2.2]
    exact sound.direct

theorem IndexInv.fill [LawfulCachedBlock T] (inv : IndexInv kernel x)
    (rejected : LostRejected kernel x.store) (reached : x.Reaches kernel height record) :
    IndexInv kernel { x with store :=
      ((Bit.fillCache kernel record : IndexProgram T).exec x.store).2 } := by
  obtain ⟨plain, written⟩ := (reached.subtree inv rejected).written
  refine inv.cached (wp_exec ?_)
  exact wp_mono (fillCache_spec inv.caches written) (fun _ _ after => after.2)
    fun _ _ after => after.2

theorem IndexInv.step (inv : IndexInv kernel x) (rejected : LostRejected kernel x.store)
    {x' : IndexSession} (step : IndexStep kernel x x') : IndexInv kernel x' := by
  cases step with
  | convert memtable room => exact inv.convert memtable room
  | compact level fuel room inside => exact inv.compact rejected level fuel room
  | release released => exact ⟨inv.placement, inv.caches, fun held member =>
    inv.listed held (BitCategory.lists_releaseBit released member)⟩
  | lookup lba => exact inv.lookup rejected lba
  | touchIndirect hba =>
    exact inv.cached ⟨⟨rfl, rfl, rfl, rfl⟩, inv.caches.setIndirect (inv.caches.indirect.get hba)⟩
  | touchLeaf hba =>
    exact inv.cached ⟨⟨rfl, rfl, rfl, rfl⟩, inv.caches.setLeaf (inv.caches.leaf.get hba)⟩
  | fillIndirect reached => exact inv.fill rejected reached
  | fillLeaf reached => exact inv.fill rejected reached

end

theorem IndexReachable.indexInv {metaDev : Device} {draws : Nat} {x : IndexSession}
    (reachable : IndexReachable kernel metaDev draws x) : IndexInv kernel x := by
  induction reachable with
  | mount =>
    exact ⟨placement_mount kernel metaDev draws, cachesSound_mount kernel metaDev draws,
      fun _ ⟨_, member⟩ => absurd member not_mem_nil⟩
  | step _ rejected step ih => exact ih.step rejected step

variable {start : Nat}

theorem readBlock_outcome [LawfulCachedBlock T] (inv : StoreInv kernel start s)
    {plain : List UInt8} (written : (record, plain) ∈ s.written) :
    ((Bit.readBlock kernel record : IndexProgram T).exec s).1 =
      Bit.readBlockDirectly kernel s.metaDev record := by
  have spec := readBlock_spec (T := T) inv.placement inv.caches written
  unfold ReadsBlock wp at spec
  split at spec <;> next done => rw [done, spec.1]

/-- In every session on a new device, for every interleaving of constructions, category
changes, lookups and evictions: a record that is reachable from a listed table reads through
the cache of either block type as it reads directly, and so does the root of the table. -/
theorem cache_transparent {kernel : Kernel} {metaDev : Device} {draws : Nat} {x : IndexSession}
    (reachable : IndexReachable kernel metaDev draws x) (rejected : LostRejected kernel x.store) :
    (∀ height record, x.Reaches kernel height record →
      ((Bit.readBlock kernel record : IndexProgram IndirectBlock).exec x.store).1 =
          Bit.readBlockDirectly kernel x.store.metaDev record ∧
        ((Bit.readBlock kernel record : IndexProgram LeafBlock).exec x.store).1 =
          Bit.readBlockDirectly kernel x.store.metaDev record) ∧
      ∀ held, x.category.Lists held →
        ((held.readFromDisk kernel).exec x.store).1 =
          (Bit.readBlockDirectly kernel x.store.metaDev held.bit.record.record).map
            fun root => ⟨held.bit, root⟩ := by
  have inv := reachable.indexInv
  have storeInv := inv.storeInv rejected
  constructor
  · intro height record reached
    obtain ⟨plain, written⟩ := (reached.subtree inv rejected).written
    exact ⟨readBlock_outcome storeInv written, readBlock_outcome storeInv written⟩
  · intro held listed
    have spec := readFromDisk_spec storeInv (inv.listed held listed)
    unfold Program.wp at spec
    split at spec
    · next done =>
        obtain ⟨⟨root, direct, rfl⟩, -⟩ := spec
        rw [done, direct]
        rfl
    · next done =>
        rw [done, spec.1]
        rfl

theorem Placement.lostRejected (placement : Placement kernel start s)
    (large : 2 ^ 64 ≤ s.metaDev.sectors) :
    LostRejected kernel s := by
  intro record plain written beyond
  have below := (placement.below written).2
  have word : s.hba < 2 ^ 64 := placement.word
  omega

def largeDevice : Device := ⟨2 ^ 64, Memory.zeroed⟩

def firstBlock : Record :=
  ⟨segmentSectors, Vector.replicate 16 0, Vector.replicate 12 0, Vector.replicate 16 0⟩

def oneTable : IndexSession :=
  (IndexSession.mount largeDevice 0).convert plainKernel (MemTable.new.insert 7 firstBlock) true

theorem cache_transparent_oneTable :
    ∃ held, oneTable.category.Lists held ∧
      ((held.readFromDisk plainKernel).exec oneTable.store).1 =
        (Bit.readBlockDirectly plainKernel oneTable.store.metaDev held.bit.record.record).map
          fun root => ⟨held.bit, root⟩ := by
  have fresh : LostRejected plainKernel (IndexSession.mount largeDevice 0).store :=
    fun _ _ written => absurd written not_mem_nil
  have reachable : IndexReachable plainKernel largeDevice 0 oneTable :=
    .step .mount fresh (.convert _ _)
  have sectors : oneTable.store.metaDev.sectors = 2 ^ 64 := by decide +kernel
  have listed : 0 < (oneTable.category.category 0).length := by decide +kernel
  have rejected := reachable.indexInv.placement.lostRejected sectors.ge
  have lists : oneTable.category.Lists (oneTable.category.category 0)[0] :=
    ⟨0, getElem_mem listed⟩
  exact ⟨_, lists, (cache_transparent reachable rejected).2 _ lists⟩

end SwornDisk.Rust
