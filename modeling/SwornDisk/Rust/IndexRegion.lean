import SwornDisk.Rust.IndexSession

/-!
# Index region over sessions

Every mount starts the cursor of `IndexSegment` at the same place, whatever the checkpoint
lists, and nothing compares it with the end of the region.  An index write is harmless
exactly when it stays below the journal region and spares the tables that the session
found in the checkpoint; the session's own tables are never hit.
-/

namespace SwornDisk.Rust

open Lib List Program Option

/-- The regions of the meta device in `SuperBlock`, in bytes. -/
structure SuperBlock where
  nrIndexSegments : Nat
  indexRegion : Nat
  journalRegion : Nat
  checkpointRegion : Nat

def SuperBlock.new (indexNbytes journalNbytes : Nat) : SuperBlock :=
  let nrIndexSegments := indexNbytes / segmentSize + if indexNbytes % segmentSize = 0 then 1 else 0
  let indexRegion := segmentSize
  let journalRegion := indexRegion + nrIndexSegments * segmentSize
  { nrIndexSegments := nrIndexSegments
    indexRegion := indexRegion
    journalRegion := journalRegion
    checkpointRegion := journalRegion + journalNbytes }

/-- The superblock that `ctr` makes for a meta device. -/
def Device.superBlock (metaDev : Device) : SuperBlock :=
  let metaNbytes := metaDev.sectors * sectorSize
  SuperBlock.new (metaNbytes / 2) (metaNbytes / 4)

structure MountedIndex where
  inherited : BitCategory BitInfo
  index : IndexSession

/-- A call of `IndexSegment::write` with the category at that time and the one that the session
started with. -/
structure IndexWrite extends IndexCall where
  category : BitCategory BitInfo
  inherited : BitCategory BitInfo

/-- The meta device with the category in its checkpoint region, between sessions and in
one, and the index writes so far. -/
structure IndexHost where
  metaDev : Device
  draws : Nat
  saved : BitCategory BitInfo
  session : Option MountedIndex
  writes : List IndexWrite

def IndexHost.blank (sectors : Nat) : IndexHost where
  metaDev := ⟨sectors, Memory.zeroed⟩
  draws := 0
  saved := BitCategory.new
  session := none
  writes := []

def MountedIndex.writesSince (x : MountedIndex) (index : IndexSession) : List IndexWrite :=
  (index.store.calls.drop x.index.store.calls.length).map fun call =>
    ⟨call, x.index.category, x.inherited⟩

/-- What a host can do.  `flush` converts the memtable, which is a step of the session,
and then ends it by `save`; a session may also end without. -/
inductive IndexHostStep (kernel : Kernel) (host : IndexHost) : IndexHost → Prop
  | format (down : host.session = none) :
      IndexHostStep kernel host { host with
        session := some ⟨BitCategory.new, IndexSession.mount host.metaDev host.draws⟩ }
  | ctr (down : host.session = none) :
      IndexHostStep kernel host { host with
        session := some ⟨host.saved, IndexStore.mount host.metaDev host.draws, host.saved⟩ }
  | index {x : MountedIndex} {index : IndexSession} (mounted : host.session = some x)
      (rejected : LostRejected kernel x.index.store) (step : IndexStep kernel x.index index) :
      IndexHostStep kernel host { host with
        session := some { x with index := index }
        writes := host.writes ++ x.writesSince index }
  | save {x : MountedIndex} (mounted : host.session = some x) (count : Nat) (source : Memory) :
      IndexHostStep kernel host { host with
        session := none
        metaDev := x.index.store.metaDev.writeSectors
          (x.index.store.metaDev.superBlock.checkpointRegion / sectorSize) count source
        draws := x.index.store.draws
        saved := x.index.category }
  | drop {x : MountedIndex} (mounted : host.session = some x) :
      IndexHostStep kernel host { host with
        session := none
        metaDev := x.index.store.metaDev
        draws := x.index.store.draws }

def IndexHostRun (kernel : Kernel) (sectors : Nat) : IndexHost → Prop :=
  Relation.ReflTransGen (IndexHostStep kernel) (IndexHost.blank sectors)

/-- The block at `hba` does not meet that of a record. -/
def Spares (hba : Nat) (record : Record) : Prop :=
  record.hba + blockSectors ≤ hba ∨ hba + blockSectors ≤ record.hba

/-- The write lies in the index region and hits no block that is reachable from a listed
table. -/
structure IndexWrite.Harmless (kernel : Kernel) (w : IndexWrite) : Prop where
  above : w.metaDev.superBlock.indexRegion ≤ w.hba * sectorSize
  below : (w.hba + blockSectors) * sectorSize ≤ w.metaDev.superBlock.journalRegion
  spares : ∀ height record, Reaches kernel w.metaDev w.category.Lists height record →
    Spares w.hba record

/-- The tables that the session found in the checkpoint and that are still listed. -/
def IndexWrite.Inherited (w : IndexWrite) (held : BitRootMeta BitInfo) : Prop :=
  w.category.Lists held ∧ w.inherited.Lists held

/-- The blocks of the session so far and one more fit in the region, and the block at the cursor
belongs to no inherited table. -/
structure IndexWrite.Clear (kernel : Kernel) (w : IndexWrite) : Prop where
  room : (segmentSectors + (w.earlier + 1) * blockSectors) * sectorSize ≤
    w.metaDev.superBlock.journalRegion
  spares : ∀ height record, Reaches kernel w.metaDev w.Inherited height record →
    Spares w.hba record

structure MountedInv (kernel : Kernel) (x : MountedIndex) : Prop where
  placement : Placement kernel segmentSectors x.index.store
  listed : ∀ held, x.index.category.Lists held →
    x.inherited.Lists held ∨ ListedTree x.index.store.written held

section

variable {kernel : Kernel} {x : MountedIndex} {call : IndexCall} (inv : MountedInv kernel x)
  (rejected : LostRejected kernel x.index.store) (ahead : Ahead x.index.store call)
include inv rejected ahead

theorem MountedInv.reaches {height : Nat} {record : Record}
    (reached : Reaches kernel call.metaDev x.index.category.Lists height record) :
    Reaches kernel call.metaDev (fun held => x.index.category.Lists held ∧ x.inherited.Lists held)
        height record ∨ Subtree x.index.store.written height record := by
  induction reached with
  | root listed =>
    rcases inv.listed _ listed with inherited | tree
    · exact .inl (.root ⟨listed, inherited⟩)
    · exact .inr tree.2
  | child _ direct within here ih =>
    rcases ih with inherited | subtree
    · exact .inl (.child inherited direct within here)
    · right
      obtain ⟨plain, written⟩ := subtree.written
      unfold Bit.readBlockDirectly openRecord at direct
      rw [ahead.stays _ (inv.placement.below written).2] at direct
      obtain ⟨child, there, below⟩ :=
        inv.placement.storedChildren rejected subtree direct _ within
      rw [here] at there
      obtain rfl := some.inj there
      exact below

theorem MountedInv.harmless_iff :
    (⟨call, x.index.category, x.inherited⟩ : IndexWrite).Harmless kernel ↔
      (⟨call, x.index.category, x.inherited⟩ : IndexWrite).Clear kernel := by
  have place : call.hba = segmentSectors + call.earlier * blockSectors := by
    have cursor := inv.placement.cursor
    have placed := ahead.placed
    omega
  have behind : segmentSectors + (call.earlier + 1) * blockSectors = call.hba + blockSectors := by
    rw [place, Nat.succ_mul, Nat.add_assoc]
  constructor
  · intro harmless
    refine ⟨behind ▸ harmless.below, fun height record reached => harmless.spares height record ?_⟩
    induction reached with
    | root listed => exact .root listed.1
    | child _ direct within here ih => exact .child ih direct within here
  · intro clear
    have above := Nat.mul_le_mul_right sectorSize (place ▸ Nat.le_add_right ..)
    rw [segmentSectors_mul_sectorSize] at above
    refine ⟨above, behind ▸ clear.room, fun height record reached => ?_⟩
    rcases inv.reaches rejected ahead reached with inherited | subtree
    · exact clear.spares height record inherited
    · obtain ⟨plain, written⟩ := subtree.written
      exact .inl ((inv.placement.below written).2.trans ahead.cursor)

end

/-- What a step of a session does to the blocks and to the category, whatever the caches
hold. -/
structure Stepped (kernel : Kernel) (x x' : IndexSession) : Prop where
  placement : Placement kernel segmentSectors x'.store
  written : x.store.written <+: x'.store.written
  calls : ∃ calls, x'.store.calls = x.store.calls ++ calls ∧ ∀ call ∈ calls, Ahead x.store call
  listed : ∀ held, x'.category.Lists held →
    x.category.Lists held ∨ ListedTree x'.store.written held

variable {store : IndexStore} {category : BitCategory BitInfo} {x' : IndexSession}

section

variable {kernel : Kernel} {x : IndexSession}

theorem Stepped.reads (placement : Placement kernel segmentSectors x.store)
    (same : SameBlocks x.store store) : Stepped kernel x { x with store := store } where
  placement := same.placement placement
  written := by
    rw [same.written]
  calls := ⟨[], by rw [same.calls, append_nil], fun _ member => absurd member not_mem_nil⟩
  listed := fun _ member => .inl member

theorem Stepped.built (built : Built kernel segmentSectors x.store store)
    (listed : ∀ held, category.Lists held →
      x.category.Lists held ∨ ListedTree store.written held) :
    Stepped kernel x ⟨store, category⟩ where
  placement := built.1
  written := built.2.written
  calls := built.2.calls
  listed := listed

theorem stepped_convert (placement : Placement kernel segmentSectors x.store)
    (memtable : MemTable Record) (room : Bool) :
    Stepped kernel x (x.convert kernel memtable room) := by
  have spec := fromMemtable_spec placement memtable
  unfold IndexSession.convert
  unfold wp at spec
  split at spec
  · next bit store done =>
      obtain ⟨built, atLeast, subtree⟩ := spec
      rw [done]
      refine .built built fun held member => ?_
      rcases BitCategory.lists_addBit member with old | rfl
      · exact .inl old
      · exact .inr ⟨atLeast, subtree⟩
  · next fault store done =>
      rw [done]
      exact .built spec fun _ member => .inl member

theorem mergeLevel_built (placement : Placement kernel segmentSectors x.store) (fuel : Nat)
    (tables : List (BitRootMeta BitInfo)) :
    ∃ s, SameBlocks x.store s ∧ wp (IndexSession.mergeLevel kernel fuel tables)
      (fun result store => Built kernel segmentSectors s store ∧
        ∀ bit, result = some bit → 2 ≤ bit.level ∧
          Subtree store.written (bit.level - 1) bit.record.record)
      (fun _ store => Built kernel segmentSectors s store) x.store := by
  have same : SameBlocks x.store ((readRoots kernel tables).exec x.store).2 :=
    readsOnly_readRoots tables x.store
  refine ⟨_, same, ?_⟩
  have placement' := same.placement placement
  unfold IndexSession.mergeLevel
  rw [wp_bind]
  unfold wp
  generalize (readRoots kernel tables).exec x.store = outcome at same placement' ⊢
  obtain ⟨result, s⟩ := outcome
  cases result with
  | error fault => exact ⟨placement', Grows.refl s⟩
  | ok bits =>
    exact wp_mono (fromCompaction_spec placement' fuel bits)
      (fun _ _ after => ⟨after.1, fun bit here => (after.2 bit here).2⟩) fun _ _ => id

theorem Stepped.afterReads {s : IndexStore} (same : SameBlocks x.store s)
    (stepped : Stepped kernel ⟨s, x.category⟩ x') : Stepped kernel x x' where
  placement := stepped.placement
  written := by
    rw [← same.written]
    exact stepped.written
  calls := by
    obtain ⟨calls, made, ahead⟩ := stepped.calls
    refine ⟨calls, by rw [made, same.calls], fun call member => ?_⟩
    obtain ⟨cursor, placed, sectors, stays⟩ := ahead call member
    rw [same.metaDev] at sectors stays
    rw [same.hba] at cursor placed stays
    rw [same.written] at placed
    exact ⟨cursor, placed, sectors, stays⟩
  listed := stepped.listed

theorem stepped_compact (placement : Placement kernel segmentSectors x.store) (level fuel : Nat)
    (room : Bool) : Stepped kernel x (x.compact kernel level fuel room) := by
  obtain ⟨s, same, spec⟩ := mergeLevel_built placement fuel (x.category.category level)
  unfold IndexSession.compact
  split
  · refine .afterReads same ?_
    unfold wp at spec
    split at spec
    · next result store done =>
        rw [done]
        obtain ⟨built, merged⟩ := spec
        cases result with
        | none => exact .built built fun _ member => .inl member
        | some bit =>
          refine .built built fun held member => ?_
          rcases BitCategory.lists_replaceLevel member with old | rfl
          · exact .inl old
          · exact .inr (merged bit rfl)
    · next fault store done =>
        rw [done]
        exact .built spec fun _ member => .inl member
  · exact .reads placement (SameBlocks.refl _)

theorem IndexStep.stepped (step : IndexStep kernel x x')
    (placement : Placement kernel segmentSectors x.store) : Stepped kernel x x' := by
  cases step with
  | convert memtable room => exact stepped_convert placement memtable room
  | compact level fuel room _ => exact stepped_compact placement level fuel room
  | release released =>
    exact .built ⟨placement, Grows.refl _⟩ fun held member =>
      .inl (BitCategory.lists_releaseBit released member)
  | lookup lba => exact .reads placement (readsOnly_findInTables lba _ _)
  | touchIndirect hba => exact .reads placement ⟨rfl, rfl, rfl, rfl⟩
  | touchLeaf hba => exact .reads placement ⟨rfl, rfl, rfl, rfl⟩
  | fillIndirect _ => exact .reads placement (readsOnly_fillCache _ _)
  | fillLeaf _ => exact .reads placement (readsOnly_fillCache _ _)

end

theorem MountedInv.step {kernel : Kernel} {x : MountedIndex} (inv : MountedInv kernel x)
    {index : IndexSession} (stepped : Stepped kernel x.index index) :
    MountedInv kernel { x with index := index } where
  placement := stepped.placement
  listed := by
    intro held member
    rcases stepped.listed held member with old | tree
    · rcases inv.listed held old with inherited | tree
      · exact .inl inherited
      · exact .inr ⟨tree.1, tree.2.mono stepped.written⟩
    · exact .inr tree

/-- Over any number of sessions, on any device: an index write lies in the index region and
spares every block reachable from a listed table if and only if the session's blocks and one more
end below the journal region and the write spares the listed tables that its session found in the
checkpoint. -/
theorem index_write_harmless_iff {kernel : Kernel} {sectors : Nat} {host : IndexHost}
    (run : IndexHostRun kernel sectors host) :
    ∀ w ∈ host.writes, w.Harmless kernel ↔ w.Clear kernel := by
  suffices inv : (∀ x, host.session = some x → MountedInv kernel x) ∧
      ∀ w ∈ host.writes, w.Harmless kernel ↔ w.Clear kernel from inv.2
  induction run with
  | refl => exact ⟨fun _ none => (some_ne_none _ none.symm).elim,
      fun _ member => absurd member not_mem_nil⟩
  | tail _ step ih =>
    obtain ⟨mounted, writes⟩ := ih
    cases step with
    | format down =>
      refine ⟨fun x here => ?_, writes⟩
      obtain rfl := some.inj here
      exact ⟨placement_mount .., fun _ listed => .inl listed⟩
    | ctr down =>
      refine ⟨fun x here => ?_, writes⟩
      obtain rfl := some.inj here
      exact ⟨placement_mount .., fun _ listed => .inl listed⟩
    | index here rejected step =>
      have inv := mounted _ here
      have stepped := step.stepped inv.placement
      obtain ⟨calls, made, ahead⟩ := stepped.calls
      refine ⟨fun x here' => ?_, fun w member => ?_⟩
      · obtain rfl := some.inj here'
        exact inv.step stepped
      · rcases mem_append.mp member with old | new
        · exact writes w old
        · unfold MountedIndex.writesSince at new
          rw [made, drop_left] at new
          obtain ⟨call, called, rfl⟩ := mem_map.mp new
          exact inv.harmless_iff rejected (ahead call called)
    | save _ _ _ =>
      exact ⟨fun _ none => (some_ne_none _ none.symm).elim, writes⟩
    | drop _ =>
      exact ⟨fun _ none => (some_ne_none _ none.symm).elim, writes⟩

section

variable (host : IndexHost) (category)

def IndexHost.opened : MountedIndex :=
  ⟨category, IndexStore.mount host.metaDev host.draws, category⟩

/-- The session of a host that flushes one record after the mount. -/
def IndexHost.flushOne : IndexHost :=
  let x := host.opened category
  let index := x.index.convert plainKernel (MemTable.new.insert 7 firstBlock) true
  { host with session := some ⟨category, index⟩, writes := host.writes ++ x.writesSince index }

end

theorem IndexHostRun.flushOne {sectors : Nat} {host : IndexHost}
    (run : IndexHostRun plainKernel sectors { host with session := some (host.opened category) }) :
    IndexHostRun plainKernel sectors (host.flushOne category) := by
  refine Relation.ReflTransGen.tail run (.index (x := host.opened category) rfl ?_ (.convert _ _))
  intro record plain written
  exact absurd written not_mem_nil

def firstFlush : IndexHost := (IndexHost.blank (16 * segmentSectors)).flushOne BitCategory.new

theorem run_firstFlush : IndexHostRun plainKernel (16 * segmentSectors) firstFlush :=
  IndexHostRun.flushOne (.single (.format rfl))

theorem index_write_harmless_iff_firstFlush :
    firstFlush.writes.length = 2 ∧
      ∀ w ∈ firstFlush.writes, w.Harmless plainKernel ↔ w.Clear plainKernel :=
  ⟨by decide +kernel, index_write_harmless_iff run_firstFlush⟩

def savedOnce : IndexHost :=
  let index := (firstFlush.session.getD (firstFlush.opened BitCategory.new)).index
  { firstFlush with
    session := none
    metaDev := index.store.metaDev.writeSectors
      (index.store.metaDev.superBlock.checkpointRegion / sectorSize) blockSectors Memory.zeroed
    draws := index.store.draws
    saved := index.category }

theorem run_savedOnce : IndexHostRun plainKernel (16 * segmentSectors) savedOnce :=
  Relation.ReflTransGen.tail run_firstFlush (.save rfl blockSectors Memory.zeroed)

/-- The first flush after a remount overwrites the root of the table that the checkpoint
lists. -/
theorem remount_overwrites_root :
    ∃ host, IndexHostRun plainKernel (16 * segmentSectors) host ∧
      ∃ w ∈ host.writes, ¬ w.Harmless plainKernel := by
  refine ⟨savedOnce.flushOne savedOnce.saved, IndexHostRun.flushOne ?_, ?_⟩
  · exact Relation.ReflTransGen.tail run_savedOnce (.ctr rfl)
  · have hit : ∃ w ∈ (savedOnce.flushOne savedOnce.saved).writes,
        ∃ held ∈ w.category.category 0, held.bit.record.record.hba = w.hba := by
      decide +kernel
    obtain ⟨w, member, held, listed, same⟩ := hit
    refine ⟨w, member, fun harmless => ?_⟩
    have positive : 0 < blockSectors := by
      rw [blockSectors_eq]
      decide
    have spares := harmless.spares _ _ (.root ⟨0, listed⟩)
    unfold Spares at spares
    omega

end SwornDisk.Rust
