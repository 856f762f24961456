import SwornDisk.Rust.IndexSession
import SwornDisk.Rust.IoWorker
import SwornDisk.Rust.Lsm

/-!
# The LSM tree over the block index tables

The operations of the LSM tree at the tables of the index.  Its lookup is the one of the request
handlers, its minor compaction the one of the write handler, and every interleaving of its threads
is one of the index session.  Vectors are taken to grow.
-/

namespace SwornDisk.Rust

open Lib List Program Relation SwornDiskContext

/-- The block index tables.  A merge that takes more than `fuel` rounds counts as failed. -/
def indexOps (kernel : Kernel) (fuel : Nat) : BitOps IndexStore BitInfo Bit Record where
  fromMemtable memtable store :=
    ((Bit.fromMemtable kernel memtable).exec store).map (·.map Bit.toBitInfo) id
  readFromDisk rootMeta store := (rootMeta.readFromDisk kernel).exec store
  fromCompaction bits store :=
    match (Bit.fromCompaction kernel fuel bits).exec store with
    | (.ok (some bit), store) => (.ok bit.toBitInfo, store)
    | (.ok none, store) => (.error .panic, store)
    | (.error fault, store) => (.error fault, store)
  contains rootMeta lba := rootMeta.contains lba
  findRecord bit lba store := (bit.findRecord kernel lba).exec store
  tryPush store := (true, store)

variable (kernel : Kernel) (fuel : Nat)

theorem findInTables_append (lba : Nat) (front back : List (BitRootMeta BitInfo))
    (store : IndexStore) :
    (findInTables kernel lba (front ++ back)).exec store =
      match (findInTables kernel lba front).exec store with
      | (.ok none, store) => (findInTables kernel lba back).exec store
      | outcome => outcome := by
  induction front generalizing store with
  | nil => rfl
  | cons rootMeta rest ih =>
    rw [cons_append, findInTables, findInTables]
    split
    · rw [exec_bind, exec_bind]
      rcases (rootMeta.readFromDisk kernel).exec store with ⟨_ | bit, afterRead⟩
      · rfl
      · simp only [exec_bind]
        rcases (bit.findRecord kernel lba).exec afterRead with ⟨_ | _ | record, afterFind⟩
        · rfl
        · exact ih afterFind
        · rfl
    · exact ih store

theorem findInLevel_indexOps (lba : Nat) (metas : List (BitRootMeta BitInfo))
    (store : IndexStore) :
    findInLevel (indexOps kernel fuel) lba metas store =
      (findInTables kernel lba metas).exec store := by
  induction metas generalizing store with
  | nil => rfl
  | cons rootMeta rest ih =>
    rw [findInLevel, findInTables]
    by_cases contained : rootMeta.contains lba
    · simp only [indexOps, contained, if_true, exec_bind]
      rcases (rootMeta.readFromDisk kernel).exec store with ⟨_ | bit, afterRead⟩
      · rfl
      · simp only
        rcases (bit.findRecord kernel lba).exec afterRead with ⟨_ | _ | record, afterFind⟩
        · rfl
        · exact ih afterFind
        · rfl
    · simp only [indexOps, contained]
      exact ih store

theorem findInLevels_indexOps (category : BitCategory BitInfo) (lba : Nat) (levels : List Nat)
    (store : IndexStore) :
    findInLevels (indexOps kernel fuel) category lba levels store =
      (findInTables kernel lba (levels.flatMap category.iterLevel)).exec store := by
  induction levels generalizing store with
  | nil => rfl
  | cons level levels ih =>
    rw [findInLevels, flatMap_cons, findInTables_append, findInLevel_indexOps]
    rcases (findInTables kernel lba (category.iterLevel level)).exec store with
      ⟨_ | _ | record, afterWalk⟩
    · rfl
    · exact ih afterWalk
    · rfl

theorem readPending_indexOps (metas : List (BitRootMeta BitInfo)) (locals : CompactionLocals Bit)
    (store : IndexStore) :
    readPending (indexOps kernel fuel) metas locals store =
      ((readRoots kernel metas).exec store).map (·.map fun bits =>
        ⟨locals.bitsPendingCompaction ++ bits,
          locals.bitsId ++ metas.map BitRootMeta.uniqueId⟩) id := by
  induction metas generalizing locals store with
  | nil => simp [readPending, readRoots, Except.map]
  | cons rootMeta rest ih =>
    rw [readPending, readRoots, exec_bind]
    simp only [indexOps] at ih ⊢
    rcases (rootMeta.readFromDisk kernel).exec store with ⟨_ | bit, afterRead⟩
    · rfl
    · simp only [exec_bind, ih]
      rcases (readRoots kernel rest).exec afterRead with ⟨_ | bits, afterRest⟩
      · rfl
      · simp [Except.map]

def Lsm.session (s : Lsm IndexStore BitInfo Bit Record) : IndexSession := ⟨s.store, s.bitCategory⟩

theorem session_minorCompaction (s : Lsm IndexStore BitInfo Bit Record) :
    (minorCompaction (indexOps kernel fuel) s).2.session =
      s.session.convert kernel s.memtable true := by
  simp only [minorCompaction, indexOps, IndexSession.convert, Lsm.session]
  rcases (Bit.fromMemtable kernel s.memtable).exec s.store with ⟨_ | bit, store⟩
  · rfl
  · simp only [Prod.map, Except.map, id]
    rcases s.bitCategory.addBit bit.toBitInfo 0 true with ⟨_ | _, category⟩ <;> rfl

theorem compactionIteration_indexOps (level : Nat) (x : IndexSession) :
    let outcome := compactionIteration (indexOps kernel fuel) level x.category
      CompactionLocals.new x.store
    (⟨outcome.2.2, outcome.2.1⟩ : IndexSession) = x.compact kernel level fuel true := by
  simp only [compactionIteration, IndexSession.compact, IndexSession.mergeLevel, exec_bind]
  by_cases large : maxCompactionNumber ≤ x.category.levelSize level
  · simp only [large, if_true]
    have read := readPending_indexOps kernel fuel (x.category.category level)
      CompactionLocals.new x.store
    rcases roots : (readRoots kernel (x.category.category level)).exec x.store with
      ⟨_ | bits, store⟩ <;> rw [roots] at read
    · rw [read]
      rfl
    · -- six tables or more were read, so the vector is not empty
      have lengths := (readPending_ids (indexOps kernel fuel) (congrArg Prod.fst read)).2
      rw [read]
      simp only [CompactionLocals.new, nil_append, length_nil, Nat.zero_add] at lengths
      have pending : bits.length ≠ 0 := by
        unfold BitCategory.levelSize maxCompactionNumber at large
        omega
      simp only [Prod.map, Except.map, CompactionLocals.new, nil_append, pending, if_false,
        indexOps, id]
      rcases (Bit.fromCompaction kernel fuel bits).exec store with ⟨_ | _ | bit, store⟩
      · rfl
      · rfl
      · simp only [IndexSession.replaceLevel]
        rcases x.category.addBit bit.toBitInfo (level + 1) true with ⟨_ | _, added⟩
        · rfl
        · simp only
          rcases added.releaseAll level _ with ⟨_ | _, released⟩ <;> rfl
  · simp only [large, if_false]
    rfl

theorem session_step {s : Lsm IndexStore BitInfo Bit Record} (tidy : Tidy s)
    (step : LsmStep Record) :
    ReflTransGen (IndexStep kernel) s.session (s.step (indexOps kernel fuel) step).session := by
  cases step with
  | insert lba record => exact .refl
  | minorCompaction =>
    rw [Lsm.step, session_minorCompaction]
    exact .single (.convert s.memtable true)
  | queueWork => exact .refl
  | compaction =>
    simp only [Lsm.step, compactionStep]
    split
    · exact .refl
    · next level locals running =>
      obtain rfl := tidy.idle level locals running
      split
      · next inside =>
        have compacted : IndexStep kernel s.session _ := .compact level fuel true (by omega)
        rw [← compactionIteration_indexOps] at compacted
        simp only [Lsm.session] at compacted
        generalize compactionIteration (indexOps kernel fuel) level s.bitCategory
          CompactionLocals.new s.store = outcome at compacted
        obtain ⟨_ | _, category, store⟩ := outcome <;> exact .single compacted
      · exact .refl

theorem session_run {s : Lsm IndexStore BitInfo Bit Record} (tidy : Tidy s)
    (steps : List (LsmStep Record)) :
    ReflTransGen (IndexStep kernel) s.session (s.run (indexOps kernel fuel) steps).session := by
  induction steps generalizing s with
  | nil => exact .refl
  | cons step steps ih =>
    exact (session_step kernel fuel tidy step).trans (ih (tidy.step (indexOps kernel fuel) step))

def SwornDiskContext.lsm (s : SwornDiskContext) : Lsm IndexStore BitInfo Bit Record where
  memtable := s.path.memtable
  bitCategory := s.path.checkpoint.bitCategory
  store := s.index
  worker := none

theorem convertMemtable_eq (s : SwornDiskContext) :
    ((convertMemtable kernel).exec s).map id lsm =
      minorCompaction (indexOps kernel fuel) s.lsm := by
  simp only [convertMemtable, minorCompaction, indexOps, onIndex, onPath, exec_bind, exec_get,
    exec_set, exec_ofExcept, lsm]
  rcases (Bit.fromMemtable kernel s.path.memtable).exec s.index with ⟨_ | bit, store⟩
  · rfl
  · simp only [Prod.map, Except.map, id]
    rcases s.path.checkpoint.bitCategory.addBit bit.toBitInfo 0 true with ⟨_ | _, category⟩ <;> rfl

theorem findPiece_eq (s : SwornDiskContext) (piece : Piece)
    (elsewhere : s.path.segment.readPart piece.lba piece.offset piece.len = .ok none) :
    ((findPiece kernel piece).exec s).1 =
      (findRecord (indexOps kernel fuel) s.lsm piece.lba).1 >>= fun found =>
        found.mapM fun record => readPieceWithRecord kernel s.path.dataDev record piece := by
  simp only [findPiece, exec_bind, exec_get, exec_ofExcept, elsewhere, findRecord, lsm]
  cases s.path.memtable.find piece.lba with
  | some record =>
    simp only [exec_bind, exec_ofExcept, ok_bind, Option.mapM_some]
    cases readPieceWithRecord kernel s.path.dataDev record piece <;> rfl
  | none =>
    rw [findInLevels_indexOps]
    simp only [onIndex, exec_bind, exec_get, exec_set, exec_ofExcept, findInCategory]
    rcases (findInTables kernel piece.lba _).exec s.index with ⟨_ | _ | record, store⟩
    · rfl
    · rfl
    · simp only [exec_bind, exec_ofExcept, ok_bind, Option.mapM_some]
      cases readPieceWithRecord kernel s.path.dataDev record piece <;> rfl

end SwornDisk.Rust
