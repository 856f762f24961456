import SwornDisk.C.DataWatch

/-!
# The first segment of a new device

Writes of whole blocks to the addresses 0, 1, 2, … fill the first segment of a new device
in order.  The state after them and their trace are known exactly.
-/

namespace SwornDisk.C

open List Function Option

variable {K I M G : Type}

def firstBlockOf (env : Env K I M G) (data : Nat → Block) (lba : Nat) : SealedBlock K I :=
  ⟨lba, (env.random lba).1, (env.random lba).2, lba, data lba⟩

def sectorBio (sector : Nat) (page : Sector) : Bio where
  sector := sector
  pages := [page]
  nonempty := List.cons_ne_nil _ _
  inBlock := Nat.mod_lt sector (by decide)

theorem bioGetBlockAddress_blockBio {lba : Nat} (small : lba < 2 ^ 29) (block : Block) :
    bioGetBlockAddress (blockBio lba block) = lba := by
  simp only [bioGetBlockAddress, toUnsignedInt, blockBio, sectorsPerBlock]
  omega

section

variable (env : Env K I M G) (s : DmSwornDisk K I M G) (lba : Nat) (block : Block)

theorem bioEffects_blockBio :
    bioEffects env s (blockBio lba block) =
      segbufPushBlockEffects env (fillSlot s block) (bioGetBlockAddress (blockBio lba block))
        block := by
  unfold bioEffects
  simp only [modifiesBuffer_blockBio, bioGetData_blockBio, Bool.false_eq_true, if_false]
  cases lsmSearch s (bioGetBlockAddress (blockBio lba block)) with
  | none => rfl
  | some record => rfl

theorem sworndiskDoWrite_blockBio :
    sworndiskDoWrite env s (blockBio lba block) =
      (segbufPushBlock env (saForegroundGc env) (fillSlot s block)
        (bioGetBlockAddress (blockBio lba block)) block).map bioPrefetcherClear := by
  rw [sworndiskDoWrite, segbufPushBio_fill env (modifiesBuffer_blockBio s lba block),
    fillBuffer_eq, bioGetData_blockBio]

end

namespace FirstBlocks

variable {env : Env K I M G} {data : Nat → Block} {s t : DmSwornDisk K I M G} {n : Nat}
  (f : FirstBlocks env data s n t)
include f

theorem fillSlot (block : Block) : FirstBlocks env data s n (C.fillSlot t block) := by
  obtain ⟨plain, o⟩ := f.inOrder
  refine ⟨⟨plain, o.fillSlot block⟩, f.nrSegment, f.filled, f.curSegment, f.segAllocator,
    f.segValidator, f.dst, f.nrRecord, f.lsmTree, ?_⟩
  intro slot below
  change update t.segBuffer.buffer (curBlock t) block slot = data slot
  rw [f.filled, update_of_ne (Nat.ne_of_lt below)]
  exact f.buffered slot below

theorem pushEffects_eq (logged : sworndiskShouldThreadedLogging s = false) (key : n < 2 ^ 32) :
    pushEffects env t n (data n) =
      .fill 0 n (firstBlockOf env data n) (firstTree env data n) ::
        if n + 1 = blocksPerSegment then [.flush 0 (firstTree env data (n + 1))] else [] := by
  obtain ⟨plain, o⟩ := f.inOrder
  rw [pushEffects_logged o.aligned (f.threaded_eq.trans logged) rfl, loggedEffects,
    f.tree_succ key, f.filled, f.curSegment, f.lsmTree]
  simp only [pushBlock, firstBlockOf, f.nrRecord, slotAddr, f.curSegment, lsmKey_of_lt key,
    Nat.zero_mul, Nat.zero_add]

theorem write (logged : sworndiskShouldThreadedLogging s = false)
    (room : n + 1 < blocksPerSegment) :
    ∃ t', sworndiskDoWrite env t (blockBio n (data n)) = some t' ∧
      FirstBlocks env data s (n + 1) t' ∧
      bioEffects env t (blockBio n (data n)) =
        [.fill 0 n (firstBlockOf env data n) (firstTree env data n)] := by
  have small : n < 2 ^ 29 := by
    unfold blocksPerSegment at room
    omega
  have address := bioGetBlockAddress_blockBio small (data n)
  have filled := f.fillSlot (data n)
  obtain ⟨t', pushes, next⟩ := filled.push logged room
  obtain ⟨plain, o⟩ := next.inOrder
  refine ⟨bioPrefetcherClear t', ?_, { next with inOrder := ⟨plain, o.withPrefetcher _⟩ }, ?_⟩
  · rw [sworndiskDoWrite_blockBio, address, pushes, map_some]
  · rw [bioEffects_blockBio, address, segbufPushBlockEffects, collectionStart_of_returns pushes,
      filled.pushEffects_eq logged (by omega), if_neg (Nat.ne_of_lt room)]
    rfl

end FirstBlocks

/-- The trace of the writes of the addresses below `n`. -/
def firstEffects (env : Env K I M G) (data : Nat → Block) (n : Nat) : List (Effect K I M) :=
  (List.range n).map fun lba => .fill 0 lba (firstBlockOf env data lba) (firstTree env data lba)

theorem firstEffects_succ (env : Env K I M G) (data : Nat → Block) (n : Nat) :
    firstEffects env data (n + 1) = firstEffects env data n ++
      [.fill 0 n (firstBlockOf env data n) (firstTree env data n)] := by
  rw [firstEffects, range_succ, map_append]
  rfl

variable {env : Env K I M G} {data : Nat → Block} {s : DmSwornDisk K I M G} {n : Nat}

/-- The writes of the addresses below `n` fill the first slots of the buffer. -/
theorem FirstBlocks.run (start : FirstBlocks env data s 0 s)
    (logged : sworndiskShouldThreadedLogging s = false) (bound : n < blocksPerSegment) :
    ∃ t, runWrites env s (firstBios data n) = some t ∧ FirstBlocks env data s n t ∧
      writesEffects env s (firstBios data n) = firstEffects env data n := by
  induction n with
  | zero => exact ⟨s, rfl, start, rfl⟩
  | succ n ih =>
    obtain ⟨t, ran, f, trace⟩ := ih (by omega)
    obtain ⟨t', wrote, f', effects⟩ := f.write logged bound
    refine ⟨t', ?_, f', ?_⟩
    · rw [firstBios_succ, runWrites_append, ran, bind_some, runWrites_singleton, wrote]
    · rw [firstBios_succ, (writesEffects_append ran _).1, trace, writesEffects_singleton wrote,
        effects, firstEffects_succ]

/-- The state after the first segment was filled and flushed: the buffer is at the start of
another segment, with the old contents in its slots. -/
structure NextSegment (env : Env K I M G) (data : Nat → Block) (t : DmSwornDisk K I M G) :
    Prop where
  inOrder : ∃ plain, InOrder env plain t
  empty : curBlock t = 0
  lsmTree : t.lsmTree = firstTree env data blocksPerSegment
  buffered : ∀ slot < blocksPerSegment, t.segBuffer.buffer slot = data slot
  few : t.segAllocator.nrValidSegment < threadedThreshold t.nrSegment
  drained : t.prefetcher.last = 0

variable {t : DmSwornDisk K I M G}

theorem FirstBlocks.writeNext (f : FirstBlocks env data s n t)
    (few : s.segAllocator.nrValidSegment + 1 < threadedThreshold s.nrSegment)
    (quiet : s.segAllocator.nrValidSegment + 1 ≤ gcThreshold s.nrSegment)
    (free : ∃ seg < s.nrSegment, segmentValid s seg = false) (last : n + 1 = blocksPerSegment) :
    ∃ t', sworndiskDoWrite env t (blockBio n (data n)) = some t' ∧ NextSegment env data t' ∧
      t'.nrSegment = s.nrSegment := by
  have small : n < 2 ^ 29 := by
    unfold blocksPerSegment at last
    omega
  have key : n < 2 ^ 32 := by omega
  have address := bioGetBlockAddress_blockBio small (data n)
  have filled := f.fillSlot (data n)
  obtain ⟨plain, o⟩ := filled.inOrder
  obtain ⟨seg, bound, clear⟩ := free
  have freeNow : segmentValid (C.fillSlot t (data n)) seg = false := by
    rw [segmentValid, filled.segValidator]
    exact clear
  obtain ⟨u, push, pushes⟩ := o.consistent.push_cases o.aligned env
    (filled.threaded_eq.trans (if_pos (Nat.lt_of_succ_lt few))) key (data n)
    fun _ => ⟨seg, filled.nrSegment.symm ▸ bound, freeNow⟩
  obtain ⟨inOrder, frame⟩ := o.of_loggedTo push key
  have moved : curBlock u = 0 ∧ u.lsmTree = firstTree env data (n + 1) ∧
      (∀ slot < n + 1, u.segBuffer.buffer slot = data slot) ∧
      u.segAllocator.nrValidSegment = s.segAllocator.nrValidSegment + 1 := by
    cases push with
    | advance room =>
      rw [filled.filled, last] at room
      exact absurd room (Nat.lt_irrefl _)
    | allocate =>
      refine ⟨by rw [curBlock_allocSegment, curBlock_rewindBuffer], filled.tree_succ key,
        filled.buffered_succ, ?_⟩
      simp only [allocSegment, rewindBuffer, segbufFlushBios, loggedBlock_segAllocator,
        filled.segAllocator]
  rw [last] at moved
  obtain ⟨empty, tree, buffered, inUse⟩ := moved
  have nrSegment : u.nrSegment = s.nrSegment := frame.nrSegment.trans f.nrSegment
  have idle : ¬ saWillTriggerGc u = true := by
    rw [saWillTriggerGc, decide_eq_true_eq, nrSegment, inUse]
    exact Nat.not_lt.mpr quiet
  have pushed := pushes (saForegroundGc env)
  rw [if_neg fun collects => idle collects.2.1] at pushed
  refine ⟨bioPrefetcherClear u, ?_,
    ⟨⟨_, inOrder.withPrefetcher _⟩, empty, tree, buffered, ?_, rfl⟩, nrSegment⟩
  · rw [sworndiskDoWrite_blockBio, address, pushed, map_some]
  · change u.segAllocator.nrValidSegment < threadedThreshold u.nrSegment
    rw [inUse, nrSegment]
    exact few

theorem nextSegment_run (env : Env K I M G) (data : Nat → Block) (dataDev : Nat → G) :
    ∃ t, runWrites env (firstMount env 64 dataDev) (firstBios data blocksPerSegment) = some t ∧
      NextSegment env data t ∧ t.nrSegment = 64 := by
  have positive : 0 < 64 := by decide
  have quiet : 1 ≤ gcThreshold 64 := by decide
  have start := firstBlocks_firstMount env data dataDev positive quiet
  have few :
      (firstMount env 64 dataDev).segAllocator.nrValidSegment + 1 < threadedThreshold 64 := by
    rw [firstMount_segAllocator]
    decide
  have below : (firstMount env 64 dataDev).segAllocator.nrValidSegment + 1 ≤ gcThreshold 64 := by
    rw [firstMount_segAllocator]
    decide
  have bound : 1023 < blocksPerSegment := by decide
  have second : 1 < 64 := by decide
  obtain ⟨filled, ran, f, -⟩ := start.run (if_pos (Nat.lt_of_succ_lt few)) bound
  obtain ⟨t, wrote, next, nrSegment⟩ := f.writeNext few below
    ⟨1, second, update_of_ne Nat.one_ne_zero true fun _ => false⟩ rfl
  have blocks : blocksPerSegment = 1023 + 1 := rfl
  have bios := firstBios_succ data 1023
  rw [← blocks] at bios
  refine ⟨t, ?_, next, nrSegment⟩
  rw [bios, runWrites_append, ran, bind_some, runWrites_singleton, wrote]

theorem FirstBlocks.writeLast (f : FirstBlocks env data s n t)
    (few : s.segAllocator.nrValidSegment < threadedThreshold s.nrSegment)
    (full : ∀ seg < s.segValidator.nrSegment, s.segValidator.segValidityTable seg = true)
    (last : n + 1 = blocksPerSegment) :
    ∃ t', sworndiskDoWrite env t (blockBio n (data n)) = some t' ∧ WrappedAround env data t' ∧
      bioEffects env t (blockBio n (data n)) =
        [.fill 0 n (firstBlockOf env data n) (firstTree env data n),
          .flush 0 (firstTree env data blocksPerSegment)] := by
  have small : n < 2 ^ 29 := by
    unfold blocksPerSegment at last
    omega
  have address := bioGetBlockAddress_blockBio small (data n)
  have filled := f.fillSlot (data n)
  obtain ⟨t', pushes, w⟩ := filled.pushLast few full last
  have effects := filled.pushEffects_eq (if_pos few) (by omega)
  rw [if_pos last, last] at effects
  refine ⟨bioPrefetcherClear t', ?_, { w with }, ?_⟩
  · rw [sworndiskDoWrite_blockBio, address, pushes, map_some]
  · rw [bioEffects_blockBio, address, segbufPushBlockEffects, collectionStart_of_returns pushes,
      effects]
    rfl

theorem WrappedAround.write (w : WrappedAround env data t) {lba : Nat} (small : lba < 2 ^ 29)
    (block : Block) :
    ∃ t', sworndiskDoWrite env t (blockBio lba block) = some t' ∧
      t'.segBuffer.curSegment = 0 ∧ t'.segBuffer.curSector = sectorsPerBlock ∧
      t'.lsmTree = update (firstTree env data blocksPerSegment) lba
        (some (newRecord env t 0 block)) ∧
      bioEffects env t (blockBio lba block) =
        [.fill 0 0 (pushBlock env t lba 0 block) (firstTree env data blocksPerSegment)] := by
  have key : lba < 2 ^ 32 := by omega
  have address := bioGetBlockAddress_blockBio small block
  have filled : WrappedAround env data (fillSlot t block) := { w with }
  obtain ⟨t', pushes, segment, sector, tree⟩ := filled.push key block
  refine ⟨bioPrefetcherClear t', ?_, segment, sector, tree, ?_⟩
  · rw [sworndiskDoWrite_blockBio, address, pushes, map_some]
  · have blocks : curBlock (fillSlot t block) = 0 := by
      rw [curBlock, filled.sector, Nat.zero_div]
    have aligned : BufferAligned (fillSlot t block) := by
      refine ⟨?_, by rw [blocks]; decide⟩
      rw [blocks]
      exact w.sector
    have notFull : ¬ 0 + 1 = blocksPerSegment := by decide
    rw [bioEffects_blockBio, address, segbufPushBlockEffects, collectionStart_of_returns pushes,
      pushEffects_logged aligned filled.logged rfl, loggedEffects, blocks, slotAddr,
      filled.curSegment, filled.lsmTree, if_neg notFull]
    rfl

theorem wrappedAround_run (env : Env K I M G) (data : Nat → Block) (dataDev : Nat → G) :
    ∃ t, runWrites env (firstMount env 1 dataDev) (firstBios data blocksPerSegment) = some t ∧
      WrappedAround env data t ∧
      writesEffects env (firstMount env 1 dataDev) (firstBios data blocksPerSegment) =
        firstEffects env data blocksPerSegment ++
          [.flush 0 (firstTree env data blocksPerSegment)] := by
  have positive : 0 < 1 := by decide
  have quiet : 1 ≤ gcThreshold 1 := by decide
  have start := firstBlocks_firstMount env data dataDev positive quiet
  have few := firstMount_few env dataDev (by decide : 1 < threadedThreshold 1)
  have bound : 1023 < blocksPerSegment := by decide
  obtain ⟨filled, ran, f, trace⟩ := start.run (if_pos few) bound
  obtain ⟨t, wrote, wrapped, effects⟩ := f.writeLast few (firstMount_full env dataDev) rfl
  have blocks : blocksPerSegment = 1023 + 1 := rfl
  have bios := firstBios_succ data 1023
  have fills := firstEffects_succ env data 1023
  rw [← blocks] at bios fills
  refine ⟨t, ?_, wrapped, ?_⟩
  · rw [bios, runWrites_append, ran, bind_some, runWrites_singleton, wrote]
  · rw [bios, (writesEffects_append ran _).1, trace, writesEffects_singleton wrote, effects, fills,
      append_assoc]
    rfl

end SwornDisk.C
