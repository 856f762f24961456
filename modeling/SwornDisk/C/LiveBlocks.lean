import SwornDisk.C.FirstSegment

/-!
# Live blocks are not overwritten

While every write of a session is regular, neither a flush nor a threaded write nor a slot
of the segment buffer goes over the block of another address.  A buffer that is full while
no segment is free starts over in the segment that it has just written, and then it does.
-/

namespace SwornDisk.C

open Lib List Function Option

variable {K I M G : Type}

/-- No address but `lba` lives at `pba`. -/
def NoOther (tree : Nat → Option (Record K I M)) (pba lba : Nat) : Prop :=
  ∀ other record, tree other = some record → record.pba = pba → other = lba

/-- Every address that lives in the first `used` blocks of a segment is the one whose block
the slot of the buffer holds. -/
def HeldIn (tree : Nat → Option (Record K I M)) (segment used : Nat)
    (held : Nat → Option (SealedBlock K I)) : Prop :=
  ∀ lba record, tree lba = some record → blockToSegment record.pba = segment →
    blockOffsetWithinSegment record.pba < used →
      ∃ block, held (blockOffsetWithinSegment record.pba) = some block ∧ block.lba = lba

/-- Follows which block each slot of the buffer holds.  A slot is filled, and a block is
written, only where no other address lives, and a flush puts over the block of an address
only a block of that address. -/
def liveMonitor : Monitor (Effect K I M) (Nat → Option (SealedBlock K I)) where
  next held
    | .fill _ slot block _ => Function.update held slot (some block)
    | .write _ _ => held
    | .flush _ _ => held
  allows held
    | .fill segment slot block tree => NoOther tree (segment * blocksPerSegment + slot) block.lba
    | .write block tree => NoOther tree block.pba block.lba
    | .flush segment tree => HeldIn tree segment blocksPerSegment held

/-- The slots of the buffer hold the blocks of the addresses that live in them. -/
def BufferHeld (s : DmSwornDisk K I M G) (held : Nat → Option (SealedBlock K I)) : Prop :=
  HeldIn s.lsmTree s.segBuffer.curSegment (curBlock s) held

variable {s : DmSwornDisk K I M G} {lba : Nat} {record : Record K I M}

theorem Consistent.offset_lt {used : Nat} (c : Consistent s s.lsmTree used)
    (mapped : s.lsmTree lba = some record)
    (segment : blockToSegment record.pba = s.segBuffer.curSegment) :
    blockOffsetWithinSegment record.pba < used := by
  by_contra beyond
  refine c.reservedFree _ (Nat.not_lt.mp beyond) (blockOffset_lt _) lba record mapped ?_
  rw [slotAddr, ← segment, blkaddr_eq]

theorem Consistent.noOther_slot (c : Consistent s s.lsmTree (curBlock s)) (ba : BufferAligned s)
    (lba : Nat) :
    NoOther s.lsmTree (s.segBuffer.curSegment * blocksPerSegment + curBlock s) lba :=
  fun other record mapped here =>
    absurd here (c.reservedFree (curBlock s) le_rfl ba.room other record mapped)

variable {held : Nat → Option (SealedBlock K I)}

theorem BufferHeld.fill (env : Env K I M G) (holds : BufferHeld s held)
    (c : Consistent s s.lsmTree (curBlock s)) (ba : BufferAligned s) (key : lba < 2 ^ 32)
    (data : Block) :
    HeldIn (update s.lsmTree lba (some (newRecord env s (slotAddr s (curBlock s)) data)))
      s.segBuffer.curSegment (curBlock s + 1)
      (update held (curBlock s)
        (some (pushBlock env s lba (slotAddr s (curBlock s)) data))) := by
  intro other record mapped segment filled
  by_cases same : other = lba
  · subst same
    rw [update_self] at mapped
    obtain rfl := some.inj mapped
    refine ⟨pushBlock env s other (slotAddr s (curBlock s)) data, ?_, lsmKey_of_lt key⟩
    simp only [newRecord, slotAddr_offset ba.room, update_self]
  · rw [update_of_ne same] at mapped
    have before := c.offset_lt mapped segment
    rw [update_of_ne (Nat.ne_of_lt before)]
    exact holds other record mapped segment before

variable {env : Env K I M G} {data : Block}

theorem BufferHeld.logged {t : DmSwornDisk K I M G} (c : Consistent s s.lsmTree (curBlock s))
    (ba : BufferAligned s) (key : lba < 2 ^ 32) (push : LoggedTo env s lba data t) :
    liveMonitor.Tracks BufferHeld s (loggedEffects env s t lba data) t := by
  intro held holds
  have filled := holds.fill env c ba key data
  rw [← push.lsmTree_eq key] at filled
  have allowed := c.noOther_slot ba (lsmKey lba)
  cases push with
  | advance room =>
    have notFull : ¬ curBlock s + 1 = blocksPerSegment := Nat.ne_of_lt room
    rw [loggedEffects, if_neg notFull]
    refine ⟨⟨allowed, trivial⟩, ?_⟩
    rw [BufferHeld, curBlock_bumpBuffer, curBlock_loggedBlock]
    change HeldIn _ (loggedBlock env s lba data).segBuffer.curSegment _ _
    rw [loggedBlock_curSegment]
    exact filled
  | @allocate seg full found =>
    rw [full] at filled
    rw [loggedEffects, if_pos full]
    refine ⟨⟨allowed, filled, trivial⟩, ?_⟩
    rw [BufferHeld, curBlock_allocSegment, curBlock_rewindBuffer]
    exact fun _ _ _ _ below => absurd below (Nat.not_lt_zero _)

theorem BufferHeld.threaded {victim : Victim} (c : Consistent s s.lsmTree (curBlock s))
    (ba : BufferAligned s) (key : lba < 2 ^ 32) (member : victim ∈ (returnOld s lba).dst.victims)
    (elsewhere : victim.segno ≠ s.segBuffer.curSegment) :
    liveMonitor.Tracks BufferHeld s (threadedEffects env s lba data victim)
      (threadedBlock env s lba data victim) := by
  intro held holds
  obtain ⟨inVictim, -⟩ := (c.returnOld lba).wf.threadedAddr member
  have tree := threadedBlock_lsmTree env s key data victim
  refine ⟨⟨c.noOther_slot ba (lsmKey lba), ?_, trivial⟩, ?_⟩
  · intro other record mapped here
    rw [tree] at mapped
    by_contra distinct
    have other_ne : other ≠ lba := fun same => distinct (same.trans (lsmKey_of_lt key).symm)
    rw [update_of_ne other_ne] at mapped
    exact c.threadedAddr_unowned key member other_ne mapped here
  · rw [BufferHeld, threadedBlock_curBlock, threadedBlock_curSegment, tree]
    intro other record mapped inBuffer below
    by_cases same : other = lba
    · subst same
      rw [update_self] at mapped
      obtain rfl := some.inj mapped
      exact absurd (inVictim.symm.trans inBuffer) elsewhere
    · rw [update_of_ne same] at mapped
      obtain ⟨block, here, owner⟩ := holds other record mapped inBuffer below
      refine ⟨block, ?_, owner⟩
      exact (update_of_ne (Nat.ne_of_lt below) _ _).trans here

theorem BufferHeld.modified (c : Consistent s s.lsmTree (curBlock s))
    (mapped : s.lsmTree lba = some record)
    (segment : blockToSegment record.pba = s.segBuffer.curSegment) :
    liveMonitor.Tracks BufferHeld s
      [.fill s.segBuffer.curSegment (blockOffsetWithinSegment record.pba)
        ⟨lba, record.key, record.iv, record.pba, data⟩ s.lsmTree]
      (resealSlot env s lba record data) := by
  intro held holds
  refine ⟨⟨?_, trivial⟩, ?_⟩
  · intro other kept otherMapped here
    rw [← segment, blkaddr_eq] at here
    exact c.lba_eq otherMapped mapped here
  · intro other kept otherMapped inBuffer below
    obtain ⟨before, mappedBefore, samePba⟩ := resealSlot_pba mapped otherMapped
    rw [samePba] at inBuffer below ⊢
    by_cases same : other = lba
    · subst same
      obtain rfl : record = before := some.inj (mapped.symm.trans mappedBefore)
      exact ⟨⟨other, record.key, record.iv, record.pba, data⟩, update_self .., rfl⟩
    · obtain ⟨block, here, owner⟩ := holds other before mappedBefore inBuffer below
      have slot := c.offset_ne mapped segment same mappedBefore inBuffer
      exact ⟨block, (update_of_ne slot _ _).trans here, owner⟩

theorem watches_live (env : Env K I M G) : Watches env liveMonitor BufferHeld where
  congr := by
    intro s t held holds tree segment sector _
    have blocks : curBlock t = curBlock s := by rw [curBlock, sector, curBlock]
    rw [BufferHeld, tree, segment, blocks]
    exact holds
  logged := BufferHeld.logged
  threaded := BufferHeld.threaded
  modified := fun c _ mapped segment _ => BufferHeld.modified c mapped segment
  unmounted := fun c _ holds lba record mapped segment _ =>
    holds lba record mapped segment (c.offset_lt mapped segment)

/-- A session of regular writes on a new device returns, its trace is what happened to the
pipe and the device, and nothing in it goes over the block of another address. -/
theorem live_blocks_kept {env : Env K I M G} {nrSegment : Nat} {dataDev : Nat → G}
    {s : DmSwornDisk K I M G} {bios : List Bio} (enough : nrSegment ≤ env.gcFuel)
    (mounted : mount env (format nrSegment dataDev) = some s) (safe : WritesSafe env s bios) :
    ∃ t, runWrites env s bios = some t ∧
      (unmount t).media = replay env s.media (sessionEffects env s bios) ∧
      liveMonitor.Accepts (fun _ => none) (sessionEffects env s bios) := by
  obtain ⟨running, tree, blocks⟩ := running_format enough mounted
  obtain ⟨t, ran⟩ := running.runWrites safe
  refine ⟨t, ran, sessionEffects_media ran, (watches_live env).session running safe ?_⟩
  intro lba record mapped
  rw [tree] at mapped
  exact absurd mapped (by simp)

/-- On a device of 64 segments, the write of address 5 after the first segment is full goes
to the next segment. -/
theorem live_blocks_kept_flushed :
    ∃ s t, mount plainEnv (format 64 fun _ => zeroBlock) = some s ∧
      runWrites plainEnv s (firstBios (fun _ => zeroBlock) blocksPerSegment ++
        [blockBio 5 zeroBlock]) = some t ∧
      liveMonitor.Accepts (fun _ => none) (sessionEffects plainEnv s
        (firstBios (fun _ => zeroBlock) blocksPerSegment ++ [blockBio 5 zeroBlock])) := by
  have short : (firstBios (fun _ => zeroBlock) blocksPerSegment ++
      [blockBio 5 zeroBlock]).length ≤ 2 * blocksPerSegment := by
    rw [length_append, length_firstBios]
    decide
  generalize firstBios (fun _ => zeroBlock) blocksPerSegment ++ [blockBio 5 zeroBlock] = bios at *
  obtain ⟨mounted, safe⟩ := writesSafe_firstMount plainEnv (fun _ => zeroBlock)
    (by decide) short
  obtain ⟨t, ran, -, accepts⟩ := live_blocks_kept (by decide) mounted safe
  exact ⟨_, t, mounted, ran, accepts⟩

/-- On a device of one segment, the write of address 5 after the segment is full goes over
the block of address 0. -/
theorem not_live_blocks_kept_full_device :
    ∃ s t, mount plainEnv (format 1 fun _ => zeroBlock) = some s ∧
      runWrites plainEnv s (firstBios (fun _ => zeroBlock) blocksPerSegment ++
        [blockBio 5 zeroBlock]) = some t ∧
      ¬ liveMonitor.Accepts (fun _ => none) (sessionEffects plainEnv s
        (firstBios (fun _ => zeroBlock) blocksPerSegment ++ [blockBio 5 zeroBlock])) := by
  have mounted := mount_format plainEnv (fun _ => zeroBlock) (by decide)
    (by decide : 1 ≤ gcThreshold 1)
  obtain ⟨full, ran, wrapped, -⟩ :=
    wrappedAround_run plainEnv (fun _ => zeroBlock) fun _ => zeroBlock
  obtain ⟨t, wrote, -, -, -, effects⟩ := wrapped.write (by decide : 5 < 2 ^ 29) zeroBlock
  refine ⟨_, t, mounted, ?_, ?_⟩
  · rw [runWrites_append, ran, bind_some, runWrites_singleton, wrote]
  · rw [(writesEffects_append ran _).2, Monitor.accepts_append]
    rw [sessionEffects_cons wrote, effects, cons_append]
    -- The first event fills slot 0, where address 0 lives, with the block of address 5.
    have first : firstTree plainEnv (fun _ => zeroBlock) blocksPerSegment 0 =
        some (firstRecord plainEnv (fun _ => zeroBlock) 0) := if_pos (by decide)
    have distinct : 0 ≠ lsmKey 5 := by decide
    exact fun accepts => distinct (accepts.2.1 0 _ first rfl)

end SwornDisk.C
