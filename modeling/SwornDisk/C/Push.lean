import SwornDisk.C.Consistency

/-!
# A push and the sealed data

What a block pushed into the segment buffer leads to: the buffer advances, or it is
flushed and moves to a free segment.  Both outcomes keep the tables consistent, keep
every address sealed with its plaintext, and leave no block marked valid that was
not so before.
-/

namespace SwornDisk.C

open Lib Function

variable {lba : Nat} {data : Block}

variable {K I M G : Type}

/-- The block as the data path sees it when the first `used` slots of the segment
buffer are filled. -/
def bufferedRead (s : DmSwornDisk K I M G) (used blkaddr : Nat) : G :=
  if blockToSegment blkaddr = s.segBuffer.curSegment ∧ blockOffsetWithinSegment blkaddr < used then
    s.segBuffer.pipe (blockOffsetWithinSegment blkaddr)
  else s.dataDev blkaddr

/-- Every record seals the plaintext of its address at its block, and the filled
slots of the buffer hold that plaintext. -/
structure Sealed (env : Env K I M G) (s : DmSwornDisk K I M G)
    (tree : Nat → Option (Record K I M)) (plain : Nat → Block) (used : Nat) : Prop where
  cipher : ∀ lba record, tree lba = some record →
    env.aead.encrypt record.key record.iv record.pba (plain lba) =
      (bufferedRead s used record.pba, record.mac)
  buffered : ∀ lba record, tree lba = some record →
    blockToSegment record.pba = s.segBuffer.curSegment →
      blockOffsetWithinSegment record.pba < used →
        s.segBuffer.buffer (blockOffsetWithinSegment record.pba) = plain lba

structure BufferAligned (s : DmSwornDisk K I M G) : Prop where
  aligned : s.segBuffer.curSector = sectorsPerBlock * curBlock s
  room : curBlock s < blocksPerSegment

variable {s : DmSwornDisk K I M G}

theorem inSegmentBuffer_iff (room : curBlock s ≤ blocksPerSegment) (blkaddr : Nat) :
    inSegmentBuffer s blkaddr = true ↔
      blockToSegment blkaddr = s.segBuffer.curSegment ∧
        blockOffsetWithinSegment blkaddr < curBlock s := by
  simp only [inSegmentBuffer, Bool.and_eq_true, decide_eq_true_eq]
  unfold blockToSegment blockOffsetWithinSegment
  unfold blocksPerSegment at *
  omega

theorem sworndiskReadBlock_eq (room : curBlock s ≤ blocksPerSegment) (blkaddr : Nat) :
    sworndiskReadBlock s blkaddr = bufferedRead s (curBlock s) blkaddr := by
  have inside := inSegmentBuffer_iff room blkaddr
  simp only [inSegmentBuffer, Bool.and_eq_true, decide_eq_true_eq] at inside
  simp only [sworndiskReadBlock, segbufQueryEncryptedBlock, bufferedRead, ← inside]
  split
  · rename_i outside
    rw [if_neg (by omega)]
    rfl
  · rename_i within
    have region : s.segBuffer.curSegment * blocksPerSegment ≤ blkaddr ∧
        blkaddr < s.segBuffer.curSegment * blocksPerSegment + curBlock s := by omega
    rw [if_pos region]
    have address := blkaddr_eq blkaddr
    rw [(inside.mp region).1] at address
    have offset : blkaddr - s.segBuffer.curSegment * blocksPerSegment =
        blockOffsetWithinSegment blkaddr := by omega
    rw [offset]
    rfl

/-- The filled slots of the buffer and the blocks of all segments in use. -/
def ledger (s : DmSwornDisk K I M G) : Nat :=
  curBlock s + blocksPerSegment * s.segAllocator.nrValidSegment

def bumpBuffer (s : DmSwornDisk K I M G) : DmSwornDisk K I M G :=
  { s with segBuffer := { s.segBuffer with
    curSector := s.segBuffer.curSector + sectorsPerBlock } }

def rewindBuffer (s : DmSwornDisk K I M G) : DmSwornDisk K I M G :=
  { segbufFlushBios s with segBuffer := { s.segBuffer with curSector := 0 } }

/-- The two regular outcomes of pushing a block into the segment buffer. -/
inductive LoggedTo (env : Env K I M G) (s : DmSwornDisk K I M G) (lba : Nat) (data : Block) :
    DmSwornDisk K I M G → Prop
  | advance (room : curBlock s + 1 < blocksPerSegment) :
      LoggedTo env s lba data (bumpBuffer (loggedBlock env s lba data))
  | allocate {seg : Nat} (full : curBlock s + 1 = blocksPerSegment)
      (found : (segValidatorNext s.segValidator).1 = .ok seg) :
      LoggedTo env s lba data
        (allocSegment (rewindBuffer (loggedBlock env s lba data)) seg)

section

variable (env : Env K I M G) (s : DmSwornDisk K I M G) (lba : Nat) (data : Block)

@[simp] theorem loggedBlock_segValidator :
    (loggedBlock env s lba data).segValidator = s.segValidator := by
  simp [loggedBlock, sealBlock]

@[simp] theorem loggedBlock_segAllocator :
    (loggedBlock env s lba data).segAllocator = s.segAllocator := by
  simp [loggedBlock, sealBlock]

@[simp] theorem loggedBlock_dst : (loggedBlock env s lba data).dst = (returnOld s lba).dst :=
  rfl

@[simp] theorem loggedBlock_nrSegment : (loggedBlock env s lba data).nrSegment = s.nrSegment := by
  simp [loggedBlock, sealBlock]

@[simp] theorem loggedBlock_dataDev : (loggedBlock env s lba data).dataDev = s.dataDev := by
  simp [loggedBlock, sealBlock]

@[simp] theorem loggedBlock_curSegment :
    (loggedBlock env s lba data).segBuffer.curSegment = s.segBuffer.curSegment := by
  simp [loggedBlock, sealBlock]

@[simp] theorem loggedBlock_curSector :
    (loggedBlock env s lba data).segBuffer.curSector = s.segBuffer.curSector := by
  simp [loggedBlock, sealBlock]

theorem loggedBlock_buffer :
    (loggedBlock env s lba data).segBuffer.buffer =
      update s.segBuffer.buffer (curBlock s) data := by
  simp [loggedBlock, sealBlock, curBlock]

theorem loggedBlock_pipe :
    (loggedBlock env s lba data).segBuffer.pipe =
      update s.segBuffer.pipe (curBlock s)
        (env.aead.encrypt (env.random s.nrRecord).1 (env.random s.nrRecord).2
          (slotAddr s (curBlock s)) data).1 := by
  simp [loggedBlock, sealBlock, curBlock, newRecord]

end

section

variable (gc : DmSwornDisk K I M G → Option (DmSwornDisk K I M G))

theorem advanceBuffer_flush
    (overflows : sectorsPerSegment ≤ s.segBuffer.curSector + sectorsPerBlock) :
    advanceBuffer gc s = (saAlloc gc (rewindBuffer s)).map Prod.snd := by
  simp only [advanceBuffer, overflows, if_true]
  rfl

theorem advanceBuffer_room (under : ¬ sectorsPerSegment ≤ s.segBuffer.curSector + sectorsPerBlock) :
    advanceBuffer gc s = some (bumpBuffer s) := by
  simp only [advanceBuffer, under, if_false]
  rfl

end

/-- Without threaded logging, and with a free segment for a full buffer, a push has
one of the two outcomes; a full buffer may also start a collection. -/
theorem Consistent.push_cases (c : Consistent s s.lsmTree (curBlock s)) (ba : BufferAligned s)
    (env : Env K I M G) (logged : sworndiskShouldThreadedLogging s = false) (key : lba < 2 ^ 32)
    (data : Block)
    (room : curBlock s + 1 = blocksPerSegment → ∃ seg < s.nrSegment, segmentValid s seg = false) :
    ∃ t, LoggedTo env s lba data t ∧
      ∀ gc, segbufPushBlock env gc s lba data =
        if curBlock s + 1 = blocksPerSegment ∧ saWillTriggerGc t = true ∧
            s.segAllocator.status ≠ .cleaning then gc t
        else some t := by
  have aligned := ba.aligned
  have slots := ba.room
  by_cases full : curBlock s + 1 = blocksPerSegment
  · obtain ⟨seg, bound, free⟩ := room full
    obtain ⟨found, ok⟩ := segValidatorNext_isOk_of_clear (c.nrSvt ▸ bound) free
    obtain ⟨inside, clear⟩ := segValidatorNext_ok ok
    have pushed := c.loggedBlock slots env key data
    have empty := pushed.free found
      (by rw [loggedBlock_nrSegment, ← c.nrSvt]; exact inside)
      (by simpa [segmentValid] using clear)
    have foundLater : (segValidatorNext
        (rewindBuffer (C.loggedBlock env s lba data)).segValidator).1 = .ok found := by
      simpa [rewindBuffer, segbufFlushBios] using ok
    have inDst : found < (rewindBuffer (C.loggedBlock env s lba data)).dst.nrSegment := by
      have := pushed.nrDst
      simp only [loggedBlock_nrSegment] at this
      simp only [rewindBuffer, segbufFlushBios, this, ← c.nrSvt]
      exact inside
    refine ⟨_, .allocate full ok, fun gc => ?_⟩
    rw [segbufPushBlock_logged env gc logged]
    have overflows : sectorsPerSegment ≤
        (C.loggedBlock env s lba data).segBuffer.curSector + sectorsPerBlock := by
      rw [loggedBlock_curSector, aligned]
      unfold blocksPerSegment at full
      unfold sectorsPerSegment sectorsPerBlock
      omega
    rw [advanceBuffer_flush gc overflows, saAlloc_eq gc foundLater inDst empty]
    have status : (rewindBuffer (C.loggedBlock env s lba data)).segAllocator.status =
        s.segAllocator.status := by
      simp [rewindBuffer, segbufFlushBios]
    rw [status]
    by_cases triggered : saWillTriggerGc
        (C.allocSegment (rewindBuffer (C.loggedBlock env s lba data)) found) = true
    · by_cases cleaning : s.segAllocator.status = .cleaning
      · simp [full, triggered, cleaning]
      · simp only [triggered, full, cleaning, Bool.true_and, bne_iff_ne, ne_eq, not_false_iff,
          if_true, and_self]
        cases gc (C.allocSegment (rewindBuffer (C.loggedBlock env s lba data)) found) <;> rfl
    · simp [triggered]
  · refine ⟨_, .advance (by omega), fun gc => ?_⟩
    rw [segbufPushBlock_logged env gc logged]
    have under : ¬ sectorsPerSegment ≤
        (C.loggedBlock env s lba data).segBuffer.curSector + sectorsPerBlock := by
      rw [loggedBlock_curSector, aligned]
      unfold blocksPerSegment at full slots
      unfold sectorsPerSegment sectorsPerBlock
      omega
    rw [advanceBuffer_room gc under, if_neg fun collects => full collects.1]

theorem curBlock_bumpBuffer (s : DmSwornDisk K I M G) :
    curBlock (bumpBuffer s) = curBlock s + 1 := by
  simp only [curBlock, bumpBuffer]
  unfold sectorsPerBlock
  omega

theorem curBlock_loggedBlock (env : Env K I M G) (s : DmSwornDisk K I M G)
    (lba : Nat) (data : Block) : curBlock (loggedBlock env s lba data) = curBlock s := by
  simp only [curBlock, loggedBlock_curSector]

@[simp] theorem curBlock_allocSegment (s : DmSwornDisk K I M G) (seg : Nat) :
    curBlock (allocSegment s seg) = curBlock s :=
  rfl

@[simp] theorem curBlock_rewindBuffer (s : DmSwornDisk K I M G) :
    curBlock (rewindBuffer s) = 0 := by
  simp only [curBlock, rewindBuffer]
  exact Nat.zero_div _

theorem segmentValid_allocate (env : Env K I M G) (s : DmSwornDisk K I M G) (lba : Nat)
    (data : Block) (seg : Nat) :
    segmentValid (allocSegment (rewindBuffer (loggedBlock env s lba data)) seg) =
      update (segmentValid s) seg true := by
  funext segno
  simp only [segmentValid, allocSegment, rewindBuffer, segbufFlushBios, loggedBlock_segValidator,
    update_apply]

namespace LoggedTo

variable {env : Env K I M G} {s t : DmSwornDisk K I M G} (push : LoggedTo env s lba data t)
include push

theorem lsmTree_eq (key : lba < 2 ^ 32) :
    t.lsmTree = update s.lsmTree lba
      (some (newRecord env s (slotAddr s (curBlock s)) data)) := by
  cases push with
  | advance room => exact loggedBlock_lsmTree env s key data
  | allocate full found => exact loggedBlock_lsmTree env s key data

theorem nrSegment_eq : t.nrSegment = s.nrSegment := by
  cases push with
  | advance room => exact loggedBlock_nrSegment env s lba data
  | allocate full found => exact loggedBlock_nrSegment env s lba data

theorem prefetcher_eq : t.prefetcher = s.prefetcher := by
  cases push with
  | advance room => exact returnOld_prefetcher s lba
  | allocate full found => exact returnOld_prefetcher s lba

theorem status_eq : t.segAllocator.status = s.segAllocator.status := by
  cases push with
  | advance room => simp [bumpBuffer]
  | allocate full found => simp [allocSegment, rewindBuffer, segbufFlushBios]

theorem bufferAligned (ba : BufferAligned s) : BufferAligned t := by
  cases push with
  | advance room =>
    have blocks : curBlock (bumpBuffer (loggedBlock env s lba data)) = curBlock s + 1 := by
      rw [curBlock_bumpBuffer, curBlock_loggedBlock]
    refine ⟨?_, by omega⟩
    rw [blocks, Nat.mul_add, ← ba.aligned]
    simp [bumpBuffer]
  | allocate full found =>
    constructor
    · rw [curBlock_allocSegment, curBlock_rewindBuffer]
      rfl
    · rw [curBlock_allocSegment, curBlock_rewindBuffer]
      decide

theorem segmentValid_mono {segno : Nat} (valid : segmentValid s segno = true) :
    segmentValid t segno = true := by
  cases push with
  | advance room => simpa [segmentValid, bumpBuffer] using valid
  | @allocate seg full found =>
    simp only [segmentValid, allocSegment, rewindBuffer, segbufFlushBios,
      loggedBlock_segValidator, update_apply]
    split
    · rfl
    · exact valid

theorem consistent (c : Consistent s s.lsmTree (curBlock s)) (ba : BufferAligned s)
    (key : lba < 2 ^ 32) : Consistent t t.lsmTree (curBlock t) := by
  have pushed := c.loggedBlock ba.room env key data
  cases push with
  | advance room =>
    rw [curBlock_bumpBuffer, curBlock_loggedBlock]
    exact pushed.congr rfl rfl rfl rfl rfl rfl rfl
  | @allocate seg full found =>
    obtain ⟨inside, clear⟩ := segValidatorNext_ok found
    have rewound : Consistent (rewindBuffer (C.loggedBlock env s lba data))
        (C.loggedBlock env s lba data).lsmTree (curBlock s + 1) :=
      pushed.congr rfl rfl rfl rfl rfl rfl rfl
    rw [curBlock_allocSegment, curBlock_rewindBuffer]
    refine rewound.allocSegment ?_ ?_
    · change seg < (C.loggedBlock env s lba data).nrSegment
      rw [loggedBlock_nrSegment, ← c.nrSvt]
      exact inside
    · change (C.loggedBlock env s lba data).segValidator.segValidityTable seg = false
      rw [loggedBlock_segValidator]
      exact clear

theorem ledger_eq : ledger t = ledger s + 1 := by
  cases push with
  | advance room =>
    have same : (bumpBuffer (loggedBlock env s lba data)).segAllocator = s.segAllocator :=
      loggedBlock_segAllocator env s lba data
    rw [ledger, ledger, same, curBlock_bumpBuffer, curBlock_loggedBlock]
    omega
  | @allocate seg full found =>
    have more : (allocSegment (rewindBuffer (loggedBlock env s lba data))
        seg).segAllocator.nrValidSegment = s.segAllocator.nrValidSegment + 1 :=
      congrArg (·.nrValidSegment + 1) (loggedBlock_segAllocator env s lba data)
    rw [ledger, ledger, more, curBlock_allocSegment, curBlock_rewindBuffer, Nat.mul_add]
    omega

end LoggedTo

theorem slotAddr_offset {offset : Nat} (inside : offset < blocksPerSegment) :
    blockOffsetWithinSegment (slotAddr s offset) = offset :=
  blockOffset_mul_add inside

variable {blkaddr : Nat}

theorem bufferedRead_loggedBlock (env : Env K I M G) (lba : Nat) (data : Block)
    (other : blkaddr ≠ slotAddr s (curBlock s)) :
    bufferedRead (loggedBlock env s lba data) (curBlock s + 1) blkaddr =
      bufferedRead s (curBlock s) blkaddr := by
  simp only [bufferedRead, loggedBlock_curSegment, loggedBlock_dataDev, loggedBlock_pipe]
  by_cases segment : blockToSegment blkaddr = s.segBuffer.curSegment
  · have offset : blockOffsetWithinSegment blkaddr ≠ curBlock s := by
      intro equal
      refine other ?_
      rw [slotAddr, ← segment, ← equal, blkaddr_eq]
    have bounds : blockOffsetWithinSegment blkaddr < curBlock s + 1 ↔
        blockOffsetWithinSegment blkaddr < curBlock s := by omega
    simp only [bounds, update_of_ne offset]
  · simp only [segment, false_and, if_false]

variable {env : Env K I M G} {plain : Nat → Block}

theorem Sealed.loggedBlock (sl : Sealed env s s.lsmTree plain (curBlock s))
    (c : Consistent s s.lsmTree (curBlock s)) (room : curBlock s < blocksPerSegment) (lba : Nat)
    (data : Block) :
    Sealed env (loggedBlock env s lba data)
      (update s.lsmTree lba (some (newRecord env s (slotAddr s (curBlock s)) data)))
      (update plain lba data) (curBlock s + 1) := by
  have others : ∀ other record, other ≠ lba → s.lsmTree other = some record →
      record.pba ≠ slotAddr s (curBlock s) := fun other record _ mapped =>
    c.reservedFree (curBlock s) le_rfl room other record mapped
  constructor
  · intro other record mapped
    by_cases same : other = lba
    · subst same
      rw [update_self] at mapped ⊢
      obtain rfl : newRecord env s (slotAddr s (curBlock s)) data = record := by
        simpa using mapped
      have here : bufferedRead (C.loggedBlock env s other data) (curBlock s + 1)
          (slotAddr s (curBlock s)) =
          (env.aead.encrypt (env.random s.nrRecord).1 (env.random s.nrRecord).2
            (slotAddr s (curBlock s)) data).1 := by
        simp only [bufferedRead, loggedBlock_curSegment, slotAddr_segment room,
          slotAddr_offset room, loggedBlock_pipe, update_self, Nat.lt_succ_self, and_self,
          if_true]
      simp only [newRecord, here]
    · rw [update_of_ne same] at mapped ⊢
      rw [bufferedRead_loggedBlock _ _ _ (others other record same mapped)]
      exact sl.cipher other record mapped
  · intro other record mapped segment filled
    rw [loggedBlock_curSegment] at segment
    rw [loggedBlock_buffer]
    by_cases same : other = lba
    · subst same
      rw [update_self] at mapped ⊢
      obtain rfl : newRecord env s (slotAddr s (curBlock s)) data = record := by
        simpa using mapped
      simp only [newRecord, slotAddr_offset room, update_self]
    · rw [update_of_ne same] at mapped ⊢
      have offset : blockOffsetWithinSegment record.pba ≠ curBlock s := by
        intro equal
        refine others other record same mapped ?_
        rw [slotAddr, ← segment, ← equal, blkaddr_eq]
      rw [update_of_ne offset]
      exact sl.buffered other record mapped segment (by omega)

theorem bufferedRead_flushed (s : DmSwornDisk K I M G) (seg blkaddr : Nat) :
    bufferedRead (allocSegment (rewindBuffer s) seg) 0 blkaddr =
      bufferedRead s blocksPerSegment blkaddr := by
  simp only [bufferedRead, allocSegment, rewindBuffer, segbufFlushBios, Nat.not_lt_zero,
    and_false, if_false, blockOffset_lt, and_true]

variable {t : DmSwornDisk K I M G}

theorem LoggedTo.bufferedRead_eq (push : LoggedTo env s lba data t)
    (other : blkaddr ≠ slotAddr s (curBlock s)) :
    bufferedRead t (curBlock t) blkaddr = bufferedRead s (curBlock s) blkaddr := by
  rw [← bufferedRead_loggedBlock env lba data other]
  cases push with
  | advance room =>
    rw [curBlock_bumpBuffer, curBlock_loggedBlock]
    rfl
  | @allocate seg full found =>
    rw [curBlock_allocSegment, curBlock_rewindBuffer, bufferedRead_flushed, ← full]

theorem LoggedTo.sealed (push : LoggedTo env s lba data t)
    (sl : Sealed env s s.lsmTree plain (curBlock s)) (c : Consistent s s.lsmTree (curBlock s))
    (ba : BufferAligned s) (key : lba < 2 ^ 32) :
    Sealed env t t.lsmTree (update plain lba data) (curBlock t) := by
  have pushed := sl.loggedBlock c ba.room lba data
  rw [push.lsmTree_eq key]
  cases push with
  | advance room =>
    rw [curBlock_bumpBuffer, curBlock_loggedBlock]
    exact ⟨pushed.cipher, pushed.buffered⟩
  | @allocate seg full found =>
    rw [curBlock_allocSegment, curBlock_rewindBuffer]
    refine ⟨?_, fun _ _ _ _ filled => absurd filled (Nat.not_lt_zero _)⟩
    intro other record mapped
    rw [bufferedRead_flushed, ← full]
    exact pushed.cipher other record mapped

variable {used : Nat} {victim : Victim}

theorem Consistent.threadedAddr_unowned (c : Consistent s s.lsmTree used) (key : lba < 2 ^ 32)
    (member : victim ∈ (C.returnOld s lba).dst.victims) {other : Nat} {record : Record K I M}
    (distinct : other ≠ lba) (mapped : s.lsmTree other = some record) :
    record.pba ≠ threadedAddr victim := by
  have returned := c.returnOld lba
  rw [lsmKey_of_lt key] at returned
  obtain ⟨-, clear⟩ := returned.wf.threadedAddr member
  intro equal
  have set := (returned.mapped other record
    (by rw [update_of_ne distinct]; exact mapped)).bit
  rw [equal, clear] at set
  exact Bool.false_ne_true set

theorem Sealed.threadedBlock (sl : Sealed env s s.lsmTree plain (curBlock s))
    (c : Consistent s s.lsmTree (curBlock s)) (key : lba < 2 ^ 32) (data : Block)
    (member : victim ∈ (returnOld s lba).dst.victims)
    (elsewhere : victim.segno ≠ s.segBuffer.curSegment) :
    Sealed env (threadedBlock env s lba data victim)
      (threadedBlock env s lba data victim).lsmTree (update plain lba data)
      (curBlock s) := by
  obtain ⟨segment, -⟩ := (c.returnOld lba).wf.threadedAddr member
  have curSegment : (C.threadedBlock env s lba data victim).segBuffer.curSegment =
      s.segBuffer.curSegment := by
    simp [C.threadedBlock, sealBlock]
  have pipe : (C.threadedBlock env s lba data victim).segBuffer.pipe =
      update s.segBuffer.pipe (curBlock s)
        (env.aead.encrypt (env.random s.nrRecord).1 (env.random s.nrRecord).2
          (threadedAddr victim) data).1 := by
    simp [C.threadedBlock, sealBlock, newRecord, curBlock]
  have buffer : (C.threadedBlock env s lba data victim).segBuffer.buffer =
      update s.segBuffer.buffer (curBlock s) data := by
    simp [C.threadedBlock, sealBlock, curBlock]
  have dataDev : (C.threadedBlock env s lba data victim).dataDev =
      update s.dataDev (threadedAddr victim)
        (env.aead.encrypt (env.random s.nrRecord).1 (env.random s.nrRecord).2
          (threadedAddr victim) data).1 := by
    simp [C.threadedBlock, sealBlock, newRecord, curBlock]
  rw [threadedBlock_lsmTree env s key]
  constructor
  · intro other record mapped
    by_cases same : other = lba
    · subst same
      rw [update_self] at mapped ⊢
      obtain rfl : newRecord env s (threadedAddr victim) data = record := by simpa using mapped
      have here : bufferedRead (C.threadedBlock env s other data victim) (curBlock s)
          (threadedAddr victim) =
          (env.aead.encrypt (env.random s.nrRecord).1 (env.random s.nrRecord).2
            (threadedAddr victim) data).1 := by
        simp only [bufferedRead, curSegment, segment, elsewhere, false_and, if_false, dataDev,
          update_self]
      simp only [newRecord, here]
    · rw [update_of_ne same] at mapped ⊢
      have distinct := c.threadedAddr_unowned key member same mapped
      have unchanged :
          bufferedRead (C.threadedBlock env s lba data victim) (curBlock s) record.pba =
            bufferedRead s (curBlock s) record.pba := by
        simp only [bufferedRead, curSegment, pipe, dataDev, update_of_ne distinct]
        split
        · rename_i filled
          rw [update_of_ne (Nat.ne_of_lt filled.2)]
        · rfl
      rw [unchanged]
      exact sl.cipher other record mapped
  · intro other record mapped inCur filled
    rw [curSegment] at inCur
    rw [buffer, update_of_ne (Nat.ne_of_lt filled)]
    by_cases same : other = lba
    · subst same
      rw [update_self] at mapped
      obtain rfl : newRecord env s (threadedAddr victim) data = record := by simpa using mapped
      exact absurd (segment.symm.trans inCur) elsewhere
    · rw [update_of_ne same] at mapped ⊢
      exact sl.buffered other record mapped inCur filled

/-- A block that the table marks valid although it is neither an address's block nor
a slot that the segment buffer has reserved. -/
structure Stale (s : DmSwornDisk K I M G) (blkaddr : Nat) : Prop where
  bound : blockToSegment blkaddr < s.nrSegment
  bit : dstBit s.dst blkaddr = true
  unowned : ∀ lba record, s.lsmTree lba = some record → record.pba ≠ blkaddr
  unreserved : ∀ offset, curBlock s ≤ offset → offset < blocksPerSegment →
    blkaddr ≠ slotAddr s offset

theorem Consistent.dstBit_of_returnOld (c : Consistent s s.lsmTree used)
    (bit : dstBit (C.returnOld s lba).dst blkaddr = true) :
    dstBit s.dst blkaddr = true ∧
      ∀ pre, lsmSearch s lba = some pre → pre.pba ≠ blkaddr := by
  cases found : lsmSearch s lba with
  | none =>
    have same : C.returnOld s lba = s := by simp only [C.returnOld, found]
    rw [same] at bit
    exact ⟨bit, by simp⟩
  | some pre =>
    rw [c.returnOld_eq found] at bit
    rw [dstBit_dstCleared] at bit
    split at bit
    · simp at bit
    · rename_i distinct
      refine ⟨bit, ?_⟩
      intro held equal
      obtain rfl : pre = held := by simpa using equal
      exact fun same => distinct same.symm

/-- A block that was not the old one of `lba` had no owner before the mapping changed. -/
theorem Stale.unowned_of_update {new : Option (Record K I M)} (stale : Stale t blkaddr)
    (key : lba < 2 ^ 32) (tree : t.lsmTree = update s.lsmTree lba new)
    (notOld : ∀ pre, lsmSearch s lba = some pre → pre.pba ≠ blkaddr) (other : Nat)
    (record : Record K I M) (mapped : s.lsmTree other = some record) : record.pba ≠ blkaddr := by
  by_cases same : other = lba
  · subst same
    exact notOld record (by rw [lsmSearch, lsmKey_of_lt key]; exact mapped)
  · exact stale.unowned other record (by rw [tree, update_of_ne same]; exact mapped)

theorem LoggedTo.stale (push : LoggedTo env s lba data t)
    (c : Consistent s s.lsmTree (curBlock s)) (key : lba < 2 ^ 32) (stale : Stale t blkaddr) :
    Stale s blkaddr := by
  have tree := push.lsmTree_eq key
  have notSlot : blkaddr ≠ slotAddr s (curBlock s) := fun equal =>
    stale.unowned lba _ (by rw [tree, update_self]) equal.symm
  have returned : dstBit (returnOld s lba).dst blkaddr = true := by
    cases push with
    | advance room => exact stale.bit
    | @allocate seg full found =>
      have bit := stale.bit
      simp only [allocSegment] at bit
      rw [dstBit_dstFilled] at bit
      split at bit
      · rename_i segment
        exfalso
        refine stale.unreserved (blockOffsetWithinSegment blkaddr) (by simp)
          (blockOffset_lt blkaddr) ?_
        rw [slotAddr]
        simp only [allocSegment]
        rw [← segment, blkaddr_eq]
      · exact bit
  obtain ⟨bit, notOld⟩ := c.dstBit_of_returnOld returned
  refine ⟨push.nrSegment_eq ▸ stale.bound, bit, ?_, ?_⟩
  · exact stale.unowned_of_update key tree notOld
  · intro offset reserved inside
    rcases Nat.eq_or_lt_of_le reserved with rfl | later
    · exact notSlot
    · cases push with
      | advance room =>
        have filled : curBlock (bumpBuffer (loggedBlock env s lba data)) ≤ offset := by
          rw [curBlock_bumpBuffer, curBlock_loggedBlock]
          exact later
        have slot : slotAddr (bumpBuffer (loggedBlock env s lba data)) offset =
            slotAddr s offset := by
          simp only [slotAddr, bumpBuffer, loggedBlock_curSegment]
        rw [← slot]
        exact stale.unreserved offset filled inside
      | allocate full found => omega

end SwornDisk.C
