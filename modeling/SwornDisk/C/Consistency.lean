import SwornDisk.C.Device

/-!
# Consistency of the metadata tables

The invariant that ties the LSM tree, the reverse index, the data segment table,
the segment validity table and the segment buffer together, and what the parts of
`segbuf_push_block` and `sa_alloc` do to it.  The tree is a parameter of the
invariant: between the return of an address's old block and the new record the
address counts as unmapped.
-/

namespace SwornDisk.C

open Lib List Function

variable {K I M G : Type}

/-- The address of slot `offset` of the segment buffer. -/
def slotAddr (s : DmSwornDisk K I M G) (offset : Nat) : Nat :=
  s.segBuffer.curSegment * blocksPerSegment + offset

def segmentValid (s : DmSwornDisk K I M G) (segno : Nat) : Bool :=
  s.segValidator.segValidityTable segno

structure RecordMapped (s : DmSwornDisk K I M G) (lba : Nat) (record : Record K I M) : Prop where
  key : lba < 2 ^ 32
  bound : blockToSegment record.pba < s.nrSegment
  rit : s.rit record.pba = lba
  bit : dstBit s.dst record.pba = true
  valid : segmentValid s (blockToSegment record.pba) = true

/-- The record of every address is known to the reverse index, the data segment table
and the segment validity table, and no two addresses share a block. -/
def RecordsAgree (s : DmSwornDisk K I M G) : Prop :=
  ∀ lba < 2 ^ 32, ∀ record, lsmSearch s lba = some record →
    s.rit record.pba = lba ∧ dstBit s.dst record.pba = true ∧
    segmentValid s (blockToSegment record.pba) = true ∧
    ∀ other < 2 ^ 32, ∀ held, lsmSearch s other = some held → held.pba = record.pba → other = lba

/-- The tables agree with `tree`, a segment that is not valid has no valid block, and the
allocator has counted the valid segments. -/
structure TablesAgree (s : DmSwornDisk K I M G) (tree : Nat → Option (Record K I M)) : Prop where
  nrDst : s.dst.nrSegment = s.nrSegment
  nrSvt : s.segValidator.nrSegment = s.nrSegment
  wf : DstWellFormed s.dst
  mapped : ∀ lba record, tree lba = some record → RecordMapped s lba record
  free : ∀ segno < s.nrSegment, segmentValid s segno = false →
    (s.dst.array segno).nrValidBlock = 0
  counted : s.segAllocator.nrValidSegment = countSet (segmentValid s) s.nrSegment

variable {lba : Nat}

theorem lsmKey_of_lt (key : lba < 2 ^ 32) : lsmKey lba = lba :=
  Nat.mod_eq_of_lt key

variable {segno : Nat} {record : Record K I M}

namespace TablesAgree

variable {s : DmSwornDisk K I M G} {tree : Nat → Option (Record K I M)}

section

variable (a : TablesAgree s tree)
include a

theorem lba_eq {left right : Nat} {leftRecord rightRecord : Record K I M}
    (leftMapped : tree left = some leftRecord) (rightMapped : tree right = some rightRecord)
    (samePba : leftRecord.pba = rightRecord.pba) : left = right := by
  rw [← (a.mapped left leftRecord leftMapped).rit, samePba,
    (a.mapped right rightRecord rightMapped).rit]

theorem not_mapped_of_free (free : segmentValid s segno = false) (mapped : tree lba = some record) :
    blockToSegment record.pba ≠ segno := by
  intro equal
  have valid := (a.mapped lba record mapped).valid
  rw [equal, free] at valid
  contradiction

theorem not_mapped_of_empty (empty : (s.dst.array segno).nrValidBlock = 0)
    (mapped : tree lba = some record) : blockToSegment record.pba ≠ segno := by
  rintro rfl
  have held := a.mapped lba record mapped
  have positive := a.wf.nrValidBlock_pos (a.nrDst ▸ held.bound) held.bit
  omega

theorem segmentValid_of_pos (bound : segno < s.nrSegment)
    (positive : 0 < (s.dst.array segno).nrValidBlock) : segmentValid s segno = true := by
  cases valid : segmentValid s segno with
  | true => rfl
  | false =>
    rw [a.free segno bound valid] at positive
    exact absurd positive (lt_irrefl 0)

end

theorem recordsAgree (a : TablesAgree s s.lsmTree) : RecordsAgree s := by
  intro lba key record found
  rw [lsmSearch, lsmKey_of_lt key] at found
  have held := a.mapped lba record found
  refine ⟨held.rit, held.bit, held.valid, ?_⟩
  intro other otherKey otherRecord otherFound samePba
  rw [lsmSearch, lsmKey_of_lt otherKey] at otherFound
  exact a.lba_eq otherFound found samePba

end TablesAgree

/-- The tables agree, and the slots of the segment buffer from `used` on are reserved:
marked valid and owned by nobody. -/
structure Consistent (s : DmSwornDisk K I M G) (tree : Nat → Option (Record K I M))
    (used : Nat) : Prop extends TablesAgree s tree where
  curBound : s.segBuffer.curSegment < s.nrSegment
  curValid : segmentValid s s.segBuffer.curSegment = true
  reservedBit : ∀ offset, used ≤ offset → offset < blocksPerSegment →
    dstBit s.dst (slotAddr s offset) = true
  reservedFree : ∀ offset, used ≤ offset → offset < blocksPerSegment →
    ∀ lba record, tree lba = some record → record.pba ≠ slotAddr s offset

/-! ## Parts of a push -/

section

variable (s : DmSwornDisk K I M G) (lba : Nat)

@[simp] theorem returnOld_lsmTree : (returnOld s lba).lsmTree = s.lsmTree := by
  unfold returnOld
  split <;> rfl

@[simp] theorem returnOld_segBuffer : (returnOld s lba).segBuffer = s.segBuffer := by
  unfold returnOld
  split <;> rfl

@[simp] theorem returnOld_dataDev : (returnOld s lba).dataDev = s.dataDev := by
  unfold returnOld
  split <;> rfl

@[simp] theorem returnOld_segValidator : (returnOld s lba).segValidator = s.segValidator := by
  unfold returnOld
  split <;> rfl

@[simp] theorem returnOld_segAllocator : (returnOld s lba).segAllocator = s.segAllocator := by
  unfold returnOld
  split <;> rfl

@[simp] theorem returnOld_nrSegment : (returnOld s lba).nrSegment = s.nrSegment := by
  unfold returnOld
  split <;> rfl

@[simp] theorem returnOld_nrRecord : (returnOld s lba).nrRecord = s.nrRecord := by
  unfold returnOld
  split <;> rfl

@[simp] theorem returnOld_prefetcher : (returnOld s lba).prefetcher = s.prefetcher := by
  unfold returnOld
  split <;> rfl

end

variable {s : DmSwornDisk K I M G} {used : Nat}

theorem Consistent.returnOld_eq (c : Consistent s s.lsmTree used) {pre : Record K I M}
    (found : lsmSearch s lba = some pre) :
    returnOld s lba = { s with dst := dstCleared s.dst pre.pba } := by
  have mapped := c.mapped _ _ found
  have returned := dstReturnBlock_eq c.wf (c.nrDst ▸ mapped.bound) mapped.bit
  simp only [returnOld, found, returned, ignoreError]

theorem Consistent.returnOld (c : Consistent s s.lsmTree used) (lba : Nat) :
    Consistent (returnOld s lba) (update s.lsmTree (lsmKey lba) none) used := by
  cases found : lsmSearch s lba with
  | none =>
    have same : C.returnOld s lba = s := by simp only [C.returnOld, found]
    have unmapped : update s.lsmTree (lsmKey lba) none = s.lsmTree := by
      rw [← found]
      exact update_eq_self _ _
    rw [same, unmapped]
    exact c
  | some pre =>
    have preMapped := c.mapped _ _ found
    have others : ∀ other record,
        update s.lsmTree (lsmKey lba) none other = some record →
          s.lsmTree other = some record ∧ record.pba ≠ pre.pba := by
      intro other record mapped
      by_cases same : other = lsmKey lba
      · simp [same] at mapped
      · rw [update_of_ne same] at mapped
        exact ⟨mapped, fun equal => same (c.lba_eq mapped found equal)⟩
    rw [c.returnOld_eq found]
    refine ⟨⟨by simpa using c.nrDst, c.nrSvt,
      c.wf.cleared (c.nrDst ▸ preMapped.bound) preMapped.bit, ?_, ?_, c.counted⟩, c.curBound,
      c.curValid, ?_, ?_⟩
    · intro other record mapped
      obtain ⟨mapped, distinct⟩ := others other record mapped
      have held := c.mapped other record mapped
      refine ⟨held.key, held.bound, held.rit, ?_, held.valid⟩
      rw [dstBit_dstCleared, if_neg distinct]
      exact held.bit
    · intro segno bound free
      have distinct : segno ≠ blockToSegment pre.pba :=
        (c.not_mapped_of_free free found).symm
      simpa [dstCleared, update_of_ne distinct] using c.free segno bound free
    · intro offset reserved inside
      rw [dstBit_dstCleared,
        if_neg fun equal => c.reservedFree offset reserved inside _ _ found equal.symm]
      exact c.reservedBit offset reserved inside
    · intro offset reserved inside other record mapped
      exact c.reservedFree offset reserved inside other record (others other record mapped).1

variable {tree : Nat → Option (Record K I M)} {pba : Nat}

theorem Consistent.sealBlock {used' : Nat} (c : Consistent s tree used) (env : Env K I M G)
    (data : Block) (key : lba < 2 ^ 32) (unmapped : tree lba = none)
    (bound : blockToSegment pba < s.nrSegment) (bit : dstBit s.dst pba = true)
    (valid : segmentValid s (blockToSegment pba) = true)
    (unowned : ∀ other record, tree other = some record → record.pba ≠ pba) (grows : used ≤ used')
    (unreserved : ∀ offset, used' ≤ offset → offset < blocksPerSegment → pba ≠ slotAddr s offset) :
    Consistent (sealBlock env s lba pba data)
      (update tree lba (some (newRecord env s pba data))) used' := by
  refine ⟨⟨c.nrDst, c.nrSvt, c.wf, ?_, c.free, c.counted⟩, c.curBound, c.curValid, ?_, ?_⟩
  · intro other record mapped
    by_cases same : other = lba
    · subst same
      obtain rfl : newRecord env s pba data = record := by simpa using mapped
      exact ⟨key, bound, update_self .., bit, valid⟩
    · rw [update_of_ne same] at mapped
      have held := c.mapped other record mapped
      refine ⟨held.key, held.bound, ?_, held.bit, held.valid⟩
      simp only [C.sealBlock]
      rw [update_of_ne (unowned other record mapped)]
      exact held.rit
  · intro offset reserved inside
    exact c.reservedBit offset (grows.trans reserved) inside
  · intro offset reserved inside other record mapped
    by_cases same : other = lba
    · subst same
      obtain rfl : newRecord env s pba data = record := by simpa using mapped
      exact unreserved offset reserved inside
    · rw [update_of_ne same] at mapped
      exact c.reservedFree offset (grows.trans reserved) inside other record mapped

/-! ## Segment allocation -/

/-- The state after `sa_alloc` took segment `seg`, before any collection. -/
def allocSegment (s : DmSwornDisk K I M G) (seg : Nat) : DmSwornDisk K I M G :=
  { s with
    segValidator :=
      { s.segValidator with
        curSegment := seg + 1
        segValidityTable := Function.update s.segValidator.segValidityTable seg true }
    segAllocator := { s.segAllocator with nrValidSegment := s.segAllocator.nrValidSegment + 1 }
    segBuffer := { s.segBuffer with curSegment := seg }
    dst := dstFilled s.dst seg }

variable {seg : Nat}

theorem segValidatorNext_eq {v : SegValidator} (found : (segValidatorNext v).1 = .ok seg) :
    segValidatorNext v = (.ok seg, { v with curSegment := seg }) := by
  rw [segValidatorNext_eq_scan] at *
  split
  · rename_i first scan
    rw [scan] at found
    obtain rfl : first = seg := by simpa using found
    rfl
  · rename_i scan
    rw [scan] at found
    simp only at found
    split
    · rename_i first rescan
      rw [rescan] at found
      obtain rfl : first = seg := by simpa using found
      rfl
    · rename_i rescan
      rw [rescan] at found
      simp at found

section

variable (gc : DmSwornDisk K I M G → Option (DmSwornDisk K I M G))

/-- What `sa_alloc` does when the scan finds a segment without valid blocks. -/
theorem saAlloc_eq (found : (segValidatorNext s.segValidator).1 = .ok seg)
    (bound : seg < s.dst.nrSegment) (empty : (s.dst.array seg).nrValidBlock = 0) :
    saAlloc gc s =
      if saWillTriggerGc (allocSegment s seg) && s.segAllocator.status != .cleaning then
        (gc (allocSegment s seg)).map fun s => (.ok (), s)
      else some (.ok (), allocSegment s seg) := by
  have inside := (segValidatorNext_ok found).1
  have taken := dstTakeSegment_eq bound empty
  simp only [saAlloc_steps, segValidatorNext_eq found, segValidatorTake, inside, if_true, taken]
  rfl

/-- What `sa_alloc` does when no segment is left: only the scan cursor moves. -/
theorem saAlloc_full
    (full : ∀ seg < s.segValidator.nrSegment, s.segValidator.segValidityTable seg = true) :
    saAlloc gc s = some (.error .enodata,
      { s with segValidator := { s.segValidator with
        curSegment := s.segValidator.nrSegment } }) := by
  have fromCursor : firstClear s.segValidator.segValidityTable s.segValidator.curSegment
      (s.segValidator.nrSegment - s.segValidator.curSegment) = none :=
    firstClear_eq_none_iff.mpr fun seg lower upper => full seg (by omega)
  have fromStart : firstClear s.segValidator.segValidityTable 0 s.segValidator.nrSegment = none :=
    firstClear_eq_none_iff.mpr fun seg lower upper => full seg (by omega)
  simp only [saAlloc_steps, segValidatorNext_eq_scan, fromCursor, fromStart]

end

theorem slotAddr_segment {offset : Nat} (inside : offset < blocksPerSegment) :
    blockToSegment (slotAddr s offset) = s.segBuffer.curSegment :=
  blockToSegment_mul_add inside

theorem TablesAgree.allocSegment (a : TablesAgree s tree) (bound : seg < s.nrSegment)
    (free : segmentValid s seg = false) : Consistent (allocSegment s seg) tree 0 := by
  have unowned : ∀ lba record, tree lba = some record → blockToSegment record.pba ≠ seg :=
    fun lba record mapped => a.not_mapped_of_free free mapped
  refine ⟨⟨by simpa [C.allocSegment] using a.nrDst, a.nrSvt, a.wf.filled seg, ?_, ?_, ?_⟩, bound,
    update_self .., ?_, ?_⟩
  · intro lba record mapped
    have held := a.mapped lba record mapped
    refine ⟨held.key, held.bound, held.rit, ?_, ?_⟩
    · simp only [C.allocSegment]
      rw [dstBit_dstFilled, if_neg (unowned lba record mapped)]
      exact held.bit
    · simp only [segmentValid, C.allocSegment]
      rw [update_of_ne (unowned lba record mapped)]
      exact held.valid
  · intro segno inside stillFree
    have distinct : segno ≠ seg := by
      rintro rfl
      simp [segmentValid, C.allocSegment] at stillFree
    simp only [segmentValid, C.allocSegment, update_of_ne distinct] at stillFree
    simpa [C.allocSegment, dstFilled, dstSet, update_of_ne distinct]
      using a.free segno inside stillFree
  · change s.segAllocator.nrValidSegment + 1 =
      countSet (update (segmentValid s) seg true) s.nrSegment
    rw [countSet_set bound free, a.counted]
  · intro offset _ inside
    simp only [C.allocSegment]
    rw [dstBit_dstFilled, if_pos]
    exact blockToSegment_mul_add inside
  · intro offset _ inside lba record mapped equal
    refine unowned lba record mapped ?_
    rw [equal]
    exact blockToSegment_mul_add inside

/-! ## Pushing a block -/

/-- The invariant reads the four tables, their count and the buffer's segment, nothing else. -/
theorem Consistent.congr {s' : DmSwornDisk K I M G} (c : Consistent s tree used)
    (nrSegment : s'.nrSegment = s.nrSegment) (dst : s'.dst = s.dst)
    (nrSvt : s'.segValidator.nrSegment = s.segValidator.nrSegment)
    (table : s'.segValidator.segValidityTable = s.segValidator.segValidityTable)
    (rit : s'.rit = s.rit) (cur : s'.segBuffer.curSegment = s.segBuffer.curSegment)
    (count : s'.segAllocator.nrValidSegment = s.segAllocator.nrValidSegment) :
    Consistent s' tree used := by
  have valid : segmentValid s' = segmentValid s := by
    funext segno
    simp only [segmentValid, table]
  have slot : slotAddr s' = slotAddr s := by
    funext offset
    simp only [slotAddr, cur]
  refine ⟨⟨?_, ?_, ?_, ?_, ?_, ?_⟩, ?_, ?_, ?_, ?_⟩
  · rw [dst, nrSegment, c.nrDst]
  · rw [nrSvt, nrSegment, c.nrSvt]
  · rw [dst]
    exact c.wf
  · intro lba record mapped
    have held := c.mapped lba record mapped
    exact ⟨held.key, nrSegment ▸ held.bound, rit ▸ held.rit, dst ▸ held.bit, valid ▸ held.valid⟩
  · rw [nrSegment, dst, valid]
    exact c.free
  · rw [count, valid, nrSegment]
    exact c.counted
  · rw [nrSegment, cur]
    exact c.curBound
  · rw [valid, cur]
    exact c.curValid
  · rw [dst, slot]
    exact c.reservedBit
  · rw [slot]
    exact c.reservedFree

section

variable (env : Env K I M G)

theorem sealBlock_lsmTree (s : DmSwornDisk K I M G) (key : lba < 2 ^ 32) (pba : Nat)
    (data : Block) :
    (sealBlock env s lba pba data).lsmTree =
      update s.lsmTree lba (some (newRecord env s pba data)) := by
  simp only [sealBlock, lsmKey_of_lt key]

theorem nextBlock_false (s : DmSwornDisk K I M G) :
    nextBlock s false = (slotAddr s (curBlock s), s) := by
  simp only [nextBlock, slotAddr, curBlock, Bool.false_eq_true, if_false]
  unfold sectorsPerSegment sectorsPerBlock blocksPerSegment
  rw [Prod.mk.injEq]
  exact ⟨by omega, rfl⟩

def loggedBlock (s : DmSwornDisk K I M G) (lba : Nat) (data : Block) : DmSwornDisk K I M G :=
  sealBlock env (returnOld s lba) lba (slotAddr s (curBlock s)) data

theorem segbufPushBlock_logged (gc : DmSwornDisk K I M G → Option (DmSwornDisk K I M G))
    (logged : sworndiskShouldThreadedLogging s = false) (lba : Nat) (data : Block) :
    segbufPushBlock env gc s lba data = advanceBuffer gc (loggedBlock env s lba data) := by
  have slot : slotAddr (returnOld s lba) (curBlock (returnOld s lba)) =
      slotAddr s (curBlock s) := by
    simp only [slotAddr, curBlock, returnOld_segBuffer]
  simp only [segbufPushBlock, logged, nextBlock_false, slot, loggedBlock, Bool.false_eq_true,
    if_false]

theorem loggedBlock_lsmTree (s : DmSwornDisk K I M G) (key : lba < 2 ^ 32) (data : Block) :
    (loggedBlock env s lba data).lsmTree = update s.lsmTree lba
      (some (newRecord env s (slotAddr s (curBlock s)) data)) := by
  rw [loggedBlock, sealBlock_lsmTree env _ key, returnOld_lsmTree]
  simp only [newRecord, returnOld_nrRecord]

end

theorem Consistent.loggedBlock (c : Consistent s s.lsmTree (curBlock s))
    (room : curBlock s < blocksPerSegment) (env : Env K I M G) (key : lba < 2 ^ 32) (data : Block) :
    Consistent (loggedBlock env s lba data) (loggedBlock env s lba data).lsmTree
      (curBlock s + 1) := by
  have returned := c.returnOld lba
  rw [lsmKey_of_lt key] at returned
  have slot : ∀ offset, slotAddr (C.returnOld s lba) offset = slotAddr s offset := fun offset => by
    simp only [slotAddr, returnOld_segBuffer]
  have segment : blockToSegment (slotAddr s (curBlock s)) = s.segBuffer.curSegment :=
    slotAddr_segment room
  have bound : blockToSegment (slotAddr s (curBlock s)) < (C.returnOld s lba).nrSegment := by
    rw [segment, returnOld_nrSegment]
    exact c.curBound
  have bit : dstBit (C.returnOld s lba).dst (slotAddr s (curBlock s)) = true := by
    rw [← slot]
    exact returned.reservedBit _ le_rfl room
  have valid : segmentValid (C.returnOld s lba) (blockToSegment (slotAddr s (curBlock s))) =
      true := by
    rw [segment]
    simpa only [segmentValid, returnOld_segValidator] using c.curValid
  have unowned : ∀ other record, update s.lsmTree lba none other = some record →
      record.pba ≠ slotAddr s (curBlock s) := fun other record mapped => by
    rw [← slot]
    exact returned.reservedFree _ le_rfl room other record mapped
  have unreserved : ∀ offset, curBlock s + 1 ≤ offset → offset < blocksPerSegment →
      slotAddr s (curBlock s) ≠ slotAddr (C.returnOld s lba) offset := by
    intro offset later _ equal
    rw [slot] at equal
    simp only [slotAddr] at equal
    omega
  have pushed := returned.sealBlock env data key (update_self ..) bound bit valid
    unowned (Nat.le_succ _) unreserved
  rw [loggedBlock_lsmTree env s key]
  simpa only [C.loggedBlock, newRecord, returnOld_nrRecord, update_idem] using pushed

/-! ## Threaded logging -/

def threadedAddr (victim : Victim) : Nat :=
  victim.segno * blocksPerSegment + findFirstZeroBit victim.blockValidityTable

theorem findFirstZeroBit_spec {table : Nat → Bool}
    (notFull : countSet table blocksPerSegment < blocksPerSegment) :
    findFirstZeroBit table < blocksPerSegment ∧ table (findFirstZeroBit table) = false := by
  unfold findFirstZeroBit
  cases scan : firstClear table 0 blocksPerSegment with
  | some offset =>
    obtain ⟨-, upper, clear⟩ := firstClear_eq_some scan
    exact ⟨by simpa using upper, clear⟩
  | none =>
    obtain ⟨offset, bound, clear⟩ := exists_clear_of_countSet_lt notFull
    have upper : offset < 0 + blocksPerSegment := by omega
    have set := firstClear_eq_none_iff.mp scan offset (Nat.zero_le _) upper
    exact absurd (clear.symm.trans set) Bool.false_ne_true

variable {victim : Victim} {d : Dst}

theorem DstWellFormed.threadedAddr (wf : DstWellFormed d) (member : victim ∈ d.victims) :
    blockToSegment (threadedAddr victim) = victim.segno ∧
      dstBit d (threadedAddr victim) = false := by
  obtain ⟨bound, count, table, notFull⟩ := wf.victim victim member
  rw [count, wf.count _ bound, ← table] at notFull
  obtain ⟨inside, clear⟩ := findFirstZeroBit_spec notFull
  have segment : blockToSegment (C.threadedAddr victim) = victim.segno :=
    blockToSegment_mul_add inside
  refine ⟨segment, ?_⟩
  rw [dstBit, segment, C.threadedAddr, blockOffset_mul_add inside, ← table]
  exact clear

theorem DstWellFormed.le_of_head (wf : DstWellFormed d) {head : Victim} {rest : List Victim}
    (victims : d.victims = head :: rest) (member : victim ∈ d.victims) :
    head.nrValidBlock ≤ victim.nrValidBlock := by
  have sorted := wf.sorted
  rw [victims] at sorted member
  rcases mem_cons.mp member with rfl | member
  · exact le_rfl
  · exact (pairwise_cons.mp sorted).1 victim member

theorem DstWellFormed.lt_of_threaded (wf : DstWellFormed d)
    (threaded : shouldThreadedLogging d = true) (member : victim ∈ d.victims) :
    768 < victim.nrValidBlock := by
  unfold shouldThreadedLogging at threaded
  split at threaded
  · simp at threaded
  · rename_i head rest victims
    have full : 768 < head.nrValidBlock := of_decide_eq_true threaded
    exact full.trans_le (wf.le_of_head victims member)

theorem shouldThreadedLogging_of_sworndisk (threaded : sworndiskShouldThreadedLogging s = true) :
    shouldThreadedLogging s.dst = true := by
  unfold sworndiskShouldThreadedLogging at threaded
  split at threaded
  · simp at threaded
  · exact threaded

theorem Consistent.exists_threadedVictim (c : Consistent s s.lsmTree used)
    (threaded : sworndiskShouldThreadedLogging s = true) (lba : Nat) :
    ∃ victim, dstPeekVictim (C.returnOld s lba).dst = some victim ∧
      victim ∈ (C.returnOld s lba).dst.victims ∧ victim.segno < s.nrSegment ∧
      segmentValid s victim.segno = true := by
  have threaded := shouldThreadedLogging_of_sworndisk threaded
  have ofVictim : ∀ victim ∈ s.dst.victims, segmentValid s victim.segno = true := by
    intro victim member
    obtain ⟨bound, count, -, -⟩ := c.wf.victim victim member
    have full := c.wf.lt_of_threaded threaded member
    exact c.segmentValid_of_pos (c.nrDst ▸ bound) (by omega)
  have valid : ∀ victim ∈ (C.returnOld s lba).dst.victims, segmentValid s victim.segno = true := by
    cases found : lsmSearch s lba with
    | none =>
      have same : C.returnOld s lba = s := by simp only [C.returnOld, found]
      rw [same]
      exact ofVictim
    | some pre =>
      rw [c.returnOld_eq found]
      intro victim member
      rcases (mem_victims_dstStore c.wf).mp member with ⟨old, -⟩ | ⟨rfl, -⟩
      · exact ofVictim victim old
      · exact (c.mapped _ _ found).valid
  have nonempty : (C.returnOld s lba).dst.victims ≠ [] := by
    have before : s.dst.victims ≠ [] := by
      intro empty
      simp [shouldThreadedLogging, empty] at threaded
    cases found : lsmSearch s lba with
    | none =>
      have same : C.returnOld s lba = s := by simp only [C.returnOld, found]
      rw [same]
      exact before
    | some pre =>
      have mapped := c.mapped _ _ found
      have bound : blockToSegment pre.pba < s.dst.nrSegment := c.nrDst ▸ mapped.bound
      have positive := c.wf.nrValidBlock_pos bound mapped.bit
      have count := c.wf.count _ bound
      have atMost := countSet_le
        (s.dst.array (blockToSegment pre.pba)).blockValidityTable blocksPerSegment
      rw [c.returnOld_eq found]
      exact ne_nil_of_mem ((mem_victims_dstStore c.wf).mpr (.inr ⟨rfl, by
        simp only
        omega⟩))
  obtain ⟨victim, rest, victims⟩ := exists_cons_of_ne_nil nonempty
  have member : victim ∈ (C.returnOld s lba).dst.victims := by simp [victims]
  have wf := (c.returnOld lba).wf
  refine ⟨victim, by rw [dstPeekVictim, victims]; rfl, member, ?_, valid victim member⟩
  have bound := (wf.victim victim member).1
  rwa [(c.returnOld lba).nrDst, returnOld_nrSegment] at bound

def threadedBlock (env : Env K I M G) (s : DmSwornDisk K I M G) (lba : Nat) (data : Block)
    (victim : Victim) : DmSwornDisk K I M G :=
  let t := sealBlock env { returnOld s lba with
    dst := dstMarked (returnOld s lba).dst (threadedAddr victim) } lba (threadedAddr victim) data
  { t with dataDev :=
      Function.update t.dataDev (threadedAddr victim) (t.segBuffer.pipe (curBlock t)) }

section

variable (env : Env K I M G) (s lba) (data : Block) (victim)

theorem threadedBlock_curBlock : curBlock (threadedBlock env s lba data victim) = curBlock s := by
  simp [threadedBlock, sealBlock, curBlock]

theorem threadedBlock_curSegment :
    (threadedBlock env s lba data victim).segBuffer.curSegment = s.segBuffer.curSegment := by
  simp [threadedBlock, sealBlock]

end

theorem Consistent.nextBlock_threaded (c : Consistent s s.lsmTree used) (lba : Nat)
    (peek : dstPeekVictim (C.returnOld s lba).dst = some victim)
    (member : victim ∈ (C.returnOld s lba).dst.victims) :
    nextBlock (C.returnOld s lba) true = (threadedAddr victim, { C.returnOld s lba with
      dst := dstMarked (C.returnOld s lba).dst (threadedAddr victim) }) := by
  have returned := c.returnOld lba
  obtain ⟨segment, clear⟩ := returned.wf.threadedAddr member
  have taken := dstTakeBlock_eq returned.wf (segment ▸ (returned.wf.victim victim member).1) clear
  simp only [threadedAddr] at taken
  simp only [nextBlock, if_true, peek, taken, ignoreError]
  rfl

theorem Consistent.segbufPushBlock_threaded (c : Consistent s s.lsmTree used) (env : Env K I M G)
    (gc : DmSwornDisk K I M G → Option (DmSwornDisk K I M G))
    (threaded : sworndiskShouldThreadedLogging s = true) (lba : Nat) (data : Block)
    (peek : dstPeekVictim (C.returnOld s lba).dst = some victim)
    (member : victim ∈ (C.returnOld s lba).dst.victims) :
    segbufPushBlock env gc s lba data = some (threadedBlock env s lba data victim) := by
  simp only [segbufPushBlock, threaded, if_true, c.nextBlock_threaded lba peek member]
  rfl

theorem Consistent.markBlock (c : Consistent s tree used)
    (bound : blockToSegment pba < s.nrSegment) (clear : dstBit s.dst pba = false)
    (valid : segmentValid s (blockToSegment pba) = true) :
    Consistent { s with dst := dstMarked s.dst pba } tree used := by
  have bits : ∀ other, dstBit s.dst other = true → dstBit (dstMarked s.dst pba) other = true := by
    intro other set
    rw [dstBit_dstMarked]
    split
    · rfl
    · exact set
  refine ⟨⟨by simpa using c.nrDst, c.nrSvt, c.wf.marked (c.nrDst ▸ bound) clear, ?_, ?_,
    c.counted⟩, c.curBound, c.curValid, ?_, c.reservedFree⟩
  · intro lba record mapped
    have held := c.mapped lba record mapped
    exact ⟨held.key, held.bound, held.rit, bits _ held.bit, held.valid⟩
  · intro segno inside free
    have distinct : segno ≠ blockToSegment pba := by
      rintro rfl
      exact Bool.false_ne_true (free.symm.trans valid)
    simpa [dstMarked, update_of_ne distinct] using c.free segno inside free
  · intro offset reserved inside
    exact bits _ (c.reservedBit offset reserved inside)

theorem threadedBlock_lsmTree (env : Env K I M G) (s : DmSwornDisk K I M G) (key : lba < 2 ^ 32)
    (data : Block) (victim : Victim) :
    (threadedBlock env s lba data victim).lsmTree = update s.lsmTree lba
      (some (newRecord env s (threadedAddr victim) data)) := by
  simp only [threadedBlock, sealBlock_lsmTree env _ key, returnOld_lsmTree, newRecord,
    returnOld_nrRecord]

/-- A threaded push keeps the invariant, also when the victim is the buffer's own
segment. -/
theorem Consistent.threadedBlock (c : Consistent s s.lsmTree used) (env : Env K I M G)
    (key : lba < 2 ^ 32) (data : Block) (member : victim ∈ (C.returnOld s lba).dst.victims)
    (bound : victim.segno < s.nrSegment) (valid : segmentValid s victim.segno = true) :
    Consistent (threadedBlock env s lba data victim)
      (threadedBlock env s lba data victim).lsmTree used := by
  have returned := c.returnOld lba
  rw [lsmKey_of_lt key] at returned
  obtain ⟨segment, clear⟩ := returned.wf.threadedAddr member
  have bound : blockToSegment (threadedAddr victim) < (C.returnOld s lba).nrSegment := by
    rw [segment, returnOld_nrSegment]
    exact bound
  have valid : segmentValid (C.returnOld s lba) (blockToSegment (threadedAddr victim)) = true := by
    rw [segment]
    simpa only [segmentValid, returnOld_segValidator] using valid
  have marked := returned.markBlock bound clear valid
  have unowned : ∀ other record, update s.lsmTree lba none other = some record →
      record.pba ≠ threadedAddr victim := by
    intro other record mapped equal
    have set := (returned.mapped other record mapped).bit
    rw [equal, clear] at set
    contradiction
  have unreserved : ∀ offset, used ≤ offset → offset < blocksPerSegment →
      threadedAddr victim ≠ slotAddr (C.returnOld s lba) offset := by
    intro offset reserved inside equal
    have set := returned.reservedBit offset reserved inside
    rw [← equal, clear] at set
    contradiction
  have bit : dstBit (dstMarked (C.returnOld s lba).dst (threadedAddr victim))
      (threadedAddr victim) = true := by
    rw [dstBit_dstMarked, if_pos rfl]
  have pushed := marked.sealBlock env data key (update_self ..) bound bit valid unowned
    le_rfl unreserved
  rw [threadedBlock_lsmTree env s key]
  simp only [newRecord, returnOld_nrRecord, update_idem] at pushed
  exact pushed.congr rfl rfl rfl rfl rfl rfl rfl

end SwornDisk.C
