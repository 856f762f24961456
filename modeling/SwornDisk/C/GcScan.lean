import SwornDisk.C.Push

/-!
# Foreground garbage collection

A collection moves the live blocks of its victims through the normal write path.
While threaded logging is off, because the victim is at most three quarters full or
few segments are in use, the pushes go to the segment buffer, never to a victim, and
there is always a segment for a buffer that fills up: the collection then keeps every
plaintext, and a segment is empty when its validity bit is cleared.
-/

namespace SwornDisk.C

open Lib List Function Option

variable {victim : Victim} {rest : List Victim} {plain : Nat → Block}

variable {K I M G : Type}

/-- The victims that a collection comes to before it has cleaned enough, given which
segments are valid. -/
def gcReached (valid : Nat → Bool) : Nat → List Victim → List Victim
  | _, [] => []
  | clean, victim :: rest =>
    if clean < gcTarget then
      victim :: gcReached valid
        (clean + if valid victim.segno then blocksPerSegment - victim.nrValidBlock else 0) rest
    else []

/-- Before all but 768 of the `count` blocks of a victim are moved, threaded logging comes
on: the blocks that are left are written back to the victim.  `ledger` is the one before
the first block is moved. -/
def WrittenBack (threshold ledger count : Nat) : Prop :=
  768 < count ∧ blocksPerSegment * threshold ≤ ledger + (count - 769)

/-- The state inside a collection, after `moved` blocks of the current victim were
moved: tables, buffer and data are in order, the buffer's segment is marked valid as a
whole, and the free segments have room for what is still to come. -/
structure GcInv (env : Env K I M G) (plain : Nat → Block) (moved : Nat)
    (t : DmSwornDisk K I M G) : Prop where
  consistent : Consistent t t.lsmTree (curBlock t)
  aligned : BufferAligned t
  sealed : Sealed env t t.lsmTree plain (curBlock t)
  cleaning : t.segAllocator.status = .cleaning
  full : ∀ offset < blocksPerSegment, dstBit t.dst (slotAddr t offset) = true
  space : ledger t ≤ blocksPerSegment * t.nrSegment + moved

variable {t : DmSwornDisk K I M G}

theorem DstWellFormed.victim_ne_cur (wf : DstWellFormed t.dst)
    (full : ∀ offset < blocksPerSegment, dstBit t.dst (slotAddr t offset) = true)
    (member : victim ∈ t.dst.victims) :
    victim.segno ≠ t.segBuffer.curSegment := by
  intro equal
  obtain ⟨bound, count, table, notFull⟩ := wf.victim victim member
  rw [count, wf.count _ bound] at notFull
  refine Nat.lt_irrefl blocksPerSegment ?_
  have full : countSet (t.dst.array victim.segno).blockValidityTable blocksPerSegment =
      blocksPerSegment := by
    refine countSet_eq_self_iff.mpr fun offset inside => ?_
    have set := full offset inside
    rwa [dstBit, slotAddr_segment inside, slotAddr_offset inside, ← equal] at set
  rwa [full] at notFull

theorem threaded_iff_of_head (victims : t.dst.victims = victim :: rest) :
    sworndiskShouldThreadedLogging t = true ↔
      threadedThreshold t.nrSegment ≤ t.segAllocator.nrValidSegment ∧
        768 < victim.nrValidBlock := by
  rw [sworndiskShouldThreadedLogging, shouldThreadedLogging, victims]
  split
  · rename_i few
    exact iff_of_false Bool.false_ne_true fun both => Nat.not_le.mpr few both.1
  · rename_i many
    rw [decide_eq_true_iff]
    exact ⟨fun heavy => ⟨Nat.not_lt.mp many, heavy⟩, fun both => both.2⟩

theorem not_threaded_of_head (victims : t.dst.victims = victim :: rest)
    (quiet : ¬ WrittenBack (threadedThreshold t.nrSegment) (ledger t) victim.nrValidBlock) :
    sworndiskShouldThreadedLogging t = false := by
  rw [← Bool.not_eq_true, threaded_iff_of_head victims]
  rintro ⟨many, heavy⟩
  refine quiet ⟨heavy, ?_⟩
  have := Nat.mul_le_mul_left blocksPerSegment many
  unfold ledger
  omega

theorem dstCleared_victims_head {d : Dst} (wf : DstWellFormed d)
    (victims : d.victims = victim :: rest) {blkaddr : Nat}
    (segment : blockToSegment blkaddr = victim.segno) (positive : 0 < victim.nrValidBlock) :
    ∃ table, (dstCleared d blkaddr).victims =
      ⟨victim.segno, victim.nrValidBlock - 1, table⟩ :: rest := by
  have member : victim ∈ d.victims := by simp [victims]
  obtain ⟨bound, count, table, notFull⟩ := wf.victim victim member
  have removed : (dstRemoveVictim d victim.segno).victims = rest := by
    rw [dstRemoveVictim_victims wf, victims, eraseP_cons_of_pos (by simp)]
  refine ⟨update (d.array victim.segno).blockValidityTable
    (blockOffsetWithinSegment blkaddr) false, ?_⟩
  have sorted := wf.sorted
  rw [victims] at sorted
  have below := (pairwise_cons.mp sorted).1
  simp only [dstCleared, segment, dstStore, dstUpdateVictim_eq, dstSet_removeVictim, ← count]
  rw [if_neg (by omega)]
  simp only [dstAddVictim, dstSet, removed]
  cases rest with
  | nil => rfl
  | cons next rest =>
    rw [orderedInsert_cons, if_pos]
    have least := below next mem_cons_self
    unfold victimLess
    simp only
    omega

theorem dstFilled_victims {d : Dst} (wf : DstWellFormed d) {segno : Nat}
    (unlisted : segno ∉ d.victims.map Victim.segno) : (dstFilled d segno).victims = d.victims := by
  rw [dstFilled, dstSet_removeVictim]
  simp only [dstSet]
  rw [dstRemoveVictim_victims wf, eraseP_of_forall_not]
  intro victim member same
  have equal : victim.segno = segno := by simpa using same
  exact unlisted (equal ▸ mem_map_of_mem member)

/-! ## Moving one block -/

variable {env : Env K I M G} {lba : Nat} {record : Record K I M}

theorem GcInv.push {moved : Nat} (inv : GcInv env plain moved t)
    (victims : t.dst.victims = victim :: rest) (logged : sworndiskShouldThreadedLogging t = false)
    (heavier : ∀ other ∈ rest, 0 < other.nrValidBlock) (few : moved < 1023)
    (mapped : t.lsmTree lba = some record) (segment : blockToSegment record.pba = victim.segno) :
    ∃ t', LoggedTo env t lba (plain lba) t' ∧
      segbufPushBlock env (fun _ => none) t lba (plain lba) = some t' ∧
      GcInv env plain (moved + 1) t' ∧
      ∃ table, t'.dst.victims = ⟨victim.segno, victim.nrValidBlock - 1, table⟩ :: rest := by
  have c := inv.consistent
  have held := c.mapped lba record mapped
  have key := held.key
  have member : victim ∈ t.dst.victims := by simp [victims]
  have found : lsmSearch t lba = some record := by
    rw [lsmSearch, lsmKey_of_lt key]
    exact mapped
  have elsewhere := inv.consistent.wf.victim_ne_cur inv.full member
  have positive : 0 < victim.nrValidBlock := by
    rw [(c.wf.victim victim member).2.1, ← segment]
    exact c.wf.nrValidBlock_pos (c.nrDst ▸ held.bound) held.bit
  -- A full buffer finds a segment: fewer than 1023 blocks were moved out of this victim.
  have room : curBlock t + 1 = blocksPerSegment →
      ∃ seg < t.nrSegment, segmentValid t seg = false := by
    intro full
    refine exists_clear_of_countSet_lt ?_
    have space := inv.space
    rw [ledger, c.counted] at space
    unfold blocksPerSegment at full space
    omega
  obtain ⟨t', push, pushed⟩ := c.push_cases inv.aligned env logged key (plain lba) room
  have pushed := pushed fun _ => none
  rw [if_neg (by simp [inv.cleaning])] at pushed
  obtain ⟨table, cleared⟩ := dstCleared_victims_head c.wf victims segment positive
  have returned : (returnOld t lba).dst.victims =
      ⟨victim.segno, victim.nrValidBlock - 1, table⟩ :: rest := by
    rw [c.returnOld_eq found]
    exact cleared
  have consistent := push.consistent c inv.aligned key
  have bits : ∀ offset < blocksPerSegment,
      dstBit (returnOld t lba).dst (slotAddr t offset) = true := by
    intro offset inside
    rw [c.returnOld_eq found, dstBit_dstCleared, if_neg]
    · exact inv.full offset inside
    · intro equal
      refine elsewhere ?_
      rw [← segment, ← equal, slotAddr_segment inside]
  refine ⟨t', push, pushed, ⟨consistent, push.bufferAligned inv.aligned, ?_, ?_, ?_, ?_⟩, ?_⟩
  · have sealed := push.sealed inv.sealed c inv.aligned key
    rwa [update_eq_self] at sealed
  · rw [push.status_eq]
    exact inv.cleaning
  · cases push with
    | advance _ =>
      intro offset inside
      have slot : slotAddr (bumpBuffer (loggedBlock env t lba (plain lba))) offset =
          slotAddr t offset := by
        simp only [slotAddr, bumpBuffer, loggedBlock_curSegment]
      rw [slot]
      exact bits offset inside
    | allocate _ _ =>
      intro offset inside
      exact consistent.reservedBit offset (by simp) inside
  · have space := inv.space
    rw [push.ledger_eq, push.nrSegment_eq]
    omega
  · refine ⟨table, ?_⟩
    cases push with
    | advance _ => exact returned
    | @allocate seg full next =>
      obtain ⟨inside, clear⟩ := segValidatorNext_ok next
      have logged := c.loggedBlock inv.aligned.room env key (plain lba)
      have empty : ((returnOld t lba).dst.array seg).nrValidBlock = 0 :=
        logged.free seg (by rw [loggedBlock_nrSegment, ← c.nrSvt]; exact inside)
          (by simpa [segmentValid] using clear)
      have unlisted : seg ∉ (returnOld t lba).dst.victims.map Victim.segno := by
        rw [returned, map_cons, mem_cons]
        rintro (rfl | inRest)
        · have valid := held.valid
          rw [segment] at valid
          exact Bool.false_ne_true (clear.symm.trans valid)
        · obtain ⟨other, otherMember, rfl⟩ := mem_map.mp inRest
          have entry := (c.returnOld lba).wf.victim other (by simp [returned, otherMember])
          have := heavier other otherMember
          omega
      have filled := dstFilled_victims (c.returnOld lba).wf unlisted
      rw [returned] at filled
      exact filled

/-! ## Scanning one victim -/

/-- The scan of `victim` with the offsets `remaining` still to come: they are exactly
the offsets of the live blocks of the victim's segment, the victim is still the first
one, and what was read ahead is what the device holds. -/
structure ScanInv (env : Env K I M G) (plain : Nat → Block) (victim : Victim)
    (rest : List Victim) (remaining : List Nat) (scan : GcScan K I M G) : Prop where
  inv : ∃ moved, moved + remaining.length < blocksPerSegment ∧ GcInv env plain moved scan.state
  head : ∃ first, scan.state.dst.victims = first :: rest ∧ first.segno = victim.segno ∧
    first.nrValidBlock = remaining.length
  heavier : ∀ other ∈ rest, 0 < other.nrValidBlock
  nodup : remaining.Nodup
  inside : ∀ offset ∈ remaining, offset < blocksPerSegment
  owned : ∀ offset ∈ remaining, ∃ lba record, scan.state.lsmTree lba = some record ∧
    record.pba = victim.segno * blocksPerSegment + offset
  within : ∀ lba record, scan.state.lsmTree lba = some record →
    blockToSegment record.pba = victim.segno → blockOffsetWithinSegment record.pba ∈ remaining
  ahead : ∀ offset ∈ remaining, scan.regionBegin ≤ offset → offset < scan.regionEnd →
    scan.buffer offset = bufferedRead scan.state (curBlock scan.state)
      (victim.segno * blocksPerSegment + offset)

@[simp] theorem gcReadRegion_state (victim : Victim) (scan : GcScan K I M G) (offset : Nat) :
    (gcReadRegion victim scan offset).state = scan.state := by
  unfold gcReadRegion
  split <;> rfl

theorem lt_findNextZeroBit {table : Nat → Bool} {start : Nat} (set : table start = true)
    (inside : start < blocksPerSegment) : start < findNextZeroBit table start := by
  unfold findNextZeroBit
  cases scan : firstClear table start (blocksPerSegment - start) with
  | none => exact inside
  | some found =>
    obtain ⟨lower, -, clear⟩ := firstClear_eq_some scan
    have distinct : start ≠ found := by
      rintro rfl
      exact Bool.false_ne_true (clear.symm.trans set)
    simp only [getD_some]
    omega

variable {offset : Nat} {remaining : List Nat} {scan : GcScan K I M G}

theorem ScanInv.readRegion (si : ScanInv env plain victim rest (offset :: remaining) scan)
    (set : victim.blockValidityTable offset = true) :
    ScanInv env plain victim rest (offset :: remaining) (gcReadRegion victim scan offset) ∧
      (gcReadRegion victim scan offset).buffer offset =
        bufferedRead scan.state (curBlock scan.state)
          (victim.segno * blocksPerSegment + offset) := by
  have inside := si.inside offset mem_cons_self
  obtain ⟨moved, few, inv⟩ := si.inv
  have reads : ∀ other, sworndiskReadBlock scan.state other =
      bufferedRead scan.state (curBlock scan.state) other := fun other =>
    sworndiskReadBlock_eq (Nat.le_of_lt inv.aligned.room) other
  by_cases region : scan.regionBegin ≤ offset ∧ offset < scan.regionEnd
  · have same : gcReadRegion victim scan offset = scan := by
      rw [gcReadRegion, if_pos region]
    rw [same]
    exact ⟨si, si.ahead offset mem_cons_self region.1 region.2⟩
  · have further := lt_findNextZeroBit set inside
    have read : gcReadRegion victim scan offset =
        { scan with
          regionBegin := offset
          regionEnd := findNextZeroBit victim.blockValidityTable offset
          buffer := fun i =>
            if offset ≤ i ∧ i < findNextZeroBit victim.blockValidityTable offset then
              bufferedRead scan.state (curBlock scan.state) (victim.segno * blocksPerSegment + i)
            else scan.buffer i } := by
      simp only [gcReadRegion, if_neg region, reads]
    rw [read]
    refine ⟨⟨si.inv, si.head, si.heavier, si.nodup, si.inside, si.owned, si.within, ?_⟩, ?_⟩
    · intro other _ lower upper
      simp only
      rw [if_pos ⟨lower, upper⟩]
    · simp only
      rw [if_pos ⟨le_rfl, further⟩]

/-- The address and the plaintext that the scan finds for a block, if it opens. -/
def gcOpened (env : Env K I M G) (victim : Victim) (scan : GcScan K I M G) (offset : Nat) :
    Option (Nat × Block) :=
  let scan := gcReadRegion victim scan offset
  let lba := scan.state.rit (victim.segno * blocksPerSegment + offset)
  let record := (lsmSearch scan.state lba).getD env.unassigned
  (env.aead.decrypt record.key record.iv record.mac record.pba (scan.buffer offset)).map (lba, ·)

theorem gcBlock_eq (env : Env K I M G) (victim : Victim) (scan : GcScan K I M G) (offset : Nat) :
    gcBlock env victim scan offset =
      match gcOpened env victim scan offset with
      | none => some (gcReadRegion victim scan offset)
      | some (lba, plaintext) =>
        (segbufPushBlock env (fun _ => none) scan.state lba plaintext).map fun s =>
          { gcReadRegion victim scan offset with state := s } := by
  simp only [gcBlock, gcOpened, gcReadRegion_state]
  split
  · next closed => simp only [closed, map_none]
  · next plaintext opened => simp only [opened, map_some]

theorem ScanInv.block (si : ScanInv env plain victim rest (offset :: remaining) scan)
    (set : victim.blockValidityTable offset = true)
    (logged : sworndiskShouldThreadedLogging scan.state = false) :
    ∃ scan' lba, gcBlock env victim scan offset = some scan' ∧
      gcOpened env victim scan offset = some (lba, plain lba) ∧
      LoggedTo env scan.state lba (plain lba) scan'.state ∧ lba < 2 ^ 32 ∧
      (∃ record, scan.state.lsmTree lba = some record) ∧
      ScanInv env plain victim rest remaining scan' := by
  obtain ⟨si, current⟩ := si.readRegion set
  have inside := si.inside offset mem_cons_self
  obtain ⟨moved, few, inv⟩ := si.inv
  obtain ⟨first, victims, firstSegno, count⟩ := si.head
  obtain ⟨lba, record, mapped, address⟩ := si.owned offset mem_cons_self
  rw [gcReadRegion_state] at inv victims mapped
  have c := inv.consistent
  have held := c.mapped lba record mapped
  have segment : blockToSegment record.pba = victim.segno := by
    rw [address, blockToSegment_mul_add inside]
  rw [length_cons] at few count
  have few' : moved < 1023 := by
    unfold blocksPerSegment at few
    omega
  obtain ⟨t, push, pushed, inv', table, victims'⟩ := inv.push victims logged si.heavier few'
    mapped (segment.trans firstSegno.symm)
  have elsewhere : victim.segno ≠ scan.state.segBuffer.curSegment := by
    rw [← firstSegno]
    exact inv.consistent.wf.victim_ne_cur inv.full (by simp [victims])
  have searched : lsmSearch scan.state lba = some record := by
    rw [lsmSearch, lsmKey_of_lt held.key]
    exact mapped
  have opened : env.aead.decrypt record.key record.iv record.mac record.pba
      ((gcReadRegion victim scan offset).buffer offset) = some (plain lba) := by
    rw [current, ← address]
    exact env.aead.decrypt_encrypt (inv.sealed.cipher lba record mapped)
  have owner : scan.state.rit (victim.segno * blocksPerSegment + offset) = lba := by
    rw [← address]
    exact held.rit
  have found : gcOpened env victim scan offset = some (lba, plain lba) := by
    simp only [gcOpened, gcReadRegion_state, owner, searched, getD_some, opened,
      map_some]
  have step : gcBlock env victim scan offset =
      some { gcReadRegion victim scan offset with state := t } := by
    simp only [gcBlock_eq, found, pushed, map_some]
  have tree := push.lsmTree_eq held.key
  have slotSegment : blockToSegment (slotAddr scan.state (curBlock scan.state)) =
      scan.state.segBuffer.curSegment := slotAddr_segment inv.aligned.room
  have nodup := nodup_cons.mp si.nodup
  have later : ∀ other ∈ remaining, other < blocksPerSegment := fun other member =>
    si.inside other (mem_cons_of_mem _ member)
  refine ⟨_, lba, step, found, push, held.key, ⟨record, mapped⟩, ?_⟩
  refine ⟨⟨moved + 1, by omega, inv'⟩, ⟨_, victims', firstSegno, ?_⟩, si.heavier, nodup.2,
    later, ?_, ?_, ?_⟩
  · simp only [count, Nat.add_sub_cancel]
  · intro other member
    obtain ⟨owner, kept, ownerMapped, ownerAddress⟩ := si.owned other (mem_cons_of_mem _ member)
    rw [gcReadRegion_state] at ownerMapped
    refine ⟨owner, kept, ?_, ownerAddress⟩
    have distinct : owner ≠ lba := by
      rintro rfl
      have same : kept = record := some.inj (ownerMapped.symm.trans mapped)
      rw [same, address] at ownerAddress
      have : offset = other := by omega
      exact nodup.1 (this ▸ member)
    simp only
    rw [tree, update_of_ne distinct]
    exact ownerMapped
  · intro owner kept ownerMapped ownerSegment
    simp only at ownerMapped
    rw [tree] at ownerMapped
    by_cases same : owner = lba
    · rw [same, update_self] at ownerMapped
      rw [← some.inj ownerMapped] at ownerSegment
      exact absurd (ownerSegment.symm.trans slotSegment) elsewhere
    · rw [update_of_ne same] at ownerMapped
      have member := si.within owner kept (by rw [gcReadRegion_state]; exact ownerMapped)
        ownerSegment
      rcases mem_cons.mp member with here | later
      · exfalso
        refine same (c.lba_eq ownerMapped mapped (blkaddr_ext ?_ ?_))
        · rw [ownerSegment, segment]
        · rw [here, address, blockOffset_mul_add inside]
      · exact later
  · intro other member lower upper
    have ahead := si.ahead other (mem_cons_of_mem _ member) lower upper
    rw [gcReadRegion_state] at ahead
    simp only
    rw [ahead, push.bufferedRead_eq]
    intro equal
    refine elsewhere ?_
    rw [← slotSegment, ← equal, blockToSegment_mul_add (later other member)]

/-- What no part of a collection changes: the mapped addresses, the prefetcher, and that
a block that was not stale is not stale. -/
structure GcFrame (t t' : DmSwornDisk K I M G) : Prop where
  nrSegment : t'.nrSegment = t.nrSegment
  prefetcher : t'.prefetcher = t.prefetcher
  domain : ∀ lba, (t'.lsmTree lba).isSome = (t.lsmTree lba).isSome
  stale : ∀ blkaddr, Stale t' blkaddr → Stale t blkaddr

theorem GcFrame.refl (t : DmSwornDisk K I M G) : GcFrame t t :=
  ⟨rfl, rfl, fun _ => rfl, fun _ stale => stale⟩

theorem GcFrame.trans {t' t'' : DmSwornDisk K I M G} (first : GcFrame t t')
    (second : GcFrame t' t'') : GcFrame t t'' :=
  ⟨second.nrSegment.trans first.nrSegment, second.prefetcher.trans first.prefetcher,
    fun lba => (second.domain lba).trans (first.domain lba),
    fun blkaddr stale => first.stale blkaddr (second.stale blkaddr stale)⟩

theorem LoggedTo.gcFrame {s : DmSwornDisk K I M G} {data : Block}
    (push : LoggedTo env s lba data t) (c : Consistent s s.lsmTree (curBlock s))
    (key : lba < 2 ^ 32) (mapped : s.lsmTree lba = some record) : GcFrame s t := by
  refine ⟨push.nrSegment_eq, push.prefetcher_eq, ?_, fun blkaddr stale => push.stale c key stale⟩
  intro other
  rw [push.lsmTree_eq key]
  by_cases same : other = lba
  · rw [same, update_self, mapped]
    rfl
  · rw [update_of_ne same]

theorem ScanInv.quiet (si : ScanInv env plain victim rest (offset :: remaining) scan)
    (quiet : ¬ WrittenBack (threadedThreshold scan.state.nrSegment) (ledger scan.state)
      (offset :: remaining).length) :
    sworndiskShouldThreadedLogging scan.state = false ∧
      ∀ {lba t data}, LoggedTo env scan.state lba data t →
        ¬ WrittenBack (threadedThreshold t.nrSegment) (ledger t) remaining.length := by
  obtain ⟨first, victims, -, count⟩ := si.head
  refine ⟨not_threaded_of_head victims (count ▸ quiet), fun push => ?_⟩
  rw [push.ledger_eq, push.nrSegment_eq]
  unfold WrittenBack at quiet ⊢
  rw [length_cons] at quiet
  omega

theorem ScanInv.run (si : ScanInv env plain victim rest remaining scan)
    (set : ∀ offset ∈ remaining, victim.blockValidityTable offset = true)
    (quiet : ¬ WrittenBack (threadedThreshold scan.state.nrSegment) (ledger scan.state)
      remaining.length) :
    ∃ scan', remaining.foldlM (gcBlock env victim) scan = some scan' ∧
      ScanInv env plain victim rest [] scan' ∧ GcFrame scan.state scan'.state ∧
      ledger scan'.state = ledger scan.state + remaining.length ∧
      ∀ segno, segmentValid scan.state segno = true → segmentValid scan'.state segno = true := by
  induction remaining generalizing scan with
  | nil => exact ⟨scan, rfl, si, .refl _, rfl, fun _ valid => valid⟩
  | cons offset remaining ih =>
    obtain ⟨moved, -, inv⟩ := si.inv
    obtain ⟨logged, stillQuiet⟩ := si.quiet quiet
    obtain ⟨scan', lba, step, -, push, key, ⟨record, mapped⟩, si'⟩ :=
      si.block (set offset mem_cons_self) logged
    obtain ⟨scan'', run, done, frame, grown, valid⟩ :=
      ih si' (fun other member => set other (mem_cons_of_mem _ member)) (stillQuiet push)
    refine ⟨scan'', ?_, done, (push.gcFrame inv.consistent key mapped).trans frame, ?_, ?_⟩
    · rw [foldlM_cons, step]
      exact run
    · rw [grown, push.ledger_eq, length_cons]
      omega
    · intro segno before
      exact valid segno (push.segmentValid_mono before)

def SegmentUnused (t : DmSwornDisk K I M G) (segno : Nat) : Prop :=
  ∀ lba record, t.lsmTree lba = some record → blockToSegment record.pba ≠ segno

section

variable {env : Env K I M G} {t : DmSwornDisk K I M G}

section

variable (c : Consistent t t.lsmTree (curBlock t)) (member : victim ∈ t.dst.victims)
include c member

theorem Consistent.victim_table :
    victim.nrValidBlock = countSet victim.blockValidityTable blocksPerSegment ∧
      ∀ offset < blocksPerSegment,
        dstBit t.dst (victim.segno * blocksPerSegment + offset) =
          victim.blockValidityTable offset := by
  obtain ⟨bound, count, table, -⟩ := c.wf.victim victim member
  refine ⟨by rw [count, c.wf.count _ bound, table], fun offset inside => ?_⟩
  rw [dstBit, blockToSegment_mul_add inside, blockOffset_mul_add inside, table]

theorem Consistent.marked_of_mapped (mapped : t.lsmTree lba = some record)
    (segment : blockToSegment record.pba = victim.segno) :
    victim.blockValidityTable (blockOffsetWithinSegment record.pba) = true := by
  rw [← (c.victim_table member).2 _ (blockOffset_lt _), ← segment, blkaddr_eq]
  exact (c.mapped lba record mapped).bit

end

theorem mem_validOffsets :
    offset ∈ validOffsets victim ↔
      offset < blocksPerSegment ∧ victim.blockValidityTable offset = true := by
  rw [validOffsets, mem_filter, mem_range]

theorem Consistent.heavier (c : Consistent t t.lsmTree (curBlock t))
    (victims : t.dst.victims = victim :: rest) (occupied : victim.nrValidBlock ≠ 0) :
    ∀ other ∈ rest, 0 < other.nrValidBlock := by
  intro other member
  have sorted := c.wf.sorted
  rw [victims] at sorted
  have := (pairwise_cons.mp sorted).1 other member
  omega

variable (inv : GcInv env plain 0 t) (victims : t.dst.victims = victim :: rest)
include inv victims

theorem GcInv.scanInv (occupied : victim.nrValidBlock ≠ 0)
    (noStale : ∀ blkaddr, blockToSegment blkaddr = victim.segno → ¬ Stale t blkaddr) :
    ScanInv env plain victim rest (validOffsets victim) ⟨t, env.allocated, 0, 0⟩ := by
  have c := inv.consistent
  have member : victim ∈ t.dst.victims := by simp [victims]
  have elsewhere := c.wf.victim_ne_cur inv.full member
  obtain ⟨countTable, bitTable⟩ := c.victim_table member
  have count : (validOffsets victim).length = victim.nrValidBlock := by
    rw [validOffsets, length_filter_range, ← countTable]
  refine ⟨⟨0, ?_, inv⟩, ⟨victim, victims, rfl, count.symm⟩, c.heavier victims occupied,
    nodup_range.filter _, fun offset offsetMember => (mem_validOffsets.mp offsetMember).1,
    ?_, ?_, fun _ _ _ upper => absurd upper (Nat.not_lt_zero _)⟩
  · rw [Nat.zero_add, count]
    exact (c.wf.victim victim member).2.2.2
  · intro offset offsetMember
    obtain ⟨inside, set⟩ := mem_validOffsets.mp offsetMember
    by_contra unowned
    push Not at unowned
    refine noStale (victim.segno * blocksPerSegment + offset)
      (blockToSegment_mul_add inside) ⟨?_, ?_, unowned, ?_⟩
    · rw [blockToSegment_mul_add inside, ← c.nrDst]
      exact (c.wf.victim victim member).1
    · rw [bitTable offset inside]
      exact set
    · intro slot _ slotInside equal
      have segment := congrArg blockToSegment equal
      rw [blockToSegment_mul_add inside, slotAddr_segment slotInside] at segment
      exact elsewhere segment
  · intro lba record mapped segment
    exact mem_validOffsets.mpr ⟨blockOffset_lt _, c.marked_of_mapped member mapped segment⟩

theorem GcInv.scanVictim
    (quiet : ¬ WrittenBack (threadedThreshold t.nrSegment) (ledger t) victim.nrValidBlock)
    (noStale : ∀ blkaddr, blockToSegment blkaddr = victim.segno → ¬ Stale t blkaddr) :
    ∃ t' moved, gcScanVictim env victim t = some t' ∧ moved < blocksPerSegment ∧
      GcInv env plain moved t' ∧ ledger t' = ledger t + victim.nrValidBlock ∧
      (segmentValid t victim.segno = false → moved = 0) ∧
      (∃ first, t'.dst.victims = first :: rest ∧ first.segno = victim.segno) ∧
      SegmentUnused t' victim.segno ∧ GcFrame t t' ∧
      segmentValid t' victim.segno = segmentValid t victim.segno ∧
      ∀ other ∈ rest, segmentValid t' other.segno = segmentValid t other.segno := by
  have c := inv.consistent
  have member : victim ∈ t.dst.victims := by simp [victims]
  have bound := (c.wf.victim victim member).1
  by_cases empty : victim.nrValidBlock = 0
  · have clear := countSet_eq_zero_iff.mp ((c.victim_table member).1.symm.trans empty)
    refine ⟨t, 0, ?_, by decide, inv, ?_, fun _ => rfl, ⟨victim, victims, rfl⟩, ?_, .refl t, rfl,
      fun _ _ => rfl⟩
    · rw [gcScanVictim, if_neg (not_not.mpr empty)]
    · rw [empty, Nat.add_zero]
    · intro lba record mapped segment
      have set := c.marked_of_mapped member mapped segment
      rw [clear _ (blockOffset_lt _)] at set
      exact Bool.false_ne_true set
  · have count : (validOffsets victim).length = victim.nrValidBlock := by
      rw [validOffsets, length_filter_range, ← (c.victim_table member).1]
    obtain ⟨scan, run, done, frame, grown, valid⟩ :=
      (inv.scanInv victims empty noStale).run
        (fun offset offsetMember => (mem_validOffsets.mp offsetMember).2) (count ▸ quiet)
    obtain ⟨moved, few, inv'⟩ := done.inv
    obtain ⟨first, victims', firstSegno, -⟩ := done.head
    have validBefore : segmentValid t victim.segno = true :=
      c.segmentValid_of_pos (c.nrDst ▸ bound) (by
        rw [← (c.wf.victim victim member).2.1]
        omega)
    refine ⟨scan.state, moved, ?_, by simpa using few, inv', count ▸ grown, ?_,
      ⟨first, victims', firstSegno⟩, ?_, frame, ?_, ?_⟩
    · rw [gcScanVictim, if_pos empty, run]
      rfl
    · intro invalid
      exact absurd (invalid.symm.trans validBefore) Bool.false_ne_true
    · intro lba record mapped segment
      exact absurd (done.within lba record mapped segment) not_mem_nil
    · rw [validBefore, valid _ validBefore]
    · intro other otherMember
      have entry := c.wf.victim other (by simp [victims, otherMember])
      have otherValid : segmentValid t other.segno = true :=
        c.segmentValid_of_pos (c.nrDst ▸ entry.1) (by
          have := c.heavier victims empty other otherMember
          omega)
      rw [otherValid, valid _ otherValid]

end

end SwornDisk.C
