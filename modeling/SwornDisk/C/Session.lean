import SwornDisk.C.Gc
import SwornDisk.C.Target

/-!
# Pushes over a session

One push with everything it may trigger: threaded logging, a flush, a new segment, a
foreground collection.  The condition under which it keeps tables and data in order is
on the state before the push; mounting brings a formatted device, and one that was
unmounted in order, back into order.
-/

namespace SwornDisk.C

open Lib Function Option

variable {K I M G : Type}

/-- The victims that the collection started by a push of `lba` would come to. -/
def collected (s : DmSwornDisk K I M G) (lba : Nat) : List Victim :=
  match (segValidatorNext s.segValidator).1 with
  | .ok seg =>
    gcReached (Function.update (segmentValid s) seg true) 0
      (dstRemoveVictim (returnOld s lba).dst seg).victims
  | .error _ => []

/-- The push of `lba` fills the segment buffer. -/
def FillsBuffer (s : DmSwornDisk K I M G) : Prop :=
  sworndiskShouldThreadedLogging s = false ∧ curBlock s + 1 = blocksPerSegment

/-- The push fills the segment buffer, and the next segment starts a collection. -/
def StartsGc (s : DmSwornDisk K I M G) : Prop :=
  FillsBuffer s ∧ gcThreshold s.nrSegment < s.segAllocator.nrValidSegment + 1

/-- When a push of `lba` is regular: the address is a key of the tree, threaded logging
does not go to the buffer's own segment, a full buffer finds a free segment, and the
victims of a collection are at most three quarters full. -/
structure PushSafe (s : DmSwornDisk K I M G) (lba : Nat) : Prop where
  key : lba < 2 ^ 32
  elsewhere : sworndiskShouldThreadedLogging s = true → ∀ victim,
    dstPeekVictim (returnOld s lba).dst = some victim →
      victim.segno ≠ s.segBuffer.curSegment
  segment : FillsBuffer s → ∃ seg < s.nrSegment, segmentValid s seg = false
  light : StartsGc s → ∀ victim ∈ collected s lba, victim.nrValidBlock ≤ 768

/-- The victims of a collection started by the push have no stale block. -/
def NoneStale (s : DmSwornDisk K I M G) (lba : Nat) : Prop :=
  StartsGc s → ∀ victim ∈ collected s lba,
    ∀ blkaddr, blockToSegment blkaddr = victim.segno → ¬ Stale s blkaddr

/-- Tables, segment buffer and data are in order between two operations. -/
structure InOrder (env : Env K I M G) (plain : Nat → Block) (s : DmSwornDisk K I M G) : Prop where
  consistent : Consistent s s.lsmTree (curBlock s)
  aligned : BufferAligned s
  sealed : Sealed env s s.lsmTree plain (curBlock s)
  idle : s.segAllocator.status = .allocating

/-- What a push does besides keeping order: it maps one address, makes no block stale
and does not touch the prefetcher. -/
structure PushFrame (s t : DmSwornDisk K I M G) (lba : Nat) : Prop where
  nrSegment : t.nrSegment = s.nrSegment
  prefetcher : t.prefetcher = s.prefetcher
  domain : ∀ other, (t.lsmTree other).isSome = (other == lba || (s.lsmTree other).isSome)
  stale : ∀ blkaddr, Stale t blkaddr → Stale s blkaddr

variable {s t : DmSwornDisk K I M G} {lba : Nat} {record : Record K I M}

theorem PushFrame.of_lsmTree (nrSegment : t.nrSegment = s.nrSegment)
    (prefetcher : t.prefetcher = s.prefetcher)
    (tree : t.lsmTree = update s.lsmTree lba (some record))
    (stale : ∀ blkaddr, Stale t blkaddr → Stale s blkaddr) : PushFrame s t lba := by
  refine ⟨nrSegment, prefetcher, fun other => ?_, stale⟩
  rw [tree]
  by_cases same : other = lba
  · simp [same]
  · simp [same]

theorem PushFrame.trans_gc {t' : DmSwornDisk K I M G} (push : PushFrame s t lba)
    (frame : GcFrame t t') : PushFrame s t' lba :=
  ⟨frame.nrSegment.trans push.nrSegment, frame.prefetcher.trans push.prefetcher,
    fun other => (frame.domain other).trans (push.domain other),
    fun blkaddr stale => push.stale blkaddr (frame.stale blkaddr stale)⟩

variable {used blkaddr : Nat}

theorem Consistent.stale_threadedBlock (c : Consistent s s.lsmTree used) (env : Env K I M G)
    (key : lba < 2 ^ 32) (data : Block) (victim : Victim)
    (stale : Stale (C.threadedBlock env s lba data victim) blkaddr) : Stale s blkaddr := by
  have tree := threadedBlock_lsmTree env s key data victim
  have notTaken : blkaddr ≠ threadedAddr victim := fun equal =>
    stale.unowned lba _ (by rw [tree, update_self]) equal.symm
  have returned : dstBit (C.returnOld s lba).dst blkaddr = true := by
    have bit := stale.bit
    change dstBit (dstMarked (C.returnOld s lba).dst (threadedAddr victim)) blkaddr = true at bit
    rwa [dstBit_dstMarked, if_neg notTaken] at bit
  obtain ⟨bit, notOld⟩ := c.dstBit_of_returnOld returned
  refine ⟨?_, bit, ?_, ?_⟩
  · have bound := stale.bound
    simpa [C.threadedBlock, C.sealBlock] using bound
  · exact stale.unowned_of_update key tree notOld
  · intro offset reserved inside
    have slot : slotAddr (C.threadedBlock env s lba data victim) offset = slotAddr s offset := by
      simp only [slotAddr, threadedBlock_curSegment]
    rw [← slot]
    exact stale.unreserved offset (by rw [threadedBlock_curBlock]; exact reserved) inside

variable {env : Env K I M G} {plain : Nat → Block} {data : Block}

theorem InOrder.of_loggedTo (o : InOrder env plain s) (push : LoggedTo env s lba data t)
    (key : lba < 2 ^ 32) :
    InOrder env (update plain lba data) t ∧ PushFrame s t lba :=
  ⟨⟨push.consistent o.consistent o.aligned key, push.bufferAligned o.aligned,
      push.sealed o.sealed o.consistent o.aligned key, push.status_eq.trans o.idle⟩,
    .of_lsmTree push.nrSegment_eq push.prefetcher_eq (push.lsmTree_eq key)
      fun _ stale => push.stale o.consistent key stale⟩

theorem InOrder.gcReady (o : InOrder env plain s) (empty : curBlock s = 0) :
    GcReady env plain s := by
  refine ⟨o.consistent, o.aligned, o.sealed, fun offset inside => ?_, absurd empty⟩
  exact o.consistent.reservedBit offset (by omega) inside

theorem collected_eq {seg : Nat} (found : (segValidatorNext s.segValidator).1 = .ok seg) :
    gcReached (segmentValid (allocSegment (rewindBuffer (loggedBlock env s lba data)) seg)) 0
        (allocSegment (rewindBuffer (loggedBlock env s lba data)) seg).dst.victims =
      collected s lba := by
  have victims : (allocSegment (rewindBuffer (loggedBlock env s lba data)) seg).dst.victims =
      (dstRemoveVictim (returnOld s lba).dst seg).victims := by
    simp only [allocSegment, dstFilled, dstSet_removeVictim, rewindBuffer, segbufFlushBios,
      loggedBlock_dst]
    rfl
  rw [segmentValid_allocate, victims, collected, found]

theorem InOrder.collection (o : InOrder env plain s) (safe : PushSafe s lba)
    (fresh : NoneStale s lba) (push : LoggedTo env s lba data t)
    (logged : sworndiskShouldThreadedLogging s = false) (full : curBlock s + 1 = blocksPerSegment)
    (triggered : saWillTriggerGc t = true) :
    GcReady env (update plain lba data) t ∧ GcFresh t ∧ GcSafe t := by
  obtain ⟨inOrder, frame⟩ := o.of_loggedTo push safe.key
  cases push with
  | advance room => omega
  | @allocate seg _ found =>
    have starts : StartsGc s := by
      refine ⟨⟨logged, full⟩, ?_⟩
      simpa [saWillTriggerGc, allocSegment, rewindBuffer, segbufFlushBios] using triggered
    refine ⟨inOrder.gcReady (by rw [curBlock_allocSegment, curBlock_rewindBuffer]), ?_,
      gcSafe_of_light ?_⟩
    · intro victim reached blkaddr segment stale
      rw [collected_eq found] at reached
      exact fresh starts victim reached blkaddr segment (frame.stale blkaddr stale)
    · rw [collected_eq found]
      exact safe.light starts

theorem InOrder.push (o : InOrder env plain s) (safe : PushSafe s lba) (fresh : NoneStale s lba)
    (enough : s.nrSegment ≤ env.gcFuel) (data : Block) :
    ∃ t, segbufPushBlock env (saForegroundGc env) s lba data = some t ∧
      InOrder env (update plain lba data) t ∧ PushFrame s t lba := by
  have c := o.consistent
  have key := safe.key
  cases threaded : sworndiskShouldThreadedLogging s with
  | true =>
    obtain ⟨victim, peek, member, bound, valid⟩ := c.exists_threadedVictim threaded lba
    have elsewhere := safe.elsewhere threaded victim peek
    have sectors : (threadedBlock env s lba data victim).segBuffer.curSector =
        s.segBuffer.curSector := by
      simp [threadedBlock, sealBlock]
    refine ⟨_, c.segbufPushBlock_threaded env _ threaded lba data peek member, ?_, ?_⟩
    · constructor
      · rw [threadedBlock_curBlock]
        exact c.threadedBlock env key data member bound valid
      · refine ⟨?_, ?_⟩
        · rw [threadedBlock_curBlock, sectors]
          exact o.aligned.aligned
        · rw [threadedBlock_curBlock]
          exact o.aligned.room
      · rw [threadedBlock_curBlock]
        exact o.sealed.threadedBlock c key data member elsewhere
      · simpa [threadedBlock, sealBlock] using o.idle
    · refine .of_lsmTree ?_ ?_ (threadedBlock_lsmTree env s key data victim)
        fun blkaddr stale => c.stale_threadedBlock env key data victim stale
      · simp [threadedBlock, sealBlock]
      · simp [threadedBlock, sealBlock]
  | false =>
    obtain ⟨t, push, pushed⟩ := c.push_cases o.aligned env threaded key data
      fun full => safe.segment ⟨threaded, full⟩
    have pushed := pushed (saForegroundGc env)
    obtain ⟨inOrder, frame⟩ := o.of_loggedTo push key
    by_cases collects : curBlock s + 1 = blocksPerSegment ∧ saWillTriggerGc t = true ∧
        s.segAllocator.status ≠ .cleaning
    · rw [if_pos collects] at pushed
      obtain ⟨full, triggered, -⟩ := collects
      obtain ⟨ready, gcFresh, gcSafe⟩ := o.collection safe fresh push threaded full triggered
      obtain ⟨t', collection, done, gcFrame, idle, -⟩ :=
        ready.saForegroundGc gcFresh gcSafe (frame.nrSegment.symm ▸ enough)
      exact ⟨t', pushed.trans collection,
        ⟨done.consistent, done.aligned, done.sealed, idle⟩, frame.trans_gc gcFrame⟩
    · rw [if_neg collects] at pushed
      exact ⟨t, pushed, inOrder, frame⟩

theorem pushSafe_of_room (key : lba < 2 ^ 32)
    (few : s.segAllocator.nrValidSegment < threadedThreshold s.nrSegment)
    (room : curBlock s + 1 < blocksPerSegment) : PushSafe s lba ∧ NoneStale s lba := by
  have logged : sworndiskShouldThreadedLogging s = false := by
    rw [sworndiskShouldThreadedLogging, if_pos few]
  have notFull : ¬ FillsBuffer s := fun fills => Nat.ne_of_lt room fills.2
  refine ⟨⟨key, ?_, fun fills => absurd fills notFull, fun starts => absurd starts.1 notFull⟩,
    fun starts => absurd starts.1 notFull⟩
  intro threaded
  rw [logged] at threaded
  exact absurd threaded Bool.false_ne_true

theorem InOrder.push_room (o : InOrder env plain s)
    (gc : DmSwornDisk K I M G → Option (DmSwornDisk K I M G)) (key : lba < 2 ^ 32)
    (logged : sworndiskShouldThreadedLogging s = false) (room : curBlock s + 1 < blocksPerSegment)
    (data : Block) :
    segbufPushBlock env gc s lba data = some (bumpBuffer (loggedBlock env s lba data)) ∧
      InOrder env (update plain lba data) (bumpBuffer (loggedBlock env s lba data)) := by
  have notFull : curBlock s + 1 ≠ blocksPerSegment := Nat.ne_of_lt room
  obtain ⟨t, push, pushed⟩ := o.consistent.push_cases o.aligned env logged key data
    fun full => absurd full notFull
  have pushed := pushed gc
  rw [if_neg fun collects => notFull collects.1] at pushed
  have inOrder := (o.of_loggedTo push key).1
  cases push with
  | allocate full found => exact absurd full notFull
  | advance room => exact ⟨pushed, inOrder⟩

/-- Whether a partial write finds its block in the segment buffer. -/
def modifiesBuffer (s : DmSwornDisk K I M G) (bio : Bio) : Bool :=
  match lsmSearch s (bioGetBlockAddress bio) with
  | some record => bio.pages.length < sectorsPerBlock && inSegmentBuffer s record.pba
  | none => false

/-- The block over which the pages of a bio are laid when they go to a new slot. -/
def bioBase (env : Env K I M G) (s : DmSwornDisk K I M G) (bio : Bio) : Block :=
  if sectorsPerBlock ≤ bio.pages.length then s.segBuffer.buffer (curBlock s)
  else underlyingBlock env s (lsmSearch s (bioGetBlockAddress bio))

theorem bioGetBlockAddress_lt (bio : Bio) : bioGetBlockAddress bio < 2 ^ 32 :=
  Nat.lt_of_le_of_lt (Nat.div_le_self _ _) (Nat.mod_lt _ (Nat.two_pow_pos 32))

variable {bio : Bio}

theorem segbufPushBio_fill (env : Env K I M G) (fills : modifiesBuffer s bio = false) :
    segbufPushBio env s bio = fillBuffer env s bio (bioBase env s bio) := by
  unfold segbufPushBio bioBase
  by_cases whole : sectorsPerBlock ≤ bio.pages.length
  · rw [if_pos whole, if_pos whole]
  · rw [if_neg whole, if_neg whole]
    unfold modifiesBuffer at fills
    cases found : lsmSearch s (bioGetBlockAddress bio) with
    | none => rfl
    | some record =>
      rw [found] at fills
      have outside : inSegmentBuffer s record.pba = false := by
        simpa [Nat.not_le.mp whole] using fills
      simp only [outside, Bool.false_eq_true, if_false]

theorem segbufPushBio_modify (env : Env K I M G) (modifies : modifiesBuffer s bio = true) :
    ∃ record, s.lsmTree (bioGetBlockAddress bio) = some record ∧
      inSegmentBuffer s record.pba = true ∧
      segbufPushBio env s bio =
        some (modifyInMemBuffer env s (bioGetBlockAddress bio) record bio) := by
  unfold modifiesBuffer at modifies
  cases found : lsmSearch s (bioGetBlockAddress bio) with
  | none =>
    rw [found] at modifies
    exact absurd modifies Bool.false_ne_true
  | some record =>
    rw [found] at modifies
    obtain ⟨part, inside⟩ : bio.pages.length < sectorsPerBlock ∧
        inSegmentBuffer s record.pba = true := by simpa using modifies
    refine ⟨record, ?_, inside, ?_⟩
    · rwa [lsmSearch, lsmKey_of_lt (bioGetBlockAddress_lt bio)] at found
    · simp only [segbufPushBio, Nat.not_le.mpr part, if_false, found, inside, if_true]

section

variable (s data)

/-- The state after `fill_buffer` put a block into the current slot. -/
def fillSlot : DmSwornDisk K I M G :=
  { s with segBuffer := { s.segBuffer with
    buffer := Function.update s.segBuffer.buffer (curBlock s) data } }

theorem returnOld_fillSlot_dst (lba : Nat) :
    (returnOld (fillSlot s data) lba).dst = (returnOld s lba).dst := by
  have same : lsmSearch (fillSlot s data) lba = lsmSearch s lba := rfl
  unfold returnOld
  rw [same]
  cases lsmSearch s lba with
  | none => rfl
  | some pre => rfl

theorem collected_fillSlot (lba : Nat) : collected (fillSlot s data) lba = collected s lba := by
  unfold collected
  rw [returnOld_fillSlot_dst]
  rfl

end

theorem PushSafe.fillSlot (safe : PushSafe s lba) (data : Block) :
    PushSafe (fillSlot s data) lba := by
  refine ⟨safe.key, ?_, safe.segment, ?_⟩
  · intro threaded victim peek
    rw [returnOld_fillSlot_dst] at peek
    exact safe.elsewhere threaded victim peek
  · intro starts victim member
    rw [collected_fillSlot] at member
    exact safe.light starts victim member

theorem Stale.of_fillSlot (stale : Stale (fillSlot s data) blkaddr) : Stale s blkaddr :=
  ⟨stale.bound, stale.bit, stale.unowned, stale.unreserved⟩

theorem NoneStale.fillSlot (fresh : NoneStale s lba) (data : Block) :
    NoneStale (fillSlot s data) lba := by
  intro starts victim member blkaddr segment stale
  rw [collected_fillSlot] at member
  exact fresh starts victim member blkaddr segment stale.of_fillSlot

theorem InOrder.fillSlot (o : InOrder env plain s) (data : Block) :
    InOrder env plain (fillSlot s data) := by
  refine ⟨o.consistent.congr rfl rfl rfl rfl rfl rfl rfl, ⟨o.aligned.aligned, o.aligned.room⟩,
    ⟨o.sealed.cipher, ?_⟩, o.idle⟩
  intro lba record mapped segment filled
  have unused : blockOffsetWithinSegment record.pba ≠ curBlock s := Nat.ne_of_lt filled
  simp only [C.fillSlot]
  rw [update_of_ne unused]
  exact o.sealed.buffered lba record mapped segment filled

theorem InOrder.underlyingBlock_eq (o : InOrder env plain s)
    (mapped : s.lsmTree lba = some record) :
    underlyingBlock env s (some record) = plain lba := by
  have opened := env.aead.decrypt_encrypt (o.sealed.cipher lba record mapped)
  simp only [underlyingBlock, sworndiskReadBlock_eq (Nat.le_of_lt o.aligned.room), opened,
    getD_some]

/-- The state after the slot of a buffered record was filled with other data and sealed
again under the same key. -/
def resealSlot (env : Env K I M G) (s : DmSwornDisk K I M G) (lba : Nat) (record : Record K I M)
    (data : Block) : DmSwornDisk K I M G :=
  { s with
    segBuffer := { s.segBuffer with
      buffer := Function.update s.segBuffer.buffer (blockOffsetWithinSegment record.pba) data
      pipe := Function.update s.segBuffer.pipe (blockOffsetWithinSegment record.pba)
        (env.aead.encrypt record.key record.iv record.pba data).1 }
    lsmTree := Function.update s.lsmTree lba
      (some { record with mac := (env.aead.encrypt record.key record.iv record.pba data).2 }) }

variable {other : Nat} {held : Record K I M}

section

variable {env : Env K I M G} {s : DmSwornDisk K I M G} {lba : Nat} {record : Record K I M}

theorem resealSlot_pba (mapped : s.lsmTree lba = some record)
    (mappedNow : (resealSlot env s lba record data).lsmTree other = some held) :
    ∃ before, s.lsmTree other = some before ∧ held.pba = before.pba := by
  simp only [resealSlot] at mappedNow
  by_cases same : other = lba
  · subst same
    rw [update_self] at mappedNow
    obtain rfl := some.inj mappedNow
    exact ⟨record, mapped, rfl⟩
  · rw [update_of_ne same] at mappedNow
    exact ⟨held, mappedNow, rfl⟩

theorem Consistent.resealSlot (c : Consistent s s.lsmTree used)
    (mapped : s.lsmTree lba = some record) (data : Block) :
    Consistent (resealSlot env s lba record data) (resealSlot env s lba record data).lsmTree
      used := by
  refine ⟨⟨c.nrDst, c.nrSvt, c.wf, ?_, c.free, c.counted⟩, c.curBound, c.curValid, c.reservedBit,
    ?_⟩
  · intro other held mappedNow
    obtain ⟨before, mappedBefore, samePba⟩ := resealSlot_pba mapped mappedNow
    have kept := c.mapped other before mappedBefore
    exact ⟨kept.key, samePba ▸ kept.bound, samePba ▸ kept.rit, samePba ▸ kept.bit,
      samePba ▸ kept.valid⟩
  · intro offset reserved inside other held mappedNow
    obtain ⟨before, mappedBefore, samePba⟩ := resealSlot_pba mapped mappedNow
    rw [samePba]
    exact c.reservedFree offset reserved inside other before mappedBefore

theorem Stale.of_resealSlot (mapped : s.lsmTree lba = some record)
    (stale : Stale (resealSlot env s lba record data) blkaddr) : Stale s blkaddr := by
  refine ⟨stale.bound, stale.bit, ?_, stale.unreserved⟩
  intro other held mappedBefore
  by_cases same : other = lba
  · subst same
    obtain rfl : record = held := by rwa [mapped, some.injEq] at mappedBefore
    have mappedNow : (C.resealSlot env s other record data).lsmTree other = some _ :=
      update_self ..
    have elsewhere := stale.unowned other _ mappedNow
    exact elsewhere
  · exact stale.unowned other held (by
      simp only [C.resealSlot]
      rwa [update_of_ne same])

theorem Consistent.offset_ne (c : Consistent s s.lsmTree used)
    (mapped : s.lsmTree lba = some record)
    (segment : blockToSegment record.pba = s.segBuffer.curSegment) (distinct : other ≠ lba)
    (mappedOther : s.lsmTree other = some held)
    (otherSegment : blockToSegment held.pba = s.segBuffer.curSegment) :
    blockOffsetWithinSegment held.pba ≠ blockOffsetWithinSegment record.pba := fun equal =>
  distinct (c.lba_eq mappedOther mapped (blkaddr_ext (otherSegment.trans segment.symm) equal))

theorem Sealed.resealSlot (sl : Sealed env s s.lsmTree plain used)
    (c : Consistent s s.lsmTree used) (mapped : s.lsmTree lba = some record)
    (segment : blockToSegment record.pba = s.segBuffer.curSegment)
    (filled : blockOffsetWithinSegment record.pba < used) (data : Block) :
    Sealed env (resealSlot env s lba record data) (resealSlot env s lba record data).lsmTree
      (update plain lba data) used := by
  constructor
  · intro other held mappedNow
    simp only [C.resealSlot] at mappedNow
    by_cases same : other = lba
    · subst same
      rw [update_self] at mappedNow ⊢
      obtain rfl := some.inj mappedNow
      simp only [bufferedRead, C.resealSlot, segment, filled, and_self, if_true,
        update_self]
    · rw [update_of_ne same] at mappedNow ⊢
      have unchanged : bufferedRead (C.resealSlot env s lba record data) used held.pba =
          bufferedRead s used held.pba := by
        simp only [bufferedRead, C.resealSlot]
        by_cases inBuffer : blockToSegment held.pba = s.segBuffer.curSegment
        · rw [update_of_ne (c.offset_ne mapped segment same mappedNow inBuffer)]
          rfl
        · simp only [inBuffer, false_and, if_false]
      rw [unchanged]
      exact sl.cipher other held mappedNow
  · intro other held mappedNow heldSegment heldFilled
    simp only [C.resealSlot] at mappedNow heldSegment ⊢
    by_cases same : other = lba
    · subst same
      rw [update_self] at mappedNow ⊢
      obtain rfl := some.inj mappedNow
      exact update_self ..
    · rw [update_of_ne same] at mappedNow ⊢
      rw [update_of_ne (c.offset_ne mapped segment same mappedNow heldSegment)]
      exact sl.buffered other held mappedNow heldSegment heldFilled

end

theorem slot_eq_offset {pba : Nat} (segment : blockToSegment pba = s.segBuffer.curSegment) :
    pba - s.segBuffer.curSegment * blocksPerSegment = blockOffsetWithinSegment pba := by
  have address := blkaddr_eq pba
  rw [segment] at address
  omega

theorem modifyInMemBuffer_eq (env : Env K I M G) (bio : Bio) (key : lba < 2 ^ 32)
    (segment : blockToSegment record.pba = s.segBuffer.curSegment) :
    modifyInMemBuffer env s lba record bio =
      resealSlot env s lba record (bioGetData bio.pages (bioBlockSectorOffset bio)
        (s.segBuffer.buffer (blockOffsetWithinSegment record.pba))) := by
  simp only [modifyInMemBuffer, resealSlot, slot_eq_offset segment, lsmKey_of_lt key]

theorem InOrder.modify (o : InOrder env plain s) (key : lba < 2 ^ 32)
    (mapped : s.lsmTree lba = some record) (inside : inSegmentBuffer s record.pba = true)
    (bio : Bio) :
    InOrder env (update plain lba
        (bioGetData bio.pages (bioBlockSectorOffset bio) (plain lba)))
      (modifyInMemBuffer env s lba record bio) ∧
      PushFrame s (modifyInMemBuffer env s lba record bio) lba := by
  obtain ⟨segment, filled⟩ := (inSegmentBuffer_iff (Nat.le_of_lt o.aligned.room) _).mp inside
  have current := o.sealed.buffered lba record mapped segment filled
  rw [modifyInMemBuffer_eq env bio key segment, current]
  exact ⟨⟨o.consistent.resealSlot mapped _, ⟨o.aligned.aligned, o.aligned.room⟩,
      o.sealed.resealSlot o.consistent mapped segment filled _, o.idle⟩,
    .of_lsmTree rfl rfl rfl fun _ stale => stale.of_resealSlot mapped⟩

/-- When the push of a bio is regular: it stays inside the buffer, or its push is. -/
def BioSafe (s : DmSwornDisk K I M G) (bio : Bio) : Prop :=
  modifiesBuffer s bio = false → PushSafe s (bioGetBlockAddress bio)

/-- A regular push of a bio lays its pages over a block: for a partial write the current one
of a mapped address, or what the slot holds if there is none. -/
theorem InOrder.pushBio (o : InOrder env plain s) (safe : BioSafe s bio)
    (fresh : modifiesBuffer s bio = false → NoneStale s (bioGetBlockAddress bio))
    (enough : s.nrSegment ≤ env.gcFuel) :
    ∃ t base, segbufPushBio env s bio = some t ∧
      InOrder env (update plain (bioGetBlockAddress bio)
        (bioGetData bio.pages (bioBlockSectorOffset bio) base)) t ∧
      PushFrame s t (bioGetBlockAddress bio) ∧
      (bio.pages.length < sectorsPerBlock → (s.lsmTree (bioGetBlockAddress bio)).isSome = true →
        base = plain (bioGetBlockAddress bio)) ∧
      (bio.pages.length < sectorsPerBlock → s.lsmTree (bioGetBlockAddress bio) = none →
        base = s.segBuffer.buffer (curBlock s)) := by
  have key := bioGetBlockAddress_lt bio
  cases modifies : modifiesBuffer s bio with
  | true =>
    obtain ⟨record, mapped, inside, pushed⟩ := segbufPushBio_modify env modifies
    obtain ⟨inOrder, frame⟩ := o.modify key mapped inside bio
    refine ⟨_, _, pushed, inOrder, frame, fun _ _ => rfl, fun _ unmapped => ?_⟩
    exact absurd (mapped.symm.trans unmapped) (by simp)
  | false =>
    let data := bioGetData bio.pages (bioBlockSectorOffset bio) (bioBase env s bio)
    obtain ⟨t, pushed, inOrder, frame⟩ := (o.fillSlot data).push
      ((safe modifies).fillSlot data) ((fresh modifies).fillSlot data) enough data
    refine ⟨t, bioBase env s bio, ?_, inOrder, ⟨frame.nrSegment, frame.prefetcher, frame.domain,
      fun blkaddr stale => (frame.stale blkaddr stale).of_fillSlot⟩, ?_, ?_⟩
    · rw [segbufPushBio_fill env modifies]
      exact pushed
    · intro part isMapped
      obtain ⟨record, mapped⟩ := isSome_iff_exists.mp isMapped
      rw [bioBase, if_neg (Nat.not_le.mpr part), lsmSearch, lsmKey_of_lt key, mapped]
      exact o.underlyingBlock_eq mapped
    · intro part unmapped
      rw [bioBase, if_neg (Nat.not_le.mpr part), lsmSearch, lsmKey_of_lt key, unmapped]
      rfl

end SwornDisk.C
