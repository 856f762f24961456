import SwornDisk.C.DataTrace

/-!
# Watching the data path

What a monitor has to keep at a push into the segment buffer, at a threaded push and at a
write inside the buffer, so that it accepts the trace of a whole session: through scans
and collections, and from one write to the next.
-/

namespace SwornDisk.C

open Lib List Option

variable {K I M G S : Type}

/-- The effects of a push into the segment buffer that leads from `s` to `t`. -/
def loggedEffects (env : Env K I M G) (s t : DmSwornDisk K I M G) (lba : Nat) (data : Block) :
    List (Effect K I M) :=
  .fill s.segBuffer.curSegment (curBlock s) (pushBlock env s lba (slotAddr s (curBlock s)) data)
      s.lsmTree ::
    if curBlock s + 1 = blocksPerSegment then [.flush s.segBuffer.curSegment t.lsmTree] else []

/-- The effects of a threaded push into `victim`. -/
def threadedEffects (env : Env K I M G) (s : DmSwornDisk K I M G) (lba : Nat) (data : Block)
    (victim : Victim) : List (Effect K I M) :=
  [.fill s.segBuffer.curSegment (curBlock s) (pushBlock env s lba (threadedAddr victim) data)
      s.lsmTree,
    .write (pushBlock env s lba (threadedAddr victim) data)
      (threadedBlock env s lba data victim).lsmTree]

variable {s t : DmSwornDisk K I M G} {env : Env K I M G} {lba : Nat} {data : Block}

theorem pushEffects_logged (ba : BufferAligned s)
    (logged : sworndiskShouldThreadedLogging s = false)
    (tree : t.lsmTree = (loggedBlock env s lba data).lsmTree) :
    pushEffects env s lba data = loggedEffects env s t lba data := by
  have slot : slotAddr (returnOld s lba) (curBlock (returnOld s lba)) =
      slotAddr s (curBlock s) := by
    simp only [slotAddr, curBlock, returnOld_segBuffer]
  have full : sectorsPerSegment ≤ s.segBuffer.curSector + sectorsPerBlock ↔
      curBlock s + 1 = blocksPerSegment := by
    have aligned := ba.aligned
    have room := ba.room
    unfold sectorsPerSegment
    unfold blocksPerSegment at *
    unfold sectorsPerBlock at *
    omega
  rw [loggedBlock] at tree
  unfold pushEffects
  dsimp only
  rw [logged, nextBlock_false, slot]
  simp only [sealedEffects, loggedEffects, tree, full, Bool.false_eq_true, if_false]

theorem LoggedTo.lsmTree_loggedBlock (push : LoggedTo env s lba data t) :
    t.lsmTree = (loggedBlock env s lba data).lsmTree := by
  cases push with
  | advance room => rfl
  | allocate full found => rfl

variable {victim : Victim}

theorem Consistent.pushEffects_threaded {used : Nat} (c : Consistent s s.lsmTree used)
    (threaded : sworndiskShouldThreadedLogging s = true) (lba : Nat) (data : Block)
    (peek : dstPeekVictim (C.returnOld s lba).dst = some victim)
    (member : victim ∈ (C.returnOld s lba).dst.victims) :
    pushEffects env s lba data = threadedEffects env s lba data victim := by
  unfold pushEffects
  dsimp only
  rw [threaded, c.nextBlock_threaded lba peek member]
  rfl

/-- A monitor that follows the data path: its invariant with the state survives the pushes
into the segment buffer, the threaded pushes into other segments and the writes inside the
buffer, and allows the last flush. -/
structure Watches (env : Env K I M G) (m : Monitor (Effect K I M) S)
    (inv : DmSwornDisk K I M G → S → Prop) : Prop where
  congr : ∀ {s t g}, inv s g → t.lsmTree = s.lsmTree →
    t.segBuffer.curSegment = s.segBuffer.curSegment →
    t.segBuffer.curSector = s.segBuffer.curSector → t.nrRecord = s.nrRecord → inv t g
  logged : ∀ {s t lba data}, Consistent s s.lsmTree (curBlock s) → BufferAligned s →
    lba < 2 ^ 32 → LoggedTo env s lba data t → m.Tracks inv s (loggedEffects env s t lba data) t
  threaded : ∀ {s lba data victim}, Consistent s s.lsmTree (curBlock s) → BufferAligned s →
    lba < 2 ^ 32 → victim ∈ (returnOld s lba).dst.victims →
    victim.segno ≠ s.segBuffer.curSegment →
    m.Tracks inv s (threadedEffects env s lba data victim) (threadedBlock env s lba data victim)
  modified : ∀ {s lba record data}, Consistent s s.lsmTree (curBlock s) → BufferAligned s →
    s.lsmTree lba = some record → blockToSegment record.pba = s.segBuffer.curSegment →
    blockOffsetWithinSegment record.pba < curBlock s →
    m.Tracks inv s
      [.fill s.segBuffer.curSegment (blockOffsetWithinSegment record.pba)
        ⟨lba, record.key, record.iv, record.pba, data⟩ s.lsmTree]
      (resealSlot env s lba record data)
  unmounted : ∀ {s g}, Consistent s s.lsmTree (curBlock s) → BufferAligned s → inv s g →
    m.allows g (.flush s.segBuffer.curSegment s.lsmTree)

/-- A session between two writes: everything is in order and no block is stale. -/
structure Running (env : Env K I M G) (s : DmSwornDisk K I M G) : Prop where
  inOrder : ∃ plain, InOrder env plain s
  fresh : ∀ blkaddr, ¬ Stale s blkaddr
  enough : s.nrSegment ≤ env.gcFuel

variable {bio : Bio}

theorem Running.write (running : Running env s) (safe : BioSafe s bio) :
    ∃ t, sworndiskDoWrite env s bio = some t ∧ Running env t := by
  obtain ⟨plain, o⟩ := running.inOrder
  obtain ⟨t, base, pushed, inOrder, frame, -⟩ := o.pushBio safe
    (fun _ _ _ _ blkaddr _ => running.fresh blkaddr) running.enough
  refine ⟨bioPrefetcherClear t, ?_, ⟨_, inOrder.withPrefetcher _⟩, ?_, ?_⟩
  · rw [sworndiskDoWrite, pushed, map_some]
  · exact fun blkaddr stale => running.fresh blkaddr (frame.stale blkaddr stale.of_prefetcher)
  · exact frame.nrSegment.trans_le running.enough

def WritesSafe (env : Env K I M G) : DmSwornDisk K I M G → List Bio → Prop
  | _, [] => True
  | s, bio :: bios =>
    BioSafe s bio ∧ ∀ t, sworndiskDoWrite env s bio = some t → WritesSafe env t bios

variable {bios : List Bio}

theorem Sparse.writesSafe (sparse : Sparse env bios.length s) : WritesSafe env s bios := by
  induction bios generalizing s with
  | nil => trivial
  | cons bio bios ih =>
    refine ⟨sparse.bioSafe bio, fun t wrote => ?_⟩
    obtain ⟨next, wrote', left⟩ := sparse.write bio
    obtain rfl := some.inj (wrote'.symm.trans wrote)
    exact ih left

theorem Running.runWrites (running : Running env s) (safe : WritesSafe env s bios) :
    ∃ t, runWrites env s bios = some t := by
  induction bios generalizing s with
  | nil => exact ⟨s, rfl⟩
  | cons bio bios ih =>
    obtain ⟨next, wrote, running'⟩ := running.write safe.1
    obtain ⟨t, ran⟩ := ih running' (safe.2 next wrote)
    refine ⟨t, ?_⟩
    rw [C.runWrites, foldlM_cons, wrote]
    exact ran

theorem Running.after (running : Running env s) (safe : WritesSafe env s bios)
    (ran : C.runWrites env s bios = some t) : Running env t := by
  induction bios generalizing s with
  | nil =>
    obtain rfl := some.inj ran
    exact running
  | cons bio bios ih =>
    obtain ⟨next, wrote, running'⟩ := running.write safe.1
    rw [runWrites_cons wrote] at ran
    exact ih running' (safe.2 next wrote) ran

theorem modifyEffect_eq (bio : Bio) (key : lba < 2 ^ 32) {record : Record K I M}
    (segment : blockToSegment record.pba = s.segBuffer.curSegment) :
    modifyEffect s lba record bio =
      .fill s.segBuffer.curSegment (blockOffsetWithinSegment record.pba)
        ⟨lba, record.key, record.iv, record.pba, bioGetData bio.pages (bioBlockSectorOffset bio)
          (s.segBuffer.buffer (blockOffsetWithinSegment record.pba))⟩ s.lsmTree := by
  simp only [modifyEffect, slot_eq_offset segment, lsmKey_of_lt key]

variable {rest : List Victim} {g : S}

namespace Watches

variable {env : Env K I M G} {m : Monitor (Effect K I M) S}
  {inv : DmSwornDisk K I M G → S → Prop} {plain : Nat → Block} (w : Watches env m inv)
include w

theorem scan {remaining : List Nat} {scan last : GcScan K I M G}
    (si : ScanInv env plain victim rest remaining scan)
    (set : ∀ offset ∈ remaining, victim.blockValidityTable offset = true)
    (quiet : ¬ WrittenBack (threadedThreshold scan.state.nrSegment) (ledger scan.state)
      remaining.length)
    (run : remaining.foldlM (gcBlock env victim) scan = some last) :
    m.Tracks inv scan.state (scanEffects env victim scan remaining) last.state := by
  induction remaining generalizing scan with
  | nil =>
    obtain rfl := some.inj run
    exact Monitor.tracks_nil fun _ holds => holds
  | cons offset remaining ih =>
    obtain ⟨moved, -, gcInv⟩ := si.inv
    obtain ⟨logged, still⟩ := si.quiet quiet
    obtain ⟨next, lba, step, opened, push, key, -, si'⟩ :=
      si.block (set offset mem_cons_self) logged
    rw [foldlM_cons, step] at run
    have block := w.logged gcInv.consistent gcInv.aligned key push
    rw [← pushEffects_logged gcInv.aligned logged push.lsmTree_loggedBlock] at block
    simp only [scanEffects, gcBlockEffects, opened, step]
    exact block.append
      (ih si' (fun other member => set other (mem_cons_of_mem _ member)) (still push) run)

theorem scanVictim {scanned : DmSwornDisk K I M G} (gcInv : GcInv env plain 0 t)
    (victims : t.dst.victims = victim :: rest)
    (quiet : ¬ WrittenBack (threadedThreshold t.nrSegment) (ledger t) victim.nrValidBlock)
    (noStale : ∀ blkaddr, blockToSegment blkaddr = victim.segno → ¬ Stale t blkaddr)
    (scan : gcScanVictim env victim t = some scanned) :
    m.Tracks inv t (scanVictimEffects env victim t) scanned := by
  unfold gcScanVictim at scan
  unfold scanVictimEffects
  split at scan
  · next occupied =>
      obtain ⟨last, run, rfl⟩ := map_eq_some_iff.mp scan
      rw [if_pos occupied]
      have member : victim ∈ t.dst.victims := by simp [victims]
      have marked : (validOffsets victim).length = victim.nrValidBlock := by
        rw [validOffsets, length_filter_range, (gcInv.consistent.victim_table member).1]
      have tracks := w.scan (gcInv.scanInv victims occupied noStale)
        (fun offset member => (mem_validOffsets.mp member).2) (marked ▸ quiet) run
      exact tracks
  · next empty =>
      obtain rfl := some.inj scan
      rw [if_neg empty]
      exact Monitor.tracks_nil fun _ holds => holds

theorem reclaim (holds : inv t g) (victim : Victim) (clean : Nat) :
    inv (gcReclaim victim clean t).2 g := by
  unfold gcReclaim
  split
  · exact w.congr holds rfl rfl rfl rfl
  · exact w.congr holds rfl rfl rfl rfl
  · exact w.congr holds rfl rfl rfl rfl

theorem loop (victims : List Victim) :
    ∀ {t last : DmSwornDisk K I M G} {fuel clean : Nat}, GcInv env plain 0 t →
      t.dst.victims = victims → VictimsFresh t clean victims →
      VictimsQuiet t clean victims →
      gcLoop (gcScanVictim env) fuel clean t = some last →
      m.Tracks inv t (gcLoopEffects env fuel clean t) last := by
  induction victims with
  | nil =>
    intro t last fuel clean gcInv victims _ _ loop
    have peek : dstPeekVictim t.dst = none := by rw [dstPeekVictim, victims]; rfl
    rw [gcLoop, peek] at loop
    obtain rfl := some.inj loop
    cases fuel with
    | zero => exact Monitor.tracks_nil fun _ holds => holds
    | succ fuel =>
      rw [gcLoopEffects, peek]
      exact Monitor.tracks_nil fun _ holds => holds
  | cons victim rest ih =>
    intro t last fuel clean gcInv victims fresh quiet loop
    have peek : dstPeekVictim t.dst = some victim := by rw [dstPeekVictim, victims]; rfl
    rw [gcLoop, peek] at loop
    by_cases more : clean < gcTarget
    · simp only [more, if_true] at loop
      cases fuel with
      | zero => exact absurd loop (by simp)
      | succ fuel =>
        have quietHead := quiet (victim, ledger t) (by simp [gcSchedule, more])
        obtain ⟨scanned, scan, reclaimed, restVictims, frame, -, restFresh, schedule⟩ :=
          gcInv.iteration victims more fresh quietHead
        simp only [scan, bind_some] at loop
        have noStale := fresh victim (by simp [gcReached, more])
        have first := w.scanVictim gcInv victims quietHead noStale scan
        have restQuiet : VictimsQuiet (gcReclaim victim clean scanned).2
            (gcReclaim victim clean scanned).1 rest := by
          intro entry member
          rw [frame.nrSegment]
          exact quiet entry (schedule ▸ mem_cons_of_mem _ member)
        have others := ih reclaimed restVictims restFresh restQuiet loop
        simp only [gcLoopEffects, peek, more, if_true, scan]
        exact first.append (others.congr (fun g holds => w.reclaim holds victim clean)
          fun _ holds => holds)
    · simp only [more, if_false, some.injEq] at loop
      obtain rfl := loop
      cases fuel with
      | zero => exact Monitor.tracks_nil fun _ holds => holds
      | succ fuel =>
        simp only [gcLoopEffects, peek, more, if_false]
        exact Monitor.tracks_nil fun _ holds => holds

theorem collection (ready : GcReady env plain s) (fresh : GcFresh s) (safe : GcSafe s)
    (collected : saForegroundGc env s = some t) :
    m.Tracks inv s (gcLoopEffects env env.gcFuel 0 (withStatus s .cleaning)) t := by
  obtain ⟨last, loop, rfl⟩ := map_eq_some_iff.mp collected
  have tracks := w.loop s.dst.victims ready.gcInv rfl fresh.victimsFresh safe loop
  exact tracks.congr (fun _ holds => w.congr holds rfl rfl rfl rfl)
    fun _ holds => w.congr holds rfl rfl rfl rfl

theorem push (o : InOrder env plain s) (safe : PushSafe s lba) (fresh : NoneStale s lba)
    (pushed : segbufPushBlock env (saForegroundGc env) s lba data = some t) :
    m.Tracks inv s (segbufPushBlockEffects env s lba data) t := by
  have c := o.consistent
  have key := safe.key
  unfold segbufPushBlockEffects
  cases threaded : sworndiskShouldThreadedLogging s with
  | true =>
    obtain ⟨victim, peek, member, -, -⟩ := c.exists_threadedVictim threaded lba
    have returns := fun gc => c.segbufPushBlock_threaded env gc threaded lba data peek member
    obtain rfl := some.inj ((returns _).symm.trans pushed)
    simp only [collectionStart_of_returns returns, append_nil]
    rw [c.pushEffects_threaded threaded lba data peek member]
    exact w.threaded c o.aligned key member (safe.elsewhere threaded victim peek)
  | false =>
    obtain ⟨t', push, outcome⟩ := c.push_cases o.aligned env threaded key data
      fun full => safe.segment ⟨threaded, full⟩
    have logged := w.logged c o.aligned key push
    rw [← pushEffects_logged o.aligned threaded push.lsmTree_loggedBlock] at logged
    by_cases collects : curBlock s + 1 = blocksPerSegment ∧ saWillTriggerGc t' = true ∧
        s.segAllocator.status ≠ .cleaning
    · simp only [if_pos collects] at outcome
      obtain ⟨ready, gcFresh, gcSafe⟩ :=
        o.collection safe fresh push threaded collects.1 collects.2.1
      simp only [collectionStart_of_collects outcome]
      exact logged.append (w.collection ready gcFresh gcSafe ((outcome _).symm.trans pushed))
    · simp only [if_neg collects] at outcome
      obtain rfl := some.inj ((outcome (saForegroundGc env)).symm.trans pushed)
      simp only [collectionStart_of_returns outcome, append_nil]
      exact logged

theorem write (o : InOrder env plain s) (safe : BioSafe s bio)
    (fresh : modifiesBuffer s bio = false → NoneStale s (bioGetBlockAddress bio))
    (wrote : sworndiskDoWrite env s bio = some t) : m.Tracks inv s (bioEffects env s bio) t := by
  have key := bioGetBlockAddress_lt bio
  obtain ⟨pushed, push, rfl⟩ := map_eq_some_iff.mp wrote
  have cleared : ∀ g, inv pushed g → inv (bioPrefetcherClear pushed) g := fun _ holds =>
    w.congr holds rfl rfl rfl rfl
  refine Monitor.Tracks.congr ?_ (fun _ holds => holds) cleared
  unfold bioEffects
  cases modifies : modifiesBuffer s bio with
  | true =>
    obtain ⟨record, mapped, inside, modified⟩ := segbufPushBio_modify env modifies
    obtain rfl := some.inj (modified.symm.trans push)
    have found : lsmSearch s (bioGetBlockAddress bio) = some record := by
      rw [lsmSearch, lsmKey_of_lt key, mapped]
    obtain ⟨segment, filled⟩ := (inSegmentBuffer_iff (Nat.le_of_lt o.aligned.room) _).mp inside
    simp only [found, if_true]
    rw [modifyInMemBuffer_eq env bio key segment, modifyEffect_eq bio key segment]
    exact w.modified o.consistent o.aligned mapped segment filled
  | false =>
    rw [segbufPushBio_fill env modifies, fillBuffer_eq] at push
    have tracks := w.push (o.fillSlot _) ((safe modifies).fillSlot _)
      ((fresh modifies).fillSlot _) push
    have start : ∀ g, inv s g → inv (fillSlot s (bioGetData bio.pages
        (bioBlockSectorOffset bio) (bioBase env s bio))) g := fun _ holds =>
      w.congr holds rfl rfl rfl rfl
    cases lsmSearch s (bioGetBlockAddress bio) with
    | none => exact tracks.congr start fun _ holds => holds
    | some record => exact tracks.congr start fun _ holds => holds

theorem session (running : Running env s) (safe : WritesSafe env s bios) (holds : inv s g) :
    m.Accepts g (sessionEffects env s bios) := by
  obtain ⟨plain, o⟩ := running.inOrder
  induction bios generalizing s g plain with
  | nil => exact ⟨w.unmounted o.consistent o.aligned holds, trivial⟩
  | cons bio bios ih =>
    obtain ⟨t, wrote, running'⟩ := running.write safe.1
    obtain ⟨plain', o'⟩ := running'.inOrder
    obtain ⟨accepts, holds'⟩ := w.write o safe.1
      (fun _ _ _ _ blkaddr _ => running.fresh blkaddr) wrote g holds
    simp only [sessionEffects, wrote]
    exact (m.accepts_append).mpr ⟨accepts, ih running' (safe.2 t wrote) holds' plain' o'⟩

end Watches

theorem running_format {nrSegment : Nat} {dataDev : Nat → G} (enough : nrSegment ≤ env.gcFuel)
    (mounted : mount env (format nrSegment dataDev) = some s) :
    Running env s ∧ s.lsmTree = (fun _ => none) ∧ curBlock s = 0 := by
  have agree := tablesAgree_format (K := K) (I := I) (M := M) nrSegment dataDev
  have empty : SealedOnDevice env (format nrSegment dataDev : DmSwornDisk K I M G)
      fun _ _ _ => 0 := fun lba record mapped => absurd mapped (by simp [format])
  obtain ⟨seg, u, keeps, idle, rfl⟩ := agree.mount_keeps mounted
  refine ⟨⟨⟨_, keeps.inOrder empty idle⟩, ?_, keeps.nrSegment.trans_le enough⟩, keeps.lsmTree,
    Nat.zero_div _⟩
  intro blkaddr stale
  have bit : dstBit (allocSegment (loaded env (format nrSegment dataDev)) seg).dst blkaddr =
      true := by
    have bit := stale.bit
    simp only [dstBit, keeps.array] at bit
    exact bit
  simp only [allocSegment] at bit
  rw [dstBit_dstFilled] at bit
  split at bit
  · rename_i segment
    refine stale.unreserved (blockOffsetWithinSegment blkaddr) ?_ (blockOffset_lt blkaddr) ?_
    · exact (Nat.zero_div _).trans_le (Nat.zero_le _)
    · have current : u.segBuffer.curSegment = seg :=
        congrArg SegmentBuffer.curSegment keeps.segBuffer
      simp only [slotAddr, current]
      rw [← segment, blkaddr_eq]
  · simp [dstBit, loaded, format] at bit

theorem writesSafe_firstMount (env : Env K I M G) (dataDev : Nat → G) (enough : 64 ≤ env.gcFuel)
    (short : bios.length ≤ 2 * blocksPerSegment) :
    mount env (format 64 dataDev) = some (firstMount env 64 dataDev) ∧
      WritesSafe env (firstMount env 64 dataDev) bios := by
  have room : Sparse env (2 * blocksPerSegment) (firstMount env 64 dataDev) :=
    sparse_firstMount env dataDev (by decide) (by decide) enough (by decide)
  exact ⟨mount_format env dataDev (by decide) (by decide), (room.mono short).writesSafe⟩

end SwornDisk.C
