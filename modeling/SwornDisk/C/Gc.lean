import SwornDisk.C.GcScan

/-!
# Garbage collection

`sa_foreground_gc` scans a victim, frees its segment and goes on until enough blocks
are clean.  A victim without stale blocks is emptied by its scan as long as threaded
logging stays off, so that freeing it loses nothing; if it comes on, what is left of
the victim is rewritten in place and then freed with its data.
-/

namespace SwornDisk.C

open Lib List Function Option

variable {K I M G : Type}

/-! ## Freeing the victim -/

variable {t : DmSwornDisk K I M G}

theorem gcReclaim_eq (victim : Victim) (clean : Nat)
    (bound : victim.segno < t.segValidator.nrSegment) :
    gcReclaim victim clean t =
      (clean + (if segmentValid t victim.segno then blocksPerSegment - victim.nrValidBlock else 0),
        { t with
          segValidator := { t.segValidator with
            segValidityTable := update t.segValidator.segValidityTable victim.segno false }
          segAllocator := { t.segAllocator with
            nrValidSegment := t.segAllocator.nrValidSegment -
              (if segmentValid t victim.segno then 1 else 0) }
          dst := dstRemoveVictim t.dst victim.segno }) := by
  simp only [gcReclaim, segValidatorTestAndReturn, bound, if_true]
  cases valid : segmentValid t victim.segno with
  | true =>
    have entry : t.segValidator.segValidityTable victim.segno = true := valid
    simp [entry]
  | false =>
    have entry : t.segValidator.segValidityTable victim.segno = false := valid
    simp [entry]

variable {segno : Nat}

theorem Consistent.nrValidBlock_eq_zero (c : Consistent t t.lsmTree (curBlock t))
    (bound : segno < t.nrSegment) (elsewhere : segno ≠ t.segBuffer.curSegment)
    (unused : SegmentUnused t segno)
    (noStale : ∀ blkaddr, blockToSegment blkaddr = segno → ¬ Stale t blkaddr) :
    (t.dst.array segno).nrValidBlock = 0 := by
  rw [c.wf.count segno (c.nrDst ▸ bound)]
  refine countSet_eq_zero_iff.mpr fun offset inside => ?_
  cases entry : (t.dst.array segno).blockValidityTable offset with
  | false => rfl
  | true =>
    exfalso
    have segment : blockToSegment (segno * blocksPerSegment + offset) = segno :=
      blockToSegment_mul_add inside
    refine noStale (segno * blocksPerSegment + offset) segment ⟨?_, ?_, ?_, ?_⟩
    · rw [segment]
      exact bound
    · rw [dstBit, segment, blockOffset_mul_add inside]
      exact entry
    · intro lba record mapped equal
      exact unused lba record mapped (equal ▸ segment)
    · intro slot _ slotInside equal
      have slotSegment := congrArg blockToSegment equal
      rw [segment, slotAddr_segment slotInside] at slotSegment
      exact elsewhere slotSegment

theorem dstBit_dstRemoveVictim (d : Dst) (segno blkaddr : Nat) :
    dstBit (dstRemoveVictim d segno) blkaddr = dstBit d blkaddr := by
  simp only [dstBit, dstRemoveVictim_array]

variable {victim : Victim}

theorem Consistent.ledger_reclaim {tree : Nat → Option (Record K I M)} {used : Nat}
    (c : Consistent t tree used) (bound : victim.segno < t.nrSegment) (clean : Nat) :
    ledger (gcReclaim victim clean t).2 =
      ledger t - if segmentValid t victim.segno then blocksPerSegment else 0 := by
  rw [gcReclaim_eq victim clean (c.nrSvt ▸ bound)]
  change curBlock t + blocksPerSegment * (_ - _) = _
  rw [ledger, Nat.mul_sub]
  cases valid : segmentValid t victim.segno with
  | true =>
    have counted := countSet_clear bound valid
    rw [← c.counted] at counted
    simp only [if_true, Nat.mul_one, ← counted, Nat.mul_add, Nat.add_sub_cancel]
    omega
  | false => simp

theorem Consistent.reclaim {tree : Nat → Option (Record K I M)} {used : Nat}
    (c : Consistent t tree used) (bound : victim.segno < t.nrSegment)
    (elsewhere : victim.segno ≠ t.segBuffer.curSegment)
    (empty : (t.dst.array victim.segno).nrValidBlock = 0) (clean : Nat) :
    Consistent (gcReclaim victim clean t).2 tree used := by
  rw [gcReclaim_eq victim clean (c.nrSvt ▸ bound)]
  refine ⟨⟨by simpa using c.nrDst, c.nrSvt, c.wf.removeVictim _, ?_, ?_, ?_⟩, c.curBound, ?_, ?_,
    c.reservedFree⟩
  · intro lba record mapped
    have held := c.mapped lba record mapped
    refine ⟨held.key, held.bound, held.rit, (dstBit_dstRemoveVictim ..).trans held.bit, ?_⟩
    simp only [segmentValid]
    rw [update_of_ne (c.not_mapped_of_empty empty mapped)]
    exact held.valid
  · intro segno inside free
    by_cases same : segno = victim.segno
    · simpa [same] using empty
    · simp only [segmentValid, update_of_ne same] at free
      simpa using c.free segno inside free
  · change _ = countSet (update (segmentValid t) victim.segno false) t.nrSegment
    rw [countSet_update_false bound, ← c.counted]
  · simp only [segmentValid]
    rw [update_of_ne elsewhere.symm]
    exact c.curValid
  · intro offset reserved inside
    exact (dstBit_dstRemoveVictim ..).trans (c.reservedBit offset reserved inside)

variable {env : Env K I M G} {plain : Nat → Block} {rest : List Victim}

theorem GcInv.reclaim {moved : Nat} (inv : GcInv env plain moved t) {first : Victim}
    (few : moved < blocksPerSegment) (clean : Nat)
    (unmoved : segmentValid t victim.segno = false → moved = 0)
    (victims : t.dst.victims = first :: rest) (firstSegno : first.segno = victim.segno)
    (unused : SegmentUnused t victim.segno)
    (noStale : ∀ blkaddr, blockToSegment blkaddr = victim.segno → ¬ Stale t blkaddr) :
    GcInv env plain 0 (gcReclaim victim clean t).2 ∧
      (gcReclaim victim clean t).2.dst.victims = rest ∧
      GcFrame t (gcReclaim victim clean t).2 ∧
      (∀ segno ≠ victim.segno,
        segmentValid (gcReclaim victim clean t).2 segno = segmentValid t segno) ∧
      SegmentUnused (gcReclaim victim clean t).2 victim.segno := by
  have c := inv.consistent
  have member : first ∈ t.dst.victims := by simp [victims]
  have bound : victim.segno < t.nrSegment := by
    rw [← firstSegno, ← c.nrDst]
    exact (c.wf.victim first member).1
  have elsewhere : victim.segno ≠ t.segBuffer.curSegment := by
    rw [← firstSegno]
    exact c.wf.victim_ne_cur inv.full member
  have empty := c.nrValidBlock_eq_zero bound elsewhere unused noStale
  have freed := c.reclaim bound elsewhere empty clean
  have left := c.ledger_reclaim bound clean
  rw [gcReclaim_eq victim clean (c.nrSvt ▸ bound)] at freed left ⊢
  refine ⟨⟨freed, ⟨inv.aligned.aligned, inv.aligned.room⟩,
    ⟨inv.sealed.cipher, inv.sealed.buffered⟩, inv.cleaning, ?_, ?_⟩, ?_, ?_, ?_, unused⟩
  · intro offset inside
    exact (dstBit_dstRemoveVictim ..).trans (inv.full offset inside)
  · have space := inv.space
    rw [left]
    change _ ≤ blocksPerSegment * t.nrSegment + 0
    cases valid : segmentValid t victim.segno with
    | true =>
      simp only [if_true]
      omega
    | false =>
      have none := unmoved valid
      simp only [Bool.false_eq_true, if_false]
      omega
  · rw [dstRemoveVictim_victims c.wf, victims, eraseP_cons_of_pos (by simp [firstSegno])]
  · exact ⟨rfl, rfl, fun _ => rfl, fun blkaddr stale =>
      ⟨stale.bound, (dstBit_dstRemoveVictim ..).symm.trans stale.bit, stale.unowned,
        stale.unreserved⟩⟩
  · intro segno distinct
    simp only [segmentValid]
    rw [update_of_ne distinct]

/-! ## The collection -/

/-- The segments that a collection frees, each with the state right after its
validity bit was cleared. -/
def gcCleared (scanVictim : Victim → DmSwornDisk K I M G → Option (DmSwornDisk K I M G)) :
    Nat → Nat → DmSwornDisk K I M G → List (Nat × DmSwornDisk K I M G)
  | 0, _, _ => []
  | fuel + 1, clean, s =>
    match dstPeekVictim s.dst with
    | none => []
    | some victim =>
      if clean < gcTarget then
        match scanVictim victim s with
        | none => []
        | some s =>
          (victim.segno, (gcReclaim victim clean s).2) ::
            gcCleared scanVictim fuel (gcReclaim victim clean s).1
              (gcReclaim victim clean s).2
      else []

/-- The victims that a collection comes to, each with the ledger before its scan, as long
as the scans empty them. -/
def gcSchedule (valid : Nat → Bool) : Nat → Nat → List Victim → List (Victim × Nat)
  | _, _, [] => []
  | clean, held, victim :: rest =>
    if clean < gcTarget then
      (victim, held) :: gcSchedule valid
        (clean + if valid victim.segno then blocksPerSegment - victim.nrValidBlock else 0)
        (held + victim.nrValidBlock - if valid victim.segno then blocksPerSegment else 0) rest
    else []

theorem map_fst_gcSchedule (valid : Nat → Bool) (clean held : Nat) (victims : List Victim) :
    (gcSchedule valid clean held victims).map Prod.fst = gcReached valid clean victims := by
  induction victims generalizing clean held with
  | nil => rfl
  | cons victim rest ih =>
    simp only [gcSchedule, gcReached]
    split
    · rw [map_cons, ih]
    · rfl

theorem gcSchedule_congr {left right : Nat → Bool} {victims : List Victim}
    (agree : ∀ victim ∈ victims, left victim.segno = right victim.segno) (clean held : Nat) :
    gcSchedule left clean held victims = gcSchedule right clean held victims := by
  induction victims generalizing clean held with
  | nil => rfl
  | cons victim rest ih =>
    simp only [gcSchedule]
    rw [agree victim mem_cons_self,
      ih fun other member => agree other (mem_cons_of_mem _ member)]

def VictimsFresh (t : DmSwornDisk K I M G) (clean : Nat) (victims : List Victim) : Prop :=
  ∀ victim ∈ gcReached (segmentValid t) clean victims,
    ∀ blkaddr, blockToSegment blkaddr = victim.segno → ¬ Stale t blkaddr

def VictimsQuiet (t : DmSwornDisk K I M G) (clean : Nat) (victims : List Victim) : Prop :=
  ∀ entry ∈ gcSchedule (segmentValid t) clean (ledger t) victims,
    ¬ WrittenBack (threadedThreshold t.nrSegment) entry.2 entry.1.nrValidBlock

/-- One iteration of the loop: a first victim that is not written back is scanned and its
segment is freed; the others are left to come as they were. -/
theorem GcInv.iteration (inv : GcInv env plain 0 t) (victims : t.dst.victims = victim :: rest)
    {clean : Nat} (more : clean < gcTarget) (fresh : VictimsFresh t clean (victim :: rest))
    (quiet : ¬ WrittenBack (threadedThreshold t.nrSegment) (ledger t) victim.nrValidBlock) :
    ∃ scanned, gcScanVictim env victim t = some scanned ∧
      GcInv env plain 0 (gcReclaim victim clean scanned).2 ∧
      (gcReclaim victim clean scanned).2.dst.victims = rest ∧
      GcFrame t (gcReclaim victim clean scanned).2 ∧
      SegmentUnused (gcReclaim victim clean scanned).2 victim.segno ∧
      VictimsFresh (gcReclaim victim clean scanned).2 (gcReclaim victim clean scanned).1 rest ∧
      gcSchedule (segmentValid t) clean (ledger t) (victim :: rest) =
        (victim, ledger t) :: gcSchedule (segmentValid (gcReclaim victim clean scanned).2)
          (gcReclaim victim clean scanned).1 (ledger (gcReclaim victim clean scanned).2) rest := by
  simp only [VictimsFresh, gcReached, more, if_true] at fresh
  have noStale := fresh victim mem_cons_self
  obtain ⟨scanned, moved, scan, few, scannedInv, grown, unmoved,
    ⟨first, firstVictims, firstSegno⟩, unused, scanFrame, validVictim, validRest⟩ :=
    inv.scanVictim victims quiet noStale
  obtain ⟨reclaimedInv, restVictims, reclaimFrame, validOthers, stillUnused⟩ :=
    scannedInv.reclaim few clean (fun invalid => unmoved (validVictim.symm.trans invalid))
      firstVictims firstSegno unused fun blkaddr segment stale =>
        noStale blkaddr segment (scanFrame.stale blkaddr stale)
  have nodup := inv.consistent.wf.nodup
  rw [victims, map_cons, nodup_cons] at nodup
  have agree : ∀ other ∈ rest,
      segmentValid (gcReclaim victim clean scanned).2 other.segno =
        segmentValid t other.segno := by
    intro other member
    have distinct : other.segno ≠ victim.segno := fun equal =>
      nodup.1 (equal ▸ mem_map_of_mem member)
    rw [validOthers _ distinct, validRest other member]
  have bound : victim.segno < scanned.nrSegment := by
    rw [← scannedInv.consistent.nrDst, ← firstSegno]
    exact (scannedInv.consistent.wf.victim first (by simp [firstVictims])).1
  have cleanNext : (gcReclaim victim clean scanned).1 = clean +
      (if segmentValid t victim.segno then blocksPerSegment - victim.nrValidBlock else 0) := by
    rw [gcReclaim_eq victim clean (scannedInv.consistent.nrSvt ▸ bound), validVictim]
  have ledgerNext := scannedInv.consistent.ledger_reclaim bound clean
  rw [grown, validVictim] at ledgerNext
  refine ⟨scanned, scan, reclaimedInv, restVictims, scanFrame.trans reclaimFrame, stillUnused,
    ?_, ?_⟩
  · intro other reached blkaddr segment stale
    rw [← map_fst_gcSchedule _ _ 0, gcSchedule_congr agree, map_fst_gcSchedule,
      cleanNext] at reached
    exact fresh other (mem_cons_of_mem _ reached) blkaddr segment
      (scanFrame.stale blkaddr (reclaimFrame.stale blkaddr stale))
  · rw [gcSchedule_congr agree, cleanNext, ledgerNext, gcSchedule, if_pos more]

/-- The loop of the collection keeps its invariant over all the victims it reaches. -/
theorem GcInv.loop (victims : List Victim) :
    ∀ {t : DmSwornDisk K I M G} {fuel clean : Nat}, GcInv env plain 0 t →
      t.dst.victims = victims → victims.length ≤ fuel → VictimsFresh t clean victims →
      VictimsQuiet t clean victims →
      ∃ t', gcLoop (gcScanVictim env) fuel clean t = some t' ∧ GcInv env plain 0 t' ∧
        GcFrame t t' ∧
        ∀ cleared ∈ gcCleared (gcScanVictim env) fuel clean t,
          SegmentUnused cleared.2 cleared.1 := by
  induction victims with
  | nil =>
    intro t fuel clean inv victims _ _ _
    have peek : dstPeekVictim t.dst = none := by rw [dstPeekVictim, victims]; rfl
    refine ⟨t, ?_, inv, .refl t, ?_⟩
    · rw [gcLoop, peek]
    · cases fuel with
      | zero => simp [gcCleared]
      | succ fuel => simp [gcCleared, peek]
  | cons victim rest ih =>
    intro t fuel clean inv victims enough fresh quiet
    have peek : dstPeekVictim t.dst = some victim := by rw [dstPeekVictim, victims]; rfl
    by_cases more : clean < gcTarget
    · obtain ⟨fuel, rfl⟩ : ∃ less, fuel = less + 1 :=
        Nat.exists_eq_succ_of_ne_zero (by
          simp only [length_cons] at enough
          omega)
      obtain ⟨scanned, scan, reclaimedInv, restVictims, frame, unused, restFresh, schedule⟩ :=
        inv.iteration victims more fresh (quiet (victim, ledger t) (by simp [gcSchedule, more]))
      rw [VictimsQuiet, schedule] at quiet
      have enoughLeft : rest.length ≤ fuel := by
        rw [length_cons] at enough
        omega
      obtain ⟨last, loop, lastInv, loopFrame, cleared⟩ :=
        ih reclaimedInv restVictims enoughLeft restFresh fun entry member => by
          rw [frame.nrSegment]
          exact quiet entry (mem_cons_of_mem _ member)
      refine ⟨last, ?_, lastInv, frame.trans loopFrame, ?_⟩
      · rw [gcLoop, peek]
        simp only [more, if_true, scan, bind_some]
        exact loop
      · intro entry member
        simp only [gcCleared, peek, more, if_true, scan, mem_cons] at member
        rcases member with rfl | member
        · exact unused
        · exact cleared entry member
    · refine ⟨t, ?_, inv, .refl t, ?_⟩
      · rw [gcLoop, peek]
        simp only [more, if_false]
      · cases fuel with
        | zero => simp [gcCleared]
        | succ fuel => simp [gcCleared, peek, more]

/-! ## What a collection keeps -/

/-- A state in which `sa_alloc` can start a collection: tables, buffer and data are in
order, the buffer's segment is marked valid as a whole, and unless the buffer is empty
there is a free segment. -/
structure GcReady (env : Env K I M G) (plain : Nat → Block) (s : DmSwornDisk K I M G) : Prop where
  consistent : Consistent s s.lsmTree (curBlock s)
  aligned : BufferAligned s
  sealed : Sealed env s s.lsmTree plain (curBlock s)
  full : ∀ offset < blocksPerSegment, dstBit s.dst (slotAddr s offset) = true
  space : curBlock s ≠ 0 → ∃ seg < s.nrSegment, segmentValid s seg = false

def GcFresh (s : DmSwornDisk K I M G) : Prop :=
  VictimsFresh s 0 s.dst.victims

def GcSafe (s : DmSwornDisk K I M G) : Prop :=
  VictimsQuiet s 0 s.dst.victims

theorem gcSafe_of_light {s : DmSwornDisk K I M G}
    (light : ∀ victim ∈ gcReached (segmentValid s) 0 s.dst.victims, victim.nrValidBlock ≤ 768) :
    GcSafe s := by
  intro entry scheduled back
  have reached : entry.1 ∈ (gcSchedule (segmentValid s) 0 (ledger s) s.dst.victims).map Prod.fst :=
    mem_map_of_mem scheduled
  rw [map_fst_gcSchedule] at reached
  exact Nat.not_lt.mpr (light entry.1 reached) back.1

def withStatus (s : DmSwornDisk K I M G) (status : AllocatorStatus) : DmSwornDisk K I M G :=
  { s with segAllocator := { s.segAllocator with status := status } }

theorem withStatus_gcFrame (s : DmSwornDisk K I M G) (status : AllocatorStatus) :
    GcFrame s (withStatus s status) ∧ GcFrame (withStatus s status) s :=
  ⟨⟨rfl, rfl, fun _ => rfl, fun _ stale =>
      ⟨stale.bound, stale.bit, stale.unowned, stale.unreserved⟩⟩,
    ⟨rfl, rfl, fun _ => rfl, fun _ stale =>
      ⟨stale.bound, stale.bit, stale.unowned, stale.unreserved⟩⟩⟩

theorem DstWellFormed.length_victims_le {d : Dst} (wf : DstWellFormed d) :
    d.victims.length ≤ d.nrSegment := by
  have card := toFinset_card_of_nodup wf.nodup
  have subset : (d.victims.map Victim.segno).toFinset ⊆ Finset.range d.nrSegment := by
    intro segno member
    obtain ⟨victim, victimMember, rfl⟩ := mem_map.mp (mem_toFinset.mp member)
    exact Finset.mem_range.mpr (wf.victim victim victimMember).1
  have bound := Finset.card_le_card subset
  rw [card, Finset.card_range, length_map] at bound
  exact bound

variable {s : DmSwornDisk K I M G}

/-- A collection starts with its invariant. -/
theorem GcReady.gcInv (ready : GcReady env plain s) :
    GcInv env plain 0 (withStatus s .cleaning) := by
  have c := ready.consistent
  refine ⟨c.congr rfl rfl rfl rfl rfl rfl rfl, ⟨ready.aligned.aligned, ready.aligned.room⟩,
    ⟨ready.sealed.cipher, ready.sealed.buffered⟩, rfl, ready.full, ?_⟩
  change curBlock s + blocksPerSegment * s.segAllocator.nrValidSegment ≤
    blocksPerSegment * s.nrSegment + 0
  have room := ready.aligned.room
  have most := countSet_le (segmentValid s) s.nrSegment
  rw [c.counted]
  by_cases empty : curBlock s = 0
  · rw [empty, Nat.zero_add]
    exact Nat.mul_le_mul_left _ most
  · obtain ⟨seg, bound, free⟩ := ready.space empty
    have more := countSet_set bound free
    have stillMost := countSet_le (update (segmentValid s) seg true) s.nrSegment
    rw [more] at stillMost
    have := Nat.mul_le_mul_left blocksPerSegment stillMost
    rw [Nat.mul_add] at this
    omega

theorem GcInv.exists_free (inv : GcInv env plain 0 t) (filled : curBlock t ≠ 0) :
    ∃ seg < t.nrSegment, segmentValid t seg = false := by
  refine exists_clear_of_countSet_lt ?_
  have space := inv.space
  rw [ledger, inv.consistent.counted] at space
  unfold blocksPerSegment at space
  omega

theorem GcFresh.victimsFresh (fresh : GcFresh s) :
    VictimsFresh (withStatus s .cleaning) 0 s.dst.victims :=
  fun victim reached blkaddr segment stale =>
    fresh victim reached blkaddr segment ((withStatus_gcFrame s .cleaning).1.stale blkaddr stale)

theorem GcReady.saForegroundGc (ready : GcReady env plain s) (fresh : GcFresh s) (safe : GcSafe s)
    (enough : s.nrSegment ≤ env.gcFuel) :
    ∃ t, saForegroundGc env s = some t ∧ GcReady env plain t ∧ GcFrame s t ∧
      t.segAllocator.status = .allocating ∧
      ∀ cleared ∈ gcCleared (gcScanVictim env) env.gcFuel 0 (withStatus s .cleaning),
        SegmentUnused cleared.2 cleared.1 := by
  have c := ready.consistent
  have fuel : s.dst.victims.length ≤ env.gcFuel :=
    (c.nrDst ▸ c.wf.length_victims_le).trans enough
  obtain ⟨t, loop, inv, loopFrame, cleared⟩ :=
    ready.gcInv.loop s.dst.victims rfl fuel fresh.victimsFresh safe
  refine ⟨withStatus t .allocating, ?_,
    ⟨inv.consistent.congr rfl rfl rfl rfl rfl rfl rfl, ⟨inv.aligned.aligned, inv.aligned.room⟩,
      ⟨inv.sealed.cipher, inv.sealed.buffered⟩, inv.full, inv.exists_free⟩,
    ((withStatus_gcFrame s .cleaning).1.trans loopFrame).trans
      (withStatus_gcFrame t .allocating).1, rfl, cleared⟩
  change (gcLoop (gcScanVictim env) env.gcFuel 0 (withStatus s .cleaning)).map _ = _
  rw [loop]
  rfl

/-- The plaintext of an address as a reader would get it from its record. -/
def plaintext (env : Env K I M G) (s : DmSwornDisk K I M G) (lba : Nat) : Option Block :=
  (s.lsmTree lba).bind fun record =>
    env.aead.decrypt record.key record.iv record.mac record.pba (sworndiskReadBlock s record.pba)

theorem Sealed.plaintext_eq (sl : Sealed env s s.lsmTree plain (curBlock s))
    (ba : BufferAligned s) (lba : Nat) :
    plaintext env s lba = if (s.lsmTree lba).isSome then some (plain lba) else none := by
  unfold plaintext
  cases mapped : s.lsmTree lba with
  | none => rfl
  | some record =>
    rw [bind_some, sworndiskReadBlock_eq (Nat.le_of_lt ba.room),
      env.aead.decrypt_encrypt (sl.cipher lba record mapped)]
    rfl

/-- What a collection should do: end, keep the plaintext of every address, and clear
the validity bit only of segments in which no address lives. -/
def GcPreserves (env : Env K I M G) (s : DmSwornDisk K I M G) : Prop :=
  ∃ t, saForegroundGc env s = some t ∧ plaintext env t = plaintext env s ∧
    (∀ cleared ∈ gcCleared (gcScanVictim env) env.gcFuel 0 (withStatus s .cleaning),
      SegmentUnused cleared.2 cleared.1) ∧
    ∀ segno < s.nrSegment, segmentValid t segno = false → SegmentUnused t segno

/-! ## A victim that is written back -/

/-- The scan of `victim` once threaded logging is on, with the offsets `remaining` still to
come: the victim is the emptiest one and stays more than three quarters full. -/
structure StuckInv (victim : Victim) (remaining : List Nat) (t : DmSwornDisk K I M G) : Prop where
  consistent : Consistent t t.lsmTree (curBlock t)
  many : threadedThreshold t.nrSegment ≤ t.segAllocator.nrValidSegment
  listed : ∃ first ∈ t.dst.victims, first.segno = victim.segno ∧ 768 < first.nrValidBlock ∧
    ∀ other ∈ t.dst.victims, first.nrValidBlock ≤ other.nrValidBlock
  nodup : remaining.Nodup
  inside : ∀ offset ∈ remaining, offset < blocksPerSegment
  owned : ∀ offset ∈ remaining, ∃ lba record, t.lsmTree lba = some record ∧
    record.pba = victim.segno * blocksPerSegment + offset
  used : ¬ SegmentUnused t victim.segno

variable {offset : Nat} {remaining : List Nat} {lba : Nat} {record : Record K I M}

theorem StuckInv.threaded (stuck : StuckInv victim remaining t) :
    sworndiskShouldThreadedLogging t = true := by
  obtain ⟨first, member, -, heavy, least⟩ := stuck.listed
  obtain ⟨head, rest, victims⟩ := exists_cons_of_ne_nil (ne_nil_of_mem member)
  rw [threaded_iff_of_head victims]
  exact ⟨stuck.many, heavy.trans_le (least head (by simp [victims]))⟩

theorem DstWellFormed.peek_dstStore {d : Dst} {entry : DstEntry} (wf : DstWellFormed d)
    (stored : DstWellFormed (dstStore d segno entry))
    (notFull : entry.nrValidBlock < blocksPerSegment)
    (least : ∀ other ∈ d.victims, other.segno ≠ segno →
      entry.nrValidBlock < other.nrValidBlock) :
    (⟨segno, entry.nrValidBlock, entry.blockValidityTable⟩ : Victim) ∈
        (dstStore d segno entry).victims ∧
      dstPeekVictim (dstStore d segno entry) =
        some ⟨segno, entry.nrValidBlock, entry.blockValidityTable⟩ := by
  have member : (⟨segno, entry.nrValidBlock, entry.blockValidityTable⟩ : Victim) ∈
      (dstStore d segno entry).victims := (mem_victims_dstStore wf).mpr (.inr ⟨rfl, notFull⟩)
  obtain ⟨head, rest, victims⟩ := exists_cons_of_ne_nil (ne_nil_of_mem member)
  refine ⟨member, ?_⟩
  have headMember : head ∈ (dstStore d segno entry).victims := by simp [victims]
  rcases (mem_victims_dstStore wf).mp headMember with ⟨old, distinct⟩ | ⟨rfl, -⟩
  · have lighter := stored.le_of_head victims member
    exact absurd lighter (Nat.not_le.mpr (least head old distinct))
  · rw [dstPeekVictim, victims]
    rfl

theorem StuckInv.push (stuck : StuckInv victim remaining t) (env : Env K I M G)
    (mapped : t.lsmTree lba = some record) (segment : blockToSegment record.pba = victim.segno)
    (data : Block) :
    ∃ t' pba, segbufPushBlock env (fun _ => none) t lba data = some t' ∧
      blockToSegment pba = victim.segno ∧
      t'.lsmTree = update t.lsmTree lba (some (newRecord env t pba data)) ∧
      StuckInv victim [] t' := by
  have c := stuck.consistent
  have held := c.mapped lba record mapped
  have key := held.key
  obtain ⟨entry, member, entrySegno, heavy, least⟩ := stuck.listed
  obtain ⟨-, count, -, notFull⟩ := c.wf.victim entry member
  have found : lsmSearch t lba = some record := by
    rw [lsmSearch, lsmKey_of_lt key]
    exact mapped
  have returned := c.returnOld lba
  rw [entrySegno, ← segment] at count
  have dst : (returnOld t lba).dst = dstStore t.dst (blockToSegment record.pba)
      ⟨entry.nrValidBlock - 1, update (t.dst.array (blockToSegment record.pba)).blockValidityTable
        (blockOffsetWithinSegment record.pba) false⟩ := by
    rw [c.returnOld_eq found, dstCleared, count]
  -- The victim lost a block, so that it is now the only one with so few.
  have lighter : ∀ other ∈ t.dst.victims, entry.nrValidBlock - 1 < other.nrValidBlock := by
    intro other otherMember
    have := least other otherMember
    omega
  obtain ⟨listed, peek⟩ := c.wf.peek_dstStore (dst ▸ returned.wf)
    ((Nat.sub_le _ _).trans_lt notFull) fun other otherMember _ => lighter other otherMember
  rw [← dst] at listed peek
  generalize isFirst : (⟨blockToSegment record.pba, entry.nrValidBlock - 1, _⟩ : Victim) = first
    at listed peek
  have firstSegno : first.segno = victim.segno := by rw [← isFirst, segment]
  obtain ⟨target, -⟩ := returned.wf.threadedAddr listed
  rw [firstSegno] at target
  have consistent := c.threadedBlock env key data listed
    (by rw [firstSegno, ← segment]; exact held.bound)
    (by rw [firstSegno, ← segment]; exact held.valid)
  have slots : curBlock (threadedBlock env t lba data first) = curBlock t :=
    threadedBlock_curBlock ..
  rw [← slots] at consistent
  have left : ((returnOld t lba).dst.array (blockToSegment (threadedAddr first))).nrValidBlock =
      entry.nrValidBlock - 1 := by
    rw [target, ← segment, dst, dstStore_array, update_self]
  have tree := threadedBlock_lsmTree env t key data first
  refine ⟨_, threadedAddr first, c.segbufPushBlock_threaded env _ stuck.threaded lba data peek
    listed, target, tree, consistent, ?_, ?_, nodup_nil, fun _ none => absurd none not_mem_nil,
    fun _ none => absurd none not_mem_nil, ?_⟩
  · change threadedThreshold (returnOld t lba).nrSegment ≤
      (returnOld t lba).segAllocator.nrValidSegment
    rw [returnOld_nrSegment, returnOld_segAllocator]
    exact stuck.many
  · change ∃ again ∈ (dstMarked (returnOld t lba).dst (threadedAddr first)).victims, _
    refine ⟨_, (mem_victims_dstStore returned.wf).mpr (.inr ⟨rfl, ?_⟩), target, ?_, ?_⟩
    · simp only [left]
      omega
    · simp only [left]
      omega
    · intro other otherMember
      simp only [left]
      rcases (mem_victims_dstStore returned.wf).mp otherMember with ⟨old, distinct⟩ | ⟨rfl, -⟩
      · rw [dst] at old
        rcases (mem_victims_dstStore c.wf).mp old with ⟨older, -⟩ | ⟨rfl, -⟩
        · have := least other older
          omega
        · exact absurd (segment.trans target.symm) distinct
      · simp only [left, le_refl]
  · intro unused
    exact unused lba _ (by rw [tree, update_self]) target

theorem StuckInv.block {scan : GcScan K I M G} (env : Env K I M G)
    (stuck : StuckInv victim (offset :: remaining) scan.state) :
    ∃ scan', gcBlock env victim scan offset = some scan' ∧
      StuckInv victim remaining scan'.state := by
  have c := stuck.consistent
  have inside := stuck.inside offset mem_cons_self
  have later := fun other (member : other ∈ remaining) =>
    stuck.inside other (mem_cons_of_mem _ member)
  obtain ⟨absent, nodup⟩ := nodup_cons.mp stuck.nodup
  obtain ⟨lba, record, mapped, address⟩ := stuck.owned offset mem_cons_self
  have segment : blockToSegment record.pba = victim.segno := by
    rw [address, blockToSegment_mul_add inside]
  have owner : scan.state.rit (victim.segno * blocksPerSegment + offset) = lba := by
    rw [← address]
    exact (c.mapped lba record mapped).rit
  rw [gcBlock_eq, gcOpened]
  simp only [gcReadRegion_state, owner]
  split
  · -- The block does not open.
    refine ⟨_, rfl, ?_⟩
    rw [gcReadRegion_state]
    exact ⟨c, stuck.many, stuck.listed, nodup, later,
      fun other member => stuck.owned other (mem_cons_of_mem _ member), stuck.used⟩
  · rename_i pushed plaintext opened
    obtain ⟨_, -, isPair⟩ := map_eq_some_iff.mp opened
    obtain ⟨rfl, -⟩ := Prod.mk.inj isPair
    obtain ⟨t', pba, push, -, tree, next⟩ := stuck.push env mapped segment plaintext
    rw [push]
    refine ⟨_, rfl, next.consistent, next.many, next.listed, nodup, later, ?_, next.used⟩
    intro other member
    obtain ⟨holder, kept, holds, place⟩ := stuck.owned other (mem_cons_of_mem _ member)
    refine ⟨holder, kept, ?_, place⟩
    have distinct : holder ≠ lba := by
      rintro rfl
      obtain rfl : kept = record := some.inj (holds.symm.trans mapped)
      have same : other = offset := by omega
      exact absent (same ▸ member)
    rw [tree, update_of_ne distinct]
    exact holds

theorem StuckInv.run {scan : GcScan K I M G} (env : Env K I M G)
    (stuck : StuckInv victim remaining scan.state) :
    ∃ scan', remaining.foldlM (gcBlock env victim) scan = some scan' ∧
      ¬ SegmentUnused scan'.state victim.segno := by
  induction remaining generalizing scan with
  | nil => exact ⟨scan, rfl, stuck.used⟩
  | cons offset remaining ih =>
    obtain ⟨scan', step, next⟩ := stuck.block env
    obtain ⟨last, run, used⟩ := ih next
    refine ⟨last, ?_, used⟩
    rw [foldlM_cons, step]
    exact run

theorem ScanInv.stuckInv {scan : GcScan K I M G}
    (si : ScanInv env plain victim rest remaining scan)
    (threaded : sworndiskShouldThreadedLogging scan.state = true) :
    StuckInv victim remaining scan.state := by
  obtain ⟨moved, -, inv⟩ := si.inv
  obtain ⟨first, victims, firstSegno, count⟩ := si.head
  obtain ⟨many, heavy⟩ := (threaded_iff_of_head victims).mp threaded
  have member : first ∈ scan.state.dst.victims := by simp [victims]
  refine ⟨inv.consistent, many, ⟨first, member, firstSegno, heavy, fun other otherMember =>
    inv.consistent.wf.le_of_head victims otherMember⟩, si.nodup, si.inside, si.owned, ?_⟩
  intro unused
  obtain ⟨offset, offsetMember⟩ := exists_mem_of_length_pos (by omega : 0 < remaining.length)
  obtain ⟨lba, record, mapped, address⟩ := si.owned offset offsetMember
  refine unused lba record mapped ?_
  rw [address, blockToSegment_mul_add (si.inside offset offsetMember)]

/-- The scan of a victim that is written back: blocks are moved out until threaded logging
comes on, and the others stay. -/
theorem ScanInv.run_writtenBack {scan : GcScan K I M G}
    (si : ScanInv env plain victim rest remaining scan)
    (set : ∀ offset ∈ remaining, victim.blockValidityTable offset = true)
    (back : WrittenBack (threadedThreshold scan.state.nrSegment) (ledger scan.state)
      remaining.length) :
    ∃ scan', remaining.foldlM (gcBlock env victim) scan = some scan' ∧
      ¬ SegmentUnused scan'.state victim.segno := by
  induction remaining generalizing scan with
  | nil => exact absurd back.1 (Nat.not_lt_zero _)
  | cons offset remaining ih =>
    cases threaded : sworndiskShouldThreadedLogging scan.state with
    | true => exact (si.stuckInv threaded).run env
    | false =>
      obtain ⟨first, victims, -, count⟩ := si.head
      obtain ⟨moved, -, inv⟩ := si.inv
      obtain ⟨heavy, late⟩ := back
      have few : scan.state.segAllocator.nrValidSegment <
          threadedThreshold scan.state.nrSegment := by
        by_contra many
        have isOn := (threaded_iff_of_head victims).mpr ⟨Nat.not_lt.mp many, count ▸ heavy⟩
        exact Bool.false_ne_true (threaded.symm.trans isOn)
      -- The gate is shut with the ledger as it is, so that more than 769 blocks are left.
      have bound : ledger scan.state <
          blocksPerSegment * threadedThreshold scan.state.nrSegment := by
        have room := inv.aligned.room
        have := Nat.mul_le_mul_left blocksPerSegment (Nat.succ_le_of_lt few)
        rw [Nat.mul_succ] at this
        unfold ledger
        omega
      obtain ⟨scan', lba, step, -, push, -, -, si'⟩ :=
        si.block (set offset mem_cons_self) threaded
      rw [length_cons] at heavy late
      have still : WrittenBack (threadedThreshold scan'.state.nrSegment) (ledger scan'.state)
          remaining.length := by
        rw [push.ledger_eq, push.nrSegment_eq]
        exact ⟨by omega, by omega⟩
      obtain ⟨last, run, used⟩ :=
        ih si' (fun other member => set other (mem_cons_of_mem _ member)) still
      refine ⟨last, ?_, used⟩
      rw [foldlM_cons, step]
      exact run

/-- A collection that comes to a victim without stale blocks that is written back frees a
segment in which addresses live. -/
theorem GcInv.loop_writtenBack (victims : List Victim) :
    ∀ {t : DmSwornDisk K I M G} {fuel clean : Nat}, GcInv env plain 0 t →
      t.dst.victims = victims → victims.length ≤ fuel → VictimsFresh t clean victims →
      ¬ VictimsQuiet t clean victims →
      ∃ cleared ∈ gcCleared (gcScanVictim env) fuel clean t,
        ¬ SegmentUnused cleared.2 cleared.1 := by
  induction victims with
  | nil =>
    intro t fuel clean _ _ _ _ loud
    exact absurd (fun entry none => absurd none not_mem_nil) loud
  | cons victim rest ih =>
    intro t fuel clean inv victims enough fresh loud
    have more : clean < gcTarget := by
      by_contra done
      exact loud fun entry member => by simp [gcSchedule, done] at member
    have peek : dstPeekVictim t.dst = some victim := by rw [dstPeekVictim, victims]; rfl
    rw [length_cons] at enough
    obtain ⟨fuel, rfl⟩ : ∃ less, fuel = less + 1 :=
      Nat.exists_eq_succ_of_ne_zero (by omega)
    by_cases back : WrittenBack (threadedThreshold t.nrSegment) (ledger t) victim.nrValidBlock
    · simp only [VictimsFresh, gcReached, more, if_true] at fresh
      have member : victim ∈ t.dst.victims := by simp [victims]
      have occupied : victim.nrValidBlock ≠ 0 := by
        have := back.1
        omega
      have count : (validOffsets victim).length = victim.nrValidBlock := by
        rw [validOffsets, length_filter_range, ← (inv.consistent.victim_table member).1]
      obtain ⟨scan, run, used⟩ :=
        (inv.scanInv victims occupied (fresh victim mem_cons_self)).run_writtenBack
          (fun offset offsetMember => (mem_validOffsets.mp offsetMember).2) (count ▸ back)
      have scanned : gcScanVictim env victim t = some scan.state := by
        rw [gcScanVictim, if_pos occupied, run]
        rfl
      refine ⟨(victim.segno, (gcReclaim victim clean scan.state).2), ?_, ?_⟩
      · simp only [gcCleared, peek, more, if_true, scanned, mem_cons, true_or]
      · intro unused
        refine used fun lba record mapped => unused lba record ?_
        rw [← mapped]
        unfold gcReclaim
        split <;> rfl
    · obtain ⟨scanned, scan, reclaimedInv, restVictims, frame, -, restFresh, schedule⟩ :=
        inv.iteration victims more fresh back
      obtain ⟨cleared, member, used⟩ :=
        ih reclaimedInv restVictims (by omega : rest.length ≤ fuel) restFresh fun quiet => by
          refine loud fun entry scheduled => ?_
          rw [schedule] at scheduled
          rcases mem_cons.mp scheduled with rfl | later
          · exact back
          · rw [← frame.nrSegment]
            exact quiet entry later
      refine ⟨cleared, ?_, used⟩
      simp only [gcCleared, peek, more, if_true, scan]
      exact mem_cons_of_mem _ member

theorem GcReady.not_gcPreserves (ready : GcReady env plain s) (fresh : GcFresh s)
    (enough : s.nrSegment ≤ env.gcFuel) (loud : ¬ GcSafe s) : ¬ GcPreserves env s := by
  have c := ready.consistent
  have fuel : s.dst.victims.length ≤ env.gcFuel :=
    (c.nrDst ▸ c.wf.length_victims_le).trans enough
  obtain ⟨cleared, member, used⟩ :=
    ready.gcInv.loop_writtenBack s.dst.victims rfl fuel fresh.victimsFresh loud
  rintro ⟨t, -, -, unused, -⟩
  exact used (unused cleared member)

/-- From a state in order in which no victim that the collection comes to has a stale block,
the collection preserves all data and frees only unused segments exactly if none of these
victims is written back. -/
theorem gcPreserves_iff_gcSafe {env : Env K I M G} {plain : Nat → Block}
    {s : DmSwornDisk K I M G} (ready : GcReady env plain s) (fresh : GcFresh s)
    (enough : s.nrSegment ≤ env.gcFuel) : GcPreserves env s ↔ GcSafe s := by
  constructor
  · intro preserves
    by_contra loud
    exact ready.not_gcPreserves fresh enough loud preserves
  · intro safe
    obtain ⟨t, collected, done, frame, -, cleared⟩ := ready.saForegroundGc fresh safe enough
    refine ⟨t, collected, ?_, cleared, ?_⟩
    · funext lba
      rw [done.sealed.plaintext_eq done.aligned, ready.sealed.plaintext_eq ready.aligned,
        frame.domain lba]
    · intro segno _ free lba record mapped
      exact done.consistent.not_mapped_of_free free mapped

/-! ## A crowded victim -/

def zeroBlock : Block := fun _ _ => 0

/-- An environment over the transparent cipher, in which every allocated block is zero. -/
def plainEnv : Env Unit Unit (Unit × Unit × Nat × Block) Block where
  aead := transparentAead Unit Unit Block
  random := fun _ => ((), ())
  rawBytes := id
  allocated := fun _ => zeroBlock
  unassigned := ⟨0, ((), (), 0, zeroBlock), (), ()⟩
  gcFuel := 1048576

def zeroRecord (pba : Nat) : Record Unit Unit (Unit × Unit × Nat × Block) :=
  ⟨pba, ((), (), pba, zeroBlock), (), ()⟩

/-- The addresses below `live` live in order in segment 0, which is the only victim, and the
empty segment buffer is in segment 1. -/
def oneVictim (nrSegment live : Nat) :
    DmSwornDisk Unit Unit (Unit × Unit × Nat × Block) Block where
  nrSegment := nrSegment
  dataDev := fun _ => zeroBlock
  segValidator := ⟨nrSegment, 2, fun segno => segno < 2⟩
  rit := fun pba => pba
  dst :=
    { nrSegment := nrSegment
      array := fun segno =>
        if segno = 0 then ⟨live, fun offset => offset < live⟩
        else if segno = 1 then ⟨blocksPerSegment, fun _ => true⟩
        else ⟨0, fun _ => false⟩
      nodeList := fun segno => segno = 0
      victims := [⟨0, live, fun offset => offset < live⟩] }
  lsmTree := fun lba => if lba < live then some (zeroRecord lba) else none
  segAllocator := ⟨2, .allocating⟩
  segBuffer := ⟨fun _ => zeroBlock, fun _ => zeroBlock, 1, 0⟩
  prefetcher := ⟨fun _ => zeroBlock, 0, 0, 0, 2⟩
  nrRecord := 0

variable {nrSegment live lba : Nat}

theorem mapped_oneVictim {record : Record Unit Unit (Unit × Unit × Nat × Block)}
    (mapped : (oneVictim nrSegment live).lsmTree lba = some record) :
    lba < live ∧ record = zeroRecord lba := by
  simp only [oneVictim, ite_none_right_eq_some, some.injEq] at mapped
  exact ⟨mapped.1, mapped.2.symm⟩

theorem gcReady_oneVictim (two : 2 ≤ nrSegment) (bound : live < blocksPerSegment) :
    GcReady plainEnv (fun _ => zeroBlock) (oneVictim nrSegment live) := by
  have small : live < 1024 := bound
  have blocks : curBlock (oneVictim nrSegment live) = 0 := Nat.zero_div _
  have lowSegment : ∀ lba < live, blockToSegment lba = 0 := fun lba below =>
    Nat.div_eq_of_lt (below.trans bound)
  have slotSegment : ∀ offset < blocksPerSegment,
      blockToSegment (slotAddr (oneVictim nrSegment live) offset) = 1 := fun offset inside =>
    slotAddr_segment inside
  have wf : DstWellFormed (oneVictim nrSegment live).dst := by
    refine ⟨?_, pairwise_singleton _ _, ?_, nodup_singleton _, ?_⟩
    · intro segno _
      simp only [oneVictim]
      split
      · exact (countSet_initial (Nat.le_of_lt bound)).symm
      · split
        · exact (countSet_eq_self_iff.mpr fun _ _ => rfl).symm
        · exact (countSet_eq_zero_iff.mpr fun _ _ => rfl).symm
    · intro victim member
      obtain rfl := mem_singleton.mp member
      exact ⟨Nat.lt_of_lt_of_le Nat.two_pos two, rfl, rfl, bound⟩
    · intro segno
      simp [oneVictim]
  have mappedAt : ∀ lba record, (oneVictim nrSegment live).lsmTree lba = some record →
      RecordMapped (oneVictim nrSegment live) lba record := by
    intro lba record mapped
    obtain ⟨below, rfl⟩ := mapped_oneVictim mapped
    have segment := lowSegment lba below
    refine ⟨by omega, ?_, rfl, ?_, ?_⟩
    · rw [zeroRecord, segment]
      exact Nat.lt_of_lt_of_le Nat.two_pos two
    · have offset : blockOffsetWithinSegment lba = lba := Nat.mod_eq_of_lt (below.trans bound)
      simp only [dstBit, zeroRecord, segment, offset, oneVictim, if_true, decide_eq_true_eq]
      exact below
    · simp only [zeroRecord, segment]
      rfl
  have reserved : ∀ offset < blocksPerSegment,
      dstBit (oneVictim nrSegment live).dst (slotAddr (oneVictim nrSegment live) offset) =
        true := by
    intro offset inside
    simp only [dstBit, slotSegment offset inside]
    rfl
  refine ⟨⟨⟨rfl, rfl, wf, mappedAt, ?_, (countSet_initial two).symm⟩, two, rfl,
      fun offset _ => reserved offset, ?_⟩,
    ⟨by rw [blocks]; rfl, by rw [blocks]; decide⟩, ⟨?_, ?_⟩, reserved, absurd blocks⟩
  · intro segno _ free
    have high : 1 < segno := by simpa [segmentValid, oneVictim] using free
    simp only [oneVictim]
    rw [if_neg (by omega), if_neg (by omega)]
  · intro offset _ inside lba record mapped equal
    obtain ⟨below, rfl⟩ := mapped_oneVictim mapped
    have segment := congrArg blockToSegment equal
    simp only [zeroRecord] at segment
    rw [lowSegment lba below, slotSegment offset inside] at segment
    omega
  · intro lba record mapped
    obtain ⟨below, rfl⟩ := mapped_oneVictim mapped
    simp only [bufferedRead, blocks, Nat.not_lt_zero, and_false, if_false]
    rfl
  · intro lba record mapped _ filled
    rw [blocks] at filled
    exact absurd filled (Nat.not_lt_zero _)

theorem gcFresh_oneVictim : GcFresh (oneVictim nrSegment live) := by
  intro victim reached blkaddr segment stale
  obtain rfl : victim = ⟨0, live, fun offset => offset < live⟩ := by
    simpa [oneVictim, gcReached, gcTarget, blocksPerSegment] using reached
  change blockToSegment blkaddr = 0 at segment
  have offset : blockOffsetWithinSegment blkaddr = blkaddr := by
    have address := blkaddr_eq blkaddr
    rw [segment] at address
    omega
  have bit := stale.bit
  simp only [dstBit, segment, offset, oneVictim, if_true, decide_eq_true_eq] at bit
  refine stale.unowned blkaddr (zeroRecord blkaddr) ?_ rfl
  simp [oneVictim, bit]

theorem gcSafe_oneVictim : GcSafe (oneVictim nrSegment live) ↔
    ¬ WrittenBack (threadedThreshold nrSegment) 2048 live := by
  have schedule : gcSchedule (segmentValid (oneVictim nrSegment live)) 0
      (ledger (oneVictim nrSegment live)) (oneVictim nrSegment live).dst.victims =
        [(⟨0, live, fun offset => offset < live⟩, 2048)] := by
    have target : 0 < gcTarget := by decide
    have held : ledger (oneVictim nrSegment live) = 2048 := by
      have blocks : curBlock (oneVictim nrSegment live) = 0 := Nat.zero_div _
      rw [ledger, blocks]
      rfl
    rw [held]
    simp only [oneVictim, gcSchedule, target, if_true]
  unfold GcSafe VictimsQuiet
  rw [schedule]
  simp only [mem_singleton, forall_eq]
  rfl

/-- With few of 64 segments in use, a victim of 769 live blocks is collected. -/
theorem gcPreserves_oneVictim : GcPreserves plainEnv (oneVictim 64 769) := by
  refine (gcPreserves_iff_gcSafe (gcReady_oneVictim (by decide) (by decide)) gcFresh_oneVictim
    (by decide)).mpr (gcSafe_oneVictim.mpr ?_)
  rintro ⟨-, late⟩
  exact absurd late (by decide)

/-- Of 17 segments two are many: threaded logging moves each of the 769 live blocks of a victim
back into the victim, whose validity bit is then cleared. -/
theorem not_gcPreserves_crowded :
    RecordsAgree (oneVictim 17 769) ∧ ¬ GcPreserves plainEnv (oneVictim 17 769) := by
  have ready : GcReady plainEnv (fun _ => zeroBlock) (oneVictim 17 769) :=
    gcReady_oneVictim (by decide) (by decide)
  have back : WrittenBack (threadedThreshold 17) 2048 769 := ⟨by decide, by decide⟩
  exact ⟨ready.consistent.recordsAgree, ready.not_gcPreserves gcFresh_oneVictim (by decide)
    fun safe => gcSafe_oneVictim.mp safe back⟩

end SwornDisk.C
