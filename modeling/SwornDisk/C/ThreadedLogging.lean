import SwornDisk.C.FirstSegment

/-!
# Threaded logging and the segment buffer

Threaded logging takes a block of the victim that stands first in the tree after the old
block was returned.  The buffer's own segment is a victim as soon as one of its blocks was
returned, and it stands first if no other victim is emptier.  A block that goes there is
neither found in the buffer nor kept by its next flush.
-/

namespace SwornDisk.C

open Lib List Function Option

variable {K I M G : Type}

/-! ## The first victim -/

/-- A segment is listed, no listed segment has fewer valid blocks, and those with as many
are behind it in the tree. -/
structure StandsFirst (d : Dst) (segno : Nat) : Prop where
  listed : d.nodeList segno = true
  least : ∀ other, d.nodeList other = true →
    (d.array segno).nrValidBlock ≤ (d.array other).nrValidBlock
  ahead : ∀ other, d.nodeList other = true → other ≠ segno →
    (d.array other).nrValidBlock = (d.array segno).nrValidBlock →
      [segno, other].Sublist (d.victims.map Victim.segno)

theorem DstWellFormed.standsFirst_iff {d : Dst} (wf : DstWellFormed d) {segno : Nat} :
    StandsFirst d segno ↔ ∃ victim, dstPeekVictim d = some victim ∧ victim.segno = segno := by
  constructor
  · intro first
    obtain ⟨victim, member, here⟩ := mem_map.mp ((wf.listed segno).mp first.listed)
    obtain ⟨head, rest, victims⟩ := exists_cons_of_ne_nil (ne_nil_of_mem member)
    have headMember : head ∈ d.victims := by simp [victims]
    have headListed := (wf.listed head.segno).mpr (mem_map_of_mem headMember)
    refine ⟨head, by rw [dstPeekVictim, victims]; rfl, ?_⟩
    by_contra differs
    have below := wf.le_of_head victims member
    rw [(wf.victim head headMember).2.1, (wf.victim victim member).2.1, here] at below
    have equal := Nat.le_antisymm below (first.least head.segno headListed)
    have ahead := first.ahead head.segno headListed differs equal
    -- The head cannot also stand behind another segment.
    have nodup := wf.nodup
    rw [victims, map_cons] at ahead nodup
    have later := ahead.of_cons_of_ne (Ne.symm differs)
    exact (nodup_cons.mp nodup).1 (later.subset (by simp))
  · rintro ⟨head, peek, rfl⟩
    obtain ⟨rest, victims⟩ := head?_eq_some_iff.mp peek
    have headMember : head ∈ d.victims := by simp [victims]
    refine ⟨(wf.listed _).mpr (mem_map_of_mem headMember), ?_, ?_⟩
    · intro other listed
      obtain ⟨victim, member, rfl⟩ := mem_map.mp ((wf.listed other).mp listed)
      rw [← (wf.victim head headMember).2.1, ← (wf.victim victim member).2.1]
      exact wf.le_of_head victims member
    · intro other listed differs _
      have member := (wf.listed other).mp listed
      rw [victims, map_cons] at member ⊢
      have behind := (mem_cons.mp member).resolve_left differs
      exact (singleton_sublist.mpr behind).cons_cons _

/-! ## The next block -/

/-- The block that threaded logging takes for a push of `lba` is not in the segment of the
buffer. -/
def ThreadedElsewhere (s : DmSwornDisk K I M G) (lba : Nat) : Prop :=
  sworndiskShouldThreadedLogging s = true →
    blockToSegment (nextBlock (returnOld s lba) true).1 ≠ s.segBuffer.curSegment

/-- With threaded logging, another victim stands before the buffer's segment once the old
block was returned. -/
def BufferBehind (s : DmSwornDisk K I M G) (lba : Nat) : Prop :=
  sworndiskShouldThreadedLogging s = true →
    ¬ StandsFirst (returnOld s lba).dst s.segBuffer.curSegment

variable {s : DmSwornDisk K I M G}

theorem nextBlock_of_peek {victim : Victim} (peek : dstPeekVictim s.dst = some victim) :
    (nextBlock s true).1 = threadedAddr victim := by
  simp only [nextBlock, if_true, peek]
  rfl

section

variable {s : DmSwornDisk K I M G} {used : Nat}

theorem Consistent.bufferBehind_iff (c : Consistent s s.lsmTree used) (lba : Nat) :
    BufferBehind s lba ↔ (sworndiskShouldThreadedLogging s = true → ∀ victim,
      dstPeekVictim (C.returnOld s lba).dst = some victim →
        victim.segno ≠ s.segBuffer.curSegment) := by
  rw [BufferBehind, (c.returnOld lba).wf.standsFirst_iff]
  exact ⟨fun behind threaded victim peek here => behind threaded ⟨victim, peek, here⟩,
    fun elsewhere threaded ⟨victim, peek, here⟩ => elsewhere threaded victim peek here⟩

theorem Consistent.threadedElsewhere_iff (c : Consistent s s.lsmTree used) (lba : Nat) :
    ThreadedElsewhere s lba ↔ BufferBehind s lba := by
  rw [c.bufferBehind_iff lba]
  refine forall_congr' fun threaded => ?_
  obtain ⟨head, peek, member, -, -⟩ := c.exists_threadedVictim threaded lba
  rw [nextBlock_of_peek peek, ((c.returnOld lba).wf.threadedAddr member).1]
  constructor
  · intro elsewhere victim peek'
    obtain rfl := some.inj (peek.symm.trans peek')
    exact elsewhere
  · exact fun elsewhere => elsewhere head peek

end

theorem outside_buffer (room : curBlock s ≤ blocksPerSegment) {blkaddr : Nat}
    (elsewhere : blockToSegment blkaddr ≠ s.segBuffer.curSegment) :
    segbufQueryEncryptedBlock s blkaddr = none ∧
      (segbufFlushBios s).dataDev blkaddr = s.dataDev blkaddr := by
  refine ⟨?_, if_neg elsewhere⟩
  have outside : ¬ inSegmentBuffer s blkaddr = true := fun inside =>
    elsewhere ((inSegmentBuffer_iff room blkaddr).mp inside).1
  simp only [inSegmentBuffer, Bool.and_eq_true, decide_eq_true_eq, not_and_or, not_le, not_lt]
    at outside
  simp only [segbufQueryEncryptedBlock, outside, if_true]

/-! ## Runs -/

/-- When a push of `lba` is regular, in terms of the victims' tree: the buffer's segment
does not stand first under threaded logging, a full buffer finds a free segment, and the
victims of a collection are at most three quarters full. -/
structure PushBehind (s : DmSwornDisk K I M G) (lba : Nat) : Prop where
  behind : BufferBehind s lba
  segment : FillsBuffer s → ∃ seg < s.nrSegment, segmentValid s seg = false
  light : StartsGc s → ∀ victim ∈ collected s lba, victim.nrValidBlock ≤ 768

/-- Every write of a session that goes to a new block is regular in this sense. -/
def WritesBehind (env : Env K I M G) : DmSwornDisk K I M G → List Bio → Prop
  | _, [] => True
  | s, bio :: bios =>
    (modifiesBuffer s bio = false → PushBehind s (bioGetBlockAddress bio)) ∧
      ∀ t, sworndiskDoWrite env s bio = some t → WritesBehind env t bios

variable {env : Env K I M G}

theorem Running.writesSafe {bios : List Bio} (running : Running env s)
    (behind : WritesBehind env s bios) : WritesSafe env s bios := by
  induction bios generalizing s with
  | nil => trivial
  | cons bio bios ih =>
    obtain ⟨push, later⟩ := behind
    have safe : BioSafe s bio := by
      intro fills
      obtain ⟨plain, o⟩ := running.inOrder
      have regular := push fills
      exact ⟨bioGetBlockAddress_lt bio, (o.consistent.bufferBehind_iff _).mp regular.behind,
        regular.segment, regular.light⟩
    refine ⟨safe, fun t wrote => ?_⟩
    obtain ⟨t', wrote', running'⟩ := running.write safe
    obtain rfl := some.inj (wrote'.symm.trans wrote)
    exact ih running' (later t' wrote)

/-- Allows a threaded write only outside the segment of the buffer, in which the slot was
filled before it. -/
def elsewhereMonitor : Monitor (Effect K I M) (Option Nat) where
  next
    | _, .fill segment _ _ _ => some segment
    | buffer, .write _ _ => buffer
    | buffer, .flush _ _ => buffer
  allows
    | _, .fill _ _ _ _ => True
    | buffer, .write block _ => buffer ≠ some (blockToSegment block.pba)
    | _, .flush _ _ => True

theorem watches_elsewhere (env : Env K I M G) :
    Watches env elsewhereMonitor fun _ _ => True where
  congr := fun _ _ _ _ _ => trivial
  logged := by
    intro s t lba data _ _ _ _ buffer _
    refine ⟨?_, trivial⟩
    rw [loggedEffects]
    split
    · exact ⟨trivial, trivial, trivial⟩
    · exact ⟨trivial, trivial⟩
  threaded := by
    intro s lba data victim c _ _ member elsewhere buffer _
    refine ⟨⟨trivial, ?_, trivial⟩, trivial⟩
    intro same
    have segment := ((c.returnOld lba).wf.threadedAddr member).1
    exact elsewhere (segment.symm.trans (some.inj same).symm)
  modified := fun _ _ _ _ _ _ _ => ⟨⟨trivial, trivial⟩, trivial⟩
  unmounted := fun _ _ _ => trivial

/-- In a session of writes before which the buffer's segment does not stand first, no
threaded write, of a collection or otherwise, goes to the segment of the buffer; and after
it the next one goes elsewhere exactly under that condition, out of reach of the buffer. -/
theorem threaded_writes_elsewhere {env : Env K I M G} {nrSegment : Nat} {dataDev : Nat → G}
    {s : DmSwornDisk K I M G} {bios : List Bio} (enough : nrSegment ≤ env.gcFuel)
    (mounted : mount env (format nrSegment dataDev) = some s) (behind : WritesBehind env s bios) :
    ∃ t, runWrites env s bios = some t ∧
      (unmount t).media = replay env s.media (sessionEffects env s bios) ∧
      elsewhereMonitor.Accepts none (sessionEffects env s bios) ∧
      ∀ lba, (ThreadedElsewhere t lba ↔ BufferBehind t lba) ∧
        (sworndiskShouldThreadedLogging t = true → ThreadedElsewhere t lba →
          segbufQueryEncryptedBlock t (nextBlock (returnOld t lba) true).1 = none ∧
            (segbufFlushBios t).dataDev (nextBlock (returnOld t lba) true).1 =
              t.dataDev (nextBlock (returnOld t lba) true).1) := by
  obtain ⟨running, -, -⟩ := running_format enough mounted
  have safe := running.writesSafe behind
  obtain ⟨t, ran⟩ := running.runWrites safe
  obtain ⟨plain, o⟩ := (running.after safe ran).inOrder
  refine ⟨t, ran, sessionEffects_media ran,
    (watches_elsewhere env).session running safe trivial, fun lba => ⟨?_, ?_⟩⟩
  · exact o.consistent.threadedElsewhere_iff lba
  · exact fun threaded elsewhere =>
      outside_buffer (Nat.le_of_lt o.aligned.room) (elsewhere threaded)

/-! ## A buffer that stands first -/

def VictimsUnused (s : DmSwornDisk K I M G) : Prop :=
  ∀ victim ∈ s.dst.victims, victim.nrValidBlock = 0 ∧ segmentValid s victim.segno = false

theorem gcLoop_unused (env : Env K I M G) (victims : List Victim) :
    ∀ {t : DmSwornDisk K I M G} {fuel : Nat}, DstWellFormed t.dst →
      t.segValidator.nrSegment = t.dst.nrSegment → t.dst.victims = victims →
      victims.length ≤ fuel → VictimsUnused t →
      ∃ d : Dst, d.victims = [] ∧
        gcLoop (gcScanVictim env) fuel 0 t = some { t with dst := d } := by
  induction victims with
  | nil =>
    intro t fuel _ _ victims _ _
    have peek : dstPeekVictim t.dst = none := by rw [dstPeekVictim, victims]; rfl
    exact ⟨t.dst, victims, by rw [gcLoop, peek]⟩
  | cons victim rest ih =>
    intro t fuel wf bounds victims enough unused
    have peek : dstPeekVictim t.dst = some victim := by rw [dstPeekVictim, victims]; rfl
    obtain ⟨fuel, rfl⟩ : ∃ less, fuel = less + 1 :=
      Nat.exists_eq_succ_of_ne_zero (by
        rw [length_cons] at enough
        omega)
    have member : victim ∈ t.dst.victims := by simp [victims]
    obtain ⟨empty, free⟩ := unused victim member
    have scan : gcScanVictim env victim t = some t := by simp [gcScanVictim, empty]
    have table : update t.segValidator.segValidityTable victim.segno false =
        t.segValidator.segValidityTable := by
      have entry : t.segValidator.segValidityTable victim.segno = false := free
      rw [← entry, update_eq_self]
    have reclaim : gcReclaim victim 0 t =
        (0, { t with dst := dstRemoveVictim t.dst victim.segno }) := by
      rw [gcReclaim_eq victim 0 (bounds ▸ (wf.victim victim member).1), table, free]
      rfl
    have rest_eq : (dstRemoveVictim t.dst victim.segno).victims = rest := by
      rw [dstRemoveVictim_victims wf, victims, eraseP_cons_of_pos (by simp)]
    obtain ⟨d, none, loop⟩ := ih (t := { t with dst := dstRemoveVictim t.dst victim.segno })
      (wf.removeVictim _) (by simpa using bounds) rest_eq (Nat.le_of_succ_le_succ enough)
      fun other later => unused other ((mem_dstRemoveVictim wf).mp later).1
    refine ⟨d, none, ?_⟩
    have more : 0 < gcTarget := by decide
    rw [gcLoop, peek]
    simp only [more, if_true, scan, bind_some, reclaim]
    exact loop

theorem mem_of_mem_gcReached {valid : Nat → Bool} {victims : List Victim} {victim : Victim} :
    ∀ {clean : Nat}, victim ∈ gcReached valid clean victims → victim ∈ victims := by
  induction victims with
  | nil => exact fun reached => reached
  | cons head rest ih =>
    intro clean reached
    simp only [gcReached] at reached
    split at reached
    · rcases mem_cons.mp reached with rfl | reached
      · exact mem_cons_self
      · exact mem_cons_of_mem _ (ih reached)
    · exact absurd reached not_mem_nil

theorem VictimsUnused.gc (unused : VictimsUnused s) (wf : DstWellFormed s.dst) :
    GcFresh s ∧ GcSafe s := by
  have empty : ∀ victim ∈ gcReached (segmentValid s) 0 s.dst.victims, victim.nrValidBlock = 0 :=
    fun victim reached => (unused victim (mem_of_mem_gcReached reached)).1
  refine ⟨fun victim reached blkaddr segment stale => ?_,
    gcSafe_of_light fun victim reached => (empty victim reached).le.trans (Nat.zero_le _)⟩
  obtain ⟨bound, count, -, -⟩ := wf.victim victim (mem_of_mem_gcReached reached)
  have positive := wf.nrValidBlock_pos (segment ▸ bound) stale.bit
  rw [segment, ← count, empty victim reached] at positive
  exact absurd positive (Nat.lt_irrefl 0)

/-- The state after a collection over unused segments: in order, with no victims and an
empty buffer. -/
structure NoVictims (env : Env K I M G) (t : DmSwornDisk K I M G) : Prop where
  inOrder : ∃ plain, InOrder env plain t
  empty : curBlock t = 0
  unlisted : t.dst.victims = []

variable {lba : Nat}

theorem InOrder.push_unused {plain : Nat → Block} (o : InOrder env plain s)
    (enough : s.nrSegment ≤ env.gcFuel) (key : lba < 2 ^ 32)
    (logged : sworndiskShouldThreadedLogging s = false) (full : curBlock s + 1 = blocksPerSegment)
    (crowded : gcThreshold s.nrSegment < s.segAllocator.nrValidSegment + 1)
    (free : ∃ seg < s.nrSegment, segmentValid s seg = false) (unmapped : lsmSearch s lba = none)
    (unused : VictimsUnused s) (data : Block) :
    ∃ t, segbufPushBlock env (saForegroundGc env) s lba data = some t ∧ NoVictims env t ∧
      t.nrSegment = s.nrSegment ∧
      t.lsmTree = update s.lsmTree lba
        (some (newRecord env s (slotAddr s (curBlock s)) data)) := by
  have c := o.consistent
  have old : returnOld s lba = s := by simp only [returnOld, unmapped]
  obtain ⟨u, push, pushes⟩ := c.push_cases o.aligned env logged key data fun _ => free
  have tree := push.lsmTree_eq key
  obtain ⟨inOrder, frame⟩ := o.of_loggedTo push key
  have blocks : curBlock u = 0 := by
    cases push with
    | advance room => exact absurd full (Nat.ne_of_lt room)
    | allocate => rw [curBlock_allocSegment, curBlock_rewindBuffer]
  have triggers : saWillTriggerGc u = true := by
    cases push with
    | advance room => exact absurd full (Nat.ne_of_lt room)
    | allocate => simpa [saWillTriggerGc, allocSegment, rewindBuffer, segbufFlushBios] using crowded
  have unusedNow : VictimsUnused u := by
    cases push with
    | advance room => exact absurd full (Nat.ne_of_lt room)
    | @allocate seg _ found =>
      intro victim member
      have removed : victim ∈ (dstRemoveVictim s.dst seg).victims := by
        simp only [allocSegment, dstFilled, dstSet_removeVictim, rewindBuffer, segbufFlushBios,
          loggedBlock_dst, old] at member
        exact member
      obtain ⟨before, distinct⟩ := (mem_dstRemoveVictim c.wf).mp removed
      refine ⟨(unused victim before).1, ?_⟩
      have valid := (unused victim before).2
      simp only [segmentValid, allocSegment, rewindBuffer, segbufFlushBios,
        loggedBlock_segValidator]
      rw [update_of_ne distinct]
      exact valid
  have collects : curBlock s + 1 = blocksPerSegment ∧ saWillTriggerGc u = true ∧
      s.segAllocator.status ≠ .cleaning := by
    refine ⟨full, triggers, ?_⟩
    rw [o.idle]
    decide
  have pushed := pushes (saForegroundGc env)
  rw [if_pos collects] at pushed
  have wf := inOrder.consistent.wf
  have fuel : u.dst.victims.length ≤ env.gcFuel := by
    refine wf.length_victims_le.trans ?_
    rw [inOrder.consistent.nrDst, frame.nrSegment]
    exact enough
  obtain ⟨fresh, safe⟩ := unusedNow.gc wf
  obtain ⟨t, collection, ready, gcFrame, idle, -⟩ := (inOrder.gcReady blocks).saForegroundGc
    fresh safe (frame.nrSegment.trans_le enough)
  obtain ⟨d, none, loop⟩ := gcLoop_unused env u.dst.victims
    (t := withStatus u .cleaning) wf (inOrder.consistent.nrSvt.trans inOrder.consistent.nrDst.symm)
    rfl fuel unusedNow
  have emptied : saForegroundGc env u =
      some (withStatus { withStatus u .cleaning with dst := d } .allocating) := by
    change (gcLoop (gcScanVictim env) env.gcFuel 0 (withStatus u .cleaning)).map _ = _
    rw [loop]
    rfl
  obtain rfl := some.inj (emptied.symm.trans collection)
  exact ⟨_, pushed.trans emptied,
    ⟨⟨_, ready.consistent, ready.aligned, ready.sealed, idle⟩, blocks, none⟩, frame.nrSegment, tree⟩

theorem wroteBlock_tables (env : Env K I M G) (s : DmSwornDisk K I M G) (key : lba < 2 ^ 32)
    (block : Block) :
    (wroteBlock env s lba block).dst = (returnOld s lba).dst ∧
      (wroteBlock env s lba block).lsmTree = update s.lsmTree lba
        (some (newRecord env s (slotAddr s (curBlock s)) block)) := by
  refine ⟨?_, ?_⟩
  · change (loggedBlock env (fillSlot s block) lba block).dst = _
    rw [loggedBlock_dst, returnOld_fillSlot_dst]
  · change (loggedBlock env (fillSlot s block) lba block).lsmTree = _
    rw [loggedBlock_lsmTree env _ key]
    rfl

theorem not_threaded_of_none (none : s.dst.victims = []) :
    sworndiskShouldThreadedLogging s = false := by
  simp only [sworndiskShouldThreadedLogging, shouldThreadedLogging, none, ite_self]

/-- If the first slot of a buffer is returned while nothing is listed, its segment is the
only victim, with one block less than full. -/
theorem Consistent.victims_returned {used : Nat} (c : Consistent s s.lsmTree used)
    (none : s.dst.victims = []) (pba : Nat)
    (full : (s.dst.array (blockToSegment pba)).nrValidBlock = blocksPerSegment) :
    ∃ head rest, (dstCleared s.dst pba).victims = head :: rest ∧
      head.nrValidBlock = blocksPerSegment - 1 ∧
      ∀ victim ∈ (dstCleared s.dst pba).victims, victim.segno = blockToSegment pba := by
  have member : ∀ victim, victim ∈ (dstCleared s.dst pba).victims ↔
      victim = ⟨blockToSegment pba, blocksPerSegment - 1,
        update (s.dst.array (blockToSegment pba)).blockValidityTable
          (blockOffsetWithinSegment pba) false⟩ := by
    intro victim
    have less : blocksPerSegment - 1 < blocksPerSegment := by decide
    simp only [dstCleared, mem_victims_dstStore c.wf, none, full, less, not_mem_nil, false_and,
      false_or, and_true]
  obtain ⟨head, rest, victims⟩ :=
    exists_cons_of_ne_nil (ne_nil_of_mem ((member _).mpr rfl))
  refine ⟨head, rest, victims, ?_, fun victim listed => ?_⟩
  · rw [(member head).mp (by simp [victims])]
  · rw [(member victim).mp listed]

/-- With a low threshold and nothing listed, a block that is written twice makes the buffer's
segment the first victim, and the next new block goes there. -/
theorem NoVictims.rewritten (n : NoVictims env s) (low : threadedThreshold s.nrSegment = 0)
    (small : lba < 2 ^ 29) (block : Block) (unmapped : s.lsmTree lba = none)
    (unmappedNext : s.lsmTree (lba + 1) = none) :
    ∃ t, runWrites env s [blockBio lba block, blockBio lba block] = some t ∧
      ¬ ThreadedElsewhere t (lba + 1) := by
  obtain ⟨plain, o⟩ := n.inOrder
  have key : lba < 2 ^ 32 := by omega
  have keyNext : lba + 1 < 2 ^ 32 := by omega
  have address := bioGetBlockAddress_blockBio small block
  have room : curBlock s + 1 < blocksPerSegment := by
    rw [n.empty]
    decide
  have full : (s.dst.array (blockToSegment (slotAddr s (curBlock s)))).nrValidBlock =
      blocksPerSegment := by
    have c := o.consistent
    rw [slotAddr_segment (Nat.lt_of_succ_lt room), c.wf.count _ (c.nrDst ▸ c.curBound)]
    refine countSet_eq_self_iff.mpr fun offset inside => ?_
    have bit := c.reservedBit offset (n.empty ▸ Nat.zero_le _) inside
    rwa [dstBit, slotAddr_segment inside, slotAddr_offset inside] at bit
  have old : (returnOld s lba).dst = s.dst := by
    have unmappedKey : lsmSearch s lba = none := by rw [lsmSearch, lsmKey_of_lt key, unmapped]
    simp only [returnOld, unmappedKey]
  obtain ⟨wrote, o'⟩ := o.wroteBlock (not_threaded_of_none n.unlisted) room lba block
  obtain ⟨-, nrSegment, curSegment, blocks⟩ := wroteBlock_keeps env s lba block
  obtain ⟨dst, tree⟩ := wroteBlock_tables env s key block
  rw [address] at wrote o'
  rw [old] at dst
  have segment : blockToSegment (slotAddr s (curBlock s)) = s.segBuffer.curSegment :=
    slotAddr_segment (Nat.lt_of_succ_lt room)
  generalize wroteBlock env s lba block = u at *
  have found : lsmSearch u lba = some (newRecord env s (slotAddr s (curBlock s)) block) := by
    rw [lsmSearch, lsmKey_of_lt key, tree, update_self]
  have listed : u.dst.victims = [] := by rw [dst, n.unlisted]
  have room' : curBlock u + 1 < blocksPerSegment := by
    rw [blocks, n.empty]
    decide
  obtain ⟨wrote', o''⟩ := o'.wroteBlock (not_threaded_of_none listed) room' lba block
  obtain ⟨-, nrSegment', curSegment', -⟩ := wroteBlock_keeps env u lba block
  obtain ⟨dst', tree'⟩ := wroteBlock_tables env u key block
  obtain ⟨head, rest, victims, count, only⟩ :=
    o'.consistent.victims_returned listed (slotAddr s (curBlock s)) (by rw [dst]; exact full)
  have here := only head (by simp [victims])
  rw [address] at wrote' o''
  rw [o'.consistent.returnOld_eq found] at dst'
  generalize wroteBlock env u lba block = t at *
  have victims' : t.dst.victims = head :: rest := by rw [dst']; exact victims
  have threaded : sworndiskShouldThreadedLogging t = true := by
    have notFew : ¬ t.segAllocator.nrValidSegment < threadedThreshold t.nrSegment := by
      rw [nrSegment', nrSegment, low]
      exact Nat.not_lt_zero _
    rw [sworndiskShouldThreadedLogging, if_neg notFew]
    simp only [shouldThreadedLogging, victims', count]
    decide
  refine ⟨t, by rw [runWrites_cons wrote, runWrites_singleton, wrote'], fun elsewhere => ?_⟩
  have unmapped' : lsmSearch t (lba + 1) = none := by
    rw [lsmSearch, lsmKey_of_lt keyNext, tree', update_of_ne (Nat.succ_ne_self lba), tree,
      update_of_ne (Nat.succ_ne_self lba), unmappedNext]
  have old' : returnOld t (lba + 1) = t := by simp only [returnOld, unmapped']
  have member : head ∈ t.dst.victims := by simp [victims']
  have apart := elsewhere threaded
  have peek : dstPeekVictim t.dst = some head := by rw [dstPeekVictim, victims']; rfl
  rw [old', nextBlock_of_peek peek, (o''.consistent.wf.threadedAddr member).1, here, segment,
    curSegment', curSegment] at apart
  exact apart rfl

theorem VictimsUnused.not_threaded (unused : VictimsUnused s) :
    sworndiskShouldThreadedLogging s = false := by
  cases victims : s.dst.victims with
  | nil => exact not_threaded_of_none victims
  | cons head rest =>
    have empty := (unused head (by simp [victims])).1
    simp only [sworndiskShouldThreadedLogging, shouldThreadedLogging, victims, empty,
      Nat.not_lt_zero, decide_false, ite_self]

theorem victimsUnused_firstMount (env : Env K I M G) {nrSegment : Nat} (dataDev : Nat → G)
    (positive : 0 < nrSegment) (quiet : 1 ≤ gcThreshold nrSegment) :
    VictimsUnused (firstMount env nrSegment dataDev) := by
  intro victim member
  have wf := (inOrder_firstMount env dataDev positive quiet fun _ => zeroBlock).consistent.wf
  obtain ⟨-, count, -, notFull⟩ := wf.victim victim member
  have array : (firstMount env nrSegment dataDev).dst.array = update
      (loaded env (format nrSegment dataDev)).dst.array 0 ⟨blocksPerSegment, fun _ => true⟩ := by
    simp only [firstMount, allocSegment, dstFilled, dstRemoveVictim_array, dstSet]
  have other : victim.segno ≠ 0 := by
    intro first
    rw [count, array, first, update_self] at notFull
    exact absurd notFull (Nat.lt_irrefl _)
  refine ⟨?_, update_of_ne other _ _⟩
  rw [count, array, update_of_ne other]
  simp [loaded, format]

theorem noVictims_run (env : Env K I M G) (data : Nat → Block) (dataDev : Nat → G)
    (enough : 17 ≤ env.gcFuel) :
    ∃ t, runWrites env (firstMount env 17 dataDev) (firstBios data blocksPerSegment) = some t ∧
      NoVictims env t ∧ t.nrSegment = 17 ∧ t.lsmTree = firstTree env data blocksPerSegment := by
  have positive : 0 < 17 := by decide
  have quiet : 1 ≤ gcThreshold 17 := by decide
  have start := firstBlocks_firstMount env data dataDev positive quiet
  have unused := victimsUnused_firstMount env dataDev positive quiet
  have bound : 1023 < blocksPerSegment := by decide
  obtain ⟨t, ran, f, -⟩ := start.run unused.not_threaded bound
  have filled := f.fillSlot (data 1023)
  obtain ⟨plain, o⟩ := filled.inOrder
  have key : 1023 < 2 ^ 32 := by decide
  have writes := sworndiskDoWrite_blockBio env t 1023 (data 1023)
  rw [bioGetBlockAddress_blockBio (by decide : 1023 < 2 ^ 29)] at writes
  have tree := filled.tree_succ key
  rw [loggedBlock_lsmTree env _ key] at tree
  have unmapped : lsmSearch (fillSlot t (data 1023)) 1023 = none := by
    rw [lsmSearch, lsmKey_of_lt key, filled.lsmTree, firstTree, if_neg (Nat.lt_irrefl _)]
  generalize fillSlot t (data 1023) = full at *
  have nrSegment : full.nrSegment = 17 := filled.nrSegment
  have unusedNow : VictimsUnused full := by
    intro victim member
    rw [segmentValid, filled.segValidator]
    exact unused victim (filled.dst ▸ member)
  have crowded : gcThreshold full.nrSegment < full.segAllocator.nrValidSegment + 1 := by
    rw [nrSegment, filled.segAllocator, firstMount_segAllocator]
    decide
  have free : ∃ seg < full.nrSegment, segmentValid full seg = false := by
    refine ⟨1, by rw [nrSegment]; decide, ?_⟩
    rw [segmentValid, filled.segValidator]
    exact update_of_ne Nat.one_ne_zero true fun _ => false
  obtain ⟨u, pushed, n, nrSegment', newTree⟩ := o.push_unused (nrSegment.trans_le enough) key
    unusedNow.not_threaded (congrArg (· + 1) filled.filled) crowded free unmapped unusedNow
    (data 1023)
  obtain ⟨plain', order⟩ := n.inOrder
  refine ⟨bioPrefetcherClear u, ?_, ⟨⟨plain', order.withPrefetcher _⟩, n.empty, n.unlisted⟩,
    nrSegment'.trans nrSegment, newTree.trans tree⟩
  have bios := firstBios_succ data 1023
  have blocks : blocksPerSegment = 1023 + 1 := rfl
  rw [blocks, bios, runWrites_append, ran, bind_some, runWrites_singleton, writes, pushed,
    map_some]

theorem writesBehind_append {first second : List Bio} (behind : WritesBehind env s first)
    (rest : ∀ t, runWrites env s first = some t → WritesBehind env t second) :
    WritesBehind env s (first ++ second) := by
  induction first generalizing s with
  | nil => exact rest s rfl
  | cons bio bios ih =>
    refine ⟨behind.1, fun next wrote => ih (behind.2 next wrote) fun t ran => rest t ?_⟩
    rw [runWrites_cons wrote, ran]

theorem FirstBlocks.pushBehind {data : Nat → Block} {start t : DmSwornDisk K I M G} {n : Nat}
    (f : FirstBlocks env data start n t) (key : n < 2 ^ 32) (unused : VictimsUnused start)
    (free : ∃ seg < start.nrSegment, segmentValid start seg = false) : PushBehind t n := by
  obtain ⟨plain, o⟩ := f.inOrder
  refine ⟨fun threaded => ?_, fun _ => ?_, fun _ victim reached => ?_⟩
  · rw [f.threaded_eq, unused.not_threaded] at threaded
    exact absurd threaded Bool.false_ne_true
  · rw [f.nrSegment]
    simpa only [segmentValid, f.segValidator] using free
  · unfold collected at reached
    split at reached
    · have listed := mem_of_mem_gcReached reached
      rw [f.returnOld_eq key] at listed
      have before := ((mem_dstRemoveVictim o.consistent.wf).mp listed).1
      rw [f.dst] at before
      exact (unused victim before).1.le.trans (Nat.zero_le _)
    · exact absurd reached not_mem_nil

theorem writesBehind_firstBios (env : Env K I M G) (data : Nat → Block) (dataDev : Nat → G)
    {n : Nat} (bound : n ≤ blocksPerSegment) :
    WritesBehind env (firstMount env 17 dataDev) (firstBios data n) := by
  have positive : 0 < 17 := by decide
  have quiet : 1 ≤ gcThreshold 17 := by decide
  have start := firstBlocks_firstMount env data dataDev positive quiet
  have unused := victimsUnused_firstMount env dataDev positive quiet
  have free : ∃ seg < (firstMount env 17 dataDev).nrSegment,
      segmentValid (firstMount env 17 dataDev) seg = false :=
    ⟨1, (by decide : 1 < 17), update_of_ne Nat.one_ne_zero true fun _ => false⟩
  induction n with
  | zero => trivial
  | succ n ih =>
    rw [firstBios_succ]
    refine writesBehind_append (ih (by omega)) fun t ran => ⟨fun _ => ?_, fun _ _ => trivial⟩
    obtain ⟨t', ran', f, -⟩ := start.run unused.not_threaded bound
    obtain rfl := some.inj (ran.symm.trans ran')
    have small : n < 2 ^ 29 := by
      unfold blocksPerSegment at bound
      omega
    rw [bioGetBlockAddress_blockBio small]
    exact f.pushBehind (by omega) unused free

theorem writesBehind_filled {data : Nat → Block} {dataDev : Nat → G} {n : Nat} {bios : List Bio}
    (bound : n ≤ blocksPerSegment)
    (ran : runWrites env (firstMount env 17 dataDev) (firstBios data n) = some s)
    (behind : WritesBehind env s bios) :
    ∃ all, all = firstBios data n ++ bios ∧ WritesBehind env (firstMount env 17 dataDev) all := by
  refine ⟨_, rfl, writesBehind_append (writesBehind_firstBios env data dataDev bound) ?_⟩
  intro t ran'
  obtain rfl := some.inj (ran.symm.trans ran')
  exact behind

/-- Once the first segment is full and nothing is listed, a write of address 0 makes that
segment the only victim, and the next write goes there. -/
theorem NoVictims.writesBehind {data : Nat → Block} (n : NoVictims env s)
    (low : threadedThreshold s.nrSegment = 0)
    (tree : s.lsmTree = firstTree env data blocksPerSegment)
    (block : Block) :
    ∃ t, sworndiskDoWrite env s (blockBio 0 block) = some t ∧
      sworndiskShouldThreadedLogging t = true ∧
      WritesBehind env s [blockBio 0 block, blockBio 1 block] := by
  obtain ⟨plain, o⟩ := n.inOrder
  have c := o.consistent
  have room : curBlock s + 1 < blocksPerSegment := by
    rw [n.empty]
    decide
  have mapped : ∀ lba < blocksPerSegment, s.lsmTree lba = some (firstRecord env data lba) :=
    fun lba below => by rw [tree, firstTree, if_pos below]
  have full : (s.dst.array 0).nrValidBlock = blocksPerSegment := by
    have bound : 0 < s.nrSegment := Nat.zero_lt_of_lt c.curBound
    rw [c.wf.count 0 (c.nrDst ▸ bound)]
    refine countSet_eq_self_iff.mpr fun offset inside => ?_
    have bit := (c.mapped offset _ (mapped offset inside)).bit
    have segment : blockToSegment offset = 0 := Nat.div_eq_of_lt inside
    have here : blockOffsetWithinSegment offset = offset := Nat.mod_eq_of_lt inside
    change dstBit s.dst offset = true at bit
    rwa [dstBit, segment, here] at bit
  have first : 0 < blocksPerSegment := by decide
  have found : lsmSearch s 0 = some (firstRecord env data 0) := mapped 0 first
  have address : bioGetBlockAddress (blockBio 0 block) = 0 :=
    bioGetBlockAddress_blockBio (by decide) block
  obtain ⟨wrote, o'⟩ := o.wroteBlock (not_threaded_of_none n.unlisted) room 0 block
  obtain ⟨-, nrSegment, curSegment, blocks⟩ := wroteBlock_keeps env s 0 block
  obtain ⟨dst, tree'⟩ := wroteBlock_tables env s (Nat.two_pow_pos 32) block
  have segmentZero : blockToSegment 0 = 0 := Nat.zero_div _
  obtain ⟨head, rest, victims, count, only⟩ := c.victims_returned n.unlisted 0
    (segmentZero.symm ▸ full)
  rw [c.returnOld_eq found] at dst
  rw [address] at wrote o'
  generalize wroteBlock env s 0 block = t at *
  have c' := o'.consistent
  have cleared : t.dst = dstCleared s.dst 0 := dst
  have listed : t.dst.victims = head :: rest := cleared ▸ victims
  have threaded : sworndiskShouldThreadedLogging t = true := by
    have notFew : ¬ t.segAllocator.nrValidSegment < threadedThreshold t.nrSegment := by
      rw [nrSegment, low]
      exact Nat.not_lt_zero _
    rw [sworndiskShouldThreadedLogging, if_neg notFew]
    simp only [shouldThreadedLogging, listed, count]
    decide
  -- Address 1 lives in segment 0, where the buffer has no slot.
  have elsewhere : t.segBuffer.curSegment ≠ 0 := by
    intro here
    have next : 1 < blocksPerSegment := by decide
    refine c'.reservedFree 1 ?_ next 1 (firstRecord env data 1) ?_ ?_
    · rw [blocks, n.empty]
    · rw [tree', update_of_ne Nat.one_ne_zero, mapped 1 next]
    · rw [slotAddr, here, Nat.zero_mul]
      rfl
  have push : PushBehind s 0 := by
    have notFull : ¬ FillsBuffer s := fun fills => Nat.ne_of_lt room fills.2
    refine ⟨fun logging => ?_, fun fills => absurd fills notFull,
      fun starts => absurd starts.1 notFull⟩
    rw [not_threaded_of_none n.unlisted] at logging
    exact absurd logging Bool.false_ne_true
  have pushNext : PushBehind t 1 := by
    have logs : ¬ FillsBuffer t := fun fills => by
      rw [fills.1] at threaded
      exact absurd threaded Bool.false_ne_true
    refine ⟨(c'.bufferBehind_iff 1).mpr fun _ victim peek => ?_, fun fills => absurd fills logs,
      fun starts => absurd starts.1 logs⟩
    have foundNext : lsmSearch t 1 = some (firstRecord env data 1) := by
      change t.lsmTree 1 = _
      rw [tree', update_of_ne Nat.one_ne_zero, mapped 1 (by decide)]
    have member : victim ∈ (dstCleared t.dst 1).victims := by
      rw [c'.returnOld_eq foundNext] at peek
      exact mem_of_mem_head? peek
    have segment : victim.segno = 0 := by
      rcases (mem_victims_dstStore c'.wf).mp member with ⟨before, -⟩ | ⟨same, -⟩
      · exact (only victim (cleared ▸ before)).trans segmentZero
      · rw [same]
        exact Nat.div_eq_of_lt (by decide)
    rw [segment]
    exact elsewhere.symm
  refine ⟨t, wrote, threaded, fun _ => ?_, fun u wrote' => ⟨fun _ => ?_, fun _ _ => trivial⟩⟩
  · rw [address]
    exact push
  · obtain rfl := some.inj (wrote.symm.trans wrote')
    rw [bioGetBlockAddress_blockBio (by decide : 1 < 2 ^ 29)]
    exact pushNext

/-- On a device of 17 segments, once the first segment is full, address 0 goes to the buffer
and leaves a victim behind.  Threaded logging then puts address 1 into that victim. -/
theorem threaded_writes_elsewhere_victim :
    ∃ s t u, mount plainEnv (format 17 fun _ => zeroBlock) = some s ∧
      runWrites plainEnv s (firstBios (fun _ => zeroBlock) blocksPerSegment ++
        [blockBio 0 zeroBlock]) = some t ∧
      sworndiskShouldThreadedLogging t = true ∧
      runWrites plainEnv s (firstBios (fun _ => zeroBlock) blocksPerSegment ++
        [blockBio 0 zeroBlock, blockBio 1 zeroBlock]) = some u ∧
      elsewhereMonitor.Accepts none (sessionEffects plainEnv s
        (firstBios (fun _ => zeroBlock) blocksPerSegment ++
          [blockBio 0 zeroBlock, blockBio 1 zeroBlock])) := by
  have mounted := mount_format plainEnv (fun _ => zeroBlock) (by decide)
    (by decide : 1 ≤ gcThreshold 17)
  obtain ⟨filled, ran, n, nrSegment, tree⟩ := noVictims_run plainEnv (fun _ => zeroBlock)
    (fun _ => zeroBlock) (by decide)
  have low : threadedThreshold filled.nrSegment = 0 := by
    rw [nrSegment]
    decide
  obtain ⟨t, wrote, threaded, behind⟩ := n.writesBehind low tree zeroBlock
  have first : runWrites plainEnv (firstMount plainEnv 17 fun _ => zeroBlock)
      (firstBios (fun _ => zeroBlock) blocksPerSegment ++ [blockBio 0 zeroBlock]) = some t := by
    rw [runWrites_append, ran, bind_some, runWrites_singleton, wrote]
  obtain ⟨bios, same, regular⟩ := writesBehind_filled le_rfl ran behind
  rw [← same]
  obtain ⟨u, ended, -, accepts, -⟩ := threaded_writes_elsewhere (by decide) mounted regular
  exact ⟨_, t, u, mounted, first, threaded, ended, accepts⟩

/-- On a device of 17 segments, once the first segment is full and address 1024 was written
twice, the next new block is logged into the buffer's own segment. -/
theorem not_threadedElsewhere_rewritten :
    ∃ s t, mount plainEnv (format 17 fun _ => zeroBlock) = some s ∧
      runWrites plainEnv s (firstBios (fun _ => zeroBlock) blocksPerSegment ++
        [blockBio 1024 zeroBlock, blockBio 1024 zeroBlock]) = some t ∧
      ¬ ThreadedElsewhere t 1025 := by
  have mounted := mount_format plainEnv (fun _ => zeroBlock) (by decide)
    (by decide : 1 ≤ gcThreshold 17)
  obtain ⟨u, ran, n, nrSegment, tree⟩ := noVictims_run plainEnv (fun _ => zeroBlock)
    (fun _ => zeroBlock) (by decide)
  have low : threadedThreshold u.nrSegment = 0 := by
    rw [nrSegment]
    decide
  obtain ⟨t, rewrote, notElsewhere⟩ := n.rewritten low (by decide : 1024 < 2 ^ 29) zeroBlock
    (by rw [tree, firstTree, if_neg (by decide)]) (by rw [tree, firstTree, if_neg (by decide)])
  refine ⟨_, t, mounted, ?_, notElsewhere⟩
  rw [runWrites_append, ran, bind_some, rewrote]

end SwornDisk.C
