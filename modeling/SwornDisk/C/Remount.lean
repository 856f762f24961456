import SwornDisk.C.SparseRuns

/-!
# Metadata agreement over sessions

Runs of pushes, unmounts and mounts that start on a formatted device.  A clean
unmount writes the buffer out and keeps the tables; the mount rebuilds the victims and
reserves a segment, whatever the tables say as long as they agree.  What the tree answers
after it was reloaded from its files is a parameter: files may lose records.
-/

namespace SwornDisk.C

open Lib List Function Option

variable {data : Nat → Block} {n : Nat}

variable {K I M G : Type}

/-! ## Mounting -/

/-- The state that the constructor has loaded when it allocates the first segment. -/
def loaded (env : Env K I M G) (p : DmSwornDisk K I M G) : DmSwornDisk K I M G :=
  { p with
    segValidator := segValidatorInit p.segValidator
    dst := dstInit p.nrSegment p.dst.array
    segAllocator := ⟨segValidatorValidSegmentCount (segValidatorInit p.segValidator), .allocating⟩
    segBuffer := ⟨fun i => env.rawBytes (env.allocated i), env.allocated, 0, 0⟩
    prefetcher := ⟨env.allocated, 0, 0, 0, minNrFetch + 1⟩ }

theorem mount_eq (env : Env K I M G) (p : DmSwornDisk K I M G) :
    mount env p = match saAlloc (mountForegroundGc env) (loaded env p) with
      | some (.ok (), s) => some { s with segBuffer := { s.segBuffer with curSector := 0 } }
      | _ => none :=
  rfl

variable {p : DmSwornDisk K I M G}

theorem TablesAgree.loaded (a : TablesAgree p p.lsmTree) (env : Env K I M G) :
    TablesAgree (loaded env p) p.lsmTree := by
  have bits : ∀ blkaddr, dstBit (dstInit p.nrSegment p.dst.array) blkaddr = dstBit p.dst blkaddr :=
    fun blkaddr => by simp only [dstBit, dstInit_array]
  refine ⟨dstInit_nrSegment _ _, a.nrSvt, ?_, ?_, ?_, ?_⟩
  · apply dstWellFormed_init
    intro segno bound
    exact a.wf.count segno (a.nrDst ▸ bound)
  · intro lba record mapped
    have held := a.mapped lba record mapped
    exact ⟨held.key, held.bound, held.rit, (bits _).trans held.bit, held.valid⟩
  · intro segno bound free
    simpa [C.loaded] using a.free segno bound free
  · exact congrArg (countSet _) a.nrSvt

/-- What the rest of the mount keeps of the state with its first segment. -/
structure MountKeeps (base t : DmSwornDisk K I M G) : Prop where
  consistent : Consistent t base.lsmTree 0
  lsmTree : t.lsmTree = base.lsmTree
  segBuffer : t.segBuffer = base.segBuffer
  dataDev : t.dataDev = base.dataDev
  nrSegment : t.nrSegment = base.nrSegment
  array : t.dst.array = base.dst.array

variable {t : DmSwornDisk K I M G}

theorem DstWellFormed.mountScanVictim {t' : DmSwornDisk K I M G} (wf : DstWellFormed t.dst)
    {victim : Victim} (member : victim ∈ t.dst.victims)
    (scan : mountScanVictim victim t = some t') :
    t' = t ∧ (t.dst.array victim.segno).nrValidBlock = 0 := by
  obtain ⟨bound, count, table, -⟩ := wf.victim victim member
  unfold C.mountScanVictim at scan
  split at scan
  · rename_i occupied
    exfalso
    rw [count, wf.count _ bound, ← table] at occupied
    split at scan
    · rename_i none
      refine occupied (countSet_eq_zero_iff.mpr fun offset inside => ?_)
      rw [validOffsets, filter_eq_nil_iff] at none
      simpa using none offset (mem_range.mpr inside)
    · exact absurd scan (by simp)
  · rename_i empty
    exact ⟨(some.inj scan).symm, by rw [← count]; omega⟩

theorem MountKeeps.gcLoop {base : DmSwornDisk K I M G} (fuel : Nat) :
    ∀ {clean : Nat} {t t' : DmSwornDisk K I M G}, MountKeeps base t →
      gcLoop C.mountScanVictim fuel clean t = some t' → MountKeeps base t' := by
  induction fuel with
  | zero =>
    intro clean t t' keeps loop
    rw [C.gcLoop] at loop
    split at loop
    · exact some.inj loop ▸ keeps
    · split at loop
      · exact absurd loop (by simp)
      · exact some.inj loop ▸ keeps
  | succ fuel ih =>
    intro clean t t' keeps loop
    have c := keeps.consistent
    rw [C.gcLoop] at loop
    split at loop
    · exact some.inj loop ▸ keeps
    · rename_i victim peek
      split at loop
      · obtain ⟨scanned, scan, rest⟩ := Option.bind_eq_some_iff.mp loop
        have member : victim ∈ t.dst.victims := mem_of_mem_head? peek
        obtain ⟨rfl, empty⟩ := c.wf.mountScanVictim member scan
        have bound : victim.segno < scanned.nrSegment :=
          c.nrDst ▸ (c.wf.victim victim member).1
        have elsewhere := c.wf.victim_ne_cur (fun offset => c.reservedBit offset (Nat.zero_le _))
          member
        have freed := c.reclaim bound elsewhere empty clean
        refine ih ⟨freed, ?_, ?_, ?_, ?_, ?_⟩ rest
        all_goals rw [gcReclaim_eq victim clean (c.nrSvt ▸ bound)]
        · exact keeps.lsmTree
        · exact keeps.segBuffer
        · exact keeps.dataDev
        · exact keeps.nrSegment
        · exact (dstRemoveVictim_array ..).trans keeps.array
      · exact some.inj loop ▸ keeps

/-- Every record opens the block on the device to the plaintext of its address. -/
def SealedOnDevice (env : Env K I M G) (p : DmSwornDisk K I M G) (plain : Nat → Block) : Prop :=
  ∀ lba record, p.lsmTree lba = some record →
    env.aead.encrypt record.key record.iv record.pba (plain lba) =
      (p.dataDev record.pba, record.mac)

variable {env : Env K I M G} {plain : Nat → Block} {seg : Nat}

theorem MountKeeps.inOrder (keeps : MountKeeps (allocSegment (loaded env p) seg) t)
    (onDevice : SealedOnDevice env p plain) (idle : t.segAllocator.status = .allocating) :
    InOrder env plain { t with segBuffer := { t.segBuffer with curSector := 0 } } := by
  have tree : t.lsmTree = p.lsmTree := keeps.lsmTree
  have device : t.dataDev = p.dataDev := keeps.dataDev
  have blocks : ∀ u : DmSwornDisk K I M G,
      curBlock { u with segBuffer := { u.segBuffer with curSector := 0 } } = 0 :=
    fun _ => Nat.zero_div _
  refine ⟨?_, ⟨?_, ?_⟩, ⟨?_, ?_⟩, idle⟩
  · rw [blocks, tree]
    exact keeps.consistent.congr rfl rfl rfl rfl rfl rfl rfl
  · rw [blocks]
    rfl
  · rw [blocks]
    decide
  · intro lba record mapped
    rw [blocks]
    simp only [bufferedRead, Nat.not_lt_zero, and_false, if_false, device]
    rw [tree] at mapped
    exact onDevice lba record mapped
  · intro lba record mapped segment filled
    rw [blocks] at filled
    exact absurd filled (Nat.not_lt_zero _)

theorem TablesAgree.mount_keeps (a : TablesAgree p p.lsmTree) (mounted : mount env p = some t) :
    ∃ seg u, MountKeeps (C.allocSegment (C.loaded env p) seg) u ∧
      u.segAllocator.status = .allocating ∧
      t = { u with segBuffer := { u.segBuffer with curSector := 0 } } := by
  have agree := a.loaded env
  rw [mount_eq] at mounted
  cases next : (segValidatorNext (C.loaded env p).segValidator).1 with
  | error err =>
    have failed : saAlloc (mountForegroundGc env) (C.loaded env p) =
        some (.error err, { C.loaded env p with
          segValidator := (segValidatorNext (C.loaded env p).segValidator).2 }) := by
      simp only [saAlloc_steps, next]
    rw [failed] at mounted
    exact absurd mounted (by simp)
  | ok seg =>
    obtain ⟨inside, clear⟩ := segValidatorNext_ok next
    have bound : seg < (C.loaded env p).nrSegment := agree.nrSvt ▸ inside
    have taken := agree.allocSegment bound clear
    have alloc := saAlloc_eq (mountForegroundGc env) next (agree.nrDst ▸ bound)
      (agree.free seg bound clear)
    rw [alloc] at mounted
    split at mounted
    · rename_i fits ran
      obtain rfl := some.inj mounted
      split at ran
      · obtain ⟨u, collected, equal⟩ := map_eq_some_iff.mp ran
        obtain ⟨last, loop, ended⟩ := map_eq_some_iff.mp collected
        have cleaning : MountKeeps (C.allocSegment (C.loaded env p) seg)
            (withStatus (C.allocSegment (C.loaded env p) seg) .cleaning) :=
          ⟨taken.congr rfl rfl rfl rfl rfl rfl rfl, rfl, rfl, rfl, rfl, rfl⟩
        have keeps := cleaning.gcLoop env.gcFuel loop
        obtain rfl : withStatus last .allocating = fits := by
          rw [← (Prod.mk.inj equal).2, ← ended]
          rfl
        exact ⟨seg, withStatus last .allocating,
          ⟨keeps.consistent.congr rfl rfl rfl rfl rfl rfl rfl, keeps.lsmTree, keeps.segBuffer,
            keeps.dataDev, keeps.nrSegment, keeps.array⟩, rfl, rfl⟩
      · obtain rfl : C.allocSegment (C.loaded env p) seg = fits :=
          (Prod.mk.inj (some.inj ran)).2
        exact ⟨seg, _, ⟨taken, rfl, rfl, rfl, rfl, rfl⟩, rfl, rfl⟩
    · exact absurd mounted (by simp)

theorem TablesAgree.mount (a : TablesAgree p p.lsmTree) (onDevice : SealedOnDevice env p plain)
    (mounted : mount env p = some t) :
    InOrder env plain t ∧ t.nrSegment = p.nrSegment := by
  obtain ⟨seg, u, keeps, idle, rfl⟩ := a.mount_keeps mounted
  exact ⟨keeps.inOrder onDevice idle, keeps.nrSegment⟩

theorem tablesAgree_format (nrSegment : Nat) (dataDev : Nat → G) :
    TablesAgree (format nrSegment dataDev : DmSwornDisk K I M G)
      (format nrSegment dataDev : DmSwornDisk K I M G).lsmTree := by
  refine ⟨dstInit_nrSegment _ _, rfl, ?_, ?_, ?_, ?_⟩
  · apply dstWellFormed_init
    intro segno _
    exact (countSet_eq_zero_iff.mpr fun _ _ => rfl).symm
  · intro lba record mapped
    exact absurd mapped (by simp [format])
  · intro segno _ _
    simp [format]
  · exact (countSet_eq_zero_iff.mpr fun _ _ => rfl).symm

variable {s : DmSwornDisk K I M G} {found : Nat → Option (Record K I M)}

/-- Every record that the reloaded tree finds is the one put last: it may have lost records,
but brings no older one back. -/
def NoneOlder (s : DmSwornDisk K I M G) (found : Nat → Option (Record K I M)) : Prop :=
  ∀ lba record, found lba = some record → s.lsmTree lba = some record

/-- The persistent state after an unmount, with the tree that a mount will reload. -/
def stored (s : DmSwornDisk K I M G) (found : Nat → Option (Record K I M)) : DmSwornDisk K I M G :=
  { unmount s with lsmTree := found }

theorem InOrder.sealedOnDevice (o : InOrder env plain s) (kept : NoneOlder s found) :
    SealedOnDevice env (stored s found) plain := by
  intro lba record reloaded
  have mapped := kept lba record reloaded
  rw [o.sealed.cipher lba record mapped]
  congr 1
  simp only [bufferedRead, stored, unmount, segbufFlushBios]
  by_cases segment : blockToSegment record.pba = s.segBuffer.curSegment
  · have filled : blockOffsetWithinSegment record.pba < curBlock s := by
      by_contra unfilled
      refine o.consistent.reservedFree (blockOffsetWithinSegment record.pba)
        (Nat.not_lt.mp unfilled) (blockOffset_lt _) lba record mapped ?_
      rw [slotAddr, ← segment, blkaddr_eq]
    simp only [segment, filled, and_self, if_true]
  · simp only [segment, false_and, if_false]

theorem InOrder.tablesAgree_stored (o : InOrder env plain s) (kept : NoneOlder s found) :
    TablesAgree (stored s found) found := by
  have c := o.consistent
  refine ⟨c.nrDst, c.nrSvt, c.wf, fun lba record reloaded => ?_, c.free, c.counted⟩
  have held := c.mapped lba record (kept lba record reloaded)
  exact ⟨held.key, held.bound, held.rit, held.bit, held.valid⟩

theorem InOrder.remount (o : InOrder env plain s) (kept : NoneOlder s found)
    (mounted : mount env (stored s found) = some t) :
    InOrder env plain t ∧ t.nrSegment = s.nrSegment :=
  (o.tablesAgree_stored kept).mount (o.sealedOnDevice kept) mounted

/-! ## Runs over several sessions -/

/-- What happens to a device: pushes, and clean unmounts followed by a mount, whose tree then
answers `found`.  Within a session the tree is a map. -/
inductive Event (K I M : Type) where
  | pushBlock (lba : Nat) (data : Block)
  | pushBio (bio : Bio)
  | remount (found : Nat → Option (Record K I M))

/-- The state after an event; `none` if the code does not come back from it. -/
def Event.step (env : Env K I M G) (s : DmSwornDisk K I M G) :
    Event K I M → Option (DmSwornDisk K I M G)
  | .pushBlock lba data => segbufPushBlock env (saForegroundGc env) s lba data
  | .pushBio bio => segbufPushBio env s bio
  | .remount found => mount env (stored s found)

/-- When an event is regular, as a condition on the state before it and, for a remount, on
the tree that it reloads. -/
def Event.Safe (s : DmSwornDisk K I M G) : Event K I M → Prop
  | .pushBlock lba _ => PushSafe s lba ∧ NoneStale s lba
  | .pushBio bio => modifiesBuffer s bio = false →
      PushSafe s (bioGetBlockAddress bio) ∧ NoneStale s (bioGetBlockAddress bio)
  | .remount found => NoneOlder s found

def runEvents (env : Env K I M G) (s : DmSwornDisk K I M G) (events : List (Event K I M)) :
    Option (DmSwornDisk K I M G) :=
  events.foldlM (Event.step env) s

section

variable (env : Env K I M G) (s : DmSwornDisk K I M G)

@[simp] theorem runEvents_nil : runEvents env s [] = some s :=
  rfl

theorem runEvents_cons (event : Event K I M) (events : List (Event K I M)) :
    runEvents env s (event :: events) =
      (event.step env s).bind fun t => runEvents env t events :=
  foldlM_cons

theorem runEvents_append (first second : List (Event K I M)) :
    runEvents env s (first ++ second) =
      (runEvents env s first).bind fun t => runEvents env t second :=
  foldlM_append

end

def EventsSafe (env : Env K I M G) : DmSwornDisk K I M G → List (Event K I M) → Prop
  | _, [] => True
  | s, event :: events =>
    event.Safe s ∧ ∀ t, event.step env s = some t → EventsSafe env t events

variable {event : Event K I M}

section

variable (o : InOrder env plain s) (enough : s.nrSegment ≤ env.gcFuel)
include o enough

theorem InOrder.step (safe : event.Safe s) (stepped : event.step env s = some t) :
    ∃ plain', InOrder env plain' t ∧ t.nrSegment = s.nrSegment := by
  cases event with
  | pushBlock lba data =>
    obtain ⟨t', pushed, inOrder, frame⟩ := o.push safe.1 safe.2 enough data
    obtain rfl := some.inj (stepped.symm.trans pushed)
    exact ⟨_, inOrder, frame.nrSegment⟩
  | pushBio bio =>
    obtain ⟨t', base, pushed, inOrder, frame, -⟩ := o.pushBio (fun fills => (safe fills).1)
      (fun fills => (safe fills).2) enough
    obtain rfl := some.inj (stepped.symm.trans pushed)
    exact ⟨_, inOrder, frame.nrSegment⟩
  | remount found =>
    obtain ⟨inOrder, nrSegment⟩ := o.remount safe stepped
    exact ⟨plain, inOrder, nrSegment⟩

theorem InOrder.runEvents {events : List (Event K I M)} (safe : EventsSafe env s events)
    (ran : runEvents env s events = some t) : ∃ plain', InOrder env plain' t := by
  induction events generalizing s plain with
  | nil =>
    obtain rfl := some.inj ran
    exact ⟨plain, o⟩
  | cons event events ih =>
    rw [runEvents_cons] at ran
    obtain ⟨next, stepped, rest⟩ := Option.bind_eq_some_iff.mp ran
    obtain ⟨plain', inOrder, nrSegment⟩ := o.step enough safe.1 stepped
    exact ih inOrder (nrSegment ▸ enough) (safe.2 next stepped) rest

/-- A regular push always returns. -/
theorem InOrder.step_isSome (safe : event.Safe s) (push : ∀ found, event ≠ .remount found) :
    ∃ t, event.step env s = some t := by
  cases event with
  | pushBlock lba data =>
    obtain ⟨t, pushed, -⟩ := o.push safe.1 safe.2 enough data
    exact ⟨t, pushed⟩
  | pushBio bio =>
    obtain ⟨t, base, pushed, -⟩ := o.pushBio (fun fills => (safe fills).1)
      (fun fills => (safe fills).2) enough
    exact ⟨t, pushed⟩
  | remount found => exact absurd rfl (push found)

end

/-- In every state that a run of regular events reaches from a formatted device, the
metadata tables agree. -/
theorem recordsAgree_of_eventsSafe {env : Env K I M G} {nrSegment : Nat} {dataDev : Nat → G}
    {s t : DmSwornDisk K I M G} {events : List (Event K I M)} (enough : nrSegment ≤ env.gcFuel)
    (mounted : mount env (format nrSegment dataDev) = some s) (safe : EventsSafe env s events)
    (ran : runEvents env s events = some t) : RecordsAgree t := by
  have empty : SealedOnDevice env (format nrSegment dataDev : DmSwornDisk K I M G)
      fun _ _ _ => 0 := fun lba record mapped => absurd mapped (by simp [format])
  obtain ⟨start, sameNr⟩ := (tablesAgree_format nrSegment dataDev).mount empty mounted
  obtain ⟨plain, inOrder⟩ := start.runEvents (sameNr.trans_le enough) safe ran
  exact inOrder.consistent.recordsAgree

/-! ## The first session of a device -/

def firstMount (env : Env K I M G) (nrSegment : Nat) (dataDev : Nat → G) : DmSwornDisk K I M G :=
  allocSegment (loaded env (format nrSegment dataDev)) 0

theorem TablesAgree.mount_quiet (a : TablesAgree p p.lsmTree) (env : Env K I M G)
    (next : (segValidatorNext (segValidatorInit p.segValidator)).1 = .ok seg)
    (quiet : segValidatorValidSegmentCount (segValidatorInit p.segValidator) + 1 ≤
      gcThreshold p.nrSegment) :
    C.mount env p = some (C.allocSegment (C.loaded env p) seg) := by
  have agree := a.loaded env
  obtain ⟨inside, clear⟩ := segValidatorNext_ok next
  have bound : seg < (C.loaded env p).nrSegment := agree.nrSvt ▸ inside
  have alloc := saAlloc_eq (mountForegroundGc env) next (agree.nrDst ▸ bound)
    (agree.free seg bound clear)
  have idle : saWillTriggerGc (C.allocSegment (C.loaded env p) seg) = false :=
    decide_eq_false (Nat.not_lt.mpr quiet)
  rw [mount_eq, alloc, idle]
  rfl

theorem Sparse.remount {budget : Nat} (sparse : Sparse env (budget + blocksPerSegment) s)
    (kept : NoneOlder s found) :
    ∃ t, mount env (stored s found) = some t ∧ Sparse env budget t := by
  obtain ⟨plain, o⟩ := sparse.inOrder
  have agree := o.tablesAgree_stored kept
  have few := sparse.few
  obtain ⟨threaded, gc⟩ := threadedThreshold_of_lt sparse.large sparse.word
  have count : segValidatorValidSegmentCount (segValidatorInit (stored s found).segValidator) =
      s.segAllocator.nrValidSegment := by
    refine Eq.trans ?_ o.consistent.counted.symm
    exact congrArg (countSet _) o.consistent.nrSvt
  obtain ⟨seg, bound, clear⟩ := sparse.free
  obtain ⟨next, taken⟩ := segValidatorNext_isOk_of_clear
    (v := segValidatorInit (stored s found).segValidator) (o.consistent.nrSvt ▸ bound) clear
  have mounted := agree.mount_quiet env taken (by
    change _ ≤ gcThreshold s.nrSegment
    rw [count, gc]
    omega)
  obtain ⟨inOrder, nrSegment⟩ := o.remount kept mounted
  refine ⟨_, mounted, ⟨plain, inOrder⟩, ?_, nrSegment.symm ▸ sparse.large,
    nrSegment.symm ▸ sparse.word, nrSegment.symm ▸ sparse.enough⟩
  have ledgers : ledger (allocSegment (loaded env (stored s found)) next) ≤
      ledger s + blocksPerSegment := by
    have empty : curBlock (allocSegment (loaded env (stored s found)) next) = 0 := Nat.zero_div _
    have more : (allocSegment (loaded env (stored s found)) next).segAllocator.nrValidSegment =
        s.segAllocator.nrValidSegment + 1 := congrArg (· + 1) count
    rw [ledger, ledger, empty, more, Nat.mul_add]
    omega
  rw [nrSegment]
  have room := sparse.room
  omega

variable {nrSegment : Nat}

theorem mount_format (env : Env K I M G) (dataDev : Nat → G) (positive : 0 < nrSegment)
    (quiet : 1 ≤ gcThreshold nrSegment) :
    mount env (format nrSegment dataDev) = some (firstMount env nrSegment dataDev) := by
  apply (tablesAgree_format nrSegment dataDev).mount_quiet env
  · have found : firstClear (fun _ => false) 0 (nrSegment - 0) = some 0 := by
      rw [firstClear, find?_range'_eq_some]
      exact ⟨rfl, mem_range'_1.mpr ⟨le_rfl, by omega⟩, fun earlier _ less => by omega⟩
    simp only [segValidatorNext_eq_scan, segValidatorInit, format, segValidatorFormat, found]
  · have count : segValidatorValidSegmentCount
        (segValidatorInit (segValidatorFormat nrSegment)) = 0 :=
      countSet_eq_zero_iff.mpr fun _ _ => rfl
    simp only [format, count]
    exact quiet

theorem mount_plainEnv : mount plainEnv (format 64 fun _ => zeroBlock) =
    some (firstMount plainEnv 64 fun _ => zeroBlock) :=
  mount_format plainEnv _ (by decide) (by decide)

section

variable (env : Env K I M G)

theorem inOrder_firstMount (dataDev : Nat → G) (positive : 0 < nrSegment)
    (quiet : 1 ≤ gcThreshold nrSegment) (plain : Nat → Block) :
    InOrder env plain (firstMount env nrSegment dataDev) := by
  have empty : SealedOnDevice env (format nrSegment dataDev : DmSwornDisk K I M G) plain :=
    fun lba record mapped => absurd mapped (by simp [format])
  exact ((tablesAgree_format nrSegment dataDev).mount empty
    (mount_format env dataDev positive quiet)).1

theorem firstMount_segAllocator (nrSegment : Nat) (dataDev : Nat → G) :
    (firstMount env nrSegment dataDev).segAllocator = ⟨1, .allocating⟩ := by
  have count : segValidatorValidSegmentCount
      (segValidatorInit (segValidatorFormat nrSegment)) = 0 :=
    countSet_eq_zero_iff.mpr fun _ _ => rfl
  simp only [firstMount, allocSegment, loaded, format, count]

theorem firstMount_few (dataDev : Nat → G) (more : 1 < threadedThreshold nrSegment) :
    (firstMount env nrSegment dataDev).segAllocator.nrValidSegment <
      threadedThreshold nrSegment := by
  rw [firstMount_segAllocator]
  exact more

theorem curBlock_firstMount (nrSegment : Nat) (dataDev : Nat → G) :
    curBlock (firstMount env nrSegment dataDev) = 0 :=
  Nat.zero_div _

theorem sparse_firstMount {budget : Nat} (dataDev : Nat → G) (large : 16 < nrSegment)
    (word : nrSegment < 2 ^ 64) (enough : nrSegment ≤ env.gcFuel)
    (room : blocksPerSegment + budget < blocksPerSegment * threadedThreshold nrSegment) :
    Sparse env budget (firstMount env nrSegment dataDev) := by
  have gc := (threadedThreshold_of_lt large word).2
  refine ⟨⟨fun _ => zeroBlock, inOrder_firstMount env dataDev ?_ ?_ _⟩, ?_, large, word, enough⟩
  · omega
  · omega
  · rw [ledger, curBlock_firstMount, firstMount_segAllocator, Nat.zero_add, Nat.mul_one]
    exact room

theorem firstMount_room (nrSegment : Nat) (dataDev : Nat → G) :
    curBlock (firstMount env nrSegment dataDev) + 1 < blocksPerSegment := by
  rw [curBlock_firstMount]
  decide

end

theorem Sparse.pushes {budget : Nat} (events : List (Event K I M))
    (sparse : Sparse env (budget + events.length) s)
    (pushes : ∀ event ∈ events, ∃ lba < 2 ^ 32, ∃ data, event = .pushBlock lba data) :
    EventsSafe env s events ∧ ∃ t, runEvents env s events = some t ∧ Sparse env budget t := by
  induction events generalizing s with
  | nil => exact ⟨trivial, s, rfl, sparse⟩
  | cons event events ih =>
    obtain ⟨lba, key, data, rfl⟩ := pushes event mem_cons_self
    rw [length_cons, ← Nat.add_assoc] at sparse
    obtain ⟨next, returns, left⟩ := sparse.push key data
    have stepped : (Event.pushBlock lba data).step env s = some next :=
      returns (saForegroundGc env)
    obtain ⟨safe, t, ran, rest⟩ := ih left fun event member =>
      pushes event (mem_cons_of_mem _ member)
    refine ⟨⟨sparse.pushSafe key, fun t reached => ?_⟩, t, ?_, rest⟩
    · obtain rfl := some.inj (stepped.symm.trans reached)
      exact safe
    · rw [runEvents_cons, stepped, bind_some, ran]

theorem eventsSafe_append {first second : List (Event K I M)} (safe : EventsSafe env s first)
    (rest : ∀ t, runEvents env s first = some t → EventsSafe env t second) :
    EventsSafe env s (first ++ second) := by
  induction first generalizing s with
  | nil => exact rest s rfl
  | cons event events ih =>
    refine ⟨safe.1, fun next stepped => ih (safe.2 next stepped) fun t ran => rest t ?_⟩
    rw [runEvents_cons, stepped, bind_some, ran]

/-! ## A device filled in order

Pushes of the addresses 0, 1, 2, … fill the first segment in order.  The state after them is
known exactly. -/

def firstRecord (env : Env K I M G) (data : Nat → Block) (lba : Nat) : Record K I M where
  pba := lba
  mac := (env.aead.encrypt (env.random lba).1 (env.random lba).2 lba (data lba)).2
  key := (env.random lba).1
  iv := (env.random lba).2

/-- The tree after the addresses below `n` were written in order. -/
def firstTree (env : Env K I M G) (data : Nat → Block) (n : Nat) : Nat → Option (Record K I M) :=
  fun lba => if lba < n then some (firstRecord env data lba) else none

/-- The state after the addresses below `n` were written to a device mounted as `s`. -/
structure FirstBlocks (env : Env K I M G) (data : Nat → Block) (s : DmSwornDisk K I M G) (n : Nat)
    (t : DmSwornDisk K I M G) : Prop where
  inOrder : ∃ plain, InOrder env plain t
  nrSegment : t.nrSegment = s.nrSegment
  filled : curBlock t = n
  curSegment : t.segBuffer.curSegment = 0
  segAllocator : t.segAllocator = s.segAllocator
  segValidator : t.segValidator = s.segValidator
  dst : t.dst = s.dst
  nrRecord : t.nrRecord = n
  lsmTree : t.lsmTree = firstTree env data n
  buffered : ∀ slot < n, t.segBuffer.buffer slot = data slot

theorem firstBlocks_firstMount (env : Env K I M G) (data : Nat → Block) (dataDev : Nat → G)
    (positive : 0 < nrSegment) (quiet : 1 ≤ gcThreshold nrSegment) :
    FirstBlocks env data (firstMount env nrSegment dataDev) 0
      (firstMount env nrSegment dataDev) := by
  refine ⟨⟨fun _ _ _ => 0, inOrder_firstMount env dataDev positive quiet _⟩, rfl,
    curBlock_firstMount .., rfl, rfl, rfl, rfl, rfl, ?_,
    fun _ below => absurd below (Nat.not_lt_zero _)⟩
  funext lba
  simp [firstTree, firstMount, allocSegment, loaded, format]

namespace FirstBlocks

variable (f : FirstBlocks env data s n t)
include f

theorem threaded_eq : sworndiskShouldThreadedLogging t = sworndiskShouldThreadedLogging s := by
  simp only [sworndiskShouldThreadedLogging, f.segAllocator, f.nrSegment, f.dst]

theorem returnOld_eq (key : n < 2 ^ 32) : returnOld t n = t := by
  have unmapped : lsmSearch t n = none := by
    rw [lsmSearch, lsmKey_of_lt key, f.lsmTree]
    simp [firstTree]
  simp only [returnOld, unmapped]

theorem tree_succ (key : n < 2 ^ 32) :
    (loggedBlock env t n (data n)).lsmTree = firstTree env data (n + 1) := by
  have record : newRecord env t (slotAddr t (curBlock t)) (data n) = firstRecord env data n := by
    simp only [newRecord, firstRecord, slotAddr, f.curSegment, f.filled, f.nrRecord, Nat.zero_mul,
      Nat.zero_add]
  rw [loggedBlock_lsmTree env _ key, record, f.lsmTree]
  funext lba
  by_cases same : lba = n
  · subst same
    simp [firstTree]
  · have bounds : lba < n + 1 ↔ lba < n := by omega
    simp only [update_of_ne same, firstTree, bounds]

theorem nrRecord_succ (key : n < 2 ^ 32) : (loggedBlock env t n (data n)).nrRecord = n + 1 := by
  rw [loggedBlock, f.returnOld_eq key]
  exact congrArg (· + 1) f.nrRecord

theorem buffered_succ :
    ∀ slot < n + 1, (loggedBlock env t n (data n)).segBuffer.buffer slot = data slot := by
  intro slot below
  rw [loggedBlock_buffer, f.filled]
  by_cases last : slot = n
  · rw [last, update_self]
  · rw [update_of_ne last]
    exact f.buffered slot (by omega)

theorem push (logged : sworndiskShouldThreadedLogging s = false) (room : n + 1 < blocksPerSegment) :
    ∃ t', (∀ gc, segbufPushBlock env gc t n (data n) = some t') ∧
      FirstBlocks env data s (n + 1) t' := by
  have key : n < 2 ^ 32 := by
    unfold blocksPerSegment at room
    omega
  obtain ⟨plain, o⟩ := f.inOrder
  have pushes := fun gc => o.push_room gc key (f.threaded_eq.trans logged)
    (by rw [f.filled]; exact room) (data n)
  refine ⟨_, fun gc => (pushes gc).1, ⟨_, (pushes some).2⟩, ?_, ?_, ?_, ?_, ?_, ?_,
    f.nrRecord_succ key, f.tree_succ key, f.buffered_succ⟩
  · exact (loggedBlock_nrSegment env t n (data n)).trans f.nrSegment
  · rw [curBlock_bumpBuffer, curBlock_loggedBlock, f.filled]
  · exact (loggedBlock_curSegment env t n (data n)).trans f.curSegment
  · exact (loggedBlock_segAllocator env t n (data n)).trans f.segAllocator
  · exact (loggedBlock_segValidator env t n (data n)).trans f.segValidator
  · refine (loggedBlock_dst env t n (data n)).trans ?_
    rw [f.returnOld_eq key]
    exact f.dst

end FirstBlocks

/-! ## A device without a free segment -/

/-- The state after the first segment was filled while no other is free: the buffer is back
at the start of the segment. -/
structure WrappedAround (env : Env K I M G) (data : Nat → Block) (t : DmSwornDisk K I M G) :
    Prop where
  sector : t.segBuffer.curSector = 0
  curSegment : t.segBuffer.curSegment = 0
  nrRecord : t.nrRecord = blocksPerSegment
  lsmTree : t.lsmTree = firstTree env data blocksPerSegment
  logged : sworndiskShouldThreadedLogging t = false

theorem advanceBuffer_full (gc : DmSwornDisk K I M G → Option (DmSwornDisk K I M G))
    (overflows : sectorsPerSegment ≤ s.segBuffer.curSector + sectorsPerBlock)
    (full : ∀ seg < s.segValidator.nrSegment, s.segValidator.segValidityTable seg = true) :
    advanceBuffer gc s = some { rewindBuffer s with
      segValidator := { s.segValidator with curSegment := s.segValidator.nrSegment } } := by
  have none : saAlloc gc (rewindBuffer s) = _ := saAlloc_full gc full
  rw [advanceBuffer_flush gc overflows, none]
  rfl

theorem FirstBlocks.pushLast (f : FirstBlocks env data s n t)
    (few : s.segAllocator.nrValidSegment < threadedThreshold s.nrSegment)
    (full : ∀ seg < s.segValidator.nrSegment, s.segValidator.segValidityTable seg = true)
    (last : n + 1 = blocksPerSegment) :
    ∃ t', (∀ gc, segbufPushBlock env gc t n (data n) = some t') ∧ WrappedAround env data t' := by
  have key : n < 2 ^ 32 := by
    unfold blocksPerSegment at last
    omega
  obtain ⟨plain, o⟩ := f.inOrder
  have tree := f.tree_succ key
  have record := f.nrRecord_succ key
  have sector := loggedBlock_curSector env t n (data n)
  have segment := loggedBlock_curSegment env t n (data n)
  have validator := loggedBlock_segValidator env t n (data n)
  have allocator := loggedBlock_segAllocator env t n (data n)
  have nrSegment := loggedBlock_nrSegment env t n (data n)
  have pushes := fun gc =>
    segbufPushBlock_logged env gc (f.threaded_eq.trans (if_pos few)) n (data n)
  rw [last] at tree record
  generalize loggedBlock env t n (data n) = u at *
  have overflows : sectorsPerSegment ≤ u.segBuffer.curSector + sectorsPerBlock := by
    rw [sector, o.aligned.aligned, f.filled]
    unfold blocksPerSegment at last
    unfold sectorsPerSegment sectorsPerBlock
    omega
  have taken : ∀ seg < u.segValidator.nrSegment, u.segValidator.segValidityTable seg = true := by
    rw [validator]
    exact f.segValidator ▸ full
  refine ⟨_, fun gc => (pushes gc).trans (advanceBuffer_full gc overflows taken),
    ⟨rfl, segment.trans f.curSegment, record, tree, if_pos ?_⟩⟩
  change u.segAllocator.nrValidSegment < threadedThreshold u.nrSegment
  rw [allocator, nrSegment, f.segAllocator, f.nrSegment]
  exact few

theorem WrappedAround.push (w : WrappedAround env data t) {lba : Nat} (key : lba < 2 ^ 32)
    (block : Block) :
    ∃ t', (∀ gc, segbufPushBlock env gc t lba block = some t') ∧
      t'.segBuffer.curSegment = 0 ∧ t'.segBuffer.curSector = sectorsPerBlock ∧
      t'.lsmTree = update (firstTree env data blocksPerSegment) lba
        (some (newRecord env t 0 block)) := by
  have slot : slotAddr t (curBlock t) = 0 := by
    simp only [slotAddr, curBlock, w.curSegment, w.sector, Nat.zero_mul, Nat.zero_div]
  have under : ¬ sectorsPerSegment ≤
      (loggedBlock env t lba block).segBuffer.curSector + sectorsPerBlock := by
    rw [loggedBlock_curSector, w.sector]
    decide
  refine ⟨_, fun gc => (segbufPushBlock_logged env gc w.logged lba block).trans
    (advanceBuffer_room gc under), ?_, ?_, ?_⟩
  · exact (loggedBlock_curSegment env t lba block).trans w.curSegment
  · change (loggedBlock env t lba block).segBuffer.curSector + sectorsPerBlock = _
    rw [loggedBlock_curSector, w.sector, Nat.zero_add]
  · refine (loggedBlock_lsmTree env t key block).trans ?_
    rw [slot, w.lsmTree]

/-- The pushes of the addresses below `n` in order. -/
def pushesBelow (n : Nat) : List (Event K I M) :=
  (List.range n).map fun lba => .pushBlock lba zeroBlock

theorem FirstBlocks.runPushes (start : FirstBlocks env (fun _ => zeroBlock) s 0 s)
    (logged : sworndiskShouldThreadedLogging s = false) (bound : n < blocksPerSegment) :
    ∃ t, runEvents env s (pushesBelow n) = some t ∧
      FirstBlocks env (fun _ => zeroBlock) s n t := by
  induction n with
  | zero => exact ⟨s, rfl, start⟩
  | succ n ih =>
    obtain ⟨t, ran, f⟩ := ih (by omega)
    obtain ⟨t', pushed, next⟩ := f.push logged bound
    refine ⟨t', ?_, next⟩
    rw [pushesBelow, range_succ, map_append, runEvents_append, ← pushesBelow, ran,
      bind_some, map_singleton, runEvents_cons, Event.step, pushed, bind_some,
      runEvents_nil]

theorem Sparse.pushesBelow {budget : Nat} (sparse : Sparse env (budget + n) s)
    (bound : n ≤ 2 ^ 32) :
    EventsSafe env s (pushesBelow n) ∧
      ∃ t, runEvents env s (C.pushesBelow n) = some t ∧ Sparse env budget t := by
  apply Sparse.pushes
  · rwa [C.pushesBelow, length_map, length_range]
  · intro event member
    obtain ⟨lba, inside, rfl⟩ := mem_map.mp member
    exact ⟨lba, (mem_range.mp inside).trans_le bound, zeroBlock, rfl⟩

/-- The first `n` addresses are pushed, the device is mounted again with its whole tree, and
one of the addresses is pushed once more. -/
def pushAgain (tree : Nat → Option (Record K I M)) (n lba : Nat) : List (Event K I M) :=
  pushesBelow n ++ [.remount tree, .pushBlock lba zeroBlock]

theorem Sparse.pushAgain (sparse : Sparse env (1 + blocksPerSegment + n) s) (bound : n ≤ 2 ^ 32)
    {lba : Nat} (key : lba < 2 ^ 32) :
    ∃ t u events, runEvents env s (C.pushesBelow n) = some t ∧
      events = C.pushAgain t.lsmTree n lba ∧ runEvents env s events = some u ∧
      EventsSafe env s events := by
  obtain ⟨first, t, filled, left⟩ := sparse.pushesBelow bound
  have kept : NoneOlder t t.lsmTree := fun _ _ => id
  obtain ⟨next, mounted, room⟩ := left.remount kept
  obtain ⟨u, returns, -⟩ := (room.mono (Nat.le_refl 1)).push key zeroBlock
  have remounted : (Event.remount t.lsmTree).step env t = some next := mounted
  have pushed : (Event.pushBlock lba zeroBlock).step env next = some u :=
    returns (saForegroundGc env)
  refine ⟨t, u, _, filled, rfl, ?_, eventsSafe_append first ?_⟩
  · rw [C.pushAgain, runEvents_append, filled, bind_some, runEvents_cons, remounted, bind_some,
      runEvents_cons, pushed, bind_some, runEvents_nil]
  · intro reached ran
    obtain rfl := some.inj (filled.symm.trans ran)
    refine ⟨kept, fun state stepped => ?_⟩
    obtain rfl := some.inj (remounted.symm.trans stepped)
    exact ⟨room.pushSafe key, fun _ _ => trivial⟩

/-- On a device of 64 segments that was mounted again after its first segment had been
written out, one of the addresses is pushed again. -/
theorem recordsAgree_remounted :
    ∃ s t u, mount plainEnv (format 64 fun _ => zeroBlock) = some s ∧
      runEvents plainEnv s (pushesBelow blocksPerSegment) = some t ∧
      runEvents plainEnv s (pushAgain t.lsmTree blocksPerSegment 5) = some u ∧
      RecordsAgree u := by
  obtain ⟨s, mounted, sparse⟩ : ∃ s, mount plainEnv (format 64 fun _ => zeroBlock) = some s ∧
      Sparse plainEnv (1 + blocksPerSegment + blocksPerSegment) s :=
    ⟨_, mount_plainEnv, sparse_firstMount plainEnv _ (by decide) (by decide) (by decide)
      (by decide)⟩
  have bound : blocksPerSegment ≤ 2 ^ 32 := by
    unfold blocksPerSegment
    omega
  have key : 5 < 2 ^ 32 := by decide
  have enough : 64 ≤ plainEnv.gcFuel := by decide
  obtain ⟨t, u, events, filled, again, ran, safe⟩ := sparse.pushAgain bound key
  exact ⟨s, t, u, mounted, filled, again ▸ ran,
    recordsAgree_of_eventsSafe enough mounted safe ran⟩

theorem firstMount_full (env : Env K I M G) (dataDev : Nat → G) :
    ∀ seg < (firstMount env 1 dataDev).segValidator.nrSegment,
      (firstMount env 1 dataDev).segValidator.segValidityTable seg = true := by
  intro seg inside
  obtain rfl : seg = 0 := Nat.lt_one_iff.mp inside
  exact update_self 0 true fun _ => false

/-- On a device of one segment, the push after the segment is full goes to the block
of another address. -/
theorem not_recordsAgree_full_device :
    ∃ s t, mount plainEnv (format 1 fun _ => zeroBlock) = some s ∧
      runEvents plainEnv s
        (pushesBelow 1023 ++ [.pushBlock 1023 zeroBlock, .pushBlock 5 zeroBlock]) = some t ∧
      ¬ RecordsAgree t := by
  have positive : 0 < 1 := by decide
  have quiet : 1 ≤ gcThreshold 1 := by decide
  have mounted := mount_format plainEnv (fun _ => zeroBlock) positive quiet
  have start := firstBlocks_firstMount plainEnv (fun _ => zeroBlock) (fun _ => zeroBlock) positive
    quiet
  have few := firstMount_few plainEnv (fun _ => zeroBlock) (by decide : 1 < threadedThreshold 1)
  obtain ⟨filled, ran, f⟩ := start.runPushes (if_pos few) (by decide : 1023 < blocksPerSegment)
  obtain ⟨full, last, wrapped⟩ := f.pushLast few (firstMount_full _ _) rfl
  have key : 5 < 2 ^ 32 := by decide
  obtain ⟨t, pushed, -, -, tree⟩ := wrapped.push key zeroBlock
  refine ⟨_, t, mounted, ?_, ?_⟩
  · rw [runEvents_append, ran, bind_some, runEvents_cons, Event.step, last,
      bind_some, runEvents_cons, Event.step, pushed, bind_some, runEvents_nil]
  · intro agree
    have firstFound : lsmSearch t 0 = some (firstRecord plainEnv (fun _ => zeroBlock) 0) := by
      change t.lsmTree 0 = _
      rw [tree, update_of_ne (by decide)]
      exact if_pos (by decide)
    have newFound : lsmSearch t 5 = some (newRecord plainEnv full 0 zeroBlock) := by
      change t.lsmTree 5 = _
      rw [tree, update_self]
    have zero := (agree 5 key _ newFound).2.2.2 0 (Nat.two_pow_pos 32) _ firstFound rfl
    exact absurd zero (by decide)

end SwornDisk.C
