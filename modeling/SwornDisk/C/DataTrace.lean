import SwornDisk.C.Requests
import SwornDisk.Lib.Monitor

/-!
# Trace of the data path

What the data path does to the pipe and to the data device, in order, with everything
inside a foreground collection: blocks put into slots of the segment buffer, blocks
written by threaded logging, and flushes.  Replaying the trace gives the pipe and the
device that the functions leave.
-/

namespace SwornDisk.C

open List Function Option

variable {K I M G : Type}

/-- A block that was sealed: whose it is, under what key and vector, and for what place. -/
structure SealedBlock (K I : Type) where
  lba : Nat
  key : K
  iv : I
  pba : Nat
  data : Block

/-- What the data path does to the pipe and to the device, with the tree at that time. -/
inductive Effect (K I M : Type) where
  | fill (segment slot : Nat) (block : SealedBlock K I) (tree : Nat → Option (Record K I M))
  | write (block : SealedBlock K I) (tree : Nat → Option (Record K I M))
  | flush (segment : Nat) (tree : Nat → Option (Record K I M))

section

variable (env : Env K I M G)

/-- The block that a push seals for the place `pba`. -/
def pushBlock (s : DmSwornDisk K I M G) (lba pba : Nat) (data : Block) : SealedBlock K I :=
  ⟨lsmKey lba, (env.random s.nrRecord).1, (env.random s.nrRecord).2, pba, data⟩

/-- The effects of a push that has sealed `block` in the state `t`. -/
def sealedEffects (s t : DmSwornDisk K I M G) (block : SealedBlock K I) (threadedLogging : Bool) :
    List (Effect K I M) :=
  .fill s.segBuffer.curSegment (curBlock s) block s.lsmTree ::
    if threadedLogging then [.write block t.lsmTree]
    else if sectorsPerSegment ≤ s.segBuffer.curSector + sectorsPerBlock then
      [.flush s.segBuffer.curSegment t.lsmTree]
    else []

/-- The effects of a push itself, without those of a collection that it starts. -/
def pushEffects (s : DmSwornDisk K I M G) (lba : Nat) (data : Block) : List (Effect K I M) :=
  let threadedLogging := sworndiskShouldThreadedLogging s
  let next := nextBlock (returnOld s lba) threadedLogging
  sealedEffects s (sealBlock env next.2 lba next.1 data) (pushBlock env s lba next.1 data)
    threadedLogging

/-- The state in which a push starts a collection, if it does: the one that it hands to
`foreground_gc`. -/
def collectionStart (s : DmSwornDisk K I M G) (lba : Nat) (data : Block) :
    Option (DmSwornDisk K I M G) :=
  if (segbufPushBlock env (fun _ => none) s lba data).isNone then
    segbufPushBlock env some s lba data
  else none

def gcBlockEffects (victim : Victim) (scan : GcScan K I M G) (offset : Nat) : List (Effect K I M) :=
  match gcOpened env victim scan offset with
  | none => []
  | some (lba, plaintext) => pushEffects env scan.state lba plaintext

end

def scanEffects (env : Env K I M G) (victim : Victim) :
    GcScan K I M G → List Nat → List (Effect K I M)
  | _, [] => []
  | scan, offset :: rest =>
    gcBlockEffects env victim scan offset ++
      match gcBlock env victim scan offset with
      | none => []
      | some scan => scanEffects env victim scan rest

/-- The effects of `gcScanVictim`. -/
def scanVictimEffects (env : Env K I M G) (victim : Victim) (s : DmSwornDisk K I M G) :
    List (Effect K I M) :=
  if victim.nrValidBlock ≠ 0 then
    scanEffects env victim ⟨s, env.allocated, 0, 0⟩ (validOffsets victim)
  else []

def gcLoopEffects (env : Env K I M G) : Nat → Nat → DmSwornDisk K I M G → List (Effect K I M)
  | 0, _, _ => []
  | fuel + 1, clean, s =>
    match dstPeekVictim s.dst with
    | none => []
    | some victim =>
      if clean < gcTarget then
        scanVictimEffects env victim s ++
          match gcScanVictim env victim s with
          | none => []
          | some s =>
            gcLoopEffects env fuel (gcReclaim victim clean s).1 (gcReclaim victim clean s).2
      else []

/-- The effects of `segbuf_push_block`. -/
def segbufPushBlockEffects (env : Env K I M G) (s : DmSwornDisk K I M G) (lba : Nat)
    (data : Block) : List (Effect K I M) :=
  pushEffects env s lba data ++
    match collectionStart env s lba data with
    | none => []
    | some t => gcLoopEffects env env.gcFuel 0 (withStatus t .cleaning)

def modifyEffect (s : DmSwornDisk K I M G) (lba : Nat) (record : Record K I M) (bio : Bio) :
    Effect K I M :=
  let slot := record.pba - s.segBuffer.curSegment * blocksPerSegment
  let data := bioGetData bio.pages (bioBlockSectorOffset bio) (s.segBuffer.buffer slot)
  .fill s.segBuffer.curSegment slot ⟨lsmKey lba, record.key, record.iv, record.pba, data⟩ s.lsmTree

/-- The effects of `sworndisk_do_write`. -/
def bioEffects (env : Env K I M G) (s : DmSwornDisk K I M G) (bio : Bio) : List (Effect K I M) :=
  let data := bioGetData bio.pages (bioBlockSectorOffset bio) (bioBase env s bio)
  match lsmSearch s (bioGetBlockAddress bio) with
  | some record =>
    if modifiesBuffer s bio then [modifyEffect s (bioGetBlockAddress bio) record bio]
    else segbufPushBlockEffects env (fillSlot s data) (bioGetBlockAddress bio) data
  | none => segbufPushBlockEffects env (fillSlot s data) (bioGetBlockAddress bio) data

def runWrites (env : Env K I M G) (s : DmSwornDisk K I M G) (bios : List Bio) :
    Option (DmSwornDisk K I M G) :=
  bios.foldlM (sworndiskDoWrite env) s

/-- The effects of a run of writes and of the flush in `segbuf_destroy` after it. -/
def sessionEffects (env : Env K I M G) : DmSwornDisk K I M G → List Bio → List (Effect K I M)
  | s, [] => [.flush s.segBuffer.curSegment s.lsmTree]
  | s, bio :: bios =>
    bioEffects env s bio ++
      match sworndiskDoWrite env s bio with
      | none => []
      | some t => sessionEffects env t bios

def writesEffects (env : Env K I M G) : DmSwornDisk K I M G → List Bio → List (Effect K I M)
  | _, [] => []
  | s, bio :: bios =>
    bioEffects env s bio ++
      match sworndiskDoWrite env s bio with
      | none => []
      | some t => writesEffects env t bios

/-- What a trace acts on: the data device and the encrypted half of the segment buffer. -/
structure Media (G : Type) where
  dataDev : Nat → G
  pipe : Nat → G

def DmSwornDisk.media (s : DmSwornDisk K I M G) : Media G := ⟨s.dataDev, s.segBuffer.pipe⟩

def SealedBlock.cipher (env : Env K I M G) (block : SealedBlock K I) : G :=
  (env.aead.encrypt block.key block.iv block.pba block.data).1

def Effect.replay (env : Env K I M G) (media : Media G) : Effect K I M → Media G
  | .fill _ slot block _ =>
    { media with pipe := Function.update media.pipe slot (block.cipher env) }
  | .write block _ =>
    { media with dataDev := Function.update media.dataDev block.pba (block.cipher env) }
  | .flush segment _ =>
    { media with dataDev := fun blkaddr =>
        if blockToSegment blkaddr = segment then media.pipe (blockOffsetWithinSegment blkaddr)
        else media.dataDev blkaddr }

def replay (env : Env K I M G) (media : Media G) (effects : List (Effect K I M)) : Media G :=
  effects.foldl (Effect.replay env) media

section

variable (env : Env K I M G) (media : Media G)

theorem replay_nil : replay env media ([] : List (Effect K I M)) = media :=
  rfl

theorem replay_cons (effect : Effect K I M) (effects : List (Effect K I M)) :
    replay env media (effect :: effects) = replay env (effect.replay env media) effects :=
  rfl

theorem replay_append (first second : List (Effect K I M)) :
    replay env media (first ++ second) = replay env (replay env media first) second :=
  foldl_append

end

theorem saAlloc_outcome (s : DmSwornDisk K I M G) :
    ∃ t, t.media = s.media ∧ t.lsmTree = s.lsmTree ∧
      ((∀ gc, (saAlloc gc s).map Prod.snd = some t) ∨
        ∀ gc, (saAlloc gc s).map Prod.snd = gc t) := by
  cases next : (segValidatorNext s.segValidator).1 with
  | error err =>
    refine ⟨{ s with segValidator := (segValidatorNext s.segValidator).2 }, rfl, rfl,
      .inl fun gc => ?_⟩
    simp only [saAlloc_steps, next]
    rfl
  | ok seg =>
    cases take : segValidatorTake (segValidatorNext s.segValidator).2 seg with
    | error err =>
      refine ⟨{ s with
        segValidator := (segValidatorNext s.segValidator).2
        segBuffer := { s.segBuffer with curSegment := seg } }, rfl, rfl, .inl fun gc => ?_⟩
      simp only [saAlloc_steps, next, take]
      rfl
    | ok taken =>
      cases marked : dstTakeSegment s.dst seg with
      | error err =>
        refine ⟨{ s with
          segValidator := taken
          segBuffer := { s.segBuffer with curSegment := seg }
          segAllocator := ⟨s.segAllocator.nrValidSegment + 1, s.segAllocator.status⟩ }, rfl,
          rfl, .inl fun gc => ?_⟩
        simp only [saAlloc_steps, next, take, marked]
        rfl
      | ok dst =>
        refine ⟨{ s with
          segValidator := taken
          segBuffer := { s.segBuffer with curSegment := seg }
          segAllocator := ⟨s.segAllocator.nrValidSegment + 1, s.segAllocator.status⟩
          dst := dst }, rfl, rfl, ?_⟩
        simp only [saAlloc_steps, next, take, marked]
        split
        · refine .inr fun gc => ?_
          rw [Option.map_map]
          exact map_id_apply
        · exact .inl fun gc => rfl

theorem nextBlock_returnOld (s : DmSwornDisk K I M G) (lba : Nat) (threadedLogging : Bool) :
    ∃ dst, (nextBlock (returnOld s lba) threadedLogging).2 = { s with dst := dst } := by
  have returned : ∃ dst, returnOld s lba = { s with dst := dst } := by
    unfold returnOld
    cases lsmSearch s lba with
    | none => exact ⟨s.dst, rfl⟩
    | some pre => exact ⟨_, rfl⟩
  obtain ⟨dst, returned⟩ := returned
  rw [returned]
  cases threadedLogging with
  | false => exact ⟨dst, rfl⟩
  | true =>
    simp only [nextBlock, if_true]
    cases dstPeekVictim dst with
    | none => exact ⟨dst, rfl⟩
    | some victim => exact ⟨_, rfl⟩

section

variable (env : Env K I M G) (s : DmSwornDisk K I M G)

theorem sealBlock_media (lba : Nat) (dst : Dst) (pba : Nat) (data : Block) :
    (sealBlock env { s with dst := dst } lba pba data).media =
      ⟨s.dataDev, update s.segBuffer.pipe (curBlock s)
        ((pushBlock env s lba pba data).cipher env)⟩ :=
  rfl

theorem rewindBuffer_media (tree : Nat → Option (Record K I M)) :
    (rewindBuffer s).media = Effect.replay env s.media (.flush s.segBuffer.curSegment tree) :=
  rfl

end

variable {s t : DmSwornDisk K I M G}

/-- The end of a push that has sealed a block: it has the effects of its trace, and either
returns or hands its state to the collection. -/
theorem sealed_outcome (env : Env K I M G) {block : SealedBlock K I}
    (filled : t.media = ⟨s.dataDev, update s.segBuffer.pipe (curBlock s) (block.cipher env)⟩)
    (sector : t.segBuffer.curSector = s.segBuffer.curSector)
    (segment : t.segBuffer.curSegment = s.segBuffer.curSegment) (threadedLogging : Bool) :
    ∃ u, u.media = replay env s.media (sealedEffects s t block threadedLogging) ∧
      u.lsmTree = t.lsmTree ∧
      ((∀ gc, (if threadedLogging then
          some { t with
            dataDev := update t.dataDev block.pba (t.segBuffer.pipe (curBlock t)) }
          else advanceBuffer gc t) = some u) ∨
        ∀ gc, (if threadedLogging then
          some { t with
            dataDev := update t.dataDev block.pba (t.segBuffer.pipe (curBlock t)) }
          else advanceBuffer gc t) = gc u) := by
  have slot : t.segBuffer.pipe (curBlock t) = block.cipher env := by
    have same : curBlock t = curBlock s := by rw [curBlock, sector, curBlock]
    rw [same]
    exact (congrFun (congrArg Media.pipe filled) (curBlock s)).trans (update_self ..)
  have media : Effect.replay env s.media
      (.fill s.segBuffer.curSegment (curBlock s) block s.lsmTree) = t.media := filled.symm
  rw [sealedEffects, replay_cons, media]
  cases threadedLogging with
  | true =>
    rw [slot]
    exact ⟨{ t with dataDev := update t.dataDev block.pba (block.cipher env) }, rfl, rfl,
      .inl fun gc => rfl⟩
  | false =>
    simp only [Bool.false_eq_true, if_false]
    by_cases full : sectorsPerSegment ≤ s.segBuffer.curSector + sectorsPerBlock
    · obtain ⟨u, kept, tree, outcome⟩ := saAlloc_outcome (rewindBuffer t)
      rw [if_pos full, replay_cons, replay_nil, ← segment]
      rw [← sector] at full
      refine ⟨u, kept.trans (rewindBuffer_media env _ _), tree, ?_⟩
      simp only [fun gc => advanceBuffer_flush gc full]
      exact outcome
    · rw [if_neg full, replay_nil]
      rw [← sector] at full
      exact ⟨bumpBuffer t, rfl, rfl, .inl fun gc => advanceBuffer_room gc full⟩

/-- A push has the effects of its trace, puts a new record into the tree, and either returns
or hands its state to the collection. -/
theorem segbufPushBlock_outcome (env : Env K I M G) (s : DmSwornDisk K I M G) (lba : Nat)
    (data : Block) :
    ∃ t, t.media = replay env s.media (pushEffects env s lba data) ∧
      (∃ pba, t.lsmTree =
        update s.lsmTree (lsmKey lba) (some (newRecord env s pba data))) ∧
      ((∀ gc, segbufPushBlock env gc s lba data = some t) ∨
        ∀ gc, segbufPushBlock env gc s lba data = gc t) := by
  unfold segbufPushBlock pushEffects
  dsimp only
  obtain ⟨dst, kept⟩ := nextBlock_returnOld s lba (sworndiskShouldThreadedLogging s)
  generalize nextBlock (returnOld s lba) (sworndiskShouldThreadedLogging s) = next at kept ⊢
  generalize sworndiskShouldThreadedLogging s = threadedLogging
  obtain ⟨pba, u⟩ := next
  obtain rfl : u = { s with dst := dst } := kept
  obtain ⟨v, media, tree, outcome⟩ :=
    sealed_outcome env (sealBlock_media env s lba dst pba data) rfl rfl threadedLogging
  exact ⟨v, media, ⟨pba, tree⟩, outcome⟩

variable {env : Env K I M G} {lba : Nat} {data : Block}

theorem collectionStart_of_returns (returns : ∀ gc, segbufPushBlock env gc s lba data = some t) :
    collectionStart env s lba data = none := by
  have returned : ¬ (segbufPushBlock env (fun _ => none) s lba data).isNone = true := by
    rw [returns]
    exact Bool.false_ne_true
  exact if_neg returned

theorem collectionStart_of_collects (collects : ∀ gc, segbufPushBlock env gc s lba data = gc t) :
    collectionStart env s lba data = some t := by
  have blocked : (segbufPushBlock env (fun _ => none) s lba data).isNone = true := by
    rw [collects]
    rfl
  exact (if_pos blocked).trans (collects some)

variable {victim : Victim} {scan scan' : GcScan K I M G}

theorem gcBlock_media {offset : Nat} (step : gcBlock env victim scan offset = some scan') :
    scan'.state.media = replay env scan.state.media (gcBlockEffects env victim scan offset) := by
  rw [gcBlock_eq] at step
  unfold gcBlockEffects
  cases opened : gcOpened env victim scan offset with
  | none =>
    simp only [opened, some.injEq] at step
    rw [← step, gcReadRegion_state]
    rfl
  | some found =>
    obtain ⟨lba, plaintext⟩ := found
    simp only [opened] at step
    obtain ⟨t, pushed, rfl⟩ := map_eq_some_iff.mp step
    obtain ⟨t', media, -, returns | collects⟩ :=
      segbufPushBlock_outcome env scan.state lba plaintext
    · obtain rfl := some.inj ((returns _).symm.trans pushed)
      exact media
    · exact absurd ((collects _).symm.trans pushed) (by simp)

theorem scan_media {offsets : List Nat}
    (run : offsets.foldlM (gcBlock env victim) scan = some scan') :
    scan'.state.media = replay env scan.state.media (scanEffects env victim scan offsets) := by
  induction offsets generalizing scan with
  | nil =>
    obtain rfl := some.inj run
    rfl
  | cons offset offsets ih =>
    rw [foldlM_cons] at run
    obtain ⟨next, step, rest⟩ := Option.bind_eq_some_iff.mp run
    simp only [scanEffects, step]
    rw [replay_append, ← gcBlock_media step, ih rest]

theorem gcScanVictim_media (scan : gcScanVictim env victim s = some t) :
    t.media = replay env s.media (scanVictimEffects env victim s) := by
  unfold gcScanVictim at scan
  unfold scanVictimEffects
  split at scan
  · next occupied =>
      obtain ⟨last, run, rfl⟩ := map_eq_some_iff.mp scan
      rw [if_pos occupied]
      have media := scan_media run
      exact media
  · next empty =>
      obtain rfl := some.inj scan
      rw [if_neg empty]
      rfl

theorem gcReclaim_media (victim : Victim) (clean : Nat) (s : DmSwornDisk K I M G) :
    (gcReclaim victim clean s).2.media = s.media := by
  unfold gcReclaim
  split <;> rfl

theorem gcLoop_media {fuel clean : Nat} (loop : gcLoop (gcScanVictim env) fuel clean s = some t) :
    t.media = replay env s.media (gcLoopEffects env fuel clean s) := by
  induction fuel generalizing clean s with
  | zero =>
    rw [gcLoop] at loop
    split at loop
    · obtain rfl := some.inj loop
      rfl
    · split at loop
      · exact absurd loop (by simp)
      · obtain rfl := some.inj loop
        rfl
  | succ fuel ih =>
    rw [gcLoop] at loop
    rw [gcLoopEffects]
    cases peek : dstPeekVictim s.dst with
    | none =>
      simp only [peek, some.injEq] at loop
      obtain rfl := loop
      rfl
    | some victim =>
      simp only [peek] at loop ⊢
      split at loop
      · next more =>
          obtain ⟨scanned, scan, rest⟩ := Option.bind_eq_some_iff.mp loop
          simp only [if_pos more, scan]
          rw [replay_append, ← gcScanVictim_media scan, ih rest, gcReclaim_media]
      · next enough =>
          obtain rfl := some.inj loop
          simp only [if_neg enough]
          rfl

theorem segbufPushBlock_media
    (pushed : segbufPushBlock env (saForegroundGc env) s lba data = some t) :
    t.media = replay env s.media (segbufPushBlockEffects env s lba data) := by
  unfold segbufPushBlockEffects
  obtain ⟨t', media, -, returns | collects⟩ := segbufPushBlock_outcome env s lba data
  · obtain rfl := some.inj ((returns _).symm.trans pushed)
    simp only [collectionStart_of_returns returns, append_nil]
    exact media
  · obtain ⟨last, loop, rfl⟩ := map_eq_some_iff.mp ((collects _).symm.trans pushed)
    simp only [collectionStart_of_collects collects]
    rw [replay_append, ← media]
    exact gcLoop_media loop

theorem fillBuffer_eq (env : Env K I M G) (s : DmSwornDisk K I M G) (bio : Bio) (block : Block) :
    fillBuffer env s bio block =
      segbufPushBlock env (saForegroundGc env)
        (fillSlot s (bioGetData bio.pages (bioBlockSectorOffset bio) block))
        (bioGetBlockAddress bio) (bioGetData bio.pages (bioBlockSectorOffset bio) block) :=
  rfl

variable {bio : Bio}

theorem sworndiskDoWrite_media (wrote : sworndiskDoWrite env s bio = some t) :
    t.media = replay env s.media (bioEffects env s bio) := by
  obtain ⟨pushed, push, rfl⟩ := map_eq_some_iff.mp wrote
  change pushed.media = _
  unfold bioEffects
  cases modifies : modifiesBuffer s bio with
  | true =>
    obtain ⟨record, mapped, -, modified⟩ := segbufPushBio_modify env modifies
    obtain rfl := some.inj (modified.symm.trans push)
    have found : lsmSearch s (bioGetBlockAddress bio) = some record := by
      rw [lsmSearch, lsmKey_of_lt (bioGetBlockAddress_lt bio), mapped]
    simp only [found, if_true]
    rfl
  | false =>
    rw [segbufPushBio_fill env modifies, fillBuffer_eq] at push
    have media := segbufPushBlock_media push
    cases lsmSearch s (bioGetBlockAddress bio) with
    | none => exact media
    | some record => exact media

section

variable (env s)

theorem runWrites_append (first second : List Bio) :
    runWrites env s (first ++ second) =
      (runWrites env s first).bind fun t => runWrites env t second :=
  foldlM_append

theorem runWrites_singleton (bio : Bio) : runWrites env s [bio] = sworndiskDoWrite env s bio := by
  rw [runWrites, foldlM_cons]
  cases sworndiskDoWrite env s bio with
  | none => rfl
  | some t => rfl

end

section

variable (wrote : sworndiskDoWrite env s bio = some t)
include wrote

theorem runWrites_cons (bios : List Bio) :
    runWrites env s (bio :: bios) = runWrites env t bios := by
  rw [runWrites, foldlM_cons, wrote]
  rfl

theorem writesEffects_singleton : writesEffects env s [bio] = bioEffects env s bio := by
  simp only [writesEffects, wrote, append_nil]

theorem sessionEffects_cons (bios : List Bio) :
    sessionEffects env s (bio :: bios) = bioEffects env s bio ++ sessionEffects env t bios := by
  simp only [sessionEffects, wrote]

end

theorem writesEffects_append {first : List Bio} (ran : runWrites env s first = some t)
    (second : List Bio) :
    writesEffects env s (first ++ second) =
        writesEffects env s first ++ writesEffects env t second ∧
      sessionEffects env s (first ++ second) =
        writesEffects env s first ++ sessionEffects env t second := by
  induction first generalizing s with
  | nil =>
    obtain rfl := some.inj ran
    exact ⟨rfl, rfl⟩
  | cons bio bios ih =>
    rw [runWrites, foldlM_cons] at ran
    obtain ⟨next, wrote, rest⟩ := Option.bind_eq_some_iff.mp ran
    obtain ⟨writes, session⟩ := ih rest
    simp only [cons_append, writesEffects, sessionEffects, wrote, writes, session,
      append_assoc, and_self]

theorem sessionEffects_media {bios : List Bio} (ran : runWrites env s bios = some t) :
    (unmount t).media = replay env s.media (sessionEffects env s bios) := by
  induction bios generalizing s with
  | nil =>
    obtain rfl := some.inj ran
    rfl
  | cons bio bios ih =>
    rw [runWrites, foldlM_cons] at ran
    obtain ⟨next, wrote, rest⟩ := Option.bind_eq_some_iff.mp ran
    simp only [sessionEffects, wrote]
    rw [replay_append, ← sworndiskDoWrite_media wrote]
    exact ih rest

end SwornDisk.C
