import SwornDisk.C.Integrity

/-!
# Writes of a part of a block

A write of fewer than eight sectors is laid over a block.  For an address that was never
written that is whatever the slot of the buffer holds, and for one whose block does not
open it is what came from the device.
-/

namespace SwornDisk.C

open Lib List Function

variable {K I M G : Type}

def Bio.Outside (bio : Bio) (i : Fin 8) : Prop :=
  i.val < bio.sector % sectorsPerBlock ∨ bio.sector % sectorsPerBlock + bio.pages.length ≤ i.val

variable {bio : Bio}

theorem bioGetData_outside {i : Fin 8} (outside : bio.Outside i) (base : Block) :
    bioGetData bio.pages (bio.sector % sectorsPerBlock) base i = base i := by
  unfold bioGetData
  rcases outside with before | behind
  · rw [if_neg (Nat.not_le.mpr before)]
  · rw [if_pos (by omega), getElem?_eq_none (by omega), Option.getD_none]

theorem bioGetData_inside {i : Fin 8} (inside : ¬ bio.Outside i) (left right : Block) :
    bioGetData bio.pages (bio.sector % sectorsPerBlock) left i =
      bioGetData bio.pages (bio.sector % sectorsPerBlock) right i := by
  unfold Bio.Outside at inside
  have below : i.val - bio.sector % sectorsPerBlock < bio.pages.length := by omega
  unfold bioGetData
  rw [if_pos (by omega), if_pos (by omega), getElem?_eq_getElem below, Option.getD_some,
    Option.getD_some]

theorem bioGetData_eq_iff (bio : Bio) (left right : Block) :
    bioGetData bio.pages (bio.sector % sectorsPerBlock) left =
        bioGetData bio.pages (bio.sector % sectorsPerBlock) right ↔
      ∀ i, bio.Outside i → left i = right i := by
  constructor
  · intro same i outside
    rw [← bioGetData_outside outside left, same, bioGetData_outside outside]
  · intro agree
    funext i
    by_cases outside : bio.Outside i
    · rw [bioGetData_outside outside, bioGetData_outside outside, agree i outside]
    · exact bioGetData_inside outside left right

/-- What a write of a part of a block should do: the plaintext of the address is the one
before, or zeros if there was none, with the sectors of the bio replaced. -/
def WritesOver (env : Env K I M G) (s : DmSwornDisk K I M G) (bio : Bio) : Prop :=
  ∃ t, segbufPushBio env s bio = some t ∧
    plaintext env t (bio.sector / sectorsPerBlock) =
      some (bioGetData bio.pages (bio.sector % sectorsPerBlock)
        ((plaintext env s (bio.sector / sectorsPerBlock)).getD zeroBlock))

/-- The address was written before, or the slot that the write takes holds zeros wherever the
bio does not write. -/
def SlotClean (s : DmSwornDisk K I M G) (bio : Bio) : Prop :=
  (s.lsmTree (bio.sector / sectorsPerBlock)).isSome = true ∨
    ∀ i, bio.Outside i → s.segBuffer.buffer (curBlock s) i = zeroBlock i

variable {s : DmSwornDisk K I M G} {env : Env K I M G}

theorem InOrder.writesOver_iff {plain : Nat → Block} (o : InOrder env plain s)
    (part : bio.pages.length < sectorsPerBlock) (fits : bio.sector < 2 ^ 32)
    (safe : BioSafe s bio)
    (fresh : modifiesBuffer s bio = false → NoneStale s (bioGetBlockAddress bio))
    (enough : s.nrSegment ≤ env.gcFuel) : WritesOver env s bio ↔ SlotClean s bio := by
  obtain ⟨t, base, pushed, inOrder, frame, current, slot⟩ := o.pushBio safe fresh enough
  rw [bioGetBlockAddress_of_lt fits] at inOrder frame current slot
  rw [bioBlockSectorOffset_of_lt fits] at inOrder
  have mapped : (t.lsmTree (bio.sector / sectorsPerBlock)).isSome = true := by
    rw [frame.domain, beq_self_eq_true, Bool.true_or]
  have stored : plaintext env t (bio.sector / sectorsPerBlock) =
      some (bioGetData bio.pages (bio.sector % sectorsPerBlock) base) := by
    rw [inOrder.sealed.plaintext_eq inOrder.aligned, if_pos mapped, update_self]
  have reduced : WritesOver env s bio ↔
      bioGetData bio.pages (bio.sector % sectorsPerBlock) base =
        bioGetData bio.pages (bio.sector % sectorsPerBlock)
          ((plaintext env s (bio.sector / sectorsPerBlock)).getD zeroBlock) := by
    constructor
    · rintro ⟨t', pushed', stored'⟩
      obtain rfl := Option.some.inj (pushed.symm.trans pushed')
      exact Option.some.inj (stored.symm.trans stored')
    · exact fun same => ⟨t, pushed, stored.trans (congrArg some same)⟩
  rw [reduced, o.sealed.plaintext_eq o.aligned, SlotClean]
  cases before : s.lsmTree (bio.sector / sectorsPerBlock) with
  | some record =>
    rw [current part (by rw [before]; rfl)]
    simp
  | none =>
    rw [slot part before]
    simp [bioGetData_eq_iff]

/-- After a session of regular writes on a new device, a regular write of a part of a block
does what it should exactly if its address was written before or its slot is clean. -/
theorem partial_write_iff_slotClean {env : Env K I M G} {nrSegment : Nat} {dataDev : Nat → G}
    {s : DmSwornDisk K I M G} {bios : List Bio} (enough : nrSegment ≤ env.gcFuel)
    (mounted : mount env (format nrSegment dataDev) = some s) (safe : WritesSafe env s bios) :
    ∃ t, runWrites env s bios = some t ∧
      ∀ bio : Bio, bio.pages.length < sectorsPerBlock → bio.sector < 2 ^ 32 → BioSafe t bio →
        (WritesOver env t bio ↔ SlotClean t bio) := by
  obtain ⟨running, -, -⟩ := running_format enough mounted
  obtain ⟨t, ran⟩ := running.runWrites safe
  have later := running.after safe ran
  obtain ⟨plain, o⟩ := later.inOrder
  exact ⟨t, ran, fun bio part fits regular =>
    o.writesOver_iff part fits regular (fun _ _ _ _ blkaddr _ => later.fresh blkaddr) later.enough⟩

/-- Memory that was zero when it was allocated is clean. -/
theorem partial_write_first_sector :
    ∃ s, mount plainEnv (format 64 fun _ => zeroBlock) = some s ∧
      BioSafe s (sectorBio 0 fun _ => 1) ∧ WritesOver plainEnv s (sectorBio 0 fun _ => 1) := by
  have few := firstMount_few plainEnv (fun _ => zeroBlock) (by decide : 1 < threadedThreshold 64)
  have room := firstMount_room plainEnv 64 fun _ => zeroBlock
  have regular : BioSafe (firstMount plainEnv 64 fun _ => zeroBlock) (sectorBio 0 fun _ => 1) :=
    fun _ => (pushSafe_of_room (bioGetBlockAddress_lt _) few room).1
  have clean : SlotClean (firstMount plainEnv 64 fun _ => zeroBlock) (sectorBio 0 fun _ => 1) :=
    .inr fun _ _ => rfl
  have none : WritesSafe plainEnv (firstMount plainEnv 64 fun _ => zeroBlock) [] := trivial
  obtain ⟨t, ran, exact⟩ := partial_write_iff_slotClean (by decide) mount_plainEnv none
  obtain rfl := Option.some.inj ran
  exact ⟨_, mount_plainEnv, regular, (exact _ (by decide) (by decide) regular).mpr clean⟩

/-- A filled first segment of ones leaves ones in the slots: one sector of zeros written to
address 1024, which was never written, comes with ones in the other sectors. -/
theorem not_writesOver_new_address :
    ∃ s t, mount plainEnv (format 64 fun _ => zeroBlock) = some s ∧
      runWrites plainEnv s (firstBios (fun _ => oneBlock) blocksPerSegment) = some t ∧
      BioSafe t (sectorBio 8192 fun _ => 0) ∧
      ¬ WritesOver plainEnv t (sectorBio 8192 fun _ => 0) := by
  obtain ⟨t, ran, next, nrSegment⟩ :=
    nextSegment_run plainEnv (fun _ => oneBlock) fun _ => zeroBlock
  have room : curBlock t + 1 < blocksPerSegment := by
    rw [next.empty]
    decide
  obtain ⟨regular, fresh⟩ :=
    pushSafe_of_room (bioGetBlockAddress_lt (sectorBio 8192 fun _ => 0)) next.few room
  have enough : t.nrSegment ≤ plainEnv.gcFuel := by
    rw [nrSegment]
    decide
  obtain ⟨plain, o⟩ := next.inOrder
  refine ⟨_, t, mount_plainEnv, ran, fun _ => regular, ?_⟩
  rw [o.writesOver_iff (by decide) (by decide) (fun _ => regular) (fun _ => fresh) enough]
  rintro (written | clean)
  · have address : (sectorBio 8192 fun _ => 0).sector / sectorsPerBlock = blocksPerSegment := rfl
    rw [address, next.lsmTree, firstTree, if_neg (Nat.lt_irrefl _)] at written
    exact absurd written Bool.false_ne_true
  · have outside : (sectorBio 8192 fun _ => 0).Outside 1 := .inr (by decide)
    have sector := clean 1 outside
    rw [next.empty, next.buffered 0 (by decide)] at sector
    exact absurd (congrFun sector 0) (by decide)

/-- The record of an address authenticates a plaintext: some ciphertext opens to it. -/
def Authenticates (env : Env K I M G) (s : DmSwornDisk K I M G) (lba : Nat) (data : Block) : Prop :=
  ∃ record, s.lsmTree lba = some record ∧
    (env.aead.encrypt record.key record.iv record.pba data).2 = record.mac

variable {victim : Victim} {record : Record K I M} {pushed : Nat}

namespace Authenticates

variable {env : Env K I M G} {s t : DmSwornDisk K I M G} {lba : Nat} {data : Block}

theorem unique {other : Block} (left : Authenticates env s lba data)
    (right : Authenticates env s lba other) : other = data := by
  obtain ⟨record, mapped, tag⟩ := left
  obtain ⟨record', mapped', tag'⟩ := right
  obtain rfl := Option.some.inj (mapped.symm.trans mapped')
  exact env.aead.plain_of_mac (tag'.trans tag.symm)

theorem eq_of_opened (authentic : Authenticates env s lba data)
    (mapped : s.lsmTree lba = some record) {cipher : G} {opened : Block}
    (opens : env.aead.decrypt record.key record.iv record.mac record.pba cipher = some opened) :
    opened = data := by
  have sealed := env.aead.decrypt_eq_some_iff.mp opens
  exact authentic.unique ⟨record, mapped, congrArg Prod.snd sealed⟩

theorem congr (authentic : Authenticates env s lba data) (tree : t.lsmTree = s.lsmTree) :
    Authenticates env t lba data := by
  obtain ⟨record, mapped, tag⟩ := authentic
  exact ⟨record, tree ▸ mapped, tag⟩

theorem of_update {block : Block} {pba : Nat}
    (tree : t.lsmTree = Function.update s.lsmTree pushed (some (newRecord env s pba block)))
    (same : pushed = lba → block = data) (before : pushed ≠ lba → Authenticates env s lba data) :
    Authenticates env t lba data := by
  by_cases here : pushed = lba
  · obtain rfl := same here
    refine ⟨newRecord env s pba block, ?_, rfl⟩
    rw [tree, here, update_self]
  · obtain ⟨record, mapped, tag⟩ := before here
    refine ⟨record, ?_, tag⟩
    rw [tree, update_of_ne (Ne.symm here)]
    exact mapped

theorem eq_of_gcOpened {scan : GcScan K I M G} {offset : Nat} {plaintext : Block}
    (authentic : Authenticates env scan.state lba data)
    (opened : gcOpened env victim scan offset = some (pushed, plaintext))
    (here : lsmKey pushed = lba) : plaintext = data := by
  obtain ⟨record, mapped, -⟩ := id authentic
  obtain ⟨block, opens, pair⟩ := Option.map_eq_some_iff.mp opened
  obtain ⟨rfl, rfl⟩ := Prod.mk.inj pair
  have found : lsmSearch (gcReadRegion victim scan offset).state
      ((gcReadRegion victim scan offset).state.rit
        (victim.segno * blocksPerSegment + offset)) = some record := by
    rw [lsmSearch, here, gcReadRegion_state, mapped]
  rw [found, Option.getD_some] at opens
  exact authentic.eq_of_opened mapped opens

/-- Moving a block of a victim keeps the plaintext: what is pushed for the address has been
opened under its record. -/
theorem gcBlock {scan scan' : GcScan K I M G} {offset : Nat}
    (authentic : Authenticates env scan.state lba data)
    (step : C.gcBlock env victim scan offset = some scan') :
    Authenticates env scan'.state lba data := by
  rw [gcBlock_eq] at step
  cases opened : gcOpened env victim scan offset with
  | none =>
    simp only [opened, Option.some.injEq] at step
    rw [← step]
    exact authentic.congr (by rw [gcReadRegion_state])
  | some found =>
    obtain ⟨pushed, plaintext⟩ := found
    simp only [opened] at step
    obtain ⟨u, returned, rfl⟩ := Option.map_eq_some_iff.mp step
    obtain ⟨v, -, ⟨pba, tree⟩, returns | collects⟩ :=
      segbufPushBlock_outcome env scan.state pushed plaintext
    · obtain rfl := Option.some.inj ((returns _).symm.trans returned)
      exact of_update tree (authentic.eq_of_gcOpened opened) fun _ => authentic
    · exact absurd ((collects _).symm.trans returned) (by simp)

theorem scan {offsets : List Nat} {scan scan' : GcScan K I M G}
    (authentic : Authenticates env scan.state lba data)
    (run : offsets.foldlM (C.gcBlock env victim) scan = some scan') :
    Authenticates env scan'.state lba data := by
  induction offsets generalizing scan with
  | nil =>
    obtain rfl := Option.some.inj run
    exact authentic
  | cons offset offsets ih =>
    rw [foldlM_cons] at run
    obtain ⟨next, step, rest⟩ := Option.bind_eq_some_iff.mp run
    exact ih (authentic.gcBlock step) rest

section

variable (authentic : Authenticates env s lba data)
include authentic

theorem gcScanVictim (scanned : C.gcScanVictim env victim s = some t) :
    Authenticates env t lba data := by
  unfold C.gcScanVictim at scanned
  split at scanned
  · obtain ⟨last, run, rfl⟩ := Option.map_eq_some_iff.mp scanned
    exact scan authentic run
  · obtain rfl := Option.some.inj scanned
    exact authentic

theorem gcReclaim (victim : Victim) (clean : Nat) :
    Authenticates env (C.gcReclaim victim clean s).2 lba data := by
  refine authentic.congr ?_
  unfold C.gcReclaim
  split <;> rfl

theorem gcLoop {fuel clean : Nat} (loop : C.gcLoop (C.gcScanVictim env) fuel clean s = some t) :
    Authenticates env t lba data := by
  induction fuel generalizing clean s with
  | zero =>
    rw [C.gcLoop] at loop
    split at loop
    · obtain rfl := Option.some.inj loop
      exact authentic
    · split at loop
      · exact absurd loop (by simp)
      · obtain rfl := Option.some.inj loop
        exact authentic
  | succ fuel ih =>
    rw [C.gcLoop] at loop
    split at loop
    · obtain rfl := Option.some.inj loop
      exact authentic
    · split at loop
      · obtain ⟨scanned, scan, rest⟩ := Option.bind_eq_some_iff.mp loop
        exact ih ((authentic.gcScanVictim scan).gcReclaim _ _) rest
      · obtain rfl := Option.some.inj loop
        exact authentic

end

theorem of_push (push : segbufPushBlock env (saForegroundGc env) s pushed data = some t) :
    Authenticates env t (lsmKey pushed) data := by
  obtain ⟨u, -, ⟨pba, tree⟩, outcome⟩ := segbufPushBlock_outcome env s pushed data
  have sealed : Authenticates env u (lsmKey pushed) data :=
    of_update tree (fun _ => rfl) fun differs => absurd rfl differs
  rcases outcome with returns | collects
  · obtain rfl := Option.some.inj ((returns _).symm.trans push)
    exact sealed
  · obtain ⟨last, loop, rfl⟩ := Option.map_eq_some_iff.mp ((collects _).symm.trans push)
    have start : Authenticates env (withStatus u .cleaning) (lsmKey pushed) data := sealed.congr rfl
    have done : Authenticates env last (lsmKey pushed) data := start.gcLoop loop
    exact done.congr rfl

theorem of_pushBio (fills : modifiesBuffer s bio = false)
    (push : segbufPushBio env s bio = some t) :
    Authenticates env t (bioGetBlockAddress bio)
      (bioGetData bio.pages (bioBlockSectorOffset bio) (bioBase env s bio)) := by
  rw [segbufPushBio_fill env fills, fillBuffer_eq] at push
  have sealed := of_push push
  rwa [lsmKey_of_lt (bioGetBlockAddress_lt bio)] at sealed

end Authenticates

/-- What a write of a part of a block should not do: authenticate, in a sector that it does
not write, something else than what was written there last. -/
def NotLaundered (env : Env K I M G) (written : Nat → Option Sector) (s : DmSwornDisk K I M G)
    (bio : Bio) : Prop :=
  ∀ data, Authenticates env s (bio.sector / sectorsPerBlock) data → ∀ i, bio.Outside i →
    ∀ latest, written (bio.sector / sectorsPerBlock * sectorsPerBlock + i.val) = some latest →
      data i = latest

theorem authenticates_rawBytes {t : DmSwornDisk K I M G}
    (part : bio.pages.length < sectorsPerBlock) (fits : bio.sector < 2 ^ 32)
    (mapped : s.lsmTree (bio.sector / sectorsPerBlock) = some record) (fetches : Fetches s record)
    (refused : env.aead.decrypt record.key record.iv record.mac record.pba
      (s.dataDev record.pba) = none) (pushed : segbufPushBio env s bio = some t) :
    Authenticates env t (bio.sector / sectorsPerBlock)
      (bioGetData bio.pages (bio.sector % sectorsPerBlock)
        (env.rawBytes (s.dataDev record.pba))) := by
  have address := bioGetBlockAddress_of_lt fits
  have found : lsmSearch s (bioGetBlockAddress bio) = some record := by
    rw [lsmSearch, lsmKey_of_lt (bioGetBlockAddress_lt bio), address, mapped]
  have outside : inSegmentBuffer s record.pba = false := fetches
  have fills : modifiesBuffer s bio = false := by
    simp only [modifiesBuffer, found, outside, Bool.and_false]
  have base : bioBase env s bio = env.rawBytes (s.dataDev record.pba) := by
    rw [bioBase, if_neg (Nat.not_le.mpr part), found, underlyingBlock,
      sworndiskReadBlock_of_fetches fetches]
    simp only [refused, Option.getD_none]
  have sealed := Authenticates.of_pushBio fills pushed
  rwa [address, bioBlockSectorOffset_of_lt fits, base] at sealed

/-- In any state and for any contents of the device: a write of a part of a block that does
not open launders nothing exactly if the bytes on the device are what was written last,
wherever the bio does not write. -/
theorem notLaundered_iff {env : Env K I M G} {s t : DmSwornDisk K I M G}
    (written : Nat → Option Sector) {bio : Bio} {record : Record K I M}
    (part : bio.pages.length < sectorsPerBlock) (fits : bio.sector < 2 ^ 32)
    (mapped : s.lsmTree (bio.sector / sectorsPerBlock) = some record)
    (fetches : Fetches s record)
    (refused : env.aead.decrypt record.key record.iv record.mac record.pba
      (s.dataDev record.pba) = none)
    (pushed : segbufPushBio env s bio = some t) :
    NotLaundered env written t bio ↔ ∀ i, bio.Outside i → ∀ latest,
      written (bio.sector / sectorsPerBlock * sectorsPerBlock + i.val) = some latest →
        env.rawBytes (s.dataDev record.pba) i = latest := by
  have sealed := authenticates_rawBytes part fits mapped fetches refused pushed
  constructor
  · intro kept i inside latest last
    rw [← kept _ sealed i inside latest last, bioGetData_outside inside]
  · intro same data authentic i inside latest last
    rw [sealed.unique authentic, bioGetData_outside inside]
    exact same i inside latest last

theorem segbufPushBio_isSome (fills : modifiesBuffer s bio = false)
    (logged : sworndiskShouldThreadedLogging s = false)
    (room : ¬ sectorsPerSegment ≤ s.segBuffer.curSector + sectorsPerBlock) :
    ∃ t, segbufPushBio env s bio = some t := by
  rw [segbufPushBio_fill env fills, fillBuffer_eq]
  generalize bioGetData bio.pages (bioBlockSectorOffset bio) (bioBase env s bio) = data
  have threaded : sworndiskShouldThreadedLogging (fillSlot s data) = false := logged
  rw [segbufPushBlock_logged env _ threaded]
  refine ⟨_, advanceBuffer_room _ ?_⟩
  rw [loggedBlock_curSector]
  exact room

theorem NextSegment.replaced {t : DmSwornDisk Unit Unit (Unit × Unit × Nat × Block) Block}
    (next : NextSegment plainEnv (fun _ => oneBlock) t) {content : Block}
    (forged : content ≠ oneBlock) :
    ∃ record u, t.lsmTree 0 = some record ∧
      Fetches (tamper t (fun _ => content) t.prefetcher) record ∧
      plainEnv.aead.decrypt record.key record.iv record.mac record.pba content = none ∧
      segbufPushBio plainEnv (tamper t (fun _ => content) t.prefetcher) (sectorBio 0 fun _ => 0) =
        some u := by
  have mapped : t.lsmTree 0 = some (firstRecord plainEnv (fun _ => oneBlock) 0) := by
    rw [next.lsmTree, firstTree, if_pos (by decide)]
  obtain ⟨plain, o⟩ := next.inOrder
  have outside : inSegmentBuffer (tamper t (fun _ => content) t.prefetcher)
      (firstRecord plainEnv (fun _ => oneBlock) 0).pba = false := next.fetches _ _ _
  have address : bioGetBlockAddress (sectorBio 0 fun _ => 0) = 0 := by decide
  have found : lsmSearch (tamper t (fun _ => content) t.prefetcher) 0 =
      some (firstRecord plainEnv (fun _ => oneBlock) 0) := mapped
  have fills : modifiesBuffer (tamper t (fun _ => content) t.prefetcher)
      (sectorBio 0 fun _ => 0) = false := by
    simp only [modifiesBuffer, address, found, outside, Bool.and_false]
  have logged : sworndiskShouldThreadedLogging (tamper t (fun _ => content) t.prefetcher) = false :=
    if_pos next.few
  have room : ¬ sectorsPerSegment ≤
      (tamper t (fun _ => content) t.prefetcher).segBuffer.curSector + sectorsPerBlock := by
    change ¬ sectorsPerSegment ≤ t.segBuffer.curSector + sectorsPerBlock
    rw [o.aligned.aligned, next.empty]
    decide
  obtain ⟨u, pushed⟩ := segbufPushBio_isSome fills logged room
  exact ⟨_, u, mapped, outside, decrypt_plainEnv rfl forged, pushed⟩

/-- A forged block that differs only in the sector that is written does no harm. -/
theorem notLaundered_same_sectors :
    ∃ s t u, mount plainEnv (format 64 fun _ => zeroBlock) = some s ∧
      runWrites plainEnv s (firstBios (fun _ => oneBlock) blocksPerSegment) = some t ∧
      segbufPushBio plainEnv
        (tamper t (fun _ => bioGetData [fun _ => 0] 0 oneBlock) t.prefetcher)
        (sectorBio 0 fun _ => 0) = some u ∧
      NotLaundered plainEnv
        (latestWrite ((firstBios (fun _ => oneBlock) blocksPerSegment).map .write)) u
        (sectorBio 0 fun _ => 0) := by
  obtain ⟨t, ran, next, -⟩ := nextSegment_run plainEnv (fun _ => oneBlock) fun _ => zeroBlock
  have forged : bioGetData [fun _ => 0] 0 oneBlock ≠ oneBlock := fun same =>
    absurd (congrFun (congrFun same 0) 0) (by decide)
  obtain ⟨record, u, mapped, fetches, refused, pushed⟩ := next.replaced forged
  refine ⟨_, t, u, mount_plainEnv, ran, pushed, ?_⟩
  refine (notLaundered_iff _ (by decide) (by decide) mapped fetches refused pushed).mpr ?_
  intro i outside latest last
  rw [latestWrite_firstBios] at last
  split at last
  · obtain rfl := Option.some.inj last
    exact bioGetData_outside outside oneBlock
  · exact absurd last (by simp)

/-- A forged block of zeros becomes authentic in the sectors that the user did not write. -/
theorem not_notLaundered_zeros :
    ∃ s t u record, mount plainEnv (format 64 fun _ => zeroBlock) = some s ∧
      runWrites plainEnv s (firstBios (fun _ => oneBlock) blocksPerSegment) = some t ∧
      t.lsmTree 0 = some record ∧
      Fetches (tamper t (fun _ => zeroBlock) t.prefetcher) record ∧
      plainEnv.aead.decrypt record.key record.iv record.mac record.pba zeroBlock = none ∧
      segbufPushBio plainEnv (tamper t (fun _ => zeroBlock) t.prefetcher)
        (sectorBio 0 fun _ => 0) = some u ∧
      ¬ NotLaundered plainEnv
        (latestWrite ((firstBios (fun _ => oneBlock) blocksPerSegment).map .write)) u
        (sectorBio 0 fun _ => 0) := by
  obtain ⟨t, ran, next, -⟩ := nextSegment_run plainEnv (fun _ => oneBlock) fun _ => zeroBlock
  have forged : zeroBlock ≠ oneBlock := fun same =>
    absurd (congrFun (congrFun same 0) 0) (by decide)
  obtain ⟨record, u, mapped, fetches, refused, pushed⟩ := next.replaced forged
  refine ⟨_, t, u, record, mount_plainEnv, ran, mapped, fetches, refused, pushed, fun kept => ?_⟩
  have sealed := authenticates_rawBytes (by decide) (by decide) mapped fetches refused pushed
  have outside : (sectorBio 0 fun _ => 0).Outside 1 := .inr (by decide)
  have last : latestWrite ((firstBios (fun _ => oneBlock) blocksPerSegment).map .write)
      ((sectorBio 0 fun _ => 0).sector / sectorsPerBlock * sectorsPerBlock + (1 : Fin 8).val) =
        some (oneBlock 1) := by
    rw [latestWrite_firstBios, if_pos (by decide)]
    rfl
  have sector := kept _ sealed 1 outside _ last
  rw [bioGetData_outside outside] at sector
  have bytes : (0 : UInt8) = 1 := congrFun sector 0
  exact absurd bytes (by decide)

end SwornDisk.C
