import SwornDisk.C.ReadPath
import SwornDisk.C.Remount

/-!
# Runs of requests

A session of read and write requests on a newly formatted device, against the map from
sectors to the data written last.
-/

namespace SwornDisk.C

open List Function Option

variable {K I M G : Type}

/-! ## Requests and what they should do -/

/-- A bio handed to `sworndisk_do_read` or `sworndisk_do_write`. -/
inductive Request where
  | read (bio : Bio)
  | write (bio : Bio)

def Bio.sectorData (bio : Bio) (sector : Nat) : Option Sector :=
  if bio.sector ≤ sector then bio.pages[sector - bio.sector]? else none

def Request.record (written : Nat → Option Sector) : Request → Nat → Option Sector
  | .read _ => written
  | .write bio => fun sector => (bio.sectorData sector).or (written sector)

def latestWrite (requests : List Request) : Nat → Option Sector :=
  requests.foldl Request.record fun _ => none

section

variable (env : Env K I M G) (s : DmSwornDisk K I M G)

def Request.step :
    Request → Option (DmSwornDisk K I M G)
  | .read bio => some (sworndiskDoRead env s bio).2
  | .write bio => sworndiskDoWrite env s bio

def runRequests (requests : List Request) : Option (DmSwornDisk K I M G) :=
  requests.foldlM (Request.step env) s

@[simp] theorem runRequests_nil : runRequests env s [] = some s :=
  rfl

theorem runRequests_cons (request : Request) (requests : List Request) :
    runRequests env s (request :: requests) =
      (request.step env s).bind fun t => runRequests env t requests :=
  foldlM_cons

end

/-- When a request is regular, as a condition on the state before it: its sector is an
`unsigned int`, and the push of a write is regular. -/
def Request.Safe (s : DmSwornDisk K I M G) : Request → Prop
  | .read bio => bio.sector < 2 ^ 32
  | .write bio => bio.sector < 2 ^ 32 ∧ BioSafe s bio

def RequestsSafe (env : Env K I M G) : DmSwornDisk K I M G → List Request → Prop
  | _, [] => True
  | s, request :: requests =>
    request.Safe s ∧ ∀ t, request.step env s = some t → RequestsSafe env t requests

/-! ## The invariant of a session -/

/-- The sectors written so far are in the plaintexts of mapped addresses. -/
def Holds (written : Nat → Option Sector) (plain : Nat → Block) (s : DmSwornDisk K I M G) : Prop :=
  ∀ sector < 2 ^ 32, ∀ data, written sector = some data →
    (s.lsmTree (sector / sectorsPerBlock)).isSome = true ∧
      plain (sector / sectorsPerBlock) (sectorInBlock sector) = data

/-- Between two requests of a session: everything is in order, no block is stale, the
prefetcher is honest, and what was written is there. -/
structure SessionInv (env : Env K I M G) (written : Nat → Option Sector)
    (s : DmSwornDisk K I M G) : Prop where
  inOrder : ∃ plain, InOrder env plain s ∧ Holds written plain s
  noneStale : ∀ blkaddr, ¬ Stale s blkaddr
  honest : PrefetcherHonest s
  addressable : Addressable s
  enough : s.nrSegment ≤ env.gcFuel

variable {bio : Bio}

theorem bioGetBlockAddress_of_lt (fits : bio.sector < 2 ^ 32) :
    bioGetBlockAddress bio = bio.sector / sectorsPerBlock := by
  rw [bioGetBlockAddress, toUnsignedInt, Nat.mod_eq_of_lt fits]

theorem bioBlockSectorOffset_of_lt (fits : bio.sector < 2 ^ 32) :
    bioBlockSectorOffset bio = bio.sector % sectorsPerBlock := by
  rw [bioBlockSectorOffset, toUnsignedInt, Nat.mod_eq_of_lt fits]

variable {sector : Nat}

theorem bioGetData_sector (bio : Bio)
    (same : sector / sectorsPerBlock = bio.sector / sectorsPerBlock) (base : Block) :
    bioGetData bio.pages (bio.sector % sectorsPerBlock) base (sectorInBlock sector) =
      (bio.sectorData sector).getD (base (sectorInBlock sector)) := by
  unfold bioGetData Bio.sectorData
  unfold sectorsPerBlock at *
  rw [sectorInBlock_val]
  by_cases later : bio.sector ≤ sector
  · rw [if_pos (by omega), if_pos later]
    congr 2
    omega
  · rw [if_neg (by omega), if_neg later]
    rfl

variable {data : Sector}

theorem Bio.sectorData_block (has : bio.sectorData sector = some data) :
    sector / sectorsPerBlock = bio.sector / sectorsPerBlock := by
  unfold Bio.sectorData at has
  split at has
  · obtain ⟨below, -⟩ := List.getElem?_eq_some_iff.mp has
    have inBlock := bio.inBlock
    unfold sectorsPerBlock at *
    omega
  · exact absurd has (by simp)

theorem Bio.sectorData_whole (whole : sectorsPerBlock ≤ bio.pages.length)
    (same : sector / sectorsPerBlock = bio.sector / sectorsPerBlock) :
    bio.sectorData sector ≠ none := by
  have inBlock := bio.inBlock
  unfold Bio.sectorData
  unfold sectorsPerBlock at *
  rw [if_pos (by omega), ne_eq, List.getElem?_eq_none_iff]
  omega

variable {s : DmSwornDisk K I M G} {written : Nat → Option Sector} {plain : Nat → Block}

theorem Holds.write {t : DmSwornDisk K I M G} (holds : Holds written plain s)
    (fits : bio.sector < 2 ^ 32) {base : Block} (frame : PushFrame s t (bioGetBlockAddress bio))
    (current : bio.pages.length < sectorsPerBlock →
      (s.lsmTree (bioGetBlockAddress bio)).isSome = true → base = plain (bioGetBlockAddress bio)) :
    Holds (Request.record written (.write bio))
      (update plain (bioGetBlockAddress bio)
        (bioGetData bio.pages (bioBlockSectorOffset bio) base)) t := by
  rw [bioGetBlockAddress_of_lt fits] at *
  rw [bioBlockSectorOffset_of_lt fits]
  intro sector inside data recorded
  rw [frame.domain]
  by_cases same : sector / sectorsPerBlock = bio.sector / sectorsPerBlock
  · refine ⟨by simp [same], ?_⟩
    rw [same, update_self, bioGetData_sector bio same]
    cases has : bio.sectorData sector with
    | some value => simpa [Request.record, has] using recorded
    | none =>
      have before : written sector = some data := by simpa [Request.record, has] using recorded
      obtain ⟨mapped, stored⟩ := holds sector inside data before
      rw [same] at mapped stored
      have part : bio.pages.length < sectorsPerBlock := by
        by_contra whole
        exact Bio.sectorData_whole (Nat.not_lt.mp whole) same has
      rw [current part mapped]
      exact stored
  · have untouched : bio.sectorData sector = none := by
      by_contra some
      obtain ⟨value, has⟩ := Option.ne_none_iff_exists'.mp some
      exact same (Bio.sectorData_block has)
    have before : written sector = some data := by simpa [Request.record, untouched] using recorded
    obtain ⟨mapped, stored⟩ := holds sector inside data before
    rw [update_of_ne same]
    exact ⟨by simp [mapped], stored⟩

theorem Stale.of_prefetcher {prefetcher : BioPrefetcher G} {blkaddr : Nat}
    (stale : Stale { s with prefetcher := prefetcher } blkaddr) :
    Stale s blkaddr :=
  ⟨stale.bound, stale.bit, stale.unowned, stale.unreserved⟩

variable {env : Env K I M G}

theorem InOrder.withPrefetcher (o : InOrder env plain s) (prefetcher : BioPrefetcher G) :
    InOrder env plain { s with prefetcher := prefetcher } :=
  ⟨o.consistent.congr rfl rfl rfl rfl rfl rfl rfl, ⟨o.aligned.aligned, o.aligned.room⟩,
    ⟨o.sealed.cipher, o.sealed.buffered⟩, o.idle⟩

/-- A regular request returns and keeps the invariant of the session. -/
theorem SessionInv.step (inv : SessionInv env written s) {request : Request}
    (safe : request.Safe s) :
    ∃ t, request.step env s = some t ∧ SessionInv env (request.record written) t := by
  obtain ⟨plain, o, holds⟩ := inv.inOrder
  cases request with
  | read bio =>
    obtain ⟨prefetcher, only⟩ := sworndiskDoRead_snd env s bio
    have honest := o.prefetcherHonest inv.honest inv.addressable bio
    rw [only] at honest
    refine ⟨{ s with prefetcher := prefetcher }, congrArg some only, ?_⟩
    exact ⟨⟨plain, o.withPrefetcher prefetcher, holds⟩,
      fun blkaddr stale => inv.noneStale blkaddr stale.of_prefetcher, honest,
      inv.addressable, inv.enough⟩
  | write bio =>
    obtain ⟨t, base, pushed, inOrder, frame, current, -⟩ := o.pushBio safe.2
      (fun _ _ _ _ blkaddr _ => inv.noneStale blkaddr) inv.enough
    have stored := holds.write safe.1 frame current
    refine ⟨bioPrefetcherClear t, ?_, ⟨_, inOrder.withPrefetcher _, stored⟩, ?_, ⟨?_, ?_⟩, ?_, ?_⟩
    · rw [Request.step, sworndiskDoWrite, pushed, map_some]
    · exact fun blkaddr stale => inv.noneStale blkaddr (frame.stale blkaddr stale.of_prefetcher)
    · change 0 < t.prefetcher.nrFetch
      rw [frame.prefetcher]
      exact inv.honest.positive
    · intro blkaddr _ upper
      exact absurd upper (Nat.not_lt_zero _)
    · change t.nrSegment * sectorsPerSegment ≤ 2 ^ 32
      rw [frame.nrSegment]
      exact inv.addressable
    · change t.nrSegment ≤ env.gcFuel
      rw [frame.nrSegment]
      exact inv.enough

variable {requests : List Request}

theorem SessionInv.run (inv : SessionInv env written s) (safe : RequestsSafe env s requests) :
    ∃ t, runRequests env s requests = some t ∧
      SessionInv env (requests.foldl Request.record written) t := by
  induction requests generalizing s written with
  | nil => exact ⟨s, rfl, inv⟩
  | cons request requests ih =>
    obtain ⟨next, stepped, nextInv⟩ := inv.step safe.1
    obtain ⟨t, ran, done⟩ := ih nextInv (safe.2 next stepped)
    refine ⟨t, ?_, done⟩
    rw [runRequests_cons, stepped, bind_some]
    exact ran

theorem not_stale_firstMount (env : Env K I M G) (nrSegment : Nat) (dataDev : Nat → G)
    (blkaddr : Nat) : ¬ Stale (firstMount env nrSegment dataDev) blkaddr := by
  intro stale
  have bit := stale.bit
  simp only [firstMount, allocSegment] at bit
  rw [dstBit_dstFilled] at bit
  split at bit
  · rename_i segment
    refine stale.unreserved (blockOffsetWithinSegment blkaddr) (by simp [curBlock_firstMount])
      (blockOffset_lt blkaddr) ?_
    change blkaddr = 0 * blocksPerSegment + blockOffsetWithinSegment blkaddr
    rw [← segment, blkaddr_eq]
  · simp [dstBit, loaded, format] at bit

variable {nrSegment : Nat}

theorem sessionInv_firstMount (env : Env K I M G) (dataDev : Nat → G) (positive : 0 < nrSegment)
    (quiet : 1 ≤ gcThreshold nrSegment) (addressable : nrSegment * sectorsPerSegment ≤ 2 ^ 32)
    (enough : nrSegment ≤ env.gcFuel) :
    SessionInv env (fun _ => none) (firstMount env nrSegment dataDev) := by
  refine ⟨⟨fun _ _ _ => 0, inOrder_firstMount env dataDev positive quiet _, ?_⟩,
    not_stale_firstMount env nrSegment dataDev, ⟨Nat.succ_pos 1, ?_⟩, addressable, enough⟩
  · intro sector _ data recorded
    exact absurd recorded (by simp)
  · intro blkaddr _ upper
    exact absurd upper (Nat.not_lt_zero _)

theorem gcThreshold_of_lt (large : 16 < nrSegment)
    (addressable : nrSegment * sectorsPerSegment ≤ 2 ^ 32) :
    gcThreshold nrSegment = nrSegment - 16 := by
  unfold sectorsPerSegment at addressable
  unfold gcThreshold
  omega

variable {i : Nat}

theorem getElem?_bioSetData (block : Block) (offset count : Nat) (inside : i < count) :
    (bioSetData block offset count)[i]? = some (block (sectorInBlock (offset + i))) := by
  simp [bioSetData, inside]

/-- A run of regular requests on a new device returns, with the invariant. -/
theorem sessionInv_of_requestsSafe {dataDev : Nat → G} (large : 16 < nrSegment)
    (addressable : nrSegment * sectorsPerSegment ≤ 2 ^ 32) (enough : nrSegment ≤ env.gcFuel)
    (mounted : mount env (format nrSegment dataDev) = some s) (safe : RequestsSafe env s requests) :
    ∃ t, runRequests env s requests = some t ∧ SessionInv env (latestWrite requests) t := by
  have threshold := gcThreshold_of_lt large addressable
  have positive : 0 < nrSegment := by omega
  have quiet : 1 ≤ gcThreshold nrSegment := by omega
  obtain rfl := some.inj (mounted.symm.trans (mount_format env dataDev positive quiet))
  exact (sessionInv_firstMount env dataDev positive quiet addressable enough).run safe

theorem Holds.of_bio (holds : Holds written plain s) (fits : bio.sector < 2 ^ 32)
    (inside : i < bio.pages.length) (latest : written (bio.sector + i) = some data) :
    (s.lsmTree (bioGetBlockAddress bio)).isSome = true ∧
      plain (bioGetBlockAddress bio) (sectorInBlock (bioBlockSectorOffset bio + i)) = data := by
  have inBlock := bio.inBlock
  have block : (bio.sector + i) / sectorsPerBlock = bioGetBlockAddress bio := by
    rw [bioGetBlockAddress_of_lt fits]
    unfold sectorsPerBlock at *
    omega
  have sectorFits : bio.sector + i < 2 ^ 32 := by
    unfold sectorsPerBlock at *
    omega
  have sector : sectorInBlock (bioBlockSectorOffset bio + i) = sectorInBlock (bio.sector + i) := by
    rw [bioBlockSectorOffset_of_lt fits]
    apply Fin.ext
    simp only [sectorInBlock_val]
    unfold sectorsPerBlock
    omega
  rw [sector, ← block]
  exact holds (bio.sector + i) sectorFits data latest

/-- After any run of regular requests on a new device, a read returns for every sector
the data of the latest write. -/
theorem sworndiskDoRead_eq_latestWrite {env : Env K I M G} {nrSegment : Nat} {dataDev : Nat → G}
    {s : DmSwornDisk K I M G} {requests : List Request} (large : 16 < nrSegment)
    (addressable : nrSegment * sectorsPerSegment ≤ 2 ^ 32) (enough : nrSegment ≤ env.gcFuel)
    (mounted : mount env (format nrSegment dataDev) = some s)
    (safe : RequestsSafe env s requests) :
    ∃ t, runRequests env s requests = some t ∧
      ∀ bio : Bio, bio.sector < 2 ^ 32 → ∀ i < bio.pages.length, ∀ data,
        latestWrite requests (bio.sector + i) = some data →
          (sworndiskDoRead env t bio).1.pages[i]? = some data ∧
            (sworndiskDoRead env t bio).1.status = .ok := by
  obtain ⟨t, ran, inv⟩ := sessionInv_of_requestsSafe large addressable enough mounted safe
  refine ⟨t, ran, ?_⟩
  intro bio fits i inside data latest
  obtain ⟨plain, o, holds⟩ := inv.inOrder
  obtain ⟨mapped, stored⟩ := holds.of_bio fits inside latest
  rw [o.doRead inv.honest inv.addressable mapped]
  refine ⟨?_, rfl⟩
  simp only
  rw [getElem?_bioSetData _ _ _ inside, stored]

/-! ## Whole blocks on a new device -/

/-- A bio of the whole block `lba`. -/
def blockBio (lba : Nat) (block : Block) : Bio where
  sector := lba * sectorsPerBlock
  pages := List.ofFn block
  nonempty := by simp
  inBlock := by simp [sectorsPerBlock]

theorem bioGetData_blockBio (lba : Nat) (block base : Block) :
    bioGetData (blockBio lba block).pages (bioBlockSectorOffset (blockBio lba block)) base =
      block := by
  have offset : bioBlockSectorOffset (blockBio lba block) = 0 := by
    have inside := bioBlockSectorOffset_add_le (blockBio lba block)
    simp only [blockBio, length_ofFn, sectorsPerBlock] at inside ⊢
    omega
  have page : ∀ i : Fin 8, (blockBio lba block).pages[i.val]? = some (block i) := fun i => by
    simp only [blockBio, List.getElem?_ofFn, i.isLt, dif_pos]
  funext i
  simp only [bioGetData, offset, Nat.zero_le, if_true, Nat.sub_zero, page, getD_some]

theorem modifiesBuffer_blockBio (s : DmSwornDisk K I M G) (lba : Nat) (block : Block) :
    modifiesBuffer s (blockBio lba block) = false := by
  have whole : ¬ (blockBio lba block).pages.length < sectorsPerBlock := by
    simp [blockBio, sectorsPerBlock]
  unfold modifiesBuffer
  split
  · simp [whole]
  · rfl

/-- The state after a whole block was written to the next slot of the buffer. -/
def wroteBlock (env : Env K I M G) (s : DmSwornDisk K I M G) (lba : Nat) (block : Block) :
    DmSwornDisk K I M G :=
  bioPrefetcherClear (bumpBuffer (loggedBlock env (fillSlot s block) lba block))

theorem InOrder.wroteBlock (o : InOrder env plain s)
    (logged : sworndiskShouldThreadedLogging s = false) (room : curBlock s + 1 < blocksPerSegment)
    (lba : Nat) (block : Block) :
    sworndiskDoWrite env s (blockBio lba block) =
        some (wroteBlock env s (bioGetBlockAddress (blockBio lba block)) block) ∧
      InOrder env (update plain (bioGetBlockAddress (blockBio lba block)) block)
        (wroteBlock env s (bioGetBlockAddress (blockBio lba block)) block) := by
  obtain ⟨pushed, inOrder⟩ := (o.fillSlot block).push_room (saForegroundGc env)
    (bioGetBlockAddress_lt (blockBio lba block)) logged room block
  refine ⟨?_, inOrder.withPrefetcher _⟩
  rw [sworndiskDoWrite, segbufPushBio_fill env (modifiesBuffer_blockBio s lba block), fillBuffer,
    bioGetData_blockBio]
  exact congrArg (Option.map bioPrefetcherClear) pushed

section

variable (env : Env K I M G) (s : DmSwornDisk K I M G)

theorem wroteBlock_keeps (lba : Nat) (block : Block) :
    (wroteBlock env s lba block).segAllocator = s.segAllocator ∧
      (wroteBlock env s lba block).nrSegment = s.nrSegment ∧
      (wroteBlock env s lba block).segBuffer.curSegment = s.segBuffer.curSegment ∧
      curBlock (wroteBlock env s lba block) = curBlock s + 1 :=
  ⟨loggedBlock_segAllocator env (fillSlot s block) lba block,
    loggedBlock_nrSegment env (fillSlot s block) lba block,
    loggedBlock_curSegment env (fillSlot s block) lba block,
    (curBlock_bumpBuffer (loggedBlock env (fillSlot s block) lba block)).trans
      (congrArg (· + 1) (curBlock_loggedBlock env (fillSlot s block) lba block))⟩

theorem wroteBlock_lsmTree {lba : Nat} (key : lba < 2 ^ 32) (block : Block) :
    (wroteBlock env s lba block).lsmTree lba =
      some (newRecord env s (slotAddr s (curBlock s)) block) := by
  change (loggedBlock env (fillSlot s block) lba block).lsmTree lba = _
  rw [loggedBlock_lsmTree env _ key, update_self]
  rfl

theorem modifiesBuffer_wroteBlock (room : curBlock s + 1 < blocksPerSegment) (bio : Bio)
    (part : bio.pages.length < sectorsPerBlock) (block : Block) :
    modifiesBuffer (wroteBlock env s (bioGetBlockAddress bio) block) bio = true := by
  have key := bioGetBlockAddress_lt bio
  obtain ⟨-, -, segment, blocks⟩ := wroteBlock_keeps env s (bioGetBlockAddress bio) block
  have mapped := wroteBlock_lsmTree env s key block
  generalize wroteBlock env s (bioGetBlockAddress bio) block = t at *
  have slot := Nat.lt_of_succ_lt room
  have inside : inSegmentBuffer t (newRecord env s (slotAddr s (curBlock s)) block).pba = true := by
    rw [inSegmentBuffer_iff (by omega), segment, blocks]
    exact ⟨slotAddr_segment slot, (slotAddr_offset slot).trans_lt (Nat.lt_succ_self _)⟩
  have found : lsmSearch t (bioGetBlockAddress bio) =
      some (newRecord env s (slotAddr s (curBlock s)) block) := by
    rw [lsmSearch, lsmKey_of_lt key, mapped]
  simp only [modifiesBuffer, found, part, inside, decide_true, Bool.and_true]

end

/-- The writes of the addresses below `n`. -/
def firstBios (data : Nat → Block) (n : Nat) : List Bio :=
  (List.range n).map fun lba => blockBio lba (data lba)

theorem firstBios_succ (data : Nat → Block) (n : Nat) :
    firstBios data (n + 1) = firstBios data n ++ [blockBio n (data n)] := by
  rw [firstBios, range_succ, map_append]
  rfl

theorem length_firstBios (data : Nat → Block) (n : Nat) : (firstBios data n).length = n := by
  rw [firstBios, length_map, length_range]

theorem sector_lt_of_mem_firstBios {data : Nat → Block} {n : Nat} (small : n ≤ 2 ^ 29)
    (member : bio ∈ firstBios data n) : bio.sector < 2 ^ 32 := by
  obtain ⟨lba, below, rfl⟩ := mem_map.mp member
  have inside := mem_range.mp below
  simp only [blockBio, sectorsPerBlock]
  omega

theorem sectorData_blockBio {lba sector : Nat} (same : sector / sectorsPerBlock = lba)
    (block : Block) :
    (blockBio lba block).sectorData sector = some (block (sectorInBlock sector)) := by
  have bounds : lba * 8 ≤ sector ∧ sector - lba * 8 < 8 := by
    unfold sectorsPerBlock at same
    omega
  change (if lba * 8 ≤ sector then (List.ofFn block)[sector - lba * 8]? else none) = _
  rw [if_pos bounds.1, List.getElem?_ofFn, dif_pos bounds.2]
  congr 2
  apply Fin.ext
  rw [sectorInBlock_val]
  simp only
  omega

/-- What was written last after the addresses below `n` were written in order. -/
theorem latestWrite_firstBios (data : Nat → Block) (n sector : Nat) :
    latestWrite ((firstBios data n).map .write) sector =
      if sector / sectorsPerBlock < n then
        some (data (sector / sectorsPerBlock) (sectorInBlock sector))
      else none := by
  induction n with
  | zero => simp [firstBios, latestWrite]
  | succ n ih =>
    rw [firstBios_succ, map_append, latestWrite, foldl_append, ← latestWrite]
    change ((blockBio n (data n)).sectorData sector).or
      (latestWrite ((firstBios data n).map .write) sector) = _
    rw [ih]
    have block : (blockBio n (data n)).sector / sectorsPerBlock = n :=
      Nat.mul_div_cancel n (by decide)
    by_cases same : sector / sectorsPerBlock = n
    · rw [sectorData_blockBio same, same, if_pos n.lt_succ_self]
      rfl
    · have untouched : (blockBio n (data n)).sectorData sector = none := by
        refine Option.eq_none_iff_forall_ne_some.mpr fun page has => same ?_
        rw [Bio.sectorData_block has, block]
      have bounds : sector / sectorsPerBlock < n + 1 ↔ sector / sectorsPerBlock < n := by omega
      rw [untouched, Option.none_or]
      simp only [bounds]

namespace Sparse

variable {budget : Nat}

theorem write (sparse : Sparse env (budget + 1) s) (bio : Bio) :
    ∃ t, sworndiskDoWrite env s bio = some t ∧ Sparse env budget t := by
  obtain ⟨t, pushed, left⟩ := sparse.pushBio bio
  obtain ⟨plain, o⟩ := left.inOrder
  refine ⟨bioPrefetcherClear t, by rw [sworndiskDoWrite, pushed, map_some],
    { left with inOrder := ⟨plain, o.withPrefetcher _⟩ }⟩

theorem requestsSafe {bios : List Bio} (sparse : Sparse env bios.length s)
    (fits : ∀ bio ∈ bios, bio.sector < 2 ^ 32) : RequestsSafe env s (bios.map .write) := by
  induction bios generalizing s with
  | nil => trivial
  | cons bio bios ih =>
    refine ⟨⟨fits bio mem_cons_self, sparse.bioSafe bio⟩, fun t stepped => ?_⟩
    obtain ⟨next, wrote, left⟩ := sparse.write bio
    obtain rfl := some.inj (wrote.symm.trans stepped)
    exact ih left fun other member => fits other (mem_cons_of_mem _ member)

end Sparse

theorem requestsSafe_fill (data : Nat → Block) {n : Nat} (small : n ≤ 2 * blocksPerSegment) :
    ∃ s requests, mount plainEnv (format 64 fun _ => zeroBlock) = some s ∧
      requests = (firstBios data n).map .write ∧ RequestsSafe plainEnv s requests := by
  have room : Sparse plainEnv (2 * blocksPerSegment) (firstMount plainEnv 64 fun _ => zeroBlock) :=
    sparse_firstMount plainEnv _ (by decide) (by decide) (by decide) (by decide)
  have sparse := room.mono small
  rw [← length_firstBios data n] at sparse
  refine ⟨_, _, mount_plainEnv, rfl, sparse.requestsSafe fun bio member =>
    sector_lt_of_mem_firstBios ?_ member⟩
  unfold blocksPerSegment at small
  omega

def numberBlock (number : Nat) : Block := fun _ _ => UInt8.ofNat number

/-- On a new device of 64 segments, 1025 blocks are written: the first 1024 are flushed.
All of them are read back. -/
theorem sworndiskDoRead_filled :
    ∃ s t, mount plainEnv (format 64 fun _ => zeroBlock) = some s ∧
      runRequests plainEnv s ((firstBios numberBlock 1025).map .write) = some t ∧
      ∀ lba < 1025, ∀ i : Fin 8,
        (sworndiskDoRead plainEnv t (blockBio lba zeroBlock)).1.pages[i.val]? =
          some (numberBlock lba i) := by
  have small : 1025 ≤ 2 * blocksPerSegment := by decide
  obtain ⟨s, requests, mounted, filled, safe⟩ := requestsSafe_fill numberBlock small
  obtain ⟨t, ran, reads⟩ := sworndiskDoRead_eq_latestWrite (by decide) (by decide) (by decide)
    mounted safe
  refine ⟨s, t, mounted, filled ▸ ran, fun lba below i => ?_⟩
  have fits : lba * sectorsPerBlock + i < 2 ^ 32 := by
    have inBlock := i.isLt
    unfold sectorsPerBlock
    omega
  have block : (lba * sectorsPerBlock + i) / sectorsPerBlock = lba := by
    have inBlock := i.isLt
    unfold sectorsPerBlock
    omega
  have sector : sectorInBlock (lba * sectorsPerBlock + i) = i := by
    apply Fin.ext
    have inBlock := i.isLt
    rw [sectorInBlock_val]
    unfold sectorsPerBlock
    omega
  have latest := latestWrite_firstBios numberBlock 1025 (lba * sectorsPerBlock + i)
  rw [← filled, block, if_pos below, sector] at latest
  exact (reads (blockBio lba zeroBlock) (Nat.lt_of_le_of_lt (Nat.le_add_right _ _) fits) i.val
    (by simp [blockBio]) _ latest).1

def oneBlock : Block := fun _ _ => 1

/-- A write beyond sector `2 ^ 32` of a larger device lands in the block at its start. -/
theorem sworndiskDoRead_truncated :
    ∃ s t, mount plainEnv (format 524289 fun _ => zeroBlock) = some s ∧
      runRequests plainEnv s
        [.write (blockBio 0 zeroBlock), .write (blockBio 536870912 oneBlock)] = some t ∧
      latestWrite [.write (blockBio 0 zeroBlock), .write (blockBio 536870912 oneBlock)] 0 =
        some (zeroBlock 0) ∧
      (sworndiskDoRead plainEnv t (blockBio 0 zeroBlock)).1.pages[0]? ≠ some (zeroBlock 0) := by
  have positive : 0 < 524289 := by decide
  have quiet : 1 ≤ gcThreshold 524289 := by decide
  have mounted := mount_format plainEnv (fun _ => zeroBlock) positive quiet
  have start := inOrder_firstMount plainEnv (fun _ => zeroBlock) positive quiet fun _ => zeroBlock
  have few := firstMount_few plainEnv (fun _ => zeroBlock)
    (by decide : 1 < threadedThreshold 524289)
  have blocks := curBlock_firstMount plainEnv 524289 fun _ => zeroBlock
  have segment : (firstMount plainEnv 524289 fun _ => zeroBlock).segBuffer.curSegment = 0 := rfl
  have nrSegment : (firstMount plainEnv 524289 fun _ => zeroBlock).nrSegment = 524289 := rfl
  generalize firstMount plainEnv 524289 (fun _ => zeroBlock) = s at *
  obtain ⟨firstWrite, firstOrder⟩ := start.wroteBlock (if_pos (nrSegment ▸ few))
    (by rw [blocks]; decide) 0 zeroBlock
  have zeroAddress : bioGetBlockAddress (blockBio 0 zeroBlock) = 0 := by decide
  have wrapped : bioGetBlockAddress (blockBio 536870912 oneBlock) = 0 := by decide
  rw [zeroAddress] at firstWrite firstOrder
  obtain ⟨allocatorSame, nrSame, segmentSame, blocksNext⟩ :=
    wroteBlock_keeps plainEnv s 0 zeroBlock
  obtain ⟨secondWrite, secondOrder⟩ := firstOrder.wroteBlock
    (if_pos (by rw [allocatorSame, nrSame, nrSegment]; exact few))
    (by rw [blocksNext, blocks]; decide) 536870912 oneBlock
  rw [wrapped] at secondWrite secondOrder
  have mapped := wroteBlock_lsmTree plainEnv (wroteBlock plainEnv s 0 zeroBlock)
    (Nat.two_pow_pos 32) oneBlock
  obtain ⟨-, -, lastSegment, lastBlocks⟩ :=
    wroteBlock_keeps plainEnv (wroteBlock plainEnv s 0 zeroBlock) 0 oneBlock
  have slot : slotAddr (wroteBlock plainEnv s 0 zeroBlock)
      (curBlock (wroteBlock plainEnv s 0 zeroBlock)) = 1 := by
    rw [slotAddr, segmentSame, segment, blocksNext, blocks, Nat.zero_mul]
  generalize wroteBlock plainEnv s 0 zeroBlock = u at *
  have buffered : inSegmentBuffer (wroteBlock plainEnv u 0 oneBlock) 1 = true := by
    rw [inSegmentBuffer, lastSegment, segmentSame, segment, lastBlocks, blocksNext, blocks]
    decide
  refine ⟨s, wroteBlock plainEnv u 0 oneBlock, mounted, ?_, rfl, ?_⟩
  · rw [runRequests_cons, Request.step, firstWrite, bind_some, runRequests_cons,
      Request.step, secondWrite, bind_some, runRequests_nil]
  · have record : (wroteBlock plainEnv u 0 oneBlock).lsmTree
        (bioGetBlockAddress (blockBio 0 zeroBlock)) =
          some (newRecord plainEnv u (slotAddr u (curBlock u)) oneBlock) := by
      rw [zeroAddress]
      exact mapped
    have sector :
        toUnsignedInt (1 * sectorsPerBlock + bioBlockSectorOffset (blockBio 0 zeroBlock)) =
          1 * sectorsPerBlock + bioBlockSectorOffset (blockBio 0 zeroBlock) := by decide
    rw [slot] at record mapped
    have read := sworndiskDoRead_mapped plainEnv secondOrder.aligned record sector
    have here : inSegmentBuffer (wroteBlock plainEnv u 0 oneBlock)
        (newRecord plainEnv u 1 oneBlock).pba = true := buffered
    rw [if_pos here, secondOrder.slot_eq mapped here] at read
    rw [read]
    simp only
    rw [getElem?_bioSetData _ _ _ (by decide), update_self]
    intro equal
    have byte := congrFun (some.inj equal) 0
    exact absurd byte (by decide)

end SwornDisk.C
