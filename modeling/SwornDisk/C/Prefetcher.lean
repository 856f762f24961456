import SwornDisk.C.Gc
import SwornDisk.C.Target

/-!
# The prefetcher

`bio_prefetcher_get` answers from a range of blocks that it read earlier, and changes the
size of the next range with every call; `sworndisk_do_write` forgets the range.  Over every
interleaving of the two, a block from the prefetcher is the block that the data path would
read at that moment, and no range passes the end of the device.
-/

namespace SwornDisk.C

open List Option

variable {K I M G : Type}

/-- The prefetcher and the number of segments are the same before and after. -/
structure LeavesPrefetcher (s t : DmSwornDisk K I M G) : Prop where
  prefetcher : t.prefetcher = s.prefetcher
  nrSegment : t.nrSegment = s.nrSegment

variable {victim : Victim} {scan scan' : GcScan K I M G} {bio : Bio}

namespace LeavesPrefetcher

variable {env : Env K I M G} {s t u : DmSwornDisk K I M G}
  {gc : DmSwornDisk K I M G → Option (DmSwornDisk K I M G)}

theorem refl (s : DmSwornDisk K I M G) : LeavesPrefetcher s s := ⟨rfl, rfl⟩

theorem trans (first : LeavesPrefetcher s t) (second : LeavesPrefetcher t u) :
    LeavesPrefetcher s u :=
  ⟨second.prefetcher.trans first.prefetcher, second.nrSegment.trans first.nrSegment⟩

theorem returnOld (s : DmSwornDisk K I M G) (lba : Nat) :
    LeavesPrefetcher s (C.returnOld s lba) := by
  unfold C.returnOld
  split <;> exact ⟨rfl, rfl⟩

theorem nextBlock (s : DmSwornDisk K I M G) (threadedLogging : Bool) :
    LeavesPrefetcher s (C.nextBlock s threadedLogging).2 := by
  unfold C.nextBlock
  split
  · split <;> exact ⟨rfl, rfl⟩
  · exact refl s

theorem sealBlock (env : Env K I M G) (s : DmSwornDisk K I M G) (lba pba : Nat) (data : Block) :
    LeavesPrefetcher s (C.sealBlock env s lba pba data) := by
  unfold C.sealBlock
  exact ⟨rfl, rfl⟩

section

variable (collects : ∀ {u v}, gc u = some v → LeavesPrefetcher u v)
include collects

theorem saAlloc {result : Except Errno Unit × DmSwornDisk K I M G}
    (alloc : C.saAlloc gc s = some result) : LeavesPrefetcher s result.2 := by
  simp only [C.saAlloc_steps] at alloc
  split at alloc
  · obtain rfl := some.inj alloc
    exact ⟨rfl, rfl⟩
  · split at alloc
    · obtain rfl := some.inj alloc
      exact ⟨rfl, rfl⟩
    · split at alloc
      · obtain rfl := some.inj alloc
        exact ⟨rfl, rfl⟩
      · split at alloc
        · obtain ⟨collected, run, rfl⟩ := map_eq_some_iff.mp alloc
          exact ⟨(collects run).prefetcher, (collects run).nrSegment⟩
        · obtain rfl := some.inj alloc
          exact ⟨rfl, rfl⟩

theorem advanceBuffer (advance : C.advanceBuffer gc s = some t) : LeavesPrefetcher s t := by
  simp only [C.advanceBuffer] at advance
  split at advance
  · obtain ⟨result, alloc, rfl⟩ := map_eq_some_iff.mp advance
    have allocated := saAlloc collects alloc
    exact ⟨allocated.prefetcher, allocated.nrSegment⟩
  · obtain rfl := some.inj advance
    exact ⟨rfl, rfl⟩

theorem pushed {threadedLogging : Bool} {dataDev : Nat → G}
    (push : (if threadedLogging then some { s with dataDev := dataDev }
      else C.advanceBuffer gc s) = some t) : LeavesPrefetcher s t := by
  cases threadedLogging with
  | true =>
    obtain rfl := some.inj push
    exact ⟨rfl, rfl⟩
  | false => exact advanceBuffer collects push

theorem segbufPushBlock {lba : Nat} {data : Block}
    (push : C.segbufPushBlock env gc s lba data = some t) : LeavesPrefetcher s t := by
  unfold C.segbufPushBlock at push
  dsimp only at push
  have placed := (returnOld s lba).trans
    (nextBlock (C.returnOld s lba) (sworndiskShouldThreadedLogging s))
  generalize C.nextBlock (C.returnOld s lba) (sworndiskShouldThreadedLogging s) = next
    at push placed
  have stored := placed.trans (sealBlock env next.2 lba next.1 data)
  generalize C.sealBlock env next.2 lba next.1 data = sealed at push stored
  exact stored.trans (pushed collects push)

end

/-! The collection, which pushes the blocks of its victims. -/

theorem gcBlock {offset : Nat} (step : C.gcBlock env victim scan offset = some scan') :
    LeavesPrefetcher scan.state scan'.state := by
  have reading := gcReadRegion_state victim scan offset
  simp only [C.gcBlock] at step
  split at step
  · obtain rfl := some.inj step
    rw [reading]
    exact refl _
  · obtain ⟨pushed, push, rfl⟩ := map_eq_some_iff.mp step
    rw [← reading]
    exact segbufPushBlock (fun run => absurd run (by simp)) push

theorem gcBlocks {offsets : List Nat}
    (run : offsets.foldlM (C.gcBlock env victim) scan = some scan') :
    LeavesPrefetcher scan.state scan'.state := by
  induction offsets generalizing scan with
  | nil =>
    obtain rfl := some.inj run
    exact refl _
  | cons offset offsets ih =>
    rw [foldlM_cons] at run
    obtain ⟨next, step, rest⟩ := Option.bind_eq_some_iff.mp run
    exact (gcBlock step).trans (ih rest)

theorem gcScanVictim (scanned : C.gcScanVictim env victim s = some t) :
    LeavesPrefetcher s t := by
  unfold C.gcScanVictim at scanned
  split at scanned
  · obtain ⟨last, run, rfl⟩ := map_eq_some_iff.mp scanned
    exact gcBlocks run
  · obtain rfl := some.inj scanned
    exact refl _

theorem mountScanVictim (scanned : C.mountScanVictim victim s = some t) :
    LeavesPrefetcher s t := by
  have same : s = t := by
    unfold C.mountScanVictim at scanned
    grind
  exact same ▸ refl s

theorem gcReclaim (victim : Victim) (clean : Nat) (s : DmSwornDisk K I M G) :
    LeavesPrefetcher s (C.gcReclaim victim clean s).2 := by
  unfold C.gcReclaim
  split <;> exact ⟨rfl, rfl⟩

theorem gcLoop {scanVictim : Victim → DmSwornDisk K I M G → Option (DmSwornDisk K I M G)}
    (scans : ∀ {victim u v}, scanVictim victim u = some v → LeavesPrefetcher u v)
    {fuel clean : Nat} (loop : C.gcLoop scanVictim fuel clean s = some t) :
    LeavesPrefetcher s t := by
  induction fuel generalizing clean s with
  | zero =>
    rw [C.gcLoop] at loop
    split at loop
    · obtain rfl := some.inj loop
      exact refl _
    · split at loop
      · exact absurd loop (by simp)
      · obtain rfl := some.inj loop
        exact refl _
  | succ fuel ih =>
    rw [C.gcLoop] at loop
    split at loop
    · obtain rfl := some.inj loop
      exact refl _
    · split at loop
      · obtain ⟨scanned, scan, rest⟩ := Option.bind_eq_some_iff.mp loop
        exact ((scans scan).trans (gcReclaim _ _ _)).trans (ih rest)
      · obtain rfl := some.inj loop
        exact refl _

theorem saForegroundGc (run : C.saForegroundGc env s = some t) : LeavesPrefetcher s t := by
  obtain ⟨last, loop, rfl⟩ := map_eq_some_iff.mp run
  have looped := gcLoop gcScanVictim loop
  exact ⟨looped.prefetcher, looped.nrSegment⟩

theorem mountForegroundGc (run : C.mountForegroundGc env s = some t) :
    LeavesPrefetcher s t := by
  obtain ⟨last, loop, rfl⟩ := map_eq_some_iff.mp run
  have looped := gcLoop mountScanVictim loop
  exact ⟨looped.prefetcher, looped.nrSegment⟩

theorem fillBuffer {block : Block} (filled : C.fillBuffer env s bio block = some t) :
    LeavesPrefetcher s t := by
  simp only [C.fillBuffer] at filled
  have pushed := segbufPushBlock saForegroundGc filled
  exact ⟨pushed.prefetcher, pushed.nrSegment⟩

theorem segbufPushBio (push : C.segbufPushBio env s bio = some t) :
    LeavesPrefetcher s t := by
  simp only [C.segbufPushBio] at push
  split at push
  · exact fillBuffer push
  · split at push
    · split at push
      · obtain rfl := some.inj push
        exact ⟨rfl, rfl⟩
      · exact fillBuffer push
    · exact fillBuffer push

end LeavesPrefetcher

/-- `NR_SEGMENT * BLOCKS_PER_SEGMENT`, a product of type `size_t`. -/
def deviceBlocks (s : DmSwornDisk K I M G) : Nat := s.nrSegment * blocksPerSegment % 2 ^ 64

structure PrefetcherHonest (s : DmSwornDisk K I M G) : Prop where
  positive : 0 < s.prefetcher.nrFetch
  holds : ∀ blkaddr, s.prefetcher.first ≤ blkaddr → blkaddr < s.prefetcher.last →
    s.prefetcher.buffer (blkaddr - s.prefetcher.first) = sworndiskReadBlock s blkaddr

/-- The range is at most `MAX_NR_FETCH` blocks of the device, and the next one is at least
`MIN_NR_FETCH + 1` and at most `MAX_NR_FETCH` blocks long. -/
structure PrefetcherInBounds (s : DmSwornDisk K I M G) : Prop where
  least : minNrFetch + 1 ≤ s.prefetcher.nrFetch
  most : s.prefetcher.nrFetch ≤ maxNrFetch
  ordered : s.prefetcher.first ≤ s.prefetcher.last
  length : s.prefetcher.last - s.prefetcher.first ≤ maxNrFetch
  inside : s.prefetcher.last ≤ deviceBlocks s

variable {s : DmSwornDisk K I M G} {blkaddr : Nat}

theorem remainBlock_eq (inside : blkaddr < deviceBlocks s) :
    sizeSub (s.nrSegment * blocksPerSegment) blkaddr = deviceBlocks s - blkaddr := by
  unfold deviceBlocks at *
  unfold sizeSub
  omega

theorem PrefetcherHonest.get (honest : PrefetcherHonest s) (inside : blkaddr < deviceBlocks s) :
    (bioPrefetcherGet s blkaddr).1 = sworndiskReadBlock s blkaddr ∧
      PrefetcherHonest (bioPrefetcherGet s blkaddr).2 := by
  have positive := honest.positive
  unfold bioPrefetcherGet
  by_cases hit : s.prefetcher.first ≤ blkaddr ∧ blkaddr < s.prefetcher.last
  · simp only [hit, and_self, if_true]
    refine ⟨honest.holds blkaddr hit.1 hit.2, ?_, honest.holds⟩
    simp only
    unfold maxNrFetch
    split <;> omega
  · simp only [hit, if_false, remainBlock_eq inside]
    have fetched : 0 < min s.prefetcher.nrFetch (deviceBlocks s - blkaddr) :=
      lt_min positive (Nat.sub_pos_of_lt inside)
    refine ⟨?_, ?_, ?_⟩
    · rw [Nat.sub_self, if_pos fetched, Nat.add_zero]
    · simp only
      split
      · exact lt_of_lt_of_le (Nat.succ_pos 1) (le_max_right _ _)
      · exact positive
    · intro other lower upper
      simp only at lower upper ⊢
      rw [if_pos (by omega), Nat.add_sub_cancel' lower]
      rfl

/-- A hit keeps the range and at most doubles the size of the next one; a miss fetches what
is left of the device at most, and at most halves the size of the next range. -/
theorem PrefetcherInBounds.get (bounds : PrefetcherInBounds s) (inside : blkaddr < deviceBlocks s) :
    PrefetcherInBounds (bioPrefetcherGet s blkaddr).2 := by
  have least := bounds.least
  have most := bounds.most
  unfold minNrFetch maxNrFetch at *
  unfold bioPrefetcherGet
  by_cases hit : s.prefetcher.first ≤ blkaddr ∧ blkaddr < s.prefetcher.last
  · simp only [hit, and_self, if_true]
    constructor
    · show 2 ≤ ite _ _ _
      unfold maxNrFetch
      split <;> omega
    · show ite _ _ _ ≤ 64
      unfold maxNrFetch
      split <;> omega
    · exact bounds.ordered
    · exact bounds.length
    · exact bounds.inside
  · simp only [hit, if_false, remainBlock_eq inside]
    constructor
    · show 2 ≤ ite _ _ _
      unfold minNrFetch
      split <;> omega
    · show ite _ _ _ ≤ 64
      unfold minNrFetch
      split <;> omega
    · exact Nat.le_add_right _ _
    · show blkaddr + _ - blkaddr ≤ 64
      omega
    · show blkaddr + _ ≤ deviceBlocks s
      omega

/-- What the prefetcher sees of the requests: the blocks that reads ask it for, and the
writes. -/
inductive PrefetchEvent where
  | get (blkaddr : Nat)
  | write (bio : Bio)

namespace PrefetchEvent

/-- Readers hold the lock of the prefetcher, and a writer excludes them all. -/
def step (env : Env K I M G) (s : DmSwornDisk K I M G) :
    PrefetchEvent → Option (DmSwornDisk K I M G)
  | .get blkaddr => some (bioPrefetcherGet s blkaddr).2
  | .write bio => sworndiskDoWrite env s bio

def InRange (s : DmSwornDisk K I M G) : PrefetchEvent → Prop
  | .get blkaddr => blkaddr < deviceBlocks s
  | .write _ => True

end PrefetchEvent

def runPrefetcher (env : Env K I M G) (s : DmSwornDisk K I M G) (events : List PrefetchEvent) :
    Option (DmSwornDisk K I M G) :=
  events.foldlM (PrefetchEvent.step env) s

structure PrefetcherInv (s : DmSwornDisk K I M G) : Prop where
  honest : PrefetcherHonest s
  bounds : PrefetcherInBounds s

theorem PrefetcherInv.of_empty (first : s.prefetcher.first = 0) (last : s.prefetcher.last = 0)
    (least : minNrFetch + 1 ≤ s.prefetcher.nrFetch) (most : s.prefetcher.nrFetch ≤ maxNrFetch) :
    PrefetcherInv s := by
  constructor
  · constructor
    · exact lt_of_lt_of_le (Nat.succ_pos minNrFetch) least
    · intro blkaddr _ below
      exact absurd (last ▸ below) (Nat.not_lt_zero blkaddr)
  · constructor
    · exact least
    · exact most
    · exact first ▸ Nat.zero_le _
    · exact last ▸ Nat.sub_le_of_le_add (Nat.zero_le _)
    · exact last ▸ Nat.zero_le _

variable {env : Env K I M G}

theorem PrefetcherInv.mount {base : DmSwornDisk K I M G} (mounted : C.mount env base = some s) :
    PrefetcherInv s := by
  simp only [C.mount] at mounted
  split at mounted
  case h_1 allocated alloc =>
    obtain rfl := some.inj mounted
    have same := (LeavesPrefetcher.saAlloc LeavesPrefetcher.mountForegroundGc alloc).prefetcher
    apply of_empty
    · exact congrArg BioPrefetcher.first same
    · exact congrArg BioPrefetcher.last same
    · exact (congrArg BioPrefetcher.nrFetch same).ge
    · exact (congrArg BioPrefetcher.nrFetch same).le.trans
        (show minNrFetch + 1 ≤ maxNrFetch by decide)
  case h_2 => exact absurd mounted (by simp)

variable {t : DmSwornDisk K I M G}

theorem PrefetcherInv.step {event : PrefetchEvent} (inv : PrefetcherInv s)
    (inRange : event.InRange s) (step : event.step env s = some t) :
    PrefetcherInv t ∧ t.nrSegment = s.nrSegment := by
  cases event with
  | get blkaddr =>
    obtain rfl := some.inj step
    exact ⟨⟨(inv.honest.get inRange).2, inv.bounds.get inRange⟩, rfl⟩
  | write bio =>
    obtain ⟨pushed, push, rfl⟩ := map_eq_some_iff.mp step
    have leaves := LeavesPrefetcher.segbufPushBio push
    have same := congrArg BioPrefetcher.nrFetch leaves.prefetcher
    constructor
    · exact of_empty rfl rfl (inv.bounds.least.trans same.ge) (same.le.trans inv.bounds.most)
    · exact leaves.nrSegment

theorem PrefetcherInv.run {events : List PrefetchEvent} (inv : PrefetcherInv s)
    (inRange : ∀ event ∈ events, event.InRange s) (run : runPrefetcher env s events = some t) :
    PrefetcherInv t := by
  induction events generalizing s with
  | nil =>
    obtain rfl := some.inj run
    exact inv
  | cons event events ih =>
    obtain ⟨next, step, rest⟩ := Option.bind_eq_some_iff.mp run
    obtain ⟨kept, nrSegment⟩ := inv.step (inRange event mem_cons_self) step
    apply ih kept _ rest
    intro later member
    have before := inRange later (mem_cons_of_mem event member)
    cases later with
    | get blkaddr =>
      unfold PrefetchEvent.InRange deviceBlocks at *
      rw [nrSegment]
      exact before
    | write bio => exact before

/-- After any interleaving of reads and writes of a mounted device, the prefetcher hands out
the block that the data path reads at that moment, and it is within its bounds before and
after it does. -/
theorem prefetcher_transparent {env : Env K I M G} {base s t : DmSwornDisk K I M G}
    {events : List PrefetchEvent} (mounted : mount env base = some s)
    (inRange : ∀ event ∈ events, event.InRange s) (run : runPrefetcher env s events = some t) :
    PrefetcherInBounds t ∧
      ∀ blkaddr < deviceBlocks t,
        (bioPrefetcherGet t blkaddr).1 = sworndiskReadBlock t blkaddr ∧
          PrefetcherInBounds (bioPrefetcherGet t blkaddr).2 := by
  have inv := (PrefetcherInv.mount mounted).run inRange run
  constructor
  · exact inv.bounds
  · intro blkaddr inside
    exact ⟨(inv.honest.get inside).1, inv.bounds.get inside⟩

/-- A write of the first block of the device, by its first sector. -/
def prefetchedBio : Bio where
  sector := 0
  pages := [fun _ => 1]
  nonempty := List.cons_ne_nil _ _
  inBlock := by decide

/-- A block that was read ahead is written and read again. -/
theorem prefetcher_transparent_rewritten :
    ∃ s t, mount plainEnv (format 64 fun _ => zeroBlock) = some s ∧
      runPrefetcher plainEnv s [.get 0, .get 1, .write prefetchedBio] = some t ∧
      PrefetcherInBounds t ∧ (bioPrefetcherGet t 0).1 = sworndiskReadBlock t 0 := by
  have runs : ((mount plainEnv (format 64 fun _ => zeroBlock)).bind fun s =>
      (runPrefetcher plainEnv s [.get 0, .get 1, .write prefetchedBio]).map fun t =>
        (deviceBlocks s, deviceBlocks t)) = some (65536, 65536) := by
    decide +kernel
  obtain ⟨s, mounted, runs⟩ := Option.bind_eq_some_iff.mp runs
  obtain ⟨t, run, sizes⟩ := map_eq_some_iff.mp runs
  obtain ⟨before, after⟩ := Prod.mk.inj sizes
  have inRange : ∀ event ∈ [.get 0, .get 1, .write prefetchedBio],
      PrefetchEvent.InRange s event := by
    simp [PrefetchEvent.InRange, before]
  obtain ⟨bounds, transparent⟩ := prefetcher_transparent mounted inRange run
  exact ⟨s, t, mounted, run, bounds, (transparent 0 (after ▸ Nat.succ_pos _)).1⟩

end SwornDisk.C
