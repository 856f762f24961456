import SwornDisk.C.LiveBlocks

/-!
# Use of keys and vectors

Every record draws a new key and vector, and a write inside the segment buffer seals its
block again under those of the record.  That is harmless while no ciphertext under them
has reached the device: the slots of the buffer are flushed once, and a block that went to
the device by threaded logging is not in the buffer.  A buffer that starts over in the
segment it has just written breaks this.
-/

namespace SwornDisk.C

open Lib List Function Option

variable {K I M G : Type}

def SealedBlock.pair (block : SealedBlock K I) : K × I := (block.key, block.iv)

/-- What has happened to sealed blocks: those in the slots of the buffer, and those whose
ciphertext has reached the device. -/
structure SealedUse (K I : Type) where
  held : Nat → Option (SealedBlock K I)
  sent : SealedBlock K I → Prop

def PlaintextsApart (sent : SealedBlock K I → Prop) : Prop :=
  ∀ left right, sent left → sent right → left.pair = right.pair → left.data = right.data

def SealedUse.next (use : SealedUse K I) : Effect K I M → SealedUse K I
  | .fill _ slot block _ => { use with held := Function.update use.held slot (some block) }
  | .write block _ => { use with sent := fun other => use.sent other ∨ other = block }
  | .flush _ _ => { use with
      sent := fun other =>
        use.sent other ∨ ∃ slot < blocksPerSegment, use.held slot = some other }

def nonceMonitor : Monitor (Effect K I M) (SealedUse K I) where
  next := SealedUse.next
  allows use effect := PlaintextsApart (use.next effect).sent

def noneSealed : SealedUse K I := ⟨fun _ => none, fun _ => False⟩

/-- The first `used` slots of the buffer hold blocks under keys of their own that have not
reached the device, the others nothing or what is on the device; the keys in use were drawn
for the first `n` records. -/
structure NonceUse (env : Env K I M G) (tree : Nat → Option (Record K I M))
    (segment used n : Nat) (use : SealedUse K I) : Prop where
  sentDrawn : ∀ block, use.sent block → ∃ i < n, block.pair = env.random i
  heldDrawn : ∀ slot block, use.held slot = some block → ∃ i < n, block.pair = env.random i
  apart : PlaintextsApart use.sent
  unsent : ∀ slot < used, ∀ block, use.held slot = some block →
    ∀ other, use.sent other → other.pair ≠ block.pair
  distinct : ∀ slot < used, ∀ slot' < used, ∀ block block', use.held slot = some block →
    use.held slot' = some block' → block.pair = block'.pair → slot = slot'
  rest : ∀ slot, used ≤ slot → ∀ block, use.held slot = some block → use.sent block
  live : ∀ lba record, tree lba = some record → blockToSegment record.pba = segment →
    blockOffsetWithinSegment record.pba < used →
      ∃ block, use.held (blockOffsetWithinSegment record.pba) = some block ∧
        block.pair = (record.key, record.iv)

variable {block : SealedBlock K I} {slot : Nat}

theorem held_cases {held : Nat → Option (SealedBlock K I)} {other : Nat} {found : SealedBlock K I}
    (now : update held slot (some block) other = some found) :
    (other = slot ∧ found = block) ∨ (other ≠ slot ∧ held other = some found) := by
  by_cases current : other = slot
  · rw [current, update_self] at now
    exact .inl ⟨current, (some.inj now).symm⟩
  · rw [update_of_ne current] at now
    exact .inr ⟨current, now⟩

variable {tree' : Nat → Option (Record K I M)}

namespace NonceUse

variable {env : Env K I M G} {tree : Nat → Option (Record K I M)} {segment used n : Nat}
  {use : SealedUse K I}

theorem pair_ne (inv : NonceUse env tree segment used n use)
    (fresh : Injective env.random) (drawn : block.pair = env.random n) :
    (∀ other, use.sent other → other.pair ≠ block.pair) ∧
      ∀ slot other, use.held slot = some other → other.pair ≠ block.pair := by
  refine ⟨fun other sent same => ?_, fun slot other held same => ?_⟩
  · obtain ⟨i, below, pair⟩ := inv.sentDrawn other sent
    have : i = n := fresh (pair.symm.trans (same.trans drawn))
    omega
  · obtain ⟨i, below, pair⟩ := inv.heldDrawn slot other held
    have : i = n := fresh (pair.symm.trans (same.trans drawn))
    omega

theorem flush_apart (inv : NonceUse env tree segment used n use) :
    PlaintextsApart fun other =>
      use.sent other ∨ ∃ slot < blocksPerSegment, use.held slot = some other := by
  -- A block in a slot is either on the device already or under a key of its own.
  have split : ∀ other, (use.sent other ∨ ∃ slot < blocksPerSegment, use.held slot = some other) →
      use.sent other ∨ ∃ slot < used, use.held slot = some other := by
    rintro other (sent | ⟨slot, -, held⟩)
    · exact .inl sent
    · by_cases filled : slot < used
      · exact .inr ⟨slot, filled, held⟩
      · exact .inl (inv.rest slot (Nat.not_lt.mp filled) other held)
  intro left right reachedLeft reachedRight same
  rcases split left reachedLeft with sentLeft | ⟨slotLeft, filledLeft, heldLeft⟩
  · rcases split right reachedRight with sentRight | ⟨slotRight, filledRight, heldRight⟩
    · exact inv.apart left right sentLeft sentRight same
    · exact absurd same (inv.unsent slotRight filledRight right heldRight left sentLeft)
  · rcases split right reachedRight with sentRight | ⟨slotRight, filledRight, heldRight⟩
    · exact absurd same.symm (inv.unsent slotLeft filledLeft left heldLeft right sentRight)
    · obtain rfl := inv.distinct slotLeft filledLeft slotRight filledRight left right heldLeft
        heldRight same
      obtain rfl := some.inj (heldLeft.symm.trans heldRight)
      rfl

theorem drawn_succ {pair : K × I} (drawn : ∃ i < n, pair = env.random i) :
    ∃ i < n + 1, pair = env.random i := by
  obtain ⟨i, below, same⟩ := drawn
  exact ⟨i, by omega, same⟩

variable (inv : NonceUse env tree segment used n use)
include inv

theorem fill (fresh : Injective env.random) (drawn : block.pair = env.random n)
    (live : ∀ lba record, tree' lba = some record → blockToSegment record.pba = segment →
      (blockOffsetWithinSegment record.pba = used ∧ block.pair = (record.key, record.iv)) ∨
        (tree lba = some record ∧ blockOffsetWithinSegment record.pba < used)) :
    NonceUse env tree' segment (used + 1) (n + 1)
      { use with held := update use.held used (some block) } := by
  obtain ⟨newSent, newHeld⟩ := inv.pair_ne fresh drawn
  refine ⟨fun other sent => drawn_succ (inv.sentDrawn other sent), ?_, inv.apart, ?_, ?_, ?_, ?_⟩
  · intro slot other held
    rcases held_cases held with ⟨-, rfl⟩ | ⟨-, before⟩
    · exact ⟨n, n.lt_succ_self, drawn⟩
    · exact drawn_succ (inv.heldDrawn slot other before)
  · intro slot filled other held reached sent
    rcases held_cases held with ⟨-, rfl⟩ | ⟨elsewhere, before⟩
    · exact newSent reached sent
    · exact inv.unsent slot (by omega) other before reached sent
  · intro slot filled slot' filled' other other' held held' same
    rcases held_cases held with ⟨current, rfl⟩ | ⟨elsewhere, before⟩
    · rcases held_cases held' with ⟨current', rfl⟩ | ⟨-, before'⟩
      · rw [current, current']
      · exact absurd same.symm (newHeld slot' other' before')
    · rcases held_cases held' with ⟨-, rfl⟩ | ⟨elsewhere', before'⟩
      · exact absurd same (newHeld slot other before)
      · exact inv.distinct slot (by omega) slot' (by omega) other other' before before' same
  · intro slot later other held
    rcases held_cases held with ⟨current, -⟩ | ⟨-, before⟩
    · omega
    · exact inv.rest slot (by omega) other before
  · intro lba record mapped inSegment _
    rcases live lba record mapped inSegment with ⟨offset, pair⟩ | ⟨mappedBefore, below⟩
    · rw [offset]
      exact ⟨block, update_self .., pair⟩
    · obtain ⟨other, held, pair⟩ := inv.live lba record mappedBefore inSegment below
      exact ⟨other, (update_of_ne (Nat.ne_of_lt below) _ _).trans held, pair⟩

theorem flush (full : used ≤ blocksPerSegment) (tree' : Nat → Option (Record K I M))
    (segment' : Nat) :
    NonceUse env tree' segment' 0 n
      { use with sent := fun other =>
          use.sent other ∨ ∃ slot < blocksPerSegment, use.held slot = some other } := by
  refine ⟨?_, inv.heldDrawn, inv.flush_apart, ?_, ?_, ?_, ?_⟩
  · rintro block (sent | ⟨slot, -, held⟩)
    · exact inv.sentDrawn block sent
    · exact inv.heldDrawn slot block held
  · exact fun slot below => absurd below (Nat.not_lt_zero _)
  · exact fun slot below => absurd below (Nat.not_lt_zero _)
  · intro slot _ block held
    by_cases inside : slot < blocksPerSegment
    · exact .inr ⟨slot, inside, held⟩
    · exact .inl (inv.rest slot (by omega) block held)
  · exact fun _ _ _ _ below => absurd below (Nat.not_lt_zero _)

theorem write (fresh : Injective env.random) (drawn : block.pair = env.random n)
    (live : ∀ lba record, tree' lba = some record → blockToSegment record.pba = segment →
      tree lba = some record) :
    NonceUse env tree' segment used (n + 1)
      { held := update use.held used (some block)
        sent := fun other => use.sent other ∨ other = block } := by
  obtain ⟨newSent, newHeld⟩ := inv.pair_ne fresh drawn
  refine ⟨?_, ?_, ?_, ?_, ?_, ?_, ?_⟩
  · rintro other (sent | rfl)
    · exact drawn_succ (inv.sentDrawn other sent)
    · exact ⟨n, n.lt_succ_self, drawn⟩
  · intro slot other held
    rcases held_cases held with ⟨-, rfl⟩ | ⟨-, before⟩
    · exact ⟨n, n.lt_succ_self, drawn⟩
    · exact drawn_succ (inv.heldDrawn slot other before)
  · rintro left right (sentLeft | rfl) (sentRight | rfl) same
    · exact inv.apart left right sentLeft sentRight same
    · exact absurd same (newSent left sentLeft)
    · exact absurd same.symm (newSent right sentRight)
    · rfl
  · rintro slot filled other held reached sent
    rcases held_cases held with ⟨current, -⟩ | ⟨-, before⟩
    · omega
    · rcases sent with sent | rfl
      · exact inv.unsent slot filled other before reached sent
      · exact (newHeld slot other before).symm
  · intro slot filled slot' filled' other other' held held' same
    rcases held_cases held with ⟨current, -⟩ | ⟨-, before⟩
    · omega
    · rcases held_cases held' with ⟨current', -⟩ | ⟨-, before'⟩
      · omega
      · exact inv.distinct slot filled slot' filled' other other' before before' same
  · intro slot later other held
    rcases held_cases held with ⟨-, rfl⟩ | ⟨-, before⟩
    · exact .inr rfl
    · exact .inl (inv.rest slot later other before)
  · intro lba record mapped inSegment below
    obtain ⟨other, held, pair⟩ := inv.live lba record (live lba record mapped inSegment) inSegment
      below
    exact ⟨other, (update_of_ne (Nat.ne_of_lt below) _ _).trans held, pair⟩

theorem refill (filled : slot < used) {old : SealedBlock K I} (held : use.held slot = some old)
    (same : block.pair = old.pair) (live : ∀ lba record, tree' lba = some record →
      ∃ before, tree lba = some before ∧ record.pba = before.pba ∧ record.key = before.key ∧
        record.iv = before.iv) :
    NonceUse env tree' segment used n
      { use with held := update use.held slot (some block) } := by
  -- Every slot holds a block under the same key as before.
  have before : ∀ other found, update use.held slot (some block) other = some found →
      ∃ kept, use.held other = some kept ∧ found.pair = kept.pair := by
    intro other found now
    rcases held_cases now with ⟨rfl, rfl⟩ | ⟨-, kept⟩
    · exact ⟨old, held, same⟩
    · exact ⟨found, kept, rfl⟩
  refine ⟨inv.sentDrawn, ?_, inv.apart, ?_, ?_, ?_, ?_⟩
  · intro other found now
    obtain ⟨kept, heldBefore, pair⟩ := before other found now
    rw [pair]
    exact inv.heldDrawn other kept heldBefore
  · intro other inside found now reached sent
    obtain ⟨kept, heldBefore, pair⟩ := before other found now
    rw [pair]
    exact inv.unsent other inside kept heldBefore reached sent
  · intro left insideLeft right insideRight foundLeft foundRight nowLeft nowRight samePair
    obtain ⟨keptLeft, heldLeft, pairLeft⟩ := before left foundLeft nowLeft
    obtain ⟨keptRight, heldRight, pairRight⟩ := before right foundRight nowRight
    rw [pairLeft, pairRight] at samePair
    exact inv.distinct left insideLeft right insideRight keptLeft keptRight heldLeft heldRight
      samePair
  · intro other later found now
    rcases held_cases now with ⟨rfl, -⟩ | ⟨-, kept⟩
    · omega
    · exact inv.rest other later found kept
  · intro lba record mapped inSegment below
    obtain ⟨kept, mappedBefore, pba, key, iv⟩ := live lba record mapped
    rw [pba] at inSegment below
    obtain ⟨found, now, pair⟩ := inv.live lba kept mappedBefore inSegment below
    rw [pba, key, iv]
    by_cases current : blockOffsetWithinSegment kept.pba = slot
    · rw [current] at now ⊢
      refine ⟨block, update_self .., ?_⟩
      rw [same, ← pair, some.inj (held.symm.trans now)]
    · exact ⟨found, (update_of_ne current _ _).trans now, pair⟩

end NonceUse

def NonceInv (env : Env K I M G) (s : DmSwornDisk K I M G) (use : SealedUse K I) : Prop :=
  NonceUse env s.lsmTree s.segBuffer.curSegment (curBlock s) s.nrRecord use

theorem loggedBlock_nrRecord (env : Env K I M G) (s : DmSwornDisk K I M G) (lba : Nat)
    (data : Block) : (loggedBlock env s lba data).nrRecord = s.nrRecord + 1 := by
  simp [loggedBlock, sealBlock]

variable {env : Env K I M G} {s : DmSwornDisk K I M G} {lba : Nat} {data : Block}
  {t : DmSwornDisk K I M G}

section

variable (fresh : Injective env.random) (c : Consistent s s.lsmTree (curBlock s))
include fresh c

theorem NonceInv.logged (ba : BufferAligned s) (key : lba < 2 ^ 32)
    (push : LoggedTo env s lba data t) :
    nonceMonitor.Tracks (NonceInv env) s (loggedEffects env s t lba data) t := by
  intro use inv
  have filled : NonceUse env t.lsmTree s.segBuffer.curSegment (curBlock s + 1) (s.nrRecord + 1)
      (use.next (.fill s.segBuffer.curSegment (curBlock s)
        (pushBlock env s lba (slotAddr s (curBlock s)) data) s.lsmTree)) := by
    refine NonceUse.fill inv fresh rfl fun other record mapped segment => ?_
    rw [push.lsmTree_eq key] at mapped
    by_cases same : other = lba
    · rw [same, update_self] at mapped
      obtain rfl := some.inj mapped
      exact .inl ⟨slotAddr_offset ba.room, rfl⟩
    · rw [update_of_ne same] at mapped
      exact .inr ⟨mapped, c.offset_lt mapped segment⟩
  cases push with
  | advance room =>
    have notFull : ¬ curBlock s + 1 = blocksPerSegment := Nat.ne_of_lt room
    rw [loggedEffects, if_neg notFull]
    refine ⟨⟨inv.apart, trivial⟩, ?_⟩
    rw [NonceInv, curBlock_bumpBuffer, curBlock_loggedBlock]
    change NonceUse env _ (loggedBlock env s lba data).segBuffer.curSegment _
      (loggedBlock env s lba data).nrRecord _
    rw [loggedBlock_curSegment, loggedBlock_nrRecord]
    exact filled
  | @allocate seg full found =>
    rw [loggedEffects, if_pos full]
    refine ⟨⟨inv.apart, filled.flush_apart, trivial⟩, ?_⟩
    rw [NonceInv, curBlock_allocSegment, curBlock_rewindBuffer]
    change NonceUse env _ seg 0 (loggedBlock env s lba data).nrRecord _
    rw [loggedBlock_nrRecord]
    exact filled.flush full.le _ _

theorem NonceInv.threaded {victim : Victim} (key : lba < 2 ^ 32)
    (member : victim ∈ (returnOld s lba).dst.victims)
    (elsewhere : victim.segno ≠ s.segBuffer.curSegment) :
    nonceMonitor.Tracks (NonceInv env) s (threadedEffects env s lba data victim)
      (threadedBlock env s lba data victim) := by
  intro use inv
  obtain ⟨inVictim, -⟩ := (c.returnOld lba).wf.threadedAddr member
  have written : NonceUse env (threadedBlock env s lba data victim).lsmTree
      s.segBuffer.curSegment (curBlock s) (s.nrRecord + 1)
      ((use.next (.fill s.segBuffer.curSegment (curBlock s)
        (pushBlock env s lba (threadedAddr victim) data) s.lsmTree)).next
          (.write (pushBlock env s lba (threadedAddr victim) data) s.lsmTree)) := by
    refine NonceUse.write inv fresh rfl fun other record mapped segment => ?_
    rw [threadedBlock_lsmTree env s key] at mapped
    by_cases same : other = lba
    · rw [same, update_self] at mapped
      obtain rfl := some.inj mapped
      exact absurd (inVictim.symm.trans segment) elsewhere
    · rwa [update_of_ne same] at mapped
  refine ⟨⟨inv.apart, written.apart, trivial⟩, ?_⟩
  have record : (threadedBlock env s lba data victim).nrRecord = s.nrRecord + 1 := by
    simp [threadedBlock, sealBlock]
  rw [NonceInv, threadedBlock_curBlock, threadedBlock_curSegment, record]
  exact written

end

theorem NonceInv.modified {record : Record K I M} (mapped : s.lsmTree lba = some record)
    (segment : blockToSegment record.pba = s.segBuffer.curSegment)
    (filled : blockOffsetWithinSegment record.pba < curBlock s) :
    nonceMonitor.Tracks (NonceInv env) s
      [.fill s.segBuffer.curSegment (blockOffsetWithinSegment record.pba)
        ⟨lba, record.key, record.iv, record.pba, data⟩ s.lsmTree]
      (resealSlot env s lba record data) := by
  intro use inv
  obtain ⟨old, held, pair⟩ := inv.live lba record mapped segment filled
  refine ⟨⟨inv.apart, trivial⟩, ?_⟩
  have samePair : SealedBlock.pair ⟨lba, record.key, record.iv, record.pba, data⟩ = old.pair :=
    pair.symm
  refine NonceUse.refill inv filled held samePair fun other kept mappedNow => ?_
  simp only [resealSlot] at mappedNow
  by_cases same : other = lba
  · rw [same, update_self] at mappedNow
    obtain rfl := some.inj mappedNow
    exact ⟨record, same ▸ mapped, rfl, rfl, rfl⟩
  · rw [update_of_ne same] at mappedNow
    exact ⟨kept, mappedNow, rfl, rfl, rfl⟩

theorem watches_nonce (fresh : Injective env.random) :
    Watches env nonceMonitor (NonceInv env) where
  congr := by
    intro s t use inv tree segment sector record
    have blocks : curBlock t = curBlock s := by rw [curBlock, sector, curBlock]
    rw [NonceInv, tree, segment, blocks, record]
    exact inv
  logged := NonceInv.logged fresh
  threaded := fun c _ key member elsewhere => NonceInv.threaded fresh c key member elsewhere
  modified := fun _ _ mapped segment filled => NonceInv.modified mapped segment filled
  unmounted := fun _ _ inv => inv.flush_apart

/-- If no key and vector are drawn twice, then in a session of regular writes on a new device
no key and vector seal two different plaintexts whose ciphertexts reach the device. -/
theorem nonces_not_reused {env : Env K I M G} {nrSegment : Nat} {dataDev : Nat → G}
    {s : DmSwornDisk K I M G} {bios : List Bio} (fresh : Function.Injective env.random)
    (enough : nrSegment ≤ env.gcFuel) (mounted : mount env (format nrSegment dataDev) = some s)
    (safe : WritesSafe env s bios) :
    ∃ t, runWrites env s bios = some t ∧
      (unmount t).media = replay env s.media (sessionEffects env s bios) ∧
      nonceMonitor.Accepts noneSealed (sessionEffects env s bios) := by
  obtain ⟨running, tree, blocks⟩ := running_format enough mounted
  obtain ⟨t, ran⟩ := running.runWrites safe
  refine ⟨t, ran, sessionEffects_media ran, (watches_nonce fresh).session running safe ?_⟩
  rw [NonceInv, tree, blocks]
  exact ⟨fun _ sent => sent.elim, fun _ _ held => absurd held (by simp [noneSealed]),
    fun _ _ sent => sent.elim, fun _ below => absurd below (Nat.not_lt_zero _),
    fun _ below => absurd below (Nat.not_lt_zero _),
    fun _ _ _ held => absurd held (by simp [noneSealed]), fun _ _ mapped => absurd mapped (by simp)⟩

/-- An environment over the transparent cipher in which the keys are drawn in order. -/
def numberedEnv : Env Nat Unit (Nat × Unit × Nat × Block) Block where
  aead := transparentAead Nat Unit Block
  random := fun n => (n, ())
  rawBytes := id
  allocated := fun _ => zeroBlock
  unassigned := ⟨0, (0, (), 0, zeroBlock), 0, ()⟩
  gcFuel := 1048576

theorem random_injective_numberedEnv : Injective numberedEnv.random := fun _ _ same =>
  congrArg Prod.fst same

/-- A device of 64 segments: the first segment is filled and flushed, address 1024 goes to
the buffer, and is then modified there under the same key and vector. -/
theorem nonces_not_reused_modified :
    ∃ s t u, mount numberedEnv (format 64 fun _ => zeroBlock) = some s ∧
      runWrites numberedEnv s
        (firstBios (fun _ => zeroBlock) blocksPerSegment ++ [blockBio 1024 zeroBlock]) = some t ∧
      modifiesBuffer t (sectorBio 8192 fun _ => 1) = true ∧
      runWrites numberedEnv s (firstBios (fun _ => zeroBlock) blocksPerSegment ++
        [blockBio 1024 zeroBlock, sectorBio 8192 fun _ => 1]) = some u ∧
      nonceMonitor.Accepts noneSealed (sessionEffects numberedEnv s
        (firstBios (fun _ => zeroBlock) blocksPerSegment ++
          [blockBio 1024 zeroBlock, sectorBio 8192 fun _ => 1])) := by
  obtain ⟨flushed, ran, next, -⟩ :=
    nextSegment_run numberedEnv (fun _ => zeroBlock) fun _ => zeroBlock
  obtain ⟨plain, o⟩ := next.inOrder
  have room : curBlock flushed + 1 < blocksPerSegment := by
    rw [next.empty]
    decide
  have address : bioGetBlockAddress (blockBio 1024 zeroBlock) =
      bioGetBlockAddress (sectorBio 8192 fun _ => 1) := by decide
  have wrote := (o.wroteBlock (if_pos next.few) room 1024 zeroBlock).1
  rw [address] at wrote
  have modifies := modifiesBuffer_wroteBlock numberedEnv flushed room (sectorBio 8192 fun _ => 1)
    (by decide) zeroBlock
  generalize wroteBlock numberedEnv flushed _ zeroBlock = t at *
  have short : (firstBios (fun _ => zeroBlock) blocksPerSegment ++
      [blockBio 1024 zeroBlock, sectorBio 8192 fun _ => 1]).length ≤ 2 * blocksPerSegment := by
    rw [length_append, length_firstBios]
    decide
  have first : runWrites numberedEnv (firstMount numberedEnv 64 fun _ => zeroBlock)
      (firstBios (fun _ => zeroBlock) blocksPerSegment ++ [blockBio 1024 zeroBlock]) = some t := by
    rw [runWrites_append, ran, bind_some, runWrites_singleton, wrote]
  generalize firstBios (fun _ => zeroBlock) blocksPerSegment ++
    [blockBio 1024 zeroBlock, sectorBio 8192 fun _ => 1] = bios at *
  obtain ⟨mounted, safe⟩ := writesSafe_firstMount numberedEnv (fun _ => zeroBlock) (by decide) short
  obtain ⟨u, ended, -, accepts⟩ := nonces_not_reused random_injective_numberedEnv (by decide)
    mounted safe
  exact ⟨_, t, u, mounted, first, modifies, ended, accepts⟩

theorem held_firstEffects (env : Env K I M G) (data : Nat → Block) {n : Nat} (below : slot < n) :
    (nonceMonitor.after noneSealed (firstEffects env data n)).held slot =
      some (firstBlockOf env data slot) := by
  induction n with
  | zero => exact absurd below (Nat.not_lt_zero _)
  | succ n ih =>
    rw [firstEffects_succ, Monitor.after_append]
    change update (nonceMonitor.after noneSealed (firstEffects env data n)).held n
      (some (firstBlockOf env data n)) slot = _
    by_cases last : slot = n
    · rw [last, update_self]
    · rw [update_of_ne last, ih (by omega)]

def firstSectorBio : Bio := sectorBio 0 fun _ => 1

/-- Once the buffer has started over in its segment and has filled its first slot, a write
inside address 0, which lives there for the tree, seals that slot under the key of
address 0. -/
theorem bioEffects_firstSectorBio {data : Nat → Block} (segment : t.segBuffer.curSegment = 0)
    (sector : t.segBuffer.curSector = sectorsPerBlock)
    (mapped : t.lsmTree 0 = some (firstRecord env data 0)) :
    ∃ t', sworndiskDoWrite env t firstSectorBio = some t' ∧
      t'.segBuffer.curSegment = 0 ∧
      bioEffects env t firstSectorBio =
        [.fill 0 0 ⟨0, (env.random 0).1, (env.random 0).2, 0,
          bioGetData [fun _ => 1] 0 (t.segBuffer.buffer 0)⟩ t.lsmTree] := by
  have blocks : curBlock t = 1 := by
    rw [curBlock, sector]
    decide
  have room : curBlock t ≤ blocksPerSegment := by
    rw [blocks]
    decide
  have address : bioGetBlockAddress firstSectorBio = 0 := by decide
  have found : lsmSearch t 0 = some (firstRecord env data 0) := mapped
  have inside : inSegmentBuffer t 0 = true := by
    rw [inSegmentBuffer_iff room, segment, blocks]
    decide
  have modifies : modifiesBuffer t firstSectorBio = true := by
    have short : firstSectorBio.pages.length < sectorsPerBlock := by decide
    have insideRecord : inSegmentBuffer t (firstRecord env data 0).pba = true := inside
    simp only [modifiesBuffer, address, found, short, insideRecord, decide_true, Bool.and_true]
  obtain ⟨record, mapped', -, pushed⟩ := segbufPushBio_modify env modifies
  rw [address] at mapped' pushed
  obtain rfl : firstRecord env data 0 = record := some.inj (mapped.symm.trans mapped')
  have segment' : blockToSegment (firstRecord env data 0).pba = t.segBuffer.curSegment := by
    rw [segment]
    exact Nat.zero_div _
  refine ⟨_, congrArg (Option.map bioPrefetcherClear) pushed, segment, ?_⟩
  simp only [bioEffects, address, found, modifies, if_true]
  rw [modifyEffect_eq firstSectorBio (by decide) segment', segment]
  rfl

/-- On a device of one segment, the key of address 0 seals its block, which is flushed, and
then the block of address 5 with another first sector, which is flushed as well. -/
theorem not_nonces_not_reused_full_device :
    Function.Injective numberedEnv.random ∧
      ∃ s t, mount numberedEnv (format 1 fun _ => zeroBlock) = some s ∧
        runWrites numberedEnv s (firstBios (fun _ => zeroBlock) blocksPerSegment ++
          [blockBio 5 zeroBlock, firstSectorBio]) = some t ∧
        ¬ nonceMonitor.Accepts noneSealed (sessionEffects numberedEnv s
          (firstBios (fun _ => zeroBlock) blocksPerSegment ++
            [blockBio 5 zeroBlock, firstSectorBio])) := by
  have mounted := mount_format numberedEnv (fun _ => zeroBlock) (by decide)
    (by decide : 1 ≤ gcThreshold 1)
  obtain ⟨full, ran, wrapped, trace⟩ :=
    wrappedAround_run numberedEnv (fun _ => zeroBlock) fun _ => zeroBlock
  obtain ⟨u, wrote, segment, sector, tree, effects⟩ :=
    wrapped.write (by decide : 5 < 2 ^ 29) zeroBlock
  have mapped : u.lsmTree 0 = some (firstRecord numberedEnv (fun _ => zeroBlock) 0) := by
    rw [tree, update_of_ne (by decide), firstTree, if_pos (by decide)]
  obtain ⟨t, modified, segment', effects'⟩ := bioEffects_firstSectorBio segment sector mapped
  refine ⟨random_injective_numberedEnv, _, t, mounted, ?_, ?_⟩
  · rw [runWrites_append, ran, bind_some, runWrites_cons wrote, runWrites_singleton,
      modified]
  · rw [(writesEffects_append ran _).2, trace, sessionEffects_cons wrote, effects,
      sessionEffects_cons modified, effects', append_assoc, Monitor.accepts_append]
    have held := held_firstEffects numberedEnv (fun _ => zeroBlock)
      (by decide : 0 < blocksPerSegment)
    generalize nonceMonitor.after noneSealed
      (firstEffects numberedEnv (fun _ => zeroBlock) blocksPerSegment) = use at held ⊢
    generalize u.segBuffer.buffer 0 = slot
    rintro ⟨-, -, -, -, apart, -⟩
    -- The first flush sends the block of address 0, the second what its key seals now.
    have same := apart (firstBlockOf numberedEnv (fun _ => zeroBlock) 0)
      ⟨0, 0, (), 0, bioGetData [fun _ => 1] 0 slot⟩
      (.inl (.inr ⟨0, by decide, held⟩)) (.inr ⟨0, by decide, rfl⟩) rfl
    have sectors : (0 : UInt8) = 1 := congrFun (congrFun same 0) 0
    exact absurd sectors (by decide)

end SwornDisk.C
