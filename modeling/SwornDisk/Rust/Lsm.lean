import SwornDisk.Lib.NewestWins
import SwornDisk.Rust.DataSegment

/-!
# LSM tree of the Rust implementation

The writer (memtable insertion and minor compaction of `IoWorker::handle_write_request`),
the lookup of `IoWorker::handle_read_request` and the level iterations of
`CompactionWorker::work`, over an interface for the block index tables.  Each
step below runs under the write lock, so a run is an interleaving of steps.
-/

namespace SwornDisk.Rust

open Lib List Function Option

/-- What the LSM tree uses of a block index table.  `S` is the state behind the
tables: the index device, the caches, the allocation cursor, the kernel memory.  `β` is a
table as the category lists it, `T` one whose root was read. -/
structure BitOps (S β T V : Type) where
  fromMemtable : MemTable V → S → Except Fault β × S
  readFromDisk : BitRootMeta β → S → Except Fault T × S
  fromCompaction : List T → S → Except Fault β × S
  contains : BitRootMeta β → Nat → Bool
  findRecord : T → Nat → S → Except Fault (Option V) × S
  tryPush : S → Bool × S

/-- The two vectors that `CompactionWorker::work` declares outside its loop. -/
structure CompactionLocals (T : Type) where
  bitsPendingCompaction : List T
  bitsId : List Nat

def CompactionLocals.new {T : Type} : CompactionLocals T := ⟨[], []⟩

/-- The shared context.  `worker` is the compaction worker between two level
iterations: the level it turns to next and its vectors. -/
structure Lsm (S β T V : Type) where
  memtable : MemTable V
  bitCategory : BitCategory β
  store : S
  worker : Option (Nat × CompactionLocals T)

variable {S β T V : Type}

/-! ## Writer -/

/-- Minor compaction in `handle_write_request`: convert, add at level 0, clear. -/
def minorCompaction (ops : BitOps S β T V) (s : Lsm S β T V) : Except Fault Unit × Lsm S β T V :=
  match ops.fromMemtable s.memtable s.store with
  | (.error err, store) => (.error err, { s with store := store })
  | (.ok bit, store) =>
    let (room, store) := ops.tryPush store
    match s.bitCategory.addBit bit 0 room with
    | (.error err, category) =>
      (.error (.error err), { s with store := store, bitCategory := category })
    | (.ok (), category) =>
      (.ok (), { s with
        store := store
        bitCategory := category
        memtable := s.memtable.clear })

/-! ## Compaction worker -/

/-- The loop that reads the roots of a level into the pending vectors. -/
def readPending (ops : BitOps S β T V) :
    List (BitRootMeta β) → CompactionLocals T → S → Except Fault (CompactionLocals T) × S
  | [], locals, store => (.ok locals, store)
  | rootMeta :: rest, locals, store =>
    match ops.readFromDisk rootMeta store with
    | (.error err, store) => (.error err, store)
    | (.ok root, store) =>
      match ops.tryPush store with
      | (false, store) => (.error (.error .enomem), store)
      | (true, store) =>
        readPending ops rest
          ⟨locals.bitsPendingCompaction ++ [root], locals.bitsId ++ [rootMeta.uniqueId]⟩ store

/-- One iteration of the level loop of `CompactionWorker::work`. -/
def compactionIteration (ops : BitOps S β T V) (level : Nat) (category : BitCategory β)
    (locals : CompactionLocals T) (store : S) :
    Except Fault (CompactionLocals T) × BitCategory β × S :=
  let (read, store) :=
    if maxCompactionNumber ≤ category.levelSize level then
      readPending ops (category.category level) locals store
    else (.ok locals, store)
  match read with
  | .error err => (.error err, category, store)
  | .ok locals =>
    if locals.bitsPendingCompaction.length = 0 then (.ok locals, category, store)
    else
      match ops.fromCompaction locals.bitsPendingCompaction store with
      | (.error err, store) => (.error err, category, store)
      | (.ok bit, store) =>
        let (room, store) := ops.tryPush store
        match category.addBit bit (level + 1) room with
        | (.error err, category) => (.error (.error err), category, store)
        | (.ok (), category) =>
          match category.releaseAll level locals.bitsId with
          | (.error err, category) => (.error (.error err), category, store)
          | (.ok (), category) => (.ok CompactionLocals.new, category, store)

/-- The worker takes its next level, or ends after the last one or on an error. -/
def compactionStep (ops : BitOps S β T V) (s : Lsm S β T V) : Lsm S β T V :=
  match s.worker with
  | none => s
  | some (level, locals) =>
    if level < lsmTreeMaxLevel - 1 then
      match compactionIteration ops level s.bitCategory locals s.store with
      | (.ok locals, category, store) =>
        { s with
          bitCategory := category
          store := store
          worker := some (level + 1, locals) }
      | (.error _, category, store) =>
        { s with bitCategory := category, store := store, worker := none }
    else { s with worker := none }

/-! ## Lookup -/

def findInLevel (ops : BitOps S β T V) (lba : Nat) :
    List (BitRootMeta β) → S → Except Fault (Option V) × S
  | [], store => (.ok none, store)
  | rootMeta :: rest, store =>
    if ops.contains rootMeta lba then
      match ops.readFromDisk rootMeta store with
      | (.error err, store) => (.error err, store)
      | (.ok bit, store) =>
        match ops.findRecord bit lba store with
        | (.error err, store) => (.error err, store)
        | (.ok (some record), store) => (.ok (some record), store)
        | (.ok none, store) => findInLevel ops lba rest store
    else findInLevel ops lba rest store

def findInLevels (ops : BitOps S β T V) (category : BitCategory β) (lba : Nat) :
    List Nat → S → Except Fault (Option V) × S
  | [], store => (.ok none, store)
  | level :: levels, store =>
    match findInLevel ops lba (category.iterLevel level) store with
    | (.error err, store) => (.error err, store)
    | (.ok (some record), store) => (.ok (some record), store)
    | (.ok none, store) => findInLevels ops category lba levels store

/-- Lookup order of `handle_read_request`: the memtable, then every level. -/
def findRecord (ops : BitOps S β T V) (s : Lsm S β T V) (lba : Nat) :
    Except Fault (Option V) × S :=
  match s.memtable.find lba with
  | some record => (.ok (some record), s.store)
  | none => findInLevels ops s.bitCategory lba (List.range lsmTreeMaxLevel) s.store

/-! ## Runs -/

inductive LsmStep (V : Type) where
  | insert (lba : Nat) (record : V)
  | minorCompaction
  | queueWork
  | compaction

def Lsm.step (ops : BitOps S β T V) (s : Lsm S β T V) : LsmStep V → Lsm S β T V
  | .insert lba record => { s with memtable := s.memtable.insert lba record }
  | .minorCompaction => (Rust.minorCompaction ops s).2
  | .queueWork => { s with worker := some (s.worker.getD (0, CompactionLocals.new)) }
  | .compaction => compactionStep ops s

def Lsm.run (ops : BitOps S β T V) (s : Lsm S β T V) (steps : List (LsmStep V)) : Lsm S β T V :=
  steps.foldl (Lsm.step ops) s

def Lsm.new (store : S) : Lsm S β T V where
  memtable := MemTable.new
  bitCategory := BitCategory.new
  store := store
  worker := none

def latestInsert (steps : List (LsmStep V)) : Nat → Option V :=
  steps.foldl (fun latest step =>
    match step with
    | .insert lba record => Function.update latest lba (some record)
    | _ => latest) fun _ => none

/-! ## Identifiers and the worker's vectors -/

theorem readPending_ids (ops : BitOps S β T V) {metas : List (BitRootMeta β)}
    {locals read : CompactionLocals T} {store : S}
    (ok : (readPending ops metas locals store).1 = .ok read) :
    read.bitsId = locals.bitsId ++ metas.map BitRootMeta.uniqueId ∧
      read.bitsPendingCompaction.length =
        locals.bitsPendingCompaction.length + metas.length := by
  induction metas generalizing locals store with
  | nil =>
    obtain rfl : locals = read := by simpa [readPending] using ok
    simp
  | cons rootMeta rest ih =>
    rw [readPending] at ok
    rcases readResult : ops.readFromDisk rootMeta store with ⟨_ | root, afterRead⟩
    · simp [readResult] at ok
    · rcases pushResult : ops.tryPush afterRead with ⟨_ | _, afterPush⟩
      · simp [readResult, pushResult] at ok
      · simp only [readResult, pushResult] at ok
        obtain ⟨ids, lengths⟩ := ih ok
        simp only [length_append, length_cons, length_nil] at lengths
        refine ⟨by simp [ids], ?_⟩
        rw [lengths, length_cons]
        omega

/-- The category after a level was merged into `bit` and its tables were released. -/
def BitCategory.merge (category : BitCategory β) (level : Nat) (bit : β) : BitCategory β where
  bitUniqueId := category.bitUniqueId + 1
  category := Function.update (Function.update category.category (level + 1)
    (category.category (level + 1) ++ [⟨category.bitUniqueId, bit⟩])) level []

variable {level : Nat} {category : BitCategory β}

/-- What a level iteration that starts from empty vectors can do: leave the
category alone, lose an identifier to a failed `try_push`, or merge the level. -/
theorem compactionIteration_cases (ops : BitOps S β T V) (inside : level + 1 < lsmTreeMaxLevel)
    (fresh : category.IdsFresh) (store : S) :
    (∃ store', compactionIteration ops level category CompactionLocals.new store =
        (.ok CompactionLocals.new, category, store')) ∨
      (∃ err store', compactionIteration ops level category CompactionLocals.new store =
        (.error err, category, store')) ∨
      (∃ err store', compactionIteration ops level category CompactionLocals.new store =
        (.error err, ⟨category.bitUniqueId + 1, category.category⟩, store')) ∨
      ∃ read afterRead bit store',
        (readPending ops (category.category level) CompactionLocals.new store).1 = .ok read ∧
        (ops.fromCompaction read.bitsPendingCompaction afterRead).1 = .ok bit ∧
        compactionIteration ops level category CompactionLocals.new store =
          (.ok CompactionLocals.new, category.merge level bit, store') := by
  unfold compactionIteration
  by_cases large : maxCompactionNumber ≤ category.levelSize level
  · rw [if_pos large]
    rcases reading : readPending ops (category.category level) CompactionLocals.new store with
      ⟨result, afterRead⟩
    cases result with
    | error err => exact .inr (.inl ⟨err, afterRead, rfl⟩)
    | ok read =>
      obtain ⟨ids, lengths⟩ := readPending_ids ops (congrArg Prod.fst reading)
      simp only [CompactionLocals.new, nil_append, length_nil, Nat.zero_add] at ids lengths
      have pending : read.bitsPendingCompaction.length ≠ 0 := by
        unfold BitCategory.levelSize maxCompactionNumber at large
        omega
      simp only [pending, if_false]
      rcases compacting : ops.fromCompaction read.bitsPendingCompaction afterRead with
        ⟨compacted, afterCompaction⟩
      cases compacted with
      | error err => exact .inr (.inl ⟨err, afterCompaction, rfl⟩)
      | ok bit =>
        rcases category.addBit_cases bit inside (ops.tryPush afterCompaction).1 with
          added | ⟨err, failed⟩
        · right; right; right
          refine ⟨read, afterRead, bit, (ops.tryPush afterCompaction).2, rfl,
            congrArg Prod.fst compacting, ?_⟩
          simp only [added]
          rw [ids, BitCategory.releaseAll_front (category.category level) []]
          · rfl
          · simp
          · simpa [update_of_ne (Nat.ne_of_lt (Nat.lt_succ_self level))] using fresh.nodup level
        · right; right; left
          exact ⟨.error err, (ops.tryPush afterCompaction).2, by simp only [failed]⟩
  · rw [if_neg large]
    exact .inl ⟨store, rfl⟩

theorem BitCategory.IdsFresh.merge (fresh : category.IdsFresh)
    (inside : level + 1 < lsmTreeMaxLevel) (bit : β) :
    (category.merge level bit).IdsFresh := by
  have added : (category.addBit bit (level + 1) true).2.IdsFresh := fresh.addBit bit inside true
  rw [BitCategory.addBit, if_neg (Nat.not_le.mpr inside), if_pos rfl] at added
  constructor
  · intro other
    by_cases same : other = level
    · simp [same, BitCategory.merge]
    · simpa [BitCategory.merge, update_of_ne same] using added.nodup other
  · intro other held member
    by_cases same : other = level
    · simp [same, BitCategory.merge] at member
    · simp only [BitCategory.merge, update_of_ne same] at member
      exact added.below other held member

theorem BitCategory.IdsFresh.lose (fresh : category.IdsFresh) :
    BitCategory.IdsFresh ⟨category.bitUniqueId + 1, category.category⟩ :=
  ⟨fresh.nodup, fun level held member => Nat.lt_succ_of_lt (fresh.below level held member)⟩

/-- Between two steps, whatever the tables are: identifiers are fresh, and a running worker holds
nothing over from its last level. -/
structure Tidy (s : Lsm S β T V) : Prop where
  fresh : s.bitCategory.IdsFresh
  idle : ∀ level locals, s.worker = some (level, locals) → locals = CompactionLocals.new

theorem tidy_new (store : S) : Tidy (Lsm.new store : Lsm S β T V) :=
  ⟨BitCategory.idsFresh_new, by simp [Lsm.new]⟩

section

variable {s : Lsm S β T V} (tidy : Tidy s) (ops : BitOps S β T V)
include tidy

theorem Tidy.minorCompaction : Tidy (s.step ops .minorCompaction) := by
  simp only [Lsm.step, Rust.minorCompaction]
  rcases ops.fromMemtable s.memtable s.store with ⟨_ | bit, afterConvert⟩
  · exact ⟨tidy.fresh, tidy.idle⟩
  · have fresh := tidy.fresh.addBit bit (by decide : 0 < lsmTreeMaxLevel)
      (ops.tryPush afterConvert).1
    rcases s.bitCategory.addBit_cases bit (by decide : 0 < lsmTreeMaxLevel)
      (ops.tryPush afterConvert).1 with added | ⟨err, failed⟩
    · simp only [added] at fresh ⊢
      exact ⟨fresh, tidy.idle⟩
    · simp only [failed] at fresh ⊢
      exact ⟨fresh, tidy.idle⟩

theorem Tidy.compaction : Tidy (s.step ops .compaction) := by
  simp only [Lsm.step, compactionStep]
  split
  · exact tidy
  · rename_i level locals running
    obtain rfl := tidy.idle level locals running
    split
    · rename_i inside
      have inside : level + 1 < lsmTreeMaxLevel := by omega
      rcases compactionIteration_cases ops inside tidy.fresh s.store with ⟨store, idle⟩ |
        ⟨err, store, failed⟩ | ⟨err, store, failed⟩ | ⟨read, afterRead, bit, store, -, -, done⟩
      · rw [idle]
        exact ⟨tidy.fresh, by simp⟩
      · rw [failed]
        exact ⟨tidy.fresh, by simp⟩
      · rw [failed]
        exact ⟨tidy.fresh.lose, by simp⟩
      · rw [done]
        exact ⟨tidy.fresh.merge inside bit, by simp⟩
    · exact ⟨tidy.fresh, by simp⟩

theorem Tidy.step (step : LsmStep V) : Tidy (s.step ops step) := by
  cases step with
  | insert lba record => exact ⟨tidy.fresh, tidy.idle⟩
  | minorCompaction => exact tidy.minorCompaction ops
  | queueWork =>
    refine ⟨tidy.fresh, fun level locals running => ?_⟩
    simp only [Lsm.step, some.injEq] at running
    cases worker : s.worker with
    | none =>
      rw [worker] at running
      exact (congrArg Prod.snd running).symm
    | some held =>
      rw [worker] at running
      exact tidy.idle level locals (worker.trans (congrArg some running))
  | compaction => exact tidy.compaction ops

end

/-- In every interleaving, whatever the tables are and whatever fails: the identifiers of a level
are distinct and below the next one, and the worker takes nothing over from one level to the
next. -/
theorem idsFresh_run (ops : BitOps S β T V) (store : S) (steps : List (LsmStep V)) :
    let s := (Lsm.new store).run ops steps
    s.bitCategory.IdsFresh ∧
      ∀ level locals, s.worker = some (level, locals) → locals = CompactionLocals.new := by
  have tidy : Tidy ((Lsm.new store).run ops steps) := by
    unfold Lsm.run
    exact List.foldlRecOn steps _ (tidy_new store) fun s tidy step _ => tidy.step ops step
  exact ⟨tidy.fresh, tidy.idle⟩

/-! ## Tables as maps -/

/-- Block index tables that are maps from addresses to records: reading a root
back and looking an address up are correct, the range check skips no binding, and
the two constructors are the conversion and the later-table-wins merge.  The
constructors and `try_push` may fail at any time. -/
structure BitOps.Maps (ops : BitOps S β T V) (listed : β → Nat → Option V)
    (opened : T → Nat → Option V) : Prop where
  fromMemtable : ∀ {memtable store bit},
    (ops.fromMemtable memtable store).1 = .ok bit → listed bit = memtable.find
  fromCompaction : ∀ {bits store bit}, (ops.fromCompaction bits store).1 = .ok bit →
    listed bit = lookupFirst (bits.map opened).reverse
  readFromDisk : ∀ rootMeta store, ∃ root,
    (ops.readFromDisk rootMeta store).1 = .ok root ∧ opened root = listed rootMeta.bit
  findRecord : ∀ bit lba store, (ops.findRecord bit lba store).1 = .ok (opened bit lba)
  contains : ∀ {rootMeta lba record}, listed rootMeta.bit lba = some record →
    ops.contains rootMeta lba = true

section

variable (listed : β → Nat → Option V)

def levelMaps (category : BitCategory β) (level : Nat) : List (Nat → Option V) :=
  (category.iterLevel level).map fun rootMeta => listed rootMeta.bit

def categoryMaps (category : BitCategory β) : List (Nat → Option V) :=
  (List.range lsmTreeMaxLevel).flatMap (levelMaps listed category)

def lsmMaps (s : Lsm S β T V) : List (Nat → Option V) :=
  s.memtable.find :: categoryMaps listed s.bitCategory

variable {listed} {ops : BitOps S β T V} {opened : T → Nat → Option V}
  (maps : ops.Maps listed opened)
include maps

theorem findInLevel_eq (lba : Nat) (metas : List (BitRootMeta β)) (store : S) :
    (findInLevel ops lba metas store).1 =
      .ok (lookupFirst (metas.map fun rootMeta => listed rootMeta.bit) lba) := by
  induction metas generalizing store with
  | nil => rfl
  | cons rootMeta rest ih =>
    rw [map_cons, lookupFirst_cons, findInLevel]
    split
    · obtain ⟨root, read, sameMap⟩ := maps.readFromDisk rootMeta store
      rcases readResult : ops.readFromDisk rootMeta store with ⟨result, afterRead⟩
      rw [readResult] at read
      obtain rfl : result = .ok root := read
      have lookup := maps.findRecord root lba afterRead
      rcases findResult : ops.findRecord root lba afterRead with ⟨found, afterFind⟩
      rw [findResult, sameMap] at lookup
      obtain rfl : found = .ok (listed rootMeta.bit lba) := lookup
      simp only
      rw [findResult]
      cases listed rootMeta.bit lba with
      | none => simpa using ih afterFind
      | some record => rfl
    · rename_i skipped
      cases binding : listed rootMeta.bit lba with
      | none => simpa using ih store
      | some record => exact absurd (maps.contains binding) skipped

theorem findInLevels_eq (category : BitCategory β) (lba : Nat) (levels : List Nat) (store : S) :
    (findInLevels ops category lba levels store).1 =
      .ok (lookupFirst (levels.flatMap (levelMaps listed category)) lba) := by
  induction levels generalizing store with
  | nil => rfl
  | cons level levels ih =>
    rw [flatMap_cons, lookupFirst_append, findInLevels]
    have lookup := findInLevel_eq maps lba (category.iterLevel level) store
    rcases walk : findInLevel ops lba (category.iterLevel level) store with ⟨found, afterWalk⟩
    rw [walk] at lookup
    obtain rfl : found = _ := lookup
    change _ = Except.ok ((lookupFirst (levelMaps listed category level) lba).or _)
    simp only [levelMaps]
    cases lookupFirst ((category.iterLevel level).map fun rootMeta => listed rootMeta.bit) lba with
    | none => simpa using ih afterWalk
    | some record => rfl

theorem findRecord_eq (s : Lsm S β T V) (lba : Nat) :
    (findRecord ops s lba).1 = .ok (lookupFirst (lsmMaps listed s) lba) := by
  rw [lsmMaps, lookupFirst_cons, findRecord]
  cases s.memtable.find lba with
  | none => simpa [categoryMaps] using findInLevels_eq maps s.bitCategory lba _ s.store
  | some record => rfl

theorem readPending_maps {metas : List (BitRootMeta β)} {locals read : CompactionLocals T}
    {store : S} (ok : (readPending ops metas locals store).1 = .ok read) :
    read.bitsPendingCompaction.map opened = locals.bitsPendingCompaction.map opened ++
      metas.map fun rootMeta => listed rootMeta.bit := by
  induction metas generalizing locals store with
  | nil =>
    obtain rfl : locals = read := by simpa [readPending] using ok
    simp
  | cons rootMeta rest ih =>
    rw [readPending] at ok
    obtain ⟨root, readRoot, sameMap⟩ := maps.readFromDisk rootMeta store
    rcases readResult : ops.readFromDisk rootMeta store with ⟨result, afterRead⟩
    rw [readResult] at readRoot ok
    obtain rfl : result = .ok root := readRoot
    rcases pushResult : ops.tryPush afterRead with ⟨_ | _, afterPush⟩
    · simp [pushResult] at ok
    · simp only [pushResult] at ok
      simp [ih ok, sameMap]

end

/-! ## Compaction keeps every lookup -/

variable {listed : β → Nat → Option V}

theorem lookupFirst_categoryMaps (category : BitCategory β) (lba : Nat) :
    lookupFirst (categoryMaps listed category) lba =
      (lookupFirst (levelMaps listed category 0) lba).or
        ((lookupFirst (levelMaps listed category 1) lba).or
          (lookupFirst (levelMaps listed category 2) lba)) := by
  have levels : range lsmTreeMaxLevel = [0, 1, 2] := by decide
  simp [categoryMaps, levels]

theorem lookupFirst_categoryMaps_merge {bit : β} (inside : level + 1 < lsmTreeMaxLevel)
    (merged : listed bit = lookupFirst (levelMaps listed category level)) (lba : Nat) :
    lookupFirst (categoryMaps listed (category.merge level bit)) lba =
      lookupFirst (categoryMaps listed category) lba := by
  have emptied : levelMaps listed (category.merge level bit) level = [] := by
    simp [levelMaps, BitCategory.iterLevel, BitCategory.merge]
  have extended : levelMaps listed (category.merge level bit) (level + 1) =
      listed bit :: levelMaps listed category (level + 1) := by
    simp [levelMaps, BitCategory.iterLevel, BitCategory.merge]
  have kept : ∀ other, other ≠ level → other ≠ level + 1 →
      levelMaps listed (category.merge level bit) other = levelMaps listed category other := by
    intro other notLevel notNext
    simp [levelMaps, BitCategory.iterLevel, BitCategory.merge, notLevel, notNext]
  have merged : listed bit lba = lookupFirst (levelMaps listed category level) lba := by
    rw [merged]
  rw [lookupFirst_categoryMaps, lookupFirst_categoryMaps]
  have cases : level = 0 ∨ level = 1 := by
    unfold lsmTreeMaxLevel at inside
    omega
  rcases cases with rfl | rfl
  · rw [emptied, extended, kept 2 (by decide) (by decide), lookupFirst_cons, merged]
    simp [Option.or_assoc]
  · rw [emptied, extended, kept 0 (by decide) (by decide), lookupFirst_cons, merged]
    simp

/-! ## The invariant and its runs -/

/-- Between two steps the memtable's range covers it, and every lookup yields `latest`. -/
structure NewestWins (listed : β → Nat → Option V) (s : Lsm S β T V) (latest : Nat → Option V) :
    Prop extends Tidy s where
  covered : s.memtable.Covered
  lookup : lookupFirst (lsmMaps listed s) = latest

theorem newestWins_new (listed : β → Nat → Option V) (store : S) :
    NewestWins listed (Lsm.new store : Lsm S β T V) fun _ => none where
  toTidy := tidy_new store
  covered := MemTable.covered_new
  lookup := by
    funext lba
    have unbound : (Lsm.new store : Lsm S β T V).memtable.find lba = none := by
      rw [Lsm.new, MemTable.covered_new.find_eq]
      rfl
    rw [lsmMaps, lookupFirst_cons, lookupFirst_categoryMaps, unbound]
    rfl

section

variable {ops : BitOps S β T V} {opened : T → Nat → Option V} {s : Lsm S β T V}
  {latest : Nat → Option V} (maps : ops.Maps listed opened) (inv : NewestWins listed s latest)
include inv

theorem NewestWins.insert (lba : Nat) (record : V) :
    NewestWins listed (s.step ops (.insert lba record)) (update latest lba (some record)) where
  toTidy := inv.toTidy.step ops _
  covered := inv.covered.insert lba record
  lookup := by
    rw [← inv.lookup]
    simp only [lsmMaps, Lsm.step, inv.covered.find_insert]
    exact lookupFirst_update _ _ _ _

include maps

theorem NewestWins.minorCompaction : NewestWins listed (s.step ops .minorCompaction) latest := by
  have tidy := inv.toTidy.minorCompaction ops
  simp only [Lsm.step, Rust.minorCompaction] at tidy ⊢
  rcases converting : ops.fromMemtable s.memtable s.store with ⟨_ | bit, afterConvert⟩
  · exact ⟨⟨inv.fresh, inv.idle⟩, inv.covered, inv.lookup⟩
  · have converted := maps.fromMemtable (congrArg Prod.fst converting)
    simp only [converting] at tidy
    rcases s.bitCategory.addBit_cases bit (by decide : 0 < lsmTreeMaxLevel)
      (ops.tryPush afterConvert).1 with added | ⟨err, failed⟩
    · simp only [added] at tidy ⊢
      refine ⟨tidy, MemTable.covered_clear _, ?_⟩
      rw [← inv.lookup]
      funext lba
      simp only [lsmMaps, lookupFirst_cons, MemTable.find_clear, lookupFirst_categoryMaps,
        none_or]
      have front : levelMaps listed ⟨s.bitCategory.bitUniqueId + 1,
          update s.bitCategory.category 0
            (s.bitCategory.category 0 ++ [⟨s.bitCategory.bitUniqueId, bit⟩])⟩ 0 =
          listed bit :: levelMaps listed s.bitCategory 0 := by
        simp [levelMaps, BitCategory.iterLevel]
      rw [front, lookupFirst_cons, converted, Option.or_assoc]
      rfl
    · simp only [failed] at tidy ⊢
      exact ⟨tidy, inv.covered, inv.lookup⟩

theorem NewestWins.compaction : NewestWins listed (s.step ops .compaction) latest := by
  have tidy := inv.toTidy.compaction ops
  simp only [Lsm.step, compactionStep] at tidy ⊢
  split
  · exact inv
  · rename_i level locals running
    obtain rfl := inv.idle level locals running
    simp only [running] at tidy
    split
    · rename_i inside
      rw [if_pos inside] at tidy
      have inside : level + 1 < lsmTreeMaxLevel := by omega
      rcases compactionIteration_cases ops inside inv.fresh s.store with ⟨store, idle⟩ |
        ⟨err, store, failed⟩ | ⟨err, store, failed⟩ | ⟨read, afterRead, bit, store, ok, made, done⟩
      · rw [idle] at tidy ⊢
        exact ⟨tidy, inv.covered, inv.lookup⟩
      · rw [failed] at tidy ⊢
        exact ⟨tidy, inv.covered, inv.lookup⟩
      · rw [failed] at tidy ⊢
        exact ⟨tidy, inv.covered, inv.lookup⟩
      · rw [done] at tidy ⊢
        refine ⟨tidy, inv.covered, ?_⟩
        have merged : listed bit = lookupFirst (levelMaps listed s.bitCategory level) := by
          rw [maps.fromCompaction made, readPending_maps maps ok, CompactionLocals.new, map_nil,
            nil_append, levelMaps, BitCategory.iterLevel, map_reverse]
        rw [← inv.lookup]
        funext lba
        simp only [lsmMaps, lookupFirst_cons]
        rw [lookupFirst_categoryMaps_merge inside merged]
    · exact ⟨⟨inv.fresh, by simp⟩, inv.covered, inv.lookup⟩

/-- Every step of every thread keeps the invariant. -/
theorem NewestWins.step (step : LsmStep V) :
    NewestWins listed (s.step ops step)
      (match step with
        | .insert lba record => update latest lba (some record)
        | _ => latest) := by
  cases step with
  | insert lba record => exact inv.insert lba record
  | minorCompaction => exact inv.minorCompaction maps
  | queueWork => exact ⟨inv.toTidy.step ops .queueWork, inv.covered, inv.lookup⟩
  | compaction => exact inv.compaction maps

theorem NewestWins.run (steps : List (LsmStep V)) :
    NewestWins listed (s.run ops steps)
      (steps.foldl (fun latest step =>
        match step with
        | .insert lba record => update latest lba (some record)
        | _ => latest) latest) := by
  induction steps generalizing s latest with
  | nil => exact inv
  | cons step steps ih => exact ih (inv.step maps step)

end

/-- After any interleaving of writer and compaction steps, failed ones included,
the lookup of a read request returns the record of the latest insertion, and
nothing for an address never inserted. -/
theorem findRecord_run_eq_latestInsert (ops : BitOps S β T V) (listed : β → Nat → Option V)
    (opened : T → Nat → Option V) (maps : ops.Maps listed opened) (store : S)
    (steps : List (LsmStep V)) (lba : Nat) :
    (findRecord ops ((Lsm.new store).run ops steps) lba).1 = .ok (latestInsert steps lba) := by
  have inv := (newestWins_new listed store).run maps steps
  rw [findRecord_eq maps, inv.lookup]
  rfl

def functionOps (V : Type) : BitOps Unit (Nat → Option V) (Nat → Option V) V where
  fromMemtable memtable store := (.ok memtable.find, store)
  readFromDisk rootMeta store := (.ok rootMeta.bit, store)
  fromCompaction bits store := (.ok (lookupFirst bits.reverse), store)
  contains rootMeta lba := (rootMeta.bit lba).isSome
  findRecord bit lba store := (.ok (bit lba), store)
  tryPush store := (true, store)

theorem functionOps_maps (V : Type) : (functionOps V).Maps id id where
  fromMemtable made := (Except.ok.inj made).symm
  fromCompaction made := by
    rw [List.map_id]
    exact (Except.ok.inj made).symm
  readFromDisk rootMeta _ := ⟨rootMeta.bit, rfl, rfl⟩
  findRecord _ _ _ := rfl
  contains bound := Option.isSome_iff_exists.mpr ⟨_, bound⟩

/-- Six tables, each with address 5 and an address of its own, of which the worker makes one. -/
def sixTables : List (LsmStep Nat) :=
  ((List.range 6).flatMap fun i => [.insert 5 i, .insert (10 + i) i, .minorCompaction]) ++
    [.queueWork, .compaction]

/-- The level was merged; address 5 has the record of the last table and 12 that of the third. -/
theorem findRecord_sixTables :
    let s := (Lsm.new ()).run (functionOps Nat) sixTables
    (s.bitCategory.levelSize 0 = 0 ∧ s.bitCategory.levelSize 1 = 1) ∧
      (findRecord (functionOps Nat) s 5).1 = .ok (some 5) ∧
      (findRecord (functionOps Nat) s 12).1 = .ok (some 2) ∧
      (findRecord (functionOps Nat) s 16).1 = .ok none := by
  refine ⟨by decide, ?_, ?_, ?_⟩ <;>
    exact findRecord_run_eq_latestInsert (functionOps Nat) id id (functionOps_maps Nat) () _ _

end SwornDisk.Rust
