import Mathlib.Data.List.Nodup
import SwornDisk.Lib.FairRun
import SwornDisk.Rust.BitCategory

/-!
# Dispatch of bios to the I/O workers

`DmSwornDiskHandler::map` appends a bio to `bio_queue` and queues one of the
`MAX_WORKERS` work items; the runs of `IoWorker::work` drain the queue.  A work
item is queued at most once at a time (`pending`) and its runs do not overlap
(`running`).  The model interleaves the calls of `map` with the steps of the runs
and keeps a history of the bios pushed, taken and ended.
-/

namespace SwornDisk.Rust

open Lib List Function Option

def maxWorkers : Nat := 6

/-- `bio.operation()`: `READ`, `WRITE`, `FLUSH` or any other request. -/
inductive Operation where
  | read
  | write
  | flush
  | other (code : Nat)
deriving DecidableEq, Repr

/-- A bio in the queue; `number` counts the pushes and so tells bios apart. -/
structure Bio where
  number : Nat
  operation : Operation
deriving DecidableEq, Repr

/-- Where a run of `IoWorker::work` stands. -/
inductive Phase where
  /-- not running -/
  | resting
  /-- at the head of the loop, about to take the lock and pop -/
  | popping
  /-- inside the handler of the bio it took -/
  | serving (bio : Bio)
  /-- the handler returned an error and the bio is about to be ended -/
  | failing (bio : Bio)
  /-- found the queue empty and left the loop -/
  | leaving
deriving DecidableEq, Repr

/-- A `WorkStruct`: queued or not, and the run in progress. -/
structure WorkItem where
  pending : Bool
  phase : Phase
deriving DecidableEq, Repr

def Phase.bio : Phase → Option Bio
  | .serving bio => some bio
  | .failing bio => some bio
  | _ => none

/-- Between the clearing of the pending bit and the return of `work`. -/
def Phase.running : Phase → Bool
  | .resting => false
  | _ => true

def Phase.inLoop : Phase → Bool
  | .popping => true
  | .serving _ => true
  | .failing _ => true
  | _ => false

/-- Queue and work items, with the history: how many bios were pushed, which worker
took which, and which were ended. -/
structure Dispatch where
  bioQueue : List Bio
  rwWorker : Fin maxWorkers → WorkItem
  pushed : Nat
  taken : List (Fin maxWorkers × Nat)
  ended : List Nat

/-- After `ctr`: nothing queued, every work item initialised. -/
def Dispatch.new : Dispatch where
  bioQueue := []
  rwWorker := fun _ => ⟨false, .resting⟩
  pushed := 0
  taken := []
  ended := []

/-- What `map` tells the device mapper. -/
inductive MapStatus where
  | submitted
  | kill
deriving DecidableEq, Repr

def Dispatch.setWorker (s : Dispatch) (worker : Fin maxWorkers) (item : WorkItem) : Dispatch :=
  { s with rwWorker := Function.update s.rwWorker worker item }

/-- `WorkQueue::queue_work`: the item becomes pending unless it already is. -/
def Dispatch.queueWork (s : Dispatch) (worker : Fin maxWorkers) : Dispatch :=
  s.setWorker worker ⟨true, (s.rwWorker worker).phase⟩

/-- `bio_queue.push_back(bio)`, with a node. -/
def Dispatch.pushBack (s : Dispatch) (operation : Operation) : Dispatch :=
  { s with bioQueue := s.bioQueue ++ [⟨s.pushed, operation⟩], pushed := s.pushed + 1 }

/-- `worker_nr`: the timestamp modulo `MAX_WORKERS`. -/
def workerNr (timestamp : Nat) : Fin maxWorkers :=
  ⟨timestamp % maxWorkers, Nat.mod_lt _ (by decide)⟩

/-- `DmSwornDiskHandler::map`.  `setDev` and `allocNode` are the results of
`bio.set_dev` and of the allocation in `push_back`.  The lock of `bio_queue` is held
over `push_back` and `queue_work`, so no run pops between them. -/
def Dispatch.map (s : Dispatch) (operation : Operation) (setDev allocNode : Except Error Unit)
    (timestamp : Nat) : Except Error MapStatus × Dispatch :=
  match setDev with
  | .error err => (.error err, s)
  | .ok () =>
    match operation with
    | .other _ => (.ok .kill, s)
    | .read | .write | .flush =>
      match allocNode with
      | .error err => (.error err, s)
      | .ok () =>
        (.ok .submitted, (s.pushBack operation).queueWork (workerNr timestamp))

/-- `bio.end()` -/
def Bio.endIo (bio : Bio) (ended : List Nat) : List Nat :=
  ended ++ [bio.number]

/-- How the fallible parts of a handler turn out: the lookups of a read or the
block writes of a write, and `set_data`. -/
structure Outcome where
  body : Except Error Unit
  setData : Except Error Unit

section

variable (outcome : Outcome) (bio : Bio) (ended : List Nat)

/-- `IoWorker::handle_read_request`, as far as it completes the bio. -/
def handleReadRequest : Except Error Unit × List Nat :=
  match outcome.body with
  | .error err => (.error err, ended)
  | .ok () =>
    match outcome.setData with
    | .error err => (.error err, ended)
    | .ok () => (.ok (), bio.endIo ended)

/-- `IoWorker::handle_write_request`, as far as it completes the bio. -/
def handleWriteRequest : Except Error Unit × List Nat :=
  match outcome.body with
  | .error err => (.error err, ended)
  | .ok () => (.ok (), bio.endIo ended)

/-- The `match operation` of `IoWorker::work`. -/
def handleRequest : Except Error Unit × List Nat :=
  match bio.operation with
  | .read => handleReadRequest outcome bio ended
  | .write => handleWriteRequest outcome bio ended
  | _ => (.ok (), bio.endIo ended)

theorem handleRequest_cases :
    handleRequest outcome bio ended = (.ok (), bio.endIo ended) ∨
      ∃ err, handleRequest outcome bio ended = (.error err, ended) := by
  unfold handleRequest handleReadRequest handleWriteRequest
  cases bio.operation <;> cases outcome.body <;> cases outcome.setData <;> simp

end

/-- One event: a call of `map`, or the next action of the run of one work item. -/
inductive Event where
  | map (operation : Operation) (setDev allocNode : Except Error Unit) (timestamp : Nat)
  | start (worker : Fin maxWorkers)
  | popFront (worker : Fin maxWorkers)
  | handle (worker : Fin maxWorkers) (outcome : Outcome)
  | endFailed (worker : Fin maxWorkers)
  | leave (worker : Fin maxWorkers)

def Event.worker : Event → Option (Fin maxWorkers)
  | .map .. => none
  | .start worker | .popFront worker | .handle worker _ | .endFailed worker | .leave worker =>
    some worker

section

variable (s : Dispatch) (worker : Fin maxWorkers)

def Dispatch.setPhase (phase : Phase) : Dispatch :=
  s.setWorker worker ⟨(s.rwWorker worker).pending, phase⟩

/-- The work queue takes up a pending item: the pending bit is cleared first. -/
def Dispatch.start : Dispatch :=
  s.setWorker worker ⟨false, .popping⟩

def Dispatch.take (bio : Bio) (rest : List Bio) : Dispatch :=
  { s.setPhase worker (.serving bio) with
    bioQueue := rest
    taken := s.taken ++ [(worker, bio.number)] }

/-- The head of the loop of `IoWorker::work`: pop under the lock, break on `None`. -/
def Dispatch.popFront : Dispatch :=
  match s.bioQueue with
  | [] => s.setPhase worker .leaving
  | bio :: rest => s.take worker bio rest

/-- The handler returns: back to the head of the loop, or on to the error branch. -/
def Dispatch.handle (bio : Bio) (outcome : Outcome) : Dispatch :=
  match handleRequest outcome bio s.ended with
  | (.ok (), ended) => { s.setPhase worker .popping with ended := ended }
  | (.error _, ended) => { s.setPhase worker (.failing bio) with ended := ended }

/-- The error branch of `IoWorker::work` ends the bio. -/
def Dispatch.endFailed (bio : Bio) : Dispatch :=
  { s.setPhase worker .popping with ended := bio.endIo s.ended }

end

def Dispatch.step (s : Dispatch) : Event → Option Dispatch
  | .map operation setDev allocNode timestamp =>
    some (s.map operation setDev allocNode timestamp).2
  | .start worker =>
    match s.rwWorker worker with
    | ⟨true, .resting⟩ => some (s.start worker)
    | _ => none
  | .popFront worker =>
    match (s.rwWorker worker).phase with
    | .popping => some (s.popFront worker)
    | _ => none
  | .handle worker outcome =>
    match (s.rwWorker worker).phase with
    | .serving bio => some (s.handle worker bio outcome)
    | _ => none
  | .endFailed worker =>
    match (s.rwWorker worker).phase with
    | .failing bio => some (s.endFailed worker bio)
    | _ => none
  | .leave worker =>
    match (s.rwWorker worker).phase with
    | .leaving => some (s.setPhase worker .resting)
    | _ => none

/-- The effects of an event, by the worker that acts (none for `map`). -/
inductive Effect (s : Dispatch) : Option (Fin maxWorkers) → Dispatch → Prop where
  /-- `map` failed or killed the bio -/
  | refused : Effect s none s
  /-- `map` pushed a bio and queued a worker -/
  | pushed (operation : Operation) (worker : Fin maxWorkers) :
      Effect s none ((s.pushBack operation).queueWork worker)
  | started (worker : Fin maxWorkers) (ready : s.rwWorker worker = ⟨true, .resting⟩) :
      Effect s (some worker) (s.setWorker worker ⟨false, .popping⟩)
  /-- popped `None` -/
  | drained (worker : Fin maxWorkers) (phase : (s.rwWorker worker).phase = .popping)
      (empty : s.bioQueue = []) : Effect s (some worker) (s.setPhase worker .leaving)
  | took (worker : Fin maxWorkers) (phase : (s.rwWorker worker).phase = .popping) (bio : Bio)
      (rest : List Bio) (queue : s.bioQueue = bio :: rest) :
      Effect s (some worker) (s.take worker bio rest)
  /-- the handler succeeded, or the error branch ran -/
  | finished (worker : Fin maxWorkers) (bio : Bio)
      (holds : (s.rwWorker worker).phase.bio = some bio) :
      Effect s (some worker) (s.endFailed worker bio)
  | failed (worker : Fin maxWorkers) (bio : Bio)
      (phase : (s.rwWorker worker).phase = .serving bio) :
      Effect s (some worker) (s.setPhase worker (.failing bio))
  | left (worker : Fin maxWorkers) (phase : (s.rwWorker worker).phase = .leaving) :
      Effect s (some worker) (s.setPhase worker .resting)

theorem Dispatch.map_effect (s : Dispatch) (operation : Operation)
    (setDev allocNode : Except Error Unit) (timestamp : Nat) :
    Effect s none (s.map operation setDev allocNode timestamp).2 := by
  unfold Dispatch.map
  cases setDev with
  | error err => exact .refused
  | ok =>
    cases operation with
    | other code => exact .refused
    | read | write | flush =>
      cases allocNode with
      | error err => exact .refused
      | ok => exact .pushed _ _

theorem Dispatch.handle_effect (s : Dispatch) (worker : Fin maxWorkers) (bio : Bio)
    (outcome : Outcome) (phase : (s.rwWorker worker).phase = .serving bio) :
    Effect s (some worker) (s.handle worker bio outcome) := by
  unfold Dispatch.handle
  rcases handleRequest_cases outcome bio s.ended with served | ⟨err, served⟩
  · rw [served]
    exact .finished worker bio (by rw [phase]; rfl)
  · rw [served]
    exact .failed worker bio phase

variable {s s' : Dispatch} {event : Event}

theorem Dispatch.step_effect (stepped : s.step event = some s') :
    Effect s event.worker s' := by
  cases event with
  | map operation setDev allocNode timestamp =>
    cases stepped
    exact s.map_effect operation setDev allocNode timestamp
  | start worker =>
    simp only [Dispatch.step] at stepped
    split at stepped
    · next ready =>
        cases stepped
        exact .started worker ready
    · cases stepped
  | popFront worker =>
    simp only [Dispatch.step] at stepped
    split at stepped
    · next phase =>
        cases stepped
        unfold Dispatch.popFront
        split
        · next empty => exact .drained worker phase empty
        · next bio rest queue => exact .took worker phase bio rest queue
    · cases stepped
  | handle worker outcome =>
    simp only [Dispatch.step] at stepped
    split at stepped
    · next bio phase =>
        cases stepped
        exact s.handle_effect worker bio outcome phase
    · cases stepped
  | endFailed worker =>
    simp only [Dispatch.step] at stepped
    split at stepped
    · next bio phase =>
        cases stepped
        exact .finished worker bio (by rw [phase]; rfl)
    · cases stepped
  | leave worker =>
    simp only [Dispatch.step] at stepped
    split at stepped
    · next phase =>
        cases stepped
        exact .left worker phase
    · cases stepped

/-- The item will look at the queue again without being queued once more. -/
def WorkItem.Active (item : WorkItem) : Prop :=
  item.pending = true ∨ item.phase.inLoop = true

def Dispatch.Holds (s : Dispatch) (worker : Fin maxWorkers) (bio : Bio) : Prop :=
  (s.rwWorker worker).phase.bio = some bio

def Dispatch.takenNumbers (s : Dispatch) : List Nat :=
  s.taken.map Prod.snd

/-- Bios are taken in the order of their pushes; a taken bio is held by the worker
that took it until it is ended; a non-empty queue has a worker to come. -/
structure DispatchInv (s : Dispatch) : Prop where
  order : s.takenNumbers ++ s.bioQueue.map Bio.number = List.range s.pushed
  takes : ∀ worker bio, s.Holds worker bio → (worker, bio.number) ∈ s.taken
  unended : ∀ worker bio, s.Holds worker bio → bio.number ∉ s.ended
  accounted : ∀ number ∈ s.takenNumbers,
    number ∈ s.ended ∨ ∃ worker bio, s.Holds worker bio ∧ bio.number = number
  endedTaken : ∀ number ∈ s.ended, number ∈ s.takenNumbers
  endedOnce : s.ended.Nodup
  awake : s.bioQueue ≠ [] → ∃ worker, (s.rwWorker worker).Active

theorem DispatchInv.takenNumbers_nodup (inv : DispatchInv s) :
    s.takenNumbers.Nodup := by
  have nodup := nodup_range (n := s.pushed)
  rw [← inv.order] at nodup
  exact nodup.of_append_left

theorem DispatchInv.takenNumbers_eq (inv : DispatchInv s) :
    s.takenNumbers = range s.taken.length := by
  have length : s.taken.length ≤ s.pushed := by
    have lengths := congrArg length inv.order
    simp only [Dispatch.takenNumbers, length_append, length_map, length_range]
      at lengths
    omega
  have taken := congrArg (List.take s.taken.length) inv.order
  rw [take_range, Nat.min_eq_left length] at taken
  rw [← taken, take_left' (by simp [Dispatch.takenNumbers])]

variable {number : Nat}

theorem DispatchInv.taker_unique (inv : DispatchInv s) {left right : Fin maxWorkers}
    (leftTook : (left, number) ∈ s.taken) (rightTook : (right, number) ∈ s.taken) :
    left = right := by
  have pairwise := inj_on_of_nodup_map inv.takenNumbers_nodup
  exact congrArg Prod.fst (pairwise leftTook rightTook rfl)

variable {bio bio' : Bio}

theorem DispatchInv.holder_unique (inv : DispatchInv s) {left right : Fin maxWorkers}
    (leftHolds : s.Holds left bio) (rightHolds : s.Holds right bio')
    (same : bio.number = bio'.number) : left = right := by
  have leftTook := inv.takes left bio leftHolds
  rw [same] at leftTook
  exact inv.taker_unique leftTook (inv.takes right bio' rightHolds)

theorem dispatchInv_new : DispatchInv Dispatch.new where
  order := rfl
  takes := by intro worker bio holds; cases holds
  unended := by intro worker bio holds; cases holds
  accounted := by intro number taken; cases taken
  endedTaken := by intro number ended; cases ended
  endedOnce := nodup_nil
  awake := fun nonempty => absurd rfl nonempty

theorem Dispatch.rwWorker_setWorker (s : Dispatch) (worker other : Fin maxWorkers)
    (item : WorkItem) :
    (s.setWorker worker item).rwWorker other = if other = worker then item else s.rwWorker other :=
  update_apply ..

variable {item : WorkItem}

theorem Dispatch.holds_setWorker {worker : Fin maxWorkers}
    (same : item.phase.bio = (s.rwWorker worker).phase.bio) (other : Fin maxWorkers) (bio : Bio) :
    (s.setWorker worker item).Holds other bio ↔ s.Holds other bio := by
  unfold Dispatch.Holds
  rw [Dispatch.rwWorker_setWorker]
  split
  · next eq => rw [same, eq]
  · rfl

theorem DispatchInv.of_sameHolds (inv : DispatchInv s)
    (holds : ∀ worker bio, s'.Holds worker bio ↔ s.Holds worker bio) (taken : s'.taken = s.taken)
    (ended : s'.ended = s.ended)
    (order : s.takenNumbers ++ s'.bioQueue.map Bio.number = range s'.pushed)
    (awake : s'.bioQueue ≠ [] → ∃ worker, (s'.rwWorker worker).Active) : DispatchInv s' := by
  have numbers : s'.takenNumbers = s.takenNumbers := congrArg (map Prod.snd) taken
  constructor
  · rw [numbers]
    exact order
  · simp only [holds, taken]
    exact inv.takes
  · simp only [holds, ended]
    exact inv.unended
  · simp only [holds, ended, numbers]
    exact inv.accounted
  · rw [ended, numbers]
    exact inv.endedTaken
  · rw [ended]
    exact inv.endedOnce
  · exact awake

theorem DispatchInv.pushed (inv : DispatchInv s) (operation : Operation) (worker : Fin maxWorkers) :
    DispatchInv ((s.pushBack operation).queueWork worker) := by
  refine inv.of_sameHolds (Dispatch.holds_setWorker (s := s.pushBack operation) rfl) rfl rfl ?_ ?_
  · change s.takenNumbers ++ (s.bioQueue ++ [Bio.mk s.pushed operation]).map Bio.number =
      range (s.pushed + 1)
    rw [map_append, ← append_assoc, inv.order, range_succ]
    rfl
  · intro _
    refine ⟨worker, Or.inl ?_⟩
    rw [Dispatch.queueWork, Dispatch.rwWorker_setWorker, if_pos rfl]

theorem DispatchInv.awake_setWorker (inv : DispatchInv s) {worker : Fin maxWorkers}
    (active : (s.rwWorker worker).Active → item.Active) (nonempty : s.bioQueue ≠ []) :
    ∃ other, ((s.setWorker worker item).rwWorker other).Active := by
  obtain ⟨other, otherActive⟩ := inv.awake nonempty
  refine ⟨other, ?_⟩
  rw [Dispatch.rwWorker_setWorker]
  split
  · next eq =>
      rw [eq] at otherActive
      exact active otherActive
  · exact otherActive

variable {rest : List Bio}

theorem Dispatch.holds_take {worker other : Fin maxWorkers}
    (holds : (s.take worker bio rest).Holds other bio') :
    other = worker ∧ bio' = bio ∨ s.Holds other bio' := by
  change ((s.setWorker worker _).rwWorker other).phase.bio = some bio' at holds
  rw [Dispatch.rwWorker_setWorker] at holds
  split at holds
  · next eq => exact Or.inl ⟨eq, (some.inj holds).symm⟩
  · exact Or.inr holds

theorem DispatchInv.took (inv : DispatchInv s) {worker : Fin maxWorkers}
    (phase : (s.rwWorker worker).phase = .popping) (queue : s.bioQueue = bio :: rest) :
    DispatchInv (s.take worker bio rest) := by
  have numbers : (s.take worker bio rest).takenNumbers = s.takenNumbers ++ [bio.number] :=
    map_append
  have order : s.takenNumbers ++ bio.number :: rest.map Bio.number = range s.pushed := by
    rw [← inv.order, queue]
    rfl
  have fresh : bio.number ∉ s.takenNumbers := by
    have nodup := nodup_range (n := s.pushed)
    rw [← order] at nodup
    intro taken
    exact disjoint_of_nodup_append nodup taken mem_cons_self
  have served : (s.take worker bio rest).Holds worker bio := by
    change ((s.setWorker worker _).rwWorker worker).phase.bio = some bio
    rw [Dispatch.rwWorker_setWorker, if_pos rfl]
    rfl
  have kept : ∀ other bio', s.Holds other bio' → (s.take worker bio rest).Holds other bio' := by
    intro other bio' holds
    change ((s.setWorker worker _).rwWorker other).phase.bio = some bio'
    rw [Dispatch.rwWorker_setWorker]
    split
    · next eq =>
        -- a run about to pop holds nothing
        rw [eq, Dispatch.Holds, phase] at holds
        exact nomatch holds
    · exact holds
  constructor
  · rw [numbers, append_assoc]
    exact order
  · intro other bio' holds
    rcases Dispatch.holds_take holds with ⟨rfl, rfl⟩ | holds
    · exact mem_append_right _ mem_cons_self
    · exact mem_append_left _ (inv.takes other bio' holds)
  · intro other bio' holds ended
    rcases Dispatch.holds_take holds with ⟨rfl, rfl⟩ | holds
    · exact fresh (inv.endedTaken _ ended)
    · exact inv.unended other bio' holds ended
  · intro number taken
    rw [numbers, mem_append, mem_singleton] at taken
    rcases taken with taken | rfl
    · rcases inv.accounted number taken with ended | ⟨other, bio', holds, same⟩
      · exact Or.inl ended
      · exact Or.inr ⟨other, bio', kept other bio' holds, same⟩
    · exact Or.inr ⟨worker, bio, served, rfl⟩
  · intro number ended
    rw [numbers]
    exact mem_append_left _ (inv.endedTaken number ended)
  · exact inv.endedOnce
  · intro _
    refine ⟨worker, Or.inr ?_⟩
    change ((s.setWorker worker _).rwWorker worker).phase.inLoop = true
    rw [Dispatch.rwWorker_setWorker, if_pos rfl]
    rfl

theorem Dispatch.holds_endFailed {worker other : Fin maxWorkers} :
    (s.endFailed worker bio).Holds other bio' ↔ other ≠ worker ∧ s.Holds other bio' := by
  change ((s.setWorker worker _).rwWorker other).phase.bio = some bio' ↔ _
  rw [Dispatch.rwWorker_setWorker]
  split
  · next eq => simp [eq, Phase.bio]
  · next ne => simp [ne, Dispatch.Holds]

theorem DispatchInv.finished (inv : DispatchInv s) {worker : Fin maxWorkers}
    (held : s.Holds worker bio) : DispatchInv (s.endFailed worker bio) := by
  have ended : (s.endFailed worker bio).ended = s.ended ++ [bio.number] := rfl
  constructor
  · exact inv.order
  · intro other bio' holds
    exact inv.takes other bio' (Dispatch.holds_endFailed.mp holds).2
  · intro other bio' holds
    obtain ⟨different, holds⟩ := Dispatch.holds_endFailed.mp holds
    rw [ended, mem_append, mem_singleton]
    rintro (before | now)
    · exact inv.unended other bio' holds before
    · exact different (inv.holder_unique holds held now)
  · intro number taken
    rw [ended, mem_append, mem_singleton]
    rcases inv.accounted number taken with before | ⟨other, bio', holds, same⟩
    · exact Or.inl (Or.inl before)
    · by_cases eq : other = worker
      · rw [eq, Dispatch.Holds, held] at holds
        obtain rfl := some.inj holds
        exact Or.inl (Or.inr same.symm)
      · exact Or.inr ⟨other, bio', Dispatch.holds_endFailed.mpr ⟨eq, holds⟩, same⟩
  · intro number
    rw [ended, mem_append, mem_singleton]
    rintro (before | rfl)
    · exact inv.endedTaken number before
    · exact mem_map_of_mem (inv.takes worker bio held)
  · rw [ended]
    refine nodup_append.mpr ⟨inv.endedOnce, nodup_singleton _, ?_⟩
    intro number before other now same
    rw [same, mem_singleton.mp now] at before
    exact inv.unended worker bio held before
  · exact inv.awake_setWorker fun _ => Or.inr rfl

theorem DispatchInv.effect {actor : Option (Fin maxWorkers)} (inv : DispatchInv s)
    (effect : Effect s actor s') : DispatchInv s' := by
  cases effect with
  | refused => exact inv
  | pushed operation worker => exact inv.pushed operation worker
  | started worker ready =>
    refine inv.of_sameHolds (Dispatch.holds_setWorker (by rw [ready]; rfl)) rfl rfl inv.order ?_
    exact inv.awake_setWorker fun _ => Or.inr rfl
  | drained worker phase empty =>
    refine inv.of_sameHolds (Dispatch.holds_setWorker (by rw [phase]; rfl)) rfl rfl inv.order ?_
    exact fun nonempty => absurd empty nonempty
  | took worker phase bio rest queue => exact inv.took phase queue
  | finished worker bio holds => exact inv.finished holds
  | failed worker bio phase =>
    refine inv.of_sameHolds (Dispatch.holds_setWorker (by rw [phase]; rfl)) rfl rfl inv.order ?_
    exact inv.awake_setWorker fun _ => Or.inr rfl
  | left worker phase =>
    refine inv.of_sameHolds (Dispatch.holds_setWorker (by rw [phase]; rfl)) rfl rfl inv.order ?_
    refine inv.awake_setWorker fun active => Or.inl ?_
    -- a run that has left the loop is active only through its pending bit
    rcases active with pending | inLoop
    · exact pending
    · rw [phase] at inLoop
      exact nomatch inLoop

theorem DispatchInv.step (inv : DispatchInv s) (stepped : s.step event = some s') :
    DispatchInv s' :=
  inv.effect (Dispatch.step_effect stepped)

theorem dispatchInv_of_reachable (reachable : Reachable Dispatch.step Dispatch.new s) :
    DispatchInv s :=
  reachable.invariant dispatchInv_new fun _ _ _ inv stepped => inv.step stepped

def Dispatch.Quiet (s : Dispatch) : Prop :=
  ∀ worker, (s.rwWorker worker).pending = false ∧ (s.rwWorker worker).phase.running = false

/-- The bio was not taken or ended twice, and not ended before it was taken. -/
def Dispatch.AtMostOnce (s : Dispatch) (number : Nat) : Prop :=
  s.takenNumbers.count number ≤ 1 ∧ s.ended.count number ≤ s.takenNumbers.count number

def Dispatch.CompletedOnce (s : Dispatch) (number : Nat) : Prop :=
  (∃! worker, (worker, number) ∈ s.taken) ∧ s.takenNumbers.count number = 1 ∧
    s.ended.count number = 1

theorem DispatchInv.atMostOnce (inv : DispatchInv s) (number : Nat) :
    s.AtMostOnce number := by
  refine ⟨nodup_iff_count_le_one.mp inv.takenNumbers_nodup number, ?_⟩
  by_cases ended : number ∈ s.ended
  · rw [count_eq_one_of_mem inv.endedOnce ended]
    exact count_pos_iff.mpr (inv.endedTaken number ended)
  · rw [count_eq_zero_of_not_mem ended]
    exact Nat.zero_le _

theorem DispatchInv.completedOnce (inv : DispatchInv s) (ended : number ∈ s.ended) :
    s.CompletedOnce number := by
  have taken := inv.endedTaken number ended
  refine ⟨?_, count_eq_one_of_mem inv.takenNumbers_nodup taken,
    count_eq_one_of_mem inv.endedOnce ended⟩
  obtain ⟨⟨worker, _⟩, took, rfl⟩ := mem_map.mp taken
  exact ⟨worker, took, fun other otherTook => inv.taker_unique otherTook took⟩

theorem Phase.eq_resting {phase : Phase} (notRunning : phase.running = false) :
    phase = .resting := by
  cases phase <;> simp_all [Phase.running]

theorem DispatchInv.bioQueue_eq_nil (inv : DispatchInv s) (quiet : s.Quiet) :
    s.bioQueue = [] := by
  by_contra nonempty
  obtain ⟨worker, active⟩ := inv.awake nonempty
  obtain ⟨notPending, notRunning⟩ := quiet worker
  rcases active with pending | inLoop
  · rw [pending] at notPending
    exact nomatch notPending
  · rw [Phase.eq_resting notRunning] at inLoop
    exact nomatch inLoop

theorem DispatchInv.ended_of_quiet (inv : DispatchInv s) (quiet : s.Quiet)
    (pushed : number < s.pushed) : number ∈ s.ended := by
  have order := inv.order
  rw [inv.bioQueue_eq_nil quiet, map_nil, append_nil] at order
  have taken : number ∈ s.takenNumbers := by
    rw [order]
    exact mem_range.mpr pushed
  rcases inv.accounted number taken with ended | ⟨worker, bio, holds, -⟩
  · exact ended
  · rw [Dispatch.Holds, Phase.eq_resting (quiet worker).2] at holds
    exact nomatch holds

end SwornDisk.Rust
