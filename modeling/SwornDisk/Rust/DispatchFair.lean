import SwornDisk.Rust.Dispatch

/-!
# Every bio is ended in a fair run

A run of a work item is at most two steps away from its next pop, so a worker that
keeps moving takes the next bio of a non-empty queue and ends the bio it holds.
-/

namespace SwornDisk.Rust

open Lib List Option

variable {s : Dispatch}

theorem Dispatch.enabled {worker : Fin maxWorkers} (awake : s.rwWorker worker ≠ ⟨false, .resting⟩) :
    Enabled Dispatch.step Event.worker s worker := by
  cases item : s.rwWorker worker with
  | mk pending phase =>
    cases phase with
    | resting =>
      cases pending with
      | false => exact absurd item awake
      | true => exact ⟨.start worker, _, rfl, by simp only [Dispatch.step, item]; rfl⟩
    | popping => exact ⟨.popFront worker, _, rfl, by simp only [Dispatch.step, item]; rfl⟩
    | serving bio =>
      exact ⟨.handle worker ⟨.ok (), .ok ()⟩, _, rfl, by simp only [Dispatch.step, item]; rfl⟩
    | failing bio => exact ⟨.endFailed worker, _, rfl, by simp only [Dispatch.step, item]; rfl⟩
    | leaving => exact ⟨.leave worker, _, rfl, by simp only [Dispatch.step, item]; rfl⟩

theorem Dispatch.not_enabled {worker : Fin maxWorkers}
    (resting : s.rwWorker worker = ⟨false, .resting⟩) :
    ¬ Enabled Dispatch.step Event.worker s worker := by
  rintro ⟨event, s', own, stepped⟩
  have effect := Dispatch.step_effect stepped
  rw [own] at effect
  cases effect <;> simp_all [Phase.bio]

def Phase.stepsToPop : Phase → Nat
  | .popping => 0
  | .resting => 1
  | .failing _ => 1
  | .serving _ => 2
  | .leaving => 2

/-- A worker that is awake stays so; the steps to its next pop do not grow, and they
get fewer when the worker itself moved. -/
def Closer (worker : Fin maxWorkers) (actor : Option (Fin maxWorkers)) (s s' : Dispatch) : Prop :=
  (s'.rwWorker worker).Active ∧
    ((s'.rwWorker worker).phase.stepsToPop < (s.rwWorker worker).phase.stepsToPop ∨
      (s'.rwWorker worker).phase.stepsToPop = (s.rwWorker worker).phase.stepsToPop ∧
        actor ≠ some worker)

variable {s' : Dispatch}

theorem closer_setWorker {worker acting : Fin maxWorkers} {item : WorkItem}
    (items : s'.rwWorker = (s.setWorker acting item).rwWorker)
    (active : (s.rwWorker worker).Active) (own : acting = worker → item.Active ∧
      item.phase.stepsToPop < (s.rwWorker worker).phase.stepsToPop) :
    Closer worker (some acting) s s' := by
  unfold Closer
  rw [items, Dispatch.rwWorker_setWorker]
  split
  · next eq =>
      obtain ⟨itemActive, fewer⟩ := own eq.symm
      exact ⟨itemActive, Or.inl fewer⟩
  · next ne => exact ⟨active, Or.inr ⟨rfl, fun same => ne (some.inj same).symm⟩⟩

theorem Effect.closer {actor : Option (Fin maxWorkers)} (effect : Effect s actor s')
    {worker : Fin maxWorkers} (active : (s.rwWorker worker).Active) (nonempty : s.bioQueue ≠ []) :
    s.taken.length < s'.taken.length ∨ s'.taken = s.taken ∧ Closer worker actor s s' := by
  cases effect with
  | refused => exact Or.inr ⟨rfl, active, Or.inr ⟨rfl, (some_ne_none worker).symm⟩⟩
  | pushed operation queued =>
    refine Or.inr ⟨rfl, ?_⟩
    unfold Closer
    rw [Dispatch.queueWork, Dispatch.rwWorker_setWorker]
    split
    · next eq => exact ⟨Or.inl rfl, Or.inr ⟨by rw [eq]; rfl, (some_ne_none worker).symm⟩⟩
    · exact ⟨active, Or.inr ⟨rfl, (some_ne_none worker).symm⟩⟩
  | started acting ready =>
    refine Or.inr ⟨rfl, closer_setWorker rfl active ?_⟩
    rintro rfl
    rw [ready]
    exact ⟨Or.inr rfl, Nat.zero_lt_one⟩
  | drained acting phase empty => exact absurd empty nonempty
  | took acting phase bio rest queue =>
    refine Or.inl ?_
    change s.taken.length < (s.taken ++ [(acting, bio.number)]).length
    rw [length_append]
    exact Nat.lt_add_one _
  | finished acting bio holds =>
    refine Or.inr ⟨rfl, closer_setWorker rfl active ?_⟩
    rintro rfl
    refine ⟨Or.inr rfl, ?_⟩
    cases phase : (s.rwWorker acting).phase <;> simp_all [Phase.bio, Phase.stepsToPop]
  | failed acting bio phase =>
    refine Or.inr ⟨rfl, closer_setWorker rfl active ?_⟩
    rintro rfl
    rw [phase]
    exact ⟨Or.inr rfl, Nat.one_lt_two⟩
  | left acting phase =>
    refine Or.inr ⟨rfl, closer_setWorker rfl active ?_⟩
    rintro rfl
    rw [phase]
    refine ⟨Or.inl ?_, Nat.one_lt_two⟩
    rcases active with pending | inLoop
    · exact pending
    · rw [phase] at inLoop
      cases inLoop

/-- A held bio is ended, or stays with its worker, which comes closer to ending it. -/
def Served (worker : Fin maxWorkers) (bio : Bio) (actor : Option (Fin maxWorkers))
    (s s' : Dispatch) : Prop :=
  bio.number ∈ s'.ended ∨ s'.Holds worker bio ∧
    ((s'.rwWorker worker).phase.stepsToPop < (s.rwWorker worker).phase.stepsToPop ∨
      (s'.rwWorker worker).phase.stepsToPop = (s.rwWorker worker).phase.stepsToPop ∧
        actor ≠ some worker)

variable {bio : Bio}

theorem served_setWorker {worker acting : Fin maxWorkers} {item : WorkItem}
    (items : s'.rwWorker = (s.setWorker acting item).rwWorker) (holds : s.Holds worker bio)
    (own : acting = worker → Served worker bio (some acting) s s') :
    Served worker bio (some acting) s s' := by
  by_cases eq : acting = worker
  · exact own eq
  · have same : s'.rwWorker worker = s.rwWorker worker := by
      rw [items, Dispatch.rwWorker_setWorker, if_neg (Ne.symm eq)]
    refine Or.inr ⟨?_, Or.inr ⟨by rw [same], fun own => eq (some.inj own)⟩⟩
    rw [Dispatch.Holds, same]
    exact holds

theorem Effect.serves {actor : Option (Fin maxWorkers)} (effect : Effect s actor s')
    {worker : Fin maxWorkers} (holds : s.Holds worker bio) : Served worker bio actor s s' := by
  cases effect with
  | refused => exact Or.inr ⟨holds, Or.inr ⟨rfl, (some_ne_none worker).symm⟩⟩
  | pushed operation queued =>
    refine Or.inr ⟨?_, Or.inr ⟨?_, (some_ne_none worker).symm⟩⟩
    · refine (Dispatch.holds_setWorker (s := s.pushBack operation) ?_ worker bio).mpr holds
      rfl
    · rw [Dispatch.queueWork, Dispatch.rwWorker_setWorker]
      split
      · next eq => rw [eq]; rfl
      · rfl
  | started acting ready =>
    refine served_setWorker rfl holds ?_
    rintro rfl
    rw [Dispatch.Holds, ready] at holds
    cases holds
  | drained acting phase empty =>
    refine served_setWorker rfl holds ?_
    rintro rfl
    rw [Dispatch.Holds, phase] at holds
    cases holds
  | took acting phase bio' rest queue =>
    refine served_setWorker rfl holds ?_
    rintro rfl
    rw [Dispatch.Holds, phase] at holds
    cases holds
  | finished acting bio' holds' =>
    refine served_setWorker rfl holds ?_
    rintro rfl
    obtain rfl : bio = bio' := some.inj (holds.symm.trans holds')
    exact Or.inl (mem_append_right _ mem_cons_self)
  | failed acting bio' phase =>
    refine served_setWorker rfl holds ?_
    rintro rfl
    rw [Dispatch.Holds, phase] at holds
    have item : (s.setPhase acting (.failing bio')).rwWorker acting =
        ⟨(s.rwWorker acting).pending, .failing bio'⟩ := by
      rw [Dispatch.setPhase, Dispatch.rwWorker_setWorker, if_pos rfl]
    refine Or.inr ⟨?_, Or.inl ?_⟩
    · rw [Dispatch.Holds, item]
      exact holds
    · rw [item, phase]
      exact Nat.one_lt_two
  | left acting phase =>
    refine served_setWorker rfl holds ?_
    rintro rfl
    rw [Dispatch.Holds, phase] at holds
    cases holds

theorem Effect.pushed_le {actor : Option (Fin maxWorkers)} (effect : Effect s actor s') :
    s.pushed ≤ s'.pushed := by
  cases effect with
  | pushed operation worker => exact Nat.le_succ _
  | _ => exact Nat.le_refl _

variable {number : Nat}

theorem Effect.mem_ended {actor : Option (Fin maxWorkers)} (effect : Effect s actor s')
    (ended : number ∈ s.ended) :
    number ∈ s'.ended := by
  cases effect with
  | finished worker bio holds => exact mem_append_left _ ended
  | _ => exact ended

theorem DispatchInv.length_eq (inv : DispatchInv s) :
    s.taken.length + s.bioQueue.length = s.pushed := by
  have lengths := congrArg List.length inv.order
  simpa [Dispatch.takenNumbers] using lengths

variable {time : Nat}

section

variable (run : Schedule Dispatch.step) (starts : run.state 0 = Dispatch.new)
    (fair : ∀ worker, run.WeaklyFair Event.worker worker)

include starts

theorem dispatchInv_run (time : Nat) : DispatchInv (run.state time) := by
  have reachable := run.reachable time
  rw [starts] at reachable
  exact dispatchInv_of_reachable reachable

include fair

theorem eventually_next (time : Nat)
    (waiting : (run.state time).taken.length < (run.state time).pushed) :
    ∃ later, time ≤ later ∧ (run.state time).taken.length < (run.state later).taken.length := by
  have inv := dispatchInv_run run starts time
  have nonempty : (run.state time).bioQueue ≠ [] := by
    intro empty
    have lengths := inv.length_eq
    rw [empty, length_nil] at lengths
    omega
  obtain ⟨worker, active⟩ := inv.awake nonempty
  refine run.eventually (fair worker)
    (P := fun s => DispatchInv s ∧ s.taken.length = (run.state time).taken.length ∧
      s.bioQueue ≠ [] ∧ (s.rwWorker worker).Active)
    (Q := fun s => (run.state time).taken.length < s.taken.length)
    (fun s => (s.rwWorker worker).phase.stepsToPop) ?_ ?_ ⟨inv, rfl, nonempty, active⟩
  · rintro s ⟨-, -, -, active⟩
    refine Dispatch.enabled fun resting => ?_
    rw [resting] at active
    rcases active with pending | inLoop
    · cases pending
    · cases inLoop
  · rintro s event s' ⟨inv, length, nonempty, active⟩ stepped
    have effect := Dispatch.step_effect stepped
    rcases effect.closer active nonempty with more | ⟨same, stillActive, closer⟩
    · exact Or.inl (by omega)
    · have inv' := inv.effect effect
      refine Or.inr ⟨⟨inv', by rw [same, length], ?_, stillActive⟩, closer⟩
      intro empty
      have lengths := inv.length_eq
      have lengths' := inv'.length_eq
      have pushed := effect.pushed_le
      have positive := length_pos_iff.mpr nonempty
      rw [empty, length_nil, same] at lengths'
      omega

theorem eventually_taken (pushed : number < (run.state time).pushed) :
    ∃ later, time ≤ later ∧ number < (run.state later).taken.length := by
  induction number with
  | zero =>
    by_cases taken : 0 < (run.state time).taken.length
    · exact ⟨time, Nat.le_refl _, taken⟩
    · obtain ⟨later, le, more⟩ := eventually_next run starts fair time (by omega)
      exact ⟨later, le, by omega⟩
  | succ number ih =>
    obtain ⟨between, le, before⟩ := ih (by omega)
    by_cases taken : number + 1 < (run.state between).taken.length
    · exact ⟨between, le, taken⟩
    · have grown := run.stable (P := fun s => number + 1 < s.pushed)
        (fun s event s' less stepped =>
          Nat.lt_of_lt_of_le less (Dispatch.step_effect stepped).pushed_le) le pushed
      obtain ⟨later, le', more⟩ := eventually_next run starts fair between (by omega)
      exact ⟨later, by omega, by omega⟩

omit starts in
theorem eventually_ended {worker : Fin maxWorkers} (holds : (run.state time).Holds worker bio) :
    ∃ later, time ≤ later ∧ bio.number ∈ (run.state later).ended := by
  refine run.eventually (fair worker) (P := fun s => s.Holds worker bio)
    (Q := fun s => bio.number ∈ s.ended)
    (fun s => (s.rwWorker worker).phase.stepsToPop) ?_ ?_ holds
  · intro s holds
    refine Dispatch.enabled fun resting => ?_
    rw [Dispatch.Holds, resting] at holds
    cases holds
  · intro s event s' holds stepped
    exact (Dispatch.step_effect stepped).serves holds

theorem eventually_completed (pushed : number < (run.state time).pushed) :
    ∃ done, time ≤ done ∧ ∀ later, done ≤ later → number ∈ (run.state later).ended := by
  suffices ∃ done, time ≤ done ∧ number ∈ (run.state done).ended by
    obtain ⟨done, le, ended⟩ := this
    refine ⟨done, le, fun later le' => run.stable (P := fun s => number ∈ s.ended) ?_ le' ended⟩
    intro s event s' ended stepped
    exact (Dispatch.step_effect stepped).mem_ended ended
  obtain ⟨between, le, taken⟩ := eventually_taken run starts fair pushed
  have inv := dispatchInv_run run starts between
  have member : number ∈ (run.state between).takenNumbers := by
    rw [inv.takenNumbers_eq]
    exact mem_range.mpr taken
  rcases inv.accounted number member with ended | ⟨worker, bio, holds, rfl⟩
  · exact ⟨between, le, ended⟩
  · obtain ⟨done, le', ended⟩ := eventually_ended run fair holds
    exact ⟨done, by omega, ended⟩

end

/-- Over every interleaving of `map` calls and worker steps a bio is taken and ended at
most once, and with no work item pending or running the queue is empty and every pushed
bio was taken by one worker and ended once.  When no worker is stopped for ever, every
pushed bio gets there, whatever its handler returns and whatever is pushed meanwhile. -/
theorem bios_completed_once :
    (∀ s, Reachable Dispatch.step Dispatch.new s →
      (∀ number, s.AtMostOnce number) ∧
      (s.Quiet → s.bioQueue = [] ∧ ∀ number < s.pushed, s.CompletedOnce number)) ∧
    ∀ run : Schedule Dispatch.step, run.state 0 = Dispatch.new →
      (∀ worker, run.WeaklyFair Event.worker worker) →
      ∀ time, ∀ number < (run.state time).pushed,
        ∃ done, time ≤ done ∧ ∀ later, done ≤ later → (run.state later).CompletedOnce number := by
  constructor
  · intro s reachable
    have inv := dispatchInv_of_reachable reachable
    refine ⟨inv.atMostOnce, fun quiet => ⟨inv.bioQueue_eq_nil quiet, ?_⟩⟩
    intro number pushed
    exact inv.completedOnce (inv.ended_of_quiet quiet pushed)
  · intro run starts fair time number pushed
    obtain ⟨done, le, ended⟩ := eventually_completed run starts fair pushed
    refine ⟨done, le, fun later le' => ?_⟩
    exact (dispatchInv_run run starts later).completedOnce (ended later le')

def failingRead : List Event :=
  [.map .read (.ok ()) (.ok ()) 9, .start (workerNr 9), .popFront (workerNr 9),
    .handle (workerNr 9) ⟨.error .eio, .ok ()⟩, .endFailed (workerNr 9), .popFront (workerNr 9),
    .leave (workerNr 9)]

theorem failingRead_allowed : ∀ time < failingRead.length,
    (advance Dispatch.step (playStates Dispatch.step Dispatch.new failingRead time)
      failingRead[time]?).isSome = true := by
  decide

theorem bios_completed_once_failingRead :
    (playStates Dispatch.step Dispatch.new failingRead 7).bioQueue = [] ∧
    (playStates Dispatch.step Dispatch.new failingRead 7).CompletedOnce 0 ∧
    ∃ done, 1 ≤ done ∧ ∀ later, done ≤ later →
      (playStates Dispatch.step Dispatch.new failingRead later).CompletedOnce 0 := by
  let run := Schedule.play Dispatch.step Dispatch.new failingRead failingRead_allowed
  have quiet : (run.state 7).Quiet := by
    change ∀ worker, _ ∧ _
    decide
  obtain ⟨empty, completed⟩ := (bios_completed_once.1 _ (run.reachable 7)).2 quiet
  refine ⟨empty, completed 0 (by decide), ?_⟩
  refine bios_completed_once.2 run rfl (fun worker => ?_) 1 0 (by decide)
  refine Schedule.play_weaklyFair failingRead_allowed ?_
  refine Dispatch.not_enabled ?_
  revert worker
  decide

end SwornDisk.Rust
