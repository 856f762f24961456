import Mathlib.Logic.Relation
import Mathlib.Order.WellFounded

/-!
# Runs of a labelled system under weak fairness

A system is a partial step function over labels; some labels belong to an
actor.  A `Schedule` is an infinite run that may stutter, and it treats an actor
fairly when the actor cannot stay enabled for ever without moving.  The response
rule turns a measure that one fair actor brings down into an eventuality.
-/

namespace SwornDisk.Lib

open List Option

variable {State Label Actor : Type}

def Moves (step : State → Label → Option State) (s s' : State) : Prop :=
  ∃ label, step s label = some s'

/-- States reachable from `start` by finitely many steps. -/
def Reachable (step : State → Label → Option State) (start : State) : State → Prop :=
  Relation.ReflTransGen (Moves step) start

variable {step : State → Label → Option State} {start : State}

theorem Reachable.invariant {s : State} {Inv : State → Prop} (reachable : Reachable step start s)
    (initially : Inv start) (kept : ∀ s label s', Inv s → step s label = some s' → Inv s') :
    Inv s := by
  induction reachable with
  | refl => exact initially
  | tail _ move ih =>
    obtain ⟨label, stepped⟩ := move
    exact kept _ label _ ih stepped

def advance (step : State → Label → Option State) (s : State) : Option Label → Option State
  | none => some s
  | some label => step s label

/-- An infinite run: at every time one label is taken or nothing happens. -/
structure Schedule (step : State → Label → Option State) where
  state : Nat → State
  label : Nat → Option Label
  advances : ∀ time, advance step (state time) (label time) = some (state (time + 1))

def Enabled (step : State → Label → Option State) (actor : Label → Option Actor)
    (s : State) (who : Actor) : Prop :=
  ∃ label s', actor label = some who ∧ step s label = some s'

variable {P : State → Prop} {actor : Label → Option Actor} {who : Actor}

namespace Schedule

variable {step : State → Label → Option State} (run : Schedule step)

/-- Weak fairness: an actor enabled from some time on moves at some later time. -/
def WeaklyFair (actor : Label → Option Actor) (who : Actor) : Prop :=
  ∀ start, (∀ time, start ≤ time → Enabled step actor (run.state time) who) →
    ∃ time, start ≤ time ∧ ∃ label, run.label time = some label ∧ actor label = some who

theorem tick (time : Nat) :
    run.state (time + 1) = run.state time ∧ run.label time = none ∨
      ∃ label, run.label time = some label ∧
        step (run.state time) label = some (run.state (time + 1)) := by
  have advanced := run.advances time
  cases taken : run.label time with
  | none =>
    rw [taken] at advanced
    exact Or.inl ⟨(some.inj advanced).symm, rfl⟩
  | some label =>
    rw [taken] at advanced
    exact Or.inr ⟨label, rfl, advanced⟩

theorem stable (kept : ∀ s label s', P s → step s label = some s' → P s') {start time : Nat}
    (later : start ≤ time) (holds : P (run.state start)) :
    P (run.state time) := by
  induction time, later using Nat.le_induction with
  | base => exact holds
  | succ time _ ih =>
    rcases run.tick time with ⟨same, -⟩ | ⟨label, -, stepped⟩
    · rw [same]
      exact ih
    · exact kept _ label _ ih stepped

theorem reachable (time : Nat) : Reachable step (run.state 0) (run.state time) := by
  refine run.stable ?_ (Nat.zero_le time) Relation.ReflTransGen.refl
  intro s label s' reached stepped
  exact reached.tail ⟨label, stepped⟩

/-- The response rule.  From `P`, one fair actor stays enabled until `Q`; every step
reaches `Q`, or keeps `P` and brings the measure down, or keeps both and is another
actor's. -/
theorem eventually {α : Type} [Preorder α] [WellFoundedLT α] (fair : run.WeaklyFair actor who)
    {Q : State → Prop} (measure : State → α) (enabled : ∀ s, P s → Enabled step actor s who)
    (responds : ∀ s label s', P s → step s label = some s' →
      Q s' ∨ P s' ∧ (measure s' < measure s ∨ measure s' = measure s ∧ actor label ≠ some who))
    {start : Nat} (holds : P (run.state start)) : ∃ time, start ≤ time ∧ Q (run.state time) := by
  induction value : measure (run.state start) using WellFoundedLT.induction generalizing start with
  | ind value ih =>
    subst value
    by_contra never
    push Not at never
    -- without a smaller measure and without `Q`, the actor stays enabled and never moves
    have stuck : ∀ time, start ≤ time →
        P (run.state time) ∧ measure (run.state time) = measure (run.state start) := by
      intro time later
      induction time, later using Nat.le_induction with
      | base => exact ⟨holds, rfl⟩
      | succ time later ihTime =>
        rcases run.tick time with ⟨same, -⟩ | ⟨label, -, stepped⟩
        · rw [same]
          exact ihTime
        · rcases responds _ label _ ihTime.1 stepped with done | ⟨kept, smaller | ⟨equal, -⟩⟩
          · exact absurd done (never _ (by omega))
          · rw [ihTime.2] at smaller
            obtain ⟨time', later', done⟩ := ih _ smaller kept rfl
            exact absurd done (never _ (by omega))
          · exact ⟨kept, equal.trans ihTime.2⟩
    obtain ⟨time, later, label, taken, own⟩ :=
      fair start fun time later => enabled _ (stuck time later).1
    rcases run.tick time with ⟨-, none'⟩ | ⟨label', taken', stepped⟩
    · rw [taken] at none'
      exact nomatch none'
    · obtain rfl : label = label' := some.inj (taken.symm.trans taken')
      rcases responds _ label _ (stuck time later).1 stepped with done | ⟨-, smaller | ⟨-, other⟩⟩
      · exact never _ (by omega) done
      · rw [(stuck time later).2, (stuck (time + 1) (by omega)).2] at smaller
        exact lt_irrefl _ smaller
      · exact other own

end Schedule

def playStates (step : State → Label → Option State) (start : State) (labels : List Label) :
    Nat → State
  | 0 => start
  | time + 1 =>
    let s := playStates step start labels time
    (advance step s labels[time]?).getD s

/-- The schedule that takes the labels of a list and then stutters. -/
def Schedule.play (step : State → Label → Option State) (start : State) (labels : List Label)
    (allowed : ∀ time < labels.length,
      (advance step (playStates step start labels time) labels[time]?).isSome = true) :
    Schedule step where
  state := playStates step start labels
  label := fun time => labels[time]?
  advances := by
    intro time
    by_cases within : time < labels.length
    · obtain ⟨s', advanced⟩ := Option.isSome_iff_exists.mp (allowed time within)
      rw [playStates, advanced]
      rfl
    · rw [playStates, List.getElem?_eq_none (by omega)]
      rfl

theorem Schedule.play_weaklyFair {labels : List Label} (allowed : ∀ time < labels.length,
      (advance step (playStates step start labels time) labels[time]?).isSome = true)
    (settled : ¬ Enabled step actor (playStates step start labels labels.length) who) :
    (Schedule.play step start labels allowed).WeaklyFair actor who := by
  intro begin always
  have final : playStates step start labels (max begin labels.length) =
      playStates step start labels labels.length := by
    have later : labels.length ≤ max begin labels.length := le_max_right _ _
    generalize max begin labels.length = time at later
    induction time, later using Nat.le_induction with
    | base => rfl
    | succ time later ih =>
      rw [playStates, getElem?_eq_none (by omega), ← ih]
      rfl
  have enabled := always (max begin labels.length) (le_max_left _ _)
  change Enabled step actor (playStates step start labels (max begin labels.length)) who at enabled
  rw [final] at enabled
  exact absurd enabled settled

end SwornDisk.Lib
