import Mathlib.Init

/-!
# Monitors

A monitor reads a trace of events and says of each whether it is allowed after those
before it.  Runs are shown to be accepted by an invariant between the state of the system
and the state of the monitor, one piece of the trace at a time.
-/

namespace SwornDisk.Lib

open List

/-- A monitor over events `ε` with states in `σ`. -/
structure Monitor (ε σ : Type) where
  next : σ → ε → σ
  allows : σ → ε → Prop

namespace Monitor

variable {ε σ τ : Type} (m : Monitor ε σ)

def after (g : σ) (events : List ε) : σ := events.foldl m.next g

def Accepts : σ → List ε → Prop
  | _, [] => True
  | g, event :: events => m.allows g event ∧ Accepts (m.next g event) events

@[simp] theorem after_nil (g : σ) : m.after g [] = g := rfl

@[simp] theorem after_cons (g : σ) (event : ε) (events : List ε) :
    m.after g (event :: events) = m.after (m.next g event) events := rfl

theorem after_append (g : σ) (first second : List ε) :
    m.after g (first ++ second) = m.after (m.after g first) second :=
  foldl_append

theorem accepts_append {g : σ} {first second : List ε} :
    m.Accepts g (first ++ second) ↔ m.Accepts g first ∧ m.Accepts (m.after g first) second := by
  induction first generalizing g with
  | nil => simp [Accepts]
  | cons event first ih => simp [Accepts, ih, and_assoc]

/-- The system goes from `s` to `t` with the given events, and the monitor accepts them and
follows. -/
def Tracks (inv : τ → σ → Prop) (s : τ) (events : List ε) (t : τ) : Prop :=
  ∀ g, inv s g → m.Accepts g events ∧ inv t (m.after g events)

variable {m} {inv : τ → σ → Prop} {s t u : τ}

theorem tracks_nil (same : ∀ g, inv s g → inv t g) : m.Tracks inv s [] t :=
  fun g holds => ⟨trivial, same g holds⟩

theorem Tracks.append {first second : List ε} (one : m.Tracks inv s first t)
    (two : m.Tracks inv t second u) : m.Tracks inv s (first ++ second) u := by
  intro g holds
  obtain ⟨accepts, holds'⟩ := one g holds
  obtain ⟨accepts', holds''⟩ := two _ holds'
  rw [after_append, accepts_append]
  exact ⟨⟨accepts, accepts'⟩, holds''⟩

theorem Tracks.congr {s' t' : τ} {events : List ε} (tracks : m.Tracks inv s events t)
    (before : ∀ g, inv s' g → inv s g) (later : ∀ g, inv t g → inv t' g) :
    m.Tracks inv s' events t' := by
  intro g holds
  obtain ⟨accepts, holds'⟩ := tracks g (before g holds)
  exact ⟨accepts, later _ holds'⟩

end Monitor

end SwornDisk.Lib
