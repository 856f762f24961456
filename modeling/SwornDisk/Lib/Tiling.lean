import Mathlib

/-!
# Spans that tile an interval

Spans of natural numbers in a row, each starting where the one before ends.  Such a row
covers every point of the interval once and no other point.
-/

namespace SwornDisk.Lib

open List

/-- The points from `start` on, `len` of them. -/
structure Span where
  start : Nat
  len : Nat
deriving DecidableEq

def Span.Contains (span : Span) (point : Nat) : Prop :=
  span.start ≤ point ∧ point < span.start + span.len

instance (span : Span) (point : Nat) : Decidable (span.Contains point) :=
  inferInstanceAs (Decidable (_ ∧ _))

def Span.Disjoint (span other : Span) : Prop :=
  ∀ point, span.Contains point → ¬ other.Contains point

theorem Span.disjoint_iff {span other : Span} :
    span.Disjoint other ↔ span.start + span.len ≤ other.start ∨
      other.start + other.len ≤ span.start ∨ span.len = 0 ∨ other.len = 0 := by
  unfold Span.Disjoint Span.Contains
  constructor
  · intro disjoint
    have := disjoint (max span.start other.start)
    omega
  · intro apart point
    omega

theorem Span.subset_iff {start len more : Nat} :
    (∀ point, (⟨start, len⟩ : Span).Contains point → (⟨start, more⟩ : Span).Contains point) ↔
      len ≤ more := by
  unfold Span.Contains
  constructor
  · intro subset
    have := subset (start + more)
    simp only at this
    omega
  · intro le point
    simp only
    omega

/-- The spans follow each other from `first` up to `last`. -/
def Tiles : Nat → List Span → Nat → Prop
  | first, [], last => first = last
  | first, span :: rest, last => span.start = first ∧ Tiles (first + span.len) rest last

namespace Tiles

variable {first last : Nat} {spans : List Span} (tiles : Tiles first spans last)
include tiles

theorem total : first + (spans.map Span.len).sum = last := by
  induction spans generalizing first with
  | nil => exact tiles
  | cons span rest ih =>
    have later := ih tiles.2
    rw [map_cons, sum_cons]
    omega

theorem bounds {span : Span} (member : span ∈ spans) :
    first ≤ span.start ∧ span.start + span.len ≤ last := by
  induction spans generalizing first with
  | nil => cases member
  | cons head rest ih =>
    obtain ⟨rfl, tilesRest⟩ := tiles
    rcases mem_cons.mp member with rfl | inRest
    · have later := tilesRest.total
      omega
    · have later := ih tilesRest inRest
      omega

theorem pairwise_disjoint : spans.Pairwise Span.Disjoint := by
  induction spans generalizing first with
  | nil => exact List.Pairwise.nil
  | cons span rest ih =>
    refine pairwise_cons.mpr ⟨fun other member => ?_, ih tiles.2⟩
    have start : span.start = first := tiles.1
    exact Span.disjoint_iff.mpr (.inl (start ▸ (tiles.2.bounds member).1))

theorem countP_contains (point : Nat) :
    spans.countP (fun span => span.Contains point) =
      if first ≤ point ∧ point < last then 1 else 0 := by
  induction spans generalizing first with
  | nil =>
    have empty : first = last := tiles
    rw [countP_nil, if_neg (by omega)]
  | cons span rest ih =>
    obtain ⟨rfl, tilesRest⟩ := tiles
    have later := tilesRest.total
    rw [countP_cons, ih tilesRest]
    by_cases here : span.Contains point
    · have inside : span.start ≤ point ∧ point < span.start + span.len := here
      rw [if_pos (decide_eq_true here), if_neg (by omega), if_pos (by omega)]
    · have outside : ¬ (span.start ≤ point ∧ point < span.start + span.len) := here
      have uncounted : ¬ decide (span.Contains point) = true := by rwa [decide_eq_true_eq]
      rw [if_neg uncounted, Nat.add_zero]
      by_cases behind : span.start + span.len ≤ point ∧ point < last
      · rw [if_pos behind, if_pos (by omega)]
      · rw [if_neg behind, if_neg (by omega)]

end Tiles

end SwornDisk.Lib
