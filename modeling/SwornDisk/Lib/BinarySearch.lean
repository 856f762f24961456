import Mathlib

/-!
# Binary searches

Three loops that halve an index range: the partition point of a monotone test,
the search of the C library, which stops at the first match, and the search for
a range among ordered disjoint ranges, which may stop just before it.  What an
index compares to is a function of the index, so that the loops say nothing
about where the elements are kept.
-/

namespace SwornDisk.Lib

open Option

/-- The first index in `[low, high)` that is not `below`, or `high`. -/
def partitionPoint (below : Nat → Bool) (low high : Nat) : Nat :=
  if low < high then
    if below (low + (high - low) / 2) then
      partitionPoint below (low + (high - low) / 2 + 1) high
    else
      partitionPoint below low (low + (high - low) / 2)
  else
    low
termination_by high - low

variable {low high : Nat}

theorem partitionPoint_spec {below : Nat → Bool} (ordered : low ≤ high)
    (mono : ∀ i j, i ≤ j → j < high → below j = true → below i = true) :
    low ≤ partitionPoint below low high ∧ partitionPoint below low high ≤ high ∧
      (∀ i, low ≤ i → i < partitionPoint below low high → below i = true) ∧
      ∀ i, partitionPoint below low high ≤ i → i < high → below i = false := by
  fun_induction partitionPoint below low high with
  | case1 low high inside isBelow ih =>
    obtain ⟨lower, upper, before, after⟩ := ih (by omega) mono
    refine ⟨by omega, upper, ?_, after⟩
    intro i low_le i_lt
    by_cases late : low + (high - low) / 2 + 1 ≤ i
    · exact before i late i_lt
    · exact mono i _ (by omega) (by omega) isBelow
  | case2 low high inside notBelow ih =>
    obtain ⟨lower, upper, before, after⟩ :=
      ih (by omega) fun i j i_le j_lt => mono i j i_le (by omega)
    refine ⟨lower, by omega, before, ?_⟩
    intro i le_i i_lt
    by_cases early : i < low + (high - low) / 2
    · exact after i le_i early
    · refine Bool.eq_false_iff.mpr fun isBelow => notBelow ?_
      exact mono _ i (by omega) i_lt isBelow
  | case3 low high empty =>
    exact ⟨le_rfl, ordered, fun i _ _ => by omega, fun i _ _ => by omega⟩

/-! ## Searches in ordered ranges

`side i` is where the wanted key lies from range `i`.  The ranges are ordered and
disjoint when of two ranges the key lies above the first or below the second. -/

/-- The key lies above the earlier or below the later of any two ranges. -/
def RangesOrdered (side : Nat → Ordering) (count : Nat) : Prop :=
  ∀ i j, i < j → j < count → side i = .gt ∨ side j = .lt

/-- `bsearch` of the C library on the `num` elements from `base`. -/
def bsearch (side : Nat → Ordering) (base num : Nat) : Option Nat :=
  if 0 < num then
    match side (base + num / 2) with
    | .eq => some (base + num / 2)
    | .gt => bsearch side (base + num / 2 + 1) ((num - 1) / 2)
    | .lt => bsearch side base (num / 2)
  else
    none
termination_by num

variable {side : Nat → Ordering}

theorem bsearch_eq_some {base num found : Nat} (hit : bsearch side base num = some found) :
    side found = .eq ∧ found < base + num := by
  fun_induction bsearch side base num with
  | case1 base num nonempty equal =>
    obtain rfl := some.inj hit
    exact ⟨equal, by omega⟩
  | case2 base num nonempty above ih =>
    obtain ⟨equal, bound⟩ := ih hit
    exact ⟨equal, by omega⟩
  | case3 base num nonempty below ih =>
    obtain ⟨equal, bound⟩ := ih hit
    exact ⟨equal, by omega⟩
  | case4 base num empty => cases hit

theorem bsearch_eq_none {base num : Nat} (ordered : RangesOrdered side (base + num))
    (missed : bsearch side base num = none) :
    ∀ i, base ≤ i → i < base + num → side i ≠ .eq := by
  fun_induction bsearch side base num with
  | case1 base num nonempty equal => cases missed
  | case2 base num nonempty above ih =>
    intro i base_le i_lt equal
    rcases lt_trichotomy i (base + num / 2) with before | rfl | after
    · rcases ordered i _ before (by omega) with isAbove | isBelow
      · simp_all
      · simp_all
    · simp_all
    · exact ih (fun i j i_lt j_lt => ordered i j i_lt (by omega)) missed i (by omega) (by omega)
        equal
  | case3 base num nonempty below ih =>
    intro i base_le i_lt equal
    rcases lt_trichotomy i (base + num / 2) with before | rfl | after
    · exact ih (fun i j i_lt j_lt => ordered i j i_lt (by omega)) missed i (by omega) (by omega)
        equal
    · simp_all
    · rcases ordered _ i after (by omega) with isAbove | isBelow
      · simp_all
      · simp_all
  | case4 base num empty =>
    intro i base_le i_lt
    omega

/-- The loop that looks for the range of a key, or for where it would be.  In
range zero the upper end stays at zero instead of passing below it, which ends
the loop all the same. -/
def rangeSearch (side : Nat → Ordering) (low high : Nat) : Nat :=
  if low < high then
    match side (low + (high - low) / 2) with
    | .eq => low + (high - low) / 2
    | .lt => rangeSearch side low (low + (high - low) / 2 - 1)
    | .gt => rangeSearch side (low + (high - low) / 2 + 1) high
  else
    low
termination_by high - low

theorem rangeSearch_spec {count : Nat} (bound : high < count) (ordered : RangesOrdered side count)
    (start : ∀ i < low, side i = .gt) :
    ∀ i < rangeSearch side low high, side i = .gt := by
  fun_induction rangeSearch side low high with
  | case1 low high inside equal =>
    intro i i_lt
    rcases ordered i _ i_lt (by omega) with isAbove | isBelow
    · exact isAbove
    · simp_all
  | case2 low high inside below ih => exact ih (by omega) start
  | case3 low high inside above ih =>
    refine ih bound fun i i_lt => ?_
    rcases Nat.lt_succ_iff_lt_or_eq.mp i_lt with before | rfl
    · rcases ordered i _ before (by omega) with isAbove | isBelow
      · exact isAbove
      · simp_all
    · exact above
  | case4 low high empty => exact start

theorem rangeSearch_after {count : Nat} (bound : high < count)
    (ordered : RangesOrdered side count) (stop : ∀ i, high < i → i < count → side i = .lt) :
    ∀ i, rangeSearch side low high < i → i < count → side i = .lt := by
  fun_induction rangeSearch side low high with
  | case1 low high inside equal =>
    intro i less i_lt
    rcases ordered _ i less i_lt with isAbove | isBelow
    · rw [equal] at isAbove
      cases isAbove
    · exact isBelow
  | case2 low high inside below ih =>
    apply ih (by omega)
    intro i less i_lt
    rcases Nat.lt_or_ge (low + (high - low) / 2) i with after | before
    · rcases ordered _ i after i_lt with isAbove | isBelow
      · rw [below] at isAbove
        cases isAbove
      · exact isBelow
    · obtain rfl : i = low + (high - low) / 2 := by omega
      exact below
  | case3 low high inside above ih => exact ih bound stop
  | case4 low high empty =>
    intro i less
    exact stop i (by omega)

theorem rangeSearch_le (ordered : low ≤ high + 1) :
    rangeSearch side low high ≤ high + 1 := by
  fun_induction rangeSearch side low high with
  | case1 low high inside equal => omega
  | case2 low high inside below ih =>
    have := ih (by omega)
    omega
  | case3 low high inside above ih => exact ih (by omega)
  | case4 low high empty => exact ordered

/-- Cutting a row of `count` places in halves, the smaller half first, until at most two
are left keeps `place` as the second of two. -/
def secondOfTwo (count place : Nat) : Bool :=
  if 2 < count then
    if place < count / 2 then secondOfTwo (count / 2) place
    else secondOfTwo (count - count / 2) (place - count / 2)
  else count == 2 && place == 1
termination_by count

section

variable {count place : Nat} (more : 2 < count)
include more

theorem secondOfTwo_of_lt (less : place < count / 2) :
    secondOfTwo count place = secondOfTwo (count / 2) place := by
  rw [secondOfTwo, if_pos more, if_pos less]

theorem secondOfTwo_of_ge (atLeast : count / 2 ≤ place) :
    secondOfTwo count place = secondOfTwo (count - count / 2) (place - count / 2) := by
  rw [secondOfTwo, if_pos more, if_neg (Nat.not_lt.mpr atLeast)]

end

/-- For a key in the gap before range `gap`, the loop ends at that range, or at the one
before it; which of the two depends on the two lengths alone. -/
theorem rangeSearch_gap {gap : Nat} (before : ∀ i < gap, side i = .gt)
    (behind : ∀ i, gap ≤ i → i ≤ high → side i = .lt) (low_le : low ≤ gap)
    (le_high : gap ≤ high + 1) :
    rangeSearch side low high =
      if secondOfTwo (high + 2 - low) (gap - low) then gap - 1 else gap := by
  fun_induction rangeSearch side low high with
  | case1 low high inside equal =>
    rcases Nat.lt_or_ge (low + (high - low) / 2) gap with less | more
    · simp [before _ less] at equal
    · simp [behind _ more (by omega)] at equal
  | case2 low high inside below ih =>
    have more : gap ≤ low + (high - low) / 2 := by
      by_contra less
      simp [before _ (Nat.not_le.mp less)] at below
    rw [ih (fun i le_i i_le => behind i le_i (by omega)) low_le (by omega),
      secondOfTwo_of_lt (by omega : 2 < high + 2 - low) (by omega)]
    by_cases atZero : low + (high - low) / 2 = 0
    · -- The range of the two places `[0, 1]` is cut to its first.
      obtain ⟨rfl, rfl, rfl⟩ : low = 0 ∧ high = 1 ∧ gap = 0 := by omega
      simp [secondOfTwo]
    · rw [show low + (high - low) / 2 - 1 + 2 - low = (high + 2 - low) / 2 by omega]
  | case3 low high inside above ih =>
    have less : low + (high - low) / 2 < gap := by
      by_contra more
      simp [behind _ (Nat.not_lt.mp more) (by omega)] at above
    rw [ih behind less le_high, secondOfTwo_of_ge (by omega : 2 < high + 2 - low) (by omega),
      show high + 2 - (low + (high - low) / 2 + 1) =
        high + 2 - low - (high + 2 - low) / 2 by omega,
      show gap - (low + (high - low) / 2 + 1) = gap - low - (high + 2 - low) / 2 by omega]
  | case4 low high outside =>
    rw [secondOfTwo, if_neg (by omega : ¬ 2 < high + 2 - low)]
    simp only [Bool.and_eq_true, beq_iff_eq]
    split
    · omega
    · omega

end SwornDisk.Lib
