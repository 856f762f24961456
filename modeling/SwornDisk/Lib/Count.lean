import Mathlib

/-!
# Counting and searching in a Boolean table

A validity table is a function `Nat → Bool` of which the first `n` entries
matter.  The lemmas say how the number of set entries changes when one entry is
overwritten, and what the search for the first clear entry of an interval
returns.
-/

namespace SwornDisk.Lib

open List Function

/-- Number of set entries among the first `n`. -/
def countSet (table : Nat → Bool) (n : Nat) : Nat :=
  Nat.count (fun i => table i = true) n

theorem countSet_succ (table : Nat → Bool) (n : Nat) :
    countSet table (n + 1) = countSet table n + if table n then 1 else 0 :=
  Nat.count_succ _ _

theorem countSet_le (table : Nat → Bool) (n : Nat) : countSet table n ≤ n :=
  Nat.count_le _

variable {n : Nat}

theorem countSet_congr {left right : Nat → Bool} (agree : ∀ i < n, left i = right i) :
    countSet left n = countSet right n := by
  induction n with
  | zero => rfl
  | succ n ih =>
    rw [countSet_succ, countSet_succ, agree n (Nat.lt_succ_self n),
      ih fun i bound => agree i (Nat.lt_succ_of_lt bound)]

variable {table : Nat → Bool}

theorem countSet_eq_zero_iff : countSet table n = 0 ↔ ∀ i < n, table i = false := by
  rw [countSet, Nat.count_iff_forall_not]
  simp only [Bool.not_eq_true]

theorem countSet_eq_self_iff :
    countSet table n = n ↔ ∀ i < n, table i = true :=
  Nat.count_iff_forall

theorem exists_clear_of_countSet_lt (room : countSet table n < n) : ∃ i < n, table i = false := by
  by_contra none
  push Not at none
  have full : ∀ i < n, table i = true := fun i bound => by
    simpa using none i bound
  rw [countSet_eq_self_iff.mpr full] at room
  exact lt_irrefl _ room

variable {i : Nat}

theorem countSet_update_of_le (table : Nat → Bool) (outside : n ≤ i) (value : Bool) :
    countSet (update table i value) n = countSet table n :=
  countSet_congr fun j bound => update_of_ne (by omega) _ _

theorem countSet_set (bound : i < n) (clear : table i = false) :
    countSet (update table i true) n = countSet table n + 1 := by
  induction n with
  | zero => omega
  | succ n ih =>
    rw [countSet_succ, countSet_succ]
    rcases Nat.lt_or_ge i n with below | above
    · rw [ih below, update_of_ne (by omega)]
      omega
    · obtain rfl : i = n := by omega
      rw [countSet_update_of_le table le_rfl, update_self, clear]
      simp

theorem countSet_clear (bound : i < n) (set : table i = true) :
    countSet (update table i false) n + 1 = countSet table n := by
  have again : countSet table n =
      countSet (update (update table i false) i true) n := by
    rw [update_idem, ← set, update_eq_self]
  rw [again, countSet_set bound (update_self ..)]

theorem countSet_update_false (bound : i < n) :
    countSet (update table i false) n = countSet table n - if table i then 1 else 0 := by
  cases entry : table i with
  | true =>
    have less := countSet_clear bound entry
    simp only [if_true]
    omega
  | false => rw [← entry, update_eq_self, entry, if_neg Bool.false_ne_true, Nat.sub_zero]

theorem countSet_initial {k : Nat} (bound : k ≤ n) : countSet (fun i => i < k) n = k := by
  induction n with
  | zero => exact (Nat.le_zero.mp bound).symm
  | succ n ih =>
    rw [countSet_succ]
    rcases Nat.lt_or_ge n k with below | above
    · obtain rfl : k = n + 1 := by omega
      have full : countSet (fun i => decide (i < n + 1)) n = n :=
        countSet_eq_self_iff.mpr fun i inside => by
          simp only [decide_eq_true_eq]
          omega
      rw [full]
      simp
    · rw [ih above]
      simp [above]

theorem length_filter_range (table : Nat → Bool) (n : Nat) :
    ((range n).filter table).length = countSet table n := by
  induction n with
  | zero => rfl
  | succ n ih =>
    rw [range_succ, filter_append, length_append, ih, countSet_succ]
    cases entry : table n <;> simp [entry]

/-- Index of the first clear entry among `count` entries from `start` on. -/
def firstClear (table : Nat → Bool) (start count : Nat) : Option Nat :=
  (List.range' start count).find? fun i => !table i

theorem firstClear_eq_some {start count : Nat} (found : firstClear table start count = some i) :
    start ≤ i ∧ i < start + count ∧ table i = false := by
  have clear := find?_some found
  have member := mem_of_find?_eq_some found
  rw [mem_range'_1] at member
  exact ⟨member.1, member.2, by simpa using clear⟩

theorem firstClear_eq_none_iff {start count : Nat} :
    firstClear table start count = none ↔
      ∀ i, start ≤ i → i < start + count → table i = true := by
  simp only [firstClear, find?_eq_none, mem_range'_1]
  constructor
  · intro set i lower upper
    simpa using set i ⟨lower, upper⟩
  · intro set i range
    simpa using set i range.1 range.2

end SwornDisk.Lib
