import Mathlib

/-!
# Depth-first traversals with a stack

A traversal keeps, for each level of a tree, the groups of the node at hand that it has not
entered yet; level 0 is the root.  Entering a group of a level puts its parts on the level
below.  What is pending is the concatenation of the levels from below, so entering a group
keeps it as long as the level below was used up.
-/

namespace SwornDisk.Lib.Traversal

open List Function

variable {α : Type}

/-- What is pending in the levels above `bound`, the lowest level first. -/
def pending (groups : Nat → List (List α)) : Nat → List α
  | 0 => []
  | level + 1 => (groups level).flatten ++ pending groups level

/-- Enter the first group of a level: its parts are on the level below. -/
def enter (groups : Nat → List (List α)) (level : Nat) (parts : List (List α)) :
    Nat → List (List α) :=
  Function.update (Function.update groups level (groups level).tail) (level + 1) parts

variable {groups other : Nat → List (List α)} {level bound : Nat} {parts : List (List α)}

theorem pending_congr (same : ∀ i < bound, groups i = other i) :
    pending groups bound = pending other bound := by
  induction bound with
  | zero => rfl
  | succ bound ih =>
    rw [pending, pending, same bound (Nat.lt_succ_self _),
      ih fun i below => same i (Nat.lt_succ_of_lt below)]

section

variable (groups : Nat → List (List α)) (level : Nat) (parts : List (List α))

@[simp] theorem enter_below : enter groups level parts (level + 1) = parts :=
  update_self ..

@[simp] theorem enter_self : enter groups level parts level = (groups level).tail := by
  rw [enter, update_of_ne (Nat.ne_of_lt (Nat.lt_succ_self _)), update_self]

end

variable {i : Nat}

theorem enter_of_ne (ne : i ≠ level) (ne' : i ≠ level + 1) :
    enter groups level parts i = groups i := by
  rw [enter, update_of_ne ne', update_of_ne ne]

variable {part : List α} {more : List (List α)}

theorem pending_tail (first : groups level = part :: more) :
    part ++ pending (update groups level more) (level + 1) =
      pending groups (level + 1) := by
  have above : pending (update groups level more) level = pending groups level :=
    pending_congr fun i below => update_of_ne (Nat.ne_of_lt below) ..
  rw [pending, pending, above, first, update_self, flatten_cons, append_assoc]

theorem pending_enter (first : groups level = part :: more) (usedUp : groups (level + 1) = [])
    (flat : parts.flatten = part) (inside : level + 1 < bound) :
    pending (enter groups level parts) bound = pending groups bound := by
  induction bound with
  | zero => omega
  | succ bound ih =>
    rcases Nat.lt_or_eq_of_le (Nat.le_of_lt_succ inside) with less | rfl
    · rw [pending, pending, ih less, enter_of_ne (by omega) (by omega)]
    · have above : pending (enter groups level parts) level = pending groups level :=
        pending_congr fun i below => enter_of_ne (by omega) (by omega)
      rw [pending, pending, pending, pending, above, enter_below, enter_self, first, usedUp, flat,
        flatten_nil, nil_append, tail_cons, flatten_cons, append_assoc]

theorem eq_nil_of_pending (nonempty : ∀ i < bound, ∀ group ∈ groups i, group ≠ [])
    (done : pending groups bound = []) (inside : i < bound) : groups i = [] := by
  induction bound with
  | zero => omega
  | succ bound ih =>
    rw [pending, append_eq_nil_iff] at done
    rcases Nat.lt_or_eq_of_le (Nat.le_of_lt_succ inside) with less | rfl
    · exact ih (fun i below => nonempty i (Nat.lt_succ_of_lt below)) done.2 less
    · refine eq_nil_iff_forall_not_mem.mpr fun group member => ?_
      exact nonempty i inside group member (flatten_eq_nil_iff.mp done.1 group member)

end SwornDisk.Lib.Traversal
