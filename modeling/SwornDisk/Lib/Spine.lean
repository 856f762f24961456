import Mathlib
import SwornDisk.Lib.Program

/-!
# Levels of a tree under construction

A tree is built from left to right with one unfinished node per level.  `levels i` are the
groups in the node of level `i`, each of them what one child of that node stands for; level
0 is the root.  A node is finished by collecting its groups into one group of the level
above.
-/

namespace SwornDisk.Lib.Spine

open List Function

variable {α : Type}

theorem exists_of_forall₂ {β : Type} {R : α → β → Prop} {xs : List α} {ys : List β}
    (each : Forall₂ R xs ys) {x : α} (member : x ∈ xs) : ∃ y ∈ ys, R x y := by
  induction each with
  | nil => cases member
  | cons here later ih =>
    rcases mem_cons.mp member with rfl | inRest
    · exact ⟨_, mem_cons_self, here⟩
    · obtain ⟨y, inYs, related⟩ := ih inRest
      exact ⟨y, mem_cons_of_mem _ inYs, related⟩

theorem mapM_of_forall₂ {ε β : Type} {f : α → Except ε β} {xs : List α} {ys : List β}
    (each : Forall₂ (fun x y => f x = .ok y) xs ys) : xs.mapM f = .ok ys := by
  induction each with
  | nil => rfl
  | cons here later ih =>
    rw [mapM_cons, here, ok_bind, ih]
    rfl

/-- Everything in the levels from the root down to `lowest`, from left to right. -/
def joined (levels : Nat → List (List α)) : Nat → List α
  | 0 => (levels 0).flatten
  | lowest + 1 => joined levels lowest ++ (levels (lowest + 1)).flatten

def add (levels : Nat → List (List α)) (level : Nat) (group : List α) : Nat → List (List α) :=
  Function.update levels level (levels level ++ [group])

/-- Collect the groups of level `level + 1` into one group of `level`. -/
def collect (levels : Nat → List (List α)) (level : Nat) : Nat → List (List α) :=
  Function.update (add levels level (levels (level + 1)).flatten) (level + 1) []

variable {levels other : Nat → List (List α)} {level lowest base : Nat} {group : List α}

@[simp] theorem add_self : add levels level group level = levels level ++ [group] :=
  update_self ..

theorem add_of_ne {i : Nat} (differ : i ≠ level) : add levels level group i = levels i :=
  update_of_ne differ ..

@[simp] theorem collect_above :
    collect levels level level = levels level ++ [(levels (level + 1)).flatten] := by
  rw [collect, update_of_ne (Nat.succ_ne_self level).symm, add_self]

@[simp] theorem collect_emptied : collect levels level (level + 1) = [] :=
  update_self ..

theorem collect_of_ne {i : Nat} (above : i ≠ level) (here : i ≠ level + 1) :
    collect levels level i = levels i := by
  rw [collect, update_of_ne here, add_of_ne above]

theorem joined_congr (same : ∀ i ≤ lowest, levels i = other i) :
    joined levels lowest = joined other lowest := by
  induction lowest with
  | zero => rw [joined, joined, same 0 le_rfl]
  | succ lowest ih =>
    rw [joined, joined, same (lowest + 1) le_rfl, ih fun i le => same i (by omega)]

section

variable (levels)

theorem joined_add (lowest : Nat) (group : List α) :
    joined (add levels lowest group) lowest = joined levels lowest ++ group := by
  cases lowest with
  | zero => simp [joined]
  | succ lowest =>
    have before : joined (add levels (lowest + 1) group) lowest = joined levels lowest :=
      joined_congr fun i le => add_of_ne (by omega)
    rw [joined, joined, before, add_self, flatten_append, append_assoc]
    simp

theorem joined_collect (within : level < lowest) :
    joined (collect levels level) lowest = joined levels lowest := by
  induction lowest with
  | zero => omega
  | succ lowest ih =>
    by_cases last : level = lowest
    · subst last
      have above : joined (collect levels level) level =
          joined levels level ++ (levels (level + 1)).flatten := by
        rw [← joined_add]
        refine joined_congr fun i le => ?_
        rw [collect, update_of_ne (by omega)]
      rw [joined, joined, above, collect_emptied, flatten_nil, append_nil]
    · rw [joined, joined, ih (by omega), collect_of_ne (by omega) (by omega)]

end

theorem joined_of_empty (empty : ∀ i, 0 < i → i ≤ lowest → levels i = []) :
    joined levels lowest = (levels 0).flatten := by
  induction lowest with
  | zero => rfl
  | succ lowest ih =>
    rw [joined, ih fun i positive le => empty i positive (by omega),
      empty (lowest + 1) (by omega) le_rfl, flatten_nil, append_nil]

theorem flatten_infix (within : level ≤ lowest) :
    (levels level).flatten <:+: joined levels lowest := by
  induction lowest with
  | zero =>
    obtain rfl : level = 0 := by omega
    exact infix_refl _
  | succ lowest ih =>
    rw [joined]
    by_cases last : level = lowest + 1
    · subst last
      exact (suffix_append _ _).isInfix
    · exact (ih (by omega)).trans (prefix_append _ _).isInfix

theorem flatten_append_infix (levels : Nat → List (List α)) (within : level < lowest) :
    (levels level).flatten ++ (levels (level + 1)).flatten <:+: joined levels lowest := by
  have collected : (collect levels level level).flatten <:+: joined (collect levels level) lowest :=
    flatten_infix (Nat.le_of_lt within)
  rw [joined_collect levels within, collect_above, flatten_append] at collected
  simpa using collected

/-- The number of groups of the lowest level that fill the levels, if `base` groups are
collected each time. -/
def weight (base : Nat) (levels : Nat → List (List α)) : Nat → Nat
  | 0 => (levels 0).length
  | lowest + 1 => weight base levels lowest * base + (levels (lowest + 1)).length

theorem weight_congr (same : ∀ i ≤ lowest, levels i = other i) :
    weight base levels lowest = weight base other lowest := by
  induction lowest with
  | zero => rw [weight, weight, same 0 le_rfl]
  | succ lowest ih =>
    rw [weight, weight, same (lowest + 1) le_rfl, ih fun i le => same i (by omega)]

theorem weight_add (base : Nat) (levels : Nat → List (List α)) (lowest : Nat) (group : List α) :
    weight base (add levels lowest group) lowest = weight base levels lowest + 1 := by
  cases lowest with
  | zero => simp [weight]
  | succ lowest =>
    have before : weight base (add levels (lowest + 1) group) lowest =
        weight base levels lowest := weight_congr fun i le => add_of_ne (by omega)
    rw [weight, weight, before, add_self, length_append, length_singleton,
      Nat.add_assoc]

theorem weight_collect (within : level < lowest) (full : (levels (level + 1)).length = base) :
    weight base (collect levels level) lowest = weight base levels lowest := by
  induction lowest with
  | zero => omega
  | succ lowest ih =>
    by_cases last : level = lowest
    · subst last
      have above : weight base (collect levels level) level = weight base levels level + 1 := by
        rw [← weight_add base levels level (levels (level + 1)).flatten]
        refine weight_congr fun i le => ?_
        rw [collect, update_of_ne (by omega)]
      rw [weight, weight, above, collect_emptied, full, Nat.succ_mul]
      rfl
    · rw [weight, weight, ih (by omega), collect_of_ne (by omega) (by omega)]

theorem length_mul_pow_le (base : Nat) (levels : Nat → List (List α)) (lowest : Nat) :
    (levels 0).length * base ^ lowest ≤ weight base levels lowest := by
  induction lowest with
  | zero => rw [pow_zero, Nat.mul_one, weight]
  | succ lowest ih =>
    rw [weight, pow_succ, ← Nat.mul_assoc]
    have scaled := Nat.mul_le_mul_right base ih
    omega

section

variable (positive : 0 < base) (fits : weight base levels lowest ≤ base ^ (lowest + 1))
include positive fits

theorem length_root_lt {i : Nat} (below : 0 < i) (within : i ≤ lowest) (nonempty : levels i ≠ []) :
    (levels 0).length < base := by
  have more : (levels 0).length * base ^ lowest < weight base levels lowest := by
    clear fits
    induction lowest with
    | zero => omega
    | succ lowest ih =>
      rw [weight, pow_succ, ← Nat.mul_assoc]
      by_cases last : i = lowest + 1
      · subst last
        have scaled := Nat.mul_le_mul_right base (length_mul_pow_le base levels lowest)
        have some' := length_pos_iff.mpr nonempty
        omega
      · have scaled := Nat.mul_lt_mul_of_pos_right (ih (by omega)) positive
        omega
  rw [pow_succ'] at fits
  exact Nat.lt_of_mul_lt_mul_right (more.trans_le fits)

theorem length_root_le : (levels 0).length ≤ base := by
  have bound := (length_mul_pow_le base levels lowest).trans fits
  rw [pow_succ'] at bound
  exact Nat.le_of_mul_le_mul_right bound (Nat.pow_pos positive)

end

theorem exists_ne_nil_of_weight (positive : 0 < weight base levels lowest) :
    ∃ i ≤ lowest, levels i ≠ [] := by
  induction lowest with
  | zero => exact ⟨0, le_rfl, ne_nil_of_length_pos positive⟩
  | succ lowest ih =>
    by_cases empty : levels (lowest + 1) = []
    · have above : 0 < weight base levels lowest := by
        rw [weight, empty, length_nil, Nat.add_zero] at positive
        exact Nat.pos_of_mul_pos_right positive
      obtain ⟨i, within, nonempty⟩ := ih above
      exact ⟨i, by omega, nonempty⟩
    · exact ⟨lowest + 1, le_rfl, empty⟩

end SwornDisk.Lib.Spine
