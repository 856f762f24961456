import Mathlib.Algebra.Order.Group.Nat
import Mathlib.Data.List.Basic

/-!
# Fragments with holes

Fragments in a row, some of them found and the others holes that read as zeros.  They may
be laid out each at its own place, or packed so that the found ones follow each other and
the zeros come last.  The two agree only if nothing but zeros is found behind a hole.
-/

namespace SwornDisk.Lib

open List Option

variable {α : Type} [Zero α]

structure Fragment (α : Type) [Zero α] where
  found : Bool
  data : List α
  blank : found = false → ∀ x ∈ data, x = 0

namespace Fragment

def spread (fragments : List (Fragment α)) : List α :=
  fragments.flatMap Fragment.data

def packed (fragments : List (Fragment α)) : List α :=
  fragments.flatMap fun fragment => if fragment.found then fragment.data else []

def ZeroBehindHoles (fragments : List (Fragment α)) : Prop :=
  fragments.Pairwise fun left right =>
    left.found = false → left.data ≠ [] → right.found = true → ∀ x ∈ right.data, x = 0

variable {fragment : Fragment α} {fragments : List (Fragment α)}

theorem packed_cons_found (found : fragment.found = true) :
    packed (fragment :: fragments) = fragment.data ++ packed fragments := by
  rw [packed, flatMap_cons, if_pos found]
  rfl

theorem packed_cons_hole (hole : fragment.found = false) :
    packed (fragment :: fragments) = packed fragments := by
  rw [packed, flatMap_cons, hole]
  rfl

theorem spread_cons : spread (fragment :: fragments) = fragment.data ++ spread fragments :=
  flatMap_cons

theorem length_packed_le (fragments : List (Fragment α)) :
    (packed fragments).length ≤ (spread fragments).length := by
  induction fragments with
  | nil => exact Nat.le_refl _
  | cons fragment rest ih =>
    rw [spread_cons, length_append]
    cases state : fragment.found with
    | true =>
      rw [packed_cons_found state, length_append]
      omega
    | false =>
      rw [packed_cons_hole state]
      omega

theorem take_spread_zero (count : Nat) (zeros : ∀ x ∈ (packed fragments).take count, x = 0) :
    ∀ x ∈ (spread fragments).take count, x = 0 := by
  induction fragments generalizing count with
  | nil => exact zeros
  | cons fragment rest ih =>
    rw [spread_cons, take_append]
    cases state : fragment.found with
    | true =>
      rw [packed_cons_found state, take_append] at zeros
      intro x member
      rcases mem_append.mp member with here | later
      · exact zeros x (mem_append_left _ here)
      · exact ih _ (fun y found => zeros y (mem_append_right _ found)) x later
    | false =>
      rw [packed_cons_hole state] at zeros
      intro x member
      rcases mem_append.mp member with here | later
      · exact fragment.blank state x (mem_of_mem_take here)
      · refine ih _ (fun y found => zeros y ?_) x later
        exact (take_subset_take_left _ (Nat.sub_le _ _)) found

/-- Parts that are packed as if they stood behind zeros are zero: the first one that is not
would have to stand further back. -/
theorem packed_zero_of_shift {shift padding : Nat} (positive : 0 < shift)
    (shifted : packed fragments ++ replicate padding 0 =
      replicate shift 0 ++ spread fragments) :
    ∀ x ∈ packed fragments, x = 0 := by
  have front : ∀ count, ∀ x ∈ (packed fragments).take count, x = 0 := by
    intro count
    induction count with
    | zero =>
      intro x member
      simp at member
    | succ count ih =>
      intro x member
      rw [take_add_one] at member
      rcases mem_append.mp member with before | here
      · exact ih x before
      · have packedAt : (packed fragments)[count]? = some x := by simpa using here
        have at' : (replicate shift 0 ++ spread fragments)[count]? = some x := by
          obtain ⟨inside, -⟩ := List.getElem?_eq_some_iff.mp packedAt
          rw [← shifted, getElem?_append_left inside, packedAt]
        by_cases early : count < shift
        · rw [getElem?_append_left (by rwa [length_replicate]),
            getElem?_replicate_of_lt early] at at'
          exact (some.inj at').symm
        · rw [getElem?_append_right (by rw [length_replicate]; omega),
            length_replicate] at at'
          refine take_spread_zero count ih x (mem_of_getElem? (i := count - shift) ?_)
          rw [getElem?_take_of_lt (by omega), at']
  intro x member
  refine front (packed fragments).length x ?_
  rwa [take_length]

theorem mem_packed {x : α} :
    x ∈ packed fragments ↔
      ∃ fragment ∈ fragments, fragment.found = true ∧ x ∈ fragment.data := by
  unfold packed
  rw [mem_flatMap]
  constructor
  · rintro ⟨fragment, member, inside⟩
    cases state : fragment.found with
    | true =>
      rw [state] at inside
      exact ⟨fragment, member, state, inside⟩
    | false =>
      rw [state] at inside
      cases inside
  · rintro ⟨fragment, member, found, inside⟩
    exact ⟨fragment, member, by rwa [found]⟩

theorem spread_zero (zeros : ∀ x ∈ packed fragments, x = 0) : ∀ x ∈ spread fragments, x = 0 := by
  have all := take_spread_zero (spread fragments).length
    fun x member => zeros x (mem_of_mem_take member)
  rwa [take_length] at all

/-- Packing the parts that are found leaves every part at its own place exactly if nothing
but zeros is found behind a hole. -/
theorem packed_eq_spread_iff :
    packed fragments ++
        replicate ((spread fragments).length - (packed fragments).length) 0 =
      spread fragments ↔ ZeroBehindHoles fragments := by
  induction fragments with
  | nil => exact ⟨fun _ => Pairwise.nil, fun _ => rfl⟩
  | cons fragment rest ih =>
    have shorter := length_packed_le rest
    unfold ZeroBehindHoles
    rw [spread_cons, pairwise_cons]
    cases state : fragment.found with
    | true =>
      rw [packed_cons_found state, length_append, length_append,
        Nat.add_sub_add_left, append_assoc, append_cancel_left_eq]
      constructor
      · intro same
        refine ⟨fun _ _ hole => ?_, ih.mp same⟩
        cases hole
      · rintro ⟨-, later⟩
        exact ih.mpr later
    | false =>
      rw [packed_cons_hole state]
      by_cases empty : fragment.data = []
      · rw [empty, nil_append]
        constructor
        · intro same
          exact ⟨fun _ _ _ nonempty => absurd rfl nonempty, ih.mp same⟩
        · rintro ⟨-, later⟩
          exact ih.mpr later
      · constructor
        · intro same
          rw [eq_replicate_iff.mpr ⟨rfl, fragment.blank state⟩] at same
          have zeros := packed_zero_of_shift (length_pos_iff.mpr empty) same
          have each : ∀ right ∈ rest, right.found = true → ∀ x ∈ right.data, x = 0 :=
            fun right member found x inside =>
              zeros x (mem_packed.mpr ⟨right, member, found, inside⟩)
          exact ⟨fun right member _ _ => each right member,
            pairwise_of_forall_mem_list fun _ _ right member _ _ => each right member⟩
        · rintro ⟨head, -⟩
          have zeros : ∀ x ∈ packed rest, x = 0 := by
            intro x member
            obtain ⟨right, inRest, found, inside⟩ := mem_packed.mp member
            exact head right inRest rfl empty found x inside
          rw [eq_replicate_iff.mpr ⟨rfl, zeros⟩,
            eq_replicate_iff.mpr ⟨rfl, spread_zero zeros⟩,
            eq_replicate_iff.mpr ⟨rfl, fragment.blank state⟩,
            replicate_append_replicate, replicate_append_replicate]
          congr 1
          simp only [length_replicate]
          omega

end Fragment

end SwornDisk.Lib
