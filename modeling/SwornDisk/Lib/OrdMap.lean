import Mathlib

/-!
# Ordered association lists

The red-black trees of both implementations are used as ordered maps: insert a
binding, look a key up, walk the bindings in ascending key order.  Here such a
map is the list of its bindings with the order as a field, so that an unordered
map cannot be built.
-/

namespace SwornDisk.Lib

open List Function Option

variable {ν : Type}

/-- Insert a binding into an ascending list, replacing the binding of the key. -/
def insertEntry (key : Nat) (value : ν) : List (Nat × ν) → List (Nat × ν)
  | [] => [(key, value)]
  | (other, held) :: rest =>
    if key < other then (key, value) :: (other, held) :: rest
    else if key = other then (key, value) :: rest
    else (other, held) :: insertEntry key value rest

def Ascending (entries : List (Nat × ν)) : Prop :=
  entries.Pairwise fun left right => left.1 < right.1

variable {entries : List (Nat × ν)} {key : Nat} {value : ν}

theorem mem_insertEntry {entry : Nat × ν} (member : entry ∈ insertEntry key value entries) :
    entry = (key, value) ∨ entry ∈ entries := by
  induction entries with
  | nil =>
    simpa [insertEntry] using member
  | cons head rest ih =>
    simp only [insertEntry] at member
    split at member
    · simpa using member
    · split at member
      · rcases mem_cons.mp member with rfl | inRest
        · exact .inl rfl
        · exact .inr (mem_cons_of_mem _ inRest)
      · rcases mem_cons.mp member with rfl | inRest
        · exact .inr mem_cons_self
        · rcases ih inRest with equal | inRest
          · exact .inl equal
          · exact .inr (mem_cons_of_mem _ inRest)

theorem Ascending.insertEntry (ascending : Ascending entries) (key : Nat) (value : ν) :
    Ascending (insertEntry key value entries) := by
  induction entries with
  | nil => exact pairwise_singleton _ _
  | cons head rest ih =>
    obtain ⟨headBelow, restAscending⟩ := pairwise_cons.mp ascending
    simp only [Lib.insertEntry]
    split
    · rename_i below
      refine pairwise_cons.mpr ⟨?_, ascending⟩
      intro entry member
      rcases mem_cons.mp member with rfl | inRest
      · exact below
      · exact below.trans (headBelow entry inRest)
    · split
      · rename_i equal
        refine pairwise_cons.mpr ⟨?_, restAscending⟩
        intro entry inRest
        have headEntry := headBelow entry inRest
        simp only at equal ⊢
        omega
      · refine pairwise_cons.mpr ⟨?_, ih restAscending⟩
        intro entry member
        rcases mem_insertEntry member with rfl | inRest
        · simp only
          omega
        · exact headBelow entry inRest

theorem lookup_cons_eq_ite (other : Nat) (held : ν) (rest : List (Nat × ν)) (key : Nat) :
    ((other, held) :: rest).lookup key = if key = other then some held else rest.lookup key := by
  rw [lookup_cons]
  by_cases same : key = other
  · simp [same]
  · rw [if_neg same, beq_false_of_ne same]

theorem lookup_insertEntry (key : Nat) (value : ν) (entries : List (Nat × ν)) (wanted : Nat) :
    (insertEntry key value entries).lookup wanted =
      if wanted = key then some value else entries.lookup wanted := by
  induction entries with
  | nil => exact lookup_cons_eq_ite key value [] wanted
  | cons head rest ih =>
    obtain ⟨other, held⟩ := head
    simp only [insertEntry]
    split
    · rw [lookup_cons_eq_ite key]
    · split
      · rename_i equal
        subst equal
        rw [lookup_cons_eq_ite, lookup_cons_eq_ite]
        split <;> rfl
      · rename_i differ
        rw [lookup_cons_eq_ite, lookup_cons_eq_ite, ih]
        split
        · rename_i equal
          have distinct : wanted ≠ key := by omega
          rw [if_neg distinct]
        · rfl

section

variable (ascending : Ascending entries)
include ascending

theorem lookup_eq_some_iff_mem : entries.lookup key = some value ↔ (key, value) ∈ entries := by
  induction entries with
  | nil => simp
  | cons head rest ih =>
    obtain ⟨other, held⟩ := head
    obtain ⟨headBelow, restAscending⟩ := pairwise_cons.mp ascending
    rw [lookup_cons_eq_ite, mem_cons]
    by_cases same : key = other
    · subst same
      have absent : (key, value) ∉ rest := fun member =>
        lt_irrefl key (headBelow _ member)
      simp [absent, eq_comm]
    · rw [if_neg same, ih restAscending]
      simp [same]

theorem length_insertEntry (key : Nat) (value : ν) :
    (insertEntry key value entries).length =
      if (entries.lookup key).isNone then entries.length + 1 else entries.length := by
  induction entries with
  | nil => rfl
  | cons head rest ih =>
    obtain ⟨other, held⟩ := head
    obtain ⟨headBelow, restAscending⟩ := pairwise_cons.mp ascending
    rw [lookup_cons_eq_ite]
    simp only [insertEntry]
    split
    · rename_i below
      have absent : rest.lookup key = none := by
        rw [eq_none_iff_forall_ne_some]
        intro value bound
        have := headBelow _ ((lookup_eq_some_iff_mem restAscending).mp bound)
        omega
      rw [if_neg below.ne, absent]
      rfl
    · split
      · rfl
      · rw [length_cons, length_cons, ih restAscending]
        split <;> rfl

theorem Ascending.bounds {first last : Nat × ν} (isFirst : entries.head? = some first)
    (isLast : entries.getLast? = some last) :
    ∀ entry ∈ entries, first.1 ≤ entry.1 ∧ entry.1 ≤ last.1 := by
  intro entry member
  constructor
  · cases entries with
    | nil => cases isFirst
    | cons head rest =>
      obtain rfl := some.inj isFirst
      rcases mem_cons.mp member with rfl | later
      · exact le_rfl
      · exact ((pairwise_cons.mp ascending).1 entry later).le
  · obtain ⟨init, rfl⟩ := getLast?_eq_some_iff.mp isLast
    rcases mem_append.mp member with earlier | atEnd
    · exact ((pairwise_append.mp ascending).2.2 entry earlier last mem_cons_self).le
    · rw [mem_singleton.mp atEnd]

theorem Ascending.length_le {bound : Nat} (below : ∀ entry ∈ entries, entry.1 < bound) :
    entries.length ≤ bound := by
  have distinct : (entries.map Prod.fst).Nodup :=
    pairwise_map.mpr (ascending.imp fun less => less.ne)
  have inside : (entries.map Prod.fst).toFinset ⊆ Finset.range bound := by
    intro key member
    obtain ⟨entry, isEntry, rfl⟩ := mem_map.mp (mem_toFinset.mp member)
    exact Finset.mem_range.mpr (below entry isEntry)
  have counted := Finset.card_le_card inside
  rw [toFinset_card_of_nodup distinct, length_map, Finset.card_range] at counted
  exact counted

end

structure OrdMap (ν : Type) where
  entries : List (Nat × ν)
  ascending : Ascending entries

namespace OrdMap

def empty : OrdMap ν := ⟨[], List.Pairwise.nil⟩

variable (m : OrdMap ν)

def insert (key : Nat) (value : ν) : OrdMap ν :=
  ⟨insertEntry key value m.entries, m.ascending.insertEntry key value⟩

def find (key : Nat) : Option ν :=
  m.entries.lookup key

@[simp] theorem find_empty (key : Nat) : (empty : OrdMap ν).find key = none :=
  rfl

theorem find_insert (key : Nat) (value : ν) :
    (m.insert key value).find = update m.find key (some value) := by
  funext wanted
  rw [update_apply]
  exact lookup_insertEntry key value m.entries wanted

theorem find_eq_some_iff_mem : m.find key = some value ↔ (key, value) ∈ m.entries :=
  lookup_eq_some_iff_mem m.ascending

def erase (key : Nat) : OrdMap ν :=
  ⟨m.entries.filter fun entry => entry.1 ≠ key, m.ascending.filter _⟩

theorem find_erase (key : Nat) : (m.erase key).find = update m.find key none := by
  funext wanted
  rw [update_apply]
  refine Option.ext fun value => ?_
  rw [find_eq_some_iff_mem, erase, mem_filter]
  split
  · next same => simp [same]
  · next other => simp [find_eq_some_iff_mem, other]

end OrdMap

end SwornDisk.Lib
