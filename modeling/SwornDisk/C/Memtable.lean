import SwornDisk.C.SegValidator
import SwornDisk.Lib.SearchTree

/-!
# Memtable

`struct rbtree_memtable` of `memtable.c`: the records of the latest puts, in a
red-black tree by logical block address.  Insertions descend by
`memtable_entry_cmp`, whose 64-bit difference is returned as an `int`; searches
compare the keys themselves.
-/

namespace SwornDisk.C

open Lib Option

variable {R V : Type}

/-- `struct rbtree_memtable`. -/
structure Memtable (R : Type) where
  root : R
  size : Nat

/-- A missing value is reported as `-ENODATA`. -/
def orNoData : Option V → Except Errno V
  | some value => .ok value
  | none => .error .enodata

@[simp] theorem toOption_orNoData (value : Option V) : (orNoData value).toOption = value := by
  cases value <;> rfl

/-- `memtable_entry_cmp`: the difference of the keys, cut down to an `int`. -/
def memtableEntryCmp (key1 key2 : Nat) : Int :=
  ((key1 : Int) - (key2 : Int)).bmod (2 ^ 32)

/-- `memtable_entry_cmp_rb` as the direction in which `rb_find_add` leaves a node. -/
def memtableEntryCmpRb (key : Nat) (entry : Nat × V) : Ordering :=
  compare (memtableEntryCmp key entry.1) 0

/-- `memtable_entry_cmp` orders the key correctly against every entry. -/
def Comparable (key : Nat) (entries : List (Nat × V)) : Prop :=
  ∀ entry ∈ entries, (key : Int) - entry.1 < 2 ^ 31 ∧ (entry.1 : Int) - key ≤ 2 ^ 31

instance (key : Nat) (entries : List (Nat × V)) : Decidable (Comparable key entries) :=
  inferInstanceAs (Decidable (∀ entry ∈ entries, _))

theorem memtableEntryCmpRb_eq {key : Nat} {entries : List (Nat × V)}
    (comparable : Comparable key entries) :
    ∀ entry ∈ entries, memtableEntryCmpRb key entry = compareKey key entry := by
  intro entry member
  obtain ⟨above, below⟩ := comparable entry member
  have exact : memtableEntryCmp key entry.1 = (key : Int) - entry.1 := by
    rw [memtableEntryCmp, Int.bmod_eq_of_le] <;> norm_num <;> omega
  unfold memtableEntryCmpRb compareKey
  rw [exact]
  cases side : compare key entry.1 with
  | lt =>
    have := Nat.compare_eq_lt.mp side
    exact compare_lt_iff_lt.mpr (by omega)
  | eq =>
    have := Nat.compare_eq_eq.mp side
    exact compare_eq_iff_eq.mpr (by omega)
  | gt =>
    have := Nat.compare_eq_gt.mp side
    exact compare_gt_iff_gt.mpr (by omega)

variable {root : R} {new : Nat × V}

section

variable (tree : BalancedTree (Nat × V) R)

/-- `rb_find_add`: the node that compares equal, or none and the tree with the
new node in it. -/
def rbFindAdd (root : R) (new : Nat × V) : Option (Nat × V) × R :=
  match descend (memtableEntryCmpRb new.1) (tree.shape root) with
  | some node => (some node, root)
  | none => (none, tree.link root (memtableEntryCmpRb new.1) new)

theorem rbFindAdd_fst (root : R) (new : Nat × V) :
    (rbFindAdd tree root new).1 = descend (memtableEntryCmpRb new.1) (tree.shape root) := by
  unfold rbFindAdd
  split <;> simp_all

theorem length_walk_erase {node : Nat × V} (found : (rbFindAdd tree root new).1 = some node) :
    (tree.walk (tree.erase root (memtableEntryCmpRb new.1))).length <
      (tree.walk root).length := by
  rw [rbFindAdd_fst] at found
  rw [BalancedTree.walk, tree.inorder_erase]
  exact length_inorder_eraseBy found

/-- The loop of `rbtree_memtable_put`: whatever compares equal is erased and the
insertion tried again. -/
def putLoop (new : Nat × V) (root : R) (oldVal : Option V) : Option V × R :=
  match _found : (rbFindAdd tree root new).1 with
  | some node => putLoop new (tree.erase root (memtableEntryCmpRb new.1)) (some node.2)
  | none => (oldVal, (rbFindAdd tree root new).2)
termination_by (tree.walk root).length
decreasing_by exact length_walk_erase tree _found

theorem putLoop_of_missed {oldVal : Option V}
    (missed : descend (memtableEntryCmpRb new.1) (tree.shape root) = none) :
    putLoop tree new root oldVal =
      (oldVal, tree.link root (memtableEntryCmpRb new.1) new) := by
  have notFound : (rbFindAdd tree root new).1 = none := by
    rw [rbFindAdd_fst]
    exact missed
  rw [putLoop]
  split
  · rename_i node found
    rw [notFound] at found
    cases found
  · simp only [rbFindAdd, missed]

/-- `rbtree_memtable_put`: the replaced value, if any, and the new table. -/
def rbtreeMemtablePut (m : Memtable R) (key : Nat) (val : V) : Option V × Memtable R :=
  ((putLoop tree (key, val) m.root none).1,
    { root := (putLoop tree (key, val) m.root none).2
      size := if (putLoop tree (key, val) m.root none).1.isNone then m.size + 1 else m.size })

def rbtreeMemtableGet (m : Memtable R) (key : Nat) : Except Errno V :=
  orNoData ((descend (compareKey key) (tree.shape m.root)).map Prod.snd)

def rbtreeMemtableGetAllEntry (m : Memtable R) : List (Nat × V) :=
  tree.walk m.root

/-- `rbtree_memtable_init`, and what `rbtree_memtable_clear` leaves. -/
def rbtreeMemtableInit : Memtable R where
  root := tree.empty
  size := 0

/-- The walk is in key order and `size` counts it. -/
structure Memtable.Sound (m : Memtable R) : Prop where
  ascending : Ascending (rbtreeMemtableGetAllEntry tree m)
  size_eq : m.size = (rbtreeMemtableGetAllEntry tree m).length

@[simp] theorem rbtreeMemtableGetAllEntry_init :
    rbtreeMemtableGetAllEntry tree (rbtreeMemtableInit tree) = [] :=
  tree.walk_empty

theorem Memtable.sound_init : Memtable.Sound tree (rbtreeMemtableInit tree) where
  ascending := by
    rw [rbtreeMemtableGetAllEntry_init]
    exact List.Pairwise.nil
  size_eq := by
    rw [rbtreeMemtableGetAllEntry_init]
    rfl

variable {tree} {m : Memtable R} {key : Nat}

theorem Memtable.Sound.get (sound : m.Sound tree) (key : Nat) :
    rbtreeMemtableGet tree m key = orNoData ((rbtreeMemtableGetAllEntry tree m).lookup key) := by
  rw [rbtreeMemtableGet, tree.descend_shape sound.ascending]
  rfl

/-- What `rb_find_add` finds under a comparable key is the binding of the key. -/
theorem rbFindAdd_comparable (val : V) (ascending : Ascending (tree.walk root))
    (comparable : Comparable key (tree.walk root)) :
    ((rbFindAdd tree root (key, val)).1.map Prod.snd) = (tree.walk root).lookup key := by
  rw [rbFindAdd_fst, (alike_of_agree (memtableEntryCmpRb_eq comparable)).1]
  exact tree.descend_shape ascending

theorem putLoop_absent (val : V) (oldVal : Option V) (ascending : Ascending (tree.walk root))
    (comparable : Comparable key (tree.walk root)) (absent : (tree.walk root).lookup key = none) :
    (putLoop tree (key, val) root oldVal).1 = oldVal ∧
      tree.walk (putLoop tree (key, val) root oldVal).2 = insertEntry key val (tree.walk root) := by
  have missed : descend (memtableEntryCmpRb (key, val).1) (tree.shape root) = none := by
    have found := rbFindAdd_comparable val ascending comparable
    rw [absent, rbFindAdd_fst] at found
    exact Option.map_eq_none_iff.mp found
  rw [putLoop_of_missed tree missed]
  exact ⟨rfl, tree.walk_link ascending (memtableEntryCmpRb_eq comparable) absent⟩

theorem putLoop_comparable (val : V) (ascending : Ascending (tree.walk root))
    (comparable : Comparable key (tree.walk root)) :
    (putLoop tree (key, val) root none).1 = (tree.walk root).lookup key ∧
      tree.walk (putLoop tree (key, val) root none).2 = insertEntry key val (tree.walk root) := by
  cases bound : (tree.walk root).lookup key with
  | none => exact putLoop_absent val none ascending comparable bound
  | some old =>
    have hit := rbFindAdd_comparable val ascending comparable
    rw [bound] at hit
    obtain ⟨node, found, rfl⟩ := map_eq_some_iff.mp hit
    obtain ⟨thinned, gone, same⟩ :=
      tree.walk_erase ascending (memtableEntryCmpRb_eq comparable)
    have again := putLoop_absent val (some node.2)
      (ascending.sublist thinned) (fun entry member => comparable entry (thinned.subset member))
      gone
    rw [same] at again
    rw [putLoop]
    split
    · rename_i other foundOther
      rw [found] at foundOther
      cases foundOther
      exact again
    · rename_i missed
      rw [found] at missed
      contradiction

theorem Memtable.Sound.put (sound : m.Sound tree) (val : V)
    (comparable : Comparable key (rbtreeMemtableGetAllEntry tree m)) :
    rbtreeMemtableGetAllEntry tree (rbtreeMemtablePut tree m key val).2 =
        insertEntry key val (rbtreeMemtableGetAllEntry tree m) ∧
      (rbtreeMemtablePut tree m key val).2.Sound tree := by
  obtain ⟨replaced, walked⟩ := putLoop_comparable val sound.ascending comparable
  have inserted : rbtreeMemtableGetAllEntry tree (rbtreeMemtablePut tree m key val).2 =
      insertEntry key val (rbtreeMemtableGetAllEntry tree m) := walked
  refine ⟨inserted, ?_, ?_⟩
  · rw [inserted]
    exact Ascending.insertEntry sound.ascending key val
  · rw [inserted, length_insertEntry sound.ascending, ← sound.size_eq]
    simp only [rbtreeMemtablePut, replaced]
    rfl

end

end SwornDisk.C
