import SwornDisk.Lib.OrdMap

/-!
# Binary search trees behind a balancing scheme

A kernel `rb_root` is used through a descent that the caller programs: at every
node the caller's comparison says left, right or here.  Balancing may then move
the nodes, which no caller can tell from the in-order walk.  The trees are
Mathlib's `BinaryTree`; a balancing scheme is any carrier whose linking and
erasing agree, in order, with the plain tree operations.
-/

namespace SwornDisk.Lib

open List Option

variable {α ν : Type}

/-- The in-order walk (`rb_first`, `rb_next`). -/
def inorder : BinaryTree α → List α
  | .nil => []
  | .node entry left right => inorder left ++ entry :: inorder right

/-- Follow `dir` from the root to the first node at which it says "here". -/
def descend (dir : α → Ordering) : BinaryTree α → Option α
  | .nil => none
  | .node entry left right =>
    match dir entry with
    | .lt => descend dir left
    | .gt => descend dir right
    | .eq => some entry

def linkBy (dir : α → Ordering) (new : α) : BinaryTree α → BinaryTree α
  | .nil => .node new .nil .nil
  | .node entry left right =>
    match dir entry with
    | .lt => .node entry (linkBy dir new left) right
    | .gt => .node entry left (linkBy dir new right)
    | .eq => .node entry left right

/-- The leftmost entry of a tree with that root, and the rest of the tree. -/
def popLeftmost (entry : α) (right : BinaryTree α) : BinaryTree α → α × BinaryTree α
  | .nil => (entry, right)
  | .node next farther between =>
    ((popLeftmost next between farther).1,
      .node entry (popLeftmost next between farther).2 right)

def joinTrees (left : BinaryTree α) : BinaryTree α → BinaryTree α
  | .nil => left
  | .node entry farther right =>
    .node (popLeftmost entry right farther).1 left (popLeftmost entry right farther).2

def eraseBy (dir : α → Ordering) : BinaryTree α → BinaryTree α
  | .nil => .nil
  | .node entry left right =>
    match dir entry with
    | .lt => .node entry (eraseBy dir left) right
    | .gt => .node entry left (eraseBy dir right)
    | .eq => joinTrees left right

theorem inorder_popLeftmost (entry : α) (right left : BinaryTree α) :
    (popLeftmost entry right left).1 :: inorder (popLeftmost entry right left).2 =
      inorder left ++ entry :: inorder right := by
  induction left generalizing entry right with
  | nil => rfl
  | node next farther between ihLeft _ =>
    simp only [popLeftmost, inorder]
    rw [← cons_append, ihLeft]

theorem inorder_joinTrees (left right : BinaryTree α) :
    inorder (joinTrees left right) = inorder left ++ inorder right := by
  cases right with
  | nil => simp [joinTrees, inorder]
  | node entry farther right =>
    simp only [joinTrees, inorder]
    rw [inorder_popLeftmost]

variable {dir : α → Ordering} {t : BinaryTree α}

theorem length_inorder_eraseBy {node : α} (found : descend dir t = some node) :
    (inorder (eraseBy dir t)).length < (inorder t).length := by
  induction t with
  | nil => cases found
  | node entry left right ihLeft ihRight =>
    simp only [descend] at found
    simp only [eraseBy]
    split at found
    · have := ihLeft found
      simp only [inorder, length_append, length_cons]
      omega
    · have := ihRight found
      simp only [inorder, length_append, length_cons]
      omega
    · simp only [inorder, inorder_joinTrees, length_append, length_cons]
      omega

/-! ## Trees ordered by a key

`compareKey` directs the descent by the keys themselves; the lemmas say that it
turns the tree operations into the operations on ascending lists. -/

/-- The direction in which `key` lies from an entry. -/
def compareKey (key : Nat) (entry : Nat × ν) : Ordering :=
  compare key entry.1

variable {other : α → Ordering}

theorem alike_of_agree (agree : ∀ entry ∈ inorder t, dir entry = other entry) :
    descend dir t = descend other t ∧ (∀ new, linkBy dir new t = linkBy other new t) ∧
      eraseBy dir t = eraseBy other t := by
  induction t with
  | nil => exact ⟨rfl, fun _ => rfl, rfl⟩
  | node entry left right ihLeft ihRight =>
    have atLeft := ihLeft fun e member => agree e (by simp [inorder, member])
    have atRight := ihRight fun e member => agree e (by simp [inorder, member])
    simp only [descend, linkBy, eraseBy, agree entry (by simp [inorder]), atLeft, atRight,
      implies_true, and_self]

variable {key : Nat} {entries : List (Nat × ν)}

section

variable {left right : List (Nat × ν)} {other : Nat} {held : ν}

theorem Ascending.split (ascending : Ascending (left ++ (other, held) :: right)) :
    Ascending left ∧ Ascending right ∧ (∀ entry ∈ left, entry.1 < other) ∧
      ∀ entry ∈ right, other < entry.1 := by
  obtain ⟨leftAscending, restAscending, across⟩ := pairwise_append.mp ascending
  obtain ⟨above, rightAscending⟩ := pairwise_cons.mp restAscending
  exact ⟨leftAscending, rightAscending,
    fun entry member => across entry member _ mem_cons_self, above⟩

theorem lookup_eq_none_of_forall_ne (absent : ∀ entry ∈ entries, entry.1 ≠ key) :
    entries.lookup key = none := by
  induction entries with
  | nil => rfl
  | cons head rest ih =>
    obtain ⟨first, value⟩ := head
    rw [lookup_cons_eq_ite, if_neg (absent _ mem_cons_self).symm]
    exact ih fun entry member => absent entry (mem_cons_of_mem _ member)

theorem ne_of_lookup_eq_none (absent : entries.lookup key = none) :
    ∀ entry ∈ entries, entry.1 ≠ key := by
  induction entries with
  | nil => simp
  | cons head rest ih =>
    obtain ⟨first, value⟩ := head
    rw [lookup_cons_eq_ite] at absent
    split at absent
    · contradiction
    · rename_i differ
      intro entry member
      rcases mem_cons.mp member with rfl | inRest
      · exact fun equal => differ equal.symm
      · exact ih absent entry inRest

theorem lookup_around (ascending : Ascending (left ++ (other, held) :: right)) (key : Nat) :
    (left ++ (other, held) :: right).lookup key =
      match compare key other with
      | .lt => left.lookup key
      | .gt => right.lookup key
      | .eq => some held := by
  obtain ⟨-, -, below, above⟩ := ascending.split
  rw [lookup_append, lookup_cons_eq_ite]
  cases side : compare key other with
  | lt =>
    have smaller : key < other := Nat.compare_eq_lt.mp side
    have notRight : right.lookup key = none := lookup_eq_none_of_forall_ne fun entry member => by
      have := above entry member
      omega
    rw [if_neg (by omega), notRight, or_none]
  | eq =>
    have equal : key = other := Nat.compare_eq_eq.mp side
    have notLeft : left.lookup key = none := lookup_eq_none_of_forall_ne fun entry member => by
      have := below entry member
      omega
    rw [if_pos equal, notLeft, none_or]
  | gt =>
    have greater : other < key := Nat.compare_eq_gt.mp side
    have notLeft : left.lookup key = none := lookup_eq_none_of_forall_ne fun entry member => by
      have := below entry member
      omega
    rw [if_neg (by omega), notLeft, none_or]

theorem insertEntry_append_of_lt (value : ν) (smaller : key < other) :
    insertEntry key value (left ++ (other, held) :: right) =
      insertEntry key value left ++ (other, held) :: right := by
  induction left with
  | nil => simp only [nil_append, insertEntry, if_pos smaller, cons_append]
  | cons head rest ih =>
    simp only [cons_append, insertEntry, ih]
    split
    · rfl
    · split <;> rfl

theorem insertEntry_append_of_forall_lt (value : ν) (below : ∀ entry ∈ left, entry.1 < key) :
    insertEntry key value (left ++ right) = left ++ insertEntry key value right := by
  induction left with
  | nil => rfl
  | cons head rest ih =>
    have headBelow := below head mem_cons_self
    simp only [cons_append, insertEntry]
    rw [if_neg (by omega), if_neg (by omega),
      ih fun entry member => below entry (mem_cons_of_mem _ member)]

theorem insertEntry_around (ascending : Ascending (left ++ (other, held) :: right)) (key : Nat)
    (value : ν) :
    insertEntry key value (left ++ (other, held) :: right) =
      match compare key other with
      | .lt => insertEntry key value left ++ (other, held) :: right
      | .gt => left ++ (other, held) :: insertEntry key value right
      | .eq => left ++ (key, value) :: right := by
  obtain ⟨-, -, below, -⟩ := ascending.split
  cases side : compare key other with
  | lt => exact insertEntry_append_of_lt value (Nat.compare_eq_lt.mp side)
  | eq =>
    obtain rfl : key = other := Nat.compare_eq_eq.mp side
    rw [insertEntry_append_of_forall_lt value below]
    simp only [insertEntry, lt_irrefl, if_false, if_true]
  | gt =>
    have greater : other < key := Nat.compare_eq_gt.mp side
    rw [insertEntry_append_of_forall_lt value fun entry member =>
      (below entry member).trans greater]
    simp only [insertEntry]
    rw [if_neg (by omega), if_neg (by omega)]

end

variable {value : ν}

section

variable {t : BinaryTree (Nat × ν)} (ascending : Ascending (inorder t))
include ascending

theorem descend_compareKey (key : Nat) :
    (descend (compareKey key) t).map Prod.snd = (inorder t).lookup key := by
  induction t with
  | nil => rfl
  | node entry left right ihLeft ihRight =>
    obtain ⟨other, held⟩ := entry
    obtain ⟨leftAscending, rightAscending, -⟩ := ascending.split
    simp only [inorder]
    rw [lookup_around ascending, ← ihLeft leftAscending, ← ihRight rightAscending]
    simp only [descend, compareKey]
    cases compare key other <;> rfl

theorem inorder_linkBy_compareKey (absent : (inorder t).lookup key = none) :
    inorder (linkBy (compareKey key) (key, value) t) = insertEntry key value (inorder t) := by
  induction t with
  | nil => rfl
  | node entry left right ihLeft ihRight =>
    obtain ⟨other, held⟩ := entry
    obtain ⟨leftAscending, rightAscending, -⟩ := ascending.split
    simp only [inorder] at absent ⊢
    rw [lookup_around ascending] at absent
    rw [insertEntry_around ascending]
    simp only [linkBy, compareKey]
    cases side : compare key other with
    | lt =>
      simp only [side] at absent
      simp only [inorder, ihLeft leftAscending absent]
    | eq => simp [side] at absent
    | gt =>
      simp only [side] at absent
      simp only [inorder, ihRight rightAscending absent]

/-- Erasing by keys takes the binding of the key out of the walk: what is then
inserted under the key replaces it. -/
theorem inorder_eraseBy_compareKey (key : Nat) :
    Sublist (inorder (eraseBy (compareKey key) t)) (inorder t) ∧
      (inorder (eraseBy (compareKey key) t)).lookup key = none ∧
      ∀ value, insertEntry key value (inorder (eraseBy (compareKey key) t)) =
        insertEntry key value (inorder t) := by
  induction t with
  | nil => exact ⟨.slnil, rfl, fun _ => rfl⟩
  | node entry left right ihLeft ihRight =>
    obtain ⟨other, held⟩ := entry
    obtain ⟨leftAscending, rightAscending, below, above⟩ := ascending.split
    simp only [eraseBy, compareKey]
    cases side : compare key other with
    | lt =>
      obtain ⟨sub, gone, same⟩ := ihLeft leftAscending
      have thinned : Sublist
          (inorder (eraseBy (compareKey key) left) ++ (other, held) :: inorder right)
          (inorder left ++ (other, held) :: inorder right) := sub.append (Sublist.refl _)
      simp only [inorder]
      refine ⟨thinned, ?_, fun value => ?_⟩
      · rw [lookup_around (ascending.sublist thinned), side]
        exact gone
      · rw [insertEntry_around (ascending.sublist thinned), insertEntry_around ascending, side]
        exact congrArg (· ++ _) (same value)
    | eq =>
      obtain rfl : key = other := Nat.compare_eq_eq.mp side
      simp only [inorder, inorder_joinTrees]
      refine ⟨Sublist.append (Sublist.refl _) (sublist_cons_self _ _), ?_,
        fun value => ?_⟩
      · refine lookup_eq_none_of_forall_ne fun entry member => ?_
        rcases mem_append.mp member with inLeft | inRight
        · exact (below entry inLeft).ne
        · exact (above entry inRight).ne'
      · rw [insertEntry_around ascending, side, insertEntry_append_of_forall_lt value below]
        refine congrArg _ ?_
        cases rightWalk : inorder right with
        | nil => rfl
        | cons head rest =>
          have headAbove := above head (by rw [rightWalk]; exact mem_cons_self)
          simp only [insertEntry, if_pos headAbove]
    | gt =>
      obtain ⟨sub, gone, same⟩ := ihRight rightAscending
      have thinned : Sublist
          (inorder left ++ (other, held) :: inorder (eraseBy (compareKey key) right))
          (inorder left ++ (other, held) :: inorder right) :=
        Sublist.append (Sublist.refl _) (sub.cons_cons _)
      simp only [inorder]
      refine ⟨thinned, ?_, fun value => ?_⟩
      · rw [lookup_around (ascending.sublist thinned), side]
        exact gone
      · rw [insertEntry_around (ascending.sublist thinned), insertEntry_around ascending, side]
        exact congrArg (fun rest => _ ++ _ :: rest) (same value)

end

/-- A red-black tree as its callers see it.  The carrier `R` holds the colours;
linking and erasing rebalance, which keeps the in-order walk. -/
structure BalancedTree (α R : Type) where
  empty : R
  shape : R → BinaryTree α
  link : R → (α → Ordering) → α → R
  erase : R → (α → Ordering) → R
  shape_empty : shape empty = .nil
  inorder_link : ∀ root dir new,
    inorder (shape (link root dir new)) = inorder (linkBy dir new (shape root))
  inorder_erase : ∀ root dir,
    inorder (shape (erase root dir)) = inorder (eraseBy dir (shape root))

def plainTree (α : Type) : BalancedTree α (BinaryTree α) where
  empty := .nil
  shape := id
  link root dir new := linkBy dir new root
  erase root dir := eraseBy dir root
  shape_empty := rfl
  inorder_link _ _ _ := rfl
  inorder_erase _ _ := rfl

namespace BalancedTree

variable {R : Type} (tree : BalancedTree (Nat × ν) R) {root : R} {dir : Nat × ν → Ordering}
  {key : Nat}

def walk (root : R) : List (Nat × ν) :=
  inorder (tree.shape root)

@[simp] theorem walk_empty : tree.walk tree.empty = [] := by
  rw [walk, tree.shape_empty]
  rfl

variable (ascending : Ascending (tree.walk root))
include ascending

theorem descend_shape :
    (descend (compareKey key) (tree.shape root)).map Prod.snd = (tree.walk root).lookup key :=
  descend_compareKey ascending key

variable (ordered : ∀ entry ∈ tree.walk root, dir entry = compareKey key entry)
include ordered

theorem walk_link (absent : (tree.walk root).lookup key = none) :
    tree.walk (tree.link root dir (key, value)) = insertEntry key value (tree.walk root) := by
  rw [walk, tree.inorder_link, (alike_of_agree ordered).2.1]
  exact inorder_linkBy_compareKey ascending absent

theorem walk_erase :
    Sublist (tree.walk (tree.erase root dir)) (tree.walk root) ∧
      (tree.walk (tree.erase root dir)).lookup key = none ∧
      ∀ value, insertEntry key value (tree.walk (tree.erase root dir)) =
        insertEntry key value (tree.walk root) := by
  rw [walk, tree.inorder_erase, (alike_of_agree ordered).2.2]
  exact inorder_eraseBy_compareKey ascending key

end BalancedTree

end SwornDisk.Lib
