import SwornDisk.Lib.Traversal
import SwornDisk.Rust.BitAssembly
import SwornDisk.Rust.BitBuild

/-!
# Positions of a table iterator

`BITIterator` keeps one block of each level, with the index of the child to read next.  When
the leaf block is used up, a call of `next` reads the next one, and then refills the levels
above as far as they are used up too.  The records that are still to come are what is left
of the leaf block and the groups below the children that were not read yet.
-/

namespace SwornDisk.Rust

open Lib List Function Program Option

variable {position lowest level : Nat} {kernel : Kernel} {devices : Set Device}
  {block : IndirectBlock} {parts : List (List LeafRecord)} {part rest : List LeafRecord}
  {iterator : BitIterator} {groups : Nat → List (List LeafRecord)} {metaDev : Device}
  {reads : List ChildRead}

/-! ## Well-shaped tables -/

/-- The tree of a height below a record, as it reads from each of the devices: no block is
empty, and the leaf blocks, at height 0, have these records. -/
def StoredTree (kernel : Kernel) (devices : Set Device) : Nat → Record → List LeafRecord → Prop
  | 0, record, part => ∃ leaf : LeafBlock,
      (∀ metaDev ∈ devices, Bit.readBlockDirectly kernel metaDev record = .ok leaf) ∧
      1 ≤ leaf.count ∧
      leaf.count ≤ leaf.children.length ∧ leaf.children.take leaf.count = part
  | height + 1, record, part => ∃ block : IndirectBlock,
      (∀ metaDev ∈ devices, Bit.readBlockDirectly kernel metaDev record = .ok block) ∧
      1 ≤ block.count ∧
      block.count ≤ block.children.length ∧
      ∃ parts, List.Forall₂ (fun child part => StoredTree kernel devices height child.record part)
        (block.children.take block.count) parts ∧ parts.flatten = part

structure TreesBelow (kernel : Kernel) (devices : Set Device) (height : Nat) (block : IndirectBlock)
    (parts : List (List LeafRecord)) : Prop where
  positive : 1 ≤ block.count
  inside : block.count ≤ block.children.length
  each : List.Forall₂ (fun child part => StoredTree kernel devices height child.record part)
    (block.children.take block.count) parts

/-- A table whose blocks form a tree of its level with these records, in ascending order. -/
structure Bit.WellShaped (kernel : Kernel) (devices : Set Device) (bit : Bit)
    (records : List LeafRecord) : Prop where
  atLeast : 2 ≤ bit.level
  atMost : bit.level ≤ bitMaxLevel
  root : ∃ parts, TreesBelow kernel devices (bit.level - 2) bit.root parts ∧
    parts.flatten = records
  ordered : Ordered records

variable {more : List (List LeafRecord)} {fewer : Set Device}

section

variable {height : Nat} {record : Record}

theorem StoredTree.treesBelow (tree : StoredTree kernel devices (height + 1) record part) :
    ∃ block parts, (∀ metaDev ∈ devices,
        Bit.readBlockDirectly kernel metaDev record = .ok block) ∧
      TreesBelow kernel devices height block parts ∧ parts.flatten = part := by
  obtain ⟨block, read, positive, inside, parts, each, flat⟩ := tree
  exact ⟨block, parts, read, ⟨positive, inside, each⟩, flat⟩

theorem StoredTree.mono (subset : fewer ⊆ devices)
    (tree : StoredTree kernel devices height record part) :
    StoredTree kernel fewer height record part := by
  induction height generalizing record part with
  | zero =>
    obtain ⟨leaf, read, shape⟩ := tree
    exact ⟨leaf, fun metaDev member => read metaDev (subset member), shape⟩
  | succ height ih =>
    obtain ⟨block, read, positive, inside, parts, each, flat⟩ := tree
    exact ⟨block, fun metaDev member => read metaDev (subset member), positive, inside, parts,
      each.imp fun _ _ below => ih below, flat⟩

theorem Bit.WellShaped.mono (subset : fewer ⊆ devices) {bit : Bit} {records : List LeafRecord}
    (shaped : bit.WellShaped kernel devices records) :
    bit.WellShaped kernel fewer records := by
  obtain ⟨parts, trees, flat⟩ := shaped.root
  exact ⟨shaped.atLeast, shaped.atMost, ⟨parts, ⟨trees.positive, trees.inside,
    trees.each.imp fun _ _ below => below.mono subset⟩, flat⟩, shaped.ordered⟩

theorem TreesBelow.length (trees : TreesBelow kernel devices height block parts) :
    parts.length = block.count := by
  rw [← trees.each.length_eq, length_take_of_le trees.inside]

theorem TreesBelow.ne_nil (trees : TreesBelow kernel devices height block parts) : parts ≠ [] := by
  intro empty
  have length := trees.length
  have positive := trees.positive
  rw [empty, length_nil] at length
  omega

theorem StoredTree.ne_nil (tree : StoredTree kernel devices height record part) : part ≠ [] := by
  induction height generalizing record part with
  | zero =>
    obtain ⟨leaf, -, positive, inside, rfl⟩ := tree
    refine ne_nil_of_length_pos ?_
    rw [length_take_of_le inside]
    exact positive
  | succ height ih =>
    obtain ⟨block, parts, -, trees, rfl⟩ := tree.treesBelow
    obtain ⟨first, more, rfl⟩ := exists_cons_of_ne_nil trees.ne_nil
    have each := trees.each
    cases children : block.children.take block.count with
    | nil =>
      rw [children] at each
      cases each
    | cons child rest =>
      rw [children, forall₂_cons] at each
      intro empty
      rw [flatten_cons, append_eq_nil_iff] at empty
      exact ih each.1 empty.1

variable (trees : TreesBelow kernel devices height block parts)
include trees

theorem TreesBelow.part_ne_nil (member : part ∈ parts) : part ≠ [] := by
  have flipped : Forall₂ (fun part (child : IndirectRecord) =>
      StoredTree kernel devices height child.record part) parts
      (block.children.take block.count) := Forall₂.flip trees.each
  obtain ⟨child, -, tree⟩ := Spine.exists_of_forall₂ flipped member
  exact tree.ne_nil

theorem TreesBelow.drop_eq_nil_iff : parts.drop position = [] ↔ block.count ≤ position := by
  rw [List.drop_eq_nil_iff, trees.length]

theorem TreesBelow.child (next : parts.drop position = part :: more) :
    ∃ child, block.children[position]? = some child ∧ position < block.count ∧
      StoredTree kernel devices height child.record part := by
  have bound : position < parts.length := by
    by_contra beyond
    rw [drop_eq_nil_of_le (by omega)] at next
    cases next
  rw [drop_eq_getElem_cons bound, List.cons.injEq] at next
  have bound' : position < (block.children.take block.count).length := by
    rw [trees.each.length_eq]
    exact bound
  have tree := trees.each.get bound' bound
  rw [get_eq_getElem, get_eq_getElem, next.1, getElem_take] at tree
  have length := trees.length
  exact ⟨_, getElem?_eq_getElem _, by omega, tree⟩

end

/-! ## Positions -/

def Unread (kernel : Kernel) (devices : Set Device) (lowest : Nat) (iterator : BitIterator)
    (level : Nat) (groups : List (List LeafRecord)) : Prop :=
  ∃ block position parts, iterator.blockStack[level]? = some block ∧
    iterator.index[level]? = some position ∧
    TreesBelow kernel devices (lowest - level) block parts ∧ parts.drop position = groups

/-- An iterator of a table of level `lowest + 2`: the groups that the levels have not handed
out yet, and what is left of the leaf block. -/
structure At (kernel : Kernel) (devices : Set Device) (lowest : Nat) (iterator : BitIterator)
    (groups : Nat → List (List LeafRecord)) (rest : List LeafRecord) : Prop where
  level : iterator.level = lowest + 2
  above : ∀ i ≤ lowest, Unread kernel devices lowest iterator i (groups i)
  leaf : ∃ position, iterator.index[lowest + 1]? = some position ∧
    iterator.leafBlock.count ≤ iterator.leafBlock.children.length ∧
    (iterator.leafBlock.children.take iterator.leafBlock.count).drop position = rest

variable {blockStack : List IndirectBlock}

section

theorem At.group_ne_nil (at' : At kernel devices lowest iterator groups rest)
    (within : level ≤ lowest) (member : part ∈ groups level) : part ≠ [] := by
  obtain ⟨block, position, parts, -, -, trees, dropped⟩ := at'.above level within
  rw [← dropped] at member
  exact trees.part_ne_nil (mem_of_mem_drop member)

theorem Unread.of_same {index : List Nat} (same : iterator.index[level]? = index[level]?)
    (sameBlock : iterator.blockStack[level]? = blockStack[level]?)
    {group : List (List LeafRecord)} (unread : Unread kernel devices lowest iterator level group)
    {hasNext : Bool} {leafBlock : LeafBlock} :
    Unread kernel devices lowest ⟨iterator.level, hasNext, index, blockStack, leafBlock⟩ level
      group := by
  obtain ⟨block, position, parts, found, here, trees⟩ := unread
  exact ⟨block, position, parts, sameBlock ▸ found, same ▸ here, trees⟩

variable (at' : At kernel devices lowest iterator groups rest)
include at'

theorem At.enter (within : level < lowest) (here : iterator.index[level]? = some position)
    (trees : TreesBelow kernel devices (lowest - (level + 1)) block parts) :
    At kernel devices lowest
      { iterator with
        blockStack := iterator.blockStack.set (level + 1) block
        index := (iterator.index.set (level + 1) 0).set level (position + 1) }
      (Traversal.enter groups level parts) rest where
  level := at'.level
  above i inside := by
    by_cases below : i = level + 1
    · subst below
      obtain ⟨old, oldPosition, -, found, there, -⟩ := at'.above (level + 1) within
      have bound := (List.getElem?_eq_some_iff.mp found).1
      have bound' := (List.getElem?_eq_some_iff.mp there).1
      refine ⟨block, 0, parts, ?_, ?_, trees, (Traversal.enter_below ..).symm⟩
      · exact getElem?_set_self bound
      · change ((iterator.index.set (level + 1) 0).set level (position + 1))[level + 1]? = some 0
        rw [getElem?_set_ne (by omega), getElem?_set_self bound']
    · by_cases self : i = level
      · subst self
        obtain ⟨old, oldPosition, oldParts, found, there, oldTrees, dropped⟩ := at'.above i inside
        obtain rfl := some.inj (here.symm.trans there)
        have bound' := (List.getElem?_eq_some_iff.mp there).1
        refine ⟨old, position + 1, oldParts, ?_, ?_, oldTrees, ?_⟩
        · change (iterator.blockStack.set (i + 1) block)[i]? = some old
          rw [getElem?_set_ne (by omega)]
          exact found
        · refine getElem?_set_self ?_
          rw [length_set]
          exact bound'
        · rw [Traversal.enter_self, ← dropped, tail_drop]
      · rw [Traversal.enter_of_ne self below]
        refine (at'.above i inside).of_same ?_ ?_
        · rw [getElem?_set_ne (Ne.symm self), getElem?_set_ne (Ne.symm below)]
        · rw [getElem?_set_ne (Ne.symm below)]
  leaf := by
    obtain ⟨leafPosition, there, counted, left⟩ := at'.leaf
    refine ⟨leafPosition, ?_, counted, left⟩
    change ((iterator.index.set (level + 1) 0).set level (position + 1))[lowest + 1]? = _
    rw [getElem?_set_ne (by omega), getElem?_set_ne (by omega)]
    exact there

theorem At.enterLeaf (here : iterator.index[lowest]? = some position) {leaf : LeafBlock}
    (counted : leaf.count ≤ leaf.children.length) :
    At kernel devices lowest
      { iterator with
        leafBlock := leaf
        index := (iterator.index.set (lowest + 1) 0).set lowest (position + 1) }
      (update groups lowest (groups lowest).tail) (leaf.children.take leaf.count) where
  level := at'.level
  above i inside := by
    by_cases self : i = lowest
    · subst self
      obtain ⟨block, oldPosition, parts, found, there, trees, dropped⟩ := at'.above i inside
      obtain rfl := some.inj (here.symm.trans there)
      have bound := (List.getElem?_eq_some_iff.mp there).1
      refine ⟨block, position + 1, parts, found, ?_, trees, ?_⟩
      · refine getElem?_set_self ?_
        rw [length_set]
        exact bound
      · rw [update_self, ← dropped, tail_drop]
    · rw [update_of_ne self]
      refine (at'.above i inside).of_same ?_ rfl
      rw [getElem?_set_ne (Ne.symm self), getElem?_set_ne (by omega)]
  leaf := by
    obtain ⟨leafPosition, there, -⟩ := at'.leaf
    have bound := (List.getElem?_eq_some_iff.mp there).1
    refine ⟨0, ?_, counted, rfl⟩
    change ((iterator.index.set (lowest + 1) 0).set lowest (position + 1))[lowest + 1]? = _
    rw [getElem?_set_ne (by omega), getElem?_set_self bound]

end

/-! ## Reads -/

variable {T : Type}

section

theorem readsInside_append {read : ChildRead} :
    ReadsInside (reads ++ [read]) ↔ ReadsInside reads ∧ read.child < read.count := by
  unfold ReadsInside
  simp only [mem_append, mem_singleton, or_imp, forall_and, forall_eq]

theorem exec_readChild [BlockFormat T] {child : IndirectRecord} {value : T}
    (found : blockStack[level]? = some block) (here : block.children[position]? = some child)
    (read : Bit.readBlockDirectly kernel metaDev child.record = .ok value) :
    (BitIterator.readChild kernel metaDev blockStack level position).exec reads =
      (.ok value, reads ++ [⟨position, block.count⟩]) := by
  unfold BitIterator.readChild
  simp only [childAt_eq found, childAt_eq here, read, exec_bind, exec_ofExcept, exec_get, exec_set]

theorem wp_readChild [BlockFormat T] (found : blockStack[level]? = some block) :
    wp (BitIterator.readChild kernel metaDev blockStack level position : ReadProgram T)
      (fun _ reads' => reads' = reads ++ [⟨position, block.count⟩])
      (fun _ reads' => reads' = reads ++ [⟨position, block.count⟩]) reads := by
  unfold BitIterator.readChild
  rw [childAt_eq found]
  rw [wp_ok_bind]
  simp only [wp_bind, wp_get, wp_set]
  exact wp_ofExcept (fun _ _ => wp_ofExcept (fun _ _ => rfl) fun _ _ => rfl) fun _ _ => rfl

def EndsOutside {α : Type} (prog : ReadProgram α) (reads : List ChildRead) : Prop :=
  wp prog (fun _ reads' => ¬ ReadsInside reads') (fun _ reads' => ¬ ReadsInside reads') reads

section

variable {α β : Type} {next : α → ReadProgram β}

theorem EndsOutside.seq {prog : ReadProgram α} (first : EndsOutside prog reads)
    (second : ∀ value reads', ¬ ReadsInside reads' → EndsOutside (next value) reads') :
    EndsOutside (prog >>= next) reads :=
  wp_seq first second fun _ _ => id

theorem EndsOutside.of_not {prog : ReadProgram α} (ends : EndsOutside prog reads) {safe : Prop}
    (notSafe : ¬ safe) {post : α → List ChildRead → Prop} :
    wp prog (fun value reads' => (safe → ReadsInside reads') ∧
        (ReadsInside reads' → post value reads'))
      (fun _ reads' => ¬ safe ∧ ¬ ReadsInside reads') reads :=
  wp_mono ends (fun _ _ outside => ⟨fun isSafe => absurd isSafe notSafe,
    fun inside => absurd inside outside⟩) fun _ _ outside => ⟨notSafe, outside⟩

theorem endsOutside_except (outside : ¬ ReadsInside reads) {result : Except Fault α}
    (ok : ∀ value, EndsOutside (next value) reads) :
    EndsOutside (Program.ofExcept result >>= next) reads :=
  wp_seqExcept (fun value _ => ok value) fun _ _ => outside

end

theorem readChild_outside [BlockFormat T] (outside : ¬ ReadsInside reads) :
    EndsOutside (BitIterator.readChild kernel metaDev blockStack level position :
      ReadProgram T) reads := by
  refine endsOutside_except outside fun block => ?_
  have still : ¬ ReadsInside (reads ++ [⟨position, block.count⟩]) :=
    fun inside => outside (readsInside_append.mp inside).1
  simp only [EndsOutside, wp_bind, wp_get, wp_set]
  exact wp_ofExcept (fun _ _ => wp_ofExcept (fun _ _ => still) fun _ _ => still) fun _ _ => still

theorem advanceStack_outside {iterator : BitIterator} (outside : ¬ ReadsInside reads) :
    EndsOutside (BitIterator.advanceStack kernel metaDev level iterator) reads := by
  induction level generalizing iterator reads with
  | zero => exact outside
  | succ level ih =>
    unfold BitIterator.advanceStack
    refine endsOutside_except outside fun position => ?_
    refine endsOutside_except outside fun block => ?_
    split
    · exact outside
    · refine endsOutside_except outside fun above => ?_
      refine endsOutside_except outside fun parent => ?_
      split
      · exact outside
      · refine (readChild_outside outside).seq fun next _ still => ?_
        exact endsOutside_except still fun blockStack => ih still

end

/-! ## Refilling the levels -/

section

def SamePending (kernel : Kernel) (devices : Set Device) (lowest : Nat)
    (groups : Nat → List (List LeafRecord)) (rest : List LeafRecord) (iterator : BitIterator)
    (groups' : Nat → List (List LeafRecord)) : Prop :=
  At kernel devices lowest iterator groups' rest ∧
    Traversal.pending groups' (lowest + 1) = Traversal.pending groups (lowest + 1)

variable (at' : At kernel devices lowest iterator groups rest)
include at'

theorem advanceStack_read (member : metaDev ∈ devices) (within : level < lowest)
    (inside : ReadsInside reads) (next : groups level = part :: more)
    (usedUp : groups (level + 1) = []) :
    ∃ iterator' parts reads',
      SamePending kernel devices lowest groups rest iterator' (Traversal.enter groups level parts) ∧
      parts ≠ [] ∧ iterator'.hasNext = iterator.hasNext ∧ ReadsInside reads' ∧
      (BitIterator.advanceStack kernel metaDev (level + 1) iterator).exec reads =
        (BitIterator.advanceStack kernel metaDev level iterator').exec reads' := by
  obtain ⟨block, position, parts, found, here, trees, dropped⟩ := at'.above level within.le
  obtain ⟨lower, lowerPosition, lowerParts, lowerFound, lowerHere, lowerTrees, lowerDropped⟩ :=
    at'.above (level + 1) within
  rw [next] at dropped
  rw [usedUp] at lowerDropped
  obtain ⟨child, childHere, below, tree⟩ := trees.child dropped
  have height : lowest - level = lowest - (level + 1) + 1 := by omega
  rw [height] at tree
  obtain ⟨refill, refillParts, read, refillTrees, flat⟩ := tree.treesBelow
  have beyond := lowerTrees.drop_eq_nil_iff.mp lowerDropped
  refine ⟨_, refillParts, reads ++ [⟨position, block.count⟩], ⟨at'.enter within here refillTrees,
    Traversal.pending_enter next usedUp flat (by omega)⟩, refillTrees.ne_nil, rfl,
    readsInside_append.mpr ⟨inside, below⟩, ?_⟩
  have bound := (List.getElem?_eq_some_iff.mp lowerFound).1
  rw [BitIterator.advanceStack]
  simp only [childAt_eq lowerHere, childAt_eq lowerFound, childAt_eq here, childAt_eq found,
    exec_bind, exec_ofExcept]
  rw [if_neg (by omega)]
  simp only [exec_bind, exec_ofExcept]
  rw [if_neg (by omega)]
  simp only [exec_bind, exec_ofExcept,
    exec_readChild found childHere (read metaDev member), Bit.setAt, if_pos bound]

theorem advanceStack_stop (within : level < lowest) (left : groups (level + 1) ≠ []) :
    (BitIterator.advanceStack kernel metaDev (level + 1) iterator).exec reads =
      (.ok iterator, reads) := by
  obtain ⟨block, position, parts, found, here, trees, dropped⟩ := at'.above (level + 1) within
  have below : position < block.count := by
    by_contra beyond
    exact left (dropped.symm.trans (trees.drop_eq_nil_iff.mpr (by omega)))
  rw [BitIterator.advanceStack]
  simp only [childAt_eq here, childAt_eq found, exec_bind, exec_ofExcept]
  rw [if_pos below, exec_pure]

theorem advanceStack_last (within : 0 < lowest) (usedUp : groups 1 = [])
    (rootUsedUp : groups 0 = []) :
    (BitIterator.advanceStack kernel metaDev 1 iterator).exec reads =
      (.ok { iterator with hasNext := false }, reads) := by
  obtain ⟨root, position, parts, found, here, trees, dropped⟩ := at'.above 0 within.le
  obtain ⟨lower, lowerPosition, lowerParts, lowerFound, lowerHere, lowerTrees, lowerDropped⟩ :=
    at'.above 1 within
  rw [rootUsedUp] at dropped
  rw [usedUp] at lowerDropped
  have beyond := lowerTrees.drop_eq_nil_iff.mp lowerDropped
  have rootBeyond := trees.drop_eq_nil_iff.mp dropped
  rw [BitIterator.advanceStack]
  simp only [childAt_eq lowerHere, childAt_eq lowerFound, childAt_eq here, childAt_eq found,
    exec_bind, exec_ofExcept]
  rw [if_neg (by omega)]
  simp only [exec_bind, exec_ofExcept]
  rw [if_pos ⟨trivial, rootBeyond⟩, exec_pure]

theorem advanceStack_stuck (within : level < lowest) (deeper : 0 < level)
    (usedUp : groups (level + 1) = []) (aboveUsedUp : groups level = []) :
    EndsOutside (BitIterator.advanceStack kernel metaDev (level + 1) iterator) reads := by
  obtain ⟨block, position, parts, found, here, trees, dropped⟩ := at'.above level within.le
  obtain ⟨lower, lowerPosition, lowerParts, lowerFound, lowerHere, lowerTrees, lowerDropped⟩ :=
    at'.above (level + 1) within
  rw [aboveUsedUp] at dropped
  rw [usedUp] at lowerDropped
  have lowerBeyond := lowerTrees.drop_eq_nil_iff.mp lowerDropped
  have beyond := trees.drop_eq_nil_iff.mp dropped
  have outside : ¬ ReadsInside (reads ++ [⟨position, block.count⟩]) :=
    fun inside => absurd (readsInside_append.mp inside).2 (Nat.not_lt.mpr beyond)
  rw [EndsOutside, BitIterator.advanceStack]
  simp only [childAt_eq lowerHere, childAt_eq lowerFound, childAt_eq here, childAt_eq found,
    wp_ok_bind]
  rw [if_neg (by omega)]
  simp only [wp_ok_bind]
  rw [if_neg (by omega)]
  refine wp_seq (wp_readChild found) (fun next _ same => ?_)
    fun _ _ same => same ▸ outside
  subst same
  exact endsOutside_except outside fun _ => advanceStack_outside outside

theorem advanceStack_one (member : metaDev ∈ devices) (within : 0 < lowest)
    (inside : ReadsInside reads) (hasNext : iterator.hasNext = true) :
    ∃ iterator' groups' reads',
      (BitIterator.advanceStack kernel metaDev 1 iterator).exec reads =
        (.ok iterator', reads') ∧ ReadsInside reads' ∧
      SamePending kernel devices lowest groups rest iterator' groups' ∧
      (∀ i, 1 < i → groups' i = groups i) ∧
      (iterator'.hasNext = true ∧ groups' 1 ≠ [] ∨
        iterator'.hasNext = false ∧ groups' 1 = [] ∧ groups' 0 = []) := by
  by_cases usedUp : groups 1 = []
  · cases next : groups 0 with
    | nil =>
      refine ⟨_, groups, reads, advanceStack_last at' within usedUp next, inside, ⟨?_, rfl⟩,
        fun _ _ => rfl, .inr ⟨rfl, usedUp, next⟩⟩
      exact ⟨at'.level, fun i inside => (at'.above i inside).of_same rfl rfl, at'.leaf⟩
    | cons part more =>
      obtain ⟨iterator', parts, reads', same, nonempty, kept, inside', run⟩ :=
        advanceStack_read at' member within inside next usedUp
      refine ⟨iterator', _, reads', run, inside', same, fun i above => ?_, .inl ⟨?_, ?_⟩⟩
      · exact Traversal.enter_of_ne (by omega) (by omega)
      · rw [kept, hasNext]
      · rw [Traversal.enter_below]
        exact nonempty
  · exact ⟨iterator, groups, reads, advanceStack_stop at' within usedUp, inside, ⟨at', rfl⟩,
      fun _ _ => rfl, .inl ⟨hasNext, usedUp⟩⟩

theorem advanceStack_deeper (member : metaDev ∈ devices) (within : level + 2 ≤ lowest)
    (inside : ReadsInside reads) (hasNext : iterator.hasNext = true) :
    wp (BitIterator.advanceStack kernel metaDev (level + 2) iterator)
      (fun iterator' reads' => ReadsInside reads' → ∃ groups',
        SamePending kernel devices lowest groups rest iterator' groups' ∧
        (iterator'.hasNext = false → groups' 2 ≠ []))
      (fun _ reads' => ¬ ReadsInside reads') reads := by
  induction level generalizing iterator groups reads with
  | zero =>
    by_cases usedUp : groups 2 = []
    · cases next : groups 1 with
      | nil =>
        exact wp_mono (advanceStack_stuck at' within Nat.one_pos usedUp next)
          (fun _ _ outside inside' => absurd inside' outside) fun _ _ => id
      | cons part more =>
        obtain ⟨iterator', parts, reads', same, nonempty, kept, inside', run⟩ :=
          advanceStack_read at' member within inside next usedUp
        obtain ⟨iterator'', groups'', reads'', run', -, same', below, -⟩ :=
          advanceStack_one same.1 member (by omega) inside' (kept.trans hasNext)
        refine wp_of_ok (run.trans run') fun _ => ⟨groups'', ?_, fun _ => ?_⟩
        · exact ⟨same'.1, same'.2.trans same.2⟩
        · rw [below 2 (by omega), Traversal.enter_below]
          exact nonempty
    · refine wp_of_ok (advanceStack_stop at' within usedUp) fun _ => ?_
      exact ⟨groups, ⟨at', rfl⟩, fun _ => usedUp⟩
  | succ level ih =>
    by_cases usedUp : groups (level + 3) = []
    · cases next : groups (level + 2) with
      | nil =>
        exact wp_mono (advanceStack_stuck at' within (Nat.succ_pos _) usedUp next)
          (fun _ _ outside inside' => absurd inside' outside) fun _ _ => id
      | cons part more =>
        obtain ⟨iterator', parts, reads', same, nonempty, kept, inside', run⟩ :=
          advanceStack_read at' member within inside next usedUp
        refine wp_of_exec run (wp_mono (ih same.1 (by omega) inside'
          (kept.trans hasNext)) (fun _ _ refilled inside'' => ?_) fun _ _ => id)
        obtain ⟨groups'', same', left⟩ := refilled inside''
        exact ⟨groups'', ⟨same'.1, same'.2.trans same.2⟩, left⟩
    · refine wp_of_ok (advanceStack_stop at' within usedUp) fun _ => ?_
      exact ⟨groups, ⟨at', rfl⟩, fun ended => by rw [hasNext] at ended; cases ended⟩

end

/-! ## One call of `next` -/

theorem level_sub_one (lowest : Nat) : lowest + 2 - 1 = lowest + 1 := rfl

section

variable {item : LeafRecord}

theorem At.take (at' : At kernel devices lowest iterator groups (item :: rest))
    (reads : List ChildRead) :
    ∃ iterator', iterator.takeItem.exec reads = (.ok (some item, iterator'), reads) ∧
      At kernel devices lowest iterator' groups rest ∧ iterator'.hasNext = iterator.hasNext := by
  obtain ⟨position, here, counted, left⟩ := at'.leaf
  have bound : position < (iterator.leafBlock.children.take iterator.leafBlock.count).length := by
    by_contra beyond
    rw [drop_eq_nil_of_le (by omega)] at left
    cases left
  rw [drop_eq_getElem_cons bound, List.cons.injEq, getElem_take] at left
  rw [length_take_of_le counted] at bound
  have found : iterator.leafBlock.children[position]? = some item := by
    rw [← left.1]
    exact getElem?_eq_getElem _
  have last : iterator.level - 1 = lowest + 1 := by rw [at'.level, level_sub_one]
  refine ⟨{ iterator with index := iterator.index.set (iterator.level - 1) (position + 1) }, ?_,
    ⟨at'.level, fun i within => ?_, position + 1, ?_, counted, left.2⟩, rfl⟩
  · unfold BitIterator.takeItem
    rw [last]
    simp only [childAt_eq here, exec_bind, exec_ofExcept]
    rw [if_pos (.inr bound)]
    simp only [childAt_eq found, exec_bind, exec_ofExcept, exec_pure]
  · refine (at'.above i within).of_same ?_ rfl
    rw [last, getElem?_set_ne (by omega)]
  · change (iterator.index.set (iterator.level - 1) (position + 1))[lowest + 1]? = _
    rw [last]
    exact getElem?_set_self (List.getElem?_eq_some_iff.mp here).1

theorem At.take_none (at' : At kernel devices lowest iterator groups [])
    (ended : iterator.hasNext = false) :
    iterator.takeItem.exec reads = (.ok (none, iterator), reads) := by
  obtain ⟨position, here, counted, left⟩ := at'.leaf
  rw [List.drop_eq_nil_iff, length_take_of_le counted] at left
  unfold BitIterator.takeItem
  rw [at'.level, level_sub_one]
  simp only [childAt_eq here, exec_bind, exec_ofExcept]
  rw [if_neg (by rw [ended]; simpa using left), exec_pure]

theorem At.update_stays (at' : At kernel devices lowest iterator groups rest)
    (stays : rest ≠ [] ∨ iterator.hasNext = false) :
    (iterator.updateBlockStack kernel metaDev).exec reads = (.ok iterator, reads) := by
  obtain ⟨position, here, counted, left⟩ := at'.leaf
  have cond : position < iterator.leafBlock.count ∨ ¬ iterator.hasNext := by
    refine stays.imp (fun some' => ?_) fun ended => by rw [ended]; decide
    by_contra beyond
    refine some' (left.symm.trans (drop_eq_nil_of_le ?_))
    rw [length_take_of_le counted]
    omega
  unfold BitIterator.updateBlockStack
  rw [at'.level, level_sub_one]
  simp only [childAt_eq here, exec_bind, exec_ofExcept]
  rw [if_pos cond, exec_pure]

theorem At.update_read (at' : At kernel devices lowest iterator groups [])
    (member : metaDev ∈ devices) (hasNext : iterator.hasNext = true) (inside : ReadsInside reads)
    (next : groups lowest = part :: more) :
    ∃ iterator' reads',
      At kernel devices lowest iterator' (update groups lowest more) part ∧
      part ≠ [] ∧ iterator'.hasNext = true ∧ ReadsInside reads' ∧
      (iterator.updateBlockStack kernel metaDev).exec reads =
        (BitIterator.advanceStack kernel metaDev lowest iterator').exec reads' := by
  obtain ⟨position, here, counted, left⟩ := at'.leaf
  obtain ⟨block, above, parts, found, there, trees, dropped⟩ := at'.above lowest le_rfl
  rw [next] at dropped
  rw [List.drop_eq_nil_iff, length_take_of_le counted] at left
  obtain ⟨child, childHere, below, tree⟩ := trees.child dropped
  have nonempty := tree.ne_nil
  rw [Nat.sub_self] at tree
  obtain ⟨leaf, read, -, leafCounted, rfl⟩ := tree
  have entered := at'.enterLeaf there leafCounted
  rw [next, tail_cons] at entered
  refine ⟨_, reads ++ [⟨above, block.count⟩], entered, nonempty, hasNext,
    readsInside_append.mpr ⟨inside, below⟩, ?_⟩
  unfold BitIterator.updateBlockStack
  rw [at'.level, level_sub_one, Nat.add_sub_cancel]
  simp only [childAt_eq here, exec_bind, exec_ofExcept]
  rw [if_neg (by rw [hasNext]; simpa using left)]
  simp only [childAt_eq there, exec_bind, exec_ofExcept,
    exec_readChild found childHere (read metaDev member)]

theorem At.update_stuck (at' : At kernel devices lowest iterator groups [])
    (hasNext : iterator.hasNext = true) (usedUp : groups lowest = []) :
    EndsOutside (iterator.updateBlockStack kernel metaDev) reads := by
  obtain ⟨position, here, counted, left⟩ := at'.leaf
  obtain ⟨block, above, parts, found, there, trees, dropped⟩ := at'.above lowest le_rfl
  rw [usedUp] at dropped
  rw [List.drop_eq_nil_iff, length_take_of_le counted] at left
  have beyond := trees.drop_eq_nil_iff.mp dropped
  have outside : ¬ ReadsInside (reads ++ [⟨above, block.count⟩]) :=
    fun inside => absurd (readsInside_append.mp inside).2 (Nat.not_lt.mpr beyond)
  unfold EndsOutside BitIterator.updateBlockStack
  rw [at'.level, level_sub_one, Nat.add_sub_cancel]
  simp only [childAt_eq here, wp_ok_bind]
  rw [if_neg (by rw [hasNext]; simpa using left)]
  simp only [childAt_eq there, wp_ok_bind]
  refine wp_seq (wp_readChild found) (fun next _ same => ?_)
    fun _ _ same => same ▸ outside
  subst same
  exact advanceStack_outside outside

theorem takeItem_outside (outside : ¬ ReadsInside reads) :
    EndsOutside iterator.takeItem reads := by
  refine endsOutside_except outside fun position => ?_
  split
  · exact endsOutside_except outside fun _ => outside
  · exact outside

theorem next_outside (outside : ¬ ReadsInside reads) :
    EndsOutside (iterator.next kernel metaDev) reads := by
  have update : EndsOutside (iterator.updateBlockStack kernel metaDev) reads := by
    refine endsOutside_except outside fun position => ?_
    split
    · exact outside
    · refine endsOutside_except outside fun above => ?_
      exact (readChild_outside outside).seq fun _ _ => advanceStack_outside
  rw [BitIterator.next]
  exact update.seq fun _ _ => takeItem_outside

theorem At.next_none (at' : At kernel devices lowest iterator groups [])
    (ended : iterator.hasNext = false) :
    (iterator.next kernel metaDev).exec reads = (.ok (none, iterator), reads) := by
  rw [BitIterator.next, exec_bind, at'.update_stays (.inr ended)]
  exact at'.take_none ended

theorem At.next_stuck (at' : At kernel devices lowest iterator groups [])
    (hasNext : iterator.hasNext = true) (usedUp : groups lowest = []) :
    EndsOutside (iterator.next kernel metaDev) reads := by
  rw [BitIterator.next]
  exact (at'.update_stuck hasNext usedUp).seq fun _ _ => takeItem_outside

end

end SwornDisk.Rust
