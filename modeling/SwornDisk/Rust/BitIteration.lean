import SwornDisk.Rust.BitFromMemtable
import SwornDisk.Rust.BitPosition

/-!
# Iteration over a block index table

`has_next` of `BITIterator` is cleared only by the refill of level 1, when the root is used
up.  For tables of level 2 that is never, so the iterator reads on behind the last leaf block;
for tables of level 4 and more it is before the leaf blocks of the last block of level 2 are
read.  At level 3 it is right, unless the first block has a single leaf block: the refill has
not looked at that block when the iterator reads its second child.
-/

namespace SwornDisk.Rust

open Lib List Function Program Option

variable {kernel : Kernel} {devices : Set Device} {metaDev : Device} {lowest : Nat}
  {inv : Bool → (Nat → List (List LeafRecord)) → Prop} {reads : List ChildRead}
  {iterator : BitIterator} {rest records : List LeafRecord}

/-! ## Invariants of the iteration -/

/-- A refill behind the read of a leaf block establishes an invariant of `has_next` and the
groups; if it is safe, no child outside is read. -/
def Settles (kernel : Kernel) (devices : Set Device) (lowest : Nat) (safe : Prop)
    (inv : Bool → (Nat → List (List LeafRecord)) → Prop) : Prop :=
  ∀ metaDev ∈ devices, ∀ iterator groups rest reads part more,
    inv true groups → groups lowest = part :: more →
    At kernel devices lowest iterator (Function.update groups lowest more) rest →
    iterator.hasNext = true → ReadsInside reads →
    Program.wp (BitIterator.advanceStack kernel metaDev lowest iterator)
      (fun iterator' reads' => (safe → ReadsInside reads') ∧ (ReadsInside reads' → ∃ groups',
        SamePending kernel devices lowest (Function.update groups lowest more) rest iterator'
          groups' ∧ inv iterator'.hasNext groups'))
      (fun _ reads' => ¬ safe ∧ ¬ ReadsInside reads') reads

/-- An iterator with the invariant, and the records it still has to return. -/
def Iterating (kernel : Kernel) (devices : Set Device) (lowest : Nat)
    (inv : Bool → (Nat → List (List LeafRecord)) → Prop) (iterator : BitIterator)
    (rest remaining : List LeafRecord) : Prop :=
  ∃ groups, At kernel devices lowest iterator groups rest ∧ inv iterator.hasNext groups ∧
    rest ++ Traversal.pending groups (lowest + 1) = remaining

section

variable {safe : Prop} {remaining : List LeafRecord}

theorem Iterating.next (settles : Settles kernel devices lowest safe inv)
    (member : metaDev ∈ devices)
    (ready : safe → ∀ groups, inv true groups → groups lowest ≠ [])
    (iterating : Iterating kernel devices lowest inv iterator rest remaining)
    (goesOn : rest ≠ [] ∨ iterator.hasNext = true) (inside : ReadsInside reads) :
    wp (iterator.next kernel metaDev)
      (fun result reads' => (safe → ReadsInside reads') ∧ (ReadsInside reads' →
        ∃ item rest' remaining', result.1 = some item ∧ remaining = item :: remaining' ∧
          Iterating kernel devices lowest inv result.2 rest' remaining'))
      (fun _ reads' => ¬ safe ∧ ¬ ReadsInside reads') reads := by
  obtain ⟨groups, at', holds, rfl⟩ := iterating
  rw [BitIterator.next, wp_bind]
  cases rest with
  | cons item rest =>
    obtain ⟨iterator', taken, after, kept⟩ := at'.take reads
    refine wp_of_ok (at'.update_stays (.inl (cons_ne_nil _ _))) ?_
    refine wp_of_ok taken ⟨fun _ => inside, fun _ => ?_⟩
    exact ⟨item, rest, _, rfl, cons_append, groups, after, kept ▸ holds, rfl⟩
  | nil =>
    have hasNext : iterator.hasNext = true := goesOn.resolve_left fun ne => ne rfl
    rw [hasNext] at holds
    cases next : groups lowest with
    | nil =>
      have notSafe : ¬ safe := fun isSafe => ready isSafe groups holds next
      exact wp_mono (at'.update_stuck hasNext next)
        (fun _ _ outside => (takeItem_outside outside).of_not notSafe)
        fun _ _ outside => ⟨notSafe, outside⟩
    | cons part more =>
      obtain ⟨iterator', reads', entered, nonempty, kept, inside', run⟩ :=
        at'.update_read member hasNext inside next
      refine wp_of_exec run (wp_mono
        (settles metaDev member iterator' groups part reads' part more holds next entered kept
          inside')
        (fun iterator'' reads'' settled => ?_) fun _ _ => id)
      obtain ⟨good, reached⟩ := settled
      by_cases inside'' : ReadsInside reads''
      · obtain ⟨groups'', ⟨at'', same⟩, holds''⟩ := reached inside''
        obtain ⟨item, rest, rfl⟩ := exists_cons_of_ne_nil nonempty
        obtain ⟨last, taken, after, kept'⟩ := at''.take reads''
        refine wp_of_ok taken ⟨good, fun _ => ?_⟩
        refine ⟨item, rest, _, rfl, ?_, groups'', after, kept' ▸ holds'', rfl⟩
        rw [nil_append, ← Traversal.pending_tail next, same, cons_append]
      · have notSafe : ¬ safe := fun isSafe => inside'' (good isSafe)
        exact (takeItem_outside inside'').of_not notSafe

/-- What a number of calls returns: records, and after the end nothing. -/
structure Returned (kernel : Kernel) (devices : Set Device) (lowest : Nat)
    (inv : Bool → (Nat → List (List LeafRecord)) → Prop) (remaining : List LeafRecord) (count : Nat)
    (result : List (Option LeafRecord) × BitIterator) (taken rest left : List LeafRecord) :
    Prop where
  iterating : Iterating kernel devices lowest inv result.2 rest left
  split : taken ++ left = remaining
  length : taken.length ≤ count
  items : result.1 = taken.map some ++ List.replicate (count - taken.length) none
  ended : taken.length < count → rest = [] ∧ result.2.hasNext = false

theorem Iterating.nextTimes (settles : Settles kernel devices lowest safe inv)
    (member : metaDev ∈ devices)
    (ready : safe → ∀ groups, inv true groups → groups lowest ≠ [])
    (iterating : Iterating kernel devices lowest inv iterator rest remaining)
    (inside : ReadsInside reads) (count : Nat) :
    wp (iterator.nextTimes kernel metaDev count)
      (fun result reads' => (safe → ReadsInside reads') ∧ (ReadsInside reads' →
        ∃ taken rest' left,
          Returned kernel devices lowest inv remaining count result taken rest' left))
      (fun _ reads' => ¬ safe ∧ ¬ ReadsInside reads') reads := by
  induction count with
  | zero =>
    refine ⟨fun _ => inside, fun _ => ?_⟩
    refine ⟨[], rest, remaining, iterating, rfl, Nat.le_refl 0, rfl, ?_⟩
    exact fun less => absurd less (Nat.not_lt_zero _)
  | succ count ih =>
    unfold BitIterator.nextTimes
    refine wp_seq ih (fun before reads' after => ?_) fun _ _ => id
    obtain ⟨items, iterator'⟩ := before
    obtain ⟨good, reached⟩ := after
    simp only
    rw [wp_bind]
    by_cases inside' : ReadsInside reads'
    · obtain ⟨taken, rest', left, returned⟩ := reached inside'
      have sofar : items = taken.map some ++ replicate (count - taken.length) none :=
        returned.items
      by_cases goesOn : rest' ≠ [] ∨ iterator'.hasNext = true
      · have all : taken.length = count := by
          refine Nat.le_antisymm returned.length (Nat.le_of_not_lt fun fewer => ?_)
          obtain ⟨empty, ended⟩ := returned.ended fewer
          rcases goesOn with some' | hasNext
          · exact some' empty
          · rw [hasNext] at ended
            cases ended
        refine wp_mono (returned.iterating.next settles member ready goesOn inside')
          (fun result reads'' next => ⟨next.1, fun inside'' => ?_⟩) fun _ _ => id
        obtain ⟨item, rest'', left', some', rfl, iterating'⟩ := next.2 inside''
        refine ⟨taken ++ [item], rest'', left', iterating', ?_, ?_, ?_, fun fewer => ?_⟩
        · rw [append_assoc]
          exact returned.split
        · rw [length_append, all]
          rfl
        · change items ++ [result.1] = _
          rw [sofar, some', length_append, all, length_singleton, Nat.sub_self,
            Nat.sub_self, map_append]
          simp
        · rw [length_append, all] at fewer
          exact absurd fewer (Nat.lt_irrefl _)
      · rw [not_or, not_not, Bool.not_eq_true] at goesOn
        obtain ⟨rfl, ended⟩ := goesOn
        obtain ⟨groups, at', -⟩ := returned.iterating
        refine wp_of_ok (at'.next_none ended) ⟨fun _ => inside', fun _ => ?_⟩
        have length := returned.length
        refine ⟨taken, [], left, returned.iterating, returned.split, by omega, ?_,
          fun _ => ⟨rfl, ended⟩⟩
        change items ++ [none] = _
        rw [sofar, Nat.succ_sub length, replicate_succ', append_assoc]
    · have notSafe : ¬ safe := fun isSafe => inside' (good isSafe)
      exact (next_outside inside').of_not notSafe

end

/-! ## The first position -/

/-- The first blocks of the levels down to `level` are on the stack; `part` is what is below
the first child of the last one. -/
structure Descended (kernel : Kernel) (devices : Set Device) (lowest level : Nat)
    (blockStack : List IndirectBlock) (groups : Nat → List (List LeafRecord))
    (part records : List LeafRecord) : Prop where
  filled : ∀ i ≤ level, ∃ block parts, blockStack[i]? = some block ∧
    TreesBelow kernel devices (lowest - i) block parts ∧ parts.drop 1 = groups i
  first : ∃ block child, blockStack[level]? = some block ∧ block.children[0]? = some child ∧
    0 < block.count ∧ StoredTree kernel devices (lowest - level) child.record part
  flat : part ++ Traversal.pending groups (level + 1) = records

section

variable {level : Nat} {blockStack : List IndirectBlock} {groups : Nat → List (List LeafRecord)}
  {part : List LeafRecord}

theorem Descended.down
    (descended : Descended kernel devices lowest level blockStack groups part records)
    (within : level < lowest) (room : level + 1 < blockStack.length) :
    ∃ above child block parts part', blockStack[level]? = some above ∧ 0 < above.count ∧
      above.children[0]? = some child ∧
      (∀ metaDev ∈ devices, Bit.readBlockDirectly kernel metaDev child.record = .ok block) ∧
      Descended kernel devices lowest (level + 1) (blockStack.set (level + 1) block)
        (update groups (level + 1) parts) part' records := by
  obtain ⟨above, child, found, here, positive, tree⟩ := descended.first
  have height : lowest - level = lowest - (level + 1) + 1 := by omega
  rw [height] at tree
  obtain ⟨block, parts, read, trees, rfl⟩ := tree.treesBelow
  obtain ⟨part', more, rfl⟩ := exists_cons_of_ne_nil trees.ne_nil
  obtain ⟨child', here', positive', tree'⟩ :=
    trees.child (show (part' :: more).drop 0 = part' :: more from rfl)
  refine ⟨above, child, block, more, part', found, positive, here, read, ?_, ?_, ?_⟩
  · intro i inside
    by_cases last : i = level + 1
    · subst last
      refine ⟨block, _, getElem?_set_self room, trees, ?_⟩
      rw [update_self, drop_one, tail_cons]
    · rw [getElem?_set_ne (Ne.symm last), update_of_ne last]
      exact descended.filled i (by omega)
  · exact ⟨block, child', getElem?_set_self room, here', positive', tree'⟩
  · have same : Traversal.pending (update groups (level + 1) more) (level + 1) =
        Traversal.pending groups (level + 1) :=
      Traversal.pending_congr fun i below => update_of_ne (by omega) ..
    rw [Traversal.pending, same, update_self, ← append_assoc, ← flatten_cons]
    exact descended.flat

/-- The loop of `BITIterator::new`, with the second block it puts on the stack. -/
theorem firstBlocks_descended (member : metaDev ∈ devices) {steps : Nat}
    (deep : level + steps = lowest)
    (descended : Descended kernel devices lowest level blockStack groups part records)
    (room : lowest < blockStack.length) (inside : ReadsInside reads) :
    ∃ blockStack' groups' part' reads',
      (BitIterator.firstBlocks kernel metaDev (range' (level + 1) steps)
        blockStack).exec reads = (.ok blockStack', reads') ∧ ReadsInside reads' ∧
      Descended kernel devices lowest lowest blockStack' groups' part' records ∧
      (∀ i ≤ level, blockStack'[i]? = blockStack[i]?) ∧
      (0 < steps → ∃ above child, ∃ block : IndirectBlock, blockStack[level]? = some above ∧
        above.children[0]? = some child ∧
        Bit.readBlockDirectly kernel metaDev child.record = .ok block ∧
        blockStack'[level + 1]? = some block) := by
  induction steps generalizing level blockStack groups part reads with
  | zero =>
    obtain rfl : level = lowest := deep
    exact ⟨blockStack, groups, part, reads, rfl, inside, descended, fun _ _ => rfl,
      fun none => absurd none (Nat.lt_irrefl 0)⟩
  | succ steps ih =>
    obtain ⟨above, child, block, parts, part', found, positive, here, read, below⟩ :=
      descended.down (by omega) (by omega)
    have inside₁ : ReadsInside (reads ++ [⟨0, above.count⟩]) :=
      readsInside_append.mpr ⟨inside, positive⟩
    obtain ⟨blockStack', groups', part'', reads', run, inside', bottom, kept, -⟩ :=
      ih (by omega) below (by rwa [length_set]) inside₁
    refine ⟨blockStack', groups', part'', reads', ?_, inside', bottom, fun i within => ?_,
      fun _ => ⟨above, child, block, found, here, read metaDev member, ?_⟩⟩
    · rw [range'_succ, BitIterator.firstBlocks]
      simp only [Nat.add_sub_cancel, childAt_eq found, exec_bind, exec_ofExcept]
      rw [if_neg (by omega)]
      simp only [exec_bind, exec_readChild found here (read metaDev member),
        exec_ofExcept, Bit.setAt, if_pos (show level + 1 < blockStack.length by omega)]
      exact run
    · rw [kept i (by omega), getElem?_set_ne (by omega)]
    · rw [kept (level + 1) le_rfl, getElem?_set_self (by omega)]

end

def Bit.SecondLeaf (kernel : Kernel) (metaDev : Device) (bit : Bit) : Prop :=
  ∃ child, ∃ block : IndirectBlock, bit.root.children[0]? = some child ∧
    readBlockDirectly kernel metaDev child.record = .ok block ∧ 2 ≤ block.count

theorem Bit.WellShaped.new {kernel : Kernel} {metaDev : Device} {bit : Bit}
    {records : List LeafRecord} (shaped : bit.WellShaped kernel devices records)
    (member : metaDev ∈ devices) (level : bit.level = lowest + 2) :
    ∃ iterator groups rest reads,
      (BitIterator.new kernel metaDev bit).exec [] = (.ok iterator, reads) ∧
      ReadsInside reads ∧ iterator.hasNext = true ∧
      At kernel devices lowest iterator groups rest ∧
      rest ++ Traversal.pending groups (lowest + 1) = records ∧
      (lowest = 1 → (groups 1 ≠ [] ↔ bit.SecondLeaf kernel metaDev)) := by
  obtain ⟨parts, trees, flat⟩ := shaped.root
  have atMost := shaped.atMost
  rw [level, Nat.add_sub_cancel] at trees
  obtain ⟨part, more, rfl⟩ := exists_cons_of_ne_nil trees.ne_nil
  obtain ⟨child, here, positive, tree⟩ :=
    trees.child (show (part :: more).drop 0 = part :: more from rfl)
  have root : (emptyLevels.set 0 bit.root)[0]? = some bit.root := rfl
  have descended : Descended kernel devices lowest 0 (emptyLevels.set 0 bit.root)
      (fun _ => more) part records := by
    refine ⟨fun i within => ?_, ⟨bit.root, child, root, here, positive, tree⟩, ?_⟩
    · obtain rfl : i = 0 := by omega
      exact ⟨bit.root, _, root, trees, rfl⟩
    · rw [Traversal.pending, Traversal.pending, append_nil]
      exact flat
  have nothing : ReadsInside [] := fun _ member => absurd member not_mem_nil
  obtain ⟨blockStack, groups, part', reads, run, inside, bottom, kept, second⟩ :=
    firstBlocks_descended member (Nat.zero_add lowest) descended
      (show lowest < bitMaxLevel by omega) nothing
  obtain ⟨last, child', found, here', positive', tree'⟩ := bottom.first
  rw [Nat.sub_self] at tree'
  obtain ⟨leaf, read, -, counted, rfl⟩ := tree'
  have ones : ∀ i ≤ lowest, ((replicate bitMaxLevel 1).set (lowest + 1) 0)[i]? = some 1 := by
    intro i within
    rw [getElem?_set_ne (by omega), getElem?_replicate_of_lt (by omega)]
  have zero : ((replicate bitMaxLevel 1).set (lowest + 1) 0)[lowest + 1]? = some 0 :=
    getElem?_set_self (by rw [length_replicate]; omega)
  refine ⟨⟨bit.level, true, (replicate bitMaxLevel 1).set (lowest + 1) 0, blockStack, leaf⟩,
    groups, leaf.children.take leaf.count, reads ++ [⟨0, last.count⟩], ?_,
    readsInside_append.mpr ⟨inside, positive'⟩, rfl, ⟨level, fun i within => ?_, ?_⟩, bottom.flat,
    ?_⟩
  · unfold BitIterator.new
    rw [level, level_sub_one, Nat.add_sub_cancel]
    simp only [exec_bind, exec_ofExcept, setAt, length_replicate,
      if_pos (show lowest + 1 < bitMaxLevel by omega), run, childAt_eq found]
    rw [if_neg (by omega)]
    simp only [exec_bind, exec_readChild found here' (read metaDev member),
      exec_pure]
  · obtain ⟨block, parts, found, trees, dropped⟩ := bottom.filled i within
    exact ⟨block, 1, parts, found, ones i within, trees, dropped⟩
  · exact ⟨0, zero, counted, rfl⟩
  · rintro rfl
    obtain ⟨above, first, block, isRoot, isFirst, blockRead, isSecond⟩ := second Nat.one_pos
    obtain rfl := some.inj (root.symm.trans isRoot)
    obtain ⟨block', parts, found', trees', dropped⟩ := bottom.filled 1 le_rfl
    obtain rfl := some.inj (isSecond.symm.trans found')
    rw [← dropped, Ne, trees'.drop_eq_nil_iff]
    constructor
    · exact fun more => ⟨first, block, isFirst, blockRead, by omega⟩
    · rintro ⟨other, otherBlock, isFirst', otherRead, two⟩
      obtain rfl := some.inj (isFirst.symm.trans isFirst')
      obtain rfl := Except.ok.inj (blockRead.symm.trans otherRead)
      omega

/-! ## What the refills settle -/

section

theorem settles_two : Settles kernel devices 0 False fun hasNext _ => hasNext = true := by
  intro metaDev member iterator groups rest reads part more _ _ at' hasNext inside
  exact ⟨False.elim, fun _ => ⟨_, ⟨at', rfl⟩, hasNext⟩⟩

/-- Tables of level 3: there is a next leaf block as long as `has_next` says so. -/
def NextReady (hasNext : Bool) (groups : Nat → List (List LeafRecord)) : Prop :=
  hasNext = true ∧ groups 1 ≠ [] ∨ hasNext = false ∧ groups 1 = [] ∧ groups 0 = []

theorem NextReady.next {groups : Nat → List (List LeafRecord)} (ready : NextReady true groups) :
    groups 1 ≠ [] := by
  rcases ready with ⟨-, left⟩ | ⟨ended, -⟩
  · exact left
  · cases ended

theorem settles_three : Settles kernel devices 1 True NextReady := by
  intro metaDev member iterator groups rest reads part more _ _ at' hasNext inside
  obtain ⟨iterator', groups', reads', run, inside', same, -, ready⟩ :=
    advanceStack_one at' member Nat.one_pos inside hasNext
  exact wp_of_ok run ⟨fun _ => inside', fun _ => ⟨groups', same, ready⟩⟩

theorem settles_deeper (deep : 2 ≤ lowest) :
    Settles kernel devices lowest False fun hasNext groups => hasNext = false → groups 2 ≠ [] := by
  intro metaDev member iterator groups rest reads part more _ _ at' hasNext inside
  obtain ⟨level, rfl⟩ : ∃ level, lowest = level + 2 := ⟨lowest - 2, by omega⟩
  refine wp_mono (advanceStack_deeper at' member le_rfl inside hasNext)
    (fun _ _ settled => ⟨False.elim, settled⟩) fun _ _ outside => ⟨not_false, outside⟩

theorem settles_first {start : Nat → List (List LeafRecord)} (usedUp : start lowest = []) :
    Settles kernel devices lowest False fun hasNext groups => hasNext = true ∧ groups = start := by
  rintro metaDev - iterator groups rest reads part more ⟨-, rfl⟩ next
  rw [usedUp] at next
  cases next

end

/-! ## Iterations that are right -/

/-- The iteration returns the records of the table, then nothing, and reads no child at or
beyond the count of its block. -/
structure Bit.Iterates (kernel : Kernel) (metaDev : Device) (bit : Bit)
    (records : List LeafRecord) : Prop where
  yields : ∀ count, bit.iterate kernel metaDev count =
    .ok ((records.map some ++ List.replicate count none).take count)
  inside : ∀ count, ReadsInside ((bit.iterateRecorded kernel metaDev count).exec []).2

variable {count : Nat}

section

variable {bit : Bit}

theorem exec_iterateRecorded
    (new : (BitIterator.new kernel metaDev bit).exec [] = (.ok iterator, reads))
    (count : Nat) :
    (bit.iterateRecorded kernel metaDev count).exec [] =
      (((iterator.nextTimes kernel metaDev count).exec reads).1.map Prod.fst,
        ((iterator.nextTimes kernel metaDev count).exec reads).2) := by
  unfold Bit.iterateRecorded
  rw [exec_bind, new]
  simp only
  rw [exec_bind]
  rcases (iterator.nextTimes kernel metaDev count).exec reads with ⟨_ | result, reads'⟩
  · rfl
  · rfl

/-- An iteration that leads to a used up block with `has_next` set is not right. -/
theorem not_iterates (settles : Settles kernel {metaDev} lowest False inv)
    (new : (BitIterator.new kernel metaDev bit).exec [] = (.ok iterator, reads))
    (inside : ReadsInside reads)
    (iterating : Iterating kernel {metaDev} lowest inv iterator rest records)
    (few : count ≤ records.length)
    (stuck : ∀ iterator' rest', Iterating kernel {metaDev} lowest inv iterator' rest'
      (records.drop count) → ∃ groups, At kernel {metaDev} lowest iterator' groups [] ∧
        iterator'.hasNext = true ∧ groups lowest = []) :
    ¬ bit.Iterates kernel metaDev records := by
  intro iterates
  have run := iterating.nextTimes settles (Set.mem_singleton _) (fun isSafe => isSafe.elim) inside
    count
  have yields := iterates.yields count
  rw [Bit.iterate, ReadProgram.outcome, exec_iterateRecorded new,
    take_append_of_le_length (by rwa [length_map]), ← map_take] at yields
  have readsInside := iterates.inside count
  rw [exec_iterateRecorded new] at readsInside
  have further := iterates.inside (count + 1)
  rw [exec_iterateRecorded new, BitIterator.nextTimes, exec_bind] at further
  unfold wp at run
  generalize (iterator.nextTimes kernel metaDev count).exec reads = outcome
    at run yields readsInside further
  obtain ⟨fault | ⟨items, iterator'⟩, reads'⟩ := outcome
  · cases yields
  · obtain ⟨taken, rest', left, returned⟩ := run.2 readsInside
    have all : items = (records.take count).map some := Except.ok.inj yields
    have length : taken.length = count := by
      refine Nat.le_antisymm returned.length (Nat.le_of_not_lt fun fewer => ?_)
      have nothing : none ∈ items := by
        rw [show items = _ from returned.items]
        refine mem_append_right _ (mem_replicate.mpr ⟨by omega, rfl⟩)
      rw [all] at nothing
      obtain ⟨_, -, isNone⟩ := mem_map.mp nothing
      cases isNone
    have iterating' := returned.iterating
    rw [show left = records.drop count by rw [← returned.split, ← length, drop_left]]
      at iterating'
    obtain ⟨groups, at', hasNext, usedUp⟩ := stuck _ _ iterating'
    have outside : EndsOutside (iterator'.next kernel metaDev) reads' :=
      at'.next_stuck hasNext usedUp
    simp only at further
    rw [exec_bind] at further
    unfold EndsOutside wp at outside
    rcases next : (iterator'.next kernel metaDev).exec reads' with ⟨_ | result, reads''⟩ <;>
      rw [next] at outside further <;> exact outside further

theorem Iterating.at_end (iterating : Iterating kernel devices lowest inv iterator rest []) :
    ∃ groups, At kernel devices lowest iterator groups [] ∧ inv iterator.hasNext groups ∧
      ∀ i ≤ lowest, groups i = [] := by
  obtain ⟨groups, at', holds, done⟩ := iterating
  rw [append_eq_nil_iff] at done
  obtain ⟨rfl, done⟩ := done
  refine ⟨groups, at', holds, fun i within => ?_⟩
  exact Traversal.eq_nil_of_pending (fun i below group member =>
    at'.group_ne_nil (Nat.le_of_lt_succ below) member) done (Nat.lt_succ_of_le within)

theorem Returned.items_eq {result : List (Option LeafRecord) × BitIterator}
    {taken left : List LeafRecord}
    (returned : Returned kernel {metaDev} 1 NextReady records count result taken rest left) :
    result.1 = (records.map some ++ replicate count none).take count := by
  rw [returned.items, ← returned.split]
  rcases Nat.lt_or_eq_of_le returned.length with fewer | all
  · obtain ⟨rfl, ended⟩ := returned.ended fewer
    obtain ⟨groups, -, ready, remaining⟩ := returned.iterating
    have nothing : left = [] := by
      rcases ready with ⟨hasNext, -⟩ | ⟨-, usedUp, rootUsedUp⟩
      · rw [ended] at hasNext
        cases hasNext
      · rw [← remaining, Traversal.pending, Traversal.pending, Traversal.pending, usedUp,
          rootUsedUp]
        rfl
    rw [nothing, append_nil, take_append, length_map, take_of_length_le
      (by rw [length_map]; omega), take_replicate, min_eq_left (Nat.sub_le _ _)]
  · rw [all, Nat.sub_self, replicate_zero, append_nil, map_append, append_assoc,
      take_append_of_le_length (by rw [length_map, all]),
      take_of_length_le (by rw [length_map, all])]

theorem iterates_of_ready
    (new : (BitIterator.new kernel metaDev bit).exec [] = (.ok iterator, reads))
    (inside : ReadsInside reads)
    (iterating : Iterating kernel {metaDev} 1 NextReady iterator rest records) :
    bit.Iterates kernel metaDev records := by
  have each : ∀ count, ∃ result reads',
      (iterator.nextTimes kernel metaDev count).exec reads = (.ok result, reads') ∧
      ReadsInside reads' ∧
      result.1 = (records.map some ++ replicate count none).take count := by
    intro count
    rcases wp_outcome (iterating.nextTimes settles_three (Set.mem_singleton _)
      (fun _ _ => NextReady.next) inside count) with
      ⟨result, reads', run, good, reached⟩ | ⟨fault, reads', run, notSafe, -⟩
    · obtain ⟨taken, rest', left, returned⟩ := reached (good trivial)
      exact ⟨result, reads', run, good trivial, returned.items_eq⟩
    · exact absurd trivial notSafe
  constructor
  · intro count
    obtain ⟨result, reads', run, -, items⟩ := each count
    rw [Bit.iterate, ReadProgram.outcome, exec_iterateRecorded new, run, ← items]
    rfl
  · intro count
    obtain ⟨result, reads', run, readsInside, -⟩ := each count
    rw [exec_iterateRecorded new, run]
    exact readsInside

/-- The iteration over a table is right exactly at level 3, if the first block has a second
leaf block. -/
theorem iterates_iff (shaped : bit.WellShaped kernel {metaDev} records) :
    bit.Iterates kernel metaDev records ↔ bit.level = 3 ∧ bit.SecondLeaf kernel metaDev := by
  obtain ⟨lowest, level⟩ : ∃ lowest, bit.level = lowest + 2 :=
    ⟨bit.level - 2, by have := shaped.atLeast; omega⟩
  obtain ⟨iterator, groups, rest, reads, new, inside, hasNext, at', flat, second⟩ :=
    shaped.new rfl level
  have last : records.drop records.length = [] := drop_length
  constructor
  · intro iterates
    match lowest with
    | 0 =>
      refine absurd iterates (not_iterates settles_two new inside ⟨groups, at', hasNext, flat⟩
        le_rfl fun iterator' rest' iterating => ?_)
      rw [last] at iterating
      obtain ⟨groups', at'', hasNext', usedUp⟩ := iterating.at_end
      exact ⟨groups', at'', hasNext', usedUp 0 le_rfl⟩
    | 1 =>
      refine ⟨level, (second rfl).mp fun usedUp => ?_⟩
      have few : rest.length ≤ records.length := by
        rw [← flat, length_append]
        exact Nat.le_add_right _ _
      refine not_iterates (settles_first usedUp) new inside ⟨groups, at', ⟨hasNext, rfl⟩, flat⟩
        few (fun iterator' rest' iterating => ?_) iterates
      obtain ⟨groups', at'', ⟨hasNext', rfl⟩, remaining⟩ := iterating
      have done : rest' = [] := by
        rw [← flat, drop_left] at remaining
        simpa using remaining
      exact ⟨groups', done ▸ at'', hasNext', usedUp⟩
    | lowest + 2 =>
      have goesOn : iterator.hasNext = false → groups 2 ≠ [] := by
        rw [hasNext]
        exact fun ended => Bool.noConfusion ended
      refine absurd iterates (not_iterates (settles_deeper (by omega)) new inside
        ⟨groups, at', goesOn, flat⟩ le_rfl fun iterator' rest' iterating => ?_)
      rw [last] at iterating
      obtain ⟨groups', at'', left, usedUp⟩ := iterating.at_end
      refine ⟨groups', at'', ?_, usedUp _ le_rfl⟩
      by_contra ended
      exact left (Bool.eq_false_iff.mpr ended) (usedUp 2 (by omega))
  · rintro ⟨three, secondLeaf⟩
    obtain rfl : lowest = 1 := by omega
    exact iterates_of_ready new inside
      ⟨groups, at', .inl ⟨hasNext, (second rfl).mpr secondLeaf⟩, flat⟩

end

/-! ## Tables that were built -/

/-- The devices of a session, from a state on. -/
def laterDevices (s : IndexStore) : Set Device :=
  fun metaDev => ∃ s', Grows s s' ∧ s'.metaDev = metaDev

theorem metaDev_mem_laterDevices (s : IndexStore) : s.metaDev ∈ laterDevices s :=
  ⟨s, Grows.refl s, rfl⟩

theorem Spans.ne_nil {lbaRange : Nat × Nat} {part : List LeafRecord} (spans : Spans lbaRange part) :
    part ≠ [] := by
  rintro rfl
  cases spans.first

section

variable {start : Nat} {s : IndexStore} {bit : Bit} {record : Record} {part : List LeafRecord}
  (placement : Placement kernel start s)
  (inside : ∀ pair ∈ s.written, pair.1.hba + blockSectors ≤ s.metaDev.sectors)
include placement inside

theorem Placement.read_later {T : Type} [BlockFormat T] {plain : List UInt8}
    (here : (record, plain) ∈ s.written) (later : metaDev ∈ laterDevices s) :
    Bit.readBlockDirectly kernel metaDev record =
      (BlockFormat.deserialize plain : Except Fault T) := by
  obtain ⟨s', grows, rfl⟩ := later
  rw [← placement.readBlockDirectly_eq here (inside _ here)]
  unfold Bit.readBlockDirectly openRecord
  rw [grows.stays _ (placement.below here).2]

theorem Holds.storedTree {height : Nat} (holds : Holds s.written height record part)
    (nonempty : part ≠ []) : StoredTree kernel (laterDevices s) height record part := by
  induction height generalizing record part with
  | zero =>
    obtain ⟨plain, leaf, here, decoded, within, rfl⟩ := holds
    refine ⟨leaf, fun metaDev later => ?_, Nat.pos_of_ne_zero fun none => nonempty ?_, within, rfl⟩
    · rw [placement.read_later inside here later, decoded]
    · rw [none, take_zero]
  | succ height ih =>
    obtain ⟨plain, block, here, decoded, within, parts, each, rfl⟩ := holds
    refine ⟨block, fun metaDev later => ?_, Nat.pos_of_ne_zero fun none => nonempty ?_, within,
      parts, each.imp fun _ _ child => ih child.2 child.1.ne_nil, rfl⟩
    · rw [placement.read_later inside here later, decoded]
    · rw [none, take_zero] at each
      rw [forall₂_nil_left_iff.mp each, flatten_nil]

theorem TableHolds.wellShaped (holds : TableHolds s.written bit records) (atLeast : 2 ≤ bit.level)
    (atMost : bit.level ≤ bitMaxLevel) (nonempty : records ≠ []) (ordered : Ordered records) :
    bit.WellShaped kernel (laterDevices s) records := by
  obtain ⟨parts, children, rfl⟩ := holds.root
  refine ⟨atLeast, atMost, ⟨parts, ⟨Nat.pos_of_ne_zero fun none => nonempty ?_,
    children.count.le, ?_⟩, rfl⟩, ordered⟩
  · have each := children.each
    rw [length_eq_zero_iff.mp (children.count.symm.trans none)] at each
    rw [forall₂_nil_left_iff.mp each, flatten_nil]
  · rw [children.count, take_length]
    exact children.each.imp fun _ _ child => child.2.storedTree placement inside child.1.ne_nil

end

theorem fromMemtable_wellShaped {start : Nat} {s : IndexStore} {memtable : MemTable Record}
    (placement : Placement kernel start s) (reachable : memtable.Reachable)
    (fits : maxLevelFor memtable.size < bitMaxLevel)
    (kept : keptRecords memtable.size memtable.leafRecords = records) (nonempty : records ≠ [])
    (fit : WritesFit s ((Bit.fromMemtable kernel memtable).exec s).2) :
    ∃ bit, ((Bit.fromMemtable kernel memtable).exec s).1 = .ok bit ∧
      Placement kernel start ((Bit.fromMemtable kernel memtable).exec s).2 ∧
      bit.WellShaped kernel (laterDevices ((Bit.fromMemtable kernel memtable).exec s).2) records ∧
      bit.level = maxLevelFor memtable.size ∧ bit.size = memtable.size := by
  obtain ⟨bit, returned, assembled, called, holds, level, size⟩ :=
    (fromMemtable_holds placement reachable fits).returns fit
  rw [kept] at holds
  have shaped := holds.wellShaped assembled.placement (fit.inside placement assembled called)
    (level.symm ▸ two_le_maxLevelFor _) (level.trans_le fits.le) nonempty
    (kept ▸ ordered_keptRecords memtable.leafRecords_ordered)
  exact ⟨bit, returned, assembled.placement, shaped, level, size⟩

/-- The number of leaf blocks of the first block below the root. -/
def Bit.firstLeaves (kernel : Kernel) (metaDev : Device) (bit : Bit) : Except Fault Nat := do
  let child ← childAt bit.root.children 0
  let block : IndirectBlock ← readBlockDirectly kernel metaDev child.record
  return block.count

theorem Bit.secondLeaf_of_firstLeaves {bit : Bit} {count : Nat}
    (counted : bit.firstLeaves kernel metaDev = .ok count) (several : 2 ≤ count) :
    bit.SecondLeaf kernel metaDev := by
  obtain ⟨child, here, counted⟩ := bind_eq_ok.mp counted
  obtain ⟨block, read, counted⟩ := bind_eq_ok.mp counted
  exact ⟨child, block, childAt_ok here, read, (Except.ok.inj counted).symm ▸ several⟩

def oneRecord (lba : Nat) : LeafBlock := ⟨1, [⟨lba, firstBlock⟩]⟩

/-- Two leaf blocks of one record each, put into a table of level 3. -/
def smallBuild : IndexProgram Bit := do
  let indirect ← Bit.writebackLeaf plainKernel 3 (oneRecord 0) Bit.emptyLevels
  let indirect ← Bit.writebackLeaf plainKernel 3 (oneRecord 1) indirect
  Bit.finish plainKernel 3 2 indirect

def smallStore : IndexStore := (smallBuild.exec (IndexStore.mount metaDevice 0)).2

def smallRecords : List LeafRecord := [⟨0, firstBlock⟩, ⟨1, firstBlock⟩]

theorem ordered_smallRecords : Ordered smallRecords := by
  simp [Ordered, smallRecords]

theorem words_smallRecords : ∀ record ∈ smallRecords, record.Words := by
  intro record member
  rcases mem_cons.mp member with rfl | member
  · exact ⟨by decide, by decide +kernel⟩
  · obtain rfl := mem_singleton.mp member
    exact ⟨by decide, by decide +kernel⟩

set_option maxRecDepth 1000 in
theorem smallBuild_holds :
    Assembles plainKernel segmentSectors smallBuild (fun bit s' => 0 < s'.calls.length ∧
      TableHolds s'.written bit smallRecords ∧ bit.level = 3 ∧ bit.size = 2)
      (IndexStore.mount metaDevice 0) := by
  have room : 2 ≤ indirectBlockChildren ^ 2 := by decide
  have words : ∀ record ∈ [] ++ (oneRecord 0).children, record.Words := fun record member =>
    words_smallRecords record (mem_cons.mpr (.inl (mem_singleton.mp member)))
  refine .seq (writebackLeaf_growing (placement_mount plainKernel metaDevice 0)
    (growing_empty _ (by decide)) (by decide) rfl (cons_ne_nil _ _) (by decide)
    (pairwise_singleton _ _) words) fun indirect s' first growing => ?_
  refine .seq (writebackLeaf_growing first.placement growing room rfl (cons_ne_nil _ _)
    (by decide) ordered_smallRecords words_smallRecords) fun indirect s' second growing => ?_
  exact (finish_holds second.placement growing room ordered_smallRecords words_smallRecords 2).mono
    fun _ _ _ finished => ⟨Nat.zero_lt_of_lt finished.1, finished.2⟩

theorem smallBuild_returns :
    ∃ bit, (smallBuild.exec (IndexStore.mount metaDevice 0)).1 = .ok bit ∧
      Placement plainKernel segmentSectors smallStore ∧
      bit.WellShaped plainKernel (laterDevices smallStore) smallRecords ∧ bit.level = 3 ∧
      bit.size = 2 ∧ bit.SecondLeaf plainKernel smallStore.metaDev := by
  have fit : WritesFit (IndexStore.mount metaDevice 0)
    (smallBuild.exec (IndexStore.mount metaDevice 0)).2 := by decide +kernel
  have leaves : ((smallBuild.exec (IndexStore.mount metaDevice 0)).1 >>=
    Bit.firstLeaves plainKernel smallStore.metaDev) = .ok 2 := by decide +kernel
  have built := smallBuild_holds.returns fit
  unfold smallStore at leaves ⊢
  generalize smallBuild.exec (IndexStore.mount metaDevice 0) = run at *
  obtain ⟨bit, returned, assembled, called, holds, level, size⟩ := built
  rw [returned] at leaves
  have inside := fit.inside (placement_mount plainKernel metaDevice 0) assembled called
  exact ⟨bit, returned, assembled.placement, holds.wellShaped assembled.placement inside
    (by omega) (level.trans_le (by decide)) (cons_ne_nil _ _) ordered_smallRecords, level, size,
    Bit.secondLeaf_of_firstLeaves leaves le_rfl⟩

theorem iterates_smallTable :
    ∃ bit, (smallBuild.exec (IndexStore.mount metaDevice 0)).1 = .ok bit ∧
      bit.Iterates plainKernel smallStore.metaDev smallRecords := by
  obtain ⟨bit, returned, -, shaped, level, -, second⟩ := smallBuild_returns
  exact ⟨bit, returned, (iterates_iff (shaped.mono (Set.singleton_subset_iff.mpr
    (metaDev_mem_laterDevices smallStore)))).mpr ⟨level, second⟩⟩

def flatBuild : Except Fault Bit × IndexStore :=
  (Bit.fromMemtable plainKernel insertedOnce).exec (IndexStore.mount metaDevice 0)

/-- The iterator of a table of level 2 goes on behind its last leaf block. -/
theorem flatTable_not_ended :
    ∃ bit, flatBuild.1 = .ok bit ∧
      bit.WellShaped plainKernel {flatBuild.2.metaDev} [⟨7, firstBlock⟩] ∧
      bit.iterate plainKernel flatBuild.2.metaDev 1 = .ok [some ⟨7, firstBlock⟩] ∧
      bit.iterate plainKernel flatBuild.2.metaDev 2 = .error .panic := by
  have fit : WritesFit (IndexStore.mount metaDevice 0) flatBuild.2 := by decide +kernel
  have first : (flatBuild.1 >>= fun bit => bit.iterate plainKernel flatBuild.2.metaDev 1) =
    .ok [some ⟨7, firstBlock⟩] := by decide +kernel
  have second : (flatBuild.1 >>= fun bit => bit.iterate plainKernel flatBuild.2.metaDev 2) =
    .error .panic := by decide +kernel
  unfold flatBuild at *
  have built := fromMemtable_wellShaped (placement_mount plainKernel metaDevice 0)
    reachable_insertedOnce (by decide +kernel)
    (show keptRecords insertedOnce.size insertedOnce.leafRecords = [⟨7, firstBlock⟩] from rfl)
    (cons_ne_nil _ _) fit
  generalize (Bit.fromMemtable plainKernel insertedOnce).exec _ = run at *
  obtain ⟨bit, returned, -, shaped, -⟩ := built
  rw [returned] at first second
  exact ⟨bit, returned, shaped.mono (Set.singleton_subset_iff.mpr (metaDev_mem_laterDevices _)),
    first, second⟩

end SwornDisk.Rust
