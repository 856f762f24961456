import SwornDisk.Lib.Spine
import SwornDisk.Rust.IndexSession

/-!
# Assembly of a tree

Leaves are pushed into the lowest indirect block from left to right; a block that is full
is written and becomes one child of the block above, so the levels hold consecutive parts
of what was pushed so far, and no assertion trips as long as the root has room.  What a leaf
holds does not matter to this, as long as its range covers it.
-/

namespace SwornDisk.Rust

open Lib List Function Program

variable {written : List (Record × List UInt8)} {height start lowest : Nat} {block : IndirectBlock}
  {kernel : Kernel} {s : IndexStore} {indirect : Bit.IndirectLevels}

/-! ## Leaves -/

/-- What stands at the leaves of a tree: items with a range and numbers that are words, and what
it is that a leaf holds some of them. -/
class LeafItem (α : Type) where
  lbas : α → Nat × Nat
  Words : α → Prop
  Leaf : List (Record × List UInt8) → IndirectRecord → List α → Prop
  mono : ∀ {written written' child part}, written <+: written' → Leaf written child part →
    Leaf written' child part
  words : ∀ {item}, Words item → IsWord (lbas item).1 ∧ IsWord (lbas item).2
  hba : ∀ {kernel start s child part}, Placement kernel start s → Leaf s.written child part →
    (∀ item ∈ part, Words item) → IsWord child.record.hba

variable {α : Type} [LeafItem α]

open LeafItem (lbas)

structure Ascends (items : List α) : Prop where
  apart : items.Pairwise fun left right => (lbas left).2 < (lbas right).1
  ranges : ∀ item ∈ items, (lbas item).1 ≤ (lbas item).2
  words : ∀ item ∈ items, LeafItem.Words item

/-- The range reaches from the first address of some items to the last one. -/
structure Covers (lbaRange : Nat × Nat) (part : List α) : Prop where
  first : part.head?.map (fun item => (lbas item).1) = some lbaRange.1
  last : part.getLast?.map (fun item => (lbas item).2) = some lbaRange.2

theorem Ascends.sublist {items part : List α} (ascends : Ascends items) (fewer : part <+ items) :
    Ascends part where
  apart := ascends.apart.sublist fewer
  ranges item member := ascends.ranges item (fewer.subset member)
  words item member := ascends.words item (fewer.subset member)

namespace Covers

variable {lbaRange left right : Nat × Nat} {part before after : List α}

section

variable (covers : Covers lbaRange part)
include covers

theorem nonempty : part ≠ [] := by
  rintro rfl
  cases covers.first

theorem first_mem : ∃ item ∈ part, (lbas item).1 = lbaRange.1 := by
  obtain ⟨item, found, same⟩ := Option.map_eq_some_iff.mp covers.first
  exact ⟨item, mem_of_head? found, same⟩

theorem last_mem : ∃ item ∈ part, (lbas item).2 = lbaRange.2 := by
  obtain ⟨item, found, same⟩ := Option.map_eq_some_iff.mp covers.last
  exact ⟨item, mem_of_getLast? found, same⟩

theorem le (ascends : Ascends part) : lbaRange.1 ≤ lbaRange.2 := by
  obtain ⟨last, lastMem, lastLba⟩ := covers.last_mem
  cases part with
  | nil => cases lastMem
  | cons head rest =>
    have first : (lbas head).1 = lbaRange.1 := Option.some.inj covers.first
    rw [← first, ← lastLba]
    rcases mem_cons.mp lastMem with rfl | inRest
    · exact ascends.ranges last mem_cons_self
    · have apart := (pairwise_cons.mp ascends.apart).1 last inRest
      have headRange := ascends.ranges head mem_cons_self
      have lastRange := ascends.ranges last lastMem
      omega

end

theorem lt (coversLeft : Covers left before) (coversRight : Covers right after)
    (ascends : Ascends (before ++ after)) : left.2 < right.1 := by
  obtain ⟨last, lastMem, lastLba⟩ := coversLeft.last_mem
  obtain ⟨first, firstMem, firstLba⟩ := coversRight.first_mem
  rw [← lastLba, ← firstLba]
  exact (pairwise_append.mp ascends.apart).2.2 last lastMem first firstMem

theorem append (coversLeft : Covers left before) (coversRight : Covers right after) :
    Covers (left.1, right.2) (before ++ after) where
  first := by
    rw [head?_append_of_ne_nil _ coversLeft.nonempty]
    exact coversLeft.first
  last := by
    rw [getLast?_append_of_ne_nil _ coversRight.nonempty]
    exact coversRight.last

end Covers

/-! ## What a written tree holds -/

def HasBelow (written : List (Record × List UInt8)) : Nat → IndirectRecord → List α → Prop
  | 0, child, part => LeafItem.Leaf written child part
  | height + 1, child, part => ∃ plain, ∃ block : IndirectBlock,
      (child.record, plain) ∈ written ∧ BlockFormat.deserialize plain = .ok block ∧
      block.count ≤ block.children.length ∧ block.count ≤ indirectBlockChildren ∧
      ∃ parts, Forall₂ (fun child part =>
          Covers child.lbaRange part ∧ HasBelow written height child part)
        (block.children.take block.count) parts ∧ parts.flatten = part

structure ChildrenBelow (written : List (Record × List UInt8)) (height : Nat)
    (block : IndirectBlock) (parts : List (List α)) : Prop where
  count : block.count = block.children.length
  each : Forall₂ (fun child part =>
    Covers child.lbaRange part ∧ HasBelow written height child part) block.children parts

section

variable {written' : List (Record × List UInt8)} {child : IndirectRecord} {part : List α}
  {parts : List (List α)}

theorem HasBelow.mono (more : written <+: written') (below : HasBelow written height child part) :
    HasBelow written' height child part := by
  induction height generalizing child part with
  | zero => exact LeafItem.mono more below
  | succ height ih =>
    obtain ⟨plain, block, here, stored, count, few, parts, each, joined⟩ := below
    exact ⟨plain, block, more.subset here, stored, count, few, parts,
      each.imp fun _ _ child => ⟨child.1, ih child.2⟩, joined⟩

theorem HasBelow.hba {kernel : Kernel} {start : Nat} {s : IndexStore}
    (placement : Placement kernel start s) (below : HasBelow s.written height child part)
    (words : ∀ item ∈ part, LeafItem.Words item) : IsWord child.record.hba := by
  cases height with
  | zero => exact LeafItem.hba placement below words
  | succ height =>
    obtain ⟨plain, -, here, -⟩ := below
    exact Nat.lt_of_le_of_lt (Nat.le_of_add_right_le (placement.below here).2) placement.word

theorem ChildrenBelow.mono (more : written <+: written')
    (children : ChildrenBelow written height block parts) :
    ChildrenBelow written' height block parts :=
  ⟨children.count, children.each.imp fun _ _ child => ⟨child.1, child.2.mono more⟩⟩

theorem childrenBelow_default (written : List (Record × List UInt8)) (height : Nat) :
    ChildrenBelow written height IndirectBlock.default ([] : List (List α)) :=
  ⟨rfl, .nil⟩

theorem ChildrenBelow.length (children : ChildrenBelow written height block parts) :
    block.count = parts.length := by
  rw [children.count, children.each.length_eq]

end

/-! ## Blocks in memory -/

section

variable {parts : List (List α)}

theorem covers_flatten {children : List IndirectRecord} {first last : IndirectRecord}
    (each : Forall₂ (fun child part =>
      Covers child.lbaRange part ∧ HasBelow written height child part) children parts)
    (head : children.head? = some first) (tail : children.getLast? = some last) :
    Covers (first.lbaRange.1, last.lbaRange.2) parts.flatten := by
  induction each generalizing first with
  | nil => cases head
  | @cons child part children parts here later ih =>
    obtain rfl : child = first := Option.some.inj head
    cases children with
    | nil =>
      obtain rfl : child = last := Option.some.inj tail
      cases later
      rw [flatten_singleton]
      exact here.1
    | cons next rest =>
      rw [getLast?_cons_cons] at tail
      have others := ih (show (next :: rest).head? = some next from rfl) tail
      have covers := here.1.append others
      exact covers

variable (children : ChildrenBelow written height block parts)
include children

theorem ChildrenBelow.getLbaRange (nonempty : parts ≠ []) :
    ∃ lbaRange, block.getLbaRange = .ok lbaRange ∧ Covers lbaRange parts.flatten := by
  have positive : 0 < block.children.length := by
    rw [children.each.length_eq]
    exact length_pos_iff.mpr nonempty
  have head := getElem?_eq_getElem positive
  have lastIndex : block.children.length - 1 < block.children.length := by omega
  have last := getElem?_eq_getElem lastIndex
  refine ⟨_, ?_, covers_flatten children.each (head?_eq_getElem?.trans head)
    (getLast?_eq_getElem?.trans last)⟩
  unfold IndirectBlock.getLbaRange
  rw [if_neg (by rw [children.count]; omega), children.count, childAt, head, ok_bind, childAt, last]
  rfl

theorem ChildrenBelow.getLbaRange_ok :
    ∃ lbaRange, block.getLbaRange = .ok lbaRange ∧
      (parts.flatten ≠ [] → Covers lbaRange parts.flatten) := by
  by_cases empty : parts = []
  · refine ⟨_, if_pos ?_, fun nonempty => absurd (by rw [empty]; rfl) nonempty⟩
    rw [children.length, empty]
    rfl
  · obtain ⟨lbaRange, range, covers⟩ := children.getLbaRange empty
    exact ⟨lbaRange, range, fun _ => covers⟩

theorem ChildrenBelow.push (room : parts.length < indirectBlockChildren) {part : List α}
    (indirect : IndirectRecord) (ascends : Ascends (parts.flatten ++ part))
    (covers : Covers indirect.lbaRange part) (below : HasBelow written height indirect part) :
    ∃ block', block.push indirect = .ok block' ∧
      ChildrenBelow written height block' (parts ++ [part]) := by
  have length := children.length
  have checked : block.checkOrder indirect = .ok () := by
    unfold IndirectBlock.checkOrder
    split
    · next positive =>
        have lastIndex : block.children.length - 1 < block.children.length := by
          have count := children.count
          omega
        have last := getElem?_eq_getElem lastIndex
        obtain ⟨lbaRange, -, range⟩ := children.getLbaRange (by
          rintro rfl
          rw [length_nil] at length
          omega)
        have order : (block.children[block.children.length - 1]).lbaRange.2 <
            indirect.lbaRange.1 := by
          have head := getElem?_eq_getElem (Nat.zero_lt_of_lt lastIndex)
          exact (covers_flatten children.each (head?_eq_getElem?.trans head)
            (getLast?_eq_getElem?.trans last)).lt covers ascends
        have within := covers.le (ascends.sublist (sublist_append_right _ _))
        rw [children.count, childAt, last, ok_bind, assertTrue, if_pos (decide_eq_true order.le),
          ok_bind, assertTrue, if_pos (decide_eq_true within)]
    · rfl
  refine ⟨⟨block.count + 1, block.children ++ [indirect]⟩, ?_, ?_, ?_⟩
  · unfold IndirectBlock.push
    rw [checked, ok_bind, assertTrue, if_pos (decide_eq_true (by omega))]
    rfl
  · rw [length_append, children.count]
    rfl
  · exact rel_append children.each (.cons ⟨covers, below⟩ .nil)

end

/-! ## Writing blocks -/

/-- The index writes of a part of a construction: every block that was added went through
one of the calls. -/
structure Logged (s s' : IndexStore) : Prop where
  calls : s.calls <+: s'.calls
  written : ∀ pair ∈ s'.written, pair ∈ s.written ∨
    ∃ call ∈ s'.calls.drop s.calls.length, call.hba = pair.1.hba

def Overflowed (s s' : IndexStore) : Prop :=
  ∃ call ∈ s'.calls.drop s.calls.length, ¬ IsWord (call.hba + blockSectors)

structure Assembled (kernel : Kernel) (start : Nat) (s s' : IndexStore) : Prop where
  placement : Placement kernel start s'
  grows : Grows s s'
  logged : Logged s s'

section

variable {s' s'' : IndexStore}

theorem Logged.refl (s : IndexStore) : Logged s s :=
  ⟨prefix_refl _, fun _ member => .inl member⟩

theorem drop_subset_of_prefix {α : Type} {first second : List α} (more : first <+: second)
    (all : List α) : all.drop second.length ⊆ all.drop first.length :=
  drop_subset_drop_left all more.length_le

theorem Logged.trans (first : Logged s s') (second : Logged s' s'') : Logged s s'' where
  calls := first.calls.trans second.calls
  written pair member := by
    rcases second.written pair member with early | ⟨call, made, place⟩
    · rcases first.written pair early with before | ⟨call, made, place⟩
      · exact .inl before
      · obtain ⟨more, same⟩ := second.calls
        refine .inr ⟨call, ?_, place⟩
        rw [← same, drop_append_of_le_length first.calls.length_le]
        exact mem_append_left _ made
    · exact .inr ⟨call, drop_subset_of_prefix first.calls _ made, place⟩

theorem Overflowed.after (first : Logged s s') (overflowed : Overflowed s' s'') :
    Overflowed s s'' := by
  obtain ⟨call, made, large⟩ := overflowed
  exact ⟨call, drop_subset_of_prefix first.calls _ made, large⟩

theorem Assembled.refl (placement : Placement kernel start s) : Assembled kernel start s s :=
  ⟨placement, Grows.refl s, Logged.refl s⟩

theorem Assembled.trans (first : Assembled kernel start s s')
    (second : Assembled kernel start s' s'') : Assembled kernel start s s'' :=
  ⟨second.placement, first.grows.trans second.grows, first.logged.trans second.logged⟩

/-- A program of a construction returns with this result, unless the cursor overflows. -/
def Assembles {β : Type} (kernel : Kernel) (start : Nat) (prog : IndexProgram β)
    (post : β → IndexStore → Prop) (s : IndexStore) : Prop :=
  wp prog (fun result s' => Assembled kernel start s s' ∧ post result s')
    (fun _ s' => Overflowed s s') s

namespace Assembles

variable {β δ : Type} {prog : IndexProgram β} {next : β → IndexProgram δ}
  {post post' : β → IndexStore → Prop}

theorem mono (run : Assembles kernel start prog post s)
    (weaker : ∀ result s', Assembled kernel start s s' → post result s' → post' result s') :
    Assembles kernel start prog post' s :=
  wp_mono run (fun result s' after => ⟨after.1, weaker result s' after.1 after.2⟩) fun _ _ => id

theorem seq {last : δ → IndexStore → Prop} (first : Assembles kernel start prog post s)
    (second : ∀ result s', Assembled kernel start s s' → post result s' →
      Assembles kernel start (next result) last s') :
    Assembles kernel start (prog >>= next) last s := by
  refine wp_seq first (fun result s' after => ?_) fun _ _ => id
  refine wp_mono (second result s' after.1 after.2) (fun _ _ later => ?_)
    fun _ _ overflowed => overflowed.after after.1.logged
  exact ⟨after.1.trans later.1, later.2⟩

theorem ok_bind {last : δ → IndexStore → Prop} {result : Except Fault β} {value : β}
    (ok : result = .ok value) (run : Assembles kernel start (next value) last s) :
    Assembles kernel start (Program.ofExcept result >>= next) last s := by
  rw [ok]
  exact (wp_ok_bind value).mpr run

theorem ret (placement : Placement kernel start s) {result : β} (holds : post result s) :
    Assembles kernel start (pure result) post s :=
  ⟨Assembled.refl placement, holds⟩

end Assembles

variable (placement : Placement kernel start s)
include placement

theorem IndexSegment.write_assembled {data : List UInt8} (whole : data.length = blockSize) :
    Assembles kernel start (IndexSegment.write kernel data)
      (fun record s' => (record, data) ∈ s'.written ∧ s.calls.length < s'.calls.length) s := by
  have logged : wp (IndexSegment.write kernel data)
      (fun record s' => s'.calls = s.calls ++ [s.call] ∧ record.hba = s.hba)
      (fun _ s' => Overflowed s s') s := by
    unfold IndexSegment.write
    rw [if_neg (by omega)]
    simp only [wp_bind, wp_get]
    split
    · exact ⟨rfl, rfl⟩
    · next large =>
        refine ⟨s.call, ?_, large⟩
        change _ ∈ (s.calls ++ [s.call]).drop s.calls.length
        rw [drop_left]
        exact mem_singleton_self _
  refine wp_mono (wp_and (IndexSegment.write_spec placement whole) logged)
    (fun record s' after => ?_) fun _ _ after => after.2
  obtain ⟨⟨placement', grows, written⟩, calls, place⟩ := after
  refine ⟨⟨placement', grows, ?_, fun pair member => ?_⟩, ?_, ?_⟩
  · rw [calls]
    exact prefix_append _ _
  · rw [written] at member
    rcases mem_append.mp member with old | new
    · exact .inl old
    · refine .inr ⟨s.call, ?_, ?_⟩
      · rw [calls, drop_left]
        exact mem_singleton_self _
      · rw [mem_singleton.mp new]
        exact place.symm
  · rw [written]
    exact mem_append_right _ (mem_singleton_self _)
  · rw [calls, length_append]
    exact Nat.lt_succ_self _

theorem writebackBlock_indirect_holds {height : Nat} {parts : List (List α)}
    (children : ChildrenBelow s.written height block parts)
    (few : parts.length ≤ indirectBlockChildren) (ascends : Ascends parts.flatten) :
    Assembles kernel start (Bit.writebackBlock kernel block)
      (fun record s' => (∀ lbaRange, HasBelow s'.written (height + 1) ⟨lbaRange, record⟩
        parts.flatten) ∧ s.calls.length < s'.calls.length) s := by
  have childWords : ∀ child ∈ block.children, child.Words := by
    intro child member
    obtain ⟨part, inParts, covers, below⟩ := Spine.exists_of_forall₂ children.each member
    obtain ⟨first, firstMem, firstLba⟩ := covers.first_mem
    obtain ⟨last, lastMem, lastLba⟩ := covers.last_mem
    have partWords := fun item inPart => ascends.words item (mem_flatten_of_mem inParts inPart)
    refine ⟨?_, ?_, below.hba placement partWords⟩
    · rw [← firstLba]
      exact (LeafItem.words (partWords first firstMem)).1
    · rw [← lastLba]
      exact (LeafItem.words (partWords last lastMem)).2
  obtain ⟨bytes, back, stored, length, decoded, sameCount, counted, same, -⟩ :=
    IndirectBlock.stored children.count (by rwa [children.each.length_eq]) childWords
  refine .ok_bind stored ((IndexSegment.write_assembled placement length).mono
    fun record s' assembled after => ⟨fun _ => ⟨bytes, back, after.1, decoded, counted, ?_, parts,
      ?_, rfl⟩, after.2⟩)
  · rw [sameCount, children.length]
    exact few
  · rw [same]
    exact (children.mono assembled.grows.written).each

end

/-! ## Carrying blocks up -/

/-- The indirect levels hold these parts, the lowest one at index `lowest`. -/
def LevelsHold (written : List (Record × List UInt8)) (lowest : Nat)
    (indirect : Bit.IndirectLevels) (levels : Nat → List (List α)) : Prop :=
  ∀ i ≤ lowest, ∃ block, indirect[i]? = some block ∧
    ChildrenBelow written (lowest - i) block (levels i)

section

variable {level : Nat} {levels : Nat → List (List α)}

theorem LevelsHold.mono {written written' : List (Record × List UInt8)}
    (more : written <+: written') (holds : LevelsHold written lowest indirect levels) :
    LevelsHold written' lowest indirect levels := by
  intro i within
  obtain ⟨block, found, children⟩ := holds i within
  exact ⟨block, found, children.mono more⟩

theorem LevelsHold.set {written : List (Record × List UInt8)}
    (holds : LevelsHold written lowest indirect levels) (within : level ≤ lowest)
    {parts : List (List α)}
    (children : ChildrenBelow written (lowest - level) block parts) :
    LevelsHold written lowest (indirect.set level block) (update levels level parts) := by
  intro i inside
  obtain ⟨old, found, held⟩ := holds i inside
  by_cases same : i = level
  · subst same
    rw [update_self, getElem?_set_self (List.getElem?_eq_some_iff.mp found).1]
    exact ⟨block, rfl, children⟩
  · rw [update_of_ne same, getElem?_set_ne (Ne.symm same)]
    exact ⟨old, found, held⟩

theorem carryNode_spec (placement : Placement kernel start s)
    (holds : LevelsHold s.written lowest indirect levels) (within : level < lowest)
    (ascends : Ascends (Spine.joined levels lowest))
    (found : indirect[level + 1]? = some block) (nonempty : levels (level + 1) ≠ [])
    (few : (levels (level + 1)).length ≤ indirectBlockChildren)
    (room : (levels level).length < indirectBlockChildren) :
    Assembles kernel start (Bit.carryNode kernel level block indirect)
      (fun indirect' s' =>
        LevelsHold s'.written lowest indirect' (Spine.collect levels level)) s := by
  obtain ⟨_, here, children⟩ := holds (level + 1) within
  obtain rfl := Option.some.inj (found.symm.trans here)
  obtain ⟨parent, above, siblings⟩ := holds level within.le
  obtain ⟨lbaRange, isRange, covers⟩ := children.getLbaRange nonempty
  have row := Spine.flatten_append_infix levels within
  have rowAscends : Ascends ((levels level).flatten ++ (levels (level + 1)).flatten) :=
    ascends.sublist row.sublist
  have height : lowest - (level + 1) + 1 = lowest - level := by omega
  refine .ok_bind isRange (.seq (writebackBlock_indirect_holds placement children few
    (rowAscends.sublist (sublist_append_right _ _))) fun record s' assembled after => ?_)
  obtain ⟨subtree, -⟩ := after
  rw [height] at subtree
  have holds' := holds.mono assembled.grows.written
  obtain ⟨parent', pushed, grown⟩ := (siblings.mono assembled.grows.written).push room
    ⟨lbaRange, record⟩ rowAscends covers (subtree lbaRange)
  exact .ok_bind (childAt_eq above) (.ok_bind pushed (.ret assembled.placement
    ((holds'.set within.le grown).set within (childrenBelow_default _ _))))

/-- What `pushup_indirect_block` leaves in the levels; the last one returns the root. -/
structure CarriedUp (writeAll : Bool) (lowest : Nat)
    (levels levels' : Nat → List (List α)) (s s' : IndexStore)
    (result : Option IndirectRecord × Bit.IndirectLevels) : Prop where
  holds : LevelsHold s'.written lowest result.2 levels'
  joined : Spine.joined levels' lowest = Spine.joined levels lowest
  weight : writeAll = false → Spine.weight indirectBlockChildren levels' lowest =
    Spine.weight indirectBlockChildren levels lowest
  settled : ∀ i, 0 < i → i ≤ lowest → (levels' i).length < indirectBlockChildren ∧
    (writeAll = true → levels' i = [])
  root : writeAll = true → s.calls.length < s'.calls.length ∧ ∃ root, result.1 = some root ∧
    HasBelow s'.written (lowest + 1) root (Spine.joined levels' lowest) ∧
    (Spine.joined levels' lowest ≠ [] → Covers root.lbaRange (Spine.joined levels' lowest))

variable (writeAll : Bool) (placement : Placement kernel start s)
  (holds : LevelsHold s.written lowest indirect levels)
include placement holds

/-- `pushup_indirect_block`: after a leaf the full blocks are carried up, from the lowest level
on, and in the end all blocks that are not empty.  Nothing moves in what the levels hold. -/
theorem pushup_spec (within : level ≤ lowest) (ascends : Ascends (Spine.joined levels lowest))
    (few : ∀ i ≤ level, (levels i).length ≤ indirectBlockChildren)
    (room : ∀ i j, i < j → j ≤ level → levels j ≠ [] → (levels i).length < indirectBlockChildren)
    (started : writeAll = false → levels level ≠ [])
    (below : ∀ i, level < i → i ≤ lowest → (levels i).length < indirectBlockChildren ∧
      (writeAll = true → levels i = [])) :
    Assembles kernel start (Bit.pushupIndirectBlock kernel writeAll level indirect)
      (fun result s' => ∃ levels', CarriedUp writeAll lowest levels levels' s s' result) s := by
  have positive : 0 < indirectBlockChildren := by decide
  induction level generalizing s indirect levels with
  | zero =>
    obtain ⟨block, found, children⟩ := holds 0 within
    obtain ⟨lbaRange, isRange, covers⟩ := children.getLbaRange_ok
    refine .ok_bind (childAt_eq found) ?_
    split
    · have row : (levels 0).flatten <:+: Spine.joined levels lowest := Spine.flatten_infix within
      refine .ok_bind isRange (.seq (writebackBlock_indirect_holds placement children
        (few 0 le_rfl) (ascends.sublist row.sublist)) fun record s' assembled after => ?_)
      refine .ret assembled.placement ⟨levels, holds.mono assembled.grows.written, rfl,
        fun _ => rfl, below, fun all => ⟨after.2, _, rfl, ?_⟩⟩
      rw [Spine.joined_of_empty fun i above inside => (below i above inside).2 all]
      exact ⟨after.1 lbaRange, covers⟩
    · next partly =>
        refine .ret placement ⟨levels, holds, rfl, fun _ => rfl, below, fun all => ?_⟩
        rw [all] at partly
        exact absurd rfl partly
  | succ level ih =>
    obtain ⟨block, found, children⟩ := holds (level + 1) within
    have length := children.length
    rw [Bit.pushupIndirectBlock]
    refine .ok_bind (childAt_eq found) ?_
    split
    · next carried =>
      split
      · next empty =>
          have nothing : levels (level + 1) = [] := length_eq_zero_iff.mp (by omega)
          refine ih placement holds (by omega) ascends (fun i le => few i (by omega))
            (fun i j less le => room i j less (by omega))
            (fun some => absurd nothing (started some)) fun i less le => ?_
          by_cases here : i = level + 1
          · rw [here, nothing]
            exact ⟨positive, fun _ => rfl⟩
          · exact below i (by omega) le
      · next some' =>
          have nonempty : levels (level + 1) ≠ [] := by
            intro empty
            rw [empty] at length
            exact some' length
          have free : ∀ i ≤ level, (levels i).length < indirectBlockChildren := fun i le =>
            room i (level + 1) (by omega) le_rfl nonempty
          have joined := Spine.joined_collect levels (Nat.lt_of_succ_le within)
          -- above `level` nothing changes
          have kept : ∀ i < level, Spine.collect levels level i = levels i :=
            fun i less => Spine.collect_of_ne (by omega) (by omega)
          refine .seq (carryNode_spec placement holds within ascends found nonempty
            (few _ le_rfl) (free level le_rfl)) fun indirect' s' assembled holds' => ?_
          refine (ih assembled.placement holds' (by omega) (by rwa [joined]) ?_ ?_ ?_ ?_).mono
            fun result s'' _ after => ?_
          · intro i le
            rcases Nat.lt_or_eq_of_le le with less | rfl
            · rw [kept i less]
              exact (free i le).le
            · rw [Spine.collect_above, length_append, length_singleton]
              exact free i le
          · intro i j less le _
            rw [kept i (by omega)]
            exact free i (by omega)
          · intro _
            rw [Spine.collect_above]
            exact append_ne_nil_of_right_ne_nil _ (cons_ne_nil _ _)
          · intro i less le
            by_cases here : i = level + 1
            · rw [here, Spine.collect_emptied]
              exact ⟨positive, fun _ => rfl⟩
            · rw [Spine.collect_of_ne (by omega) here]
              exact below i (by omega) le
          · obtain ⟨levels', pushed⟩ := after
            refine ⟨levels', pushed.holds, pushed.joined.trans joined,
              fun some => (pushed.weight some).trans ?_, pushed.settled, fun all => ?_⟩
            · refine Spine.weight_collect (Nat.lt_of_succ_le within) ?_
              rw [← length]
              rw [some] at carried
              exact beq_iff_eq.mp carried
            · exact ⟨Nat.lt_of_le_of_lt assembled.logged.calls.length_le (pushed.root all).1,
                (pushed.root all).2⟩
    · next partly =>
        have notAll : writeAll = false := by
          cases writeAll with
          | false => rfl
          | true => exact absurd rfl partly
        subst notAll
        refine .ret placement ⟨levels, holds, rfl, fun _ => rfl, fun i above inside => ?_,
          fun all => by cases all⟩
        refine ⟨?_, fun all => by cases all⟩
        rcases Nat.lt_trichotomy i (level + 1) with less | rfl | more
        · exact room i _ less le_rfl (started rfl)
        · refine Nat.lt_of_le_of_ne (few _ le_rfl) fun same => partly ?_
          rw [Bool.false_or, IndirectBlock.isFull, length, same]
          exact beq_self_eq_true _
        · exact (below i more inside).1

theorem pushup_fits (ascends : Ascends (Spine.joined levels lowest))
    (fits : Spine.weight indirectBlockChildren levels lowest ≤ indirectBlockChildren ^ (lowest + 1))
    (settled : ∀ i, 0 < i → i < lowest → (levels i).length < indirectBlockChildren)
    (few : (levels lowest).length ≤ indirectBlockChildren)
    (started : writeAll = false → levels lowest ≠ []) :
    Assembles kernel start (Bit.pushupIndirectBlock kernel writeAll lowest indirect)
      (fun result s' => ∃ levels', CarriedUp writeAll lowest levels levels' s s' result) s := by
  have positive : 0 < indirectBlockChildren := by decide
  refine pushup_spec writeAll placement holds le_rfl ascends (fun i le => ?_)
    (fun i j less le nonempty => ?_) started fun i less le => absurd less (by omega)
  · rcases Nat.lt_or_eq_of_le le with less | rfl
    · rcases Nat.eq_zero_or_pos i with rfl | above
      · exact Spine.length_root_le positive fits
      · exact (settled i above less).le
    · exact few
  · rcases Nat.eq_zero_or_pos i with rfl | above
    · exact Spine.length_root_lt positive fits less le nonempty
    · exact settled i above (by omega)

end

/-! ## Trees under construction -/

/-- The levels of a tree under construction: the items of the leaves so far and the number of
leaves. -/
def Growing (written : List (Record × List UInt8)) (lowest : Nat) (indirect : Bit.IndirectLevels)
    (items : List α) (leaves : Nat) : Prop :=
  ∃ levels, LevelsHold written lowest indirect levels ∧ Spine.joined levels lowest = items ∧
    Spine.weight indirectBlockChildren levels lowest = leaves ∧
    ∀ i, 0 < i → i ≤ lowest → (levels i).length < indirectBlockChildren

/-- Push a leaf into the lowest indirect level and carry the full blocks up. -/
def Bit.pushLeaf (kernel : Kernel) (maxLevel : Nat) (child : IndirectRecord)
    (indirect : Bit.IndirectLevels) : IndexProgram Bit.IndirectLevels := do
  let block ← Program.ofExcept (childAt indirect (maxLevel - 2))
  let block ← Program.ofExcept (block.push child)
  let (_, indirect) ← pushupIndirectBlock kernel false (maxLevel - 2)
    (indirect.set (maxLevel - 2) block)
  return indirect

/-- What the last `pushup_indirect_block` leaves: the root, in memory and written, holds all
records. -/
structure RootHeld (written : List (Record × List UInt8)) (lowest : Nat)
    (records : List α) (result : Option IndirectRecord × Bit.IndirectLevels) : Prop where
  stored : ∃ root, result.1 = some root ∧ HasBelow written (lowest + 1) root records ∧
    (records ≠ [] → Covers root.lbaRange records)
  memory : ∃ block parts, result.2[0]? = some block ∧ ChildrenBelow written lowest block parts ∧
    parts.flatten = records

section

variable {leaves : Nat} {items : List α}

theorem growing_empty (written : List (Record × List UInt8)) (inside : lowest < bitMaxLevel) :
    Growing written lowest Bit.emptyLevels ([] : List α) 0 := by
  have positive : 0 < indirectBlockChildren := by decide
  refine ⟨fun _ => [], ?_, Spine.joined_of_empty fun _ _ _ => rfl, ?_, fun _ _ _ => positive⟩
  · intro i within
    refine ⟨IndirectBlock.default, ?_, childrenBelow_default _ _⟩
    exact getElem?_replicate_of_lt (by omega)
  · clear inside
    induction lowest with
    | zero => rfl
    | succ lowest ih => rw [Spine.weight, ih, Nat.zero_mul]; rfl

theorem Growing.mono {written written' : List (Record × List UInt8)} (more : written <+: written')
    (growing : Growing written lowest indirect items leaves) :
    Growing written' lowest indirect items leaves := by
  obtain ⟨levels, holds, rest⟩ := growing
  exact ⟨levels, holds.mono more, rest⟩

variable (placement : Placement kernel start s)
  (growing : Growing s.written lowest indirect items leaves)
include placement growing

theorem pushLeaf_growing (room : leaves + 1 ≤ indirectBlockChildren ^ (lowest + 1))
    {child : IndirectRecord} {part : List α} (leaf : LeafItem.Leaf s.written child part)
    (covers : Covers child.lbaRange part) (ascends : Ascends (items ++ part)) :
    Assembles kernel start (Bit.pushLeaf kernel (lowest + 2) child indirect)
      (fun indirect' s' =>
        Growing s'.written lowest indirect' (items ++ part) (leaves + 1)) s := by
  obtain ⟨levels, holds, rfl, rfl, settled⟩ := growing
  obtain ⟨block, found, children⟩ := holds lowest le_rfl
  rw [Nat.sub_self] at children
  have lowestRoom : (levels lowest).length < indirectBlockChildren := by
    cases lowest with
    | zero => simpa [Spine.weight] using room
    | succ lowest => exact settled (lowest + 1) (by omega) le_rfl
  have row : (levels lowest).flatten ++ part <:+: Spine.joined levels lowest ++ part := by
    rw [← Spine.joined_add]
    have inner : (Spine.add levels lowest part lowest).flatten <:+:
        Spine.joined (Spine.add levels lowest part) lowest := Spine.flatten_infix le_rfl
    simpa using inner
  obtain ⟨block', pushed, grown⟩ := children.push lowestRoom child
    (ascends.sublist row.sublist) covers leaf
  have added : LevelsHold s.written lowest (indirect.set lowest block')
      (Spine.add levels lowest part) :=
    holds.set le_rfl (by rwa [Nat.sub_self])
  have joined := Spine.joined_add levels lowest part
  have weight := Spine.weight_add indirectBlockChildren levels lowest part
  refine .ok_bind (childAt_eq found) (.ok_bind pushed ?_)
  rw [Nat.add_sub_cancel]
  refine .seq (pushup_fits false placement added (by rwa [joined]) (by rwa [weight]) ?_ ?_ ?_)
    fun result s' assembled after => ?_
  · intro i above less
    rw [Spine.add_of_ne (by omega)]
    exact settled i above (by omega)
  · rw [Spine.add_self, length_append, length_singleton]
    exact lowestRoom
  · simp
  · obtain ⟨levels', pushed⟩ := after
    exact .ret assembled.placement ⟨levels', pushed.holds, pushed.joined.trans joined,
      (pushed.weight rfl).trans weight, fun i above inside => (pushed.settled i above inside).1⟩

/-- The last `pushup_indirect_block` leaves the whole tree below the root, in memory and
written. -/
theorem pushup_growing (fits : leaves ≤ indirectBlockChildren ^ (lowest + 1))
    (ascends : Ascends items) :
    Assembles kernel start (Bit.pushupIndirectBlock kernel true lowest indirect)
      (fun result s' => s.calls.length < s'.calls.length ∧
        RootHeld s'.written lowest items result) s := by
  obtain ⟨levels, holds, rfl, rfl, settled⟩ := growing
  refine (pushup_fits true placement holds ascends fits
    (fun i above less => settled i above less.le) ?_ fun some => by cases some).mono
    fun result s' _ after => ?_
  · cases lowest with
    | zero => exact Spine.length_root_le (by decide) fits
    | succ lowest => exact (settled (lowest + 1) (by omega) le_rfl).le
  · obtain ⟨levels', pushed⟩ := after
    obtain ⟨called, root, isRoot, stored, covers⟩ := pushed.root rfl
    obtain ⟨block, found, children⟩ := pushed.holds 0 (Nat.zero_le _)
    rw [pushed.joined] at stored covers
    refine ⟨called, ⟨root, isRoot, stored, covers⟩, block, levels' 0, found, children, ?_⟩
    rw [← pushed.joined, Spine.joined_of_empty fun i above le => (pushed.settled i above le).2 rfl]

end

/-! ## Trees of leaf records -/

/-- Below the lowest level stand the records that were pushed, whatever they lead to. -/
instance : LeafItem IndirectRecord where
  lbas := IndirectRecord.lbaRange
  Words := IndirectRecord.Words
  Leaf _ child part := part = [child]
  mono _ leaf := leaf
  words words := ⟨words.first, words.last⟩
  hba _ leaf words := (words _ (leaf ▸ mem_singleton_self _)).hba

def Bit.assemble (kernel : Kernel) (maxLevel : Nat) (leaves : List IndirectRecord) :
    IndexProgram (Option IndirectRecord × Bit.IndirectLevels) := do
  let indirect ← leaves.foldlM (fun indirect leaf => pushLeaf kernel maxLevel leaf indirect)
    emptyLevels
  pushupIndirectBlock kernel true (maxLevel - 2) indirect

theorem foldlM_pushLeaf_growing {kernel : Kernel} {start lowest : Nat} {s : IndexStore}
    {indirect : Bit.IndirectLevels} {done rest : List IndirectRecord}
    (placement : Placement kernel start s)
    (growing : Growing s.written lowest indirect done done.length)
    (few : (done ++ rest).length ≤ indirectBlockChildren ^ (lowest + 1))
    (ascends : Ascends (done ++ rest)) :
    Assembles kernel start
      (rest.foldlM (fun indirect leaf => Bit.pushLeaf kernel (lowest + 2) leaf indirect) indirect)
      (fun indirect' s' =>
        Growing s'.written lowest indirect' (done ++ rest) (done ++ rest).length) s := by
  induction rest generalizing s indirect done with
  | nil =>
    rw [append_nil]
    exact .ret placement growing
  | cons leaf rest ih =>
    rw [append_cons] at few ascends ⊢
    rw [foldlM_cons]
    have one : LeafItem.Leaf s.written leaf [leaf] := rfl
    have room : done.length + 1 ≤ indirectBlockChildren ^ (lowest + 1) := by
      rw [length_append, length_append, length_singleton] at few
      omega
    refine .seq (pushLeaf_growing placement growing room one ⟨rfl, rfl⟩
      (ascends.sublist (sublist_append_left _ _))) fun indirect' s' assembled grown => ?_
    exact ih assembled.placement (by rwa [length_append]) few ascends

/-! ## Levels -/

theorem lt_pow_extraLevels {fuel blocks : Nat} (enough : blocks ≤ fuel) :
    blocks < indirectBlockChildren ^ extraLevels fuel blocks := by
  induction fuel generalizing blocks with
  | zero =>
    obtain rfl : blocks = 0 := by omega
    exact Nat.pow_pos (by decide)
  | succ fuel ih =>
    unfold extraLevels
    split
    · have smaller : blocks / indirectBlockChildren ≤ fuel := by
        unfold indirectBlockChildren
        omega
      rw [pow_succ]
      exact (Nat.div_lt_iff_lt_mul (by decide)).mp (ih smaller)
    · obtain rfl : blocks = 0 := by omega
      exact Nat.pow_pos (by decide)

theorem size_lt_capacity (size : Nat) :
    size < leafBlockChildren * indirectBlockChildren ^ (maxLevelFor size - 2 + 1) := by
  have blocks := lt_pow_extraLevels (le_refl (size / leafBlockChildren / indirectBlockChildren))
  have leaves := (Nat.div_lt_iff_lt_mul (by decide)).mp blocks
  have records := (Nat.div_lt_iff_lt_mul (by decide)).mp leaves
  unfold maxLevelFor
  rw [Nat.add_sub_cancel_left, pow_succ, Nat.mul_comm]
  exact records

theorem leafBlocks_le_capacity (size : Nat) : (size + leafBlockChildren - 1) / leafBlockChildren ≤
    indirectBlockChildren ^ (maxLevelFor size - 1) := by
  have capacity := size_lt_capacity size
  have two : 2 ≤ maxLevelFor size := Nat.le_add_right _ _
  have level : maxLevelFor size - 2 + 1 = maxLevelFor size - 1 := by omega
  rw [level, Nat.mul_comm] at capacity
  refine Nat.le_of_lt_succ ((Nat.div_lt_iff_lt_mul (by decide)).mpr ?_)
  rw [Nat.succ_mul]
  omega

/-- Pushing at most as many leaf records as the levels are made for trips no assertion, and the
root that comes out has them all below it, in order.  The level that `from_memtable` computes is
made for the leaf blocks of its records. -/
theorem assembled_tree_complete {kernel : Kernel} {start maxLevel : Nat} {s : IndexStore}
    {leaves : List IndirectRecord} (placement : Placement kernel start s) (two : 2 ≤ maxLevel)
    (most : maxLevel ≤ bitMaxLevel)
    (few : leaves.length ≤ indirectBlockChildren ^ (maxLevel - 1)) (ascends : Ascends leaves) :
    Assembles kernel start (Bit.assemble kernel maxLevel leaves)
      (fun result s' => ∃ root, result.1 = some root ∧
        HasBelow s'.written (maxLevel - 1) root leaves ∧
        (leaves ≠ [] → Covers root.lbaRange leaves)) s ∧
    ∀ size, (size + leafBlockChildren - 1) / leafBlockChildren ≤
      indirectBlockChildren ^ (maxLevelFor size - 1) := by
  refine ⟨?_, leafBlocks_le_capacity⟩
  obtain ⟨lowest, rfl⟩ := Nat.exists_eq_add_of_le' two
  refine .seq (foldlM_pushLeaf_growing placement (growing_empty s.written (by omega)) few ascends)
    fun indirect s' assembled growing => ?_
  exact (pushup_growing assembled.placement growing few ascends).mono
    fun result s'' _ after => after.2.stored

def twoLeaves : List IndirectRecord := [⟨(0, 5), firstBlock⟩, ⟨(7, 7), firstBlock⟩]

theorem ascends_twoLeaves : Ascends twoLeaves where
  apart := by simp [twoLeaves, lbas]
  ranges := by simp [twoLeaves, lbas]
  words := by
    have hba : IsWord firstBlock.hba := by
      change segmentSectors < 2 ^ 64
      rw [segmentSectors_eq]
      decide
    intro leaf member
    simp only [twoLeaves, mem_cons, not_mem_nil, or_false] at member
    rcases member with rfl | rfl
    · exact ⟨by decide, by decide, hba⟩
    · exact ⟨by decide, by decide, hba⟩

theorem assembled_tree_complete_twoLeaves :
    Assembles plainKernel segmentSectors (Bit.assemble plainKernel 2 twoLeaves)
      (fun result _ => ∃ root, result.1 = some root ∧ root.lbaRange = (0, 7))
      (IndexStore.mount largeDevice 0) := by
  have placement := placement_mount plainKernel largeDevice 0
  have complete := assembled_tree_complete placement le_rfl (by decide) (by decide)
    ascends_twoLeaves
  -- the run is not to be evaluated
  generalize Bit.assemble plainKernel 2 twoLeaves = program at complete ⊢
  refine complete.1.mono fun result s' _ after => ?_
  obtain ⟨root, isRoot, -, covers⟩ := after
  have range := covers (cons_ne_nil _ _)
  exact ⟨root, isRoot, Prod.ext (Option.some.inj range.first).symm
    (Option.some.inj range.last).symm⟩

end SwornDisk.Rust
