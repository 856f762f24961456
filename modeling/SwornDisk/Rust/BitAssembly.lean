import SwornDisk.Rust.TreeAssembly

/-!
# Assembly of a block index table

What the blocks written for a table hold, record by record: the leaves of the tree are leaf
blocks.
-/

namespace SwornDisk.Rust

open Lib List

def Ordered (records : List LeafRecord) : Prop :=
  records.Pairwise fun left right => left.lba < right.lba

/-- The range reaches from the first to the last of some records. -/
structure Spans (lbaRange : Nat × Nat) (part : List LeafRecord) : Prop where
  first : part.head?.map LeafRecord.lba = some lbaRange.1
  last : part.getLast?.map LeafRecord.lba = some lbaRange.2

/-- The tree of the given height below a record holds these leaf records. -/
def Holds (written : List (Record × List UInt8)) : Nat → Record → List LeafRecord → Prop
  | 0, record, part => ∃ plain, ∃ leaf : LeafBlock, (record, plain) ∈ written ∧
      BlockFormat.deserialize plain = .ok leaf ∧ leaf.count ≤ leaf.children.length ∧
      leaf.children.take leaf.count = part
  | height + 1, record, part => ∃ plain, ∃ block : IndirectBlock, (record, plain) ∈ written ∧
      BlockFormat.deserialize plain = .ok block ∧ block.count ≤ block.children.length ∧
      ∃ parts, List.Forall₂ (fun child part =>
          Spans child.lbaRange part ∧ Holds written height child.record part)
        (block.children.take block.count) parts ∧ parts.flatten = part

structure ChildrenHold (written : List (Record × List UInt8)) (height : Nat)
    (block : IndirectBlock) (parts : List (List LeafRecord)) : Prop where
  count : block.count = block.children.length
  each : List.Forall₂ (fun child part =>
    Spans child.lbaRange part ∧ Holds written height child.record part) block.children parts

instance : LeafItem LeafRecord where
  lbas record := (record.lba, record.lba)
  Words := LeafRecord.Words
  Leaf written child part := Holds written 0 child.record part
  mono more holds := by
    obtain ⟨plain, leaf, here, stored⟩ := holds
    exact ⟨plain, leaf, more.subset here, stored⟩
  words words := ⟨words.lba, words.lba⟩
  hba placement holds _ := by
    obtain ⟨plain, -, here, -⟩ := holds
    exact Nat.lt_of_le_of_lt (Nat.le_of_add_right_le (placement.below here).2) placement.word

theorem Ordered.ascends {records : List LeafRecord} (ordered : Ordered records)
    (words : ∀ record ∈ records, record.Words) : Ascends records :=
  ⟨ordered, fun _ _ => le_rfl, words⟩

variable {part : List LeafRecord}

theorem Covers.spans {lbaRange : Nat × Nat} (covers : Covers lbaRange part) : Spans lbaRange part :=
  ⟨covers.first, covers.last⟩

theorem HasBelow.holds {written : List (Record × List UInt8)} {height : Nat}
    {child : IndirectRecord} (below : HasBelow written height child part) :
    Holds written height child.record part := by
  induction height generalizing child part with
  | zero => exact below
  | succ height ih =>
    obtain ⟨plain, block, here, stored, count, -, parts, each, joined⟩ := below
    exact ⟨plain, block, here, stored, count, parts,
      each.imp fun _ _ child => ⟨child.1.spans, ih child.2⟩, joined⟩

variable {leaf : LeafBlock}

/-- A table holds these records, below its root on the device and in memory. -/
structure TableHolds (written : List (Record × List UInt8)) (bit : Bit)
    (records : List LeafRecord) : Prop where
  stored : Holds written (bit.level - 1) bit.record.record records
  range : records ≠ [] → Spans bit.record.lbaRange records
  root : ∃ parts, ChildrenHold written (bit.level - 2) bit.root parts ∧ parts.flatten = records

theorem LeafBlock.getLbaRange_covers (count : leaf.count = leaf.children.length)
    (nonempty : leaf.children ≠ []) :
    ∃ lbaRange, leaf.getLbaRange = .ok lbaRange ∧ Covers lbaRange leaf.children := by
  have positive := length_pos_iff.mpr nonempty
  have head := getElem?_eq_getElem positive
  have lastIndex : leaf.children.length - 1 < leaf.children.length := by omega
  have last := getElem?_eq_getElem lastIndex
  refine ⟨(leaf.children[0].lba, leaf.children[leaf.children.length - 1].lba), ?_, ?_, ?_⟩
  · unfold LeafBlock.getLbaRange
    rw [if_neg (by omega), count, childAt_eq head, ok_bind, childAt_eq last]
    rfl
  · rw [head?_eq_getElem?, head]
    rfl
  · rw [getLast?_eq_getElem?, last]
    rfl

section

variable {kernel : Kernel} {start lowest leaves : Nat} {s : IndexStore}
  {indirect : Bit.IndirectLevels} {records : List LeafRecord}

variable (placement : Placement kernel start s)
include placement

theorem writebackBlock_leaf_holds (count : leaf.count = leaf.children.length)
    (few : leaf.children.length ≤ leafBlockChildren)
    (words : ∀ child ∈ leaf.children, child.Words) :
    Assembles kernel start (Bit.writebackBlock kernel leaf)
      (fun record s' => Holds s'.written 0 record leaf.children) s := by
  obtain ⟨bytes, back, stored, length, decoded, -, counted, same, -⟩ :=
    LeafBlock.stored count few words
  exact .ok_bind stored ((IndexSegment.write_assembled placement length).mono
    fun record s' _ after => ⟨bytes, back, after.1, decoded, counted, same⟩)

variable (growing : Growing s.written lowest indirect records leaves)
include growing

theorem writebackLeaf_growing (room : leaves + 1 ≤ indirectBlockChildren ^ (lowest + 1))
    (count : leaf.count = leaf.children.length) (nonempty : leaf.children ≠ [])
    (few : leaf.children.length ≤ leafBlockChildren)
    (ordered : Ordered (records ++ leaf.children))
    (words : ∀ record ∈ records ++ leaf.children, record.Words) :
    Assembles kernel start (Bit.writebackLeaf kernel (lowest + 2) leaf indirect)
      (fun indirect' s' =>
        Growing s'.written lowest indirect' (records ++ leaf.children) (leaves + 1)) s := by
  obtain ⟨lbaRange, range, covers⟩ := leaf.getLbaRange_covers count nonempty
  unfold Bit.writebackLeaf
  refine .ok_bind range (.seq (writebackBlock_leaf_holds placement count few fun child member =>
    words child (mem_append_right _ member)) fun record s' assembled leafHolds => ?_)
  exact pushLeaf_growing assembled.placement (growing.mono assembled.grows.written) room leafHolds
    covers (ordered.ascends words)

theorem finish_holds (fits : leaves ≤ indirectBlockChildren ^ (lowest + 1))
    (ordered : Ordered records) (words : ∀ record ∈ records, record.Words) (size : Nat) :
    Assembles kernel start (Bit.finish kernel (lowest + 2) size indirect)
      (fun bit s' => s.calls.length < s'.calls.length ∧
        TableHolds s'.written bit records ∧ bit.level = lowest + 2 ∧ bit.size = size) s := by
  refine .seq (pushup_growing placement growing fits (ordered.ascends words))
    fun result s' assembled after => ?_
  obtain ⟨found, indirect'⟩ := result
  obtain ⟨called, ⟨root, rfl, stored, covers⟩, block, parts, here, children, flat⟩ := after
  refine .ok_bind (childAt_eq here) (.ret assembled.placement ⟨called, ⟨stored.holds,
    fun nonempty => (covers nonempty).spans, parts, ⟨children.count, ?_⟩, flat⟩, rfl, rfl⟩)
  exact children.each.imp fun _ _ child => ⟨child.1.spans, child.2.holds⟩

end

end SwornDisk.Rust
