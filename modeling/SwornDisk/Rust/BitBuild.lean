import SwornDisk.Rust.IndexSegment

/-!
# Construction of block index tables

`BIT::from_memtable` and `BIT::from_compaction`: records are collected in a leaf block,
and blocks that are full are written and handed to the block of the level above
(`pushup_indirect_block`).  A compaction merges the tables through `BITIterator`, which
reads their blocks directly and records the index of each child that it reads, with the count
of the block the child was taken from.
-/

namespace SwornDisk.Rust

open Lib

def bitMaxLevel : Nat := 5

/-- The rounds of the loop that computes `max_level`; `size` bounds their number. -/
def extraLevels : Nat → Nat → Nat
  | 0, _ => 0
  | fuel + 1, size =>
    if 0 < size then extraLevels fuel (size / indirectBlockChildren) + 1 else 0

/-- `max_level` for a table of `size` records. -/
def maxLevelFor (size : Nat) : Nat :=
  let blocks := size / leafBlockChildren / indirectBlockChildren
  2 + extraLevels blocks blocks

namespace Bit

abbrev IndirectLevels := List IndirectBlock

def emptyLevels : IndirectLevels := List.replicate bitMaxLevel IndirectBlock.default

/-- A round of `pushup_indirect_block`: a block is written and entered in the block above. -/
def carryNode (kernel : Kernel) (level : Nat) (block : IndirectBlock)
    (indirect : IndirectLevels) : IndexProgram IndirectLevels := do
  let lbaRange ← Program.ofExcept block.getLbaRange
  let record ← writebackBlock kernel block
  let parent ← Program.ofExcept (childAt indirect level)
  let parent ← Program.ofExcept (parent.push ⟨lbaRange, record⟩)
  return (indirect.set level parent).set (level + 1) IndirectBlock.default

/-- `BIT::pushup_indirect_block` from `level` up to the root. -/
def pushupIndirectBlock (kernel : Kernel) (writeAll : Bool) :
    Nat → IndirectLevels → IndexProgram (Option IndirectRecord × IndirectLevels)
  | 0, indirect => do
      let block ← Program.ofExcept (childAt indirect 0)
      if writeAll || block.isFull then
        let lbaRange ← Program.ofExcept block.getLbaRange
        let record ← writebackBlock kernel block
        return (some ⟨lbaRange, record⟩, indirect)
      else
        return (none, indirect)
  | level + 1, indirect => do
      let block ← Program.ofExcept (childAt indirect (level + 1))
      if writeAll || block.isFull then
        if block.count = 0 then
          pushupIndirectBlock kernel writeAll level indirect
        else
          let indirect ← carryNode kernel level block indirect
          pushupIndirectBlock kernel writeAll level indirect
      else
        return (none, indirect)

def writebackLeaf (kernel : Kernel) (maxLevel : Nat) (leaf : LeafBlock)
    (indirect : IndirectLevels) : IndexProgram IndirectLevels := do
  let lbaRange ← Program.ofExcept leaf.getLbaRange
  let record ← writebackBlock kernel leaf
  let block ← Program.ofExcept (childAt indirect (maxLevel - 2))
  let block ← Program.ofExcept (block.push ⟨lbaRange, record⟩)
  let (_, indirect) ← pushupIndirectBlock kernel false (maxLevel - 2)
    (indirect.set (maxLevel - 2) block)
  return indirect

def finish (kernel : Kernel) (maxLevel size : Nat) (indirect : IndirectLevels) :
    IndexProgram Bit := do
  let (root, indirect) ← pushupIndirectBlock kernel true (maxLevel - 2) indirect
  match root with
  | none => throw .panic
  | some record =>
    let block ← Program.ofExcept (childAt indirect 0)
    return { record := record, level := maxLevel, size := size, root := block }

/-- The loop of `from_memtable`; `index` counts the records so far. -/
def memtableLoop (kernel : Kernel) (maxLevel size : Nat) :
    List (Nat × Record) → Nat → LeafBlock → IndirectLevels → IndexProgram IndirectLevels
  | [], _, _, indirect => return indirect
  | (lba, record) :: rest, index, leaf, indirect => do
      let leaf ← Program.ofExcept (leaf.push ⟨lba, record⟩)
      if index + 1 = size || leaf.isFull then
        let indirect ← writebackLeaf kernel maxLevel leaf indirect
        memtableLoop kernel maxLevel size rest (index + 1) LeafBlock.default indirect
      else
        memtableLoop kernel maxLevel size rest (index + 1) leaf indirect

def fromMemtable (kernel : Kernel) (memtable : MemTable Record) : IndexProgram Bit := do
  let maxLevel := maxLevelFor memtable.size
  if bitMaxLevel ≤ maxLevel then
    throw (.error .enospc)
  else
    let indirect ← memtableLoop kernel maxLevel memtable.size memtable.inner.entries 0
      LeafBlock.default emptyLevels
    finish kernel maxLevel memtable.size indirect

/-- `list[index] = value` -/
def setAt {α : Type} (list : List α) (index : Nat) (value : α) : Except Fault (List α) :=
  if index < list.length then .ok (list.set index value) else .error .panic

end Bit

/-- A child that was read: its index and the count of its block. -/
structure ChildRead where
  child : Nat
  count : Nat

/-- `BITIterator` reads with a record of the children that it reads. -/
abbrev ReadProgram (α : Type) : Type := Program Fault (List ChildRead) α

def ReadProgram.outcome {α : Type} (prog : ReadProgram α) : Except Fault α := (prog.exec []).1

def ReadsInside (reads : List ChildRead) : Prop := ∀ read ∈ reads, read.child < read.count

/-- `BITIterator` -/
structure BitIterator where
  level : Nat
  hasNext : Bool
  index : List Nat
  blockStack : List IndirectBlock
  leafBlock : LeafBlock

namespace BitIterator

open Bit

def readChild {T : Type} [BlockFormat T] (kernel : Kernel) (metaDev : Device)
    (blockStack : List IndirectBlock) (level child : Nat) : ReadProgram T := do
  let block ← Program.ofExcept (childAt blockStack level)
  let reads ← get
  set (reads ++ [⟨child, block.count⟩])
  let indirect ← Program.ofExcept (childAt block.children child)
  Program.ofExcept (readBlockDirectly kernel metaDev indirect.record)

/-- The first block of each level, in `BITIterator::new`. -/
def firstBlocks (kernel : Kernel) (metaDev : Device) :
    List Nat → List IndirectBlock → ReadProgram (List IndirectBlock)
  | [], blockStack => return blockStack
  | i :: rest, blockStack => do
      let above ← Program.ofExcept (childAt blockStack (i - 1))
      if above.count = 0 then
        Program.ofExcept (.error (.error .einval))
      else
        let block ← readChild kernel metaDev blockStack (i - 1) 0
        let blockStack ← Program.ofExcept (setAt blockStack i block)
        firstBlocks kernel metaDev rest blockStack

def new (kernel : Kernel) (metaDev : Device) (bit : Bit) : ReadProgram BitIterator := do
  let index ← Program.ofExcept (setAt (List.replicate bitMaxLevel 1) (bit.level - 1) 0)
  let blockStack ← firstBlocks kernel metaDev (List.range' 1 (bit.level - 2))
    (emptyLevels.set 0 bit.root)
  let last ← Program.ofExcept (childAt blockStack (bit.level - 2))
  if last.count = 0 then
    Program.ofExcept (.error (.error .einval))
  else
    let leafBlock ← readChild kernel metaDev blockStack (bit.level - 2) 0
    return ⟨bit.level, true, index, blockStack, leafBlock⟩

/-- The `while` loop of `update_block_stack`, from `level` up. -/
def advanceStack (kernel : Kernel) (metaDev : Device) :
    Nat → BitIterator → ReadProgram BitIterator
  | 0, iterator => return iterator
  | level + 1, iterator => do
      let position ← Program.ofExcept (childAt iterator.index (level + 1))
      let block ← Program.ofExcept (childAt iterator.blockStack (level + 1))
      if position < block.count then
        return iterator
      else
        let above ← Program.ofExcept (childAt iterator.index level)
        let parent ← Program.ofExcept (childAt iterator.blockStack level)
        if level = 0 ∧ parent.count ≤ above then
          return { iterator with hasNext := false }
        else
          let next ← readChild kernel metaDev iterator.blockStack level above
          let blockStack ← Program.ofExcept (setAt iterator.blockStack (level + 1) next)
          let index := (iterator.index.set (level + 1) 0).set level (above + 1)
          advanceStack kernel metaDev level
            { iterator with blockStack := blockStack, index := index }

variable (kernel : Kernel) (metaDev : Device) (iterator : BitIterator)

def updateBlockStack : ReadProgram BitIterator := do
  let position ← Program.ofExcept (childAt iterator.index (iterator.level - 1))
  if position < iterator.leafBlock.count ∨ ¬ iterator.hasNext then
    return iterator
  else
    let above ← Program.ofExcept (childAt iterator.index (iterator.level - 2))
    let leafBlock ← readChild kernel metaDev iterator.blockStack (iterator.level - 2) above
    let index := (iterator.index.set (iterator.level - 1) 0).set (iterator.level - 2) (above + 1)
    advanceStack kernel metaDev (iterator.level - 2)
      { iterator with leafBlock := leafBlock, index := index }

/-- `next` behind `update_block_stack`. -/
def takeItem : ReadProgram (Option LeafRecord × BitIterator) := do
  let position ← Program.ofExcept (childAt iterator.index (iterator.level - 1))
  if iterator.hasNext ∨ position < iterator.leafBlock.count then
    let item ← Program.ofExcept (childAt iterator.leafBlock.children position)
    return (some item, { iterator with
      index := iterator.index.set (iterator.level - 1) (position + 1) })
  else
    return (none, iterator)

def next : ReadProgram (Option LeafRecord × BitIterator) :=
  iterator.updateBlockStack kernel metaDev >>= takeItem

/-- The results of `count` calls of `next`. -/
def nextTimes (kernel : Kernel) (metaDev : Device) :
    Nat → BitIterator → ReadProgram (List (Option LeafRecord) × BitIterator)
  | 0, iterator => return ([], iterator)
  | count + 1, iterator => do
      let (items, iterator) ← nextTimes kernel metaDev count iterator
      let (item, iterator) ← iterator.next kernel metaDev
      return (items ++ [item], iterator)

end BitIterator

namespace Bit

/-- The least record among the current ones, the last of equal ones, and the tables whose
current record has its address. -/
structure Baseline where
  record : LeafRecord
  duplicates : List Nat

def pickNode (baseline : Option Baseline) (i : Nat) : Option LeafRecord → Option Baseline
  | none => baseline
  | some node =>
    match baseline with
    | none => some ⟨node, [i]⟩
    | some least =>
      if node.lba < least.record.lba then some ⟨node, [i]⟩
      else if node.lba = least.record.lba then some ⟨node, least.duplicates ++ [i]⟩
      else some least

def findBaseline : List (Option LeafRecord) → Nat → Option Baseline → Option Baseline
  | [], _, baseline => baseline
  | node :: rest, i, baseline => findBaseline rest (i + 1) (pickNode baseline i node)

/-- The loop that moves the iterators in `duplicates`. -/
def advanceNodes (kernel : Kernel) (metaDev : Device) :
    List Nat → List BitIterator → List (Option LeafRecord) →
      Except Fault (List BitIterator × List (Option LeafRecord))
  | [], iterators, nodes => .ok (iterators, nodes)
  | i :: rest, iterators, nodes => do
      let iterator ← childAt iterators i
      let (node, iterator) ← (iterator.next kernel metaDev).outcome
      advanceNodes kernel metaDev rest (iterators.set i iterator) (nodes.set i node)

/-- The merge loop, for `fuel` rounds; `none` if it is not done by then.  Returns the
number of records and the indirect levels. -/
def mergeLoop (kernel : Kernel) (maxLevel : Nat) :
    Nat → List BitIterator → List (Option LeafRecord) → Nat → LeafBlock → IndirectLevels →
      IndexProgram (Option (Nat × IndirectLevels))
  | 0, _, _, _, _, _ => return none
  | fuel + 1, iterators, nodes, realSize, leaf, indirect => do
      match findBaseline nodes 0 none with
      | none =>
        let indirect ← writebackLeaf kernel maxLevel leaf indirect
        return some (realSize, indirect)
      | some baseline =>
        let leaf ← Program.ofExcept (leaf.push baseline.record)
        if leaf.isFull then
          let indirect ← writebackLeaf kernel maxLevel leaf indirect
          let s ← get
          let (iterators, nodes) ← Program.ofExcept
            (advanceNodes kernel s.metaDev baseline.duplicates iterators nodes)
          mergeLoop kernel maxLevel fuel iterators nodes (realSize + 1) LeafBlock.default indirect
        else
          let s ← get
          let (iterators, nodes) ← Program.ofExcept
            (advanceNodes kernel s.metaDev baseline.duplicates iterators nodes)
          mergeLoop kernel maxLevel fuel iterators nodes (realSize + 1) leaf indirect

def firstNodes (kernel : Kernel) (metaDev : Device) :
    List BitIterator → Except Fault (List BitIterator × List (Option LeafRecord))
  | [] => .ok ([], [])
  | iterator :: rest => do
      let (node, iterator) ← (iterator.next kernel metaDev).outcome
      let (iterators, nodes) ← firstNodes kernel metaDev rest
      return (iterator :: iterators, node :: nodes)

def fromCompaction (kernel : Kernel) (fuel : Nat) (bits : List Bit) :
    IndexProgram (Option Bit) := do
  let s ← get
  let iterators ← Program.ofExcept (bits.mapM fun bit =>
    (BitIterator.new kernel s.metaDev bit).outcome)
  let maxLevel := maxLevelFor (bits.map fun bit => bit.size).sum
  let (iterators, nodes) ← Program.ofExcept (firstNodes kernel s.metaDev iterators)
  let merged ← mergeLoop kernel maxLevel fuel iterators nodes 0 LeafBlock.default emptyLevels
  match merged with
  | none => return none
  | some (realSize, indirect) =>
    let bit ← finish kernel maxLevel realSize indirect
    return some bit

section

variable (kernel : Kernel) (metaDev : Device) (bit : Bit) (count : Nat)

/-- `BIT::iter` and `count` calls of `next`. -/
def iterateRecorded : ReadProgram (List (Option LeafRecord)) := do
  let iterator ← BitIterator.new kernel metaDev bit
  let (items, _) ← iterator.nextTimes kernel metaDev count
  return items

def iterate : Except Fault (List (Option LeafRecord)) :=
  (bit.iterateRecorded kernel metaDev count).outcome

end

end Bit

end SwornDisk.Rust
