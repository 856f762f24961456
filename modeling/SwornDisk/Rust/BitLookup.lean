import SwornDisk.Rust.BitBuild

/-!
# Lookup in block index tables

`BIT::find_record` with its two binary searches, and the walk of
`IoWorker::handle_read_request` over the tables of the category.  A search that reaches
the child with index 0 ends there.
-/

namespace SwornDisk.Rust

open Lib

/-- The loop of both binary searches, with bounds `left` and `right` inclusive. -/
def searchLoop {α : Type} (compare : α → Ordering) (children : List α) :
    Nat → Nat → Nat → Except Fault (Option α)
  | 0, _, _ => .ok none
  | fuel + 1, left, right =>
    if left ≤ right then do
      let mid := (left + right) / 2
      let child ← childAt children mid
      match compare child with
      | .eq => return some child
      | .lt => if mid = 0 then return none else searchLoop compare children fuel left (mid - 1)
      | .gt => if mid = 0 then return none else searchLoop compare children fuel (mid + 1) right
    else .ok none

/-- A binary search over the first `count` children; `count - 1` underflows for an empty
block. -/
def binarySearch {α : Type} (compare : α → Ordering) (children : List α) (count : Nat) :
    Except Fault (Option α) :=
  if count = 0 then .error .panic else searchLoop compare children count 0 (count - 1)

namespace Bit

def findRecordInLeafblock (leafblock : LeafBlock) (lba : Nat) : Except Fault (Option Record) := do
  let found ← binarySearch (fun child => compare lba child.lba) leafblock.children leafblock.count
  return found.map LeafRecord.record

/-- Where an address is relative to the range of an indirect record. -/
def compareRange (lba : Nat) (child : IndirectRecord) : Ordering :=
  if child.lbaRange.1 ≤ lba ∧ lba ≤ child.lbaRange.2 then .eq
  else if lba < child.lbaRange.1 then .lt
  else .gt

def findIndirectRecord (block : IndirectBlock) (lba : Nat) : Except Fault (Option IndirectRecord) :=
  binarySearch (compareRange lba) block.children block.count

/-- The traversal of the indirect levels in `find_record`. -/
def traverse (kernel : Kernel) (lba : Nat) :
    Nat → IndirectBlock → IndexProgram (Option IndirectBlock)
  | 0, block => return some block
  | level + 1, block => do
      match ← Program.ofExcept (findIndirectRecord block lba) with
      | none => return none
      | some child =>
        let next ← readBlock kernel child.record
        traverse kernel lba level next

def findRecord (kernel : Kernel) (bit : Bit) (lba : Nat) : IndexProgram (Option Record) := do
  let lbaRange ← Program.ofExcept bit.root.getLbaRange
  if lba < lbaRange.1 ∨ lbaRange.2 < lba then
    return none
  else
    match ← traverse kernel lba (bit.level - 2) bit.root with
    | none => return none
    | some block =>
      match ← Program.ofExcept (findIndirectRecord block lba) with
      | none => return none
      | some child =>
        let leaf : LeafBlock ← readBlock kernel child.record
        Program.ofExcept (findRecordInLeafblock leaf lba)

end Bit

def BitRootMeta.contains (rootMeta : BitRootMeta BitInfo) (lba : Nat) : Bool :=
  rootMeta.bit.record.lbaRange.1 ≤ lba ∧ lba ≤ rootMeta.bit.record.lbaRange.2

def findInTables (kernel : Kernel) (lba : Nat) :
    List (BitRootMeta BitInfo) → IndexProgram (Option Record)
  | [] => return none
  | rootMeta :: rest => do
      if rootMeta.contains lba then
        let bit ← rootMeta.readFromDisk kernel
        match ← bit.findRecord kernel lba with
        | some record => return some record
        | none => findInTables kernel lba rest
      else
        findInTables kernel lba rest

/-- The part of `handle_read_request` that looks an address up in the category. -/
def findInCategory (kernel : Kernel) (category : BitCategory BitInfo) (lba : Nat) :
    IndexProgram (Option Record) :=
  findInTables kernel lba ((List.range lsmTreeMaxLevel).flatMap category.iterLevel)

def readRoots (kernel : Kernel) : List (BitRootMeta BitInfo) → IndexProgram (List Bit)
  | [] => return []
  | rootMeta :: rest => do
      let bit ← rootMeta.readFromDisk kernel
      let bits ← readRoots kernel rest
      return bit :: bits

end SwornDisk.Rust
