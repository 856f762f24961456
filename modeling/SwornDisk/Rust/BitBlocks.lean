import SwornDisk.Rust.Serialize

/-!
# Blocks of a block index table

`LeafBlock` and `IndirectBlock` of `regions/index/bit.rs`: how they are filled, stored in
one block of the index region, and searched.  A stored block always decodes to a full
vector of children, of which `count` are meant.
-/

namespace SwornDisk.Rust

open Lib List Option

/-- `LeafRecord` -/
structure LeafRecord where
  lba : Nat
  record : Record
deriving DecidableEq

/-- `LeafBlock` -/
structure LeafBlock where
  count : Nat
  children : List LeafRecord
deriving DecidableEq

/-- `IndirectBlock` -/
structure IndirectBlock where
  count : Nat
  children : List IndirectRecord
deriving DecidableEq

def leafRecordSize : Nat := 64

def leafBlockChildren : Nat := 63

def indirectBlockChildren : Nat := 56

def LeafBlock.default : LeafBlock := ⟨0, []⟩

def IndirectBlock.default : IndirectBlock := ⟨0, []⟩

/-- `children[index]` -/
def childAt {α : Type} (children : List α) (index : Nat) : Except Fault α :=
  match children[index]? with
  | some child => .ok child
  | none => .error .panic

/-- `assert_eq!(condition, true)` -/
def assertTrue (condition : Bool) : Except Fault Unit :=
  if condition then .ok () else .error .panic

namespace LeafBlock

variable (block : LeafBlock)

def getLbaRange : Except Fault (Nat × Nat) :=
  if block.count = 0 then .ok (u64Max, 0)
  else do
    let first ← childAt block.children 0
    let last ← childAt block.children (block.count - 1)
    return (first.lba, last.lba)

def isFull : Bool :=
  block.count == leafBlockChildren

/-- The order that `push` asserts. -/
def checkOrder (record : LeafRecord) : Except Fault Unit :=
  if 0 < block.count then do
    let last ← childAt block.children (block.count - 1)
    assertTrue (last.lba ≤ record.lba)
  else .ok ()

def push (record : LeafRecord) : Except Fault LeafBlock := do
  block.checkOrder record
  assertTrue (block.count + 1 ≤ leafBlockChildren)
  return ⟨block.count + 1, block.children ++ [record]⟩

end LeafBlock

namespace IndirectBlock

variable (block : IndirectBlock)

def getLbaRange : Except Fault (Nat × Nat) :=
  if block.count = 0 then .ok (u64Max, 0)
  else do
    let first ← childAt block.children 0
    let last ← childAt block.children (block.count - 1)
    return (first.lbaRange.1, last.lbaRange.2)

def isFull : Bool :=
  block.count == indirectBlockChildren

/-- The order that `push` asserts. -/
def checkOrder (record : IndirectRecord) : Except Fault Unit :=
  if 0 < block.count then do
    let last ← childAt block.children (block.count - 1)
    assertTrue (last.lbaRange.2 ≤ record.lbaRange.1)
    assertTrue (record.lbaRange.1 ≤ record.lbaRange.2)
  else .ok ()

def push (record : IndirectRecord) : Except Fault IndirectBlock := do
  block.checkOrder record
  assertTrue (block.count + 1 ≤ indirectBlockChildren)
  return ⟨block.count + 1, block.children ++ [record]⟩

end IndirectBlock

/-- `Serialize` and `Deserialize` of a block type. -/
class BlockFormat (T : Type) where
  serialize : T → Except Fault (List UInt8)
  deserialize : List UInt8 → Except Fault T

def serializeBlock {α : Type} (serialize : α → List UInt8) (count : Nat) (children : List α) :
    Except Fault (List UInt8) := do
  let bytes := wordBytes count ++ children.flatMap serialize
  assertTrue (bytes.length ≤ blockSize)
  return resize blockSize bytes

def deserializeBlock {α : Type} (size capacity : Nat) (deserialize : List UInt8 → Except Fault α)
    (buffer : List UInt8) : Except Fault (Nat × List α) :=
  if buffer.length ≠ blockSize then .error (.error .einval)
  else do
    let count ← wordAt buffer 0
    let children ← (List.range capacity).mapM fun i => do
      deserialize (← sliceOf buffer (8 + i * size) (8 + i * size + size))
    return (count, children)

def LeafRecord.serialize (leaf : LeafRecord) : List UInt8 :=
  resize leafRecordSize (wordBytes leaf.lba ++ leaf.record.serialize)

def LeafRecord.deserialize (buffer : List UInt8) : Except Fault LeafRecord :=
  if buffer.length ≠ leafRecordSize then .error (.error .einval)
  else do
    let lba ← wordAt buffer 0
    let record ← Record.deserialize (← sliceOf buffer 8 (8 + recordSize))
    return ⟨lba, record⟩

instance : BlockFormat LeafBlock where
  serialize block := serializeBlock LeafRecord.serialize block.count block.children
  deserialize buffer := do
    let (count, children) ←
      deserializeBlock leafRecordSize leafBlockChildren LeafRecord.deserialize buffer
    return ⟨count, children⟩

instance : BlockFormat IndirectBlock where
  serialize block := serializeBlock IndirectRecord.serialize block.count block.children
  deserialize buffer := do
    let (count, children) ←
      deserializeBlock indirectRecordSize indirectBlockChildren IndirectRecord.deserialize buffer
    return ⟨count, children⟩

theorem assertTrue_bind {α : Type} {condition : Bool} {next : Unit → Except Fault α} {value : α}
    (passed : (assertTrue condition >>= next) = .ok value) :
    condition = true ∧ next () = .ok value := by
  cases condition with
  | true => exact ⟨rfl, passed⟩
  | false => cases passed

section

variable {α : Type} {size capacity : Nat} {serialize : α → List UInt8}
  {deserialize : List UInt8 → Except Fault α} {decoded : α → α} {blank : α}

/-- The children that a stored block decodes to: those that were stored, then blank ones. -/
def decodedChildren (decoded : α → α) (blank : α) (capacity : Nat) (children : List α) : List α :=
  (List.range capacity).map fun i => ((children[i]?).map decoded).getD blank

theorem getElem?_decodedChildren {children : List α} {i : Nat} {child : α}
    (found : children[i]? = some child) (inside : i < capacity) :
    (decodedChildren decoded blank capacity children)[i]? = some (decoded child) := by
  rw [decodedChildren, getElem?_map, getElem?_range inside, map_some, found]
  rfl

/-- A block with room for `capacity` children is read back, child by child. -/
theorem deserializeBlock_serializeBlock (sized : ∀ child, (serialize child).length = size)
    (zeros : deserialize (replicate size 0) = .ok blank)
    (fits : 8 + capacity * size ≤ blockSize) {count : Nat} {children : List α}
    (roundTrip : ∀ child ∈ children, deserialize (serialize child) = .ok (decoded child))
    {bytes : List UInt8} (stored : serializeBlock serialize count children = .ok bytes) :
    deserializeBlock size capacity deserialize bytes =
      .ok (count % 2 ^ 64, decodedChildren decoded blank capacity children) := by
  obtain ⟨short, resized⟩ := assertTrue_bind stored
  obtain rfl := Except.ok.inj resized
  have total : (children.flatMap serialize).length = children.length * size :=
    length_flatMap_of_sized fun child _ => sized child
  simp only [decide_eq_true_eq] at short
  have padded := resize_of_le short
  rw [length_append, length_wordBytes, total] at short padded
  have count' : wordAt (resize blockSize (wordBytes count ++ children.flatMap serialize)) 0 =
      .ok (count % 2 ^ 64) := by
    rw [padded, append_assoc]
    exact wordAt_hasAt_mod (HasAt.front _ _)
  have each : ∀ i ∈ range capacity, (do
      deserialize (← sliceOf (resize blockSize (wordBytes count ++ children.flatMap serialize))
        (8 + i * size) (8 + i * size + size))) =
        .ok (((children[i]?).map decoded).getD blank) := by
    intro i member
    rw [mem_range] at member
    rw [padded]
    cases found : children[i]? with
    | some child =>
      have part := hasAt_flatMap (fun child _ => sized child) found
      rw [sliceOf_hasAt ((part.append_left _ (by rw [length_wordBytes])).append_right _)
        (by rw [sized]), ok_bind, roundTrip child (mem_of_getElem? found)]
      rfl
    | none =>
      obtain ⟨gap, rfl⟩ := Nat.exists_eq_add_of_le (List.getElem?_eq_none_iff.mp found)
      have below := Nat.mul_le_mul_right size (Nat.succ_le_of_lt member)
      rw [Nat.succ_mul, Nat.add_mul] at below
      have blanks := hasAt_replicate (0 : UInt8)
        (show gap * size + size ≤ blockSize - (8 + children.length * size) by omega)
      rw [sliceOf_hasAt (blanks.append_left _ ?_) (by rw [length_replicate]), ok_bind, zeros]
      · rfl
      · rw [length_append, length_wordBytes, total, Nat.add_mul, Nat.add_assoc]
  unfold deserializeBlock
  rw [if_neg (not_not.mpr (length_resize ..)), count', ok_bind, mapM_ok each, ok_bind]
  rfl

theorem decodedChildren_eq {children : List α} (few : children.length ≤ capacity)
    (same : ∀ child ∈ children, decoded child = child) :
    decodedChildren decoded blank capacity children =
      children ++ replicate (capacity - children.length) blank := by
  refine ext_getElem? fun i => ?_
  rw [decodedChildren, getElem?_map, getElem?_append, getElem?_replicate]
  by_cases inside : i < children.length
  · rw [getElem?_range (by omega), map_some, if_pos inside,
      getElem?_eq_getElem inside, map_some, getD_some,
      same _ (getElem_mem inside)]
  · have missing : children[i]? = none := getElem?_eq_none (not_lt.mp inside)
    rw [if_neg inside]
    by_cases below : i < capacity
    · rw [getElem?_range below, map_some, missing, if_pos (by omega)]
      rfl
    · rw [getElem?_eq_none (by rw [length_range]; omega), if_neg (by omega)]
      rfl

/-- A block whose children are read back as they are is stored and read back, followed by blank
children, and what was read is stored as the same bytes. -/
theorem serializeBlock_stored (sized : ∀ child, (serialize child).length = size)
    (zeros : deserialize (replicate size 0) = .ok blank)
    (zeroed : serialize blank = replicate size 0)
    (fits : 8 + capacity * size ≤ blockSize) {children : List α}
    (few : children.length ≤ capacity) (small : capacity < 2 ^ 64)
    (roundTrip : ∀ child ∈ children, deserialize (serialize child) = .ok child) :
    ∃ bytes stored, serializeBlock serialize children.length children = .ok bytes ∧
      bytes.length = blockSize ∧
      deserializeBlock size capacity deserialize bytes = .ok (children.length, stored) ∧
      stored.length = capacity ∧ stored.take children.length = children ∧
      serializeBlock serialize children.length stored = .ok bytes := by
  have serialized : ∀ stored : List α, stored.length ≤ capacity →
      serializeBlock serialize children.length stored =
        .ok (resize blockSize (wordBytes children.length ++ stored.flatMap serialize)) ∧
      resize blockSize (wordBytes children.length ++ stored.flatMap serialize) =
        wordBytes children.length ++ stored.flatMap serialize ++
          replicate (blockSize - (8 + stored.length * size)) 0 := by
    intro stored short
    have total : (stored.flatMap serialize).length = stored.length * size :=
      length_flatMap_of_sized fun child _ => sized child
    have scaled := Nat.mul_le_mul_right size short
    have length : (wordBytes children.length ++ stored.flatMap serialize).length =
        8 + stored.length * size := by
      rw [length_append, length_wordBytes, total]
    have within : (wordBytes children.length ++ stored.flatMap serialize).length ≤ blockSize := by
      omega
    refine ⟨?_, (resize_of_le within).trans (by rw [length])⟩
    unfold serializeBlock
    simp only [assertTrue, decide_eq_true within]
    rfl
  obtain ⟨bytes, padded⟩ := serialized children few
  have decoded := deserializeBlock_serializeBlock sized zeros fits roundTrip bytes
  rw [Nat.mod_eq_of_lt (by omega), decodedChildren_eq few fun _ _ => rfl] at decoded
  have length : (children ++ replicate (capacity - children.length) blank).length =
      capacity := by
    rw [length_append, length_replicate]
    omega
  obtain ⟨again, paddedAgain⟩ := serialized _ length.le
  refine ⟨_, _, bytes, length_resize .., decoded, length, take_left, ?_⟩
  -- The blank children are zeros, as is the rest of the block.
  have blanks : (replicate (capacity - children.length) blank).flatMap serialize =
      replicate ((capacity - children.length) * size) 0 := by
    rw [flatMap_replicate, zeroed, flatten_replicate_replicate]
  have scaled := Nat.mul_le_mul_right size few
  rw [again, paddedAgain, padded, length, flatMap_append, blanks, ← append_assoc,
    append_assoc (wordBytes children.length ++ children.flatMap serialize),
    replicate_append_replicate, Nat.sub_mul]
  congr 3
  omega

end

/-- `bytes` is one block that stands for `block`: it is read back up to the count, and what was
read is stored as the same bytes. -/
structure Stored {T α : Type} [BlockFormat T] (count : T → Nat) (children : T → List α)
    (block : T) (bytes : List UInt8) (back : T) : Prop where
  serialized : BlockFormat.serialize block = .ok bytes
  length : bytes.length = blockSize
  decoded : BlockFormat.deserialize bytes = .ok back
  count_eq : count back = count block
  inside : count back ≤ (children back).length
  same : (children back).take (count back) = children block
  again : BlockFormat.serialize back = .ok bytes

def IndirectRecord.decoded (indirect : IndirectRecord) : IndirectRecord :=
  ⟨(indirect.lbaRange.1 % 2 ^ 64, indirect.lbaRange.2 % 2 ^ 64), indirect.record⟩

def IndirectRecord.blank : IndirectRecord :=
  ⟨(0, 0), 0, Vector.replicate 16 0, Vector.replicate 12 0, Vector.replicate 16 0⟩

theorem indirectBlock_fits : 8 + indirectBlockChildren * indirectRecordSize ≤ blockSize := by
  unfold blockSize
  decide

theorem IndirectRecord.deserialize_zeros :
    deserialize (replicate indirectRecordSize 0) = .ok blank := by
  decide +kernel

theorem IndirectBlock.deserialize_serialize {block : IndirectBlock} {bytes : List UInt8}
    (words : ∀ child ∈ block.children, IsWord child.record.hba)
    (stored : BlockFormat.serialize block = .ok bytes) :
    BlockFormat.deserialize bytes = Except.ok (IndirectBlock.mk (block.count % 2 ^ 64)
      (decodedChildren IndirectRecord.decoded IndirectRecord.blank indirectBlockChildren
        block.children)) := by
  have decoded := deserializeBlock_serializeBlock IndirectRecord.length_serialize
    IndirectRecord.deserialize_zeros indirectBlock_fits
    (fun child member => IndirectRecord.deserialize_serialize_mod (words child member)) stored
  change (deserializeBlock indirectRecordSize indirectBlockChildren IndirectRecord.deserialize bytes
    >>= _) = _
  rw [decoded]
  rfl

theorem IndirectBlock.stored {block : IndirectBlock} (count : block.count = block.children.length)
    (few : block.children.length ≤ indirectBlockChildren)
    (words : ∀ child ∈ block.children, child.Words) :
    ∃ bytes back, Stored IndirectBlock.count IndirectBlock.children block bytes back := by
  obtain ⟨bytes, children, stored, length, decoded, capacity, same, again⟩ :=
    serializeBlock_stored IndirectRecord.length_serialize IndirectRecord.deserialize_zeros
      (by decide +kernel) indirectBlock_fits few (by decide)
      fun child member => IndirectRecord.deserialize_serialize (words child member)
  refine ⟨bytes, ⟨block.children.length, children⟩, ?_, length, ?_, count.symm,
    few.trans_eq capacity.symm, same, again⟩
  · change serializeBlock IndirectRecord.serialize block.count block.children = .ok bytes
    rw [count, stored]
  · change (deserializeBlock indirectRecordSize indirectBlockChildren IndirectRecord.deserialize
      bytes >>= _) = _
    rw [decoded]
    rfl

structure LeafRecord.Words (leaf : LeafRecord) : Prop where
  lba : IsWord leaf.lba
  hba : IsWord leaf.record.hba

def LeafRecord.blank : LeafRecord :=
  ⟨0, 0, Vector.replicate 16 0, Vector.replicate 12 0, Vector.replicate 16 0⟩

theorem LeafRecord.length_serialize (leaf : LeafRecord) :
    leaf.serialize.length = leafRecordSize := length_resize ..

theorem LeafRecord.deserialize_serialize {leaf : LeafRecord} (words : leaf.Words) :
    deserialize leaf.serialize = .ok leaf := by
  have sized := leaf.length_serialize
  have stands : HasAt leaf.serialize 0 (wordBytes leaf.lba ++ leaf.record.serialize) := by
    unfold serialize
    rw [resize_of_le (by simp [recordSize, leafRecordSize])]
    exact HasAt.front _ _
  have recordOn := stands.right (by rw [length_wordBytes])
  have lba := wordAt_hasAt stands.left words.lba
  have record : sliceOf leaf.serialize 8 (8 + recordSize) = .ok leaf.record.serialize :=
    sliceOf_hasAt recordOn (by rw [Record.length_serialize])
  unfold deserialize
  rw [if_neg (not_not.mpr sized)]
  simp only [lba, record, Record.deserialize_serialize words.hba, ok_bind]
  rfl

theorem LeafBlock.stored {block : LeafBlock} (count : block.count = block.children.length)
    (few : block.children.length ≤ leafBlockChildren)
    (words : ∀ child ∈ block.children, child.Words) :
    ∃ bytes back, Stored LeafBlock.count LeafBlock.children block bytes back := by
  have fits : 8 + leafBlockChildren * leafRecordSize ≤ blockSize := by
    unfold blockSize
    decide
  have zeros : LeafRecord.deserialize (replicate leafRecordSize 0) =
      .ok LeafRecord.blank := by
    decide +kernel
  obtain ⟨bytes, children, stored, length, decoded, capacity, same, again⟩ :=
    serializeBlock_stored LeafRecord.length_serialize zeros (by decide +kernel) fits few
      (by decide) fun child member => LeafRecord.deserialize_serialize (words child member)
  refine ⟨bytes, ⟨block.children.length, children⟩, ?_, length, ?_, count.symm,
    few.trans_eq capacity.symm, same, again⟩
  · change serializeBlock LeafRecord.serialize block.count block.children = .ok bytes
    rw [count, stored]
  · change
      (deserializeBlock leafRecordSize leafBlockChildren LeafRecord.deserialize bytes >>= _) = _
    rw [decoded]
    rfl

/-- Leaf and indirect blocks of machine words are stored in exactly one block, read back with
the same count and the same children up to the count, and stored again as the same bytes. -/
theorem blocks_stored (leaf : LeafBlock) (indirect : IndirectBlock)
    (leafCount : leaf.count = leaf.children.length)
    (leafFew : leaf.children.length ≤ leafBlockChildren)
    (leafWords : ∀ child ∈ leaf.children, child.Words)
    (indirectCount : indirect.count = indirect.children.length)
    (indirectFew : indirect.children.length ≤ indirectBlockChildren)
    (indirectWords : ∀ child ∈ indirect.children, child.Words) :
    (∃ bytes back, Stored LeafBlock.count LeafBlock.children leaf bytes back) ∧
      ∃ bytes back, Stored IndirectBlock.count IndirectBlock.children indirect bytes back :=
  ⟨leaf.stored leafCount leafFew leafWords,
    indirect.stored indirectCount indirectFew indirectWords⟩

/-- A leaf with one child and an indirect block with two. -/
theorem blocks_stored_small :
    (∃ bytes back, Stored LeafBlock.count LeafBlock.children ⟨1, [.blank]⟩ bytes back) ∧
      ∃ bytes back,
        Stored IndirectBlock.count IndirectBlock.children ⟨2, [.blank, .blank]⟩ bytes back := by
  apply blocks_stored ⟨1, [.blank]⟩ ⟨2, [.blank, .blank]⟩ rfl (by decide) _ rfl (by decide)
  · intro child member
    rw [eq_of_mem_replicate (n := 2) member]
    exact ⟨by decide, by decide, by decide⟩
  · intro child member
    rw [eq_of_mem_replicate (n := 1) member]
    exact ⟨by decide, by decide⟩

end SwornDisk.Rust
