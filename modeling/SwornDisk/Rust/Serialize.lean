import SwornDisk.Lib.Program
import SwornDisk.Rust.DataSegment

/-!
# Serialised records

The `Serialize` and `Deserialize` traits for `Record` and `IndirectRecord`.  Words take
eight bytes, lowest first, and a slice out of bounds is a panic.
-/

namespace SwornDisk.Rust

open Lib

/-- A value of type `u64` or `usize`. -/
def IsWord (n : Nat) : Prop := n < 2 ^ 64

instance (n : Nat) : Decidable (IsWord n) := inferInstanceAs (Decidable (n < 2 ^ 64))

/-- `transmute` of a word to bytes. -/
def wordBytes (n : Nat) : List UInt8 := leBytes 8 n

/-- `buf[first..last]` -/
def sliceOf (buf : List UInt8) (first last : Nat) : Except Fault (List UInt8) :=
  match slice? buf first last with
  | some part => .ok part
  | none => .error .panic

/-- `transmute` of `buf[first..first + 8]` to a word. -/
def wordAt (buf : List UInt8) (first : Nat) : Except Fault Nat := do
  let bytes ← sliceOf buf first (first + 8)
  return ofLeBytes bytes

/-- `try_into().unwrap()` of a slice to an array. -/
def arrayOf (len : Nat) (bytes : List UInt8) : Except Fault (Vector UInt8 len) :=
  if sized : bytes.length = len then .ok ⟨bytes.toArray, sized⟩ else .error .panic

@[simp] theorem length_wordBytes (n : Nat) : (wordBytes n).length = 8 := length_leBytes 8 n

variable {buf : List UInt8} {first : Nat}

theorem sliceOf_hasAt {part : List UInt8} {last : Nat} (stands : HasAt buf first part)
    (ends : last = first + part.length) : sliceOf buf first last = .ok part := by
  unfold sliceOf
  rw [stands.slice? ends]

variable {len : Nat}

theorem sliceOf_inside (inside : first + len ≤ buf.length) :
    sliceOf buf first (first + len) = .ok ((buf.drop first).take len) := by
  unfold sliceOf slice?
  rw [if_pos ⟨Nat.le_add_right _ _, inside⟩, Nat.add_sub_cancel_left]

variable {n : Nat}

theorem wordAt_hasAt_mod (stands : HasAt buf first (wordBytes n)) :
    wordAt buf first = .ok (n % 2 ^ 64) := by
  have value : ofLeBytes (wordBytes n) = n % 2 ^ 64 := ofLeBytes_leBytes 8 n
  unfold wordAt
  rw [sliceOf_hasAt stands (by rw [length_wordBytes]), ok_bind, value]
  rfl

theorem wordAt_hasAt (stands : HasAt buf first (wordBytes n)) (word : IsWord n) :
    wordAt buf first = .ok n := by
  rw [wordAt_hasAt_mod stands, Nat.mod_eq_of_lt word]

theorem arrayOf_toList (array : Vector UInt8 len) :
    arrayOf len array.toList = .ok array := by
  unfold arrayOf
  rw [dif_pos array.length_toList]
  rfl

/-- `SWORNDISK_RECORD_SIZE`: 52 bytes, aligned to words. -/
def recordSize : Nat := 56

def Record.serialize (record : Record) : List UInt8 :=
  resize recordSize
    (wordBytes record.hba ++ (record.key.toList ++ (record.nonce.toList ++ record.mac.toList)))

def Record.deserialize (buffer : List UInt8) : Except Fault Record :=
  if buffer.length ≠ recordSize then .error (.error .einval)
  else do
    let hba ← wordAt buffer 0
    let key ← arrayOf 16 (← sliceOf buffer 8 24)
    let nonce ← arrayOf 12 (← sliceOf buffer 24 36)
    let mac ← arrayOf 16 (← sliceOf buffer 36 52)
    return ⟨hba, key, nonce, mac⟩

@[simp] theorem Record.length_serialize (record : Record) :
    record.serialize.length = recordSize := length_resize ..

theorem Record.deserialize_serialize {record : Record} (word : IsWord record.hba) :
    deserialize record.serialize = .ok record := by
  have sized := record.length_serialize
  have stands : HasAt record.serialize 0 (wordBytes record.hba ++
      (record.key.toList ++ (record.nonce.toList ++ record.mac.toList))) := by
    unfold serialize
    rw [resize_of_le (by simp [recordSize])]
    exact HasAt.front _ _
  have keyOn := stands.right (by rw [length_wordBytes])
  have nonceOn := keyOn.right (by rw [Vector.length_toList])
  have macOn := nonceOn.right (by rw [Vector.length_toList])
  have hba := wordAt_hasAt stands.left word
  have key : sliceOf record.serialize 8 24 = .ok record.key.toList :=
    sliceOf_hasAt keyOn.left (by rw [Vector.length_toList])
  have nonce : sliceOf record.serialize 24 36 = .ok record.nonce.toList :=
    sliceOf_hasAt nonceOn.left (by rw [Vector.length_toList])
  have mac : sliceOf record.serialize 36 52 = .ok record.mac.toList :=
    sliceOf_hasAt macOn (by rw [Vector.length_toList])
  unfold deserialize
  rw [if_neg (not_not.mpr sized)]
  simp only [hba, key, nonce, mac, arrayOf_toList, ok_bind]
  rfl

/-- `IndirectRecord`: where a block of a block index table is, and the addresses below it. -/
structure IndirectRecord where
  lbaRange : Nat × Nat
  record : Record
deriving DecidableEq

structure IndirectRecord.Words (indirect : IndirectRecord) : Prop where
  first : IsWord indirect.lbaRange.1
  last : IsWord indirect.lbaRange.2
  hba : IsWord indirect.record.hba

def indirectRecordSize : Nat := 72

def IndirectRecord.serialize (indirect : IndirectRecord) : List UInt8 :=
  resize indirectRecordSize (wordBytes indirect.lbaRange.1 ++
    (wordBytes indirect.lbaRange.2 ++ indirect.record.serialize))

def IndirectRecord.deserialize (buffer : List UInt8) : Except Fault IndirectRecord :=
  if buffer.length ≠ indirectRecordSize then .error (.error .einval)
  else do
    let first ← wordAt buffer 0
    let last ← wordAt buffer 8
    let record ← Record.deserialize (← sliceOf buffer 16 (16 + recordSize))
    return ⟨(first, last), record⟩

@[simp] theorem IndirectRecord.length_serialize (indirect : IndirectRecord) :
    indirect.serialize.length = indirectRecordSize := length_resize ..

variable {indirect : IndirectRecord}

theorem IndirectRecord.deserialize_serialize_mod (hba : IsWord indirect.record.hba) :
    deserialize indirect.serialize =
      .ok ⟨(indirect.lbaRange.1 % 2 ^ 64, indirect.lbaRange.2 % 2 ^ 64), indirect.record⟩ := by
  have sized := indirect.length_serialize
  have stands : HasAt indirect.serialize 0 (wordBytes indirect.lbaRange.1 ++
      (wordBytes indirect.lbaRange.2 ++ indirect.record.serialize)) := by
    unfold serialize
    rw [resize_of_le (by simp [recordSize, indirectRecordSize])]
    exact HasAt.front _ _
  have lastOn := stands.right (by rw [length_wordBytes])
  have recordOn := lastOn.right (by rw [length_wordBytes])
  have first := wordAt_hasAt_mod stands.left
  have last := wordAt_hasAt_mod lastOn.left
  have record : sliceOf indirect.serialize 16 (16 + recordSize) = .ok indirect.record.serialize :=
    sliceOf_hasAt recordOn (by rw [Record.length_serialize])
  unfold deserialize
  rw [if_neg (not_not.mpr sized)]
  simp only [first, last, record, Record.deserialize_serialize hba, ok_bind]
  rfl

theorem IndirectRecord.deserialize_serialize (words : indirect.Words) :
    deserialize indirect.serialize = .ok indirect := by
  rw [deserialize_serialize_mod words.hba, Nat.mod_eq_of_lt words.first,
    Nat.mod_eq_of_lt words.last]

end SwornDisk.Rust
