import SwornDisk.Rust.BitAssembly

/-!
# Contents of a block index table

The leaf records below a root, read from the meta device.  When every index write of a
construction fits on the device, the blocks of the table read back as they were written, so
the table contains what its blocks were written for.
-/

namespace SwornDisk.Rust

open Lib List

def Bit.leafRecordsBelow (kernel : Kernel) (metaDev : Device) :
    Nat → Record → Except Fault (List LeafRecord)
  | 0, record => do
      let leaf : LeafBlock ← readBlockDirectly kernel metaDev record
      return leaf.children.take leaf.count
  | height + 1, record => do
      let block : IndirectBlock ← readBlockDirectly kernel metaDev record
      let parts ← (block.children.take block.count).mapM fun child =>
        leafRecordsBelow kernel metaDev height child.record
      return parts.flatten

def Bit.leafRecords (kernel : Kernel) (metaDev : Device) (bit : Bit) :
    Except Fault (List LeafRecord) := do
  let parts ← (bit.root.children.take bit.root.count).mapM fun child =>
    leafRecordsBelow kernel metaDev (bit.level - 2) child.record
  return parts.flatten

/-- The leaf records of a table, below its root in memory and below the root on the
device. -/
structure Bit.Contains (kernel : Kernel) (metaDev : Device) (bit : Bit)
    (records : List LeafRecord) : Prop where
  memory : bit.leafRecords kernel metaDev = .ok records
  stored : leafRecordsBelow kernel metaDev (bit.level - 1) bit.record.record = .ok records

variable {record : Record}

section

variable {kernel : Kernel} {start : Nat} {s : IndexStore}

theorem Placement.readBlockDirectly_eq (placement : Placement kernel start s) {T : Type}
    [BlockFormat T] {plain : List UInt8} (here : (record, plain) ∈ s.written)
    (inside : record.hba + blockSectors ≤ s.metaDev.sectors) :
    Bit.readBlockDirectly kernel s.metaDev record =
      (BlockFormat.deserialize plain : Except Fault T) := by
  obtain ⟨cipher, encrypted, stands⟩ := placement.sealed record plain here
  have back := kernel.aead.decrypt_encrypt record.key record.nonce plain
  rw [encrypted] at back
  unfold Bit.readBlockDirectly openRecord
  rw [stands inside, back]
  rfl

variable (inside : ∀ pair ∈ s.written, pair.1.hba + blockSectors ≤ s.metaDev.sectors)
include inside

theorem Holds.leafRecordsBelow (placement : Placement kernel start s) {height : Nat}
    {part : List LeafRecord} (holds : Holds s.written height record part) :
    Bit.leafRecordsBelow kernel s.metaDev height record = .ok part := by
  induction height generalizing record part with
  | zero =>
    obtain ⟨plain, leaf, here, decoded, -, rfl⟩ := holds
    unfold Bit.leafRecordsBelow
    rw [placement.readBlockDirectly_eq here (inside _ here), decoded, ok_bind]
    rfl
  | succ height ih =>
    obtain ⟨plain, block, here, decoded, -, parts, each, rfl⟩ := holds
    have read : Forall₂ (fun (child : IndirectRecord) part =>
        Bit.leafRecordsBelow kernel s.metaDev height child.record = .ok part)
        (block.children.take block.count) parts := each.imp fun _ _ held => ih held.2
    unfold Bit.leafRecordsBelow
    rw [placement.readBlockDirectly_eq here (inside _ here), decoded, ok_bind,
      Spine.mapM_of_forall₂ read, ok_bind]
    rfl

theorem TableHolds.contains (placement : Placement kernel start s) {bit : Bit}
    {records : List LeafRecord} (holds : TableHolds s.written bit records) :
    bit.Contains kernel s.metaDev records where
  stored := holds.stored.leafRecordsBelow inside placement
  memory := by
    obtain ⟨parts, children, rfl⟩ := holds.root
    have read : Forall₂ (fun (child : IndirectRecord) part =>
        Bit.leafRecordsBelow kernel s.metaDev (bit.level - 2) child.record = .ok part)
        bit.root.children parts :=
      children.each.imp fun _ _ held => held.2.leafRecordsBelow inside placement
    unfold Bit.leafRecords
    rw [children.count, take_length, Spine.mapM_of_forall₂ read, ok_bind]
    rfl

end

def WritesFit (s s' : IndexStore) : Prop :=
  ∀ call ∈ s'.calls.drop s.calls.length,
    call.hba + blockSectors ≤ call.metaDev.sectors ∧ IsWord call.metaDev.sectors

instance (s s' : IndexStore) : Decidable (WritesFit s s') :=
  inferInstanceAs (Decidable (∀ call ∈ s'.calls.drop s.calls.length, _ ∧ _))

variable {s s' : IndexStore}

theorem WritesFit.not_overflowed (fit : WritesFit s s') :
    ¬ Overflowed s s' := by
  rintro ⟨call, made, large⟩
  exact large (Nat.lt_of_le_of_lt (fit call made).1 (fit call made).2)

theorem Assembles.returns {kernel : Kernel} {start : Nat} {β : Type} {prog : IndexProgram β}
    {post : β → IndexStore → Prop} (run : Assembles kernel start prog post s)
    (fit : WritesFit s (prog.exec s).2) :
    ∃ result, (prog.exec s).1 = .ok result ∧ Assembled kernel start s (prog.exec s).2 ∧
      post result (prog.exec s).2 := by
  rcases Program.wp_outcome run with ⟨result, s', ran, assembled, holds⟩ |
    ⟨fault, s', ran, overflowed⟩
  · rw [ran]
    exact ⟨result, rfl, assembled, holds⟩
  · rw [ran] at fit
    exact absurd overflowed fit.not_overflowed

theorem WritesFit.inside {kernel : Kernel} {start : Nat} (placement : Placement kernel start s)
    (assembled : Assembled kernel start s s') (called : s.calls.length < s'.calls.length)
    (fit : WritesFit s s') :
    ∀ pair ∈ s'.written, pair.1.hba + blockSectors ≤ s'.metaDev.sectors := by
  obtain ⟨calls, made, ahead⟩ := assembled.grows.calls
  have new : s'.calls.drop s.calls.length = calls := by rw [made, drop_left]
  have fits : ∀ call ∈ calls, call.hba + blockSectors ≤ s'.metaDev.sectors := by
    intro call member
    have within := (fit call (by rwa [new])).1
    rwa [(ahead call member).sectors, ← assembled.grows.sectors] at within
  intro pair member
  rcases assembled.logged.written pair member with old | ⟨call, made, place⟩
  · obtain ⟨first, rest, rfl⟩ : ∃ first rest, calls = first :: rest := by
      refine exists_cons_of_length_pos ?_
      rw [made, length_append] at called
      omega
    have below : pair.1.hba + blockSectors ≤ s.hba := (placement.below old).2
    have cursor := (ahead first mem_cons_self).cursor
    have within := fits first mem_cons_self
    omega
  · rw [new] at made
    rw [← place]
    exact fits call made

end SwornDisk.Rust
