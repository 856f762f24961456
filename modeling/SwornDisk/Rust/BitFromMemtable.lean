import SwornDisk.Rust.BitContents

/-!
# Conversion of a memtable

`BIT::from_memtable` writes a leaf block when it is full, or when as many records have been
pushed as `MemTable::size` says.  The size counts insertions, so after an overwrite the
last leaf block is not written unless it is full.
-/

namespace SwornDisk.Rust

open Lib List Program

variable {size start : Nat} {kernel : Kernel} {s : IndexStore} {memtable : MemTable Record}

def LeafRecord.ofEntry (entry : Nat × Record) : LeafRecord := ⟨entry.1, entry.2⟩

def keptRecords (size : Nat) (records : List LeafRecord) : List LeafRecord :=
  if size = records.length ∨ leafBlockChildren ∣ records.length then records
  else records.take (records.length / leafBlockChildren * leafBlockChildren)

variable {records : List LeafRecord}

theorem keptRecords_eq_iff :
    keptRecords size records = records ↔
      size = records.length ∨ leafBlockChildren ∣ records.length := by
  unfold keptRecords
  split
  · next kept => exact ⟨fun _ => kept, fun _ => rfl⟩
  · next dropped =>
      refine ⟨fun same => ?_, fun kept => absurd kept dropped⟩
      have lengths := congrArg length same
      rw [length_take, min_eq_left (Nat.div_mul_le_self _ _)] at lengths
      exact .inr (Nat.dvd_iff_div_mul_eq _ _ |>.mpr lengths)

variable {leaf : LeafBlock}

theorem LeafBlock.push_ok {record : LeafRecord} (count : leaf.count = leaf.children.length)
    (few : leaf.children.length < leafBlockChildren)
    (ordered : Ordered (leaf.children ++ [record])) :
    leaf.push record = .ok ⟨leaf.count + 1, leaf.children ++ [record]⟩ := by
  have checked : leaf.checkOrder record = .ok () := by
    unfold LeafBlock.checkOrder
    split
    · next positive =>
        have lastIndex : leaf.children.length - 1 < leaf.children.length := by omega
        have order := (pairwise_append.mp ordered).2.2 _ (getElem_mem lastIndex) record
          (mem_singleton_self _)
        rw [count, childAt_eq (getElem?_eq_getElem lastIndex), ok_bind, assertTrue,
          if_pos (decide_eq_true order.le)]
    · rfl
  unfold LeafBlock.push
  rw [checked, ok_bind, assertTrue, if_pos (decide_eq_true (by omega))]
  rfl

section

variable {lowest : Nat}

/-- The loop of `from_memtable`: `done` is in full leaf blocks, the block at hand is not
full, and once the size is reached nothing is left over. -/
theorem memtableLoop_growing {entries : List (Nat × Record)} {index leaves : Nat}
    {indirect : Bit.IndirectLevels} {done : List LeafRecord}
    (placement : Placement kernel start s)
    (growing : Growing s.written lowest indirect done leaves)
    (capacity : size < leafBlockChildren * indirectBlockChildren ^ (lowest + 1))
    (doneLength : done.length = leaves * leafBlockChildren)
    (count : leaf.count = leaf.children.length) (few : leaf.children.length < leafBlockChildren)
    (position : index = done.length + leaf.children.length)
    (counted : index + entries.length ≤ size)
    (pending : entries = [] → leaf.children ≠ [] → index ≠ size)
    (ordered : Ordered (done ++ leaf.children ++ entries.map LeafRecord.ofEntry))
    (words : ∀ record ∈ done ++ leaf.children ++ entries.map LeafRecord.ofEntry, record.Words) :
    Assembles kernel start (Bit.memtableLoop kernel (lowest + 2) size entries index leaf indirect)
      (fun indirect' s' => ∃ leaves' ≤ indirectBlockChildren ^ (lowest + 1),
        Growing s'.written lowest indirect'
          (keptRecords size (done ++ leaf.children ++ entries.map LeafRecord.ofEntry)) leaves')
      s := by
  have leavesFit : ∀ n, n * leafBlockChildren ≤ size →
      n < indirectBlockChildren ^ (lowest + 1) := by
    intro n below
    rw [Nat.mul_comm] at capacity
    exact Nat.lt_of_mul_lt_mul_right (below.trans_lt capacity)
  induction entries generalizing s index leaves leaf indirect done with
  | nil =>
    have kept : keptRecords size (done ++ leaf.children ++ [].map LeafRecord.ofEntry) = done := by
      rw [map_nil, append_nil]
      by_cases empty : leaf.children = []
      · rw [empty, append_nil]
        exact keptRecords_eq_iff.mpr (.inr ⟨leaves, by rw [doneLength, Nat.mul_comm]⟩)
      · have positive := length_pos_iff.mpr empty
        have unreached := pending rfl empty
        have length : (done ++ leaf.children).length =
            leaf.children.length + leafBlockChildren * leaves := by
          rw [length_append, doneLength, Nat.mul_comm, Nat.add_comm]
        have quotient : (done ++ leaf.children).length / leafBlockChildren = leaves := by
          rw [length, Nat.add_mul_div_left _ _ (by decide), Nat.div_eq_of_lt few, Nat.zero_add]
        rw [keptRecords, if_neg, quotient, ← doneLength, take_left]
        rintro (reached | divides)
        · rw [length_append] at reached
          omega
        · rw [length, Nat.dvd_add_left (Nat.dvd_mul_right _ _)] at divides
          exact absurd (Nat.le_of_dvd positive divides) (by omega)
    rw [kept]
    exact .ret placement ⟨leaves, (leavesFit leaves (by omega)).le, growing⟩
  | cons entry rest ih =>
    obtain ⟨lba, record⟩ := entry
    rw [length_cons] at counted
    let leaf' : LeafBlock := ⟨leaf.count + 1, leaf.children ++ [⟨lba, record⟩]⟩
    have count' : leaf'.count = leaf'.children.length := by
      rw [length_append, ← count]
      rfl
    have length' : leaf'.children.length = leaf.children.length + 1 := length_append
    have all : done ++ leaf'.children ++ rest.map LeafRecord.ofEntry =
        done ++ leaf.children ++ ((lba, record) :: rest).map LeafRecord.ofEntry := by
      simp [leaf', LeafRecord.ofEntry]
    rw [← all] at ordered words ⊢
    have prefixOrdered := (pairwise_append.mp ordered).1
    have pushed : leaf.push ⟨lba, record⟩ = .ok leaf' :=
      LeafBlock.push_ok count few (pairwise_append.mp prefixOrdered).2.1
    refine .ok_bind pushed ?_
    split
    · next flush =>
        refine .seq (writebackLeaf_growing placement growing
          (leavesFit leaves (by omega)) count' (by simp [leaf']) (by omega) prefixOrdered
          fun record member => words record (mem_append_left _ member))
          fun indirect' s' assembled growing' => ?_
        by_cases full : leaf'.children.length = leafBlockChildren
        · have empty : done ++ leaf'.children ++ LeafBlock.default.children =
              done ++ leaf'.children := append_nil _
          have next : index + 1 =
              (done ++ leaf'.children).length + LeafBlock.default.children.length := by
            change index + 1 = (done ++ leaf'.children).length
            rw [length_append]
            omega
          have run := ih assembled.placement growing'
            (by rw [length_append, doneLength, full, Nat.succ_mul]) rfl (by decide)
            next (by omega) (fun _ nonempty => absurd rfl nonempty) (by rwa [empty])
            (by rwa [empty])
          rwa [empty] at run
        · -- the block is not full, so the size was reached and this is the last record
          have reached : index + 1 = size := by
            rw [Bool.or_eq_true, decide_eq_true_eq] at flush
            refine flush.resolve_right fun isFull => full ?_
            rw [← count']
            exact beq_iff_eq.mp isFull
          obtain rfl : rest = [] := length_eq_zero_iff.mp (by omega)
          rw [map_nil, append_nil]
          refine .ret assembled.placement ⟨leaves + 1, leavesFit leaves (by omega), ?_⟩
          rw [keptRecords_eq_iff.mpr (.inl (by rw [length_append]; omega))]
          exact growing'
    · next noFlush =>
        rw [Bool.or_eq_true, decide_eq_true_eq, not_or] at noFlush
        have notFull : leaf'.children.length ≠ leafBlockChildren := by
          intro full
          refine noFlush.2 ?_
          rw [LeafBlock.isFull, count', full]
          exact beq_self_eq_true _
        exact ih placement growing doneLength count' (by omega) (by omega) (by omega)
          (fun _ _ => noFlush.1) ordered words

end

/-- The memtables that insertions and `clear` lead to. -/
inductive MemTable.Reachable : MemTable Record → Prop
  | new : Reachable MemTable.new
  | insert {memtable : MemTable Record} {lba : Nat} {record : Record}
      (before : Reachable memtable) (lbaWord : IsWord lba) (hbaWord : IsWord record.hba) :
      Reachable (memtable.insert lba record)
  | clear {memtable : MemTable Record} (before : Reachable memtable) : Reachable memtable.clear

def MemTable.leafRecords (memtable : MemTable Record) : List LeafRecord :=
  memtable.inner.entries.map LeafRecord.ofEntry

theorem MemTable.leafRecords_ordered (memtable : MemTable Record) : Ordered memtable.leafRecords :=
  pairwise_map.mpr memtable.inner.ascending

theorem MemTable.Reachable.length_le (reachable : memtable.Reachable) :
    memtable.inner.entries.length ≤ memtable.size := by
  induction reachable with
  | new => exact Nat.le_refl 0
  | @insert memtable lba record before _ _ ih =>
    change (insertEntry lba record memtable.inner.entries).length ≤ memtable.size + 1
    rw [length_insertEntry memtable.inner.ascending]
    split <;> omega
  | clear => exact Nat.le_refl 0

theorem MemTable.Reachable.words (reachable : memtable.Reachable) :
    ∀ leaf ∈ memtable.leafRecords, leaf.Words := by
  intro leaf member
  obtain ⟨entry, inside, rfl⟩ := mem_map.mp member
  clear member
  induction reachable with
  | new => cases inside
  | insert before lbaWord hbaWord ih =>
    rcases mem_insertEntry inside with rfl | old
    · exact ⟨lbaWord, hbaWord⟩
    · exact ih old
  | clear => cases inside

section

theorem ordered_keptRecords (ordered : Ordered records) :
    Ordered (keptRecords size records) := by
  unfold keptRecords
  split
  · exact ordered
  · exact ordered.sublist (take_sublist _ _)

theorem keptRecords_subset (size : Nat) (records : List LeafRecord) :
    keptRecords size records ⊆ records := by
  unfold keptRecords
  split
  · exact List.Subset.refl _
  · exact take_subset _ _

theorem fromMemtable_holds (placement : Placement kernel start s) (reachable : memtable.Reachable)
    (fits : maxLevelFor memtable.size < bitMaxLevel) :
    Assembles kernel start (Bit.fromMemtable kernel memtable)
      (fun bit s' => s.calls.length < s'.calls.length ∧
        TableHolds s'.written bit (keptRecords memtable.size memtable.leafRecords) ∧
        bit.level = maxLevelFor memtable.size ∧ bit.size = memtable.size) s := by
  have atLeast := two_le_maxLevelFor memtable.size
  obtain ⟨lowest, level⟩ : ∃ lowest, maxLevelFor memtable.size = lowest + 2 :=
    ⟨maxLevelFor memtable.size - 2, by omega⟩
  have capacity := size_lt_capacity memtable.size
  rw [level, Nat.add_sub_cancel] at capacity
  have ordered := memtable.leafRecords_ordered
  have length := reachable.length_le
  unfold Bit.fromMemtable
  simp only
  rw [if_neg (by omega), level]
  refine .seq (memtableLoop_growing placement (growing_empty s.written (by omega))
    capacity rfl rfl (by decide) rfl (by omega) (fun _ nonempty => absurd rfl nonempty) ordered
    reachable.words) fun indirect s' assembled after => ?_
  obtain ⟨leaves, fewLeaves, growing⟩ := after
  exact (finish_holds assembled.placement growing fewLeaves (ordered_keptRecords ordered)
    (fun record member => reachable.words record (keptRecords_subset _ _ member))
    memtable.size).mono fun bit s'' _ finished =>
      ⟨Nat.lt_of_le_of_lt assembled.logged.calls.length_le finished.1, finished.2.1,
        level ▸ finished.2.2⟩

/-- When the writes succeed, `from_memtable` returns a table of the records that are kept. -/
theorem fromMemtable_contains (placement : Placement kernel start s)
    (reachable : memtable.Reachable)
    (space : ((Bit.fromMemtable kernel memtable).exec s).1 ≠ .error (.error .enospc))
    (fit : WritesFit s ((Bit.fromMemtable kernel memtable).exec s).2) :
    ∃ bit, ((Bit.fromMemtable kernel memtable).exec s).1 = .ok bit ∧
      bit.Contains kernel ((Bit.fromMemtable kernel memtable).exec s).2.metaDev
        (keptRecords memtable.size memtable.leafRecords) := by
  have fits : maxLevelFor memtable.size < bitMaxLevel := by
    by_contra large
    refine space ?_
    unfold Bit.fromMemtable
    simp only
    rw [if_pos (Nat.le_of_not_lt large)]
    rfl
  obtain ⟨bit, returned, assembled, called, holds, -⟩ :=
    (fromMemtable_holds placement reachable fits).returns fit
  exact ⟨bit, returned, holds.contains (fit.inside placement assembled called) assembled.placement⟩

/-- The table made of a memtable contains all its entries exactly if the last leaf block was
written: the size is the number of entries, or every leaf block is full. -/
theorem fromMemtable_complete_iff (placement : Placement kernel start s)
    (reachable : memtable.Reachable)
    (space : ((Bit.fromMemtable kernel memtable).exec s).1 ≠ .error (.error .enospc))
    (fit : WritesFit s ((Bit.fromMemtable kernel memtable).exec s).2) :
    (∃ bit, ((Bit.fromMemtable kernel memtable).exec s).1 = .ok bit ∧
      bit.Contains kernel ((Bit.fromMemtable kernel memtable).exec s).2.metaDev
        memtable.leafRecords) ↔
      memtable.size = memtable.inner.entries.length ∨
        leafBlockChildren ∣ memtable.inner.entries.length := by
  have length : memtable.leafRecords.length = memtable.inner.entries.length := length_map _
  rw [← length, ← keptRecords_eq_iff]
  obtain ⟨bit, returned, contains⟩ := fromMemtable_contains placement reachable space fit
  constructor
  · rintro ⟨other, returned', complete⟩
    obtain rfl := Except.ok.inj (returned.symm.trans returned')
    exact Except.ok.inj (contains.memory.symm.trans complete.memory)
  · intro kept
    rw [kept] at contains
    exact ⟨bit, returned, contains⟩

end

def metaDevice : Device := ⟨2 ^ 40, Memory.zeroed⟩

def insertedOnce : MemTable Record := MemTable.new.insert 7 firstBlock

def insertedTwice : MemTable Record := insertedOnce.insert 7 firstBlock

theorem reachable_insertedOnce : insertedOnce.Reachable :=
  .insert .new (by decide) (by decide +kernel)

theorem ne_error_of_toBool {α : Type} {result : Except Fault α} {fault : Fault}
    (ok : result.toBool = true) : result ≠ .error fault := by
  rintro rfl
  cases ok

theorem fromMemtable_complete_insertedOnce :
    ∃ bit, ((Bit.fromMemtable plainKernel insertedOnce).exec (IndexStore.mount metaDevice 0)).1 =
        .ok bit ∧
      bit.Contains plainKernel
        ((Bit.fromMemtable plainKernel insertedOnce).exec (IndexStore.mount metaDevice 0)).2.metaDev
        insertedOnce.leafRecords :=
  (fromMemtable_complete_iff (placement_mount plainKernel metaDevice 0) reachable_insertedOnce
    (ne_error_of_toBool (by decide +kernel)) (by decide +kernel)).mpr (.inl (by decide +kernel))

/-- The size of a memtable with an overwritten entry is never reached, so the leaf block at
hand is lost. -/
theorem overwritten_entry_lost :
    insertedTwice.Reachable ∧ insertedTwice.leafRecords ≠ [] ∧
    ∃ bit, ((Bit.fromMemtable plainKernel insertedTwice).exec (IndexStore.mount metaDevice 0)).1 =
        .ok bit ∧
      bit.Contains plainKernel
        ((Bit.fromMemtable plainKernel insertedTwice).exec
          (IndexStore.mount metaDevice 0)).2.metaDev [] := by
  have reachable : insertedTwice.Reachable :=
    .insert reachable_insertedOnce (by decide) (by decide +kernel)
  refine ⟨reachable, by decide +kernel, ?_⟩
  obtain ⟨bit, returned, contains⟩ := fromMemtable_contains
    (placement_mount plainKernel metaDevice 0) reachable (ne_error_of_toBool (by decide +kernel))
    (by decide +kernel)
  have nothing : keptRecords insertedTwice.size insertedTwice.leafRecords = [] := by decide +kernel
  rw [nothing] at contains
  exact ⟨bit, returned, contains⟩

end SwornDisk.Rust
