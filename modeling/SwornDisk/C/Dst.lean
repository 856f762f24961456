import SwornDisk.C.SegValidator

/-!
# Data segment table

`struct dst` of `metadata.c`: for each segment the number and the bitmap of its
valid blocks, persistent, and in memory the victims, the segments with an invalid
block ordered by their number of valid blocks.  The tree `victims` is the list of
its nodes in order; `rb_add` puts a node behind the nodes with an equal number.
-/

namespace SwornDisk.C

open Lib List Function

def blocksPerSegment : Nat := 1024

def blockToSegment (blkaddr : Nat) : Nat := blkaddr / blocksPerSegment

/-- `__block_offset_whthin_segment`. -/
def blockOffsetWithinSegment (blkaddr : Nat) : Nat := blkaddr % blocksPerSegment

/-- `struct dst_entry`. -/
structure DstEntry where
  nrValidBlock : Nat
  blockValidityTable : Nat → Bool

/-- `struct victim`. -/
structure Victim where
  segno : Nat
  nrValidBlock : Nat
  blockValidityTable : Nat → Bool

/-- `struct dst`.  `nodeList segno` says whether the node pointer of the segment is
set; the node it points to is the one of that segment. -/
structure Dst where
  nrSegment : Nat
  array : Nat → DstEntry
  nodeList : Nat → Bool
  victims : List Victim

def victimLess (left right : Victim) : Prop :=
  left.nrValidBlock < right.nrValidBlock

instance : DecidableRel victimLess :=
  fun left right => inferInstanceAs (Decidable (left.nrValidBlock < right.nrValidBlock))

section

variable (d : Dst)

/-- `dst_remove_victim` together with the destruction of the removed victim. -/
def dstRemoveVictim (segno : Nat) : Dst :=
  if d.nodeList segno then
    { d with
      victims := d.victims.eraseP fun victim => victim.segno == segno
      nodeList := Function.update d.nodeList segno false }
  else d

def dstAddVictim (segno nrValid : Nat) (table : Nat → Bool) : Dst :=
  { d with
    victims := d.victims.orderedInsert victimLess ⟨segno, nrValid, table⟩
    nodeList := Function.update d.nodeList segno true }

/-- `array->set`. -/
def dstSet (segno : Nat) (entry : DstEntry) : Dst :=
  { d with array := Function.update d.array segno entry }

end

/-- What a call finds outside the table: whether the block manager reads and writes the
block of the entry, and whether `kmalloc` has memory for a victim. -/
structure DstIo where
  reads : Bool
  writes : Bool
  allocates : Bool

def DstIo.quiet : DstIo := ⟨true, true, true⟩

namespace Dst

section

variable (io : DstIo) (d : Dst)

/-- `array->get`. -/
def getEntry (segno : Nat) : Except Errno DstEntry :=
  if segno < d.nrSegment ∧ io.reads = true then .ok (d.array segno) else .error .einval

/-- `array->set`. -/
def setEntry (segno : Nat) (entry : DstEntry) : Except Errno Dst :=
  if segno < d.nrSegment then
    if io.writes then .ok (dstSet d segno entry) else .error .eio
  else .error .einval

def addVictim (segno nrValid : Nat) (table : Nat → Bool) : Except Errno Unit × Dst :=
  if io.allocates then (.ok (), dstAddVictim d segno nrValid table) else (.error .enomem, d)

def updateVictim (segno nrValid : Nat) (table : Nat → Bool) : Except Errno Unit × Dst :=
  let d := dstRemoveVictim d segno
  if blocksPerSegment ≤ nrValid then (.ok (), d) else addVictim io d segno nrValid table

def takeSegment (segno : Nat) : Except Errno Unit × Dst :=
  match getEntry io d segno with
  | .error err => (.error err, d)
  | .ok entry =>
    if entry.nrValidBlock ≠ 0 then (.error .einval, d)
    else
      match setEntry io d segno ⟨blocksPerSegment, fun _ => true⟩ with
      | .error err => (.error err, d)
      | .ok d => (.ok (), dstRemoveVictim d segno)

/-- The common end of `dst_take_block` and `dst_return_block`. -/
def storeEntry (segno : Nat) (entry : DstEntry) : Except Errno Unit × Dst :=
  match setEntry io d segno entry with
  | .error err => (.error err, d)
  | .ok d => updateVictim io d segno entry.nrValidBlock entry.blockValidityTable

def takeBlock (blkaddr : Nat) : Except Errno Unit × Dst :=
  let segno := blockToSegment blkaddr
  let offset := blockOffsetWithinSegment blkaddr
  match getEntry io d segno with
  | .error err => (.error err, d)
  | .ok entry =>
    if blocksPerSegment ≤ entry.nrValidBlock then (.error .einval, d)
    else storeEntry io d segno ⟨entry.nrValidBlock + 1,
      Function.update entry.blockValidityTable offset true⟩

def returnBlock (blkaddr : Nat) : Except Errno Unit × Dst :=
  let segno := blockToSegment blkaddr
  let offset := blockOffsetWithinSegment blkaddr
  match getEntry io d segno with
  | .error err => (.error err, d)
  | .ok entry =>
    if entry.nrValidBlock = 0 then (.error .einval, d)
    else storeEntry io d segno ⟨entry.nrValidBlock - 1,
      Function.update entry.blockValidityTable offset false⟩

end

/-- One iteration of `dst_load`, which ignores the error of `dst_add_victim`. -/
def loadSegment (allocates : Nat → Bool) (d : Dst) (segno : Nat) : Dst :=
  let entry := d.array segno
  if entry.nrValidBlock < blocksPerSegment then
    (addVictim ⟨true, true, allocates segno⟩ d segno entry.nrValidBlock
      entry.blockValidityTable).2
  else d

/-- `dst_load` of a table with these entries.  `allocates` says for which victims there is
memory. -/
def load (allocates : Nat → Bool) (nrSegment : Nat) (array : Nat → DstEntry) : Dst :=
  (List.range nrSegment).foldl (loadSegment allocates)
    { nrSegment := nrSegment, array := array, nodeList := fun _ => false, victims := [] }

theorem takeSegment_error {io : DstIo} {d taken : Dst} {segno : Nat} {err : Errno}
    (failed : takeSegment io d segno = (.error err, taken)) : taken = d := by
  unfold takeSegment at failed
  split at failed
  · exact (congrArg Prod.snd failed).symm
  · split at failed
    · exact (congrArg Prod.snd failed).symm
    · split at failed
      · exact (congrArg Prod.snd failed).symm
      · cases congrArg Prod.fst failed

def succeeded : Except Errno Unit × Dst → Except Errno Dst
  | (.ok (), d) => .ok d
  | (.error err, _) => .error err

end Dst

section

variable (d : Dst)

def dstUpdateVictim (segno nrValid : Nat) (table : Nat → Bool) : Dst :=
  (Dst.updateVictim .quiet d segno nrValid table).2

def dstTakeSegment (segno : Nat) : Except Errno Dst :=
  Dst.succeeded (Dst.takeSegment .quiet d segno)

def dstStore (segno : Nat) (entry : DstEntry) : Dst :=
  dstUpdateVictim (dstSet d segno entry) segno entry.nrValidBlock entry.blockValidityTable

def dstTakeBlock (blkaddr : Nat) : Except Errno Dst :=
  Dst.succeeded (Dst.takeBlock .quiet d blkaddr)

def dstReturnBlock (blkaddr : Nat) : Except Errno Dst :=
  Dst.succeeded (Dst.returnBlock .quiet d blkaddr)

def dstPeekVictim : Option Victim :=
  d.victims.head?

/-- `dst_init` on existing entries: the victims are rebuilt by `dst_load`. -/
def dstInit (nrSegment : Nat) (array : Nat → DstEntry) : Dst :=
  Dst.load (fun _ => true) nrSegment array

/-- `should_threaded_logging`: the emptiest victim is more than three quarters full. -/
def shouldThreadedLogging : Bool :=
  match d.victims with
  | [] => false
  | victim :: _ => blocksPerSegment / 4 * 3 < victim.nrValidBlock

end

theorem dstUpdateVictim_eq (d : Dst) (segno nrValid : Nat) (table : Nat → Bool) :
    dstUpdateVictim d segno nrValid table =
      if blocksPerSegment ≤ nrValid then dstRemoveVictim d segno
      else dstAddVictim (dstRemoveVictim d segno) segno nrValid table := by
  unfold dstUpdateVictim Dst.updateVictim
  split <;> rfl

variable {segno offset : Nat}

theorem blockToSegment_mul_add (bound : offset < blocksPerSegment) :
    blockToSegment (segno * blocksPerSegment + offset) = segno := by
  unfold blockToSegment
  unfold blocksPerSegment at *
  omega

theorem blockOffset_mul_add (bound : offset < blocksPerSegment) :
    blockOffsetWithinSegment (segno * blocksPerSegment + offset) = offset := by
  unfold blockOffsetWithinSegment
  unfold blocksPerSegment at *
  omega

theorem blockOffset_lt (blkaddr : Nat) : blockOffsetWithinSegment blkaddr < blocksPerSegment :=
  Nat.mod_lt _ (by decide)

theorem blkaddr_eq (blkaddr : Nat) :
    blockToSegment blkaddr * blocksPerSegment + blockOffsetWithinSegment blkaddr = blkaddr :=
  Nat.div_add_mod' blkaddr blocksPerSegment

def dstBit (d : Dst) (blkaddr : Nat) : Bool :=
  (d.array (blockToSegment blkaddr)).blockValidityTable (blockOffsetWithinSegment blkaddr)

/-- Counts are the sizes of the bitmaps; the victims are sorted copies of the
entries they name, at most one for each segment, none of them full; a node pointer
is set exactly for the victims. -/
structure DstWellFormed (d : Dst) : Prop where
  count : ∀ segno < d.nrSegment, (d.array segno).nrValidBlock =
    countSet (d.array segno).blockValidityTable blocksPerSegment
  sorted : d.victims.Pairwise fun left right => left.nrValidBlock ≤ right.nrValidBlock
  victim : ∀ victim ∈ d.victims, victim.segno < d.nrSegment ∧
    victim.nrValidBlock = (d.array victim.segno).nrValidBlock ∧
    victim.blockValidityTable = (d.array victim.segno).blockValidityTable ∧
    victim.nrValidBlock < blocksPerSegment
  nodup : (d.victims.map Victim.segno).Nodup
  listed : ∀ segno, d.nodeList segno = true ↔ segno ∈ d.victims.map Victim.segno

variable {victim : Victim} {victims : List Victim}

theorem mem_eraseP_segno (nodup : (victims.map Victim.segno).Nodup) :
    victim ∈ victims.eraseP (fun other => other.segno == segno) ↔
      victim ∈ victims ∧ victim.segno ≠ segno := by
  induction victims with
  | nil => simp
  | cons head rest ih =>
    rw [map_cons, nodup_cons] at nodup
    rw [eraseP_cons]
    by_cases same : head.segno = segno
    · simp only [same, beq_self_eq_true, cond_true, mem_cons]
      constructor
      · intro member
        refine ⟨.inr member, fun equal => nodup.1 ?_⟩
        rw [same, ← equal]
        exact mem_map_of_mem member
      · rintro ⟨rfl | member, differs⟩
        · exact absurd same differs
        · exact member
    · have differs : (head.segno == segno) = false := by simpa using same
      simp only [differs, cond_false, mem_cons, ih nodup.2]
      constructor
      · rintro (rfl | ⟨member, other⟩)
        · exact ⟨.inl rfl, same⟩
        · exact ⟨.inr member, other⟩
      · rintro ⟨rfl | member, other⟩
        · exact .inl rfl
        · exact .inr ⟨member, other⟩

theorem sorted_orderedInsert (inserted : Victim)
    (sorted : victims.Pairwise fun left right => left.nrValidBlock ≤ right.nrValidBlock) :
    (victims.orderedInsert victimLess inserted).Pairwise
      fun left right => left.nrValidBlock ≤ right.nrValidBlock := by
  induction victims with
  | nil => simp
  | cons head rest ih =>
    obtain ⟨headBelow, restSorted⟩ := pairwise_cons.mp sorted
    rw [orderedInsert_cons]
    split
    · rename_i less
      refine pairwise_cons.mpr ⟨?_, sorted⟩
      intro other member
      rcases mem_cons.mp member with rfl | member
      · exact Nat.le_of_lt less
      · exact (Nat.le_of_lt less).trans (headBelow other member)
    · rename_i notLess
      refine pairwise_cons.mpr ⟨?_, ih restSorted⟩
      intro other member
      rcases (mem_orderedInsert _).mp member with rfl | member
      · exact Nat.le_of_not_lt notLess
      · exact headBelow other member

variable {d : Dst}

theorem dstRemoveVictim_victims (wf : DstWellFormed d) (segno : Nat) :
    (dstRemoveVictim d segno).victims =
      d.victims.eraseP fun victim => victim.segno == segno := by
  unfold dstRemoveVictim
  split
  · rfl
  · rename_i unlisted
    symm
    rw [eraseP_of_forall_not]
    intro victim member same
    have equal : victim.segno = segno := by simpa using same
    exact unlisted ((wf.listed segno).mpr (equal ▸ mem_map_of_mem member))

section

variable (d : Dst) (segno : Nat)

@[simp] theorem dstRemoveVictim_array : (dstRemoveVictim d segno).array = d.array := by
  unfold dstRemoveVictim
  split <;> rfl

@[simp] theorem dstRemoveVictim_nrSegment : (dstRemoveVictim d segno).nrSegment = d.nrSegment := by
  unfold dstRemoveVictim
  split <;> rfl

theorem dstRemoveVictim_unlisted :
    (dstRemoveVictim d segno).nodeList = update d.nodeList segno false := by
  unfold dstRemoveVictim
  split
  · rfl
  · rename_i unlisted
    have clear : d.nodeList segno = false := by simpa using unlisted
    rw [← clear, update_eq_self]

end

theorem mem_dstRemoveVictim (wf : DstWellFormed d) :
    victim ∈ (dstRemoveVictim d segno).victims ↔ victim ∈ d.victims ∧ victim.segno ≠ segno := by
  rw [dstRemoveVictim_victims wf, mem_eraseP_segno wf.nodup]

theorem mem_segno_dstRemoveVictim (wf : DstWellFormed d) {other : Nat} :
    other ∈ (dstRemoveVictim d segno).victims.map Victim.segno ↔
      other ∈ d.victims.map Victim.segno ∧ other ≠ segno := by
  simp only [mem_map]
  constructor
  · rintro ⟨victim, member, rfl⟩
    obtain ⟨member, differs⟩ := (mem_dstRemoveVictim wf).mp member
    exact ⟨⟨victim, member, rfl⟩, differs⟩
  · rintro ⟨⟨victim, member, rfl⟩, differs⟩
    exact ⟨victim, (mem_dstRemoveVictim wf).mpr ⟨member, differs⟩, rfl⟩

theorem DstWellFormed.removeVictim (wf : DstWellFormed d) (segno : Nat) :
    DstWellFormed (dstRemoveVictim d segno) := by
  have sublist : ((dstRemoveVictim d segno).victims).Sublist d.victims := by
    rw [dstRemoveVictim_victims wf]
    exact eraseP_sublist
  constructor
  · simpa using wf.count
  · exact wf.sorted.sublist sublist
  · intro victim member
    simpa using wf.victim victim (sublist.subset member)
  · exact wf.nodup.sublist (sublist.map _)
  · intro other
    rw [dstRemoveVictim_unlisted, mem_segno_dstRemoveVictim wf, ← wf.listed other]
    by_cases same : other = segno
    · simp [same]
    · simp [same]

variable {entry : DstEntry}

theorem DstWellFormed.set (wf : DstWellFormed d) (unlisted : segno ∉ d.victims.map Victim.segno)
    (count : entry.nrValidBlock = countSet entry.blockValidityTable blocksPerSegment) :
    DstWellFormed (dstSet d segno entry) := by
  refine ⟨?_, wf.sorted, ?_, wf.nodup, wf.listed⟩
  · intro other bound
    by_cases same : other = segno
    · simpa [dstSet, same] using count
    · simpa [dstSet, update_of_ne same] using wf.count other bound
  · intro victim member
    have differs : victim.segno ≠ segno := fun equal =>
      unlisted (equal ▸ mem_map_of_mem member)
    simpa [dstSet, update_of_ne differs] using wf.victim victim member

theorem DstWellFormed.addVictim (wf : DstWellFormed d) (bound : segno < d.nrSegment)
    (unlisted : segno ∉ d.victims.map Victim.segno)
    (notFull : (d.array segno).nrValidBlock < blocksPerSegment) :
    DstWellFormed (dstAddVictim d segno (d.array segno).nrValidBlock
      (d.array segno).blockValidityTable) := by
  have perm := perm_orderedInsert victimLess
    ⟨segno, (d.array segno).nrValidBlock, (d.array segno).blockValidityTable⟩ d.victims
  have segnos := perm.map Victim.segno
  refine ⟨wf.count, sorted_orderedInsert _ wf.sorted, ?_, ?_, ?_⟩
  · intro victim member
    rcases (mem_orderedInsert _).mp member with rfl | member
    · exact ⟨bound, rfl, rfl, notFull⟩
    · exact wf.victim victim member
  · exact segnos.nodup_iff.mpr (nodup_cons.mpr ⟨unlisted, wf.nodup⟩)
  · intro other
    rw [dstAddVictim, segnos.mem_iff, map_cons, mem_cons, ← wf.listed other]
    by_cases same : other = segno
    · simp [same]
    · simp [same]

theorem dstSet_removeVictim (d : Dst) (segno other : Nat) (entry : DstEntry) :
    dstRemoveVictim (dstSet d segno entry) other =
      dstSet (dstRemoveVictim d other) segno entry := by
  unfold dstRemoveVictim dstSet
  simp only
  split <;> rfl

theorem DstWellFormed.setRemove (wf : DstWellFormed d)
    (count : entry.nrValidBlock = countSet entry.blockValidityTable blocksPerSegment) :
    DstWellFormed (dstRemoveVictim (dstSet d segno entry) segno) := by
  rw [dstSet_removeVictim]
  refine (wf.removeVictim segno).set ?_ count
  rw [mem_segno_dstRemoveVictim wf]
  exact fun member => member.2 rfl

section

variable (d segno entry)

@[simp] theorem dstStore_array : (dstStore d segno entry).array = update d.array segno entry := by
  rw [dstStore, dstUpdateVictim_eq]
  split <;> simp [dstAddVictim, dstSet]

@[simp] theorem dstStore_nrSegment : (dstStore d segno entry).nrSegment = d.nrSegment := by
  rw [dstStore, dstUpdateVictim_eq]
  split <;> simp [dstAddVictim, dstSet]

end

theorem DstWellFormed.store (wf : DstWellFormed d) (bound : segno < d.nrSegment)
    (count : entry.nrValidBlock = countSet entry.blockValidityTable blocksPerSegment) :
    DstWellFormed (dstStore d segno entry) := by
  have removed : DstWellFormed (dstRemoveVictim (dstSet d segno entry) segno) :=
    wf.setRemove count
  rw [dstStore, dstUpdateVictim_eq]
  split
  · exact removed
  · rename_i notFull
    have unlisted : segno ∉
        (dstRemoveVictim (dstSet d segno entry) segno).victims.map Victim.segno := by
      rw [dstSet_removeVictim]
      simp only [dstSet]
      rw [mem_segno_dstRemoveVictim wf]
      exact fun member => member.2 rfl
    have added := removed.addVictim (by simpa [dstSet] using bound) unlisted
    simp only [dstRemoveVictim_array, dstSet, update_self] at added
    exact added (Nat.lt_of_not_le notFull)

theorem mem_victims_dstStore (wf : DstWellFormed d) :
    victim ∈ (dstStore d segno entry).victims ↔
      (victim ∈ d.victims ∧ victim.segno ≠ segno) ∨
        (victim = ⟨segno, entry.nrValidBlock, entry.blockValidityTable⟩ ∧
          entry.nrValidBlock < blocksPerSegment) := by
  rw [dstStore, dstUpdateVictim_eq, dstSet_removeVictim]
  split
  · rename_i full
    simp only [dstSet, mem_dstRemoveVictim wf]
    constructor
    · exact .inl
    · rintro (member | ⟨-, notFull⟩)
      · exact member
      · exact absurd notFull (Nat.not_lt.mpr full)
  · rename_i notFull
    simp only [dstAddVictim, dstSet, mem_orderedInsert, mem_dstRemoveVictim wf]
    constructor
    · rintro (rfl | member)
      · exact .inr ⟨rfl, Nat.lt_of_not_le notFull⟩
      · exact .inl member
    · rintro (member | ⟨rfl, -⟩)
      · exact .inr member
      · exact .inl rfl

section

variable (bound : segno < d.nrSegment)
include bound

theorem Dst.getEntry_quiet : Dst.getEntry .quiet d segno = .ok (d.array segno) :=
  if_pos ⟨bound, rfl⟩

theorem Dst.setEntry_quiet : Dst.setEntry .quiet d segno entry = .ok (dstSet d segno entry) :=
  if_pos bound

theorem Dst.storeEntry_quiet :
    Dst.storeEntry .quiet d segno entry = (.ok (), dstStore d segno entry) := by
  simp only [Dst.storeEntry, Dst.setEntry_quiet bound, dstStore, dstUpdateVictim, Dst.updateVictim]
  split <;> rfl

end

def dstCleared (d : Dst) (blkaddr : Nat) : Dst :=
  dstStore d (blockToSegment blkaddr)
    ⟨(d.array (blockToSegment blkaddr)).nrValidBlock - 1,
      Function.update (d.array (blockToSegment blkaddr)).blockValidityTable
        (blockOffsetWithinSegment blkaddr) false⟩

def dstMarked (d : Dst) (blkaddr : Nat) : Dst :=
  dstStore d (blockToSegment blkaddr)
    ⟨(d.array (blockToSegment blkaddr)).nrValidBlock + 1,
      Function.update (d.array (blockToSegment blkaddr)).blockValidityTable
        (blockOffsetWithinSegment blkaddr) true⟩

def dstFilled (d : Dst) (segno : Nat) : Dst :=
  dstRemoveVictim (dstSet d segno ⟨blocksPerSegment, fun _ => true⟩) segno

variable {blkaddr : Nat}

section

variable (wf : DstWellFormed d) (bound : blockToSegment blkaddr < d.nrSegment)
include wf bound

theorem DstWellFormed.nrValidBlock_pos (set : dstBit d blkaddr = true) :
    0 < (d.array (blockToSegment blkaddr)).nrValidBlock := by
  rw [wf.count _ bound, Nat.pos_iff_ne_zero]
  intro zero
  have clear := countSet_eq_zero_iff.mp zero _ (blockOffset_lt blkaddr)
  rw [dstBit, clear] at set
  contradiction

theorem DstWellFormed.nrValidBlock_lt (clear : dstBit d blkaddr = false) :
    (d.array (blockToSegment blkaddr)).nrValidBlock < blocksPerSegment := by
  rw [wf.count _ bound]
  refine (countSet_le _ _).lt_of_ne fun full => ?_
  have set := countSet_eq_self_iff.mp full _ (blockOffset_lt blkaddr)
  rw [dstBit, set] at clear
  contradiction

theorem dstReturnBlock_eq (set : dstBit d blkaddr = true) :
    dstReturnBlock d blkaddr = .ok (dstCleared d blkaddr) := by
  have positive := wf.nrValidBlock_pos bound set
  simp only [dstReturnBlock, Dst.returnBlock, Dst.getEntry_quiet bound, Nat.ne_of_gt positive,
    if_false, Dst.storeEntry_quiet bound]
  rfl

theorem dstTakeBlock_eq (clear : dstBit d blkaddr = false) :
    dstTakeBlock d blkaddr = .ok (dstMarked d blkaddr) := by
  have notFull := wf.nrValidBlock_lt bound clear
  simp only [dstTakeBlock, Dst.takeBlock, Dst.getEntry_quiet bound, Nat.not_le.mpr notFull,
    if_false, Dst.storeEntry_quiet bound]
  rfl

end

theorem dstTakeSegment_eq (bound : segno < d.nrSegment) (empty : (d.array segno).nrValidBlock = 0) :
    dstTakeSegment d segno = .ok (dstFilled d segno) := by
  simp only [dstTakeSegment, Dst.takeSegment, Dst.getEntry_quiet bound, empty,
    Dst.setEntry_quiet bound, ne_eq, not_true_eq_false, if_false]
  rfl

theorem blkaddr_ext {left right : Nat} (segment : blockToSegment left = blockToSegment right)
    (offset : blockOffsetWithinSegment left = blockOffsetWithinSegment right) : left = right := by
  rw [← blkaddr_eq left, ← blkaddr_eq right, segment, offset]

theorem dstBit_dstStore_update (d : Dst) (blkaddr nrValid : Nat) (value : Bool) (other : Nat) :
    dstBit (dstStore d (blockToSegment blkaddr) ⟨nrValid,
      update (d.array (blockToSegment blkaddr)).blockValidityTable
        (blockOffsetWithinSegment blkaddr) value⟩) other =
      if other = blkaddr then value else dstBit d other := by
  simp only [dstBit, dstStore_array]
  by_cases segment : blockToSegment other = blockToSegment blkaddr
  · rw [segment, update_self]
    simp only
    by_cases offset : blockOffsetWithinSegment other = blockOffsetWithinSegment blkaddr
    · rw [offset, update_self, if_pos (blkaddr_ext segment offset)]
    · rw [update_of_ne offset, if_neg fun equal => offset (congrArg _ equal)]
  · rw [update_of_ne segment, if_neg fun equal => segment (congrArg _ equal)]

theorem dstBit_dstCleared (d : Dst) (blkaddr other : Nat) :
    dstBit (dstCleared d blkaddr) other = if other = blkaddr then false else dstBit d other :=
  dstBit_dstStore_update d blkaddr _ false other

theorem dstBit_dstMarked (d : Dst) (blkaddr other : Nat) :
    dstBit (dstMarked d blkaddr) other = if other = blkaddr then true else dstBit d other :=
  dstBit_dstStore_update d blkaddr _ true other

theorem dstBit_dstFilled (d : Dst) (segno other : Nat) :
    dstBit (dstFilled d segno) other =
      if blockToSegment other = segno then true else dstBit d other := by
  simp only [dstBit, dstFilled, dstRemoveVictim_array, dstSet]
  by_cases segment : blockToSegment other = segno
  · rw [segment, update_self, if_pos rfl]
  · rw [update_of_ne segment, if_neg segment]

theorem DstWellFormed.cleared (wf : DstWellFormed d)
    (bound : blockToSegment blkaddr < d.nrSegment) (set : dstBit d blkaddr = true) :
    DstWellFormed (dstCleared d blkaddr) := by
  refine wf.store bound ?_
  have fewer := countSet_clear (blockOffset_lt blkaddr) set
  have count := wf.count _ bound
  simp only
  omega

theorem DstWellFormed.marked (wf : DstWellFormed d) (bound : blockToSegment blkaddr < d.nrSegment)
    (clear : dstBit d blkaddr = false) :
    DstWellFormed (dstMarked d blkaddr) := by
  refine wf.store bound ?_
  have more := countSet_set (blockOffset_lt blkaddr) clear
  have count := wf.count _ bound
  simp only
  omega

theorem DstWellFormed.filled (wf : DstWellFormed d) (segno : Nat) :
    DstWellFormed (dstFilled d segno) :=
  wf.setRemove (countSet_eq_self_iff.mpr fun _ _ => rfl).symm

@[simp] theorem dstCleared_nrSegment (d : Dst) (blkaddr : Nat) :
    (dstCleared d blkaddr).nrSegment = d.nrSegment :=
  dstStore_nrSegment ..

@[simp] theorem dstMarked_nrSegment (d : Dst) (blkaddr : Nat) :
    (dstMarked d blkaddr).nrSegment = d.nrSegment :=
  dstStore_nrSegment ..

@[simp] theorem dstFilled_nrSegment (d : Dst) (segno : Nat) :
    (dstFilled d segno).nrSegment = d.nrSegment := by
  simp [dstFilled, dstSet]

/-- The state of `dst_load` when it has come to segment `start` of a table with these
entries. -/
structure Dst.Loaded (allocates : Nat → Bool) (nrSegment : Nat) (array : Nat → DstEntry)
    (start : Nat) (d : Dst) : Prop where
  wellFormed : DstWellFormed d
  victims : ∀ segno, segno ∈ d.victims.map Victim.segno ↔ segno < start ∧
    (array segno).nrValidBlock < blocksPerSegment ∧ allocates segno = true
  array : d.array = array
  nrSegment : d.nrSegment = nrSegment

section

variable {allocates : Nat → Bool} {nrSegment start : Nat} {array : Nat → DstEntry}

theorem Dst.Loaded.loadSegment (loaded : Dst.Loaded allocates nrSegment array start d)
    (inside : start < nrSegment) :
    Dst.Loaded allocates nrSegment array (start + 1) (Dst.loadSegment allocates d start) := by
  obtain ⟨wf, victims, rfl, rfl⟩ := loaded
  have unlisted : start ∉ d.victims.map Victim.segno := by
    rw [victims]
    exact fun member => lt_irrefl start member.1
  unfold Dst.loadSegment Dst.addVictim
  by_cases notFull : (d.array start).nrValidBlock < blocksPerSegment
  · cases memory : allocates start with
    | false =>
      simp only [notFull, Bool.false_eq_true, if_true, if_false]
      refine ⟨wf, fun segno => ?_, rfl, rfl⟩
      rw [victims]
      grind
    | true =>
      have segnos := (perm_orderedInsert victimLess ⟨start, (d.array start).nrValidBlock,
        (d.array start).blockValidityTable⟩ d.victims).map Victim.segno
      simp only [notFull, if_true]
      refine ⟨wf.addVictim inside unlisted notFull, fun segno => ?_, rfl, rfl⟩
      simp only [dstAddVictim, segnos.mem_iff, map_cons, mem_cons, victims]
      grind
  · simp only [notFull, if_false]
    refine ⟨wf, fun segno => ?_, rfl, rfl⟩
    rw [victims]
    grind

theorem Dst.Loaded.loadSegments {count : Nat}
    (loaded : Dst.Loaded allocates nrSegment array start d)
    (inside : start + count ≤ nrSegment) :
    Dst.Loaded allocates nrSegment array (start + count)
      ((range' start count).foldl (Dst.loadSegment allocates) d) := by
  induction count generalizing start d with
  | zero => exact loaded
  | succ count ih =>
    rw [range'_succ, foldl_cons, ← Nat.succ_add_eq_add_succ]
    exact ih (loaded.loadSegment (by omega)) (by omega)

theorem Dst.loaded_load (allocates : Nat → Bool)
    (count : ∀ segno < nrSegment, (array segno).nrValidBlock =
      countSet (array segno).blockValidityTable blocksPerSegment) :
    Dst.Loaded allocates nrSegment array nrSegment (Dst.load allocates nrSegment array) := by
  have start : Dst.Loaded allocates nrSegment array 0 ⟨nrSegment, array, fun _ => false, []⟩ :=
    ⟨⟨count, Pairwise.nil, by simp, nodup_nil, by simp⟩, by simp, rfl, rfl⟩
  have loaded := start.loadSegments (Nat.zero_add nrSegment).le
  rwa [Nat.zero_add, ← range_eq_range'] at loaded

theorem dstWellFormed_init (count : ∀ segno < nrSegment, (array segno).nrValidBlock =
      countSet (array segno).blockValidityTable blocksPerSegment) :
    DstWellFormed (dstInit nrSegment array) :=
  (Dst.loaded_load _ count).wellFormed

end

theorem dstLoad_array (d : Dst) (segnos : List Nat) :
    (segnos.foldl (Dst.loadSegment fun _ => true) d).array = d.array ∧
      (segnos.foldl (Dst.loadSegment fun _ => true) d).nrSegment = d.nrSegment := by
  induction segnos generalizing d with
  | nil => exact ⟨rfl, rfl⟩
  | cons segno segnos ih =>
    obtain ⟨array, nrSegment⟩ := ih (Dst.loadSegment (fun _ => true) d segno)
    rw [foldl_cons, array, nrSegment, Dst.loadSegment]
    split <;> exact ⟨rfl, rfl⟩

variable (nrSegment : Nat) (array : Nat → DstEntry)

@[simp] theorem dstInit_array : (dstInit nrSegment array).array = array :=
  (dstLoad_array _ _).1

@[simp] theorem dstInit_nrSegment : (dstInit nrSegment array).nrSegment = nrSegment :=
  (dstLoad_array _ _).2

end SwornDisk.C
