import SwornDisk.C.VictimTree

/-!
# Allocation of a segment

`sa_alloc` changes the validity table, the number of valid segments and the data segment table one
after the other and returns at the first error.  Nothing is undone: when the last step refuses the
segment, its bit stays set and it stays counted.
-/

namespace SwornDisk.C

open Lib Function

namespace SaTables

/-- The tables, the count and `*seg` are as before; the cursor of the scan may have moved. -/
structure Unchanged (s t : SaTables) : Prop where
  table : t.segValidator.segValidityTable = s.segValidator.segValidityTable
  nrValidSegment : t.nrValidSegment = s.nrValidSegment
  dst : t.dst = s.dst
  seg : t.seg = s.seg

/-- `*seg` was free, is marked valid, and all its blocks are. -/
structure Took (s t : SaTables) : Prop where
  inside : t.seg < s.segValidator.nrSegment
  free : s.segValidator.segValidityTable t.seg = false
  valid : t.segValidator.segValidityTable t.seg = true
  blocks : ∀ offset < blocksPerSegment, (t.dst.array t.seg).blockValidityTable offset = true

/-- An error leaves everything as it was, a success takes a free segment. -/
def Atomic (io : SaIo) (s : SaTables) : Prop :=
  (∀ err, (saAllocTables io s).1 = .error err → s.Unchanged (saAllocTables io s).2) ∧
    ((saAllocTables io s).1 = .ok () → s.Took (saAllocTables io s).2)

end SaTables

/-- Whether `dst_take_segment` succeeds. -/
def Dst.CanTake (io : DstIo) (d : Dst) (seg : Nat) : Prop :=
  seg < d.nrSegment ∧ io.reads = true ∧ io.writes = true ∧ (d.array seg).nrValidBlock = 0

variable {io : DstIo} {d : Dst} {seg : Nat}

theorem takeSegment_of_canTake (can : d.CanTake io seg) :
    Dst.takeSegment io d seg =
      (.ok (), dstRemoveVictim (dstSet d seg ⟨blocksPerSegment, fun _ => true⟩) seg) := by
  obtain ⟨inside, reads, writes, empty⟩ := can
  simp only [Dst.takeSegment, Dst.getEntry, Dst.setEntry, inside, reads, writes, empty, and_self,
    if_true, ne_eq, not_true_eq_false, if_false]

theorem takeSegment_of_not_canTake (cannot : ¬ d.CanTake io seg) :
    ∃ err, Dst.takeSegment io d seg = (.error err, d) := by
  unfold Dst.takeSegment
  cases got : Dst.getEntry io d seg with
  | error err => exact ⟨err, rfl⟩
  | ok entry =>
    simp only
    split
    · exact ⟨_, rfl⟩
    · rename_i empty
      unfold Dst.getEntry at got
      split at got
      · rename_i reads
        obtain rfl := Except.ok.inj got
        have refused : io.writes = false := by
          by_contra writes
          exact cannot ⟨reads.1, reads.2, Bool.eq_true_of_not_eq_false writes, not_not.mp empty⟩
        simp only [Dst.setEntry, reads.1, refused, if_true, Bool.false_eq_true, if_false]
        exact ⟨_, rfl⟩
      · cases got

theorem scanNext_spec (io : SaIo) (v : SegValidator) :
    (∃ cursor, (scanNext io v).2 = { v with curSegment := cursor }) ∧
      ∀ seg, (scanNext io v).1 = .ok seg → seg < v.nrSegment ∧ v.segValidityTable seg = false := by
  unfold scanNext segValidatorScan
  split
  · rename_i first found
    obtain ⟨lower, upper, clear⟩ := firstClear_eq_some found
    refine ⟨⟨_, rfl⟩, fun seg same => ?_⟩
    obtain rfl := Except.ok.inj same
    exact ⟨by omega, (Bool.or_eq_false_iff.mp clear).1⟩
  · split
    · rename_i first found
      obtain ⟨lower, upper, clear⟩ := firstClear_eq_some found
      refine ⟨⟨_, rfl⟩, fun seg same => ?_⟩
      obtain rfl := Except.ok.inj same
      exact ⟨by omega, (Bool.or_eq_false_iff.mp clear).1⟩
    · exact ⟨⟨_, rfl⟩, fun seg same => by cases same⟩

/-- What a call must find: the scan finds no segment, or the data segment table can take the one it
finds, or its bit is not stored and `*seg` was that segment already. -/
def SaTables.CanTake (io : SaIo) (s : SaTables) : Prop :=
  ∀ seg, (scanNext io s.segValidator).1 = .ok seg →
    if io.svtStores then s.dst.CanTake io.dst seg else s.seg = seg

/-- `sa_alloc` is atomic exactly on these. -/
theorem saAllocTables_atomic_iff (io : SaIo) (s : SaTables) : s.Atomic io ↔ s.CanTake io := by
  obtain ⟨⟨cursor, moved⟩, found⟩ := scanNext_spec io s.segValidator
  unfold SaTables.Atomic SaTables.CanTake saAllocTables takeBit
  simp only
  cases scanned : (scanNext io s.segValidator).1 with
  | error err =>
    simp only [moved]
    exact ⟨fun _ => nofun, fun _ => ⟨fun _ _ => ⟨rfl, rfl, rfl, rfl⟩, nofun⟩⟩
  | ok seg =>
    obtain ⟨inside, free⟩ := found seg scanned
    simp only [moved, Except.ok.injEq, forall_eq']
    cases stores : io.svtStores with
    | false =>
      simp only [Bool.false_eq_true, if_false]
      exact ⟨fun atomic => (atomic.1 _ rfl).seg.symm,
        fun same => ⟨fun _ _ => ⟨rfl, rfl, rfl, same.symm⟩, nofun⟩⟩
    | true =>
      simp only [if_true, segValidatorTake, inside]
      by_cases can : s.dst.CanTake io.dst seg
      · simp only [takeSegment_of_canTake can, can, iff_true]
        refine ⟨nofun, fun _ => ⟨inside, free, update_self _ _ _, fun offset _ => ?_⟩⟩
        simp only [dstRemoveVictim_array, dstSet, update_self]
      · obtain ⟨err, refused⟩ := takeSegment_of_not_canTake can
        simp only [refused, can, iff_false]
        intro atomic
        have same := congrFun (atomic.1 err rfl).table seg
        simp only [update_self, free] at same
        cases same

/-- The only segment is free and its entry still counts a valid block, as `sa_foreground_gc` can
leave it: the call fails, and the segment is marked valid and counted. -/
def leftoverTables : SaTables where
  segValidator := segValidatorFormat 1
  nrValidSegment := 0
  dst := ⟨1, fun _ => ⟨1, fun offset => offset == 0⟩, fun _ => false, []⟩
  seg := 7

theorem leftoverTables_not_atomic :
    (saAllocTables .quiet leftoverTables).1 = .error .einval ∧
      (saAllocTables .quiet leftoverTables).2.segValidator.segValidityTable 0 = true ∧
      (saAllocTables .quiet leftoverTables).2.nrValidSegment = 1 ∧
      (saAllocTables .quiet leftoverTables).2.seg = 0 ∧ ¬ leftoverTables.Atomic .quiet := by
  refine ⟨rfl, rfl, rfl, rfl, fun atomic => ?_⟩
  have same := (atomic.1 .einval rfl).nrValidSegment
  cases same

end SwornDisk.C
