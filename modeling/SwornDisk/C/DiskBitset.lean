import SwornDisk.C.MetadataLayout
import SwornDisk.Lib.Bytes

/-!
# Bitsets on the metadata device

`disk_bitset` packs its bits into longs and these into blocks, and every update reads a long and
writes it back.  Seen through `get`, an update changes one bit.  `seg_validator` on such a bitset
is the one of `SegValidator`, for data segments as for file identifiers.
-/

namespace SwornDisk.C

open Lib List Function

variable {index start nrBit : Nat}

abbrev BlockStore : Type := Nat → Memory

namespace DiskArray

def entryOffset (a : DiskArray) (index : Nat) : Nat :=
  index % a.entriesPerBlock * a.entrySize

def set (a : DiskArray) (index : Nat) (entry : List UInt8) (bm : BlockStore) :
    Except Errno BlockStore := do
  let block ← a.entryBlock index
  return Function.update bm block ((bm block).write (a.entryOffset index) entry)

def get (a : DiskArray) (index : Nat) (bm : BlockStore) : Except Errno (List UInt8) := do
  let block ← a.entryBlock index
  return (bm block).read (a.entryOffset index) a.entrySize

/-- The bytes that `disk_array_format` puts into a block.  The total is a multiple of the size of
a block, so each cycle is a whole one. -/
def formatted (value : Bool) : List UInt8 :=
  List.replicate metadataBlockSize (if value then 0xff else 0)

def format (a : DiskArray) (value : Bool) (bm : BlockStore) : BlockStore :=
  a.formatBlocks.foldl
    (fun bm block => Function.update bm block ((bm block).write 0 (formatted value))) bm

variable {a : DiskArray}

theorem entryBlock_ok (inside : index < a.nrEntry) :
    a.entryBlock index = .ok (a.start + index / a.entriesPerBlock) :=
  if_neg (Nat.not_le.mpr inside)

theorem get_set (inside : index < a.nrEntry) {entry : List UInt8}
    (sized : entry.length = a.entrySize) (bm : BlockStore) :
    ∃ bm', a.set index entry bm = .ok bm' ∧ a.get index bm' = .ok entry ∧
      ∀ other ≠ index, a.get other bm' = a.get other bm := by
  have block := entryBlock_ok inside
  refine ⟨_, by rw [set, block]; rfl, ?_, fun other differ => ?_⟩
  · rw [get, block, ← sized]
    change Except.ok _ = _
    rw [update_self, Memory.read_write_same]
  · unfold get entryBlock
    split
    · rfl
    · change Except.ok _ = Except.ok _
      by_cases same : other / a.entriesPerBlock = index / a.entriesPerBlock
      · -- Two entries of one block differ in their offset by at least their size.
        have apart : other % a.entriesPerBlock ≠ index % a.entriesPerBlock := fun offset =>
          differ (by rw [← Nat.div_add_mod other a.entriesPerBlock, same, offset, Nat.div_add_mod])
        rw [same, update_self, Memory.read_write_disjoint]
        rw [sized, entryOffset, entryOffset]
        rcases Nat.lt_or_gt_of_ne apart with less | greater
        · exact .inl (by rw [← Nat.succ_mul]; exact Nat.mul_le_mul_right _ less)
        · exact .inr (by rw [← Nat.succ_mul]; exact Nat.mul_le_mul_right _ greater)
      · rw [update_of_ne fun equal => same (Nat.add_left_cancel equal)]

theorem foldl_format (value : Bool) (blocks : List Nat) (bm : BlockStore) {block address : Nat}
    (member : block ∈ blocks ∨ bm block address = if value then 0xff else 0)
    (inside : address < metadataBlockSize) :
    blocks.foldl (fun bm block => update bm block ((bm block).write 0 (formatted value)))
      bm block address = if value then 0xff else 0 := by
  have here : (formatted value)[address]? = some (if value then 0xff else 0) :=
    getElem?_replicate_of_lt inside
  induction blocks generalizing bm with
  | nil => exact member.resolve_left not_mem_nil
  | cons first rest ih =>
    refine ih _ ?_
    by_cases same : block = first
    · subst same
      have written : (bm block).write 0 (formatted value) (0 + address) = _ :=
        (bm block).write_inside here
      rw [Nat.zero_add] at written
      exact .inr ((congrFun (update_self block _ bm) address).trans written)
    · refine member.imp (fun listed => (mem_cons.mp listed).resolve_left same) fun before => ?_
      exact (congrFun (update_of_ne same _ bm) address).trans before

theorem get_format {start nrEntry entrySize : Nat} (some : 0 < entrySize)
    (small : entrySize ≤ metadataBlockSize) (value : Bool) (bm : BlockStore)
    (inside : index < nrEntry) :
    (diskArrayInit start nrEntry entrySize).get index
        ((diskArrayInit start nrEntry entrySize).format value bm) =
      .ok (replicate entrySize (if value then 0xff else 0)) := by
  rw [get, entryBlock_ok inside]
  refine congrArg Except.ok (eq_replicate_iff.mpr ⟨Memory.length_read _ _ _, ?_⟩)
  intro byte member
  obtain ⟨i, below, rfl⟩ := mem_map.mp member
  have size : i < entrySize := mem_range.mp below
  refine foldl_format value _ bm (.inl ?_) ?_
  · exact (mem_formatBlocks ..).mpr
      ((touches_diskArrayInit some small _).mp (.inl ⟨index, entryBlock_ok inside⟩))
  · have row := Nat.mul_le_mul_right entrySize
      (Nat.mod_lt index (Nat.div_pos small some : 0 < metadataBlockSize / entrySize))
    have whole := Nat.div_mul_le_self metadataBlockSize entrySize
    change index % (metadataBlockSize / entrySize) * entrySize + i < metadataBlockSize
    rw [Nat.succ_mul] at row
    omega

end DiskArray

/-- An `unsigned long` in memory. -/
def loadLong (bytes : List UInt8) : BitVec 64 := BitVec.ofNat 64 (ofLeBytes bytes)

def storeLong (group : BitVec 64) : List UInt8 := leBytes longSize group.toNat

theorem loadLong_storeLong (group : BitVec 64) : loadLong (storeLong group) = group := by
  have fits : group.toNat < 256 ^ longSize := group.isLt
  rw [loadLong, storeLong, ofLeBytes_leBytes, Nat.mod_eq_of_lt fits, BitVec.ofNat_toNat,
    BitVec.setWidth_eq]

/-- `set_bit` and `clear_bit`. -/
def withBit (group : BitVec 64) (offset : Nat) (set : Bool) : BitVec 64 :=
  if set then group ||| 1#64 <<< offset else group &&& ~~~(1#64 <<< offset)

theorem getLsbD_withBit (group : BitVec 64) {offset other : Nat} (inside : other < 64)
    (set : Bool) :
    (withBit group offset set).getLsbD other =
      if other = offset then set else group.getLsbD other := by
  have mask : (1#64 <<< offset).getLsbD other = decide (other = offset) := by
    rw [← BitVec.twoPow_eq, BitVec.getLsbD_twoPow]
    by_cases same : offset = other
    · simp [same, inside]
    · simp [same, Ne.symm same]
  cases set with
  | true =>
    rw [withBit, if_pos rfl, BitVec.getLsbD_or, mask]
    split <;> simp [*]
  | false =>
    rw [withBit, if_neg Bool.false_ne_true, BitVec.getLsbD_and, BitVec.getLsbD_not, mask]
    split <;> simp [*]

variable {b : DiskBitset} {bm : BlockStore}

namespace DiskBitset

def operate (b : DiskBitset) (index : Nat) (set : Bool) (bm : BlockStore) :
    Except Errno BlockStore :=
  if b.nrBit ≤ index then .error .einval
  else do
    let group ← b.array.get (index / bitsPerLong) bm
    b.array.set (index / bitsPerLong)
      (storeLong (withBit (loadLong group) (index % bitsPerLong) set)) bm

/-- `disk_bitset_get`, which leaves the check of the index to the array. -/
def get (b : DiskBitset) (index : Nat) (bm : BlockStore) : Except Errno Bool := do
  let group ← b.array.get (index / bitsPerLong) bm
  return (loadLong group).getLsbD (index % bitsPerLong)

def format (b : DiskBitset) (value : Bool) (bm : BlockStore) : BlockStore :=
  b.array.format value bm

/-- The bits as `get` reads them; one that it refuses counts as set. -/
def bits (b : DiskBitset) (bm : BlockStore) (index : Nat) : Bool :=
  match b.get index bm with
  | .ok bit => bit
  | .error _ => true

theorem group_lt (inside : index < nrBit) : index / bitsPerLong < diskBitsetNrGroup nrBit := by
  unfold bitsPerLong diskBitsetNrGroup bitsPerLong
  split <;> omega

theorem bits_of_get {group : List UInt8} (read : b.array.get (index / bitsPerLong) bm = .ok group) :
    b.bits bm index = (loadLong group).getLsbD (index % bitsPerLong) := by
  rw [bits, get, read]
  rfl

theorem exists_group (inside : index < nrBit) (bm : BlockStore) :
    ∃ group, (diskBitsetInit start nrBit).array.get (index / bitsPerLong) bm = .ok group :=
  ⟨_, by rw [DiskArray.get, DiskArray.entryBlock_ok (group_lt inside)]; rfl⟩

theorem get_eq (inside : index < nrBit) (bm : BlockStore) :
    (diskBitsetInit start nrBit).get index bm =
      .ok ((diskBitsetInit start nrBit).bits bm index) := by
  obtain ⟨group, read⟩ := exists_group inside bm
  rw [bits_of_get read, get, read]
  rfl

theorem get_error {err : Errno} (failed : b.get index bm = .error err) : err = .einval := by
  unfold get DiskArray.get DiskArray.entryBlock at failed
  split at failed <;> cases failed
  rfl

theorem operate_eq (start : Nat) (inside : index < nrBit) (set : Bool) (bm : BlockStore) :
    ∃ bm', (diskBitsetInit start nrBit).operate index set bm = .ok bm' ∧
      (diskBitsetInit start nrBit).bits bm' =
        update ((diskBitsetInit start nrBit).bits bm) index set := by
  obtain ⟨group, read⟩ := exists_group inside bm
  have sized : (storeLong (withBit (loadLong group) (index % bitsPerLong) set)).length =
      (diskBitsetInit start nrBit).array.entrySize := length_leBytes _ _
  obtain ⟨bm', stored, here, others⟩ := DiskArray.get_set (group_lt inside) sized bm
  refine ⟨bm', ?_, funext fun other => ?_⟩
  · have below : ¬ (diskBitsetInit start nrBit).nrBit ≤ index := Nat.not_le.mpr inside
    rw [operate, if_neg below, read]
    exact stored
  · rw [update_apply]
    by_cases same : other / bitsPerLong = index / bitsPerLong
    · have offset : other % bitsPerLong = index % bitsPerLong ↔ other = index := by
        unfold bitsPerLong at same ⊢
        omega
      have below : other % bitsPerLong < 64 := Nat.mod_lt _ (by decide)
      rw [← same] at here read
      rw [bits_of_get here, bits_of_get read, loadLong_storeLong, getLsbD_withBit _ below]
      simp only [offset]
    · rw [if_neg fun equal => same (by rw [equal]), bits, get, others _ same]
      rfl

theorem bits_format (start : Nat) (inside : index < nrBit) (bm : BlockStore) :
    (diskBitsetInit start nrBit).bits ((diskBitsetInit start nrBit).format false bm) index =
      false := by
  have read : (diskBitsetInit start nrBit).array.get (index / bitsPerLong)
      ((diskBitsetInit start nrBit).format false bm) = _ :=
    DiskArray.get_format (by decide) (by decide) false bm (group_lt inside)
  have zero : loadLong (replicate longSize (if false then 0xff else 0)) = 0#64 := by decide
  rw [bits_of_get read, zero, BitVec.getLsbD_zero]

end DiskBitset

/-- The calls of a bitset: `set` and `clear`, `get`, and `format` with `false`. -/
inductive BitsetCall where
  | operate (index : Nat) (value : Bool)
  | get (index : Nat)
  | format

/-- One call: the code it returns, with the bit of a `get`, and the store it leaves. -/
def DiskBitset.call (b : DiskBitset) (bm : BlockStore) :
    BitsetCall → Except Errno (Option Bool) × BlockStore
  | .operate index value =>
    match b.operate index value bm with
    | .ok bm' => (.ok none, bm')
    | .error err => (.error err, bm)
  | .get index => ((b.get index bm).map some, bm)
  | .format => (.ok none, b.format false bm)

def DiskBitset.run (b : DiskBitset) (bm : BlockStore) (calls : List BitsetCall) : BlockStore :=
  calls.foldl (fun bm call => (b.call bm call).2) bm

/-- What a call makes of a vector.  An update outside the vector does nothing. -/
def vectorCall {n : Nat} (vector : Fin n → Bool) : BitsetCall → Fin n → Bool
  | .operate index value => fun i => if i.val = index then value else vector i
  | .get _ => vector
  | .format => fun _ => false

/-- What a call on a vector answers.  An update outside the vector is refused, and there is
nothing to get outside the vector. -/
def VectorAnswers {n : Nat} (vector : Fin n → Bool) :
    BitsetCall → Except Errno (Option Bool) → Prop
  | .operate index _, answer => answer = if index < n then .ok none else .error .einval
  | .get index, answer => ∀ inside : index < n, answer = .ok (some (vector ⟨index, inside⟩))
  | .format, answer => answer = .ok none

namespace DiskBitset

variable {bm : BlockStore} {vector : Fin nrBit → Bool}

def Holds (start : Nat) (bm : BlockStore) (vector : Fin nrBit → Bool) : Prop :=
  ∀ i : Fin nrBit, (diskBitsetInit start nrBit).bits bm i = vector i

theorem Holds.call (holds : Holds start bm vector) (call : BitsetCall) :
    Holds start ((diskBitsetInit start nrBit).call bm call).2 (vectorCall vector call) ∧
      VectorAnswers vector call ((diskBitsetInit start nrBit).call bm call).1 := by
  cases call with
  | operate index value =>
    rw [DiskBitset.call, vectorCall, VectorAnswers]
    by_cases inside : index < nrBit
    · obtain ⟨bm', updated, bits⟩ := operate_eq start inside value bm
      rw [updated, if_pos inside]
      refine ⟨fun i => ?_, rfl⟩
      rw [bits, update_apply, holds i]
    · rw [operate, if_pos (Nat.not_lt.mp inside : (diskBitsetInit start nrBit).nrBit ≤ index),
        if_neg inside]
      refine ⟨fun i => (holds i).trans (if_neg ?_).symm, rfl⟩
      rintro rfl
      exact inside i.isLt
  | get index =>
    refine ⟨holds, fun inside => ?_⟩
    rw [DiskBitset.call, get_eq inside, holds ⟨index, inside⟩]
    rfl
  | format => exact ⟨fun i => bits_format start i.isLt bm, rfl⟩

theorem Holds.run (holds : Holds start bm vector) (calls : List BitsetCall) :
    Holds start ((diskBitsetInit start nrBit).run bm calls) (calls.foldl vectorCall vector) := by
  induction calls generalizing bm vector with
  | nil => exact holds
  | cons call calls ih => exact ih (holds.call call).1

end DiskBitset

/-- `struct seg_validator` on the device. -/
structure DiskValidator where
  start : Nat
  nrSegment : Nat
  curSegment : Nat
  bm : BlockStore

namespace DiskValidator

section

variable (v : DiskValidator)

/-- The bitset that `seg_validator_init` makes. -/
def segValidityTable : DiskBitset := diskBitsetInit v.start v.nrSegment

/-- The table as it is read.  The scan of `seg_validator_next` passes over a segment whose bit is
not read. -/
def view : SegValidator :=
  ⟨v.nrSegment, v.curSegment, v.segValidityTable.bits v.bm⟩

def next : Except Errno Nat × DiskValidator :=
  let (found, scanned) := segValidatorNext v.view
  (found, { v with curSegment := scanned.curSegment })

def take (seg : Nat) : Except Errno DiskValidator := do
  let bm ← v.segValidityTable.operate seg true v.bm
  return { v with
    bm := bm
    curSegment := v.curSegment + 1 }

def testAndReturn (seg : Nat) : Except Errno (Bool × DiskValidator) := do
  let valid ← v.segValidityTable.get seg v.bm
  let bm ← v.segValidityTable.operate seg false v.bm
  return (valid, { v with bm := bm })

end

/-! The updates are those of `SegValidator`. -/

theorem operate_outside {v : DiskValidator} {seg : Nat} (outside : ¬ seg < v.nrSegment)
    (value : Bool) : v.segValidityTable.operate seg value v.bm = .error .einval :=
  if_pos (Nat.not_lt.mp outside)

theorem take_view (v : DiskValidator) (seg : Nat) :
    segValidatorTake v.view seg = (v.take seg).map view := by
  unfold take
  by_cases inside : seg < v.nrSegment
  · obtain ⟨bm', updated, bits⟩ := DiskBitset.operate_eq v.start inside true v.bm
    rw [segValidityTable, updated]
    refine (if_pos inside).trans ?_
    exact congrArg (fun table => Except.ok (SegValidator.mk v.nrSegment (v.curSegment + 1) table))
      bits.symm
  · rw [operate_outside inside]
    exact if_neg inside

theorem testAndReturn_view (v : DiskValidator) (seg : Nat) :
    segValidatorTestAndReturn v.view seg = (v.testAndReturn seg).map fun r => (r.1, r.2.view) := by
  unfold testAndReturn
  by_cases inside : seg < v.nrSegment
  · obtain ⟨bm', updated, bits⟩ := DiskBitset.operate_eq v.start inside false v.bm
    rw [segValidityTable, updated, DiskBitset.get_eq inside]
    refine (if_pos inside).trans ?_
    exact congrArg (fun table => Except.ok (v.view.segValidityTable seg,
      SegValidator.mk v.nrSegment v.curSegment table)) bits.symm
  · -- The index may be in the last group; then the bit is read and `clear` refuses.
    rw [operate_outside inside]
    refine (if_neg inside).trans ?_
    cases read : v.segValidityTable.get seg v.bm with
    | ok valid => rfl
    | error err =>
      rw [DiskBitset.get_error read]
      rfl

inductive Event where
  | nextThenTake
  | testAndReturn (seg : Nat)

/-- One event, with the segments that were handed out and not returned since. -/
def step (s : DiskValidator × List Nat) : Event → DiskValidator × List Nat
  | .nextThenTake =>
    match s.1.next.1 with
    | .error _ => (s.1.next.2, s.2)
    | .ok seg =>
      match s.1.next.2.take seg with
      | .error _ => (s.1.next.2, s.2)
      | .ok v => (v, seg :: s.2)
  | .testAndReturn seg =>
    match s.1.testAndReturn seg with
    | .error _ => s
    | .ok (_, v) => (v, s.2.filter (· != seg))

/-- What `seg_validator_next` does now: it returns a free segment that is not in use if there is
one, and `take` does not refuse it. -/
structure Allocates (s : DiskValidator × List Nat) : Prop where
  ok : ∀ seg, s.1.next.1 = .ok seg → seg < s.1.nrSegment ∧
    s.1.segValidityTable.get seg s.1.bm = .ok false ∧ seg ∉ s.2 ∧
    ∃ v, s.1.next.2.take seg = .ok v
  found : (∃ seg < s.1.nrSegment, s.1.segValidityTable.get seg s.1.bm = .ok false) →
    ∃ seg, s.1.next.1 = .ok seg
  full : s.1.next.1 = .error .enodata ↔
    ∀ seg < s.1.nrSegment, s.1.segValidityTable.get seg s.1.bm = .ok true

variable {v : DiskValidator} {seg : Nat} {s : DiskValidator × List Nat}

theorem take_of_next (found : v.next.1 = .ok seg) :
    seg < v.nrSegment ∧ v.view.segValidityTable seg = false ∧
      ∃ taken, v.next.2.take seg = .ok taken ∧
        taken.view.segValidityTable = update v.view.segValidityTable seg true := by
  obtain ⟨inside, clear⟩ := segValidatorNext_ok found
  have takes := v.next.2.take_view seg
  have holds : seg < v.next.2.view.nrSegment := inside
  rw [segValidatorTake, if_pos holds] at takes
  cases taken : v.next.2.take seg with
  | error err =>
    rw [taken] at takes
    cases takes
  | ok next =>
    rw [taken] at takes
    exact ⟨inside, clear, next, rfl, congrArg SegValidator.segValidityTable
      (Except.ok.inj takes).symm⟩

def Marked (s : DiskValidator × List Nat) : Prop :=
  ∀ seg ∈ s.2, s.1.view.segValidityTable seg = true

theorem Marked.step (marked : Marked s) (event : Event) : Marked (DiskValidator.step s event) := by
  cases event with
  | nextThenTake =>
    rw [DiskValidator.step]
    cases found : s.1.next.1 with
    | error err => exact marked
    | ok seg =>
      obtain ⟨-, -, taken, takes, table⟩ := take_of_next found
      simp only [takes]
      intro other member
      rw [table, update_apply]
      split
      · rfl
      · rename_i differ
        exact marked other ((mem_cons.mp member).resolve_left differ)
  | testAndReturn seg =>
    have viewed := s.1.testAndReturn_view seg
    rw [DiskValidator.step]
    cases returned : s.1.testAndReturn seg with
    | error err => exact marked
    | ok result =>
      rw [returned, segValidatorTestAndReturn] at viewed
      split at viewed
      · have table := congrArg SegValidator.segValidityTable
          (Prod.mk.inj (Except.ok.inj viewed)).2
        intro other member
        obtain ⟨before, differ⟩ := mem_filter.mp member
        rw [← table]
        exact (update_of_ne (bne_iff_ne.mp differ) _ _).trans (marked other before)
      · cases viewed

theorem Marked.allocates (marked : Marked s) : Allocates s := by
  have get : ∀ seg < s.1.nrSegment, s.1.segValidityTable.get seg s.1.bm =
      .ok (s.1.view.segValidityTable seg) := fun seg inside => DiskBitset.get_eq inside s.1.bm
  have found : (∃ seg < s.1.nrSegment, s.1.segValidityTable.get seg s.1.bm = .ok false) →
      ∃ seg, s.1.next.1 = .ok seg := by
    rintro ⟨seg, inside, clear⟩
    exact segValidatorNext_isOk_of_clear inside (Except.ok.inj ((get seg inside).symm.trans clear))
  refine ⟨fun seg isNext => ?_, found, fun failed seg inside => ?_, fun full => ?_⟩
  · obtain ⟨inside, clear, taken, takes, -⟩ := take_of_next isNext
    refine ⟨inside, by rw [get seg inside, clear], fun member => ?_, taken, takes⟩
    rw [marked seg member] at clear
    cases clear
  · rw [get seg inside, segValidatorNext_error failed seg inside]
  · cases isNext : s.1.next.1 with
    | error err => rw [segValidatorNext_enodata isNext]
    | ok seg =>
      obtain ⟨inside, clear, -⟩ := take_of_next isNext
      have set := full seg inside
      rw [get seg inside, clear] at set
      cases set

theorem Marked.run (marked : Marked s) (events : List Event) :
    Marked (events.foldl DiskValidator.step s) := by
  induction events generalizing s with
  | nil => exact marked
  | cons event events ih => exact ih (marked.step event)

end DiskValidator

/-- Every run of calls does to a bitset on the device what it does to a vector of its bits.  In
every state that allocations and returns reach, from any cursor and any bits, the next segment is
one that is free and not in use if there is one. -/
theorem disk_bitset_vector_and_validator (start n : Nat) (bm : BlockStore) :
    (∀ (calls : List BitsetCall) (call : BitsetCall),
      let b := diskBitsetInit start n
      let vector := calls.foldl vectorCall fun i : Fin n => b.bits bm i
      (∀ i : Fin n, b.bits (b.run bm calls) i = vector i) ∧
        VectorAnswers vector call (b.call (b.run bm calls) call).1) ∧
    ∀ (cur : Nat) (events : List DiskValidator.Event),
      DiskValidator.Allocates (events.foldl DiskValidator.step (⟨start, n, cur, bm⟩, [])) := by
  refine ⟨fun calls call => ?_, fun cur events => ?_⟩
  · have same : DiskBitset.Holds start bm fun i : Fin n => (diskBitsetInit start n).bits bm i :=
      fun _ => rfl
    exact ⟨same.run calls, ((same.run calls).call call).2⟩
  · have none : DiskValidator.Marked (⟨start, n, cur, bm⟩, []) :=
      fun _ member => absurd member not_mem_nil
    exact (none.run events).allocates

end SwornDisk.C
