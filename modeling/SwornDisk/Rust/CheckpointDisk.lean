import Mathlib.Logic.Relation
import SwornDisk.Rust.CheckpointFormat

/-!
# The checkpoint region

`Checkpoint::write_to_disk` stores a helper record in the first sector of the region and
the tables, one after the other and padded to sectors, behind it;
`Checkpoint::read_from_disk` finds them again by the lengths of the helper and by lengths
inside the body.
-/

namespace SwornDisk.Rust

open Lib List Function

/-- `Checkpoint` with the tables that are stored. -/
abbrev StoredCheckpoint := Checkpoint (BitCategory BitInfo)

/-- `isize::MAX`, the most bytes a vector can hold. -/
def isizeMax : Nat := 2 ^ 63 - 1

/-- Number of sectors for `len` bytes. -/
def sectorCount (len : Nat) : Nat :=
  len / sectorSize + if len % sectorSize = 0 then 0 else 1

variable {c : StoredCheckpoint} {index : Nat}

namespace Checkpoint

def body (c : StoredCheckpoint) : List UInt8 :=
  wordBytes c.currentDataSegment ++ (c.dataSvt.serialize ++ (c.indexSvt.serialize ++
    (c.dst.flatMap Dst.serialize ++ c.bitCategory.serialize)))

def helper (c : StoredCheckpoint) : CheckpointHelper where
  dataSvtLen := c.dataSvt.serialize.length
  indexSvtLen := c.indexSvt.serialize.length
  dstSize := c.dst.length
  dstLen := (c.dst.flatMap Dst.serialize).length
  bitCategoryLen := c.bitCategory.serialize.length
  sectorNumber := sectorCount c.body.length

/-- `Checkpoint::write_to_disk`.  A whole sector is written from the vector of the helper,
so what the heap holds behind it is written too. -/
def writeToDisk (heap : Memory) (c : StoredCheckpoint) (dev : Device) (checkpointHba : Nat) :
    Except Error Device :=
  if isizeMax < sectorCount c.body.length * sectorSize then .error .enomem
  else
    let dev := dev.writeSectors checkpointHba 1 (heap.write 0 c.helper.serialize)
    .ok (dev.writeSectors (checkpointHba + 1) (sectorCount c.body.length)
      (heap.write 0 (resize (sectorCount c.body.length * sectorSize) c.body)))

/-- The loop over the DST entries: the entries and the index behind them. -/
def readDsts (body : List UInt8) : Nat → Nat → Except Fault (List Dst × Nat)
  | 0, index => .ok ([], index)
  | size + 1, index => do
      let bvmLen ← wordAt body (index + 8)
      let item ← Dst.deserialize (← sliceOf body index (index + (16 + bvmLen)))
      let (rest, last) ← readDsts body size (index + (16 + bvmLen))
      return (item :: rest, last)

/-- The part of `read_from_disk` that decodes the body. -/
def readBody (helper : CheckpointHelper) (body : List UInt8) : Except Fault StoredCheckpoint := do
  let currentDataSegment ← wordAt body 0
  let dataSvt ← BitMap.deserialize (← sliceOf body 8 (8 + helper.dataSvtLen))
  let index := 8 + helper.dataSvtLen
  let indexSvt ← BitMap.deserialize (← sliceOf body index (index + helper.indexSvtLen))
  let (dst, index) ← readDsts body helper.dstSize (index + helper.indexSvtLen)
  let bitCategory ← BitCategory.deserialize (← sliceOf body index (index + helper.bitCategoryLen))
  return ⟨dataSvt, indexSvt, dst, currentDataSegment, bitCategory⟩

def readFromDisk (dev : Device) (checkpointHba : Nat) : Except Fault StoredCheckpoint := do
  let helper ← CheckpointHelper.deserialize
    (← sliceOf (dev.readSectors checkpointHba 1) 0 checkpointHelperSize)
  if isizeMax < helper.sectorNumber * sectorSize then
    .error (.error .enomem)
  else
    readBody helper (dev.readSectors (checkpointHba + 1) helper.sectorNumber)

structure Storable (c : StoredCheckpoint) : Prop where
  currentDataSegment : IsWord c.currentDataSegment
  dataSvt : c.dataSvt.Storable
  indexSvt : c.indexSvt.Storable
  dst : ∀ dst ∈ c.dst, dst.Storable
  bitCategory : c.bitCategory.Storable

theorem readDsts_hasAt {body : List UInt8} {dst : List Dst}
    (storable : ∀ item ∈ dst, item.Storable)
    (stands : HasAt body index (dst.flatMap Dst.serialize)) :
    readDsts body dst.length index = .ok (dst, index + (dst.flatMap Dst.serialize).length) := by
  induction dst generalizing index with
  | nil => rfl
  | cons item rest ih =>
    rw [flatMap_cons] at stands ⊢
    have good := storable item mem_cons_self
    have entry : HasAt body index (wordBytes item.lastModify ++
      (wordBytes item.bvm.serialize.length ++ item.bvm.serialize)) := stands.left
    have bvmLen := wordAt_hasAt (entry.right (by rw [length_wordBytes])).left good.bvmLen
    have here : sliceOf body index (index + (16 + item.bvm.serialize.length)) =
        .ok item.serialize := sliceOf_hasAt stands.left (by rw [item.length_serialize])
    have later := ih (fun other member => storable other (mem_cons_of_mem _ member))
      (stands.right (by rw [item.length_serialize]))
    rw [length_cons, readDsts]
    simp only [bvmLen, here, good.deserialize_serialize, later, ok_bind, length_append,
      item.length_serialize, Nat.add_assoc]
    rfl

theorem Storable.readBody (storable : c.Storable)
    (lengths : ∀ level, IsWord (c.bitCategory.category level).length) {bytes : List UInt8}
    (stands : HasAt bytes 0 c.body) : readBody c.helper bytes = .ok c := by
  unfold body at stands
  have dataSvtOn := stands.right (by rw [length_wordBytes])
  have indexSvtOn := dataSvtOn.right rfl
  have dstOn := indexSvtOn.right rfl
  have bitCategoryOn := dstOn.right rfl
  have currentDataSegment := wordAt_hasAt stands.left storable.currentDataSegment
  have dataSvt := sliceOf_hasAt dataSvtOn.left rfl
  have indexSvt := sliceOf_hasAt indexSvtOn.left rfl
  have dst := readDsts_hasAt storable.dst dstOn.left
  have bitCategory := sliceOf_hasAt bitCategoryOn rfl
  unfold Checkpoint.readBody
  simp only [Nat.zero_add] at dataSvt indexSvt dst bitCategory
  simp only [helper, currentDataSegment, dataSvt, indexSvt, dst, bitCategory, ok_bind,
    storable.dataSvt.deserialize_serialize, storable.indexSvt.deserialize_serialize,
    storable.bitCategory.deserialize_serialize lengths]
  rfl

theorem le_sectorCount_mul (len : Nat) : len ≤ sectorCount len * sectorSize := by
  unfold sectorCount sectorSize
  split <;> omega

theorem sectorCount_le (len : Nat) : sectorCount len ≤ sectorCount len * sectorSize := by
  unfold sectorSize
  omega

theorem helper_words (allocated : sectorCount c.body.length * sectorSize ≤ isizeMax) :
    c.helper.Words := by
  have total := le_sectorCount_mul c.body.length
  have sectors := sectorCount_le c.body.length
  have entries : c.dst.length ≤ (c.dst.flatMap Dst.serialize).length :=
    length_le_flatMap fun dst _ => by
      rw [dst.length_serialize]
      omega
  have sum : c.body.length = 8 + (c.dataSvt.serialize.length + (c.indexSvt.serialize.length +
      ((c.dst.flatMap Dst.serialize).length + c.bitCategory.serialize.length))) := by
    simp only [body, length_append, length_wordBytes]
  unfold isizeMax at allocated
  constructor <;> simp only [helper, IsWord] <;> omega

theorem category_lengths (levels : c.bitCategory.Storable)
    (allocated : sectorCount c.body.length * sectorSize ≤ isizeMax) (level : Nat) :
    IsWord (c.bitCategory.category level).length := by
  have whole := helper_words allocated
  by_cases inside : level < lsmTreeMaxLevel
  · have word := whole.bitCategoryLen
    have held : (c.bitCategory.category level).length ≤
        (serializeLevel (c.bitCategory.category level)).length := by
      have each : (c.bitCategory.category level).length ≤
          ((c.bitCategory.category level).flatMap BitRootMeta.serialize).length :=
        length_le_flatMap fun held _ => by
          rw [held.length_serialize]
          decide
      rw [serializeLevel, length_append]
      omega
    have part := length_le_of_mem_flatMap (fun level =>
      serializeLevel (c.bitCategory.category level)) (mem_range.mpr inside)
    have sum : c.bitCategory.serialize.length =
        8 + ((List.range lsmTreeMaxLevel).flatMap fun level =>
          serializeLevel (c.bitCategory.category level)).length := by
      rw [BitCategory.serialize, length_append, length_wordBytes]
    unfold IsWord at word ⊢
    simp only [helper] at word
    omega
  · rw [levels.levels level (Nat.le_of_not_lt inside)]
    decide

theorem Storable.readFromDisk (storable : c.Storable) {heap : Memory} {dev dev' : Device}
    {checkpointHba : Nat} (inRange : checkpointHba + 1 + sectorCount c.body.length ≤ dev.sectors)
    (written : c.writeToDisk heap dev checkpointHba = .ok dev') :
    readFromDisk dev' checkpointHba = .ok c := by
  unfold writeToDisk at written
  split at written
  · cases written
  · next allocated =>
      obtain rfl := Except.ok.inj written
      have allocated : sectorCount c.body.length * sectorSize ≤ isizeMax :=
        Nat.le_of_not_lt allocated
      have helperOn : HasAt ((heap.write 0 c.helper.serialize).read 0 (1 * sectorSize)) 0
          c.helper.serialize := by
        refine heap.hasAt_read_write ?_
        rw [CheckpointHelper.length_serialize]
        unfold checkpointHelperSize sectorSize
        decide
      have bodyOn : HasAt ((heap.write 0 (resize (sectorCount c.body.length * sectorSize)
          c.body)).read 0 (sectorCount c.body.length * sectorSize)) 0 c.body := by
        rw [resize_of_le (le_sectorCount_mul c.body.length)]
        refine (heap.hasAt_read_write (Nat.le_of_eq ?_)).left
        rw [← resize_of_le (le_sectorCount_mul c.body.length), length_resize]
      have stored := sliceOf_hasAt helperOn
        (show checkpointHelperSize = _ by rw [CheckpointHelper.length_serialize, Nat.zero_add])
      have words := helper_words allocated
      have lengths := category_lengths storable.bitCategory allocated
      have sectors : c.helper.sectorNumber = sectorCount c.body.length := rfl
      unfold Checkpoint.readFromDisk
      rw [Device.readSectors_writeSectors_disjoint _ _ (.inl (Nat.le_refl _)),
        Device.readSectors_writeSectors_same _ (by omega), stored, ok_bind,
        words.deserialize_serialize, ok_bind, sectors, if_neg (Nat.not_lt.mpr allocated),
        Device.readSectors_writeSectors_same _ (by rw [sectors_writeSectors]; exact inRange)]
      exact storable.readBody lengths bodyOn

end Checkpoint

structure BitInfo.Words (info : BitInfo) : Prop where
  level : IsWord info.level
  size : IsWord info.size
  record : info.record.Words

/-- The changes that mounts, writes, flushes and compactions make to a checkpoint.  The
clock and the fields of a table are words, and the counter of tables does not overflow. -/
inductive CheckpointStep : StoredCheckpoint → StoredCheckpoint → Prop where
  /-- `ctr` allocates a data segment. -/
  | mount {c : StoredCheckpoint} {index : Nat} {svt : BitMap}
      (taken : svtAlloc c.dataSvt = .ok (index, svt)) : CheckpointStep c { c with dataSvt := svt }
  /-- `do_flush` allocates a data segment and moves to it. -/
  | nextSegment {c : StoredCheckpoint} {index : Nat} {svt : BitMap}
      (taken : svtAlloc c.dataSvt = .ok (index, svt)) :
      CheckpointStep c { c with dataSvt := svt, currentDataSegment := index }
  /-- `DataSegment::write` allocates a block. -/
  | allocBlock {c : StoredCheckpoint} {segment now block : Nat} {dst dst' : Dst}
      (entry : c.dst[segment]? = some dst) (time : IsWord now)
      (taken : dst.allocBlock now = .ok (block, dst')) :
      CheckpointStep c { c with dst := c.dst.set segment dst' }
  /-- A memtable was converted, or tables were merged. -/
  | addBit {c : StoredCheckpoint} {info : BitInfo} (level : Nat) (room : Bool)
      (words : info.Words) (counted : IsWord (c.bitCategory.bitUniqueId + 1)) :
      CheckpointStep c { c with bitCategory := (c.bitCategory.addBit info level room).2 }
  /-- The inputs of a merge are released. -/
  | releaseBit {c : StoredCheckpoint} {level uniqueId : Nat} {category : BitCategory BitInfo}
      (released : c.bitCategory.releaseBit level uniqueId = .ok category) :
      CheckpointStep c { c with bitCategory := category }

/-- A checkpoint that a run can reach from a newly formatted device. -/
def Reached (c : StoredCheckpoint) : Prop :=
  ∃ dataSegs indexSegs times, IsWord dataSegs ∧ IsWord indexSegs ∧ (∀ i, IsWord (times i)) ∧
    Relation.ReflTransGen CheckpointStep
      (Checkpoint.new BitCategory.new dataSegs indexSegs times) c

theorem BitMap.storable_new {nrBits : Nat} (word : IsWord nrBits) : (BitMap.new nrBits).Storable :=
  ⟨length_replicate, word, word⟩

theorem BitMap.Storable.alloc {m m' : BitMap} (storable : m.Storable)
    (allocated : m.alloc = .ok (index, m')) : m'.Storable ∧ IsWord index := by
  unfold BitMap.alloc at allocated
  split at allocated
  · cases allocated
  · split at allocated
    · cases allocated
    · next set =>
        obtain ⟨rfl, rfl⟩ := Prod.mk.inj (Except.ok.inj allocated)
        unfold BitMap.setBit at set
        split at set
        · cases set
        · next bound =>
            split at set
            · cases set
            · obtain rfl := Except.ok.inj set
              refine ⟨⟨(length_set ..).trans storable.sized, storable.maxLen, ?_⟩, ?_⟩
              · exact Nat.lt_of_le_of_lt (Nat.sub_le _ _) storable.availLen
              · exact Nat.lt_trans (Nat.lt_of_not_le bound) storable.maxLen

theorem BitMap.Storable.svtAlloc {svt svt' : BitMap} (storable : svt.Storable)
    (taken : svtAlloc svt = .ok (index, svt')) : svt'.Storable ∧ IsWord index := by
  unfold Rust.svtAlloc at taken
  split at taken
  · cases taken
  · exact storable.alloc taken

theorem Dst.Storable.allocBlock {dst dst' : Dst} {now block : Nat} (storable : dst.Storable)
    (time : IsWord now) (taken : dst.allocBlock now = .ok (block, dst')) : dst'.Storable := by
  unfold Dst.allocBlock at taken
  split at taken
  · cases taken
  · next allocated =>
      obtain ⟨-, rfl⟩ := Prod.mk.inj (Except.ok.inj taken)
      exact ⟨(storable.bvm.alloc allocated).1, time⟩

theorem BitCategory.Storable.addBit {c : BitCategory BitInfo} (storable : c.Storable)
    {info : BitInfo} (level : Nat) (room : Bool) (words : info.Words)
    (counted : IsWord (c.bitUniqueId + 1)) : (c.addBit info level room).2.Storable := by
  by_cases inside : level < lsmTreeMaxLevel
  · rcases c.addBit_cases info inside room with added | ⟨err, failed⟩
    · rw [added]
      refine ⟨counted, ?_, ?_⟩
      · intro other held member
        simp only [update_apply] at member
        split at member
        · rcases mem_append.mp member with old | new
          · exact storable.held level held old
          · obtain rfl := mem_singleton.mp new
            exact ⟨storable.bitUniqueId, words.level, words.size, words.record⟩
        · exact storable.held other held member
      · intro other above
        simp only
        rw [update_of_ne (by omega)]
        exact storable.levels other above
    · rw [failed]
      exact ⟨counted, storable.held, storable.levels⟩
  · unfold BitCategory.addBit
    rw [if_pos (Nat.le_of_not_lt inside)]
    exact storable

theorem BitCategory.Storable.releaseBit {c c' : BitCategory BitInfo} (storable : c.Storable)
    {level uniqueId : Nat} (released : c.releaseBit level uniqueId = .ok c') : c'.Storable := by
  unfold BitCategory.releaseBit at released
  split at released
  · obtain rfl := Except.ok.inj released
    refine ⟨storable.bitUniqueId, ?_, ?_⟩
    · intro other held member
      simp only [update_apply] at member
      split at member
      · exact storable.held level held (mem_of_mem_eraseIdx member)
      · exact storable.held other held member
    · intro other above
      simp only [update_apply]
      split
      · next same =>
          rw [← same, storable.levels other above]
          rfl
      · exact storable.levels other above
  · cases released

theorem Checkpoint.Storable.step {c' : StoredCheckpoint} (storable : c.Storable)
    (step : CheckpointStep c c') : c'.Storable := by
  cases step with
  | mount taken => exact { storable with dataSvt := (storable.dataSvt.svtAlloc taken).1 }
  | nextSegment taken =>
    obtain ⟨dataSvt, currentDataSegment⟩ := storable.dataSvt.svtAlloc taken
    exact { storable with dataSvt, currentDataSegment }
  | allocBlock entry time taken =>
    refine { storable with dst := fun dst member => ?_ }
    rcases mem_or_eq_of_mem_set member with old | rfl
    · exact storable.dst dst old
    · exact (storable.dst _ (mem_of_getElem? entry)).allocBlock time taken
  | addBit level room words counted =>
    exact { storable with bitCategory := storable.bitCategory.addBit level room words counted }
  | releaseBit released =>
    exact { storable with bitCategory := storable.bitCategory.releaseBit released }

theorem Checkpoint.storable_new {dataSegs indexSegs : Nat} {times : Nat → Nat}
    (data : IsWord dataSegs) (index : IsWord indexSegs) (clock : ∀ i, IsWord (times i)) :
    (Checkpoint.new BitCategory.new dataSegs indexSegs times : StoredCheckpoint).Storable where
  currentDataSegment := by
    change IsWord 0
    decide
  dataSvt := BitMap.storable_new data
  indexSvt := BitMap.storable_new index
  dst := by
    intro dst member
    obtain ⟨i, -, rfl⟩ := mem_map.mp member
    refine ⟨BitMap.storable_new ?_, clock i⟩
    unfold segmentBlockNumber
    decide
  bitCategory := ⟨Nat.two_pow_pos 64, fun _ _ member => absurd member not_mem_nil, fun _ _ => rfl⟩

theorem Reached.storable (reached : Reached c) : c.Storable := by
  obtain ⟨dataSegs, indexSegs, times, data, index, clock, run⟩ := reached
  induction run with
  | refl => exact Checkpoint.storable_new data index clock
  | tail _ step ih => exact ih.step step

/-- Every checkpoint of a run can be stored, and a checkpoint that can be stored is read
back from the sectors it was written to, with every slice inside its buffer. -/
theorem checkpoint_round_trip :
    (∀ c, Reached c → c.Storable) ∧
      ∀ (heap : Memory) (c : StoredCheckpoint) (dev dev' : Device) (checkpointHba : Nat),
        c.Storable → checkpointHba + 1 + sectorCount c.body.length ≤ dev.sectors →
          c.writeToDisk heap dev checkpointHba = .ok dev' →
            Checkpoint.readFromDisk dev' checkpointHba = .ok c :=
  ⟨fun _ reached => reached.storable, fun _ _ _ _ _ storable inRange written =>
    storable.readFromDisk inRange written⟩

def nineSegments : StoredCheckpoint := Checkpoint.new BitCategory.new 9 1 fun _ => 7

theorem sectorCount_nineSegments : sectorCount nineSegments.body.length = 3 := by
  decide +kernel

theorem checkpoint_round_trip_nineSegments :
    ∃ dev', nineSegments.writeToDisk Memory.zeroed ⟨8, Memory.zeroed⟩ 2 = .ok dev' ∧
      Checkpoint.readFromDisk dev' 2 = .ok nineSegments := by
  have fits : ¬ isizeMax < sectorCount nineSegments.body.length * sectorSize := by
    rw [sectorCount_nineSegments]
    unfold sectorSize
    decide
  obtain ⟨dev', written⟩ : ∃ dev',
      nineSegments.writeToDisk Memory.zeroed ⟨8, Memory.zeroed⟩ 2 = .ok dev' := by
    unfold Checkpoint.writeToDisk
    rw [if_neg fits]
    exact ⟨_, rfl⟩
  have clock : IsWord 7 := by decide
  have storable : nineSegments.Storable :=
    checkpoint_round_trip.1 _ ⟨9, 1, fun _ => 7, by decide, by decide, fun _ => clock, .refl⟩
  refine ⟨dev', written, checkpoint_round_trip.2 _ _ _ _ _ storable ?_ written⟩
  rw [sectorCount_nineSegments]
  decide

end SwornDisk.Rust
