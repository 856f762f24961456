import Mathlib.Data.Nat.Bitwise
import Mathlib.Tactic.IntervalCases
import SwornDisk.Lib.Count
import SwornDisk.Rust.BitCategory

/-!
# BitMap of the Rust implementation

`BitMap` of `utils/bitmap.rs` with its sequential fast path, and the two ways it is
used: the segment validity table (`SVT`) and the block validity map of a data segment
table entry (`DST`).  A valid bitmap is a table of `max_len` Boolean entries whose
allocations take the least clear entry.
-/

namespace SwornDisk.Rust

open Lib List Function Option

/-- `BitMap` -/
structure BitMap where
  isSeq : Bool
  maxLen : Nat
  availLen : Nat
  map : List UInt8
deriving DecidableEq, Repr

def bitmapItemSize : Nat := 8

/-- Length of the vector that holds `nrBits` bits. -/
def bitmapVecLen (nrBits : Nat) : Nat :=
  nrBits / bitmapItemSize + if nrBits % bitmapItemSize = 0 then 0 else 1

/-- `item & (1 << bit) != 0` -/
def bitOf (item : UInt8) (bit : Nat) : Bool :=
  item &&& (1 <<< UInt8.ofNat bit) != 0

namespace BitMap

def new (nrBits : Nat) : BitMap where
  isSeq := true
  maxLen := nrBits
  availLen := nrBits
  map := List.replicate (bitmapVecLen nrBits) 0

/-- The bit at `index`, as `get_bit` computes it inside the bounds. -/
def bit (m : BitMap) (index : Nat) : Bool :=
  bitOf (m.map.getD (index / bitmapItemSize) 0) (index % bitmapItemSize)

def setBit (m : BitMap) (index : Nat) : Except Error BitMap :=
  if m.maxLen ≤ index then .error .einval
  else if m.availLen = 0 then .error .enospc
  else
    .ok
      { m with
        isSeq := m.isSeq && index == m.maxLen - m.availLen
        availLen := m.availLen - 1
        map := m.map.set (index / bitmapItemSize)
          (m.map.getD (index / bitmapItemSize) 0 |||
            (1 <<< UInt8.ofNat (index % bitmapItemSize))) }

/-- `BitMap::clear_bit`; of a map with no bit set, where the subtraction of the source wraps or
panics, only index 0 keeps `is_seq`. -/
def clearBit (m : BitMap) (index : Nat) : Except Error BitMap :=
  if m.maxLen ≤ index then .error .einval
  else
    .ok
      { m with
        isSeq := m.isSeq && index == m.maxLen - m.availLen - 1
        availLen := m.availLen + 1
        map := m.map.set (index / bitmapItemSize)
          (m.map.getD (index / bitmapItemSize) 0 &&&
            ~~~(1 <<< UInt8.ofNat (index % bitmapItemSize))) }

/-- The inner loop of `get_first_zero_bit`. -/
def firstZeroOf (item : UInt8) : Option Nat :=
  (List.range bitmapItemSize).find? fun bit => !bitOf item bit

/-- The outer loop of `get_first_zero_bit`, from item `i` on. -/
def scanItems : List UInt8 → Nat → Option Nat
  | [], _ => none
  | item :: rest, i =>
    if item = 255 then scanItems rest (i + 1)
    else
      match firstZeroOf item with
      | some bit => some (i * bitmapItemSize + bit)
      | none => scanItems rest (i + 1)

def getFirstZeroBit (m : BitMap) : Except Error Nat :=
  if m.availLen = 0 then .error .enospc
  else if m.isSeq then .ok (m.maxLen - m.availLen)
  else
    match scanItems m.map 0 with
    | some index => .ok index
    | none => .error .enospc

def isFull (m : BitMap) : Bool :=
  m.availLen == 0

end BitMap

variable {bit : Nat}

theorem toNat_shift_one (small : bit < 8) :
    ((1 : UInt8) <<< UInt8.ofNat bit).toNat = 2 ^ bit := by
  interval_cases bit <;> rfl

theorem bitOf_eq_testBit (item : UInt8) (small : bit < 8) :
    bitOf item bit = item.toNat.testBit bit := by
  unfold bitOf
  rw [Bool.eq_iff_iff, bne_iff_ne, ne_eq, ← UInt8.toNat_inj, UInt8.toNat_and, toNat_shift_one small,
    Nat.and_two_pow]
  cases item.toNat.testBit bit <;> simp

variable {other : Nat}

theorem bitOf_or (item : UInt8) (small : bit < 8) (otherSmall : other < 8) :
    bitOf (item ||| (1 <<< UInt8.ofNat bit)) other =
      if other = bit then true else bitOf item other := by
  rw [bitOf_eq_testBit _ otherSmall, bitOf_eq_testBit _ otherSmall, UInt8.toNat_or,
    toNat_shift_one small, Nat.testBit_or, Nat.testBit_two_pow]
  by_cases same : other = bit
  · simp [same]
  · simp [same, Ne.symm same]

theorem bitOf_and_not (item : UInt8) (small : bit < 8) (otherSmall : other < 8) :
    bitOf (item &&& ~~~(1 <<< UInt8.ofNat bit)) other =
      if other = bit then false else bitOf item other := by
  have flipped : (~~~((1 : UInt8) <<< UInt8.ofNat bit)).toNat.testBit other =
      !decide (bit = other) := by
    have bits := BitVec.getLsbD_not (i := other) (x := ((1 : UInt8) <<< UInt8.ofNat bit).toBitVec)
    rw [decide_eq_true otherSmall, Bool.true_and] at bits
    refine bits.trans (congrArg Bool.not ?_)
    change ((1 : UInt8) <<< UInt8.ofNat bit).toNat.testBit other = _
    rw [toNat_shift_one small, Nat.testBit_two_pow]
  rw [bitOf_eq_testBit _ otherSmall, bitOf_eq_testBit _ otherSmall, UInt8.toNat_and,
    Nat.testBit_and, flipped]
  by_cases same : other = bit
  · simp [same]
  · simp [same, Ne.symm same]

theorem bitOf_zero (bit : Nat) : bitOf 0 bit = false := by
  unfold bitOf
  simp

variable {item : UInt8}

theorem firstZeroOf_eq_some (found : BitMap.firstZeroOf item = some bit) :
    bit < bitmapItemSize ∧ bitOf item bit = false ∧ ∀ lower < bit, bitOf item lower = true := by
  unfold BitMap.firstZeroOf at found
  rw [find?_range_eq_some] at found
  obtain ⟨clear, member, set⟩ := found
  exact ⟨mem_range.mp member, by simpa using clear, by simpa using set⟩

theorem firstZeroOf_eq_none (full : BitMap.firstZeroOf item = none) (small : bit < bitmapItemSize) :
    bitOf item bit = true := by
  have set := find?_eq_none.mp full bit (mem_range.mpr small)
  simpa using set

theorem bitOf_full (small : bit < bitmapItemSize) : bitOf 255 bit = true := by
  have bound : bit < 8 := small
  interval_cases bit <;> rfl

variable {index : Nat} {items : List UInt8} {i : Nat}

namespace BitMap

def bitAt (items : List UInt8) (index : Nat) : Bool :=
  bitOf (items.getD (index / bitmapItemSize) 0) (index % bitmapItemSize)

theorem bitAt_head (item : UInt8) (rest : List UInt8) (inHead : index < bitmapItemSize) :
    bitAt (item :: rest) index = bitOf item index := by
  unfold bitAt
  rw [Nat.div_eq_of_lt inHead, Nat.mod_eq_of_lt inHead]
  rfl

theorem bitAt_tail (item : UInt8) (rest : List UInt8) (inTail : bitmapItemSize ≤ index) :
    bitAt (item :: rest) index = bitAt rest (index - bitmapItemSize) := by
  have positive : 0 < bitmapItemSize := by decide
  unfold bitAt
  rw [Nat.mod_eq_sub_mod inTail, Nat.div_eq_sub_div positive inTail]
  rfl

theorem scanItems_eq_some (found : scanItems items i = some index) :
    ∃ position, index = i * bitmapItemSize + position ∧ position < items.length * bitmapItemSize ∧
      bitAt items position = false ∧ ∀ lower < position, bitAt items lower = true := by
  induction items generalizing i with
  | nil => cases found
  | cons item rest ih =>
    -- a full item moves the scan on by one item
    have skip : scanItems rest (i + 1) = some index →
        (∀ bit < bitmapItemSize, bitOf item bit = true) →
        ∃ position, index = i * bitmapItemSize + position ∧
          position < (item :: rest).length * bitmapItemSize ∧
          bitAt (item :: rest) position = false ∧
          ∀ lower < position, bitAt (item :: rest) lower = true := by
      intro later full
      obtain ⟨position, rfl, bound, clear, set⟩ := ih later
      refine ⟨bitmapItemSize + position, by rw [Nat.succ_mul, Nat.add_assoc], ?_, ?_, ?_⟩
      · rw [length_cons, Nat.succ_mul]
        omega
      · rw [bitAt_tail item rest (Nat.le_add_right _ _), Nat.add_sub_cancel_left]
        exact clear
      · intro lower below
        by_cases inHead : lower < bitmapItemSize
        · rw [bitAt_head item rest inHead]
          exact full lower inHead
        · rw [bitAt_tail item rest (by omega)]
          exact set _ (by omega)
    unfold scanItems at found
    split at found
    · next full => exact skip found fun bit small => by rw [full]; exact bitOf_full small
    · split at found
      · next bit here =>
          obtain rfl := some.inj found
          obtain ⟨small, clear, set⟩ := firstZeroOf_eq_some here
          refine ⟨bit, rfl, ?_, ?_, ?_⟩
          · rw [length_cons, Nat.succ_mul]
            omega
          · rw [bitAt_head item rest small]
            exact clear
          · intro lower below
            rw [bitAt_head item rest (by omega)]
            exact set lower below
      · next none' => exact skip found fun bit small => firstZeroOf_eq_none none' small

theorem scanItems_eq_none (failed : scanItems items i = none) {position : Nat}
    (inside : position < items.length * bitmapItemSize) :
    bitAt items position = true := by
  induction items generalizing i position with
  | nil =>
    rw [length_nil, Nat.zero_mul] at inside
    omega
  | cons item rest ih =>
    rw [length_cons, Nat.succ_mul] at inside
    have full : (∀ bit < bitmapItemSize, bitOf item bit = true) ∧
        scanItems rest (i + 1) = none := by
      unfold scanItems at failed
      split at failed
      · next full => exact ⟨fun bit small => by rw [full]; exact bitOf_full small, failed⟩
      · split at failed
        · cases failed
        · next none' => exact ⟨fun bit small => firstZeroOf_eq_none none' small, failed⟩
    by_cases inHead : position < bitmapItemSize
    · rw [bitAt_head item rest inHead]
      exact full.1 position inHead
    · rw [bitAt_tail item rest (by omega)]
      exact ih full.2 (by omega)

end BitMap

variable {m : BitMap} {err : Error} {m' : BitMap}

namespace BitMap

/-- The vector has the length of `max_len` bits, `avail_len` counts the clear ones, and
the sequential flag promises that the set bits come first. -/
structure Valid (m : BitMap) : Prop where
  sized : m.map.length = bitmapVecLen m.maxLen
  available : countSet m.bit m.maxLen + m.availLen = m.maxLen
  sequential : m.isSeq = true → ∀ i < m.maxLen, m.bit i = decide (i < m.maxLen - m.availLen)

theorem le_vecLen (nrBits : Nat) : nrBits ≤ bitmapVecLen nrBits * bitmapItemSize := by
  unfold bitmapVecLen bitmapItemSize
  split <;> omega

theorem bit_new (nrBits index : Nat) : (new nrBits).bit index = false := by
  unfold bit
  rw [getD_eq_getElem?_getD]
  cases found : (new nrBits).map[index / bitmapItemSize]? with
  | none => exact bitOf_zero _
  | some item =>
    obtain rfl := eq_of_mem_replicate (mem_of_getElem? found)
    exact bitOf_zero _

theorem valid_new (nrBits : Nat) : (new nrBits).Valid where
  sized := length_replicate
  available := by
    rw [countSet_eq_zero_iff.mpr fun i _ => bit_new nrBits i]
    exact Nat.zero_add _
  sequential := by
    intro _ i _
    have none' : (new nrBits).maxLen - (new nrBits).availLen = 0 := Nat.sub_self _
    rw [bit_new, none']
    simp

/-- Take the first zero bit and set it, as `SVT::alloc` and `DST::alloc_block` do. -/
def alloc (m : BitMap) : Except Error (Nat × BitMap) :=
  match m.getFirstZeroBit with
  | .error err => .error err
  | .ok index =>
    match m.setBit index with
    | .error err => .error err
    | .ok m' => .ok (index, m')

theorem Valid.getFirstZeroBit_ok (valid : m.Valid) (found : m.getFirstZeroBit = .ok index) :
    index < m.maxLen ∧ m.bit index = false ∧ ∀ lower < index, m.bit lower = true := by
  have available := valid.available
  unfold getFirstZeroBit at found
  split at found
  · cases found
  · next some' =>
      split at found
      · next seq =>
          obtain rfl := Except.ok.inj found
          have bound : m.maxLen - m.availLen < m.maxLen := by omega
          refine ⟨bound, ?_, ?_⟩
          · rw [valid.sequential seq _ bound]
            simp
          · intro lower below
            rw [valid.sequential seq lower (by omega)]
            simpa using below
      · split at found
        · next position scanned =>
            obtain rfl := Except.ok.inj found
            obtain ⟨position, rfl, -, clear, set⟩ := scanItems_eq_some scanned
            rw [Nat.zero_mul, Nat.zero_add]
            refine ⟨?_, clear, set⟩
            -- a clear bit exists below `max_len`, and the scan returns the least one
            obtain ⟨free, bound, freeClear⟩ :=
              exists_clear_of_countSet_lt (show countSet m.bit m.maxLen < m.maxLen by omega)
            by_contra above
            have freeSet := set free (by omega)
            change m.bit free = true at freeSet
            rw [freeClear] at freeSet
            cases freeSet
        · cases found

theorem Valid.getFirstZeroBit_error (valid : m.Valid) (failed : m.getFirstZeroBit = .error err) :
    err = .enospc ∧ m.availLen = 0 := by
  unfold getFirstZeroBit at failed
  split at failed
  · next none' => exact ⟨(Except.error.inj failed).symm, none'⟩
  · next some' =>
      split at failed
      · cases failed
      · split at failed
        · cases failed
        · next scanned =>
            have available := valid.available
            obtain ⟨free, bound, freeClear⟩ :=
              exists_clear_of_countSet_lt (show countSet m.bit m.maxLen < m.maxLen by omega)
            have inside : free < m.map.length * bitmapItemSize := by
              rw [valid.sized]
              exact Nat.lt_of_lt_of_le bound (le_vecLen _)
            have freeSet : m.bit free = true := scanItems_eq_none scanned inside
            rw [freeClear] at freeSet
            cases freeSet

theorem bit_store (inside : index / bitmapItemSize < m.map.length) {value : Bool}
    (stored : ∀ other < 8, bitOf item other = if other = index % bitmapItemSize then value
      else bitOf (m.map.getD (index / bitmapItemSize) 0) other) (m' : BitMap)
    (map : m'.map = m.map.set (index / bitmapItemSize) item) :
    m'.bit = update m.bit index value := by
  funext other
  unfold bit
  rw [map, getD_eq_getElem?_getD, getElem?_set, update_apply]
  by_cases sameItem : index / bitmapItemSize = other / bitmapItemSize
  · rw [if_pos sameItem, if_pos inside, getD_some,
      stored (other % bitmapItemSize) (Nat.mod_lt _ (by decide)), sameItem]
    have sameBit : other % bitmapItemSize = index % bitmapItemSize ↔ other = index := by
      unfold bitmapItemSize at sameItem ⊢
      omega
    simp only [sameBit]
  · have differ : other ≠ index := fun same => sameItem (by rw [same])
    rw [if_neg sameItem, if_neg differ, getD_eq_getElem?_getD]

variable (valid : m.Valid)
include valid

theorem Valid.item_lt (bound : index < m.maxLen) : index / bitmapItemSize < m.map.length := by
  rw [valid.sized]
  apply Nat.div_lt_of_lt_mul
  rw [Nat.mul_comm]
  exact Nat.lt_of_lt_of_le bound (le_vecLen _)

theorem Valid.setBit (set : m.setBit index = .ok m') (clear : m.bit index = false) :
    m'.Valid ∧ m'.maxLen = m.maxLen ∧ m'.bit = update m.bit index true := by
  unfold BitMap.setBit at set
  split at set
  · cases set
  · next bound =>
      split at set
      · cases set
      · next some' =>
          obtain rfl := Except.ok.inj set
          have bits := bit_store (valid.item_lt (not_le.mp bound))
            fun other small => bitOf_or _ (Nat.mod_lt _ (by decide)) small
          have available := valid.available
          refine ⟨⟨?_, ?_, ?_⟩, rfl, bits _ rfl⟩
          · exact (length_set ..).trans valid.sized
          · rw [bits _ rfl]
            change countSet _ m.maxLen + (m.availLen - 1) = m.maxLen
            rw [countSet_set (by omega) clear]
            omega
          · intro seq i inRange
            simp only [Bool.and_eq_true, beq_iff_eq] at seq
            have inRange' : i < m.maxLen := inRange
            rw [bits _ rfl, update_apply]
            change _ = decide (i < m.maxLen - (m.availLen - 1))
            split
            · next same => simp only [same, seq.2]; exact (decide_eq_true (by omega)).symm
            · next differ =>
                rw [valid.sequential seq.1 i inRange']
                exact decide_eq_decide.mpr (by omega)

theorem Valid.alloc_ok (allocated : m.alloc = .ok (index, m')) :
    index < m.maxLen ∧ m.bit index = false ∧ (∀ lower < index, m.bit lower = true) ∧
      m'.Valid ∧ m'.maxLen = m.maxLen ∧ m'.bit = update m.bit index true := by
  unfold alloc at allocated
  split at allocated
  · cases allocated
  · next first found =>
      split at allocated
      · cases allocated
      · next set =>
          obtain ⟨rfl, rfl⟩ := Prod.mk.inj (Except.ok.inj allocated)
          obtain ⟨bound, clear, lower⟩ := valid.getFirstZeroBit_ok found
          exact ⟨bound, clear, lower, valid.setBit set clear⟩

theorem Valid.alloc_error (failed : m.alloc = .error err) :
    err = .enospc ∧ ∀ i < m.maxLen, m.bit i = true := by
  have available := valid.available
  have full : err = .enospc ∧ m.availLen = 0 := by
    unfold alloc at failed
    split at failed
    · next found =>
        obtain rfl := Except.error.inj failed
        exact valid.getFirstZeroBit_error found
    · next first found =>
        have bound := (valid.getFirstZeroBit_ok found).1
        split at failed
        · next set =>
            unfold BitMap.setBit at set
            rw [if_neg (by omega)] at set
            split at set
            · next none' =>
                obtain rfl := Except.error.inj failed
                exact ⟨(Except.error.inj set).symm, none'⟩
            · cases set
        · cases failed
  refine ⟨full.1, countSet_eq_self_iff.mp ?_⟩
  omega

theorem Valid.alloc_of_clear {free : Nat} (bound : free < m.maxLen) (clear : m.bit free = false) :
    ∃ index m', m.alloc = .ok (index, m') := by
  cases result : m.alloc with
  | ok allocated => exact ⟨allocated.1, allocated.2, rfl⟩
  | error err =>
    have set := (valid.alloc_error result).2 free bound
    rw [clear] at set
    cases set

theorem Valid.clearBit (bound : index < m.maxLen) (set : m.bit index = true) :
    ∃ m', m.clearBit index = .ok m' ∧ m'.Valid ∧ m'.maxLen = m.maxLen ∧
      m'.bit = update m.bit index false := by
  have bits := bit_store (valid.item_lt bound)
    fun other small => bitOf_and_not _ (Nat.mod_lt _ (by decide)) small
  have available := valid.available
  have counted := countSet_clear bound set
  refine ⟨_, if_neg (not_le.mpr bound), ⟨?_, ?_, ?_⟩, rfl, bits _ rfl⟩
  · exact (length_set ..).trans valid.sized
  · rw [bits _ rfl]
    change countSet _ m.maxLen + (m.availLen + 1) = m.maxLen
    omega
  · intro seq i inRange
    simp only [Bool.and_eq_true, beq_iff_eq] at seq
    have inRange' : i < m.maxLen := inRange
    rw [bits _ rfl, update_apply]
    change _ = decide (i < m.maxLen - (m.availLen + 1))
    split
    · next same => exact (decide_eq_false (by omega)).symm
    · next differ =>
        rw [valid.sequential seq.1 i inRange']
        exact decide_eq_decide.mpr (by omega)

theorem Valid.scanItems_eq (seq : m.isSeq = true) (some' : m.availLen ≠ 0) :
    scanItems m.map 0 = some (m.maxLen - m.availLen) := by
  have available := valid.available
  have bound : m.maxLen - m.availLen < m.maxLen := by omega
  have clear : m.bit (m.maxLen - m.availLen) = false := by
    rw [valid.sequential seq _ bound]
    exact decide_eq_false (lt_irrefl _)
  cases scanned : scanItems m.map 0 with
  | none =>
    have inside : m.maxLen - m.availLen < m.map.length * bitmapItemSize := by
      rw [valid.sized]
      exact bound.trans_le (le_vecLen _)
    have set : m.bit (m.maxLen - m.availLen) = true := scanItems_eq_none scanned inside
    rw [clear] at set
    cases set
  | some index =>
    obtain ⟨position, rfl, -, positionClear, lower⟩ := scanItems_eq_some scanned
    rw [Nat.zero_mul, Nat.zero_add]
    rcases lt_trichotomy position (m.maxLen - m.availLen) with below | same | above
    · have set : m.bit position = true := by
        rw [valid.sequential seq _ (by omega)]
        exact decide_eq_true below
      exact absurd (positionClear.symm.trans set) Bool.false_ne_true
    · rw [same]
    · exact absurd (clear.symm.trans (lower _ above)) Bool.false_ne_true

end BitMap

/-- A bitmap and the indices it has handed out that were not given back. -/
structure Allocator where
  map : BitMap
  inUse : List Nat

inductive AllocatorOp where
  | alloc
  | release (index : Nat)

namespace Allocator

def step (a : Allocator) : AllocatorOp → Allocator
  | .alloc =>
    match a.map.alloc with
    | .ok (index, map) => ⟨map, index :: a.inUse⟩
    | .error _ => a
  | .release index =>
    if index ∈ a.inUse then
      match a.map.clearBit index with
      | .ok map => ⟨map, a.inUse.erase index⟩
      | .error _ => a
    else a

structure Tracked (nrBits : Nat) (a : Allocator) : Prop where
  valid : a.map.Valid
  maxLen : a.map.maxLen = nrBits
  nodup : a.inUse.Nodup
  mem_inUse : ∀ index, index ∈ a.inUse ↔ index < nrBits ∧ a.map.bit index = true

variable {nrBits : Nat} {a : Allocator}

theorem Tracked.step (tracked : Tracked nrBits a) (op : AllocatorOp) :
    Tracked nrBits (a.step op) := by
  obtain ⟨valid, maxLen, nodup, mem_inUse⟩ := tracked
  cases op with
  | alloc =>
    simp only [Allocator.step]
    split
    · next index map allocated =>
        obtain ⟨bound, clear, -, valid', sameLen, bits⟩ := valid.alloc_ok allocated
        have fresh : index ∉ a.inUse := by
          intro used
          rw [((mem_inUse index).mp used).2] at clear
          cases clear
        refine ⟨valid', sameLen.trans maxLen, nodup_cons.mpr ⟨fresh, nodup⟩, fun other => ?_⟩
        rw [mem_cons, mem_inUse, bits, update_apply]
        split
        · next same => simp [same, ← maxLen, bound]
        · next differ => simp [differ]
    · exact ⟨valid, maxLen, nodup, mem_inUse⟩
  | release index =>
    simp only [Allocator.step]
    split
    · next used =>
        obtain ⟨bound, set⟩ := (mem_inUse index).mp used
        obtain ⟨m', cleared, valid', sameLen, bits⟩ :=
          valid.clearBit (by rw [maxLen]; exact bound) set
        rw [cleared]
        refine ⟨valid', sameLen.trans maxLen, nodup.erase _, fun other => ?_⟩
        rw [nodup.mem_erase_iff, mem_inUse, bits, update_apply]
        split
        · next same => simp [same]
        · next differ => simp [differ]
    · exact ⟨valid, maxLen, nodup, mem_inUse⟩

theorem tracked_run (nrBits : Nat) (ops : List AllocatorOp) :
    Tracked nrBits (ops.foldl Allocator.step ⟨BitMap.new nrBits, []⟩) := by
  have start : Tracked nrBits ⟨BitMap.new nrBits, []⟩ := by
    refine ⟨BitMap.valid_new nrBits, rfl, nodup_nil, fun index => ?_⟩
    simp [BitMap.bit_new]
  generalize (⟨BitMap.new nrBits, []⟩ : Allocator) = a at start
  induction ops generalizing a with
  | nil => exact start
  | cons op ops ih => exact ih (a.step op) (start.step op)

structure AllocatesLeast (nrBits : Nat) (a : Allocator) : Prop where
  available : a.map.availLen = ((List.range nrBits).filter fun index => !a.map.bit index).length
  inUse : ∀ index, index ∈ a.inUse ↔ index < nrBits ∧ a.map.bit index = true
  sequential : a.map.isSeq = true → a.map.availLen ≠ 0 →
    BitMap.scanItems a.map.map 0 = some (a.map.maxLen - a.map.availLen)
  least : ∀ index map, a.map.alloc = .ok (index, map) →
    index < nrBits ∧ index ∉ a.inUse ∧ ∀ lower < index, lower ∈ a.inUse
  full : ∀ err, a.map.alloc = .error err ↔ err = .enospc ∧ ∀ index < nrBits, index ∈ a.inUse
  released : ∀ index ∈ a.inUse, ∃ map, a.map.clearBit index = .ok map

/-- Whatever was allocated and released before: the count of free bits is right, the fast path
agrees with the scan, and an allocation takes the least free index or fails because none is. -/
theorem bitmap_allocates_least (nrBits : Nat) (ops : List AllocatorOp) :
    AllocatesLeast nrBits (ops.foldl Allocator.step ⟨BitMap.new nrBits, []⟩) := by
  obtain ⟨valid, maxLen, -, mem_inUse⟩ := tracked_run nrBits ops
  generalize ops.foldl Allocator.step ⟨BitMap.new nrBits, []⟩ = a at valid maxLen mem_inUse
  have used : ∀ index < nrBits, a.map.bit index = true → index ∈ a.inUse :=
    fun index bound set => (mem_inUse index).mpr ⟨bound, set⟩
  constructor
  · have available := valid.available
    have split := length_eq_length_filter_add (l := List.range nrBits) a.map.bit
    rw [length_filter_range, length_range] at split
    rw [maxLen] at available
    omega
  · exact mem_inUse
  · exact valid.scanItems_eq
  · intro index map allocated
    obtain ⟨bound, clear, lower, -⟩ := valid.alloc_ok allocated
    rw [maxLen] at bound
    refine ⟨bound, fun member => ?_, fun other below => used other (by omega) (lower other below)⟩
    rw [((mem_inUse index).mp member).2] at clear
    cases clear
  · intro err
    constructor
    · intro failed
      obtain ⟨rfl, set⟩ := valid.alloc_error failed
      exact ⟨rfl, fun index bound => used index bound (set index (by rw [maxLen]; exact bound))⟩
    · rintro ⟨rfl, all⟩
      cases result : a.map.alloc with
      | error err => rw [(valid.alloc_error result).1]
      | ok allocated =>
        obtain ⟨bound, clear, -⟩ := valid.alloc_ok result
        rw [((mem_inUse _).mp (all _ (by rw [← maxLen]; exact bound))).2] at clear
        cases clear
  · intro index member
    obtain ⟨bound, set⟩ := (mem_inUse index).mp member
    obtain ⟨map, cleared, -⟩ := valid.clearBit (by rw [maxLen]; exact bound) set
    exact ⟨map, cleared⟩

end Allocator

end SwornDisk.Rust
