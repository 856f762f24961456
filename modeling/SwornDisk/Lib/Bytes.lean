import Mathlib.Algebra.Order.Group.Nat
import Mathlib.Data.List.Basic
import Mathlib.Tactic.Ring

/-!
# Bytes, slices and byte-addressed memory

Little-endian words, bounds-checked slices of a byte string, and memory as a function
from addresses to bytes with block copies.
-/

namespace SwornDisk.Lib

open List Function

variable {α : Type} {offset : Nat}

/-- The lowest `width` bytes of a number, lowest first. -/
def leBytes : Nat → Nat → List UInt8
  | 0, _ => []
  | width + 1, n => UInt8.ofNat n :: leBytes width (n / 256)

def ofLeBytes : List UInt8 → Nat
  | [] => 0
  | byte :: rest => byte.toNat + 256 * ofLeBytes rest

@[simp] theorem length_leBytes (width n : Nat) : (leBytes width n).length = width := by
  induction width generalizing n with
  | zero => rfl
  | succ width ih => rw [leBytes, length_cons, ih]

theorem ofLeBytes_leBytes (width n : Nat) : ofLeBytes (leBytes width n) = n % 256 ^ width := by
  induction width generalizing n with
  | zero => rw [pow_zero, Nat.mod_one]; rfl
  | succ width ih =>
    have power : 256 ^ (width + 1) = 256 * 256 ^ width := pow_succ' _ _
    rw [leBytes, ofLeBytes, ih, UInt8.toNat_ofNat', power, Nat.mod_mul]

section

/-- `xs[first..last]`, if the range is inside. -/
def slice? (xs : List α) (first last : Nat) : Option (List α) :=
  if first ≤ last ∧ last ≤ xs.length then some ((xs.drop first).take (last - first)) else none

theorem slice?_middle {before part after : List α} {first last : Nat}
    (starts : first = before.length) (ends : last = before.length + part.length) :
    slice? (before ++ part ++ after) first last = some part := by
  subst starts ends
  unfold slice?
  rw [if_pos (by simp only [length_append]; omega), append_assoc,
    drop_left' rfl, Nat.add_sub_cancel_left, take_left' rfl]

/-- `part` stands in `xs` at `offset`. -/
def HasAt (xs : List α) (offset : Nat) (part : List α) : Prop :=
  ∃ before after, xs = before ++ part ++ after ∧ before.length = offset

namespace HasAt

variable {xs part next : List α}

theorem front (part after : List α) : HasAt (part ++ after) 0 part :=
  ⟨[], after, rfl, rfl⟩

theorem whole (xs : List α) : HasAt xs 0 xs :=
  ⟨[], [], (append_nil _).symm, rfl⟩

theorem slice? (stands : HasAt xs offset part) {last : Nat} (ends : last = offset + part.length) :
    slice? xs offset last = some part := by
  obtain ⟨before, after, rfl, rfl⟩ := stands
  exact slice?_middle rfl ends

theorem left (stands : HasAt xs offset (part ++ next)) : HasAt xs offset part := by
  obtain ⟨before, after, rfl, starts⟩ := stands
  exact ⟨before, next ++ after, by simp only [append_assoc], starts⟩

theorem right (stands : HasAt xs offset (part ++ next)) {start : Nat}
    (starts : start = offset + part.length) : HasAt xs start next := by
  obtain ⟨before, after, rfl, rfl⟩ := stands
  exact ⟨before ++ part, after, by simp only [append_assoc],
    by rw [length_append, starts]⟩

theorem append_left (stands : HasAt xs offset part) (before : List α) {start : Nat}
    (starts : start = before.length + offset) : HasAt (before ++ xs) start part := by
  obtain ⟨first, after, rfl, rfl⟩ := stands
  exact ⟨before ++ first, after, by simp only [append_assoc],
    by rw [length_append, starts]⟩

theorem append_right (stands : HasAt xs offset part) (after : List α) :
    HasAt (xs ++ after) offset part := by
  obtain ⟨before, last, rfl, starts⟩ := stands
  exact ⟨before, last ++ after, by simp only [append_assoc], starts⟩

end HasAt

theorem hasAt_replicate {len offset count : Nat} (value : α) (inside : offset + count ≤ len) :
    HasAt (replicate len value) offset (replicate count value) := by
  refine ⟨replicate offset value, replicate (len - (offset + count)) value, ?_,
    length_replicate⟩
  rw [replicate_append_replicate, replicate_append_replicate,
    Nat.add_sub_cancel' inside]

variable {β : Type}

section

variable {xs : List α} {f : α → List β} {size : Nat} (sized : ∀ x ∈ xs, (f x).length = size)
include sized

theorem hasAt_flatMap {i : Nat} {x : α} (found : xs[i]? = some x) :
    HasAt (xs.flatMap f) (i * size) (f x) := by
  induction xs generalizing i with
  | nil => cases found
  | cons y rest ih =>
    have here := sized y mem_cons_self
    rw [flatMap_cons]
    cases i with
    | zero =>
      obtain rfl := Option.some.inj found
      rw [Nat.zero_mul]
      exact HasAt.front _ _
    | succ i =>
      refine (ih (fun z member => sized z (mem_cons_of_mem _ member)) found).append_left _ ?_
      rw [here, Nat.succ_mul, Nat.add_comm]

theorem length_flatMap_of_sized : (xs.flatMap f).length = xs.length * size := by
  induction xs with
  | nil => simp
  | cons y rest ih =>
    rw [flatMap_cons, length_append, sized y mem_cons_self,
      ih fun z member => sized z (mem_cons_of_mem _ member), length_cons, Nat.succ_mul,
      Nat.add_comm]

end

theorem length_le_flatMap {xs : List α} {f : α → List β} (nonempty : ∀ x ∈ xs, 0 < (f x).length) :
    xs.length ≤ (xs.flatMap f).length := by
  induction xs with
  | nil => exact Nat.le_refl _
  | cons x xs ih =>
    have here := nonempty x mem_cons_self
    have later := ih fun y member => nonempty y (mem_cons_of_mem _ member)
    rw [flatMap_cons, length_append, length_cons]
    omega

theorem length_le_of_mem_flatMap {xs : List α} (f : α → List β) {x : α} (member : x ∈ xs) :
    (f x).length ≤ (xs.flatMap f).length := by
  obtain ⟨before, after, rfl⟩ := append_of_mem member
  rw [flatMap_append, flatMap_cons, length_append, length_append]
  omega

end

/-- `Vec::resize` with zeros. -/
def resize (len : Nat) (bytes : List UInt8) : List UInt8 :=
  bytes.take len ++ List.replicate (len - bytes.length) 0

@[simp] theorem length_resize (len : Nat) (bytes : List UInt8) :
    (resize len bytes).length = len := by
  rw [resize, length_append, length_take, length_replicate]
  omega

theorem resize_of_le {len : Nat} {bytes : List UInt8} (fits : bytes.length ≤ len) :
    resize len bytes = bytes ++ replicate (len - bytes.length) 0 := by
  rw [resize, take_of_length_le fits]

section

variable {block other data : List α}

end

def Memory : Type := Nat → UInt8

namespace Memory

def zeroed : Memory := fun _ => 0

/-- `len` bytes from `start` on. -/
def read (mem : Memory) (start len : Nat) : List UInt8 :=
  (List.range len).map fun i => mem (start + i)

/-- Overwrite the bytes from `start` on. -/
def write (mem : Memory) (start : Nat) (data : List UInt8) : Memory :=
  fun address => if start ≤ address then data.getD (address - start) (mem address) else mem address

/-- Copy the first `len` bytes of `source` to `start`. -/
def copy (mem : Memory) (start : Nat) (source : Memory) (len : Nat) : Memory :=
  fun address =>
    if start ≤ address ∧ address < start + len then source (address - start) else mem address

@[simp] theorem length_read (mem : Memory) (start len : Nat) :
    (mem.read start len).length = len := by
  rw [read, length_map, length_range]

theorem read_congr {left right : Memory} {start start' len : Nat}
    (same : ∀ i < len, left (start + i) = right (start' + i)) :
    left.read start len = right.read start' len :=
  map_congr_left fun i member => same i (mem_range.mp member)

theorem getElem?_read {mem : Memory} {start len i : Nat} (inside : i < len) :
    (mem.read start len)[i]? = some (mem (start + i)) := by
  rw [read, getElem?_map, getElem?_range inside, Option.map_some]

theorem take_drop_read (mem : Memory) {start len offset count : Nat}
    (inside : offset + count ≤ len) :
    ((mem.read start len).drop offset).take count = mem.read (start + offset) count := by
  refine ext_getElem? fun i => ?_
  by_cases early : i < count
  · rw [getElem?_take_of_lt early, getElem?_drop, getElem?_read (by omega),
      getElem?_read early, Nat.add_assoc]
  · rw [getElem?_eq_none, getElem?_eq_none]
    · rw [length_read]
      omega
    · rw [length_take]
      omega

theorem read_zeroed (start len : Nat) : zeroed.read start len = replicate len 0 := by
  refine eq_replicate_iff.mpr ⟨length_read _ _ _, fun byte member => ?_⟩
  obtain ⟨_, -, rfl⟩ := mem_map.mp member
  rfl

section

variable (mem : Memory)

theorem write_outside {start address : Nat} {data : List UInt8}
    (outside : address < start ∨ start + data.length ≤ address) :
    mem.write start data address = mem address := by
  unfold write
  split
  · rw [getD_eq_getElem?_getD, getElem?_eq_none (by omega), Option.getD_none]
  · rfl

theorem write_inside {start i : Nat} {data : List UInt8} {byte : UInt8}
    (byteAt : data[i]? = some byte) : mem.write start data (start + i) = byte := by
  unfold write
  rw [if_pos (Nat.le_add_right _ _), Nat.add_sub_cancel_left, getD_eq_getElem?_getD, byteAt,
    Option.getD_some]

theorem read_write_same (start : Nat) (data : List UInt8) :
    (mem.write start data).read start data.length = data := by
  refine ext_getElem? fun i => ?_
  by_cases inside : i < data.length
  · rw [getElem?_read inside, mem.write_inside (getElem?_eq_getElem inside),
      getElem?_eq_getElem inside]
  · rw [getElem?_eq_none (by rw [length_read]; omega), getElem?_eq_none (by omega)]

theorem hasAt_read_write {start len : Nat} {data : List UInt8} (fits : data.length ≤ len) :
    HasAt ((mem.write start data).read start len) 0 data := by
  obtain ⟨rest, rfl⟩ := Nat.exists_eq_add_of_le fits
  have split : (mem.write start data).read start (data.length + rest) =
      (mem.write start data).read start data.length ++
        (mem.write start data).read (start + data.length) rest := by
    simp only [read, range_add, map_append, map_map, comp_def, Nat.add_assoc]
  rw [split, read_write_same]
  exact HasAt.front _ _

theorem read_write_disjoint {start len other : Nat} {data : List UInt8}
    (disjoint : start + len ≤ other ∨ other + data.length ≤ start) :
    (mem.write other data).read start len = mem.read start len :=
  read_congr fun i inside => mem.write_outside (by omega)

end

variable (mem source : Memory)

theorem copy_inside {start len i : Nat} (inside : i < len) :
    mem.copy start source len (start + i) = source i := by
  unfold copy
  rw [if_pos (by omega), Nat.add_sub_cancel_left]

theorem copy_outside {start len address : Nat} (outside : address < start ∨ start + len ≤ address) :
    mem.copy start source len address = mem address :=
  if_neg (by omega)

theorem read_copy_inside {start len offset count : Nat} (inside : offset + count ≤ len) :
    (mem.copy start source len).read (start + offset) count = source.read offset count :=
  read_congr fun i bound => by
    rw [Nat.add_assoc]
    exact mem.copy_inside source (by omega)

theorem read_copy_disjoint {start len other count : Nat}
    (disjoint : other + count ≤ start ∨ start + len ≤ other) :
    (mem.copy start source len).read other count = mem.read other count :=
  read_congr fun i bound => mem.copy_outside source (by omega)

end Memory

end SwornDisk.Lib
