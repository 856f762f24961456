import SwornDisk.Lib.OrdMap

/-!
# MemTable and BIT category of the Rust implementation

`MemTable` of `regions/index/memtable.rs` and `BITCategory` of
`regions/checkpoint/bitc.rs`.  Both are generic here: the memtable in its records,
the category in what it keeps of a block index table (`record`, `level`, `size`).
-/

namespace SwornDisk.Rust

open Lib List Function

inductive Error where
  | einval
  | enomem
  | enospc
  | eio
  | ebadmsg
  deriving DecidableEq, Repr

def u64Max : Nat := 2 ^ 64 - 1

/-- `MemTable`: `size` counts insertions, not bindings. -/
structure MemTable (V : Type) where
  size : Nat
  lbaRange : Nat × Nat
  inner : OrdMap V

namespace MemTable

variable {V : Type}

def new : MemTable V where
  size := 0
  lbaRange := (u64Max, 0)
  inner := OrdMap.empty

/-- `MemTable::insert`, with memory for the node. -/
def insert (m : MemTable V) (lba : Nat) (record : V) : MemTable V where
  size := m.size + 1
  lbaRange := (min m.lbaRange.1 lba, max m.lbaRange.2 lba)
  inner := m.inner.insert lba record

def find (m : MemTable V) (lba : Nat) : Option V :=
  if lba < m.lbaRange.1 ∨ m.lbaRange.2 < lba then none else m.inner.find lba

/-- `MemTable::clear`: the range is kept. -/
def clear (m : MemTable V) : MemTable V :=
  { m with size := 0, inner := OrdMap.empty }

/-- The range covers every binding, so that the range check of `find` is sound. -/
def Covered (m : MemTable V) : Prop :=
  ∀ lba record, m.inner.find lba = some record →
    m.lbaRange.1 ≤ lba ∧ lba ≤ m.lbaRange.2

theorem covered_new : (new : MemTable V).Covered := by
  intro lba record bound
  simp [new] at bound

theorem Covered.find_eq {m : MemTable V} (covered : m.Covered) : m.find = m.inner.find := by
  funext lba
  unfold find
  split
  · rename_i outside
    cases binding : m.inner.find lba with
    | none => rfl
    | some record =>
      have := covered lba record binding
      omega
  · rfl

theorem Covered.insert {m : MemTable V} (covered : m.Covered) (lba : Nat) (record : V) :
    (m.insert lba record).Covered := by
  intro other held bound
  simp only [MemTable.insert, OrdMap.find_insert, update_apply] at bound ⊢
  split at bound
  · omega
  · have := covered other held bound
    omega

theorem covered_clear (m : MemTable V) : m.clear.Covered := by
  intro lba record bound
  simp [clear] at bound

theorem Covered.find_insert {m : MemTable V} (covered : m.Covered) (lba : Nat) (record : V) :
    (m.insert lba record).find = update m.find lba (some record) := by
  rw [(covered.insert lba record).find_eq, covered.find_eq]
  exact OrdMap.find_insert _ _ _

@[simp] theorem find_clear (m : MemTable V) (lba : Nat) : m.clear.find lba = none := by
  unfold find
  split <;> simp [clear]

end MemTable

def lsmTreeMaxLevel : Nat := 3

def maxCompactionNumber : Nat := 6

/-- `BITRootMeta`. -/
structure BitRootMeta (β : Type) where
  uniqueId : Nat
  bit : β

/-- `BITCategory`: the tables of each level, in the order they were added. -/
structure BitCategory (β : Type) where
  bitUniqueId : Nat
  category : Nat → List (BitRootMeta β)

namespace BitCategory

variable {β : Type}

def new : BitCategory β where
  bitUniqueId := 0
  category := fun _ => []

/-- `BITCategory::add_bit`.  `room` says whether `try_push` finds memory; the
identifier is consumed even when it does not. -/
def addBit (c : BitCategory β) (bit : β) (level : Nat) (room : Bool) :
    Except Error Unit × BitCategory β :=
  if lsmTreeMaxLevel ≤ level then (.error .einval, c)
  else if room then
    (.ok (),
      { bitUniqueId := c.bitUniqueId + 1
        category := Function.update c.category level
          (c.category level ++ [⟨c.bitUniqueId, bit⟩]) })
  else (.error .enomem, { c with bitUniqueId := c.bitUniqueId + 1 })

def levelSize (c : BitCategory β) (level : Nat) : Nat :=
  (c.category level).length

/-- The last index whose element satisfies `p`, as the scan without `break` of
`release_bit` finds it. -/
def lastIndex {α : Type} (p : α → Bool) : List α → Option Nat
  | [] => none
  | x :: xs =>
    match lastIndex p xs with
    | some i => some (i + 1)
    | none => if p x then some 0 else none

def releaseBit (c : BitCategory β) (level uniqueId : Nat) : Except Error (BitCategory β) :=
  match lastIndex (fun held => held.uniqueId == uniqueId) (c.category level) with
  | some idx =>
    .ok { c with
      category := Function.update c.category level ((c.category level).eraseIdx idx) }
  | none => .error .einval

/-- The release loop of `CompactionWorker::work`, left at the first failure. -/
def releaseAll (level : Nat) : List Nat → BitCategory β → Except Error Unit × BitCategory β
  | [], c => (.ok (), c)
  | uniqueId :: rest, c =>
    match c.releaseBit level uniqueId with
    | .ok released => releaseAll level rest released
    | .error err => (.error err, c)

/-- `BITCategory::iter_level`: newest first. -/
def iterLevel (c : BitCategory β) (level : Nat) : List (BitRootMeta β) :=
  (c.category level).reverse

/-- Identifiers are handed out once: those of a level are distinct and below the
next one. -/
structure IdsFresh (c : BitCategory β) : Prop where
  nodup : ∀ level, ((c.category level).map BitRootMeta.uniqueId).Nodup
  below : ∀ level, ∀ held ∈ c.category level, held.uniqueId < c.bitUniqueId

theorem idsFresh_new : (new : BitCategory β).IdsFresh where
  nodup := fun _ => nodup_nil
  below := fun _ _ member => by simp [new] at member

/-- What `add_bit` can do: append to the level, or fail and change no level. -/
theorem addBit_cases (c : BitCategory β) (bit : β) {level : Nat}
    (inside : level < lsmTreeMaxLevel) (room : Bool) :
    (c.addBit bit level room =
        (.ok (), ⟨c.bitUniqueId + 1, update c.category level
          (c.category level ++ [⟨c.bitUniqueId, bit⟩])⟩)) ∨
      (∃ err, c.addBit bit level room = (.error err, ⟨c.bitUniqueId + 1, c.category⟩)) := by
  unfold addBit
  rw [if_neg (Nat.not_le.mpr inside)]
  cases room with
  | true => exact .inl rfl
  | false => exact .inr ⟨.enomem, rfl⟩

theorem IdsFresh.addBit {c : BitCategory β} (fresh : c.IdsFresh) (bit : β) {level : Nat}
    (inside : level < lsmTreeMaxLevel) (room : Bool) : (c.addBit bit level room).2.IdsFresh := by
  rcases c.addBit_cases bit inside room with added | ⟨err, failed⟩
  · rw [added]
    constructor
    · intro other
      by_cases same : other = level
      · subst same
        simp only [update_self, map_append, map_cons, map_nil]
        refine nodup_append.mpr ⟨fresh.nodup other, nodup_singleton _, ?_⟩
        intro uniqueId member last lastMember
        obtain ⟨held, heldMember, rfl⟩ := mem_map.mp member
        rw [mem_singleton.mp lastMember]
        exact (fresh.below other held heldMember).ne
      · simpa [update_of_ne same] using fresh.nodup other
    · intro other held member
      by_cases same : other = level
      · subst same
        simp only [update_self, mem_append, mem_singleton] at member
        rcases member with old | rfl
        · exact Nat.lt_succ_of_lt (fresh.below other held old)
        · exact Nat.lt_succ_self _
      · simp only [update_of_ne same] at member
        exact Nat.lt_succ_of_lt (fresh.below other held member)
  · rw [failed]
    exact ⟨fresh.nodup, fun other held member =>
      Nat.lt_succ_of_lt (fresh.below other held member)⟩

theorem lastIndex_eq_none {α : Type} {p : α → Bool} {xs : List α}
    (absent : ∀ x ∈ xs, p x = false) : lastIndex p xs = none := by
  induction xs with
  | nil => rfl
  | cons x xs ih =>
    simp only [lastIndex, ih fun y member => absent y (mem_cons_of_mem _ member)]
    rw [absent x mem_cons_self]
    rfl

theorem releaseBit_head {c : BitCategory β} {level : Nat} {held : BitRootMeta β}
    {rest : List (BitRootMeta β)} (tables : c.category level = held :: rest)
    (nodup : ((c.category level).map BitRootMeta.uniqueId).Nodup) :
    c.releaseBit level held.uniqueId =
      .ok { c with category := update c.category level rest } := by
  rw [tables, map_cons, nodup_cons] at nodup
  have absent : lastIndex (fun other => other.uniqueId == held.uniqueId) rest = none :=
    lastIndex_eq_none fun other member => by
      simpa using fun equal : other.uniqueId = held.uniqueId =>
        nodup.1 (equal ▸ mem_map_of_mem member)
  have found : lastIndex (fun other => other.uniqueId == held.uniqueId)
      (c.category level) = some 0 := by
    simp [tables, lastIndex, absent]
  unfold releaseBit
  rw [found, tables]
  rfl

theorem releaseAll_front {level : Nat} (front back : List (BitRootMeta β)) :
    ∀ c : BitCategory β, c.category level = front ++ back →
      ((c.category level).map BitRootMeta.uniqueId).Nodup →
      releaseAll level (front.map BitRootMeta.uniqueId) c =
        (.ok (), { c with category := update c.category level back }) := by
  induction front with
  | nil =>
    intro c tables _
    rw [nil_append] at tables
    rw [← tables, update_eq_self]
    rfl
  | cons held front ih =>
    intro c tables nodup
    rw [map_cons, releaseAll, releaseBit_head tables nodup]
    simp only
    rw [ih _ (update_self ..)]
    · simp
    · rw [tables, cons_append, map_cons, nodup_cons] at nodup
      simpa using nodup.2

end BitCategory

end SwornDisk.Rust
