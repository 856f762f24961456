import SwornDisk.C.Device

/-!
# The victims of garbage collection

The methods of `struct dst` with every way they can fail: the entry that is asked for does
not exist or is in the wrong state, the block manager does not read or write its block, or
there is no memory for a victim.  Over all runs of these calls the victims are sorted copies
of the entries, whatever fails.  A segment with an invalid block is a victim, unless it was
removed, as long as there is memory for the victims.
-/

namespace SwornDisk.C

open Lib List Function

variable {io : DstIo} {d : Dst} {segno : Nat} {entry : DstEntry}

namespace Dst

def removeVictim (d : Dst) (segno : Nat) : Option Victim × Dst :=
  (if d.nodeList segno then d.victims.find? fun victim => victim.segno == segno else none,
    dstRemoveVictim d segno)

def popVictim (d : Dst) : Option Victim × Dst :=
  match dstPeekVictim d with
  | none => (none, d)
  | some victim => removeVictim d victim.segno

/-- `dst_format`: the entries are filled with zero bytes and loaded. -/
def format (allocates : Nat → Bool) (nrSegment : Nat) : Dst :=
  load allocates nrSegment fun _ => ⟨0, fun _ => false⟩

def stored (io : DstIo) (d : Dst) (segno : Nat) (entry : DstEntry) : Dst :=
  if io.allocates then dstStore d segno entry
  else dstRemoveVictim (dstSet d segno entry) segno

section

variable (io d segno entry)

@[simp] theorem stored_array : (stored io d segno entry).array = update d.array segno entry := by
  unfold stored
  split <;> simp [dstSet]

@[simp] theorem stored_nrSegment : (stored io d segno entry).nrSegment = d.nrSegment := by
  unfold stored
  split <;> simp [dstSet]

end

theorem stored_full (full : blocksPerSegment ≤ entry.nrValidBlock) :
    stored io d segno entry = dstRemoveVictim (dstSet d segno entry) segno := by
  unfold stored
  split
  · simp only [dstStore, dstUpdateVictim_eq, full, if_true]
  · rfl

theorem storeEntry_eq (bound : segno < d.nrSegment) (writes : io.writes = true) :
    (storeEntry io d segno entry).2 = stored io d segno entry := by
  simp only [storeEntry, setEntry, bound, writes, if_true, updateVictim, addVictim, stored,
    dstStore, dstUpdateVictim_eq]
  cases io.allocates with
  | true =>
    simp only [if_true]
    split <;> rfl
  | false =>
    simp only [Bool.false_eq_true, if_false]
    split <;> rfl

theorem storeEntry_failed (bound : segno < d.nrSegment) (writes : io.writes = false) :
    (storeEntry io d segno entry).2 = d := by
  simp only [storeEntry, setEntry, bound, writes, Bool.false_eq_true, if_true, if_false]

theorem wellFormed_stored (wf : DstWellFormed d) (bound : segno < d.nrSegment)
    (count : entry.nrValidBlock = countSet entry.blockValidityTable blocksPerSegment) :
    DstWellFormed (stored io d segno entry) := by
  unfold stored
  split
  · exact wf.store bound count
  · exact wf.setRemove count

theorem mem_victims_stored (wf : DstWellFormed d) {other : Nat} :
    other ∈ (stored io d segno entry).victims.map Victim.segno ↔
      (other ∈ d.victims.map Victim.segno ∧ other ≠ segno) ∨
        (other = segno ∧ entry.nrValidBlock < blocksPerSegment ∧ io.allocates = true) := by
  unfold stored
  cases io.allocates with
  | true =>
    simp only [if_true, mem_map, mem_victims_dstStore wf]
    constructor
    · rintro ⟨victim, ⟨member, differs⟩ | ⟨rfl, notFull⟩, rfl⟩
      · exact .inl ⟨⟨victim, member, rfl⟩, differs⟩
      · exact .inr ⟨rfl, notFull, trivial⟩
    · rintro (⟨⟨victim, member, rfl⟩, differs⟩ | ⟨rfl, notFull, -⟩)
      · exact ⟨victim, .inl ⟨member, differs⟩, rfl⟩
      · exact ⟨_, .inr ⟨rfl, notFull⟩, rfl⟩
  | false =>
    simp only [Bool.false_eq_true, if_false, and_false, or_false, dstSet_removeVictim]
    exact mem_segno_dstRemoveVictim wf

def HasInvalid (d : Dst) (segno : Nat) : Prop :=
  ∃ offset < blocksPerSegment, (d.array segno).blockValidityTable offset = false

theorem hasInvalid_iff (wf : DstWellFormed d) (bound : segno < d.nrSegment) :
    d.HasInvalid segno ↔ (d.array segno).nrValidBlock < blocksPerSegment := by
  rw [wf.count segno bound]
  constructor
  · rintro ⟨offset, inside, clear⟩
    apply (countSet_le _ _).lt_of_ne
    intro full
    have set := countSet_eq_self_iff.mp full offset inside
    rw [set] at clear
    contradiction
  · exact exists_clear_of_countSet_lt

/-- The victims are copies of the entries, as `DstWellFormed` has it, and `peek_victim` finds
one with the fewest valid blocks. -/
structure VictimsCurrent (d : Dst) : Prop where
  wellFormed : DstWellFormed d
  minimal : ∀ other ∈ d.victims, ∃ victim ∈ d.victims,
    dstPeekVictim d = some victim ∧ victim.nrValidBlock ≤ other.nrValidBlock

theorem VictimsCurrent.of_wellFormed (wf : DstWellFormed d) : d.VictimsCurrent := by
  refine ⟨wf, ?_⟩
  intro other member
  have sorted := wf.sorted
  unfold dstPeekVictim
  cases victims : d.victims with
  | nil => simp [victims] at member
  | cons first rest =>
    rw [victims] at member sorted
    refine ⟨first, mem_cons_self, rfl, ?_⟩
    rcases mem_cons.mp member with rfl | member
    · exact le_rfl
    · exact (pairwise_cons.mp sorted).1 other member

end Dst

inductive DstCall where
  | takeSegment (segno : Nat)
  | takeBlock (blkaddr : Nat)
  | returnBlock (blkaddr : Nat)
  | removeVictim (segno : Nat)
  | popVictim

namespace DstCall

def apply (io : DstIo) (d : Dst) : DstCall → Dst
  | .takeSegment segno => (d.takeSegment io segno).2
  | .takeBlock blkaddr => (d.takeBlock io blkaddr).2
  | .returnBlock blkaddr => (d.returnBlock io blkaddr).2
  | .removeVictim segno => (d.removeVictim segno).2
  | .popVictim => d.popVictim.2

/-- A block is taken when its bit is clear and returned when its bit is set; `node_list` is
read at a segment of the table. -/
def Allowed (d : Dst) : DstCall → Prop
  | .takeSegment _ => True
  | .takeBlock blkaddr => blockToSegment blkaddr < d.nrSegment → dstBit d blkaddr = false
  | .returnBlock blkaddr => blockToSegment blkaddr < d.nrSegment → dstBit d blkaddr = true
  | .removeVictim segno => segno < d.nrSegment
  | .popVictim => True

def storedEntry (io : DstIo) (d : Dst) : DstCall → Option (Nat × DstEntry)
  | .takeSegment segno =>
    if segno < d.nrSegment ∧ io.reads ∧ io.writes ∧ (d.array segno).nrValidBlock = 0 then
      some (segno, ⟨blocksPerSegment, fun _ => true⟩)
    else none
  | .takeBlock blkaddr =>
    let segno := blockToSegment blkaddr
    let entry := d.array segno
    if segno < d.nrSegment ∧ io.reads ∧ io.writes ∧ entry.nrValidBlock < blocksPerSegment then
      some (segno, ⟨entry.nrValidBlock + 1, Function.update entry.blockValidityTable
        (blockOffsetWithinSegment blkaddr) true⟩)
    else none
  | .returnBlock blkaddr =>
    let segno := blockToSegment blkaddr
    let entry := d.array segno
    if segno < d.nrSegment ∧ io.reads ∧ io.writes ∧ 0 < entry.nrValidBlock then
      some (segno, ⟨entry.nrValidBlock - 1, Function.update entry.blockValidityTable
        (blockOffsetWithinSegment blkaddr) false⟩)
    else none
  | .removeVictim _ => none
  | .popVictim => none

/-- The segment whose victim a call of `remove_victim` or `pop_victim` removes. -/
def removedSegment (d : Dst) : DstCall → Option Nat
  | .removeVictim segno => if d.nodeList segno then some segno else none
  | .popVictim => (dstPeekVictim d).map Victim.segno
  | _ => none

variable {call : DstCall}

theorem apply_eq (call : DstCall) :
    call.apply io d =
      match call.storedEntry io d with
      | some (segno, entry) => d.stored io segno entry
      | none =>
        match call.removedSegment d with
        | some segno => dstRemoveVictim d segno
        | none => d := by
  cases call with
  | takeSegment segno =>
    simp only [apply, storedEntry, removedSegment, Dst.takeSegment, Dst.getEntry]
    by_cases got : segno < d.nrSegment ∧ io.reads = true
    · by_cases empty : (d.array segno).nrValidBlock = 0
      · cases writes : io.writes with
        | true => simp [got, empty, Dst.setEntry, writes, Dst.stored_full]
        | false => simp [got, empty, Dst.setEntry, writes]
      · simp [got, empty]
    · rw [if_neg got, if_neg fun all => got ⟨all.1, all.2.1⟩]
  | takeBlock blkaddr =>
    simp only [apply, storedEntry, removedSegment, Dst.takeBlock, Dst.getEntry]
    by_cases got : blockToSegment blkaddr < d.nrSegment ∧ io.reads = true
    · by_cases full : blocksPerSegment ≤ (d.array (blockToSegment blkaddr)).nrValidBlock
      · simp [got, full, Nat.not_lt.mpr full]
      · cases writes : io.writes with
        | true => simp [got, full, Nat.lt_of_not_le full, Dst.storeEntry_eq got.1 writes]
        | false => simp [got, full, Dst.storeEntry_failed got.1 writes]
    · rw [if_neg got, if_neg fun all => got ⟨all.1, all.2.1⟩]
  | returnBlock blkaddr =>
    simp only [apply, storedEntry, removedSegment, Dst.returnBlock, Dst.getEntry]
    by_cases got : blockToSegment blkaddr < d.nrSegment ∧ io.reads = true
    · by_cases empty : (d.array (blockToSegment blkaddr)).nrValidBlock = 0
      · simp [got, empty]
      · cases writes : io.writes with
        | true => simp [got, empty, Nat.pos_of_ne_zero empty, Dst.storeEntry_eq got.1 writes]
        | false => simp [got, empty, Dst.storeEntry_failed got.1 writes]
    · rw [if_neg got, if_neg fun all => got ⟨all.1, all.2.1⟩]
  | removeVictim segno =>
    simp only [apply, storedEntry, removedSegment, Dst.removeVictim]
    cases listed : d.nodeList segno with
    | true => rfl
    | false => simp only [dstRemoveVictim, listed, Bool.false_eq_true, if_false]
  | popVictim =>
    simp only [apply, storedEntry, removedSegment, Dst.popVictim]
    cases dstPeekVictim d <;> rfl

theorem count_storedEntry (wf : DstWellFormed d) (allowed : call.Allowed d)
    (stores : call.storedEntry io d = some (segno, entry)) :
    segno < d.nrSegment ∧
      entry.nrValidBlock = countSet entry.blockValidityTable blocksPerSegment := by
  cases call with
  | takeSegment segno =>
    obtain ⟨⟨bound, -⟩, pair⟩ := Option.ite_none_right_eq_some.mp stores
    obtain ⟨rfl, rfl⟩ := Prod.mk.inj (Option.some.inj pair)
    exact ⟨bound, (countSet_eq_self_iff.mpr fun _ _ => rfl).symm⟩
  | takeBlock blkaddr =>
    obtain ⟨⟨bound, -⟩, pair⟩ := Option.ite_none_right_eq_some.mp stores
    obtain ⟨rfl, rfl⟩ := Prod.mk.inj (Option.some.inj pair)
    have more := countSet_set (blockOffset_lt blkaddr) (allowed bound)
    exact ⟨bound, (congrArg (· + 1) (wf.count _ bound)).trans more.symm⟩
  | returnBlock blkaddr =>
    obtain ⟨⟨bound, -⟩, pair⟩ := Option.ite_none_right_eq_some.mp stores
    obtain ⟨rfl, rfl⟩ := Prod.mk.inj (Option.some.inj pair)
    have fewer := countSet_clear (blockOffset_lt blkaddr) (allowed bound)
    exact ⟨bound, Nat.sub_eq_of_eq_add ((wf.count _ bound).trans fewer.symm)⟩
  | removeVictim segno => cases stores
  | popVictim => cases stores

theorem wellFormed_apply (wf : DstWellFormed d) (allowed : call.Allowed d) :
    DstWellFormed (call.apply io d) := by
  rw [apply_eq]
  cases stores : call.storedEntry io d with
  | some written =>
    obtain ⟨bound, count⟩ := count_storedEntry wf allowed stores
    exact Dst.wellFormed_stored wf bound count
  | none =>
    cases call.removedSegment d with
    | some segno => exact wf.removeVictim segno
    | none => exact wf

def KeepsVictim (io : DstIo) (d : Dst) (call : DstCall) : Prop :=
  ∀ segno entry, call.storedEntry io d = some (segno, entry) →
    entry.nrValidBlock < blocksPerSegment → io.allocates = true

end DstCall

/-- A table with the segments whose victim was removed by a call of `remove_victim` or
`pop_victim` since their entry was last overwritten. -/
structure DstRun where
  dst : Dst
  removed : Nat → Bool

variable {calls : List (DstCall × DstIo)}

namespace DstRun

def step (s : DstRun) (call : DstCall) (io : DstIo) : DstRun where
  dst := call.apply io s.dst
  removed :=
    match call.storedEntry io s.dst with
    | some (segno, _) => Function.update s.removed segno false
    | none =>
      match call.removedSegment s.dst with
      | some segno => Function.update s.removed segno true
      | none => s.removed

/-- Every segment with an invalid block is a victim or was removed. -/
def Covered (s : DstRun) : Prop :=
  ∀ segno < s.dst.nrSegment, s.dst.HasInvalid segno →
    segno ∈ s.dst.victims.map Victim.segno ∨ s.removed segno = true

structure Sound (s : DstRun) : Prop where
  current : s.dst.VictimsCurrent
  covered : s.Covered

variable {s : DstRun} {call : DstCall}

theorem sound_iff : s.Sound ↔ DstWellFormed s.dst ∧ s.Covered :=
  ⟨fun sound => ⟨sound.current.wellFormed, sound.covered⟩,
    fun ⟨wf, covered⟩ => ⟨.of_wellFormed wf, covered⟩⟩

section

variable (wf : DstWellFormed s.dst) (covered : s.Covered)
include wf covered

/-- Overwriting an entry keeps the segments covered exactly if the victim that it needs is
stored. -/
theorem covered_stored_iff (bound : segno < s.dst.nrSegment)
    (count : entry.nrValidBlock = countSet entry.blockValidityTable blocksPerSegment) :
    Covered ⟨s.dst.stored io segno entry, update s.removed segno false⟩ ↔
      (entry.nrValidBlock < blocksPerSegment → io.allocates = true) := by
  have after : DstWellFormed (s.dst.stored io segno entry) :=
    Dst.wellFormed_stored wf bound count
  constructor
  · intro covers notFull
    have invalid : (s.dst.stored io segno entry).HasInvalid segno := by
      rw [Dst.hasInvalid_iff after (by simpa using bound)]
      simpa using notFull
    rcases covers segno (by simpa using bound) invalid with member | gone
    · rcases (Dst.mem_victims_stored wf).mp member with ⟨-, differs⟩ | ⟨-, -, allocates⟩
      · exact absurd rfl differs
      · exact allocates
    · simp at gone
  · intro allocates other inside invalid
    simp only [Dst.stored_nrSegment] at inside
    by_cases same : other = segno
    · subst same
      rw [Dst.hasInvalid_iff after (by simpa using inside)] at invalid
      simp only [Dst.stored_array, update_self] at invalid
      exact .inl ((Dst.mem_victims_stored wf).mpr (.inr ⟨rfl, invalid, allocates invalid⟩))
    · have before : s.dst.HasInvalid other := by
        simpa [Dst.HasInvalid, update_of_ne same] using invalid
      rcases covered other inside before with member | gone
      · exact .inl ((Dst.mem_victims_stored wf).mpr (.inl ⟨member, same⟩))
      · exact .inr (by simpa [update_of_ne same] using gone)

theorem covered_removed (segno : Nat) :
    Covered ⟨dstRemoveVictim s.dst segno, update s.removed segno true⟩ := by
  intro other inside invalid
  by_cases same : other = segno
  · subst same
    exact .inr (by simp)
  · have before : s.dst.HasInvalid other := by
      simpa [Dst.HasInvalid] using invalid
    rcases covered other (by simpa using inside) before with member | gone
    · exact .inl ((mem_segno_dstRemoveVictim wf).mpr ⟨member, same⟩)
    · exact .inr (by simpa [update_of_ne same] using gone)

theorem covered_step_iff (allowed : call.Allowed s.dst) :
    (s.step call io).Covered ↔ call.KeepsVictim io s.dst := by
  unfold step
  rw [DstCall.apply_eq]
  unfold DstCall.KeepsVictim
  cases stores : call.storedEntry io s.dst with
  | some written =>
    obtain ⟨segno, entry⟩ := written
    obtain ⟨bound, count⟩ := DstCall.count_storedEntry wf allowed stores
    simp only [Option.some.injEq, Prod.mk.injEq]
    rw [covered_stored_iff wf covered bound count]
    constructor
    · rintro keeps _ _ ⟨rfl, rfl⟩
      exact keeps
    · intro keeps
      exact keeps segno entry ⟨rfl, rfl⟩
  | none =>
    refine iff_of_true ?_ (by simp)
    cases call.removedSegment s.dst with
    | some segno => exact covered_removed wf covered segno
    | none => exact covered

end

def Allows : DstRun → List (DstCall × DstIo) → Prop
  | _, [] => True
  | s, (call, io) :: calls => call.Allowed s.dst ∧ (s.step call io).Allows calls

def Always (property : DstRun → Prop) : DstRun → List (DstCall × DstIo) → Prop
  | s, [] => property s
  | s, (call, io) :: calls => property s ∧ (s.step call io).Always property calls

/-- There is memory for every victim that a call of the run needs. -/
def KeepsVictims : DstRun → List (DstCall × DstIo) → Prop
  | _, [] => True
  | s, (call, io) :: calls => call.KeepsVictim io s.dst ∧ (s.step call io).KeepsVictims calls

theorem Always.here {property : DstRun → Prop} (always : s.Always property calls) : property s := by
  cases calls with
  | nil => exact always
  | cons call calls => exact always.1

theorem always_current (wf : DstWellFormed s.dst) (allows : s.Allows calls) :
    s.Always (fun t => t.dst.VictimsCurrent) calls := by
  induction calls generalizing s with
  | nil => exact .of_wellFormed wf
  | cons head calls ih =>
    exact ⟨.of_wellFormed wf, ih (DstCall.wellFormed_apply wf allows.1) allows.2⟩

/-- From a sound state, a run is sound throughout exactly if there is memory for every victim
it needs. -/
theorem always_sound_iff (sound : s.Sound) (allows : s.Allows calls) :
    s.Always Sound calls ↔ s.KeepsVictims calls := by
  induction calls generalizing s with
  | nil => exact iff_of_true sound trivial
  | cons head calls ih =>
    obtain ⟨call, io⟩ := head
    have after : DstWellFormed (s.step call io).dst :=
      DstCall.wellFormed_apply sound.current.wellFormed allows.1
    have covers : (s.step call io).Covered ↔ call.KeepsVictim io s.dst :=
      covered_step_iff sound.current.wellFormed sound.covered allows.1
    constructor
    · intro always
      have next := always.2.here
      exact ⟨covers.mp next.covered, (ih next allows.2).mp always.2⟩
    · intro keeps
      have next := sound_iff.mpr ⟨after, covers.mpr keeps.1⟩
      exact ⟨sound, (ih next allows.2).mpr keeps.2⟩

end DstRun

theorem Dst.loaded_format (allocates : Nat → Bool) (nrSegment : Nat) :
    Dst.Loaded allocates nrSegment (fun _ => ⟨0, fun _ => false⟩) nrSegment
      (Dst.format allocates nrSegment) :=
  Dst.loaded_load allocates fun _ _ => (countSet_eq_zero_iff.mpr fun _ _ => rfl).symm

namespace DstRun

variable (allocates : Nat → Bool) (nrSegment : Nat)

def formatted : DstRun :=
  ⟨Dst.format allocates nrSegment, fun _ => false⟩

/-- A formatted table is sound exactly if there was memory for all victims. -/
theorem sound_formatted_iff :
    (formatted allocates nrSegment).Sound ↔ ∀ segno < nrSegment, allocates segno = true := by
  have loaded := Dst.loaded_format allocates nrSegment
  unfold formatted
  rw [sound_iff, and_iff_right loaded.wellFormed]
  unfold Covered
  simp only [loaded.nrSegment, loaded.victims, Bool.false_eq_true, or_false]
  constructor
  · intro covered segno inside
    refine (covered segno inside ⟨0, by decide, ?_⟩).2.2
    rw [loaded.array]
  · intro memory segno inside _
    exact ⟨inside, Nat.succ_pos 1023, memory segno inside⟩

end DstRun

/-- From a formatted table, before and after every call: the counts are those of the bitmaps,
the victims are copies of the entries of different segments that are not full, those listed in
`node_list`, and `peek_victim` finds a smallest one, whatever fails.  Every segment with an
invalid block is a victim or was removed, exactly if there is memory for every victim that is
needed. -/
theorem victims_sound_iff (allocates : Nat → Bool) (nrSegment : Nat)
    (calls : List (DstCall × DstIo))
    (allows : (DstRun.formatted allocates nrSegment).Allows calls) :
    (DstRun.formatted allocates nrSegment).Always (fun s => s.dst.VictimsCurrent) calls ∧
      ((DstRun.formatted allocates nrSegment).Always DstRun.Sound calls ↔
        (∀ segno < nrSegment, allocates segno = true) ∧
          (DstRun.formatted allocates nrSegment).KeepsVictims calls) := by
  constructor
  · exact DstRun.always_current (Dst.loaded_format allocates nrSegment).wellFormed allows
  · constructor
    · intro always
      have sound := always.here
      exact ⟨(DstRun.sound_formatted_iff _ _).mp sound,
        (DstRun.always_sound_iff sound allows).mp always⟩
    · rintro ⟨memory, keeps⟩
      have sound := (DstRun.sound_formatted_iff _ _).mpr memory
      exact (DstRun.always_sound_iff sound allows).mpr keeps

/-- A segment is taken, a block of it returned, the segment asked for again in vain, and its
victim popped. -/
def collectedCalls : List (DstCall × DstIo) :=
  [(.takeSegment 0, .quiet), (.returnBlock 5, .quiet), (.takeSegment 0, .quiet),
    (.popVictim, .quiet)]

theorem victims_sound_collected :
    (DstRun.formatted (fun _ => true) 2).Allows collectedCalls ∧
      (DstRun.formatted (fun _ => true) 2).Always DstRun.Sound collectedCalls := by
  have allows : (DstRun.formatted (fun _ => true) 2).Allows collectedCalls :=
    ⟨trivial, fun _ => by decide +kernel, trivial, trivial, trivial⟩
  have keeps : (DstRun.formatted (fun _ => true) 2).KeepsVictims collectedCalls :=
    ⟨fun _ _ _ _ => rfl, fun _ _ _ _ => rfl, fun _ _ _ _ => rfl, fun _ _ _ _ => rfl, trivial⟩
  exact ⟨allows, ((victims_sound_iff (fun _ => true) 2 collectedCalls allows).2).mpr
    ⟨fun _ _ => rfl, keeps⟩⟩

/-- A block of a full segment is returned while there is no memory: `dst_return_block` fails
with `-ENOMEM` after it has cleared the bit. -/
def starvedCalls : List (DstCall × DstIo) :=
  [(.takeSegment 0, .quiet), (.returnBlock 0, ⟨true, true, false⟩)]

/-- The segment has an invalid block, is no victim and was never removed. -/
theorem starved_victim_lost :
    (DstRun.formatted (fun _ => true) 1).Allows starvedCalls ∧
      ¬ (DstRun.formatted (fun _ => true) 1).Always DstRun.Sound starvedCalls := by
  constructor
  · exact ⟨trivial, fun _ => by decide +kernel, trivial⟩
  · intro always
    let last := ((DstRun.formatted (fun _ => true) 1).step (.takeSegment 0) .quiet).step
      (.returnBlock 0) ⟨true, true, false⟩
    have covered : last.Covered := always.2.2.covered
    have inside : 0 < last.dst.nrSegment := by decide +kernel
    have invalid : last.dst.HasInvalid 0 := ⟨0, by decide, by decide +kernel⟩
    have lost : ¬ (0 ∈ last.dst.victims.map Victim.segno ∨ last.removed 0 = true) := by
      decide +kernel
    exact lost (covered 0 inside invalid)

end SwornDisk.C
