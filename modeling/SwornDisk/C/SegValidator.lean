import SwornDisk.Lib.Count

/-!
# Segment validity table

`struct seg_validator` of `metadata.c`: a persistent bitset with a scan cursor.
The same structure hands out data segments (the SVT) and, inside the BIT
catalogue, file identifiers.
-/

namespace SwornDisk.C

open Lib

inductive Errno where
  | enodata
  | einval
  | enospc
  | enomem
  | eio
  deriving DecidableEq, Repr

/-- `struct seg_validator`.  `segValidityTable` is the on-disk bitset, of which
the first `nrSegment` bits are addressable; `curSegment` lives in memory. -/
structure SegValidator where
  nrSegment : Nat
  curSegment : Nat
  segValidityTable : Nat → Bool

/-- `seg_validator_format`: every bit clear, cursor at the start. -/
def segValidatorFormat (nrSegment : Nat) : SegValidator where
  nrSegment := nrSegment
  curSegment := 0
  segValidityTable := fun _ => false

section

variable (v : SegValidator)

/-- `seg_validator_init` on an existing table. -/
def segValidatorInit : SegValidator :=
  { v with curSegment := 0 }

/-- `seg_validator_take`.  The bitset refuses an index outside the table. -/
def segValidatorTake (seg : Nat) : Except Errno SegValidator :=
  if seg < v.nrSegment then
    .ok { v with
      segValidityTable := Function.update v.segValidityTable seg true
      curSegment := v.curSegment + 1 }
  else
    .error .einval

/-- `seg_validator_next`: scan from the cursor to the end and, failing that, once
more from the beginning.  The cursor is left where the scan stopped.  `reads` says of which
segments the first and the second pass read the bit; the others are passed over. -/
def segValidatorScan (reads : Bool → Nat → Bool) : Except Errno Nat × SegValidator :=
  match firstClear (fun seg => v.segValidityTable seg || !reads false seg) v.curSegment
      (v.nrSegment - v.curSegment) with
  | some seg => (.ok seg, { v with curSegment := seg })
  | none =>
    match firstClear (fun seg => v.segValidityTable seg || !reads true seg) 0 v.nrSegment with
    | some seg => (.ok seg, { v with curSegment := seg })
    | none => (.error .enodata, { v with curSegment := v.nrSegment })

/-- `seg_validator_next` where every bit is read. -/
def segValidatorNext : Except Errno Nat × SegValidator :=
  segValidatorScan v fun _ _ => true

/-- `seg_validator_test_and_return`: clear the bit and hand back its old value. -/
def segValidatorTestAndReturn (seg : Nat) : Except Errno (Bool × SegValidator) :=
  if seg < v.nrSegment then
    .ok (v.segValidityTable seg,
      { v with segValidityTable := Function.update v.segValidityTable seg false })
  else
    .error .einval

def segValidatorValidSegmentCount : Nat :=
  countSet v.segValidityTable v.nrSegment

end

theorem segValidatorNext_eq_scan (v : SegValidator) :
    segValidatorNext v =
      match firstClear v.segValidityTable v.curSegment (v.nrSegment - v.curSegment) with
      | some seg => (.ok seg, { v with curSegment := seg })
      | none =>
        match firstClear v.segValidityTable 0 v.nrSegment with
        | some seg => (.ok seg, { v with curSegment := seg })
        | none => (.error .enodata, { v with curSegment := v.nrSegment }) := by
  simp only [segValidatorNext, segValidatorScan, Bool.not_true, Bool.or_false]

theorem segValidatorNext_snd (v : SegValidator) :
    ∃ cursor, (segValidatorNext v).2 = { v with curSegment := cursor } := by
  rw [segValidatorNext_eq_scan]
  split
  · exact ⟨_, rfl⟩
  · split
    · exact ⟨_, rfl⟩
    · exact ⟨_, rfl⟩

variable {v : SegValidator} {seg : Nat}

theorem segValidatorNext_ok (found : (segValidatorNext v).1 = .ok seg) :
    seg < v.nrSegment ∧ v.segValidityTable seg = false := by
  rw [segValidatorNext_eq_scan] at found
  split at found
  · rename_i first scan
    obtain ⟨lower, upper, clear⟩ := firstClear_eq_some scan
    obtain rfl : first = seg := by simpa using found
    exact ⟨by omega, clear⟩
  · split at found
    · rename_i first scan
      obtain ⟨-, upper, clear⟩ := firstClear_eq_some scan
      obtain rfl : first = seg := by simpa using found
      exact ⟨by omega, clear⟩
    · simp at found

theorem segValidatorNext_isOk_of_clear (bound : seg < v.nrSegment)
    (clear : v.segValidityTable seg = false) :
    ∃ found, (segValidatorNext v).1 = .ok found := by
  rw [segValidatorNext_eq_scan]
  split
  · exact ⟨_, rfl⟩
  · split
    · exact ⟨_, rfl⟩
    · rename_i scan
      have set := firstClear_eq_none_iff.mp scan seg (Nat.zero_le _) (by omega)
      rw [clear] at set
      contradiction

variable {err : Errno}

theorem segValidatorNext_enodata (failed : (segValidatorNext v).1 = .error err) :
    err = .enodata := by
  rw [segValidatorNext_eq_scan] at failed
  split at failed
  · cases failed
  · split at failed <;> cases failed
    rfl

theorem segValidatorNext_error (failed : (segValidatorNext v).1 = .error err) :
    ∀ seg < v.nrSegment, v.segValidityTable seg = true := by
  intro seg bound
  cases entry : v.segValidityTable seg with
  | true => rfl
  | false =>
    obtain ⟨found, ok⟩ := segValidatorNext_isOk_of_clear bound entry
    rw [ok] at failed
    contradiction

end SwornDisk.C
