import SwornDisk.C.SegValidator

/-!
# BIT catalogue

`struct bit_catalogue` of `metadata.c`: which file identifiers are in use, the
stored statistics of each file, and the version counter from which every new
block index table takes its age.  The counter is not persistent: at load it is
recomputed from the versions of the live files.
-/

namespace SwornDisk.C

open List

/-- Number of values of a `size_t`. -/
def sizeMax : Nat := 2 ^ 64

/-- `struct file_stat`.  `store` stands for where and under which key the file's
tree lies (`root`, `root_key`, `root_iv`, `filter_begin`). -/
structure FileStat (S : Type) where
  id : Nat
  level : Nat
  version : Nat
  firstKey : Nat
  lastKey : Nat
  store : S
  deriving DecidableEq

/-- `struct bit_catalogue`. -/
structure BitCatalogue (S : Type) where
  bitValidityTable : SegValidator
  fileStats : Nat → FileStat S
  maxVersion : Nat

variable {S : Type}

section

variable (c : BitCatalogue S)

def bitcAllocFile : Except Errno Nat × BitCatalogue S :=
  let (found, table) := segValidatorNext c.bitValidityTable
  match found with
  | .error err => (.error err, { c with bitValidityTable := table })
  | .ok fd =>
    match segValidatorTake table fd with
    | .error err => (.error err, { c with bitValidityTable := table })
    | .ok taken => (.ok fd, { c with bitValidityTable := taken })

def bitcReleaseFile (fd : Nat) : Except Errno (BitCatalogue S) :=
  match segValidatorTestAndReturn c.bitValidityTable fd with
  | .error err => .error err
  | .ok (_, table) => .ok { c with bitValidityTable := table }

def bitcSetFileStats (fd : Nat) (stats : FileStat S) : BitCatalogue S :=
  { c with fileStats := Function.update c.fileStats fd stats }

/-- `bitc_get_all_file_stats`: the statistics of the live files in id order. -/
def bitcGetAllFileStats : List (FileStat S) :=
  ((List.range c.bitValidityTable.nrSegment).filter
    c.bitValidityTable.segValidityTable).map c.fileStats

/-- `bitc_get_next_version`: the counter is read, then incremented. -/
def bitcGetNextVersion : Nat × BitCatalogue S :=
  (c.maxVersion, { c with maxVersion := c.maxVersion + 1 })

/-- One iteration of the loop of `bitc_get_current_version`.  The comparison is
with the running value, which after an update is one above a live version. -/
def currentVersionStep (maxVersion version : Nat) : Nat :=
  if maxVersion < version then (version + 1) % sizeMax else maxVersion

def bitcGetCurrentVersion : Nat :=
  (bitcGetAllFileStats c).foldl (fun maxVersion info =>
    currentVersionStep maxVersion info.version) 0

/-- `bit_catalogue_init` on an existing catalogue. -/
def bitCatalogueInit : BitCatalogue S :=
  { c with
    bitValidityTable := segValidatorInit c.bitValidityTable
    maxVersion := bitcGetCurrentVersion c }

end

/-- The versions handed out by `n` consecutive calls of `bitc_get_next_version`. -/
def issuedVersions (c : BitCatalogue S) : Nat → List Nat
  | 0 => []
  | n + 1 => (bitcGetNextVersion c).1 :: issuedVersions (bitcGetNextVersion c).2 n

/-- What a list of stored versions, read in id order, leaves behind: the largest
version so far and the length of the run of consecutive values by which the
successive maxima reached it.  The run is empty while no positive version was seen. -/
structure HighRun where
  high : Nat
  run : Nat

def HighRun.read (h : HighRun) (version : Nat) : HighRun :=
  if h.high < version then
    ⟨version, if version = h.high + 1 ∧ h.run ≠ 0 then h.run + 1 else 1⟩
  else
    h

def highRun (versions : List Nat) : HighRun :=
  versions.foldl HighRun.read ⟨0, 0⟩

/-- The value of the C loop as a function of the maximum and its run. -/
def HighRun.current (h : HighRun) : Nat :=
  if h.run % 2 = 1 then h.high + 1 else h.high

/-- The loop and the run move in step as long as `version + 1` does not wrap. -/
theorem HighRun.current_read (h : HighRun) (started : h.run = 0 → h.high = 0)
    {version : Nat} (small : version + 1 < sizeMax) :
    (h.read version).current = currentVersionStep h.current version ∧
      ((h.read version).run = 0 → (h.read version).high = 0) := by
  unfold currentVersionStep
  rw [Nat.mod_eq_of_lt small]
  unfold HighRun.read HighRun.current
  by_cases higher : h.high < version
  · -- A new maximum: the loop misses it exactly when it stands on it already.
    simp only [higher, if_true]
    constructor
    · split <;> grind
    · split <;> simp
  · simp only [higher, if_false]
    refine ⟨?_, started⟩
    split
    · rw [if_neg (by omega)]
    · rfl

theorem highRun_foldl_current (h : HighRun) (started : h.run = 0 → h.high = 0)
    {versions : List Nat} (small : ∀ version ∈ versions, version + 1 < sizeMax) :
    (versions.foldl HighRun.read h).current = versions.foldl currentVersionStep h.current := by
  induction versions generalizing h with
  | nil => rfl
  | cons version versions ih =>
    obtain ⟨stepEqual, startedNext⟩ :=
      h.current_read started (small version mem_cons_self)
    rw [foldl_cons, foldl_cons, ← stepEqual]
    exact ih _ startedNext fun later member => small later (mem_cons_of_mem _ member)

/-- `high` bounds every version that was read and is one of them, or the start. -/
theorem highRun_foldl_high (h : HighRun) (versions : List Nat) :
    (∀ version ∈ versions, version ≤ (versions.foldl HighRun.read h).high) ∧
      h.high ≤ (versions.foldl HighRun.read h).high ∧
      ((versions.foldl HighRun.read h).high ∈ versions ∨
        (versions.foldl HighRun.read h) = h) := by
  induction versions generalizing h with
  | nil => simp
  | cons version versions ih =>
    obtain ⟨bounds, grows, attained⟩ := ih (h.read version)
    have readBound : version ≤ (h.read version).high ∧ h.high ≤ (h.read version).high := by
      unfold HighRun.read
      split <;> simp <;> omega
    rw [foldl_cons]
    refine ⟨?_, readBound.2.trans grows, ?_⟩
    · intro later member
      rcases mem_cons.mp member with rfl | member
      · exact readBound.1.trans grows
      · exact bounds later member
    · rcases attained with member | same
      · exact .inl (mem_cons_of_mem _ member)
      · rw [same]
        unfold HighRun.read
        split
        · exact .inl mem_cons_self
        · exact .inr rfl

/-- Stored versions, in id order, from which the loop computes a fresh one: the
run that ends in the largest version is odd, and adding one to no version wraps. -/
def FreshlyFolded (versions : List Nat) : Prop :=
  (∀ version ∈ versions, version + 1 < sizeMax) ∧
    (versions = [] ∨ (highRun versions).run % 2 = 1)

instance (versions : List Nat) : Decidable (FreshlyFolded versions) :=
  inferInstanceAs (Decidable (_ ∧ _))

def liveVersions (c : BitCatalogue S) : List Nat :=
  (bitcGetAllFileStats c).map FileStat.version

theorem bitcGetCurrentVersion_eq_foldl (c : BitCatalogue S) :
    bitcGetCurrentVersion c = (liveVersions c).foldl currentVersionStep 0 := by
  rw [liveVersions, foldl_map]
  rfl

theorem foldl_currentVersionStep_lt (versions : List Nat) {start : Nat}
    (bound : start < sizeMax) : versions.foldl currentVersionStep start < sizeMax := by
  induction versions generalizing start with
  | nil => exact bound
  | cons version versions ih =>
    refine ih ?_
    unfold currentVersionStep
    split
    · exact Nat.mod_lt _ (by decide)
    · exact bound

/-- The folded value exceeds every version that was read exactly when the list
is freshly folded. -/
theorem forall_lt_foldl_currentVersionStep_iff (versions : List Nat) :
    (∀ version ∈ versions, version < versions.foldl currentVersionStep 0) ↔
      FreshlyFolded versions := by
  have inRange : versions.foldl currentVersionStep 0 < sizeMax :=
    foldl_currentVersionStep_lt versions (by decide)
  obtain ⟨bounds, -, attained⟩ := highRun_foldl_high ⟨0, 0⟩ versions
  change (∀ version ∈ versions, version ≤ (highRun versions).high) at bounds
  change (highRun versions).high ∈ versions ∨ highRun versions = ⟨0, 0⟩ at attained
  constructor
  · intro exceeds
    have small : ∀ version ∈ versions, version + 1 < sizeMax := fun version member => by
      have := exceeds version member
      omega
    have folded : (highRun versions).current = versions.foldl currentVersionStep 0 :=
      highRun_foldl_current ⟨0, 0⟩ (fun _ => rfl) small
    refine ⟨small, ?_⟩
    rcases attained with member | untouched
    · have above := exceeds _ member
      rw [← folded, HighRun.current] at above
      by_cases odd : (highRun versions).run % 2 = 1
      · exact .inr odd
      · rw [if_neg odd] at above
        exact absurd above (lt_irrefl _)
    · -- No positive version was read, so a live file would have version zero.
      left
      rw [← folded, untouched] at exceeds
      cases versions with
      | nil => rfl
      | cons version _ => exact absurd (exceeds version mem_cons_self) (Nat.not_lt_zero _)
  · rintro ⟨small, rfl | odd⟩ version member
    · simp at member
    · have folded : (highRun versions).current = versions.foldl currentVersionStep 0 :=
        highRun_foldl_current ⟨0, 0⟩ (fun _ => rfl) small
      rw [← folded, HighRun.current, if_pos odd]
      exact Nat.lt_succ_of_le (bounds version member)

theorem le_of_mem_issuedVersions {c : BitCatalogue S} {n version : Nat}
    (member : version ∈ issuedVersions c n) : c.maxVersion ≤ version := by
  induction n generalizing c with
  | zero => simp [issuedVersions] at member
  | succ n ih =>
    rcases mem_cons.mp member with rfl | later
    · exact le_rfl
    · have := ih later
      simp only [bitcGetNextVersion] at this
      omega

/-- What a load has to establish for newest-wins to survive a remount: the
recomputed counter is above every live version, and so is every version issued
from it until the 64-bit counter wraps. -/
def VersionsFresh (c : BitCatalogue S) : Prop :=
  (∀ stat ∈ bitcGetAllFileStats c, stat.version < bitcGetCurrentVersion c) ∧
    ∀ n, bitcGetCurrentVersion c + n ≤ sizeMax →
      ∀ version ∈ issuedVersions (bitCatalogueInit c) n,
        ∀ stat ∈ bitcGetAllFileStats c, stat.version < version

/-- The counter recomputed at load is fresh exactly when the run of consecutive
maxima that ends in the largest live version has odd length (and no version is
the largest `size_t`). -/
theorem versionsFresh_iff_freshlyFolded (c : BitCatalogue S) :
    VersionsFresh c ↔ FreshlyFolded (liveVersions c) := by
  rw [← forall_lt_foldl_currentVersionStep_iff, ← bitcGetCurrentVersion_eq_foldl]
  constructor
  · rintro ⟨above, -⟩ version member
    obtain ⟨stat, statMember, rfl⟩ := mem_map.mp member
    exact above stat statMember
  · intro above
    have statAbove : ∀ stat ∈ bitcGetAllFileStats c, stat.version < bitcGetCurrentVersion c :=
      fun stat member => above _ (mem_map_of_mem member)
    refine ⟨statAbove, fun n _ version issued stat member => ?_⟩
    exact (statAbove stat member).trans_le (le_of_mem_issuedVersions issued)

/-- A session's first minor compaction leaves one file, with id and version zero.
The next load computes zero again, the version that file already has. -/
theorem bitcGetCurrentVersion_one_file :
    ¬ VersionsFresh (S := Unit)
      { bitValidityTable := ⟨12, 1, fun fd => fd == 0⟩
        fileStats := fun fd => ⟨fd, 0, 0, 0, 0, ()⟩
        maxVersion := 1 } := by
  rintro ⟨above, -⟩
  exact absurd (above ⟨0, 0, 0, 0, 0, ()⟩ (by decide)) (by decide)

end SwornDisk.C
