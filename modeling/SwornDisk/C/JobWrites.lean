import SwornDisk.C.LsmDisk

/-!
# Files written by a merge

The merge path of `compaction_job_run` hands the merged entries to a builder one by one and starts
a new file whenever one is full.  The calls whose return value the code ignores, `alloc_file` and
`add_file`, are listed in the order in which it makes them, each with the catalogue or the level
that it finds.  A job whose calls succeed leaves files that hold the merged entries between them,
and the calls succeed where there are identifiers and slots for as many files as the entries fill.
-/

namespace SwornDisk.C

open Lib List Option

variable {cap : Nat} {taken : List Nat}

variable {R H S V : Type}

/-! ## The calls -/

/-- A call whose return value the code ignores, with what it is made on. -/
inductive JobCall (S : Type) where
  | allocFile (catalogue : BitCatalogue S)
  | addFile (level : BitLevel S) (file : FileStat S)

def JobCall.Succeeds : JobCall S → Prop
  | .allocFile c => ∃ fd, (bitcAllocFile c).1 = .ok fd ∧ fd < c.bitValidityTable.nrSegment ∧
      c.bitValidityTable.segValidityTable fd = false
  | .addFile level file => ∃ added, bitLevelAddFile level file = .ok added

def moveCalls : CompactionJob S → List (FileStat S) → List (JobCall S)
  | _, [] => []
  | job, file :: rest =>
    .addFile job.level2
        { file with version := (bitcGetNextVersion job.catalogue).1, level := job.level2.level } ::
      moveCalls (moveFile job file) rest

/-- The calls for one merged entry: none, unless it fills the file. -/
def emitCalls (files : BitFileOps S V) (out : CompactionJob S × BitBuilder V) (entry : Nat × V) :
    List (JobCall S) :=
  if defaultLsmFileCapacity ≤ (bitBuilderAddEntry out.2 entry).entries.length then
    [.addFile out.1.level2 (bitBuilderComplete files (bitBuilderAddEntry out.2 entry)),
      .allocFile (finishFile files out.1 (bitBuilderAddEntry out.2 entry)).catalogue]
  else
    []

def emitAllCalls (files : BitFileOps S V) :
    CompactionJob S × BitBuilder V → List (Nat × V) → List (JobCall S)
  | _, [] => []
  | out, entry :: rest => emitCalls files out entry ++
      match emitEntry files out entry with
      | some next => emitAllCalls files next rest
      | none => []

def mergeCalls (env : LsmEnv R H S V) (job : CompactionJob S)
    (demoted relatives : List (FileStat S)) : List (JobCall S) :=
  if iteratorsCreated env.files (demoted ++ relatives) then
    let heap := env.heap.pushAll (mergeNodes env.files (demoted ++ relatives))
    match env.heap.pop heap with
    | none => []
    | some (distinct, _) => .allocFile job.catalogue ::
        match openBuilder job.catalogue job.level2.level with
        | none => []
        | some (allocated, builder) =>
          emitAllCalls env.files ({ job with catalogue := allocated }, builder)
              (mergeOutput env.heap FileStat.version heap distinct).dropLast ++
            match kwayMerge env.heap FileStat.version (emitEntry env.files) heap distinct
                ({ job with catalogue := allocated }, builder) with
            | none => []
            | some (last, out) =>
              [.addFile out.1.level2
                (bitBuilderComplete env.files (bitBuilderAddEntry out.2 last))]
  else
    []

/-- The calls of `compaction_job_run`. -/
def compactionJobCalls (env : LsmEnv R H S V) (job : CompactionJob S) : List (JobCall S) :=
  let demoted := bitLevelPickDemotedFiles job.level1
  let relatives := bitLevelFindRelativeFiles job.level2 demoted
  if relatives.isEmpty && !lsmFileOverlapping demoted then
    moveCalls job demoted
  else
    mergeCalls env job demoted relatives

/-! ## Removing and reading the merged files -/

variable {l : BitLevel S}

section

variable {c : BitCatalogue S} {keep drop : List Nat}

theorem CatalogueHolds.release_all (holds : CatalogueHolds c (keep ++ drop)) :
    CatalogueHolds (drop.foldl releaseFile c) keep ∧
      (drop.foldl releaseFile c).maxVersion = c.maxVersion ∧
      (drop.foldl releaseFile c).bitValidityTable.nrSegment = c.bitValidityTable.nrSegment := by
  induction drop generalizing c with
  | nil =>
    rw [append_nil] at holds
    exact ⟨holds, rfl, rfl⟩
  | cons id drop ih =>
    obtain ⟨released, sameVersion, sameNr⟩ := holds.release id
    have fresh : id ∉ keep ++ drop :=
      (nodup_cons.mp (perm_middle.nodup_iff.mp holds.nodup)).1
    have kept : (keep ++ id :: drop).filter (· != id) = keep ++ drop := by
      have others : (keep ++ drop).filter (· != id) = keep ++ drop :=
        filter_eq_self.mpr fun other member =>
          bne_iff_ne.mpr fun same => fresh (same ▸ member)
      rw [filter_append, filter_cons_of_neg (by simp), ← filter_append, others]
    rw [kept] at released
    obtain ⟨rest, restVersion, restNr⟩ := ih released
    exact ⟨rest, restVersion.trans sameVersion, restNr.trans sameNr⟩

theorem withoutFile_all {kept dropped : List (FileStat S)}
    (perm : l.bitFiles.Perm (kept ++ dropped))
    (distinct : ((kept ++ dropped).map FileStat.id).Nodup) :
    ∃ left, (dropped.map FileStat.id).foldl withoutFile l = { l with bitFiles := left } ∧
      left.Perm kept ∧ left.Sublist l.bitFiles := by
  refine ⟨_, foldl_withoutFile ((perm.map _).nodup_iff.mpr distinct) _, ?_, filter_sublist⟩
  have filtered := perm.filter fun file => decide (file.id ∉ dropped.map FileStat.id)
  refine filtered.trans ?_
  have disjoint : ∀ f ∈ kept, f.id ∉ dropped.map FileStat.id := by
    intro f member inDropped
    rw [map_append] at distinct
    exact (nodup_append.mp distinct).2.2 f.id (mem_map_of_mem member) f.id inDropped rfl
  rw [filter_append, filter_eq_self.mpr fun f member => decide_eq_true (disjoint f member),
    filter_eq_nil_iff.mpr fun f member => by
      simpa using mem_map_of_mem (f := FileStat.id) member, append_nil]

theorem foldl_retireDemoted (job : CompactionJob S) (demoted : List (FileStat S)) :
    demoted.foldl retireDemoted job =
      { job with
        catalogue := (demoted.map FileStat.id).foldl releaseFile job.catalogue
        level1 := (demoted.map FileStat.id).foldl withoutFile job.level1 } := by
  induction demoted generalizing job with
  | nil => rfl
  | cons file rest ih =>
    rw [foldl_cons, ih]
    rfl

theorem foldl_retireRelative (job : CompactionJob S) (relatives : List (FileStat S)) :
    relatives.foldl retireRelative job =
      { job with
        catalogue := (relatives.map FileStat.id).foldl releaseFile job.catalogue
        level2 := (relatives.map FileStat.id).foldl withoutFile job.level2 } := by
  induction relatives generalizing job with
  | nil => rfl
  | cons file rest ih =>
    rw [foldl_cons, ih]
    rfl

end

variable {files : BitFileOps S V} {output : List (Nat × V)} {file : FileStat S}

section

variable {env : LsmEnv R H S V} {inputs : List (FileStat S)}

theorem mem_mergeNodes {node : MergeNode (FileStat S) V} :
    node ∈ mergeNodes files inputs ↔
      node.source ∈ inputs ∧ node.entries = fileEntries files node.source := by
  unfold mergeNodes
  rw [mem_filterMap]
  constructor
  · rintro ⟨file, member, made⟩
    cases entries : fileEntries files file with
    | nil => simp [entries, MergeNode.ofEntries] at made
    | cons head rest =>
      simp only [entries, MergeNode.ofEntries, some.injEq] at made
      subst made
      exact ⟨mem_reverse.mp member, entries.symm⟩
  · rintro ⟨member, same⟩
    refine ⟨node.source, mem_reverse.mpr member, ?_⟩
    rw [← same]
    rfl

def heldBy (files : BitFileOps S V) (inputs : List (FileStat S)) : Set (Nat × Nat × V) :=
  {binding | ∃ file ∈ inputs, binding.1 = file.version ∧ binding.2 ∈ fileEntries files file}

theorem exists_pop_mergeNodes (held : ∀ file ∈ inputs, fileEntries env.files file ≠ [])
    (nonempty : inputs ≠ []) : ∃ distinct rest,
      env.heap.pop (env.heap.pushAll (mergeNodes env.files inputs)) = some (distinct, rest) := by
  obtain ⟨file, member⟩ := exists_mem_of_ne_nil inputs nonempty
  obtain ⟨head, rest, entries⟩ := exists_cons_of_ne_nil (held file member)
  have node : (⟨file, head, rest⟩ : MergeNode (FileStat S) V) ∈ mergeNodes env.files inputs :=
    mem_mergeNodes.mpr ⟨member, entries.symm⟩
  cases popped : env.heap.pop (env.heap.pushAll (mergeNodes env.files inputs)) with
  | none =>
    have empty := env.heap.pop_none popped
    rw [env.heap.elems_pushAll, Multiset.coe_eq_zero] at empty
    rw [empty] at node
    cases node
  | some top => exact ⟨top.1, top.2, rfl⟩

section

variable {distinct : MergeNode (FileStat S) V} {rest : H}

theorem mem_mergeNodes_of_popped
    (popped : env.heap.pop (env.heap.pushAll (mergeNodes env.files inputs)) =
      some (distinct, rest)) : distinct ∈ mergeNodes env.files inputs := by
  have content := (env.heap.pop_some popped).1
  rw [env.heap.elems_pushAll] at content
  have top : distinct ∈ (mergeNodes env.files inputs : Multiset (MergeNode (FileStat S) V)) := by
    rw [content]
    exact Multiset.mem_cons_self _ _
  exact Multiset.mem_coe.mp top

theorem mergeReady_of_popped
    (ascending : ∀ file ∈ inputs, Ascending (fileEntries env.files file))
    (popped : env.heap.pop (env.heap.pushAll (mergeNodes env.files inputs)) =
      some (distinct, rest)) :
    MergeReady env.heap (env.heap.pushAll (mergeNodes env.files inputs)) distinct := by
  obtain ⟨content, minimal⟩ := env.heap.pop_some popped
  constructor
  · intro node member
    rw [env.heap.elems_pushAll, Multiset.mem_coe] at member
    obtain ⟨source, entries⟩ := mem_mergeNodes.mp member
    rw [entries]
    exact ascending node.source source
  · intro node member
    rw [content] at member
    rcases Multiset.mem_cons.mp member with rfl | queued
    · exact le_rfl
    · exact minimal node queued

theorem pending_eq_heldBy
    (popped : env.heap.pop (env.heap.pushAll (mergeNodes env.files inputs)) =
      some (distinct, rest)) :
    pending env.heap FileStat.version (env.heap.pushAll (mergeNodes env.files inputs)) distinct =
      heldBy env.files inputs := by
  have isNode := mem_mergeNodes_of_popped popped
  have fromFile : ∀ node ∈ mergeNodes env.files inputs, ∀ entry ∈ node.entries,
      (node.source.version, entry) ∈ heldBy env.files inputs := by
    intro node member entry inNode
    obtain ⟨source, entries⟩ := mem_mergeNodes.mp member
    rw [entries] at inNode
    exact ⟨node.source, source, rfl, inNode⟩
  ext binding
  unfold pending
  simp only [env.heap.elems_pushAll, Multiset.mem_coe, Set.mem_insert_iff, Set.mem_ofPred_eq]
  constructor
  · rintro (rfl | ⟨node, member, entry, inNode, rfl⟩)
    · exact fromFile distinct isNode _ mem_cons_self
    · exact fromFile node member entry inNode
  · rintro ⟨file, member, versionEq, inFile⟩
    obtain ⟨head, tail, entries⟩ := exists_cons_of_ne_nil (ne_nil_of_mem inFile)
    refine .inr ⟨⟨file, head, tail⟩, mem_mergeNodes.mpr ⟨member, entries.symm⟩, binding.2, ?_, ?_⟩
    · rw [entries] at inFile
      exact inFile
    · rw [← versionEq]

theorem heldBy_eq_answers (exact : files.Exact)
    (held : ∀ file ∈ inputs, FileHolds files file (fileEntries files file)) :
    heldBy files inputs = answers (bitFileSearch files) inputs := by
  ext binding
  constructor
  · rintro ⟨file, member, versionEq, inFile⟩
    exact ⟨file, member, versionEq, ((held file member).search_ok exact).mpr inFile⟩
  · rintro ⟨file, member, versionEq, ok⟩
    exact ⟨file, member, versionEq, ((held file member).search_ok exact).mp ok⟩

end

theorem exists_input_of_isNewest (ascending : Ascending output)
    (newest : ∀ key, IsNewest (heldBy files inputs) key (output.lookup key)) :
    ∀ entry ∈ output, ∃ file ∈ inputs, entry ∈ fileEntries files file := by
  intro entry member
  have here := newest entry.1
  rw [(lookup_eq_some_iff_mem ascending).mpr member] at here
  obtain ⟨version, ⟨file, isInput, -, inFile⟩, -⟩ := here
  exact ⟨file, isInput, inFile⟩

end

/-! ## When calls succeed -/

section

variable {c : BitCatalogue S} {ids : List Nat}

/-- With fewer identifiers in use than there are, `alloc_file` finds a free one. -/
theorem CatalogueHolds.allocFile_succeeds (holds : CatalogueHolds c ids)
    (room : ids.length < c.bitValidityTable.nrSegment) : (JobCall.allocFile c).Succeeds := by
  obtain ⟨fd, allocated, ok, taken, -, sameNr⟩ := holds.alloc room
  have inside : fd < c.bitValidityTable.nrSegment := by
    rw [← sameNr]
    exact taken.bound fd mem_cons_self
  refine ⟨fd, by rw [ok], inside, Bool.eq_false_iff.mpr fun inUse => ?_⟩
  exact (nodup_cons.mp taken.nodup).1 ((holds.inUse fd inside).mp inUse)

theorem CatalogueHolds.room_of_free (holds : CatalogueHolds c ids) {fd : Nat}
    (inside : fd < c.bitValidityTable.nrSegment)
    (free : c.bitValidityTable.segValidityTable fd = false) :
    ids.length < c.bitValidityTable.nrSegment := by
  have within : ids.toFinset ⊂ Finset.range c.bitValidityTable.nrSegment := by
    refine (Finset.ssubset_iff_of_subset fun id member => ?_).mpr
      ⟨fd, Finset.mem_range.mpr inside, fun member => ?_⟩
    · exact Finset.mem_range.mpr (holds.bound id (mem_toFinset.mp member))
    · rw [(holds.inUse fd inside).mpr (mem_toFinset.mp member)] at free
      cases free
  have counted := Finset.card_lt_card within
  rw [toFinset_card_of_nodup holds.nodup, Finset.card_range] at counted
  exact counted

theorem addFile_succeeds (room : l.bitFiles.length < l.maxSize) (file : FileStat S) :
    (JobCall.addFile l file).Succeeds := by
  obtain ⟨files, ok, -⟩ := bitLevelAddFile_ok file room
  exact ⟨_, ok⟩

theorem length_lt_of_addFile (succeeds : (JobCall.addFile l file).Succeeds) :
    l.bitFiles.length < l.maxSize := by
  obtain ⟨added, ok⟩ := succeeds
  by_contra full
  rw [bitLevelAddFile, if_pos (not_lt.mp full)] at ok
  cases ok

end

/-! ## Writing the new files -/

/-- The files hold `entries` between them, in this order. -/
def ShareOut (files : BitFileOps S V) (outputs : List (FileStat S)) (entries : List (Nat × V)) :
    Prop :=
  ∃ content : FileStat S → List (Nat × V),
    (∀ file ∈ outputs, FileHolds files file (content file)) ∧ outputs.flatMap content = entries

theorem shareOut_nil (files : BitFileOps S V) : ShareOut files [] [] :=
  ⟨fun _ => [], fun _ member => absurd member not_mem_nil, rfl⟩

theorem ShareOut.concat {outputs : List (FileStat S)} {entries held : List (Nat × V)}
    (shared : ShareOut files outputs entries) (fresh : file ∉ outputs)
    (holds : FileHolds files file held) :
    ShareOut files (outputs ++ [file]) (entries ++ held) := by
  classical
  obtain ⟨content, all, rfl⟩ := shared
  have same : ∀ other ∈ outputs, Function.update content file held other = content other :=
    fun other member => Function.update_of_ne (ne_of_mem_of_not_mem member fresh) _ _
  refine ⟨Function.update content file held, forall_mem_append.mpr ⟨fun other member => ?_,
    forall_mem_singleton.mpr ?_⟩, ?_⟩
  · rw [same other member]
    exact all other member
  · rw [Function.update_self]
    exact holds
  · rw [flatMap_append, flatMap_singleton, Function.update_self, flatMap_congr same]

section

variable (files : BitFileOps S V) (start : CompactionJob S) (taken : List Nat)

/-- The job after `outputs` were written, which hold `entries` between them.  `taken` are the
identifiers in use besides those of the outputs. -/
structure Rewritten (entries : List (Nat × V)) (outputs : List (FileStat S))
    (job : CompactionJob S) : Prop where
  level1 : job.level1 = start.level1
  level2 : job.level2 = { start.level2 with bitFiles := job.level2.bitFiles }
  perm : job.level2.bitFiles.Perm (outputs ++ start.level2.bitFiles)
  ordered : start.level2.bitFiles.Pairwise FileLe → job.level2.bitFiles.Pairwise FileLe
  catalogue : CatalogueHolds job.catalogue (outputs.map FileStat.id ++ taken)
  nrSegment : job.catalogue.bitValidityTable.nrSegment =
    start.catalogue.bitValidityTable.nrSegment
  shared : ShareOut files outputs entries
  newer : ∀ file ∈ outputs, start.catalogue.maxVersion ≤ file.version ∧
    file.version < job.catalogue.maxVersion
  distinct : outputs.Pairwise fun f g => f.version ≠ g.version
  count : outputs.length * defaultLsmFileCapacity < entries.length + defaultLsmFileCapacity

/-- The job between two entries: full files are written and one builder is open. -/
structure Rewriting (entries : List (Nat × V)) (outputs : List (FileStat S))
    (out : CompactionJob S × BitBuilder V) : Prop where
  written : ∃ before, Rewritten files start (out.2.id :: taken) before outputs out.1 ∧
    before ++ out.2.entries = entries
  full : outputs.length * defaultLsmFileCapacity + out.2.entries.length = entries.length
  notFull : out.2.entries.length < defaultLsmFileCapacity
  version : start.catalogue.maxVersion ≤ out.2.version ∧
    out.2.version < out.1.catalogue.maxVersion
  newest : ∀ file ∈ outputs, file.version < out.2.version

end

/-- There are identifiers and array slots for as many files as `total` entries fill, beside
`ids` and `files` that are in use. -/
def CallRoom (start : CompactionJob S) (ids files total : Nat) : Prop :=
  ∀ n, n * defaultLsmFileCapacity < total →
    ids + n < start.catalogue.bitValidityTable.nrSegment ∧ files + n < start.level2.maxSize

variable {entry : Nat × V} {more : List (Nat × V)}

section

variable {files : BitFileOps S V} {start job : CompactionJob S} {entries : List (Nat × V)}
  {outputs : List (FileStat S)} {file : FileStat S} {total : Nat}
  {out : CompactionJob S × BitBuilder V}

theorem length_addEntry (b : BitBuilder V) (entry : Nat × V) :
    (bitBuilderAddEntry b entry).entries.length = b.entries.length + 1 := by
  rw [bitBuilderAddEntry, length_append, length_singleton]

theorem Rewriting.finish (writing : Rewriting files start taken entries outputs out)
    (ascending : Ascending (entries ++ [entry])) (succeeds : (JobCall.addFile out.1.level2
      (bitBuilderComplete files (bitBuilderAddEntry out.2 entry))).Succeeds) :
    Rewritten files start taken (entries ++ [entry])
      (outputs ++ [bitBuilderComplete files (bitBuilderAddEntry out.2 entry)])
      (finishFile files out.1 (bitBuilderAddEntry out.2 entry)) := by
  have counted := writing.full
  have notFull := writing.notFull
  obtain ⟨before, written, rfl⟩ := writing.written
  have asBuilt : before ++ out.2.entries ++ [entry] =
      before ++ (bitBuilderAddEntry out.2 entry).entries := append_assoc _ _ _
  rw [asBuilt] at ascending ⊢
  have nonempty : (bitBuilderAddEntry out.2 entry).entries ≠ [] := by simp [bitBuilderAddEntry]
  have newAscending := (pairwise_append.mp ascending).2.1
  have length := length_addEntry out.2 entry
  obtain ⟨added, addedEq, perm, ordered⟩ := withFile_of_room
    (bitBuilderComplete files (bitBuilderAddEntry out.2 entry)) (length_lt_of_addFile succeeds)
  constructor
  case level1 => exact written.level1
  case level2 =>
    simp only [finishFile, addedEq]
    rw [written.level2]
  case perm =>
    simp only [finishFile, addedEq]
    refine perm.trans ((written.perm.cons _).trans ?_)
    rw [append_assoc]
    exact perm_middle.symm
  case ordered =>
    simp only [finishFile, addedEq]
    exact fun sorted => ordered (written.ordered sorted)
  case catalogue =>
    have holds := written.catalogue.setFileStats out.2.id
      (bitBuilderComplete files (bitBuilderAddEntry out.2 entry))
    rw [map_append, append_assoc]
    exact holds
  case nrSegment => exact written.nrSegment
  case shared =>
    refine written.shared.concat (fun member => ?_)
      (fileHolds_complete newAscending nonempty (length ▸ notFull))
    exact absurd (writing.newest _ member) (lt_irrefl _)
  case newer =>
    exact forall_mem_append.mpr ⟨written.newer, forall_mem_singleton.mpr writing.version⟩
  case distinct =>
    refine pairwise_append.mpr ⟨written.distinct, pairwise_singleton _ _, ?_⟩
    intro f old g new
    rw [mem_singleton.mp new]
    exact (writing.newest f old).ne
  case count =>
    rw [length_append] at counted
    rw [length_append, length_append, length, length_singleton, Nat.add_mul]
    omega

theorem Rewritten.opens (written : Rewritten files start taken entries outputs job)
    (full : outputs.length * defaultLsmFileCapacity = entries.length)
    (monotone : start.catalogue.maxVersion ≤ job.catalogue.maxVersion)
    (succeeds : (JobCall.allocFile job.catalogue).Succeeds) (level : Nat) :
    ∃ opened builder, openBuilder job.catalogue level = some (opened, builder) ∧
      Rewriting files start taken entries outputs ({ job with catalogue := opened }, builder) := by
  obtain ⟨free, -, inside, clear⟩ := succeeds
  obtain ⟨opened, fd, ok, holds, nextVersion, sameNr⟩ := openBuilder_of_room written.catalogue
    (V := V) (written.catalogue.room_of_free inside clear) level
  have grows : job.catalogue.maxVersion < opened.maxVersion := nextVersion ▸ Nat.lt_succ_self _
  refine ⟨opened, _, ok, ⟨entries, { written with
    catalogue := holds.perm perm_middle.symm
    nrSegment := sameNr.trans written.nrSegment
    newer := fun file member => ?_ }, append_nil _⟩, ?_, Nat.succ_pos _, ⟨monotone, grows⟩,
    fun file member => (written.newer file member).2⟩
  · have newer := written.newer file member
    exact ⟨newer.1, newer.2.trans grows⟩
  · rw [length_nil, Nat.add_zero]
    exact full

variable (writing : Rewriting files start taken entries outputs out)
include writing

theorem Rewriting.emit (ascending : Ascending (entries ++ [entry]))
    (succeed : ∀ call ∈ emitCalls files out entry, call.Succeeds) :
    ∃ next outputs', emitEntry files out entry = some next ∧
      Rewriting files start taken (entries ++ [entry]) outputs' next := by
  have counted := writing.full
  have notFull := writing.notFull
  have grown := length_addEntry out.2 entry
  have longer : (entries ++ [entry]).length = entries.length + 1 := length_append
  unfold emitCalls at succeed
  unfold emitEntry
  split
  · rename_i isFull
    rw [if_pos isFull] at succeed
    have finished := writing.finish ascending (succeed _ mem_cons_self)
    obtain ⟨opened, builder, ok, again⟩ := finished.opens (by
        simp only [length_append, length_singleton, Nat.add_mul]
        omega) (writing.version.1.trans writing.version.2.le)
      (succeed _ (mem_cons_of_mem _ mem_cons_self)) out.1.level2.level
    rw [ok]
    exact ⟨_, _, rfl, again⟩
  · rename_i notYet
    obtain ⟨before, written, rfl⟩ := writing.written
    refine ⟨_, outputs, rfl, ⟨before, written, (append_assoc _ _ _).symm⟩, ?_,
      not_le.mp notYet, writing.version, writing.newest⟩
    rw [longer, ← counted, grown, Nat.add_assoc]

theorem Rewriting.emitAll (ascending : Ascending (entries ++ more))
    (succeed : ∀ call ∈ emitAllCalls files out more, call.Succeeds) :
    ∃ next outputs', more.foldlM (emitEntry files) out = some next ∧
      Rewriting files start taken (entries ++ more) outputs' next := by
  induction more generalizing entries outputs out with
  | nil => exact ⟨out, outputs, rfl, by rw [append_nil]; exact writing⟩
  | cons entry more ih =>
    rw [append_cons] at ascending ⊢
    rw [emitAllCalls] at succeed
    obtain ⟨next, outputs', ok, writingNext⟩ := writing.emit (pairwise_append.mp ascending).1
      fun call member => succeed call (mem_append_left _ member)
    rw [ok] at succeed
    obtain ⟨last, outputs'', allOk, writingLast⟩ := ih writingNext ascending
      fun call member => succeed call (mem_append_right _ member)
    refine ⟨last, outputs'', ?_, writingLast⟩
    rw [foldlM_cons, ok]
    exact allOk

theorem Rewriting.addFile_succeeds
    (room : CallRoom start taken.length start.level2.bitFiles.length total)
    (short : entries.length < total) (file : FileStat S) :
    (JobCall.addFile out.1.level2 file).Succeeds := by
  have counted := writing.full
  obtain ⟨before, written, -⟩ := writing.written
  have slots := (room outputs.length (by omega)).2
  have sameMax : out.1.level2.maxSize = start.level2.maxSize := by rw [written.level2]
  apply C.addFile_succeeds
  rw [written.perm.length_eq, length_append, sameMax]
  omega

/-- The calls for one entry find identifiers and slots, as long as a further entry follows for
which there is room. -/
theorem Rewriting.emitCalls_succeed (ascending : Ascending (entries ++ [entry]))
    (room : CallRoom start taken.length start.level2.bitFiles.length total)
    (short : entries.length + 1 < total) : ∀ call ∈ emitCalls files out entry, call.Succeeds := by
  have counted := writing.full
  have notFull := writing.notFull
  have grown := length_addEntry out.2 entry
  unfold emitCalls
  split
  · have added := writing.addFile_succeeds room (by omega)
      (bitBuilderComplete files (bitBuilderAddEntry out.2 entry))
    have finished := writing.finish ascending added
    have ids := (room (outputs.length + 1) (by rw [Nat.add_mul]; omega)).1
    refine forall_mem_cons.mpr ⟨added, forall_mem_singleton.mpr ?_⟩
    apply finished.catalogue.allocFile_succeeds
    rw [finished.nrSegment, length_append, length_map, length_append,
      length_singleton]
    omega
  · exact fun call member => absurd member not_mem_nil

theorem Rewriting.emitAllCalls_succeed (ascending : Ascending (entries ++ more))
    (room : CallRoom start taken.length start.level2.bitFiles.length total)
    (short : (entries ++ more).length < total) :
    ∀ call ∈ emitAllCalls files out more, call.Succeeds := by
  induction more generalizing entries outputs out with
  | nil => exact fun call member => absurd member not_mem_nil
  | cons entry more ih =>
    rw [append_cons] at ascending short
    have first := (pairwise_append.mp ascending).1
    have here := writing.emitCalls_succeed first room (by
      simp only [length_append, length_singleton] at short
      omega)
    obtain ⟨next, outputs', ok, writingNext⟩ := writing.emit first here
    rw [emitAllCalls, ok]
    exact forall_mem_append.mpr ⟨here, ih writingNext ascending short⟩

end

/-! ## The merge path -/

/-- The files have iterators that give entries in key order, each some. -/
structure Iterable (files : BitFileOps S V) (inputs : List (FileStat S)) : Prop where
  created : iteratorsCreated files inputs = true
  ascending : ∀ file ∈ inputs, Ascending (fileEntries files file)
  ne_nil : ∀ file ∈ inputs, fileEntries files file ≠ []

section

variable {env : LsmEnv R H S V} {job merged result : CompactionJob S}
  {demoted relatives kept1 kept2 : List (FileStat S)} {entries : List (Nat × V)}
  {outputs : List (FileStat S)}

theorem mergePath_eq (job : CompactionJob S)
    (iterable : Iterable env.files (demoted ++ relatives)) (nonempty : demoted ++ relatives ≠ []) :
    ∃ init last, Ascending (init ++ [last]) ∧
      (∀ key, IsNewest (heldBy env.files (demoted ++ relatives)) key
        ((init ++ [last]).lookup key)) ∧
      mergeCalls env job demoted relatives = .allocFile job.catalogue ::
        (match openBuilder job.catalogue job.level2.level with
        | none => []
        | some (allocated, builder) =>
          emitAllCalls env.files ({ job with catalogue := allocated }, builder) init ++
            match init.foldlM (emitEntry env.files)
                ({ job with catalogue := allocated }, builder) with
            | none => []
            | some out => [.addFile out.1.level2
                (bitBuilderComplete env.files (bitBuilderAddEntry out.2 last))]) ∧
      mergeFiles env job demoted relatives =
        (openBuilder job.catalogue job.level2.level).bind fun opened =>
          (init.foldlM (emitEntry env.files) ({ job with catalogue := opened.1 }, opened.2)).bind
            fun out => retireInputs env.freed demoted relatives
              (finishFile env.files out.1 (bitBuilderAddEntry out.2 last)) := by
  obtain ⟨distinct, rest, popped⟩ := exists_pop_mergeNodes iterable.ne_nil nonempty
  obtain ⟨ascending, -, newest⟩ := mergeOutput_spec env.heap FileStat.version
    (mergeReady_of_popped iterable.ascending popped)
  rw [pending_eq_heldBy popped] at newest
  obtain ⟨init, last, output⟩ : ∃ init last, mergeOutput env.heap FileStat.version
      (env.heap.pushAll (mergeNodes env.files (demoted ++ relatives))) distinct =
        init ++ [last] :=
    ⟨_, _, (dropLast_concat_getLast (mergeOutput_ne_nil _ _ _ _)).symm⟩
  have loop := kwayMerge_of_output env.heap FileStat.version (emitEntry env.files) output
  rw [output] at ascending newest
  refine ⟨init, last, ascending, newest, ?_, ?_⟩
  · simp only [mergeCalls, iterable.created, if_true, popped, output, dropLast_concat]
    cases openBuilder job.catalogue job.level2.level with
    | none => rfl
    | some opened =>
      simp only [loop]
      cases init.foldlM (emitEntry env.files) _ <;> rfl
  · simp only [mergeFiles, iterable.created, if_true, popped]
    cases openBuilder job.catalogue job.level2.level with
    | none => rfl
    | some opened =>
      simp only [loop, bind_some]
      cases init.foldlM (emitEntry env.files) _ <;> rfl

theorem rewritten_nil (files : BitFileOps S V) (holds : CatalogueHolds job.catalogue taken) :
    Rewritten files job taken [] [] job where
  level1 := rfl
  level2 := rfl
  perm := Perm.refl _
  ordered := id
  catalogue := holds
  nrSegment := rfl
  shared := shareOut_nil files
  newer _ member := absurd member not_mem_nil
  distinct := Pairwise.nil
  count := by simp [defaultLsmFileCapacity]

theorem mergeFiles_rewritten (iterable : Iterable env.files (demoted ++ relatives))
    (nonempty : demoted ++ relatives ≠ [])
    (succeed : ∀ call ∈ mergeCalls env job demoted relatives, call.Succeeds)
    (holds : CatalogueHolds job.catalogue taken) :
    ∃ entries outputs merged,
      mergeFiles env job demoted relatives = retireInputs env.freed demoted relatives merged ∧
      Rewritten env.files job taken entries outputs merged ∧ Ascending entries ∧
      (∀ key, IsNewest (heldBy env.files (demoted ++ relatives)) key (entries.lookup key)) ∧
      outputs ≠ [] := by
  obtain ⟨init, last, ascending, newest, calls, runs⟩ := mergePath_eq job iterable nonempty
  rw [calls] at succeed
  obtain ⟨opened, builder, ok, writing⟩ := (rewritten_nil env.files holds).opens
    (Nat.zero_mul _) le_rfl (succeed _ mem_cons_self) job.level2.level
  simp only [ok] at succeed
  obtain ⟨out, outputs, folded, written⟩ := writing.emitAll
    (pairwise_append.mp ascending).1
    fun call member => succeed call (mem_cons_of_mem _ (mem_append_left _ member))
  simp only [folded] at succeed
  have finished := written.finish ascending
    (succeed _ (mem_cons_of_mem _ (mem_append_right _ mem_cons_self)))
  refine ⟨init ++ [last], _, _, ?_, finished, ascending, newest, by simp⟩
  rw [runs, ok, bind_some, folded, bind_some]

theorem mergeCalls_succeed (iterable : Iterable env.files (demoted ++ relatives))
    (below : ∀ file ∈ demoted ++ relatives, ∀ entry ∈ fileEntries env.files file, entry.1 < cap)
    (nonempty : demoted ++ relatives ≠ []) (holds : CatalogueHolds job.catalogue taken)
    (room : CallRoom job taken.length job.level2.bitFiles.length cap) :
    ∀ call ∈ mergeCalls env job demoted relatives, call.Succeeds := by
  obtain ⟨init, last, ascending, newest, calls, -⟩ := mergePath_eq job iterable nonempty
  have few : (init ++ [last]).length ≤ cap := by
    apply ascending.length_le
    intro entry member
    obtain ⟨file, isInput, inFile⟩ := exists_input_of_isNewest ascending newest entry member
    exact below file isInput entry inFile
  rw [length_append, length_singleton] at few
  have first : (JobCall.allocFile job.catalogue).Succeeds :=
    holds.allocFile_succeeds (room 0 (by omega)).1
  obtain ⟨opened, builder, ok, writing⟩ := (rewritten_nil env.files holds).opens
    (Nat.zero_mul _) le_rfl first job.level2.level
  have early := (pairwise_append.mp ascending).1
  have emits := writing.emitAllCalls_succeed early room few
  obtain ⟨out, outputs, folded, written⟩ := writing.emitAll early emits
  rw [calls]
  simp only [ok, folded]
  refine forall_mem_cons.mpr ⟨first, forall_mem_append.mpr ⟨emits, ?_⟩⟩
  exact forall_mem_singleton.mpr (written.addFile_succeeds room few _)

/-- What the iterator of a file yields, if there is one: some keys below `cap` in ascending
order. -/
def Yields (files : BitFileOps S V) (cap : Nat) (file : FileStat S) : Prop :=
  ∀ held, files.iterator file.store = some held →
    Ascending held ∧ held ≠ [] ∧ ∀ entry ∈ held, entry.1 < cap

theorem FileSound.yields (faithful : files.Faithful) {file : FileStat S}
    (sound : FileSound files cap file) : Yields files cap file := by
  obtain ⟨entries, holds, below⟩ := sound
  intro held isSome
  obtain rfl := holds.iterator_yields faithful isSome
  exact ⟨holds.ascending, holds.ne_nil, below⟩

/-- A merge of files with iterators that is done: `outputs` share out the merged entries, and the
inputs are retired. -/
structure Merged (env : LsmEnv R H S V) (cap : Nat) (job : CompactionJob S) (taken : List Nat)
    (demoted relatives : List (FileStat S)) (entries : List (Nat × V))
    (outputs : List (FileStat S)) (merged result : CompactionJob S) : Prop where
  iterable : Iterable env.files (demoted ++ relatives)
  written : Rewritten env.files job taken entries outputs merged
  ascending : Ascending entries
  newest : ∀ key, IsNewest (heldBy env.files (demoted ++ relatives)) key (entries.lookup key)
  below : ∀ entry ∈ entries, entry.1 < cap
  ne_nil : outputs ≠ []
  retired : relatives.foldl retireRelative (demoted.foldl retireDemoted merged) = result

/-- The merge path, where there is room for the files that its keys fill: no call fails, and it
completes if the files have iterators and freed links stay. -/
theorem mergeFiles_achieves (yields : ∀ file ∈ demoted ++ relatives, Yields env.files cap file)
    (nonempty : demoted ++ relatives ≠ []) (holds : CatalogueHolds job.catalogue taken)
    (room : CallRoom job taken.length job.level2.bitFiles.length cap) :
    (∀ call ∈ mergeCalls env job demoted relatives, call.Succeeds) ∧
      Achieves (iteratorsCreated env.files (demoted ++ relatives) = true ∧
          env.freed.Kept (demoted ++ relatives))
        (mergeFiles env job demoted relatives) fun result => ∃ entries outputs merged,
          Merged env cap job taken demoted relatives entries outputs merged result := by
  cases created : iteratorsCreated env.files (demoted ++ relatives) with
  | false =>
    have noCalls : mergeCalls env job demoted relatives = [] := by
      rw [mergeCalls, created, if_neg Bool.false_ne_true]
    have noRun : mergeFiles env job demoted relatives = none := by
      rw [mergeFiles, created, if_neg Bool.false_ne_true]
    rw [noCalls, noRun]
    exact ⟨fun call member => absurd member not_mem_nil, fun total => absurd total.1 nofun, nofun⟩
  | true =>
    have each : ∀ file ∈ demoted ++ relatives, Ascending (fileEntries env.files file) ∧
        fileEntries env.files file ≠ [] ∧
        ∀ entry ∈ fileEntries env.files file, entry.1 < cap := by
      intro file member
      obtain ⟨held, isSome⟩ := Option.isSome_iff_exists.mp (all_eq_true.mp created file member)
      rw [fileEntries, isSome, getD_some]
      exact yields file member held isSome
    have iterable : Iterable env.files (demoted ++ relatives) :=
      ⟨created, fun file member => (each file member).1, fun file member => (each file member).2.1⟩
    have calls := mergeCalls_succeed iterable (fun file member => (each file member).2.2)
      nonempty holds room
    obtain ⟨entries, outputs, merged, ran, written, ascending, newest, ne_nil⟩ :=
      mergeFiles_rewritten iterable nonempty calls holds
    rw [ran]
    refine ⟨calls, fun total => ⟨_, retireInputs_eq_some_iff.mpr ⟨total.2, rfl⟩⟩,
      fun result done => ⟨entries, outputs, merged, iterable, written, ascending, newest,
        fun entry member => ?_, ne_nil, (retireInputs_eq_some_iff.mp done).2⟩⟩
    obtain ⟨file, isInput, inFile⟩ := exists_input_of_isNewest ascending newest entry member
    exact (each file isInput).2.2 entry inFile

theorem Rewritten.retire (written : Rewritten files job taken entries outputs merged)
    (distinct : ((job.level1.bitFiles ++ job.level2.bitFiles).map FileStat.id).Nodup)
    (covers : ∀ file ∈ job.level2.bitFiles, file.id ∈ taken)
    (perm1 : job.level1.bitFiles.Perm (demoted ++ kept1))
    (perm2 : job.level2.bitFiles.Perm (relatives ++ kept2))
    (isResult : relatives.foldl retireRelative (demoted.foldl retireDemoted merged) = result) :
    ∃ left1 left2, result.level1 = { job.level1 with bitFiles := left1 } ∧ left1.Perm kept1 ∧
      result.level2 = { job.level2 with bitFiles := left2 } ∧ left2.Perm (outputs ++ kept2) ∧
      (job.level2.bitFiles.Pairwise FileLe → left2.Pairwise FileLe) := by
  rw [map_append] at distinct
  obtain ⟨ids1, ids2, -⟩ := nodup_append.mp distinct
  rw [foldl_retireDemoted, foldl_retireRelative] at isResult
  subst isResult
  have swapped1 : job.level1.bitFiles.Perm (kept1 ++ demoted) := perm1.trans perm_append_comm
  obtain ⟨left1, removed1, leftPerm1, -⟩ :=
    withoutFile_all swapped1 ((swapped1.map _).nodup_iff.mp ids1)
  have swapped2 : merged.level2.bitFiles.Perm (outputs ++ kept2 ++ relatives) := by
    refine written.perm.trans ?_
    rw [append_assoc]
    exact Perm.append_left _ (perm2.trans perm_append_comm)
  have fresh : ((outputs ++ job.level2.bitFiles).map FileStat.id).Nodup := by
    obtain ⟨new, -, apart⟩ := nodup_append.mp written.catalogue.nodup
    rw [map_append]
    refine nodup_append.mpr ⟨new, ids2, fun id inNew other inOld => ?_⟩
    obtain ⟨file, isFile, rfl⟩ := mem_map.mp inOld
    exact apart id inNew file.id (covers file isFile)
  obtain ⟨left2, removed2, leftPerm2, leftSub⟩ := withoutFile_all swapped2
    ((swapped2.map _).nodup_iff.mp ((written.perm.map _).nodup_iff.mpr fresh))
  refine ⟨left1, left2, ?_, leftPerm1, ?_, leftPerm2, fun ordered =>
    (written.ordered ordered).sublist leftSub⟩
  · simp only [written.level1, removed1]
  · simp only [removed2]
    rw [written.level2]

theorem Rewritten.released {keep : List Nat}
    (written : Rewritten files job taken entries outputs merged)
    (perm : taken.Perm (keep ++ relatives.map FileStat.id ++ demoted.map FileStat.id))
    (isResult : relatives.foldl retireRelative (demoted.foldl retireDemoted merged) = result) :
    CatalogueHolds result.catalogue (outputs.map FileStat.id ++ keep) ∧
      result.catalogue.maxVersion = merged.catalogue.maxVersion ∧
      result.catalogue.bitValidityTable.nrSegment =
        job.catalogue.bitValidityTable.nrSegment := by
  have holds := written.catalogue.perm (Perm.append_left _ perm)
  rw [← append_assoc, ← append_assoc] at holds
  obtain ⟨first, sameVersion, sameNr⟩ := holds.release_all
  obtain ⟨second, sameVersion', sameNr'⟩ := first.release_all
  rw [foldl_retireDemoted, foldl_retireRelative] at isResult
  subst isResult
  exact ⟨second, sameVersion'.trans sameVersion, (sameNr'.trans sameNr).trans written.nrSegment⟩

theorem perm_inputs (lower : job.level2.bitFiles.Perm (relatives ++ kept2)) :
    (job.level1.bitFiles ++ job.level2.bitFiles).Perm
      (kept2 ++ relatives ++ job.level1.bitFiles) :=
  perm_append_comm.trans ((lower.trans perm_append_comm).append_right _)

/-- Once all files of the upper level are merged, it is empty, and the files in use are the new
ones and those of the lower level that stayed. -/
theorem Rewritten.retire_all (written : Rewritten files job
      ((job.level1.bitFiles ++ job.level2.bitFiles).map FileStat.id) entries outputs merged)
    (lower : job.level2.bitFiles.Perm (relatives ++ kept2))
    (isResult : relatives.foldl retireRelative (job.level1.bitFiles.foldl retireDemoted merged) =
      result) :
    result.level1 = { job.level1 with bitFiles := [] } ∧
      (∃ left, result.level2 = { job.level2 with bitFiles := left } ∧
        left.Perm (outputs ++ kept2) ∧
        (job.level2.bitFiles.Pairwise FileLe → left.Pairwise FileLe)) ∧
      CatalogueHolds result.catalogue ((outputs ++ kept2).map FileStat.id) ∧
      result.catalogue.maxVersion = merged.catalogue.maxVersion ∧
      result.catalogue.bitValidityTable.nrSegment =
        job.catalogue.bitValidityTable.nrSegment := by
  have upper : job.level1.bitFiles.Perm (job.level1.bitFiles ++ []) := by rw [append_nil]
  have taken : ((job.level1.bitFiles ++ job.level2.bitFiles).map FileStat.id).Perm
      (kept2.map FileStat.id ++ relatives.map FileStat.id ++
        job.level1.bitFiles.map FileStat.id) := by
    simp only [← map_append]
    exact (perm_inputs lower).map _
  obtain ⟨left1, left2, level1, perm1, level2, perm, ordered⟩ := written.retire
    (nodup_append.mp written.catalogue.nodup).2.1
    (fun f member => mem_map_of_mem (mem_append_right _ member)) upper lower isResult
  rw [perm1.eq_nil] at level1
  rw [map_append]
  exact ⟨level1, ⟨left2, level2, perm, ordered⟩, written.released taken isResult⟩

theorem Rewritten.length_le (written : Rewritten files job taken entries outputs merged)
    (few : entries.length ≤ cap) :
    outputs.length ≤ filesFor cap := by
  rcases Nat.eq_zero_or_pos outputs.length with none | some
  · omega
  · have counted := written.count
    have last : (outputs.length - 1) * defaultLsmFileCapacity < cap := by
      have := Nat.mul_le_mul_right defaultLsmFileCapacity some
      rw [Nat.sub_mul]
      omega
    have := lt_filesFor last
    omega

theorem moveCalls_succeed {moved : List (FileStat S)}
    (room : moved.length + job.level2.bitFiles.length ≤ job.level2.maxSize) :
    ∀ call ∈ moveCalls job moved, call.Succeeds := by
  induction moved generalizing job with
  | nil => exact fun call member => absurd member not_mem_nil
  | cons file rest ih =>
    rw [length_cons] at room
    obtain ⟨added, addedEq, perm, -⟩ := withFile_of_room (l := job.level2)
      { file with version := job.catalogue.maxVersion, level := job.level2.level } (by omega)
    have level2 : (moveFile job file).level2 = { job.level2 with bitFiles := added } := addedEq
    refine forall_mem_cons.mpr ⟨addFile_succeeds (by omega) _, ih ?_⟩
    rw [level2]
    simp only [perm.length_eq, length_cons]
    omega

end

end SwornDisk.C
