import SwornDisk.C.BitFinished

/-!
# Round trip of block index table files

When searches in a finished file return the entries that were added: the leaves
have to be full, and the buffer must not run full in `bit_builder_complete`.
-/

namespace SwornDisk.C.Bit

open Lib List

variable {K I M G V : Type}

section

variable (aead : IdealAead K I M (Node K I V) G)

/-- An honest file: a whole node is read as it was sealed, anything else as the
bytes of `torn`, which were not sealed for that place. -/
def honestRegion (torn : Region M G) (file : List (Nat × SealedNode K I V)) :
    Region M G := fun pos isLeaf =>
  match readNode file pos isLeaf with
  | some made => nodeEncode aead made.node made.pointer.key made.pointer.iv
  | none => torn pos isLeaf

/-- Bytes that open neither under a drawn key nor under the zeroed one. -/
def Unreadable (draw : Nat → K × I) (blank : K × I) (torn : Region M G) : Prop :=
  ∀ pos isLeaf secret, (secret = blank ∨ ∃ n, secret = draw n) →
    nodeDecode aead (torn pos isLeaf) secret.1 secret.2 = none

def searchAll (region : Region M G) (bound : Nat) (file : File K I V) (lookups : List Nat) :
    File K I V :=
  lookups.foldl (fun file key => (fileSearch aead region bound file key).2) file

/-- Whatever was searched before, a search returns the record of an entry and
`-ENODATA` for any other key. -/
def RoundTrip (region : Region M G) (file : File K I V) (entries : List (Nat × V)) : Prop :=
  ∀ bound, builderHeight ≤ bound → ∀ lookups key,
    (fileSearch aead region bound (searchAll aead region bound file lookups) key).1 =
      orNoData (entries.lookup key)

end

variable {nodes : List (Nat × SealedNode K I V)}
  {pos height bound : Nat} {log : List (SealedNode K I V)} {root : Child K I}

section

variable {aead : IdealAead K I M (Node K I V) G} {region : Region M G} {file : File K I V}
  {entries : List (Nat × V)}

theorem Laid.intact {lo hi : Nat} (laid : Laid lo hi nodes)
    (aead : IdealAead K I M (Node K I V) G) (torn : Region M G) :
    Intact aead (honestRegion aead torn nodes) (nodes.map Prod.snd) := by
  intro made member
  obtain ⟨placed, inNodes, rfl⟩ := mem_map.mp member
  rw [honestRegion, laid.readNode_eq inNodes]

theorem readNode_of_behind (before : ∀ placed ∈ nodes, behind placed ≤ pos) (isLeaf : Bool) :
    readNode nodes pos isLeaf = none := by
  have missed : nodes.reverse.find? (fun placed =>
      decide (placed.1 < pos + nodeLen isLeaf ∧ pos < behind placed)) = none := by
    rw [find?_eq_none]
    intro placed member reached
    have := before placed (mem_reverse.mp member)
    have := (of_decide_eq_true reached).2
    omega
  rw [readNode, missed]

theorem fileSearch_of_unopened
    (unopened : nodeDecode aead (region file.root.pos false) file.root.key file.root.iv = none)
    (uncached : file.cachedLeaf = []) (bound key : Nat) :
    (fileSearch aead region bound file key).1 = .error .enodata := by
  have noLeaf : fileSearchLeaf aead region bound file key = .error .enodata := by
    unfold fileSearchLeaf
    cases bound with
    | zero => rfl
    | succ bound =>
      unfold searchLeafFrom
      rw [unopened]
  unfold fileSearch
  rw [uncached, noLeaf]
  split
  · rfl
  · rfl

theorem fileSearch_of_subtree {held : List (Nat × V)} (intact : Intact aead region log)
    (tree : Subtree log height root held) (inner : root.isLeaf = false)
    (isRoot : file.root = root.pointer) (ascending : Ascending held)
    (filter : ∀ entry ∈ held, bloomFilterContains file.filterBits entry.1 = true)
    (cached : ∀ entry ∈ file.cachedLeaf, entry ∈ held) (enough : height < bound) (key : Nat) :
    (fileSearch aead region bound file key).1 = orNoData (held.lookup key) ∧
      (∀ entry ∈ (fileSearch aead region bound file key).2.cachedLeaf, entry ∈ held) ∧
      (fileSearch aead region bound file key).2.root = file.root ∧
      (fileSearch aead region bound file key).2.filterBits = file.filterBits := by
  have answers := tree.search intact ascending key enough
  rw [inner, ← isRoot] at answers
  unfold fileSearch
  split
  · cases hit : leafSearch file.cachedLeaf key with
    | ok record =>
      have bound := (lookup_eq_some_iff_mem ascending).mpr (cached _ (mem_of_leafSearch hit))
      simp only [bound]
      exact ⟨rfl, cached, trivial, trivial⟩
    | error err =>
      unfold Answers at answers
      cases found : held.lookup key with
      | some val =>
        rw [found] at answers
        obtain ⟨leaf, reached, has, subset⟩ := answers
        have walked : fileSearchLeaf aead region bound file key = .ok leaf := reached
        simp only [walked]
        refine ⟨?_, subset, trivial, trivial⟩
        rw [leafSearch, has]
      | none =>
        rw [found] at answers
        have walked : fileSearchLeaf aead region bound file key = .error .enodata := answers
        simp only [walked]
        exact ⟨rfl, cached, trivial, trivial⟩
  · rename_i missed
    refine ⟨?_, cached, rfl, rfl⟩
    have absent : held.lookup key = none := by
      apply lookup_eq_none_of_forall_ne
      rintro entry member rfl
      exact missed (filter entry member)
    rw [absent]
    rfl

end

variable {region : Region M G} {file : File K I V}

section

variable {aead : IdealAead K I M (Node K I V) G} {draw : Nat → K × I} {blank : K × I}
  {torn : Region M G} {begin : Nat} {b : Builder K I V} {entries done : List (Nat × V)}
  {completed : Completed K I V} {out : Output K I V} {top : Context K I V}

theorem roundTrip_of_subtree (intact : Intact aead region log)
    (tree : Subtree log height root entries) (inner : root.isLeaf = false)
    (isRoot : file.root = root.pointer) (ascending : Ascending entries)
    (filter : ∀ entry ∈ entries, bloomFilterContains file.filterBits entry.1 = true)
    (cached : ∀ entry ∈ file.cachedLeaf, entry ∈ entries) (enough : height < bound)
    (lookups : List Nat) (key : Nat) :
    (fileSearch aead region bound (searchAll aead region bound file lookups) key).1 =
      orNoData (entries.lookup key) := by
  induction lookups generalizing file with
  | nil =>
    exact (fileSearch_of_subtree intact tree inner isRoot ascending filter cached enough key).1
  | cons lookup lookups ih =>
    obtain ⟨-, cachedNext, rootNext, bitsNext⟩ := fileSearch_of_subtree intact tree inner isRoot
      ascending filter cached enough lookup
    exact ih (rootNext.trans isRoot) (by rw [bitsNext]; exact filter) cachedNext

theorem FileFinished.roundTrip
    (finished : FileFinished draw blank begin b entries completed done out top)
    (ascending : Ascending entries) (some : entries ≠ []) (noTrailing : b.curLeaf = [])
    (room : bufferFull b.out = false) (torn : Region M G) :
    RoundTrip aead (honestRegion aead torn completed.file)
      (fileInit completed completed.filter) entries := by
  obtain rfl : entries = done := by
    rw [finished.split, noTrailing, append_nil]
  obtain ⟨made, rootEq, isRoot⟩ := finished.root_of_done some
  intro bound enough lookups key
  have intact := (finished.laid room).intact aead torn
  rw [finished.log_eq] at intact
  apply roundTrip_of_subtree intact isRoot.tree isRoot.inner rootEq ascending finished.filter
  · intro entry member
    cases member
  · rw [builderHeight_eq] at enough ⊢
    omega

theorem lookup_last (ascending : Ascending entries) {init : List (Nat × V)} {last : Nat × V}
    (split : entries = init ++ [last]) : entries.lookup last.1 = some last.2 := by
  rw [lookup_eq_some_iff_mem ascending, split]
  exact mem_append_right _ mem_cons_self

theorem not_roundTrip_of_unopened (ascending : Ascending entries) (some : entries ≠ [])
    (unopened : nodeDecode aead (region file.root.pos false) file.root.key file.root.iv = none)
    (uncached : file.cachedLeaf = []) : ¬ RoundTrip aead region file entries := by
  intro roundTrip
  have answered := roundTrip builderHeight le_rfl [] (entries.getLast some).1
  rw [lookup_last ascending (dropLast_append_getLast some).symm] at answered
  have refused : (fileSearch aead region builderHeight (searchAll aead region builderHeight file [])
      (entries.getLast some).1).1 = .error .enodata :=
    fileSearch_of_unopened unopened uncached builderHeight _
  rw [refused] at answered
  cases answered

section

variable (finished : FileFinished draw blank begin b entries completed done out top)
include finished

theorem FileFinished.root_known :
    completed.root.secret = blank ∨ ∃ n, completed.root.secret = draw n := by
  by_cases nothing : done = []
  · rw [finished.root_of_nothing nothing]
    exact .inl rfl
  · obtain ⟨made, rootEq, isRoot⟩ := finished.root_of_done nothing
    obtain ⟨n, -, drawnAt⟩ := isRoot.drawn
    exact .inr ⟨n, rootEq ▸ drawnAt⟩

/-- After a flush in `bit_builder_complete` nothing lies at the root's position. -/
theorem FileFinished.behind_le (building : Building draw begin b entries)
    (full : bufferFull b.out = true) (some : entries ≠ []) :
    ∀ placed ∈ completed.file, behind placed ≤ completed.root.pos := by
  have flushed : bufferFlushIfFull b.out = { b.out with
      begin := b.out.begin + b.out.cur, cur := 0, buffer := [],
      file := writeBuffer b.out.begin b.out } := by
    rw [bufferFlushIfFull, full]
    rfl
  have curLe := finished.tree.cur_le
  have grown := finished.tree.grown some
  have beginEq := finished.tree.begin_eq
  have fileEq := finished.tree.file_eq
  rw [flushed] at curLe grown beginEq fileEq
  simp only [Nat.zero_add] at curLe grown beginEq fileEq
  have filled := of_decide_eq_true full
  have rootPos : b.out.top ≤ completed.root.pos := by
    rw [finished.root_eq]
    simp only [Output.top] at *
    omega
  have few : bitLeafNodeSize + builderHeight * bitInnerNodeSize ≤
      builderBufferSize - builderHeight * bitNodeSize := by decide +kernel
  intro placed member
  apply le_trans _ rootPos
  rw [finished.file_eq, writeBuffer, fileEq] at member
  rcases mem_append.mp member with written | late
  · exact building.laid.below placed written
  · obtain ⟨buffered, inBuffer, rfl⟩ := mem_map.mp late
    have within := finished.tree.laid.below (out.begin + buffered.1, buffered.2)
      (mem_append_right _ (mem_map.mpr ⟨buffered, inBuffer, rfl⟩))
    simp only [behind, Output.top] at within ⊢
    omega

theorem FileFinished.not_roundTrip_of_flush (building : Building draw begin b entries)
    (unreadable : Unreadable aead draw blank torn) (ascending : Ascending entries)
    (some : entries ≠ []) (full : bufferFull b.out = true) :
    ¬ RoundTrip aead (honestRegion aead torn completed.file)
      (fileInit completed completed.filter) entries := by
  apply not_roundTrip_of_unopened ascending some _ rfl
  have unread := readNode_of_behind (finished.behind_le building full some) false
  have region : honestRegion aead torn completed.file completed.root.pos false =
      torn completed.root.pos false := by
    rw [honestRegion, unread]
  change nodeDecode aead (honestRegion aead torn completed.file completed.root.pos false)
    completed.root.key completed.root.iv = none
  rw [region]
  exact unreadable _ _ _ finished.root_known

end

theorem readNode_inside {placed : Nat × SealedNode K I V} (isLeaf : Bool) (after : placed.1 < pos)
    (before : pos < behind placed) :
    readNode (nodes ++ [placed]) pos isLeaf = none := by
  have found : (nodes ++ [placed]).reverse.find? (fun other =>
      decide (other.1 < pos + nodeLen isLeaf ∧ pos < behind other)) = some placed := by
    rw [reverse_append, reverse_singleton]
    exact find?_cons_of_pos (decide_eq_true ⟨after.trans_le (Nat.le_add_right _ _), before⟩)
  rw [readNode, found]
  exact if_neg fun equal => absurd equal.1 (Nat.ne_of_lt after)

section

variable (finished : FileFinished draw blank begin b entries completed done out top)
include finished

theorem FileFinished.file_eq_placed (room : bufferFull b.out = false) :
    completed.file = out.placed := by
  have same : out.begin = b.out.begin := by
    rw [finished.tree.begin_eq, bufferFlushIfFull, room]
    rfl
  rw [finished.file_eq, ← same, Output.placed]

theorem FileFinished.not_roundTrip_of_trailing (unreadable : Unreadable aead draw blank torn)
    (ascending : Ascending entries) (trailing : b.curLeaf ≠ []) (room : bufferFull b.out = false) :
    ¬ RoundTrip aead (honestRegion aead torn completed.file)
      (fileInit completed completed.filter) entries := by
  have some : entries ≠ [] := by
    rw [finished.split]
    exact append_ne_nil_of_right_ne_nil _ trailing
  by_cases nothing : done = []
  · -- no context was ever filled: the root lies inside of the only leaf
    apply not_roundTrip_of_unopened ascending some _ rfl
    obtain ⟨leaf, topEq, placedEq⟩ := finished.tree.alone nothing trailing
    have rootEq := finished.root_of_nothing nothing
    have sizes : bitInnerNodeSize < bitLeafNodeSize ∧ 0 < bitInnerNodeSize := by decide
    have torn_at : honestRegion aead torn completed.file completed.root.pos false =
        torn completed.root.pos false := by
      rw [honestRegion, finished.file_eq_placed room, placedEq, readNode_inside]
      · rw [rootEq, topEq]
        simp only
        omega
      · rw [rootEq, topEq]
        simp only [behind, Node.isLeaf, nodeLen, if_true]
        omega
    change nodeDecode aead (honestRegion aead torn completed.file completed.root.pos false)
      completed.root.key completed.root.iv = none
    rw [torn_at]
    exact unreadable _ _ _ finished.root_known
  · -- the root covers the full leaves only
    intro roundTrip
    obtain ⟨made, rootEq, isRoot⟩ := finished.root_of_done nothing
    have intact := (finished.laid room).intact aead torn
    rw [finished.log_eq] at intact
    have ascendingSplit := ascending
    rw [finished.split] at ascendingSplit
    obtain ⟨ascendingDone, -, across⟩ := pairwise_append.mp ascendingSplit
    have answered := roundTrip builderHeight le_rfl [] (b.curLeaf.getLast trailing).1
    have lastEntry : entries = done ++ b.curLeaf.dropLast ++ [b.curLeaf.getLast trailing] := by
      rw [append_assoc, dropLast_append_getLast, finished.split]
    rw [lookup_last ascending lastEntry] at answered
    have deep : builderHeight - 1 < builderHeight := by
      rw [builderHeight_eq]
      exact Nat.lt_succ_self _
    have absent : done.lookup (b.curLeaf.getLast trailing).1 = none := by
      apply lookup_eq_none_of_forall_ne
      intro entry member
      exact Nat.ne_of_lt (across entry member _ (getLast_mem trailing))
    have searched : (fileSearch aead (honestRegion aead torn completed.file) builderHeight
        (searchAll aead (honestRegion aead torn completed.file) builderHeight
          (fileInit completed completed.filter) []) (b.curLeaf.getLast trailing).1).1 =
        orNoData (done.lookup (b.curLeaf.getLast trailing).1) :=
      (fileSearch_of_subtree intact isRoot.tree isRoot.inner rootEq ascendingDone
        (fun entry member => finished.filter entry
          (by rw [finished.split]; exact mem_append_left _ member))
        (fun entry member => absurd member not_mem_nil) deep _).1
    rw [searched, absent] at answered
    cases answered

theorem FileFinished.length_mod (short : b.curLeaf.length < bitLeafLen) :
    entries.length % bitLeafLen = b.curLeaf.length := by
  obtain ⟨leaves, count⟩ := finished.whole
  rw [finished.split, length_append, count, Nat.mul_add_mod, Nat.mod_eq_of_lt short]

end

/-- The round trip, for every strictly ascending run of entries that a file can
hold: it holds exactly when they fill their leaves and the buffer still has room
for the rest of the tree when `bit_builder_complete` is called. -/
theorem roundTrip_iff (aead : IdealAead K I M (Node K I V) G) (draw : Nat → K × I)
    (blank : K × I) (torn : Region M G) (unreadable : Unreadable aead draw blank torn)
    (begin : Nat) (entries : List (Nat × V)) (ascending : Ascending entries)
    (some : entries ≠ []) (within : entries.length ≤ defaultLsmFileCapacity) :
    RoundTrip aead (honestRegion aead torn (buildFile draw blank begin entries).file)
        (fileInit (buildFile draw blank begin entries)
          (buildFile draw blank begin entries).filter) entries ↔
      entries.length % bitLeafLen = 0 ∧
        bufferFull (builderWith draw blank begin entries).out = false := by
  obtain ⟨done, out, top, finished⟩ := fileFinished_buildFile draw blank begin within
  have building := building_builderWith blank draw begin entries
  rw [finished.length_mod building.short]
  cases room : bufferFull (builderWith draw blank begin entries).out with
  | true =>
    refine ⟨fun roundTrip => ?_, fun both => absurd both.2 nofun⟩
    exact absurd roundTrip
      (finished.not_roundTrip_of_flush building unreadable ascending some room)
  | false =>
    refine ⟨fun roundTrip => ⟨?_, rfl⟩, fun both => ?_⟩
    · by_contra trailing
      refine finished.not_roundTrip_of_trailing unreadable ascending ?_ room roundTrip
      exact fun empty => trailing (length_eq_zero_iff.mpr empty)
    · exact finished.roundTrip ascending some (length_eq_zero_iff.mp both.1) room torn

end

def countingDraw (n : Nat) : Nat × Unit :=
  (n + 1, ())

def countingAead : IdealAead Nat Unit (Nat × Unit × Nat × Node Nat Unit Nat)
    (Node Nat Unit Nat) (Node Nat Unit Nat) :=
  transparentAead Nat Unit (Node Nat Unit Nat)

def staleRegion : Region (Nat × Unit × Nat × Node Nat Unit Nat) (Node Nat Unit Nat) :=
  fun _ _ => (.inner [], (0, (), 1, .inner []))

theorem unreadable_staleRegion :
    Unreadable countingAead countingDraw (0, ()) staleRegion := by
  intro pos isLeaf secret _
  exact if_neg (by simp [staleRegion])

def selfEntries (count : Nat) : List (Nat × Nat) :=
  (List.range count).map fun key => (key, key)

theorem ascending_selfEntries (count : Nat) : Ascending (selfEntries count) := by
  rw [Ascending, selfEntries, pairwise_map]
  exact pairwise_lt_range

/-- One full leaf is read back. -/
theorem roundTrip_one_leaf :
    RoundTrip countingAead
      (honestRegion countingAead staleRegion
        (buildFile countingDraw (0, ()) 4096 (selfEntries 8)).file)
      (fileInit (buildFile countingDraw (0, ()) 4096 (selfEntries 8))
        (buildFile countingDraw (0, ()) 4096 (selfEntries 8)).filter) (selfEntries 8) :=
  (roundTrip_iff countingAead countingDraw (0, ()) staleRegion unreadable_staleRegion 4096
    (selfEntries 8) (ascending_selfEntries 8) (by decide) (by decide)).mpr
    ⟨by decide, by decide +kernel⟩

/-- With a ninth entry, that entry is lost. -/
theorem not_roundTrip_ninth_entry :
    ¬ RoundTrip countingAead
      (honestRegion countingAead staleRegion
        (buildFile countingDraw (0, ()) 4096 (selfEntries 9)).file)
      (fileInit (buildFile countingDraw (0, ()) 4096 (selfEntries 9))
        (buildFile countingDraw (0, ()) 4096 (selfEntries 9)).filter) (selfEntries 9) := by
  have within : (selfEntries 9).length ≤ defaultLsmFileCapacity := by decide
  obtain ⟨done, out, top, finished⟩ := fileFinished_buildFile countingDraw (0, ()) 4096 within
  exact finished.not_roundTrip_of_trailing unreadable_staleRegion (ascending_selfEntries 9)
    (by decide +kernel) (by decide +kernel)

end SwornDisk.C.Bit
