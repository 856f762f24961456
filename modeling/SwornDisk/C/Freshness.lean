import SwornDisk.C.TamperedIndex

/-!
# Freshness of index searches under tampering

An unreadable node, a filter miss and a missing key all come back from a file as
`-ENODATA`, and `lsm_tree_search` goes on to older files.  The record that it
returns is that of the latest put as long as the newest file with the key stands.
-/

namespace SwornDisk.C.Bit

open Lib List Option

variable {cap count : Nat}

variable {R H S K I M G V : Type}

variable {bound : Nat}

section

variable {env : LsmEnv R H S V} {t : LsmTree R S} {job : CompactionJob S} {look : Nat → Option V}
  {sealer : Sealer S K I M G V} {tampered : Tampered S M G V} {key : Nat}
  (inv : TreeInv env cap t job look)
include inv

theorem TreeInv.treeFiles_eq : treeFiles t = job.level1.bitFiles ++ job.level2.bitFiles := by
  rw [treeFiles, inv.levels]
  simp

section

variable (exact : env.files.Exact)
  (attack : ∀ file ∈ treeFiles t, Attack sealer env.files tampered file)
include exact attack

theorem TreeInv.tampered_newest
    (large : ∀ file ∈ treeFiles t, bitLeafLen ≤ (fileEntries env.files file).length) (bound : Nat) :
    ∃ best, searchLevels (tamperedProbe sealer env.files tampered bound) key t.levels =
        orNoData best ∧
      IsNewest (answers (tamperedProbe sealer env.files tampered bound) (treeFiles t))
        key best := by
  have disk := inv.disk
  have filesEq := TreeInv.treeFiles_eq inv
  have inRange : AnswersInRange (tamperedProbe sealer env.files tampered bound)
      job.level2.bitFiles := by
    intro file member key val answered
    have inTree : file ∈ treeFiles t := by
      rw [filesEq]
      exact mem_append_right _ member
    have held := (disk.sound file (mem_append_right _ member)).held exact
    exact held.inRange _ (tamperedProbe_sound (attack file inTree) held (large file inTree)
      answered)
  obtain ⟨best, searched, newest⟩ := searchLevels_two key
    (bitLevelSearch_spec fun deep => absurd disk.shape0.level_eq deep)
    (bitLevelSearch_spec fun _ => ⟨disk.ranges, inRange⟩) disk.newer
  refine ⟨best, ?_, ?_⟩
  · rw [inv.levels]
    exact searched
  · rw [filesEq]
    exact newest

theorem TreeInv.newest_answers {newest : FileStat S} (member : newest ∈ treeFiles t)
    (has : HasKey env.files newest key)
    (highest : ∀ other ∈ treeFiles t, HasKey env.files other key → other.version ≤ newest.version)
    (untouched : Untouched sealer env.files tampered newest) (enough : builderHeight ≤ bound) :
    (∃ val, tamperedProbe sealer env.files tampered bound newest key = .ok val) ∨
      ∀ other ∈ treeFiles t, HasKey env.files other key → other = newest := by
  have disk := inv.disk
  have filesEq := TreeInv.treeFiles_eq inv
  obtain ⟨val, held⟩ := has
  have holds := (disk.sound newest (filesEq ▸ member)).held exact
  rcases mem_append.mp (filesEq ▸ member) with inLevel0 | inLevel1
  · -- files of level zero are full, so all their leaves are
    left
    have whole : (fileEntries env.files newest).length % bitLeafLen = 0 := by
      obtain ⟨entries, filled, -, isFull⟩ := disk.filled newest inLevel0
      rw [filled.unique exact holds, isFull]
      decide
    refine ⟨val, ?_⟩
    rw [tamperedProbe_untouched (attack newest member) untouched holds whole enough,
      (lookup_eq_some_iff_mem holds.ascending).mpr held]
    rfl
  · right
    intro other otherMember otherHas
    rcases mem_append.mp (filesEq ▸ otherMember) with other0 | other1
    · have newer := disk.newer other other0 newest inLevel1
      have older := highest other otherMember otherHas
      omega
    · obtain ⟨otherVal, otherHeld⟩ := otherHas
      have otherRange := ((disk.sound other (mem_append_right _ other1)).held exact).inRange
        (key, otherVal) otherHeld
      exact eq_of_inRange disk.apart other1 inLevel1 otherRange (holds.inRange (key, val) held)

variable (large : ∀ file ∈ treeFiles t, bitLeafLen ≤ (fileEntries env.files file).length)
include large

theorem TreeInv.look_of_answered (stands : NewestStands env sealer tampered t key)
    (enough : builderHeight ≤ bound) {val : V}
    (answered : IsNewest (answers (tamperedProbe sealer env.files tampered bound) (treeFiles t)) key
      (some val)) : look key = some val := by
  have disk := inv.disk
  have filesEq := TreeInv.treeFiles_eq inv
  obtain ⟨version, ⟨file, member, versionEq, found⟩, highest⟩ := answered
  obtain rfl : version = file.version := versionEq
  have holds := (disk.sound file (filesEq ▸ member)).held exact
  have held := tamperedProbe_sound (attack file member) holds (large file member) found
  have newestOfAll : ∀ other ∈ treeFiles t, HasKey env.files other key →
      other.version ≤ file.version := by
    rcases stands with only | ⟨newest, newestMember, newestHas, above, untouched⟩
    · intro other otherMember otherHas
      rw [only other otherMember file member otherHas ⟨val, held⟩]
    · intro other otherMember otherHas
      refine (above other otherMember otherHas).trans ?_
      rcases TreeInv.newest_answers inv exact attack newestMember newestHas above untouched
        enough with ⟨newestVal, newestFound⟩ | only
      · exact highest _ newestVal ⟨newest, newestMember, rfl, newestFound⟩
      · rw [only file member ⟨val, held⟩]
  have newest : IsNewest (answers (bitFileSearch env.files)
      (job.level1.bitFiles ++ job.level2.bitFiles)) key (some val) := by
    refine ⟨file.version, ⟨file, filesEq ▸ member, rfl, (holds.search_ok exact).mpr held⟩, ?_⟩
    rintro other otherVal ⟨otherFile, otherMember, rfl, otherFound⟩
    have otherHolds := (disk.sound otherFile otherMember).held exact
    exact newestOfAll otherFile (filesEq ▸ otherMember)
      ⟨otherVal, (otherHolds.search_ok exact).mp otherFound⟩
  exact (disk.holds exact key).unique (bindsOnce_answers disk.distinct) newest

theorem TreeInv.probes_end :
    ∃ limit, ∀ bound, limit ≤ bound → ∀ file ∈ treeFiles t, ∀ key,
      tamperedProbe sealer env.files tampered bound file key =
        tamperedProbe sealer env.files tampered limit file key := by
  have held : ∀ file ∈ treeFiles t, FileHolds env.files file (fileEntries env.files file) := by
    rw [TreeInv.treeFiles_eq inv]
    exact fun file member => (inv.disk.sound file member).held exact
  generalize treeFiles t = files at attack large held
  induction files with
  | nil => exact ⟨0, fun bound _ file member => absurd member not_mem_nil⟩
  | cons first files ih =>
    obtain ⟨limit, ends⟩ := ih (fun file member => attack file (mem_cons_of_mem _ member))
      (fun file member => large file (mem_cons_of_mem _ member))
      fun file member => held file (mem_cons_of_mem _ member)
    obtain ⟨firstLimit, firstEnds⟩ := tamperedProbe_ends (attack first mem_cons_self)
      (held first mem_cons_self) (large first mem_cons_self)
    refine ⟨max limit firstLimit, fun bound enough file member key => ?_⟩
    rcases mem_cons.mp member with rfl | later
    · rw [firstEnds bound (le_of_max_le_right enough) key, firstEnds _ (le_max_right _ _) key]
    · rw [ends bound (le_of_max_le_left enough) file later key,
        ends _ (le_max_left _ _) file later key]

end

/-- Searches of a tree that stands for `look` below its memtable are fresh. -/
theorem TreeInv.fresh (exact : env.files.Exact) {puts : List (Nat × V)}
    (latest : boundTo env t look key = latestPut puts key)
    (attack : ∀ file ∈ treeFiles t, Attack sealer env.files tampered file)
    (guarded : Guarded env sealer tampered t key) : Fresh env sealer tampered t puts key := by
  have memtable := inv.memtable.get key
  rw [boundTo] at latest
  unfold Fresh tamperedSearch lsmTreeSearchWith
  cases held : (rbtreeMemtableGetAllEntry env.tree t.memtable).lookup key with
  | some record =>
    rw [held] at memtable latest
    simp only [memtable, orNoData]
    refine ⟨0, fun _ _ => trivial, fun val returned => ?_⟩
    rw [← latest, ← Except.ok.inj returned]
    rfl
  | none =>
    rw [held] at memtable latest
    rcases guarded with ⟨val, inMemtable⟩ | ⟨large, stands⟩
    · rw [memtable] at inMemtable
      cases inMemtable
    · obtain ⟨limit, ends⟩ := TreeInv.probes_end inv exact attack large
      simp only [memtable, orNoData]
      refine ⟨max limit builderHeight, fun bound enough => ?_, fun val returned => ?_⟩
      · apply searchLevels_congr
        intro file member
        rw [ends bound (le_of_max_le_left enough) file member key,
          ends _ (le_max_left _ _) file member key]
      · obtain ⟨best, searched, newest⟩ := TreeInv.tampered_newest inv exact attack large
          (max limit builderHeight)
        rw [searched] at returned
        obtain rfl := orNoData_eq_ok.mp returned
        rw [← latest, none_or]
        exact TreeInv.look_of_answered inv exact attack large stands (le_max_right _ _) newest

end

/-- Freshness, over every run of puts whose keys the memtable can order: whatever
the adversary does to the index region, a search for a key that is guarded returns
the record of the latest put or an error. -/
theorem fresh_of_guarded (env : LsmEnv R H S V) (exact : env.files.Exact) (cap : Nat)
    (stats : Nat → FileStat S) (puts : List (Nat × V))
    (safe : PutsMeet env (PutSafe env cap) (lsmTreeCreate env cap stats) puts)
    {last : LsmTree R S} (ran : runPuts env (lsmTreeCreate env cap stats) puts = some last)
    (sealer : Sealer S K I M G V) (tampered : Tampered S M G V)
    (attack : ∀ file ∈ treeFiles last, Attack sealer env.files tampered file) (key : Nat)
    (guarded : Guarded env sealer tampered last key) :
    Fresh env sealer tampered last puts key := by
  have start := treeInv_lsmTreeCreate env cap stats
  obtain ⟨job, look, inv, -, bound⟩ :=
    (start.runPuts exact.faithful (Nat.succ_pos _) safe).meets last ran
  have latest : boundTo env last look key = latestPut puts key := by
    have nothing : boundTo env (lsmTreeCreate env cap stats) (fun _ => none) key = none :=
      congrFun (boundTo_init _ rfl) key
    rw [bound key, nothing, or_none]
  exact TreeInv.fresh inv exact latest attack guarded

section

variable {aead : IdealAead K I M (Node K I V) G} {torn : Region M G}

/-- A region in which only the nodes of one file are left, where they belong. -/
def recordedRegion (aead : IdealAead K I M (Node K I V) G) (torn : Region M G)
    (log : List (SealedNode K I V)) : Region M G := fun pos isLeaf =>
  match log.find? fun made => decide (made.pointer.pos = pos ∧ made.node.isLeaf = isLeaf) with
  | some made => nodeEncode aead made.node made.pointer.key made.pointer.iv
  | none => torn pos isLeaf

theorem intact_recordedRegion {lo hi : Nat} {nodes : List (Nat × SealedNode K I V)}
    (laid : Laid lo hi nodes) :
    Intact aead (recordedRegion aead torn (nodes.map Prod.snd)) (nodes.map Prod.snd) := by
  intro made member
  unfold recordedRegion
  cases found : (nodes.map Prod.snd).find? fun other =>
      decide (other.pointer.pos = made.pointer.pos ∧ other.node.isLeaf = made.node.isLeaf) with
  | none =>
    have missed := find?_eq_none.mp found made member
    simp at missed
  | some other =>
    have hit := find?_some found
    have samePos := (of_decide_eq_true hit).1
    obtain ⟨left, inLeft, rfl⟩ := mem_map.mp member
    obtain ⟨right, inRight, rfl⟩ := mem_map.mp (mem_of_find?_eq_some found)
    by_cases same : left = right
    · rw [same]
    · have symmetric : Std.Symm fun a b : Nat × SealedNode K I V =>
          behind a ≤ b.1 ∨ behind b ≤ a.1 := ⟨fun _ _ first => first.symm⟩
      have apart := laid.apart.forall inLeft inRight same
      rw [← laid.recorded left inLeft, ← laid.recorded right inRight] at samePos
      have leftPositive := nodeLen_pos left.2.node.isLeaf
      have rightPositive := nodeLen_pos right.2.node.isLeaf
      simp only [behind] at apart
      omega

end

def versionSealer : Sealer (List (Nat × Nat)) (Nat × Nat) Unit
    ((Nat × Nat) × Unit × Nat × Node (Nat × Nat) Unit Nat) (Node (Nat × Nat) Unit Nat) Nat where
  aead := transparentAead (Nat × Nat) Unit (Node (Nat × Nat) Unit Nat)
  draw file n := ((file.version, n + 1), ())
  blank := ((0, 0), ())
  start := 0

def leaveOnly (file : FileStat (List (Nat × Nat))) : Tampered (List (Nat × Nat))
    ((Nat × Nat) × Unit × Nat × Node (Nat × Nat) Unit Nat) (Node (Nat × Nat) Unit Nat) Nat where
  region := recordedRegion versionSealer.aead
    (fun _ _ => (.inner [], ((0, 0), (), 1, .inner [])))
    (fileLog versionSealer (listFiles Nat) file)
  filterBits := fun other => (fileImage versionSealer (listFiles Nat) other).filter
  cachedLeaf := fun _ => []

section

variable {file other : FileStat (List (Nat × Nat))}

theorem leaveOnly_opens {pos : Nat} {isLeaf : Bool} {key : Nat × Nat} {iv : Unit}
    {node : Node (Nat × Nat) Unit Nat}
    (opens :
      nodeDecode versionSealer.aead ((leaveOnly file).region pos isLeaf) key iv = some node) :
    ∃ made ∈ fileLog versionSealer (listFiles Nat) file,
      made.pointer.secret = (key, iv) ∧ made.node = node := by
  unfold leaveOnly recordedRegion at opens
  simp only at opens
  split at opens
  · rename_i made found
    refine ⟨made, mem_of_find?_eq_some found, ?_⟩
    have tagged := (ite_none_right_eq_some.mp opens)
    simp only [versionSealer, transparentAead, nodeEncode, Prod.mk.injEq] at tagged
    obtain ⟨⟨keyEq, -, -, -⟩, nodeEq⟩ := tagged
    exact ⟨Prod.ext keyEq rfl, some.inj nodeEq⟩
  · have tagged := (ite_none_right_eq_some.mp opens).1
    simp at tagged

theorem secret_of_mem_fileLog
    (held : FileHolds (listFiles Nat) file (fileEntries (listFiles Nat) file))
    {made : SealedNode (Nat × Nat) Unit Nat}
    (member : made ∈ fileLog versionSealer (listFiles Nat) file) :
    ∃ n, made.pointer.secret = versionSealer.draw file n := by
  obtain ⟨done, out, top, finished⟩ := fileFinished_holds versionSealer held
  rw [fileLog, finished.log_eq] at member
  exact finished.tree.nodesDrawn made member

theorem versionSealer_fresh (file : FileStat (List (Nat × Nat))) :
    Function.Injective (versionSealer.draw file) := by
  intro n m equal
  simpa [versionSealer] using equal

variable (held : FileHolds (listFiles Nat) file (fileEntries (listFiles Nat) file))
include held

theorem attack_leaveOnly (same : other.version = file.version → other = file) :
    Attack versionSealer (listFiles Nat) (leaveOnly file) other := by
  refine ⟨versionSealer_fresh other, ?_, fun entry member => absurd member not_mem_nil⟩
  intro pos isLeaf n node opens
  obtain ⟨made, member, secret, nodeEq⟩ := leaveOnly_opens opens
  obtain ⟨m, drawnAt⟩ := secret_of_mem_fileLog held member
  have versions : other.version = file.version := by
    have equal := secret.symm.trans drawnAt
    exact congrArg (fun pair => pair.1.1) equal
  rw [same versions]
  exact ⟨made, member, by rw [secret, same versions], nodeEq⟩

theorem untouched_leaveOnly : Untouched versionSealer (listFiles Nat) (leaveOnly file) file := by
  refine ⟨?_, fun i set => set⟩
  obtain ⟨done, out, top, finished⟩ := fileFinished_holds versionSealer held
  have logEq : fileLog versionSealer (listFiles Nat) file = out.placed.map Prod.snd :=
    finished.log_eq
  unfold leaveOnly
  rw [logEq]
  exact intact_recordedRegion finished.tree.laid

theorem tamperedProbe_destroyed
    (otherHeld : FileHolds (listFiles Nat) other (fileEntries (listFiles Nat) other))
    (large : bitLeafLen ≤ (fileEntries (listFiles Nat) other).length)
    (differ : other.version ≠ file.version) (bound key : Nat) :
    tamperedProbe versionSealer (listFiles Nat) (leaveOnly file) bound other key =
      .error .enodata := by
  obtain ⟨-, n, root⟩ := root_drawn versionSealer (leaveOnly file) otherHeld large
  refine fileSearch_of_unopened ?_ rfl bound key
  rw [eq_none_iff_forall_ne_some]
  intro node opens
  obtain ⟨made, member, secret, -⟩ := leaveOnly_opens opens
  obtain ⟨m, drawnAt⟩ := secret_of_mem_fileLog held member
  have equal : versionSealer.draw other n = versionSealer.draw file m :=
    root.symm.trans (secret.symm.trans drawnAt)
  exact differ (congrArg (fun pair => pair.1.1) equal)

end

/-- Every key below `count` is written, and then written again. -/
def overwriteAll (count : Nat) : List (Nat × Nat) :=
  filling 0 count 1 ++ filling 0 count 2

structure TwoRounds (count : Nat) (last : LsmTree (BinaryTree (Nat × Nat)) (List (Nat × Nat)))
    (older newer : FileStat (List (Nat × Nat))) : Prop where
  safe : PutsMeet listEnv (PutSafe listEnv count) (listTree count) (overwriteAll count)
  ran : runPuts listEnv (listTree count) (overwriteAll count) = some last
  inv : ∃ job look, TreeInv listEnv count last job look
  files : (treeFiles last).Perm [newer, older]
  olderEntries : fileEntries (listFiles Nat) older = filling 0 count 1
  newerEntries : fileEntries (listFiles Nat) newer = filling 0 count 2
  versions : older.version < newer.version
  memtable : last.memtable = rbtreeMemtableInit listEnv.tree

theorem exists_twoRounds (full : count = defaultLsmFileCapacity) :
    ∃ last older newer, TwoRounds count last older newer := by
  obtain ⟨safe1, middle, older, ran1, built1, stacked1, -, older_lt⟩ :=
    (stacked_listTree count).round full (Nat.succ_pos _) 1
  obtain ⟨safe2, last, newer, ran2, built2, stacked2, newer_eq, -⟩ :=
    stacked1.round full (Nat.lt_of_sub_eq_succ rfl) 2
  have safe : PutsMeet listEnv (PutSafe listEnv count) (listTree count) (overwriteAll count) := by
    refine putsMeet_append safe1 fun next ranNext => ?_
    obtain rfl := some.inj (ran1.symm.trans ranNext)
    exact safe2
  have ran : runPuts listEnv (listTree count) (overwriteAll count) = some last := by
    rw [overwriteAll, runPuts_append, ran1, bind_some, ran2]
  have start := treeInv_lsmTreeCreate listEnv count fun id => ⟨id, 0, 0, 0, 0, []⟩
  obtain ⟨job, look, inv, -⟩ :=
    (start.runPuts listFiles_exact.faithful (Nat.succ_pos _) safe).meets last ran
  obtain ⟨files, perm, levels⟩ := stacked2.levels
  refine ⟨last, older, newer, safe, ran, ⟨job, look, inv⟩, ?_,
    congrArg (Option.getD · []) (congrArg some built1.store_eq),
    congrArg (Option.getD · []) (congrArg some built2.store_eq),
    newer_eq ▸ older_lt, stacked2.fresh⟩
  rw [treeFiles, levels]
  simp only [levelZero, bitLevelInit, flatMap_cons, flatMap_nil, append_nil]
  exact perm

theorem latestPut_overwriteAll (positive : 0 < count) :
    latestPut (overwriteAll count) 0 = some 2 := by
  have reversed : (filling 0 count 2).reverse.lookup 0 = some 2 := by
    cases found : (filling 0 count 2).reverse.lookup 0 with
    | none =>
      exact absurd rfl (ne_of_lookup_eq_none found (0, 2)
        (mem_reverse.mpr (zero_mem_filling positive 2)))
    | some val =>
      obtain ⟨before, after, split, -⟩ := lookup_eq_some_iff.mp found
      have member : (0, val) ∈ (filling 0 count 2).reverse := by
        rw [split]
        exact mem_append_right _ mem_cons_self
      rw [← (mem_filling (mem_reverse.mp member)).2]
  rw [latestPut, overwriteAll, reverse_append, lookup_append, reversed]
  rfl

section

variable {last : LsmTree (BinaryTree (Nat × Nat)) (List (Nat × Nat))}
  {older newer : FileStat (List (Nat × Nat))} (rounds : TwoRounds count last older newer)
include rounds

theorem TwoRounds.held : ∀ file ∈ treeFiles last,
    FileHolds (listFiles Nat) file (fileEntries (listFiles Nat) file) := by
  obtain ⟨job, look, inv⟩ := rounds.inv
  rw [TreeInv.treeFiles_eq inv]
  exact fun file member => (inv.disk.sound file member).held listFiles_exact

theorem TwoRounds.large (full : count = defaultLsmFileCapacity) :
    ∀ file ∈ treeFiles last, bitLeafLen ≤ (fileEntries (listFiles Nat) file).length := by
  have enough : bitLeafLen ≤ count := by
    rw [full]
    decide
  intro file member
  rcases mem_pair.mp (rounds.files.mem_iff.mp member) with rfl | rfl
  · rw [rounds.newerEntries, length_filling]
    exact enough
  · rw [rounds.olderEntries, length_filling]
    exact enough

theorem TwoRounds.attack {kept : FileStat (List (Nat × Nat))} (isFile : kept ∈ treeFiles last) :
    ∀ file ∈ treeFiles last, Attack versionSealer (listFiles Nat) (leaveOnly kept) file := by
  have versions := rounds.versions
  intro file member
  refine attack_leaveOnly (rounds.held kept isFile) fun same => ?_
  rcases mem_pair.mp (rounds.files.mem_iff.mp member) with rfl | rfl
  · rcases mem_pair.mp (rounds.files.mem_iff.mp isFile) with rfl | rfl
    · rfl
    · omega
  · rcases mem_pair.mp (rounds.files.mem_iff.mp isFile) with rfl | rfl
    · omega
    · rfl

theorem TwoRounds.newer_mem : newer ∈ treeFiles last :=
  rounds.files.mem_iff.mpr mem_cons_self

theorem TwoRounds.older_mem : older ∈ treeFiles last :=
  rounds.files.mem_iff.mpr (mem_cons_of_mem _ mem_cons_self)

theorem TwoRounds.guarded (full : count = defaultLsmFileCapacity) :
    Guarded listEnv versionSealer (leaveOnly newer) last 0 := by
  have positive : 0 < count := by
    rw [full]
    exact Nat.succ_pos _
  refine .inr ⟨rounds.large full, .inr ⟨newer, rounds.newer_mem, ⟨2, ?_⟩, ?_,
    untouched_leaveOnly (rounds.held newer rounds.newer_mem)⟩⟩
  · change (0, 2) ∈ fileEntries (listFiles Nat) newer
    rw [rounds.newerEntries]
    exact zero_mem_filling positive 2
  · intro other member _
    rcases mem_pair.mp (rounds.files.mem_iff.mp member) with rfl | rfl
    · exact le_rfl
    · exact rounds.versions.le

theorem TwoRounds.stale (full : count = defaultLsmFileCapacity) (enough : builderHeight ≤ bound) :
    tamperedSearch listEnv versionSealer (leaveOnly older) bound last 0 = .ok 1 := by
  obtain ⟨job, look, inv⟩ := rounds.inv
  have olderHeld := rounds.held older rounds.older_mem
  have newerHeld := rounds.held newer rounds.newer_mem
  have attack := rounds.attack rounds.older_mem
  have positive : 0 < count := by
    rw [full]
    exact Nat.succ_pos _
  have whole : (fileEntries (listFiles Nat) older).length % bitLeafLen = 0 := by
    rw [rounds.olderEntries, length_filling, full]
    decide
  have answers : tamperedProbe versionSealer (listFiles Nat) (leaveOnly older) bound older 0 =
      .ok 1 := by
    have held : (0, 1) ∈ fileEntries (listFiles Nat) older := by
      rw [rounds.olderEntries]
      exact zero_mem_filling positive 1
    rw [tamperedProbe_untouched (attack older rounds.older_mem) (untouched_leaveOnly olderHeld)
      olderHeld whole enough, (lookup_eq_some_iff_mem olderHeld.ascending).mpr held]
    rfl
  have silent := tamperedProbe_destroyed olderHeld newerHeld
    (rounds.large full newer rounds.newer_mem) rounds.versions.ne' bound 0
  obtain ⟨best, searched, newest⟩ := TreeInv.tampered_newest inv listFiles_exact attack
    (rounds.large full) bound
  have missed : rbtreeMemtableGet listEnv.tree last.memtable 0 = .error .enodata := by
    rw [rounds.memtable]
    rfl
  unfold tamperedSearch lsmTreeSearchWith
  rw [missed]
  refine Eq.trans searched ?_
  cases best with
  | none => exact absurd ⟨older, rounds.older_mem, rfl, answers⟩ (newest older.version 1)
  | some val =>
    obtain ⟨version, ⟨file, member, -, found⟩, -⟩ := newest
    rcases mem_pair.mp (rounds.files.mem_iff.mp member) with rfl | rfl
    · exact absurd (silent.symm.trans found) nofun
    · obtain rfl : 1 = val := Except.ok.inj (answers.symm.trans found)
      rfl

end

/-- Every key of a device of 1024 segments is written twice; the older file is
destroyed, and the newer one still answers. -/
theorem fresh_when_older_destroyed :
    ∃ count last older newer, count = defaultLsmFileCapacity ∧ TwoRounds count last older newer ∧
      Fresh listEnv versionSealer (leaveOnly newer) last (overwriteAll count) 0 := by
  obtain ⟨count, full⟩ : ∃ count, count = defaultLsmFileCapacity := ⟨_, rfl⟩
  obtain ⟨last, older, newer, rounds⟩ := exists_twoRounds full
  exact ⟨count, last, older, newer, full, rounds, fresh_of_guarded listEnv listFiles_exact count _ _
    rounds.safe rounds.ran versionSealer (leaveOnly newer) (rounds.attack rounds.newer_mem) 0
    (rounds.guarded full)⟩

/-- The newer file is destroyed instead, and a search returns the overwritten
record as a success. -/
theorem not_fresh_when_newer_destroyed :
    ∃ count last older newer, count = defaultLsmFileCapacity ∧ TwoRounds count last older newer ∧
      (∀ file ∈ treeFiles last, Attack versionSealer listEnv.files (leaveOnly older) file) ∧
      ¬ Fresh listEnv versionSealer (leaveOnly older) last (overwriteAll count) 0 := by
  obtain ⟨count, full⟩ : ∃ count, count = defaultLsmFileCapacity := ⟨_, rfl⟩
  obtain ⟨last, older, newer, rounds⟩ := exists_twoRounds full
  refine ⟨count, last, older, newer, full, rounds, rounds.attack rounds.older_mem, ?_⟩
  rintro ⟨limit, ends, latest⟩
  have stale := rounds.stale full (le_max_right limit builderHeight)
  rw [ends _ (le_max_left _ _)] at stale
  have wrong := latest 1 stale
  have positive : 0 < count := by
    rw [full]
    exact Nat.succ_pos _
  rw [latestPut_overwriteAll positive] at wrong
  cases wrong

end SwornDisk.C.Bit
