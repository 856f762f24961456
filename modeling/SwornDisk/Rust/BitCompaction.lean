import SwornDisk.Rust.BitMerge

/-!
# Compaction of block index tables

`BIT::from_compaction` writes the leaf block at hand when the inputs are used up, also when
it is empty.  The range of an empty leaf block ends before it begins, which the assertions of
`push` reject as soon as the block is handed to one that has children.  So the compaction
panics whenever the number of distinct addresses fills whole leaf blocks.
-/

namespace SwornDisk.Rust

open Lib List Program Option

variable {lowest start fuel : Nat} {kernel : Kernel} {s : IndexStore}
  {indirect : Bit.IndirectLevels} {iterators : List BitIterator} {leaf : LeafBlock}

/-! ## The empty leaf block -/

def emptyRange : Nat × Nat := (u64Max, 0)

/-- The block of a level has one child with the range of an empty block, and one of the
levels above has children. -/
structure Poisoned (level : Nat) (indirect : Bit.IndirectLevels) : Prop where
  here : ∃ record, indirect[level]? = some ⟨1, [⟨emptyRange, record⟩]⟩
  above : ∃ i < level, ∃ block, indirect[i]? = some block ∧ 0 < block.count
  counted : ∀ i < level, ∀ block, indirect[i]? = some block →
    block.count = block.children.length

variable {block : IndirectBlock}

theorem push_emptyRange (positive : 0 < block.count) (record : Record) :
    block.push ⟨emptyRange, record⟩ = .error .panic := by
  have reversed : assertTrue (decide (emptyRange.1 ≤ emptyRange.2)) = .error .panic := by decide
  have rejected : block.checkOrder ⟨emptyRange, record⟩ = .error .panic := by
    unfold IndirectBlock.checkOrder
    rw [if_pos positive]
    cases found : block.children[block.count - 1]? with
    | none =>
      unfold childAt
      rw [found]
      rfl
    | some last =>
      rw [childAt_eq found, ok_bind]
      unfold assertTrue
      split
      · exact reversed
      · rfl
  unfold IndirectBlock.push
  rw [rejected]
  rfl

variable {records : List LeafRecord}

section

variable {level : Nat}

/-- The last `pushup_indirect_block` hands the empty block on until an assertion trips. -/
theorem Poisoned.pushup (poisoned : Poisoned level indirect) :
    wp (Bit.pushupIndirectBlock kernel true level indirect) (fun _ _ => False)
      (fun _ _ => True) s := by
  induction level generalizing indirect s with
  | zero =>
    obtain ⟨i, less, -⟩ := poisoned.above
    exact absurd less (Nat.not_lt_zero _)
  | succ level ih =>
    obtain ⟨record, here⟩ := poisoned.here
    have range : (⟨1, [⟨emptyRange, record⟩]⟩ : IndirectBlock).getLbaRange = .ok emptyRange := rfl
    rw [Bit.pushupIndirectBlock, childAt_eq here, wp_ok_bind,
      Bool.true_or, if_pos rfl, if_neg Nat.one_ne_zero, wp_bind]
    unfold Bit.carryNode
    rw [range, wp_ok_bind]
    refine wp_seq wp_trivial (fun below s' _ => ?_) fun _ _ _ => trivial
    refine wp_seqExcept (fun parent found => ?_) fun _ _ => trivial
    have parentHere := childAt_ok found
    rw [wp_bind]
    by_cases positive : 0 < parent.count
    · rw [push_emptyRange positive, wp_ofExcept_error]
      trivial
    · refine wp_ofExcept (fun parent' pushed => ?_) fun _ _ => trivial
      have empty : parent.children = [] := by
        refine length_eq_zero_iff.mp ?_
        have counted := poisoned.counted level (Nat.lt_succ_self _) parent parentHere
        omega
      have parent'_eq : parent' = ⟨1, [⟨emptyRange, below⟩]⟩ := by
        rw [IndirectBlock.push_ok pushed, empty, Nat.eq_zero_of_not_pos positive]
        rfl
      rw [wp_pure]
      have bound := (List.getElem?_eq_some_iff.mp parentHere).1
      have bound' := (List.getElem?_eq_some_iff.mp here).1
      -- the levels above are as they were, so one of them still has children
      have kept : ∀ i < level, ((indirect.set level parent').set (level + 1)
          IndirectBlock.default)[i]? = indirect[i]? := fun i less => by
        rw [getElem?_set_ne (by omega), getElem?_set_ne (by omega)]
      refine ih ⟨⟨below, ?_⟩, ?_, fun i less block isBlock => ?_⟩
      · rw [getElem?_set_ne (by omega), getElem?_set_self bound, parent'_eq]
      · obtain ⟨i, less, block, isBlock, some'⟩ := poisoned.above
        have other : i ≠ level := by
          rintro rfl
          obtain rfl := some.inj (parentHere.symm.trans isBlock)
          exact positive some'
        exact ⟨i, by omega, block, (kept i (by omega)).trans isBlock, some'⟩
      · rw [kept i less] at isBlock
        exact poisoned.counted i (by omega) block isBlock

theorem Poisoned.finish (poisoned : Poisoned lowest indirect) (size : Nat) :
    wp (Bit.finish kernel (lowest + 2) size indirect) (fun _ _ => False)
      (fun _ _ => True) s := by
  unfold Bit.finish
  rw [Nat.add_sub_cancel]
  exact wp_seq poisoned.pushup (fun _ _ impossible => impossible.elim) fun _ _ _ => trivial

theorem pushup_notFull (here : indirect[level]? = some block) (notFull : block.isFull = false) :
    (Bit.pushupIndirectBlock kernel false level indirect).exec s = (.ok (none, indirect), s) := by
  cases level with
  | zero =>
    unfold Bit.pushupIndirectBlock
    rw [childAt_eq here, exec_bind, exec_ofExcept]
    simp only [notFull, Bool.or_false, Bool.false_eq_true, if_false, exec_pure]
  | succ level =>
    rw [Bit.pushupIndirectBlock, childAt_eq here, exec_bind, exec_ofExcept]
    simp only [notFull, Bool.or_false, Bool.false_eq_true, if_false, exec_pure]

theorem writebackLeaf_empty {leaves : Nat}
    (growing : Growing s.written lowest indirect records leaves) (some' : 0 < leaves) :
    wp (Bit.writebackLeaf kernel (lowest + 2) LeafBlock.default indirect)
      (fun indirect' _ => Poisoned lowest indirect') (fun _ _ => True) s := by
  obtain ⟨levels, holds, -, weight, -⟩ := growing
  obtain ⟨block, found, children⟩ := holds lowest le_rfl
  have range : LeafBlock.default.getLbaRange = .ok emptyRange := rfl
  unfold Bit.writebackLeaf
  rw [range, wp_ok_bind]
  refine wp_seq wp_trivial (fun record s' _ => ?_) fun _ _ _ => trivial
  rw [Nat.add_sub_cancel, childAt_eq found, wp_ok_bind,
    wp_bind]
  by_cases positive : 0 < block.count
  · rw [push_emptyRange positive, wp_ofExcept_error]
    trivial
  · refine wp_ofExcept (fun block' pushed => ?_) fun _ _ => trivial
    have empty : block.children = [] :=
      length_eq_zero_iff.mp (by have counted := children.count; omega)
    have block'_eq : block' = ⟨1, [⟨emptyRange, record⟩]⟩ := by
      rw [IndirectBlock.push_ok pushed, empty, Nat.eq_zero_of_not_pos positive]
      rfl
    have bound := (List.getElem?_eq_some_iff.mp found).1
    have here : (indirect.set lowest block')[lowest]? = some ⟨1, [⟨emptyRange, record⟩]⟩ := by
      rw [getElem?_set_self bound, block'_eq]
    rw [wp_bind]
    refine wp_of_ok (pushup_notFull here rfl)
      ⟨⟨record, here⟩, ?_, fun i less other isOther => ?_⟩
    · obtain ⟨i, within, nonempty⟩ := Spine.exists_ne_nil_of_weight (weight ▸ some')
      obtain ⟨other, isOther, otherChildren⟩ := holds i within
      have length := length_pos_iff.mpr nonempty
      rw [← otherChildren.length] at length
      have differ : i ≠ lowest := by
        rintro rfl
        obtain rfl := some.inj (found.symm.trans isOther)
        exact positive length
      exact ⟨i, by omega, other, by rwa [getElem?_set_ne (Ne.symm differ)], length⟩
    · rw [getElem?_set_ne (by omega)] at isOther
      obtain ⟨held, isHeld, heldChildren⟩ := holds i less.le
      obtain rfl := some.inj (isHeld.symm.trans isOther)
      exact heldChildren.count

end

/-! ## The merge loop -/

variable {s' : IndexStore}

theorem laterDevices_subset {s : IndexStore} (grows : Grows s s') :
    laterDevices s' ⊆ laterDevices s := by
  rintro metaDev ⟨s'', later, same⟩
  exact ⟨s'', grows.trans later, same⟩

/-- What is still to be merged: ascending sources behind the records so far. -/
structure Behind (records : List LeafRecord) (sources : List (List LeafRecord)) : Prop where
  ordered : Ordered records
  words : ∀ record ∈ records, record.Words
  ascending : ∀ source ∈ sources, Ordered source
  sourceWords : ∀ source ∈ sources, ∀ record ∈ source, record.Words
  above : ∀ record ∈ records, ∀ source ∈ sources, ∀ later ∈ source, record.lba < later.lba

variable {record : LeafRecord}

theorem Behind.round {sources : List (List LeafRecord)} (behind : Behind records sources)
    (least : ∀ source ∈ sources, ∀ other ∈ source, record.lba ≤ other.lba)
    {source : List LeafRecord} (isSource : source ∈ sources) (member : record ∈ source) :
    Behind (records ++ [record])
      (sources.map (HeadMerge.dropLeast LeafRecord.lba record.lba)) := by
  have kept : ∀ dropped ∈ sources.map (HeadMerge.dropLeast LeafRecord.lba record.lba),
      ∀ other ∈ dropped, ∃ source ∈ sources, other ∈ source ∧ other.lba ≠ record.lba := by
    intro dropped isDropped other inside
    obtain ⟨source, isSource, rfl⟩ := mem_map.mp isDropped
    have both := (HeadMerge.mem_dropLeast (behind.ascending source isSource)
      (least source isSource)).mp inside
    exact ⟨source, isSource, both.1, both.2⟩
  constructor
  · refine pairwise_append.mpr ⟨behind.ordered, pairwise_singleton _ _, ?_⟩
    intro left inRecords right isRecord
    obtain rfl := mem_singleton.mp isRecord
    exact behind.above left inRecords source isSource right member
  · intro other inside
    rcases mem_append.mp inside with old | new
    · exact behind.words other old
    · rw [mem_singleton.mp new]
      exact behind.sourceWords source isSource record member
  · intro dropped isDropped
    obtain ⟨source, isSource, rfl⟩ := mem_map.mp isDropped
    have ascending : HeadMerge.Ascending LeafRecord.lba source := behind.ascending source isSource
    exact ascending.dropLeast
  · intro dropped isDropped other inside
    obtain ⟨source, isSource, inSource, -⟩ := kept dropped isDropped other inside
    exact behind.sourceWords source isSource other inSource
  · intro earlier inside dropped isDropped later inDropped
    obtain ⟨source, isSource, inSource, differ⟩ := kept dropped isDropped later inDropped
    rcases mem_append.mp inside with old | new
    · exact behind.above earlier old source isSource later inSource
    · rw [mem_singleton.mp new]
      exact Nat.lt_of_le_of_ne (least source isSource later inSource) differ.symm

/-- The state of the merge loop: `done` is in full leaf blocks, the block at hand is not full. -/
structure Merging (kernel : Kernel) (start lowest total : Nat) (devices : Set Device)
    (s : IndexStore) (iterators : List BitIterator) (nodes : List (Option LeafRecord))
    (sources : List (List LeafRecord)) (realSize : Nat) (leaf : LeafBlock)
    (indirect : Bit.IndirectLevels) (done : List LeafRecord) (leaves : Nat) : Prop where
  placement : Placement kernel start s
  later : laterDevices s ⊆ devices
  growing : Growing s.written lowest indirect done leaves
  doneLength : done.length = leaves * leafBlockChildren
  count : leaf.count = leaf.children.length
  few : leaf.children.length < leafBlockChildren
  size : realSize = done.length + leaf.children.length
  sourced : Sources kernel devices iterators nodes sources
  behind : Behind (done ++ leaf.children) sources
  fits : realSize + sources.flatten.length ≤ total

variable {baseline : Bit.Baseline} {metaDev : Device} {s'' : IndexStore}
  {sources' : List (List LeafRecord)}

section

variable {total realSize leaves : Nat} {devices : Set Device} {nodes : List (Option LeafRecord)}
  {sources : List (List LeafRecord)} {done : List LeafRecord}

/-- What the loop leaves when it returns: the levels hold the merge of the sources, unless
the last leaf block was empty. -/
def MergeEnded (kernel : Kernel) (start lowest : Nat) (s : IndexStore)
    (sources : List (List LeafRecord)) (realSize : Nat) (records : List LeafRecord)
    (result : Option (Nat × Bit.IndirectLevels)) (s' : IndexStore) : Prop :=
  ∃ out indirect', HeadMerge.IsMerge LeafRecord.lba sources out ∧
    result = some (realSize + out.length, indirect') ∧
    (¬ leafBlockChildren ∣ realSize + out.length → Assembled kernel start s s' ∧
      Behind (records ++ out) [] ∧
      ∃ leaves' ≤ indirectBlockChildren ^ (lowest + 1),
        Growing s'.written lowest indirect' (records ++ out) leaves') ∧
    (leafBlockChildren ∣ realSize + out.length → 0 < realSize + out.length →
      Poisoned lowest indirect')

def MergeStopped (s : IndexStore) (sources : List (List LeafRecord)) (realSize : Nat)
    (s' : IndexStore) : Prop :=
  Overflowed s s' ∨ ∃ out, HeadMerge.IsMerge LeafRecord.lba sources out ∧
    leafBlockChildren ∣ realSize + out.length

theorem Behind.forget (behind : Behind records sources) :
    Behind records [] :=
  ⟨behind.ordered, behind.words, fun _ none' => (not_mem_nil none').elim,
    fun _ none' => (not_mem_nil none').elim, fun _ _ _ none' => (not_mem_nil none').elim⟩

section

variable (merging : Merging kernel start lowest total devices s iterators nodes sources realSize
  leaf indirect done leaves)
  (capacity : total < leafBlockChildren * indirectBlockChildren ^ (lowest + 1))
include merging

include capacity in
theorem Merging.leaves_lt : leaves < indirectBlockChildren ^ (lowest + 1) := by
  have below : leaves * leafBlockChildren ≤ total := by
    have fits := merging.fits
    rw [← merging.doneLength]
    have size := merging.size
    omega
  rw [Nat.mul_comm] at capacity
  exact Nat.lt_of_mul_lt_mul_right (below.trans_lt capacity)

/-- The leaf block at hand is empty exactly when the records so far fill whole blocks. -/
theorem Merging.dvd_iff : leafBlockChildren ∣ realSize ↔ leaf.children = [] := by
  rw [merging.size, merging.doneLength, Nat.dvd_add_right (Nat.dvd_mul_left _ _)]
  constructor
  · intro divides
    by_contra nonempty
    exact absurd (Nat.le_of_dvd (length_pos_iff.mpr nonempty) divides)
      (Nat.not_le_of_lt merging.few)
  · rintro empty
    rw [empty]
    exact Nat.dvd_zero _

include capacity in
theorem Merging.last (usedUp : ∀ source ∈ sources, source = []) :
    wp (Bit.writebackLeaf kernel (lowest + 2) leaf indirect)
      (fun indirect' s' => MergeEnded kernel start lowest s sources realSize (done ++ leaf.children)
        (some (realSize, indirect')) s')
      (fun _ s' => MergeStopped s sources realSize s') s := by
  have merged : HeadMerge.IsMerge LeafRecord.lba sources [] := HeadMerge.isMerge_nil usedUp
  by_cases empty : leaf.children = []
  · have divides := merging.dvd_iff.mpr empty
    have stopped : ∀ s', MergeStopped s sources realSize s' := fun _ => .inr ⟨[], merged, divides⟩
    have isDefault : leaf = LeafBlock.default := by
      have count := merging.count
      cases leaf
      simp only at empty count
      rw [count, empty]
      rfl
    have ended : ∀ indirect' s', (0 < realSize → Poisoned lowest indirect') →
        MergeEnded kernel start lowest s sources realSize (done ++ leaf.children)
          (some (realSize, indirect')) s' := fun indirect' _ poisoned =>
      ⟨[], indirect', merged, rfl, fun indivisible => absurd divides indivisible,
        fun _ => poisoned⟩
    rcases Nat.eq_zero_or_pos leaves with none' | some'
    · have zero : realSize = 0 := by
        rw [merging.size, merging.doneLength, none', empty, Nat.zero_mul]
        rfl
      exact wp_mono wp_trivial
        (fun indirect' s' _ => ended indirect' s' fun positive => absurd positive (by omega))
        fun _ s' _ => stopped s'
    · rw [isDefault] at ended ⊢
      exact wp_mono (writebackLeaf_empty merging.growing some')
        (fun indirect' s' poisoned => ended indirect' s' fun _ => poisoned) fun _ s' _ => stopped s'
  · have indivisible : ¬ leafBlockChildren ∣ realSize := fun divides =>
      empty (merging.dvd_iff.mp divides)
    refine wp_mono (writebackLeaf_growing merging.placement merging.growing
      (merging.leaves_lt capacity) merging.count empty merging.few.le merging.behind.ordered
      merging.behind.words) (fun indirect' s' after => ?_) fun _ _ overflowed => .inl overflowed
    refine ⟨[], indirect', merged, rfl, fun _ => ⟨after.1, ?_, leaves + 1,
      merging.leaves_lt capacity, ?_⟩, fun divides => absurd divides indivisible⟩
    · rw [append_nil]
      exact merging.behind.forget
    · rw [append_nil]
      exact after.2

theorem Merging.round (isBaseline : IsBaseline nodes baseline) :
    Behind (done ++ (leaf.children ++ [baseline.record]))
        (sources.map (HeadMerge.dropLeast LeafRecord.lba baseline.record.lba)) ∧
      (sources.map (HeadMerge.dropLeast LeafRecord.lba baseline.record.lba)).flatten.length <
        sources.flatten.length ∧
      ∀ out, HeadMerge.IsMerge LeafRecord.lba
          (sources.map (HeadMerge.dropLeast LeafRecord.lba baseline.record.lba)) out →
        HeadMerge.IsMerge LeafRecord.lba sources (baseline.record :: out) := by
  have least := merging.sourced.baseline_le merging.behind.ascending isBaseline
  obtain ⟨i, isNode, -⟩ := isBaseline.last
  obtain ⟨rest, here⟩ := merging.sourced.node_iff.mp isNode
  have isSource := mem_of_getElem? here
  refine ⟨?_, HeadMerge.length_flatten_dropLeast_lt isSource rfl, fun out merge => ?_⟩
  · rw [← append_assoc]
    exact merging.behind.round least isSource mem_cons_self
  · exact merge.cons merging.behind.ascending least
      (merging.sourced.newestOf_baseline merging.behind.ascending isBaseline)

theorem Merging.advance (isBaseline : IsBaseline nodes baseline) (member : metaDev ∈ devices) :
    ∃ iterators' nodes', Bit.advanceNodes kernel metaDev baseline.duplicates iterators nodes =
        .ok (iterators', nodes') ∧
      Sources kernel devices iterators' nodes'
        (sources.map (HeadMerge.dropLeast LeafRecord.lba baseline.record.lba)) := by
  have moved := advanceNodes_sources merging.sourced member isBaseline.nodup
    (merging.sourced.duplicates_ne_nil isBaseline)
  rwa [merging.sourced.advanced_eq isBaseline] at moved

end

theorem MergeEnded.after {result : Option (Nat × Bit.IndirectLevels)}
    (assembled : Assembled kernel start s s')
    (merge : ∀ out, HeadMerge.IsMerge LeafRecord.lba sources' out →
      HeadMerge.IsMerge LeafRecord.lba sources (record :: out))
    (ended : MergeEnded kernel start lowest s' sources' (realSize + 1) (records ++ [record])
      result s'') :
    MergeEnded kernel start lowest s sources realSize records result s'' := by
  obtain ⟨out, indirect', isMerge, returned, held, poisoned⟩ := ended
  have length : realSize + 1 + out.length = realSize + (record :: out).length := by
    rw [length_cons]
    omega
  rw [length] at returned held poisoned
  rw [append_assoc, singleton_append] at held
  exact ⟨record :: out, indirect', merge out isMerge, returned, fun indivisible =>
    ⟨assembled.trans (held indivisible).1, (held indivisible).2⟩, poisoned⟩

theorem MergeStopped.after (logged : Logged s s')
    (merge : ∀ out, HeadMerge.IsMerge LeafRecord.lba sources' out →
      HeadMerge.IsMerge LeafRecord.lba sources (record :: out))
    (stopped : MergeStopped s' sources' (realSize + 1) s'') :
    MergeStopped s sources realSize s'' := by
  rcases stopped with overflowed | ⟨out, isMerge, divides⟩
  · exact .inl (overflowed.after logged)
  · refine .inr ⟨record :: out, merge out isMerge, ?_⟩
    rwa [length_cons, Nat.add_comm out.length, ← Nat.add_assoc]

/-- The merge loop, by induction on the rounds: each uses up at least one record. -/
theorem mergeLoop_merging
    (merging : Merging kernel start lowest total devices s iterators nodes sources realSize
      leaf indirect done leaves)
    (capacity : total < leafBlockChildren * indirectBlockChildren ^ (lowest + 1))
    (enough : sources.flatten.length < fuel) :
    wp (Bit.mergeLoop kernel (lowest + 2) fuel iterators nodes realSize leaf indirect)
      (fun result s' =>
        MergeEnded kernel start lowest s sources realSize (done ++ leaf.children) result s')
      (fun _ s' => MergeStopped s sources realSize s') s := by
  induction fuel generalizing s iterators nodes sources realSize leaf indirect done leaves with
  | zero => exact absurd enough (Nat.not_lt_zero _)
  | succ fuel ih =>
    have found := findBaseline_nodes nodes
    unfold Bit.mergeLoop
    cases search : Bit.findBaseline nodes 0 none with
    | none =>
      rw [search] at found
      rw [wp_bind]
      exact merging.last capacity (merging.sourced.used_up found)
    | some baseline =>
      rw [search] at found
      have isBaseline : IsBaseline nodes baseline := found
      obtain ⟨behind, fewer, merge⟩ := merging.round isBaseline
      have size := merging.size
      have fits := merging.fits
      have few := merging.few
      let leaf' : LeafBlock := ⟨leaf.count + 1, leaf.children ++ [baseline.record]⟩
      have length' : leaf'.children.length = leaf.children.length + 1 := length_append
      have count' : leaf'.count = leaf'.children.length := by
        rw [length', ← merging.count]
      have all : done ++ leaf'.children = done ++ leaf.children ++ [baseline.record] :=
        (append_assoc ..).symm
      have pushed : leaf.push baseline.record = .ok leaf' :=
        LeafBlock.push_ok merging.count few (pairwise_append.mp behind.ordered).2.1
      simp only
      rw [pushed, wp_ok_bind]
      split
      · next full =>
          have whole : leaf'.children.length = leafBlockChildren := by
            rw [← count']
            exact beq_iff_eq.mp full
          refine wp_seq (writebackLeaf_growing merging.placement merging.growing
            (merging.leaves_lt capacity) count' (by simp [leaf']) whole.le behind.ordered
            behind.words) (fun indirect' s' after => ?_) fun _ _ overflowed => .inl overflowed
          obtain ⟨assembled, growing'⟩ := after
          have later' := (laterDevices_subset assembled.grows).trans merging.later
          obtain ⟨iterators', nodes', advanced, sourced'⟩ :=
            merging.advance isBaseline (later' (metaDev_mem_laterDevices s'))
          rw [wp_bind, wp_get, advanced, wp_ok_bind]
          have none' : done ++ leaf'.children ++ LeafBlock.default.children =
            done ++ leaf'.children := append_nil _
          have next : Merging kernel start lowest total devices s' iterators' nodes' _
              (realSize + 1) LeafBlock.default indirect' (done ++ leaf'.children)
              (leaves + 1) := {
            placement := assembled.placement
            later := later'
            growing := growing'
            doneLength := by
              rw [length_append, merging.doneLength, whole, Nat.succ_mul]
            count := rfl
            few := by decide
            size := by
              change realSize + 1 = (done ++ leaf'.children).length
              rw [length_append]
              omega
            sourced := sourced'
            behind := by rwa [none']
            fits := by omega }
          have run := ih next (by omega)
          rw [none', all] at run
          exact wp_mono run (fun _ _ ended => ended.after assembled merge)
            fun _ _ stopped => stopped.after assembled.logged merge
      · next notFull =>
          have short : leaf'.children.length ≠ leafBlockChildren := by
            intro whole
            refine notFull ?_
            rw [LeafBlock.isFull, count', whole]
            exact beq_self_eq_true _
          obtain ⟨iterators', nodes', advanced, sourced'⟩ :=
            merging.advance isBaseline (merging.later (metaDev_mem_laterDevices s))
          rw [wp_bind, wp_get, advanced, wp_ok_bind]
          have next : Merging kernel start lowest total devices s iterators' nodes' _
              (realSize + 1) leaf' indirect done leaves := {
            merging with
            count := count'
            few := by omega
            size := by omega
            sourced := sourced'
            behind := behind
            fits := by omega }
          have run := ih next (by omega)
          rw [all] at run
          exact wp_mono run
            (fun _ _ ended => ended.after (Assembled.refl merging.placement) merge)
            fun _ _ stopped => stopped.after (Logged.refl s) merge

end

/-! ## Too many levels -/

section

variable {maxLevel : Nat} (deep : indirect.length ≤ maxLevel - 2)
include deep

theorem writebackLeaf_deep :
    wp (Bit.writebackLeaf kernel maxLevel leaf indirect) (fun _ _ => False)
      (fun _ _ => True) s := by
  have missing : childAt indirect (maxLevel - 2) = .error .panic := by
    unfold childAt
    rw [getElem?_eq_none deep]
  unfold Bit.writebackLeaf
  refine wp_seqExcept (fun lbaRange _ => ?_) fun _ _ => trivial
  refine wp_seq wp_trivial (fun record s' _ => ?_) fun _ _ _ => trivial
  rw [missing, wp_bind, wp_ofExcept_error]
  trivial

theorem mergeLoop_deep {fuel realSize : Nat} {nodes : List (Option LeafRecord)} :
    wp (Bit.mergeLoop kernel maxLevel fuel iterators nodes realSize leaf indirect)
      (fun result _ => result = none) (fun _ _ => True) s := by
  induction fuel generalizing s iterators nodes realSize leaf with
  | zero => exact rfl
  | succ fuel ih =>
    unfold Bit.mergeLoop
    split
    · exact wp_seq (writebackLeaf_deep deep) (fun _ _ impossible => impossible.elim)
        fun _ _ _ => trivial
    · refine wp_seqExcept (fun leaf' _ => ?_) fun _ _ => trivial
      split
      · exact wp_seq (writebackLeaf_deep deep) (fun _ _ impossible => impossible.elim)
          fun _ _ _ => trivial
      · rw [wp_bind, wp_get]
        exact wp_seqExcept (fun advanced _ => ih) fun _ _ => trivial

end

/-! ## The table -/

/-- An input of a compaction: the iterator of the table returns these records. -/
structure CompactionInput (kernel : Kernel) (s : IndexStore) (bit : Bit)
    (records : List LeafRecord) : Prop where
  iterator : ∃ iterator, (BitIterator.new kernel s.metaDev bit).outcome = .ok iterator ∧
    Drains kernel (laterDevices s) records iterator
  nonempty : records ≠ []
  ordered : Ordered records
  words : ∀ record ∈ records, record.Words
  counted : records.length ≤ bit.size

/-- A table with every address of the inputs once, under the record of the last input that
has it. -/
structure Bit.Compacts (kernel : Kernel) (metaDev : Device) (bit : Bit)
    (tables : List (List LeafRecord)) (records : List LeafRecord) : Prop where
  merge : HeadMerge.IsMerge LeafRecord.lba tables records
  contains : bit.Contains kernel metaDev records
  size : bit.size = (tables.flatten.map LeafRecord.lba).toFinset.card
  range : Spans bit.record.lbaRange records

section

variable {bits : List Bit} {tables : List (List LeafRecord)}

theorem firstNodes_sources {devices : Set Device} (member : metaDev ∈ devices)
    (drains : Forall₂ (fun iterator records => Drains kernel devices records iterator)
      iterators tables) :
    ∃ iterators' nodes, Bit.firstNodes kernel metaDev iterators = .ok (iterators', nodes) ∧
      Sources kernel devices iterators' nodes tables := by
  induction drains with
  | nil => exact ⟨[], [], rfl, rfl, fun i source here => by cases here⟩
  | @cons iterator records iterators tables drain _ ih =>
    obtain ⟨iterator', returned, sourced⟩ := drain.next member
    obtain ⟨iterators', nodes, others, all⟩ := ih
    refine ⟨iterator' :: iterators', records.head? :: nodes, ?_, ?_, fun i source here => ?_⟩
    · unfold Bit.firstNodes
      rw [returned, ok_bind]
      simp only
      rw [others]
      rfl
    · exact congrArg Nat.succ all.length
    · cases i with
      | zero =>
        obtain rfl := some.inj here
        exact ⟨iterator', _, rfl, rfl, sourced⟩
      | succ i => exact all.each i source here

variable (inputs : List.Forall₂ (CompactionInput kernel s) bits tables)
include inputs

theorem CompactionInput.new : ∃ iterators,
    (bits.mapM fun bit => (BitIterator.new kernel s.metaDev bit).outcome) = .ok iterators ∧
    Forall₂ (fun iterator records => Drains kernel (laterDevices s) records iterator)
      iterators tables := by
  induction inputs with
  | nil => exact ⟨[], rfl, .nil⟩
  | @cons bit records bits tables input _ ih =>
    obtain ⟨iterator, new, drains⟩ := input.iterator
    obtain ⟨iterators, others, all⟩ := ih
    refine ⟨iterator :: iterators, ?_, .cons drains all⟩
    rw [mapM_cons, new, ok_bind, others]
    rfl

theorem CompactionInput.each (member : records ∈ tables) :
    records ≠ [] ∧ Ordered records ∧ ∀ record ∈ records, record.Words := by
  obtain ⟨bit, -, input⟩ := Spine.exists_of_forall₂ inputs.flip member
  exact ⟨input.nonempty, input.ordered, input.words⟩

theorem CompactionInput.length_le :
    tables.flatten.length ≤ (bits.map fun bit => bit.size).sum := by
  induction inputs with
  | nil => exact le_rfl
  | cons input _ ih =>
    rw [flatten_cons, length_append, map_cons, sum_cons]
    exact Nat.add_le_add input.counted ih

theorem CompactionInput.positive (some' : bits ≠ []) :
    0 < (tables.flatten.map LeafRecord.lba).toFinset.card := by
  obtain ⟨bit, bits, rfl⟩ := exists_cons_of_ne_nil some'
  cases inputs with
  | @cons _ records _ tables input _ =>
    obtain ⟨record, rest, rfl⟩ := exists_cons_of_ne_nil input.nonempty
    exact Finset.card_pos.mpr ⟨record.lba, by simp⟩

theorem fromCompaction_eq (fuel : Nat) : ∃ iterators nodes,
    Sources kernel (laterDevices s) iterators nodes tables ∧
    (Bit.fromCompaction kernel fuel bits).exec s =
      (Bit.mergeLoop kernel (maxLevelFor (bits.map fun bit => bit.size).sum) fuel iterators nodes 0
          LeafBlock.default Bit.emptyLevels >>= fun merged =>
        match merged with
        | none => return none
        | some (realSize, indirect) => do
            let bit ← Bit.finish kernel (maxLevelFor (bits.map fun bit => bit.size).sum) realSize
              indirect
            return some bit).exec s := by
  obtain ⟨iterators, new, drains⟩ := CompactionInput.new inputs
  obtain ⟨iterators', nodes, first, sources⟩ :=
    firstNodes_sources (metaDev_mem_laterDevices s) drains
  refine ⟨iterators', nodes, sources, ?_⟩
  unfold Bit.fromCompaction
  rw [exec_bind, exec_get]
  simp only
  rw [new, exec_bind, exec_ofExcept]
  simp only
  rw [first]
  rfl

theorem fromCompaction_holds (placement : Placement kernel start s) (some' : bits ≠ [])
    (fits : maxLevelFor (bits.map fun bit => bit.size).sum ≤ bitMaxLevel + 1)
    (enough : tables.flatten.length < fuel) :
    wp (Bit.fromCompaction kernel fuel bits)
      (fun result s' => ∃ bit records, result = some bit ∧
        HeadMerge.IsMerge LeafRecord.lba tables records ∧
        ¬ leafBlockChildren ∣ records.length ∧ Assembled kernel start s s' ∧
        s.calls.length < s'.calls.length ∧ TableHolds s'.written bit records ∧
        bit.size = records.length)
      (fun _ s' => MergeStopped s tables 0 s') s := by
  obtain ⟨iterators, nodes, sourced, run⟩ := fromCompaction_eq inputs fuel
  have atLeast := two_le_maxLevelFor (bits.map fun bit => bit.size).sum
  obtain ⟨lowest, level⟩ : ∃ lowest, maxLevelFor (bits.map fun bit => bit.size).sum = lowest + 2 :=
    ⟨_ - 2, (Nat.sub_add_cancel atLeast).symm⟩
  have capacity := size_lt_capacity (bits.map fun bit => bit.size).sum
  rw [level, Nat.add_sub_cancel] at capacity
  have behind : Behind [] tables :=
    ⟨Pairwise.nil, fun _ none' => (not_mem_nil none').elim,
      fun _ member => (CompactionInput.each inputs member).2.1,
      fun _ member => (CompactionInput.each inputs member).2.2,
      fun _ none' => (not_mem_nil none').elim⟩
  have merging : Merging kernel start lowest (bits.map fun bit => bit.size).sum (laterDevices s) s
      iterators nodes tables 0 LeafBlock.default Bit.emptyLevels [] 0 := {
    placement := placement
    later := subset_rfl
    growing := growing_empty s.written (by omega)
    doneLength := (Nat.zero_mul _).symm
    count := rfl
    few := by decide
    size := rfl
    sourced := sourced
    behind := behind
    fits := by
      rw [Nat.zero_add]
      exact CompactionInput.length_le inputs }
  refine wp_of_exec run ?_
  rw [level]
  refine wp_seq (mergeLoop_merging merging capacity enough) (fun result s' ended => ?_)
    fun _ _ => id
  obtain ⟨records, indirect, merge, rfl, held, poisoned⟩ := ended
  have length := merge.length_eq
  have positive := CompactionInput.positive inputs some'
  simp only
  rw [wp_bind]
  rw [Nat.zero_add] at held poisoned ⊢
  by_cases divides : leafBlockChildren ∣ records.length
  · refine wp_mono ((poisoned divides (by omega)).finish _)
      (fun _ _ impossible => impossible.elim) fun _ _ _ => .inr ⟨records, merge, ?_⟩
    rwa [Nat.zero_add]
  · obtain ⟨assembled, merged, leaves, fewLeaves, growing⟩ := held divides
    refine wp_mono (finish_holds assembled.placement growing fewLeaves merged.ordered
      merged.words records.length) (fun bit s'' finished => ?_)
      fun _ _ overflowed => .inl (overflowed.after assembled.logged)
    obtain ⟨assembled', called, holds, -, size⟩ := finished
    exact ⟨bit, records, rfl, merge, divides, assembled.trans assembled',
      Nat.lt_of_le_of_lt assembled.logged.calls.length_le called, holds, size⟩

theorem fromCompaction_deep
    (deep : bitMaxLevel + 1 < maxLevelFor (bits.map fun bit => bit.size).sum) :
    wp (Bit.fromCompaction kernel fuel bits) (fun result _ => result = none)
      (fun _ _ => True) s := by
  obtain ⟨iterators, nodes, -, run⟩ := fromCompaction_eq inputs fuel
  have levels : Bit.emptyLevels.length ≤ maxLevelFor (bits.map fun bit => bit.size).sum - 2 := by
    change bitMaxLevel ≤ _
    omega
  refine wp_of_exec run ?_
  refine wp_seq (mergeLoop_deep levels) (fun result s' none' => ?_) fun _ _ _ => trivial
  subst none'
  exact rfl

/-- A compaction returns the merge of its inputs exactly if the last leaf block is not empty
and the levels are enough for the sizes of the inputs. -/
theorem fromCompaction_compacts_iff (placement : Placement kernel start s) (some' : bits ≠ [])
    (enough : tables.flatten.length < fuel)
    (fit : WritesFit s ((Bit.fromCompaction kernel fuel bits).exec s).2) :
    (∃ bit records, ((Bit.fromCompaction kernel fuel bits).exec s).1 = .ok (some bit) ∧
      bit.Compacts kernel ((Bit.fromCompaction kernel fuel bits).exec s).2.metaDev tables
        records) ↔
      ¬ leafBlockChildren ∣ (tables.flatten.map LeafRecord.lba).toFinset.card ∧
        maxLevelFor (bits.map fun bit => bit.size).sum ≤ bitMaxLevel + 1 := by
  constructor
  · rintro ⟨bit, records, returned, compacts⟩
    have fits : maxLevelFor (bits.map fun bit => bit.size).sum ≤ bitMaxLevel + 1 := by
      by_contra deep
      rcases wp_outcome (fromCompaction_deep inputs (Nat.lt_of_not_le deep)) with
        ⟨result, s', run, rfl⟩ | ⟨fault, s', run, -⟩ <;>
      · rw [run] at returned
        cases returned
    refine ⟨?_, fits⟩
    rw [← compacts.merge.length_eq]
    rcases wp_outcome (fromCompaction_holds inputs placement some' fits enough) with
      ⟨result, s', -, other, records', -, merge, indivisible, -⟩ | ⟨fault, s', run, -⟩
    · rwa [compacts.merge.length_eq, ← merge.length_eq]
    · rw [run] at returned
      cases returned
  · rintro ⟨indivisible, fits⟩
    rcases wp_outcome (fromCompaction_holds inputs placement some' fits enough) with
      ⟨result, s', run, bit, records, rfl, merge, -, assembled, called, holds, size⟩ |
      ⟨fault, s', run, overflowed | ⟨records, merge, divides⟩⟩
    · rw [run] at fit ⊢
      have length := merge.length_eq
      have positive := CompactionInput.positive inputs some'
      refine ⟨bit, records, rfl, merge, ?_, size.trans length, holds.range ?_⟩
      · exact holds.contains (fit.inside placement assembled called) assembled.placement
      · exact length_pos_iff.mp (by omega)
    · rw [run] at fit
      exact absurd overflowed fit.not_overflowed
    · rw [Nat.zero_add, merge.length_eq] at divides
      exact absurd divides indivisible

end

/-! ## Tables that were built -/

theorem Bit.WellShaped.compactionInput {bit : Bit}
    (shaped : bit.WellShaped kernel (laterDevices s) records) (level : bit.level = 3)
    (second : bit.SecondLeaf kernel s.metaDev) (nonempty : records ≠ [])
    (words : ∀ record ∈ records, record.Words) (counted : records.length ≤ bit.size) :
    CompactionInput kernel s bit records :=
  ⟨shaped.drains level (metaDev_mem_laterDevices s) second, nonempty, shaped.ordered, words,
    counted⟩

theorem fromCompaction_compacts_smallTables :
    ∃ table bit records, (smallBuild.exec (IndexStore.mount metaDevice 0)).1 = .ok table ∧
      ((Bit.fromCompaction plainKernel 5 [table, table]).exec smallStore).1 = .ok (some bit) ∧
      bit.Compacts plainKernel
        ((Bit.fromCompaction plainKernel 5 [table, table]).exec smallStore).2.metaDev
        [smallRecords, smallRecords] records := by
  have fits : ((smallBuild.exec (IndexStore.mount metaDevice 0)).1.map fun table =>
      decide (WritesFit smallStore
        ((Bit.fromCompaction plainKernel 5 [table, table]).exec smallStore).2)) = .ok true := by
    decide +kernel
  obtain ⟨table, returned, placement, shaped, level, size, second⟩ := smallBuild_returns
  have input := shaped.compactionInput level second (cons_ne_nil _ _) words_smallRecords size.ge
  rw [returned] at fits
  obtain ⟨bit, records, compacted⟩ := (fromCompaction_compacts_iff (.cons input (.cons input .nil))
    placement (cons_ne_nil _ _) (by decide) (of_decide_eq_true (Except.ok.inj fits))).mpr
    ⟨by decide +kernel, by
      simp only [map_cons, map_nil, size]
      decide⟩
  exact ⟨table, bit, records, returned, compacted⟩

/-- Address 0, inserted `count + 1` times. -/
def overwritten : Nat → MemTable Record
  | 0 => MemTable.new.insert 0 firstBlock
  | count + 1 => (overwritten count).insert 0 firstBlock

theorem overwritten_eq (count : Nat) :
    overwritten count = { overwritten 0 with size := count + 1 } := by
  induction count with
  | zero => rfl
  | succ count ih =>
    change (overwritten count).insert 0 firstBlock = _
    rw [ih]
    rfl

/-- The addresses below 126, the first one inserted so often that the table has level 3. -/
def twoLeafTable : MemTable Record :=
  (List.range' 1 125).foldl (fun memtable lba => memtable.insert lba firstBlock) (overwritten 3402)

theorem reachable_twoLeafTable : twoLeafTable.Reachable := by
  have first : ∀ count, (overwritten count).Reachable := fun count => by
    induction count with
    | zero => exact .insert .new (by decide) (by decide +kernel)
    | succ count ih => exact .insert ih (by decide) (by decide +kernel)
  have more : ∀ count ≤ 125, ((range' 1 count).foldl
      (fun memtable lba => memtable.insert lba firstBlock) (overwritten 3402)).Reachable := by
    intro count few
    induction count with
    | zero => exact first _
    | succ count ih =>
      rw [range'_1_concat, foldl_append]
      exact .insert (ih (by omega)) (show 1 + count < 2 ^ 64 by omega) (by decide +kernel)
  exact more 125 le_rfl

def twoLeafBuild : Except Fault Bit × IndexStore :=
  (Bit.fromMemtable plainKernel twoLeafTable).exec (IndexStore.mount metaDevice 0)

/-- A table of full leaf blocks, alone, cannot be compacted. -/
theorem full_leaf_not_compacted :
    ∃ bit, twoLeafBuild.1 = .ok bit ∧
      CompactionInput plainKernel twoLeafBuild.2 bit twoLeafTable.leafRecords ∧
      ∃ fault, ((Bit.fromCompaction plainKernel 127 [bit]).exec twoLeafBuild.2).1 =
        .error fault := by
  obtain ⟨size, length, distinct⟩ : twoLeafTable.size = 3528 ∧
      twoLeafTable.leafRecords.length = 126 ∧ leafBlockChildren ∣
        ([twoLeafTable.leafRecords].flatten.map LeafRecord.lba).toFinset.card := by
    rw [twoLeafTable, overwritten_eq]
    decide +kernel
  have fit : WritesFit (IndexStore.mount metaDevice 0) twoLeafBuild.2 := by
    rw [twoLeafBuild, twoLeafTable, overwritten_eq]
    decide +kernel
  have leaves : (twoLeafBuild.1 >>= Bit.firstLeaves plainKernel twoLeafBuild.2.metaDev) =
      .ok 2 := by
    rw [twoLeafBuild, twoLeafTable, overwritten_eq]
    decide +kernel
  have nonempty : twoLeafTable.leafRecords ≠ [] := length_pos_iff.mp (by omega)
  unfold twoLeafBuild at *
  have built := fromMemtable_wellShaped (placement_mount plainKernel metaDevice 0)
    reachable_twoLeafTable (by rw [size]; decide)
    (keptRecords_eq_iff.mpr (.inr (by rw [length]; decide))) nonempty fit
  generalize (Bit.fromMemtable plainKernel twoLeafTable).exec _ = run at *
  obtain ⟨bit, returned, placement, shaped, level, sized⟩ := built
  rw [returned] at leaves
  rw [size] at level sized
  have input := shaped.compactionInput level (Bit.secondLeaf_of_firstLeaves leaves le_rfl) nonempty
    reachable_twoLeafTable.words (by omega)
  refine ⟨bit, returned, input, ?_⟩
  rcases wp_outcome (fromCompaction_holds (.cons input .nil) placement (cons_ne_nil _ _)
    (show maxLevelFor (bit.size + 0) ≤ bitMaxLevel + 1 by rw [sized]; decide)
    (show [twoLeafTable.leafRecords].flatten.length < 127 by simp [length])) with
    ⟨result, s', -, merged, records, -, merge, indivisible, -⟩ | ⟨fault, s', run, -⟩
  · refine absurd ?_ indivisible
    rwa [merge.length_eq]
  · exact ⟨fault, by rw [run]⟩

end SwornDisk.Rust
