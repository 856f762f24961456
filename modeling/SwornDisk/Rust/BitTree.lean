import SwornDisk.Rust.BitLookup

/-!
# What constructions leave on the meta device

Every index write takes the next place of the session, so a record is determined by its
sector address, and what stands behind it stays.  The blocks written for a table form a
tree of the table's level.
-/

namespace SwornDisk.Rust

open Lib List Program Option

variable {s : IndexStore} {kernel : Kernel} {start lowest : Nat}

/-! ## Places -/

/-- The writes of a session since the cursor was at `start`: each took the next place, and
the blocks that fit on the device are there. -/
structure Placement (kernel : Kernel) (start : Nat) (s : IndexStore) : Prop where
  cursor : s.hba = start + s.written.length * blockSectors
  word : IsWord s.hba
  placed : ∀ i record plain, s.written[i]? = some (record, plain) →
    record.hba = start + i * blockSectors
  sealed : ∀ record plain, (record, plain) ∈ s.written →
    ∃ cipher, kernel.aead.encrypt record.key record.nonce plain = (cipher, record.mac) ∧
      (record.hba + blockSectors ≤ s.metaDev.sectors →
        s.metaDev.readSectors record.hba blockSectors = cipher)

/-- An index write that is made later, from the cursor on: the blocks below it are as they
are now. -/
structure Ahead (s : IndexStore) (call : IndexCall) : Prop where
  cursor : s.hba ≤ call.hba
  placed : call.hba + s.written.length * blockSectors = s.hba + call.earlier * blockSectors
  sectors : call.metaDev.sectors = s.metaDev.sectors
  stays : ∀ hba, hba + blockSectors ≤ s.hba →
    call.metaDev.readSectors hba blockSectors = s.metaDev.readSectors hba blockSectors

structure Grows (s s' : IndexStore) : Prop where
  written : s.written <+: s'.written
  sectors : s'.metaDev.sectors = s.metaDev.sectors
  indirectBlockCache : s'.indirectBlockCache = s.indirectBlockCache
  leafBlockCache : s'.leafBlockCache = s.leafBlockCache
  stays : ∀ hba, hba + blockSectors ≤ s.hba →
    s'.metaDev.readSectors hba blockSectors = s.metaDev.readSectors hba blockSectors
  cursor : s.hba ≤ s'.hba
  placed : s'.hba + s.written.length * blockSectors = s.hba + s'.written.length * blockSectors
  calls : ∃ calls, s'.calls = s.calls ++ calls ∧ ∀ call ∈ calls, Ahead s call

theorem Grows.refl (s : IndexStore) : Grows s s where
  written := prefix_refl _
  sectors := rfl
  indirectBlockCache := rfl
  leafBlockCache := rfl
  stays := fun _ _ => rfl
  cursor := Nat.le_refl _
  placed := rfl
  calls := ⟨[], (append_nil _).symm, fun _ member => absurd member not_mem_nil⟩

variable {s' : IndexStore}

theorem Grows.ahead (grows : Grows s s') {call : IndexCall} (later : Ahead s' call) :
    Ahead s call where
  cursor := grows.cursor.trans later.cursor
  placed := by
    have before := grows.placed
    have after := later.placed
    omega
  sectors := later.sectors.trans grows.sectors
  stays := fun hba below =>
    (later.stays hba (below.trans grows.cursor)).trans (grows.stays hba below)

variable {s'' : IndexStore}

theorem Grows.trans (first : Grows s s') (second : Grows s' s'') :
    Grows s s'' where
  written := first.written.trans second.written
  sectors := second.sectors.trans first.sectors
  indirectBlockCache := second.indirectBlockCache.trans first.indirectBlockCache
  leafBlockCache := second.leafBlockCache.trans first.leafBlockCache
  stays := fun hba below =>
    (second.stays hba (below.trans first.cursor)).trans (first.stays hba below)
  cursor := first.cursor.trans second.cursor
  placed := by
    have before := first.placed
    have after := second.placed
    omega
  calls := by
    obtain ⟨calls, made, ahead⟩ := first.calls
    obtain ⟨calls', made', ahead'⟩ := second.calls
    refine ⟨calls ++ calls', by rw [made', made, append_assoc], fun call member => ?_⟩
    rcases mem_append.mp member with early | late
    · exact ahead call early
    · exact first.ahead (ahead' call late)

variable {record : Record} {plain : List UInt8}

section

theorem Placement.below (placement : Placement kernel start s)
    (written : (record, plain) ∈ s.written) :
    start ≤ record.hba ∧ record.hba + blockSectors ≤ s.hba := by
  obtain ⟨i, bound, here⟩ := mem_iff_getElem.mp written
  have place := placement.placed i record plain (by rw [getElem?_eq_getElem bound, here])
  have later := Nat.mul_le_mul_right blockSectors (Nat.succ_le_of_lt bound)
  rw [Nat.succ_mul] at later
  have cursor := placement.cursor
  omega

theorem Placement.unique (placement : Placement kernel start s) {other : Record}
    {otherPlain : List UInt8} (written : (record, plain) ∈ s.written)
    (otherWritten : (other, otherPlain) ∈ s.written) (same : record.hba = other.hba) :
    record = other ∧ plain = otherPlain := by
  obtain ⟨i, bound, here⟩ := mem_iff_getElem.mp written
  obtain ⟨j, bound', there⟩ := mem_iff_getElem.mp otherWritten
  have place := placement.placed i record plain (by rw [getElem?_eq_getElem bound, here])
  have place' := placement.placed j other otherPlain
    (by rw [getElem?_eq_getElem bound', there])
  have positive : 0 < blockSectors := by
    rw [blockSectors_eq]
    decide
  have index : i = j := by
    refine Nat.eq_of_mul_eq_mul_right positive ?_
    omega
  subst index
  rw [here] at there
  exact Prod.mk.inj there

theorem Placement.readBlockDirectly_grows {T : Type} [BlockFormat T]
    (placement : Placement kernel start s) (grows : Grows s s')
    (written : (record, plain) ∈ s.written) :
    (Bit.readBlockDirectly kernel s'.metaDev record : Except Fault T) =
      Bit.readBlockDirectly kernel s.metaDev record := by
  unfold Bit.readBlockDirectly openRecord
  rw [grows.stays record.hba (placement.below written).2]

end

theorem placement_mount (kernel : Kernel) (metaDev : Device) (draws : Nat) :
    Placement kernel segmentSectors (IndexStore.mount metaDev draws) where
  cursor := by simp [IndexStore.mount]
  word := by
    change segmentSectors < 2 ^ 64
    rw [segmentSectors_eq]
    decide
  placed := fun i _ _ found => by simp [IndexStore.mount] at found
  sealed := fun _ _ written => absurd written not_mem_nil

/-! ## Index writes -/

theorem readSectors_cursor {dev : Device} {hba : Nat} {cipher : List UInt8}
    (whole : cipher.length = blockSize) (inRange : hba + blockSectors ≤ dev.sectors) :
    (dev.writeSectors hba blockSectors (Memory.zeroed.write 0 cipher)).readSectors hba
      blockSectors = cipher := by
  rw [Device.readSectors_writeSectors_same _ inRange, blockSectors_mul_sectorSize, ← whole,
    Memory.read_write_same]

theorem Placement.sealed_below (placement : Placement kernel start s) (source : Memory)
    (written : (record, plain) ∈ s.written) :
    ∃ cipher, kernel.aead.encrypt record.key record.nonce plain = (cipher, record.mac) ∧
      (record.hba + blockSectors ≤ s.metaDev.sectors →
        (s.metaDev.writeSectors s.hba blockSectors source).readSectors record.hba blockSectors =
          cipher) := by
  obtain ⟨cipher, encrypted, here⟩ := placement.sealed record plain written
  refine ⟨cipher, encrypted, fun inRange => ?_⟩
  rw [Device.readSectors_writeSectors_disjoint _ _ (.inl (placement.below written).2)]
  exact here inRange

theorem IndexSegment.write_spec (placement : Placement kernel start s) {data : List UInt8}
    (whole : data.length = blockSize) :
    wp (IndexSegment.write kernel data)
      (fun record s' => Placement kernel start s' ∧ Grows s s' ∧
        s'.written = s.written ++ [(record, data)])
      (fun _ s' => Placement kernel start s' ∧ Grows s s') s := by
  have stays : ∀ source hba, hba + blockSectors ≤ s.hba →
      (s.metaDev.writeSectors s.hba blockSectors source).readSectors hba blockSectors =
        s.metaDev.readSectors hba blockSectors := fun source hba below =>
    s.metaDev.readSectors_writeSectors_disjoint source (.inl below)
  have calls : ∃ calls, s.calls ++ [s.call] = s.calls ++ calls ∧
      ∀ call ∈ calls, Ahead s call := by
    refine ⟨_, rfl, fun call member => ?_⟩
    rw [mem_singleton.mp member]
    exact ⟨Nat.le_refl _, rfl, rfl, fun _ _ => rfl⟩
  unfold IndexSegment.write
  rw [if_neg (by omega), take_of_length_le whole.le]
  simp only [wp_bind, wp_get]
  split
  · next word =>
      simp only [wp_bind, wp_set, wp_pure]
      refine ⟨⟨?_, word, ?_, ?_⟩, ⟨prefix_append _ _, sectors_writeSectors .., rfl, rfl,
        stays _, Nat.le_add_right _ _, ?_, calls⟩, trivial⟩
      · rw [length_append, length_singleton, Nat.succ_mul, ← Nat.add_assoc,
          ← placement.cursor]
      · intro i record plain found
        rw [getElem?_append] at found
        split at found
        · exact placement.placed i record plain found
        · next above =>
            have last : i = s.written.length := by
              have bound := (List.getElem?_eq_some_iff.mp found).1
              rw [length_singleton] at bound
              omega
            rw [last, Nat.sub_self] at found
            obtain ⟨rfl, -⟩ := Prod.mk.inj (some.inj found)
            rw [last]
            exact placement.cursor
      · intro record plain written
        rw [sectors_writeSectors]
        rcases mem_append.mp written with old | new
        · exact placement.sealed_below _ old
        · obtain ⟨rfl, rfl⟩ := Prod.mk.inj (mem_singleton.mp new)
          refine ⟨_, rfl, fun inRange => readSectors_cursor ?_ inRange⟩
          rw [kernel.aead.length_encrypt, whole]
      · rw [length_append, length_singleton, Nat.succ_mul]
        simp only
        omega
  · simp only [wp_bind, wp_set, wp_throw]
    refine ⟨⟨placement.cursor, placement.word, placement.placed, ?_⟩, ⟨prefix_refl _,
      sectors_writeSectors .., rfl, rfl, stays _, Nat.le_refl _, rfl, calls⟩⟩
    intro record plain written
    rw [sectors_writeSectors]
    exact placement.sealed_below _ written

/-! ## Trees -/

/-- The blocks written for a record make a tree of the given height, with leaf blocks at
height 0. -/
def Subtree (written : List (Record × List UInt8)) : Nat → Record → Prop
  | 0, record => ∃ plain, (record, plain) ∈ written
  | height + 1, record => ∃ plain, ∃ block : IndirectBlock, (record, plain) ∈ written ∧
      BlockFormat.deserialize plain = .ok block ∧ ∀ i < block.count, ∃ child,
        block.children[i]? = some child ∧ Subtree written height child.record

variable {height : Nat}

theorem Subtree.written {written : List (Record × List UInt8)}
    (subtree : Subtree written height record) : ∃ plain, (record, plain) ∈ written := by
  cases height with
  | zero => exact subtree
  | succ height =>
    obtain ⟨plain, -, here, -⟩ := subtree
    exact ⟨plain, here⟩

variable {written' : List (Record × List UInt8)}

theorem Subtree.mono {written : List (Record × List UInt8)} (more : written <+: written')
    (subtree : Subtree written height record) :
    Subtree written' height record := by
  induction height generalizing record with
  | zero =>
    obtain ⟨plain, here⟩ := subtree
    exact ⟨plain, more.subset here⟩
  | succ height ih =>
    obtain ⟨plain, block, here, decoded, children⟩ := subtree
    refine ⟨plain, block, more.subset here, decoded, fun i bound => ?_⟩
    obtain ⟨child, childAt, below⟩ := children i bound
    exact ⟨child, childAt, ih below⟩

structure ChildTrees (written : List (Record × List UInt8)) (height : Nat)
    (block : IndirectBlock) : Prop where
  count : block.count = block.children.length
  trees : ∀ child ∈ block.children, Subtree written height child.record

variable {block : IndirectBlock}

theorem ChildTrees.mono {written : List (Record × List UInt8)} (more : written <+: written')
    (trees : ChildTrees written height block) : ChildTrees written' height block :=
  ⟨trees.count, fun child member => (trees.trees child member).mono more⟩

theorem childTrees_default (written : List (Record × List UInt8)) (height : Nat) :
    ChildTrees written height IndirectBlock.default :=
  ⟨rfl, fun _ member => absurd member not_mem_nil⟩

variable {block' : IndirectBlock}

theorem IndirectBlock.push_ok {record : IndirectRecord} (pushed : block.push record = .ok block') :
    block' = ⟨block.count + 1, block.children ++ [record]⟩ := by
  obtain ⟨_, -, checked⟩ := bind_eq_ok.mp pushed
  obtain ⟨_, -, done⟩ := bind_eq_ok.mp checked
  exact (Except.ok.inj done).symm

theorem ChildTrees.push {written : List (Record × List UInt8)}
    (trees : ChildTrees written height block) {record : IndirectRecord}
    (subtree : Subtree written height record.record) (pushed : block.push record = .ok block') :
    ChildTrees written height block' := by
  rw [IndirectBlock.push_ok pushed]
  refine ⟨?_, fun child member => ?_⟩
  · rw [length_append, trees.count]
    rfl
  · rcases mem_append.mp member with old | new
    · exact trees.trees child old
    · rw [mem_singleton.mp new]
      exact subtree

variable {α : Type} {children : List α} {bytes : List UInt8}

theorem length_serializeBlock {serialize : α → List UInt8} {count : Nat}
    (stored : serializeBlock serialize count children = .ok bytes) :
    bytes.length = blockSize := by
  obtain ⟨-, resized⟩ := assertTrue_bind stored
  obtain rfl := Except.ok.inj resized
  exact length_resize ..

theorem IndirectBlock.length_children_le (stored : BlockFormat.serialize block = .ok bytes) :
    block.children.length ≤ indirectBlockChildren := by
  obtain ⟨short, -⟩ := assertTrue_bind stored
  simp only [decide_eq_true_eq, length_append, length_wordBytes,
    length_flatMap_of_sized fun child _ => IndirectRecord.length_serialize child] at short
  unfold blockSize indirectRecordSize at short
  unfold indirectBlockChildren
  omega

section

theorem writebackBlock_spec {β : Type} [BlockFormat β] (placement : Placement kernel start s)
    {block : β} (sized : ∀ buf, BlockFormat.serialize block = .ok buf → buf.length = blockSize) :
    wp (Bit.writebackBlock kernel block)
      (fun record s' => Placement kernel start s' ∧ Grows s s' ∧
        ∃ buf, BlockFormat.serialize block = .ok buf ∧ (record, buf) ∈ s'.written)
      (fun _ s' => Placement kernel start s' ∧ Grows s s') s := by
  unfold Bit.writebackBlock
  refine wp_seqExcept (fun buf stored => ?_) fun _ _ => ⟨placement, Grows.refl s⟩
  refine wp_mono (IndexSegment.write_spec placement (sized buf stored))
    (fun record s' after => ?_) fun _ _ => id
  obtain ⟨placement', grows, written⟩ := after
  refine ⟨placement', grows, buf, stored, ?_⟩
  rw [written]
  exact mem_append_right _ (mem_singleton_self _)

theorem writebackBlock_indirect (placement : Placement kernel start s)
    (trees : ChildTrees s.written height block) :
    wp (Bit.writebackBlock kernel block)
      (fun record s' => Placement kernel start s' ∧ Grows s s' ∧
        Subtree s'.written (height + 1) record)
      (fun _ s' => Placement kernel start s' ∧ Grows s s') s := by
  refine wp_mono (writebackBlock_spec placement fun _ => length_serializeBlock)
    (fun record s' after => ?_) fun _ _ => id
  obtain ⟨placement', grows, buf, stored, here⟩ := after
  have words : ∀ child ∈ block.children, IsWord child.record.hba := by
    intro child member
    obtain ⟨plain, here⟩ := (trees.trees child member).written
    exact Nat.lt_of_le_of_lt (Nat.le_of_add_right_le (placement.below here).2) placement.word
  have few := IndirectBlock.length_children_le stored
  have small : block.count % 2 ^ 64 = block.children.length := by
    rw [trees.count]
    refine Nat.mod_eq_of_lt ?_
    unfold indirectBlockChildren at few
    omega
  refine ⟨placement', grows, buf, _, here, IndirectBlock.deserialize_serialize words stored,
    fun i bound => ?_⟩
  simp only [small] at bound
  have found := getElem?_eq_getElem bound
  refine ⟨_, getElem?_decodedChildren found (by omega), ?_⟩
  exact (trees.trees _ (getElem_mem bound)).mono grows.written

end

/-! ## Construction -/

/-- The indirect levels under construction, the lowest one at index `lowest`. -/
def LevelTrees (written : List (Record × List UInt8)) (lowest : Nat)
    (indirect : Bit.IndirectLevels) : Prop :=
  ∀ level block, level ≤ lowest → indirect[level]? = some block →
    ChildTrees written (lowest - level) block

variable {indirect : Bit.IndirectLevels}

theorem LevelTrees.mono {written : List (Record × List UInt8)} (more : written <+: written')
    (levels : LevelTrees written lowest indirect) :
    LevelTrees written' lowest indirect :=
  fun level block within found => (levels level block within found).mono more

variable {level : Nat}

theorem LevelTrees.set {written : List (Record × List UInt8)}
    (levels : LevelTrees written lowest indirect)
    (trees : ChildTrees written (lowest - level) block) :
    LevelTrees written lowest (indirect.set level block) := by
  intro other held within found
  rw [getElem?_set] at found
  split at found
  · next same =>
      split at found
      · obtain rfl := some.inj found
        rw [← same]
        exact trees
      · cases found
  · exact levels other held within found

theorem levelTrees_empty (written : List (Record × List UInt8)) (lowest : Nat) :
    LevelTrees written lowest Bit.emptyLevels := by
  intro level block _ found
  obtain rfl := eq_of_mem_replicate (mem_of_getElem? found)
  exact childTrees_default written _

variable {index : Nat} {child : α}

theorem childAt_ok (found : childAt children index = .ok child) :
    children[index]? = some child := by
  unfold childAt at found
  split at found
  · next here =>
      rw [here]
      exact congrArg some (Except.ok.inj found)
  · cases found

theorem childAt_eq (found : children[index]? = some child) :
    childAt children index = .ok child := by
  rw [childAt, found]

variable {maxLevel : Nat}

section

def Built (kernel : Kernel) (start : Nat) (s s' : IndexStore) : Prop :=
  Placement kernel start s' ∧ Grows s s'

theorem Built.after (first : Grows s s') (built : Built kernel start s' s'') :
    Built kernel start s s'' :=
  ⟨built.1, first.trans built.2⟩

/-- What `pushup_indirect_block` leaves: the levels, and the root if that was written. -/
def PushedUp (kernel : Kernel) (start lowest : Nat) (s : IndexStore)
    (result : Option IndirectRecord × Bit.IndirectLevels) (s' : IndexStore) : Prop :=
  Built kernel start s s' ∧ LevelTrees s'.written lowest result.2 ∧
    ∀ root, result.1 = some root → Subtree s'.written (lowest + 1) root.record

def BuiltLevels (kernel : Kernel) (start lowest : Nat) (s : IndexStore)
    (indirect : Bit.IndirectLevels) (s' : IndexStore) : Prop :=
  Built kernel start s s' ∧ LevelTrees s'.written lowest indirect

theorem carryNode_trees (placement : Placement kernel start s) (within : level + 1 ≤ lowest)
    (levels : LevelTrees s.written lowest indirect) (found : indirect[level + 1]? = some block) :
    wp (Bit.carryNode kernel level block indirect) (BuiltLevels kernel start lowest s)
      (fun _ => Built kernel start s) s := by
  unfold Bit.carryNode
  refine wp_seqExcept (fun lbaRange _ => ?_) fun _ _ => ⟨placement, Grows.refl s⟩
  refine wp_seq (writebackBlock_indirect placement (levels (level + 1) block within found))
    (fun record s' after => ?_) fun _ _ => id
  obtain ⟨placement', grows, subtree⟩ := after
  have levels' := levels.mono grows.written
  have built : Built kernel start s s' := ⟨placement', grows⟩
  refine wp_seqExcept (fun parent above => ?_) fun _ _ => built
  refine wp_seqExcept (fun parent' pushed => ?_) fun _ _ => built
  have height : lowest - (level + 1) + 1 = lowest - level := by omega
  rw [height] at subtree
  have trees := (levels' level parent (by omega) (childAt_ok above)).push subtree pushed
  exact ⟨built, (levels'.set trees).set (childTrees_default _ _)⟩

theorem pushupIndirectBlock_spec (placement : Placement kernel start s) (writeAll : Bool)
    (within : level ≤ lowest) (levels : LevelTrees s.written lowest indirect) :
    wp (Bit.pushupIndirectBlock kernel writeAll level indirect)
      (PushedUp kernel start lowest s) (fun _ => Built kernel start s) s := by
  have same : Built kernel start s s := ⟨placement, Grows.refl s⟩
  induction level generalizing indirect s with
  | zero =>
    unfold Bit.pushupIndirectBlock
    refine wp_seqExcept (fun block found => ?_) fun _ _ => same
    split
    · refine wp_seqExcept (fun lbaRange _ => ?_) fun _ _ => same
      refine wp_seq (writebackBlock_indirect placement
        (levels 0 block within (childAt_ok found))) (fun record s' after => ?_)
        fun _ _ => id
      obtain ⟨placement', grows, subtree⟩ := after
      refine ⟨⟨placement', grows⟩, levels.mono grows.written, fun root here => ?_⟩
      obtain rfl := some.inj here
      exact subtree
    · exact ⟨same, levels, fun _ none => (some_ne_none _ none.symm).elim⟩
  | succ level ih =>
    unfold Bit.pushupIndirectBlock
    refine wp_seqExcept (fun block found => ?_) fun _ _ => same
    split
    · split
      · exact ih placement (by omega) levels same
      · refine wp_seq (carryNode_trees placement within levels (childAt_ok found))
          (fun indirect' s' carried => ?_) fun _ _ => id
        obtain ⟨⟨placement', grows⟩, levels'⟩ := carried
        exact wp_mono (ih placement' (by omega) levels' ⟨placement', Grows.refl s'⟩)
          (fun _ _ pushed => ⟨pushed.1.after grows, pushed.2⟩) fun _ _ built => built.after grows
    · exact ⟨same, levels, fun _ none => (some_ne_none _ none.symm).elim⟩

theorem writebackLeaf_spec (placement : Placement kernel start s) (leaf : LeafBlock)
    (levels : LevelTrees s.written (maxLevel - 2) indirect) :
    wp (Bit.writebackLeaf kernel maxLevel leaf indirect)
      (BuiltLevels kernel start (maxLevel - 2) s) (fun _ => Built kernel start s) s := by
  have same : Built kernel start s s := ⟨placement, Grows.refl s⟩
  unfold Bit.writebackLeaf
  refine wp_seqExcept (fun lbaRange _ => ?_) fun _ _ => same
  refine wp_seq (writebackBlock_spec placement fun _ => length_serializeBlock)
    (fun record s' after => ?_) fun _ _ after => ⟨after.1, after.2⟩
  obtain ⟨placement', grows, buf, -, here⟩ := after
  have levels' := levels.mono grows.written
  refine wp_seqExcept (fun block found => ?_) fun _ _ => ⟨placement', grows⟩
  refine wp_seqExcept (fun block' pushed => ?_) fun _ _ => ⟨placement', grows⟩
  have trees := levels' (maxLevel - 2) block (Nat.le_refl _) (childAt_ok found)
  rw [Nat.sub_self] at trees
  have levels'' : LevelTrees s'.written (maxLevel - 2) (indirect.set (maxLevel - 2) block') :=
    levels'.set (by rw [Nat.sub_self]; exact trees.push ⟨buf, here⟩ pushed)
  refine wp_seq (pushupIndirectBlock_spec placement' false (Nat.le_refl _) levels'')
    (fun result s'' pushed => ?_) fun _ _ built => built.after grows
  exact ⟨pushed.1.after grows, pushed.2.1⟩

def Finished (kernel : Kernel) (start : Nat) (s : IndexStore) (bit : Bit) (s' : IndexStore) :
    Prop :=
  Built kernel start s s' ∧ 2 ≤ bit.level ∧ Subtree s'.written (bit.level - 1) bit.record.record

theorem Finished.after {bit : Bit} (first : Grows s s')
    (finished : Finished kernel start s' bit s'') : Finished kernel start s bit s'' :=
  ⟨finished.1.after first, finished.2⟩

theorem finish_spec (placement : Placement kernel start s) (atLeast : 2 ≤ maxLevel) (size : Nat)
    (levels : LevelTrees s.written (maxLevel - 2) indirect) :
    wp (Bit.finish kernel maxLevel size indirect) (Finished kernel start s)
      (fun _ => Built kernel start s) s := by
  unfold Bit.finish
  refine wp_seq (pushupIndirectBlock_spec placement true (Nat.le_refl _) levels)
    (fun result s' after => ?_) fun _ _ => id
  obtain ⟨root, indirect'⟩ := result
  obtain ⟨built, -, subtree⟩ := after
  simp only
  cases root with
  | none => exact built
  | some record =>
    simp only
    refine wp_seqExcept (fun block _ => ?_) fun _ _ => built
    refine ⟨built, atLeast, ?_⟩
    have height : maxLevel - 1 = maxLevel - 2 + 1 := by omega
    rw [height]
    exact subtree record rfl

theorem memtableLoop_spec {size : Nat} (entries : List (Nat × Record)) (index : Nat)
    (leaf : LeafBlock) (placement : Placement kernel start s)
    (levels : LevelTrees s.written (maxLevel - 2) indirect) :
    wp (Bit.memtableLoop kernel maxLevel size entries index leaf indirect)
      (BuiltLevels kernel start (maxLevel - 2) s) (fun _ => Built kernel start s) s := by
  have same : Built kernel start s s := ⟨placement, Grows.refl s⟩
  induction entries generalizing index leaf indirect s with
  | nil => exact ⟨same, levels⟩
  | cons entry rest ih =>
    obtain ⟨lba, record⟩ := entry
    unfold Bit.memtableLoop
    refine wp_seqExcept (fun leaf' _ => ?_) fun _ _ => same
    split
    · refine wp_seq (writebackLeaf_spec placement leaf' levels)
        (fun indirect' s' after => ?_) fun _ _ => id
      obtain ⟨⟨placement', grows⟩, levels'⟩ := after
      exact wp_mono (ih (index + 1) LeafBlock.default placement' levels'
        ⟨placement', Grows.refl s'⟩) (fun _ _ built => ⟨built.1.after grows, built.2⟩)
        fun _ _ built => built.after grows
    · exact ih (index + 1) leaf' placement levels same

theorem two_le_maxLevelFor (size : Nat) : 2 ≤ maxLevelFor size := Nat.le_add_right _ _

theorem fromMemtable_spec (placement : Placement kernel start s) (memtable : MemTable Record) :
    wp (Bit.fromMemtable kernel memtable) (Finished kernel start s)
      (fun _ => Built kernel start s) s := by
  unfold Bit.fromMemtable
  simp only
  split
  · exact ⟨placement, Grows.refl s⟩
  · refine wp_seq (memtableLoop_spec _ 0 LeafBlock.default placement
      (levelTrees_empty _ _)) (fun indirect s' after => ?_) fun _ _ => id
    obtain ⟨⟨placement', grows⟩, levels⟩ := after
    exact wp_mono (finish_spec placement' (two_le_maxLevelFor _) _ levels)
      (fun _ _ finished => finished.after grows) fun _ _ built => built.after grows

def Merged (kernel : Kernel) (start lowest : Nat) (s : IndexStore)
    (result : Option (Nat × Bit.IndirectLevels)) (s' : IndexStore) : Prop :=
  Built kernel start s s' ∧ ∀ realSize indirect, result = some (realSize, indirect) →
    LevelTrees s'.written lowest indirect

theorem mergeLoop_spec (fuel : Nat) (iterators : List BitIterator)
    (nodes : List (Option LeafRecord)) (realSize : Nat) (leaf : LeafBlock)
    (placement : Placement kernel start s) (levels : LevelTrees s.written (maxLevel - 2) indirect) :
    wp (Bit.mergeLoop kernel maxLevel fuel iterators nodes realSize leaf indirect)
      (Merged kernel start (maxLevel - 2) s) (fun _ => Built kernel start s) s := by
  have same : Built kernel start s s := ⟨placement, Grows.refl s⟩
  induction fuel generalizing iterators nodes realSize leaf indirect s with
  | zero => exact ⟨same, fun _ _ none => (some_ne_none _ none.symm).elim⟩
  | succ fuel ih =>
    unfold Bit.mergeLoop
    split
    · refine wp_seq (writebackLeaf_spec placement leaf levels)
        (fun indirect' s' after => ⟨after.1, fun _ _ here => ?_⟩) fun _ _ => id
      obtain ⟨-, rfl⟩ := Prod.mk.inj (some.inj here)
      exact after.2
    · next baseline _ =>
        refine wp_seqExcept (fun leaf' _ => ?_) fun _ _ => same
        split
        · refine wp_seq (writebackLeaf_spec placement leaf' levels)
            (fun indirect' s' after => ?_) fun _ _ => id
          obtain ⟨⟨placement', grows⟩, levels'⟩ := after
          rw [wp_bind, wp_get]
          refine wp_seqExcept (fun moved _ => ?_) fun _ _ => ⟨placement', grows⟩
          exact wp_mono (ih moved.1 moved.2 _ _ placement' levels'
            ⟨placement', Grows.refl s'⟩) (fun _ _ merged => ⟨merged.1.after grows, merged.2⟩)
            fun _ _ built => built.after grows
        · rw [wp_bind, wp_get]
          refine wp_seqExcept (fun moved _ => ?_) fun _ _ => same
          exact ih moved.1 moved.2 _ _ placement levels same

theorem fromCompaction_spec (placement : Placement kernel start s) (fuel : Nat) (bits : List Bit) :
    wp (Bit.fromCompaction kernel fuel bits)
      (fun result s' => Built kernel start s s' ∧
        ∀ bit, result = some bit → Finished kernel start s bit s')
      (fun _ => Built kernel start s) s := by
  have same : Built kernel start s s := ⟨placement, Grows.refl s⟩
  unfold Bit.fromCompaction
  rw [wp_bind, wp_get]
  refine wp_seqExcept (fun iterators _ => ?_) fun _ _ => same
  simp only
  refine wp_seqExcept (fun first _ => ?_) fun _ _ => same
  refine wp_seq (mergeLoop_spec fuel first.1 first.2 0 LeafBlock.default placement
    (levelTrees_empty _ _)) (fun merged s' after => ?_) fun _ _ => id
  obtain ⟨⟨placement', grows⟩, levels⟩ := after
  cases merged with
  | none => exact ⟨⟨placement', grows⟩, fun _ none => (some_ne_none _ none.symm).elim⟩
  | some result =>
    simp only
    refine wp_seq (finish_spec placement' (two_le_maxLevelFor _) _
      (levels result.1 result.2 rfl)) (fun bit s'' finished => ?_)
      fun _ _ built => built.after grows
    refine ⟨finished.1.after grows, fun bit' here => ?_⟩
    obtain rfl := some.inj here
    exact finished.after grows

end

end SwornDisk.Rust
