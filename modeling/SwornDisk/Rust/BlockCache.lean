import SwornDisk.Rust.BitTree

/-!
# Reads through the block caches

The caches are keyed by sector address alone and never invalidated.  They stay sound
because an address is written once in a session: whatever a cache holds for an address is
what a direct read of the only record with that address returns.
-/

namespace SwornDisk.Rust

open Lib List Program Option

variable {s : IndexStore} {kernel : Kernel} {T : Type} {start : Nat}

/-- Each association of the cache is a direct read of a written record. -/
structure CacheSound {T : Type} [BlockFormat T] (kernel : Kernel) (s : IndexStore)
    (cache : LruCache T) : Prop where
  valid : cache.Valid
  direct : ∀ hba block, cache.lookup hba = some block →
    ∃ record plain, (record, plain) ∈ s.written ∧ record.hba = hba ∧
      Bit.readBlockDirectly kernel s.metaDev record = .ok block

structure CachesSound (kernel : Kernel) (s : IndexStore) : Prop where
  indirect : CacheSound kernel s s.indirectBlockCache
  leaf : CacheSound kernel s s.leafBlockCache

structure SameBlocks (s s' : IndexStore) : Prop where
  metaDev : s'.metaDev = s.metaDev
  hba : s'.hba = s.hba
  calls : s'.calls = s.calls
  written : s'.written = s.written

theorem SameBlocks.refl (s : IndexStore) : SameBlocks s s := ⟨rfl, rfl, rfl, rfl⟩

variable {s' s'' : IndexStore}

theorem SameBlocks.trans (first : SameBlocks s s') (second : SameBlocks s' s'') :
    SameBlocks s s'' where
  metaDev := second.metaDev.trans first.metaDev
  hba := second.hba.trans first.hba
  calls := second.calls.trans first.calls
  written := second.written.trans first.written

variable {cache : LruCache T}

theorem SameBlocks.cacheSound [BlockFormat T] (same : SameBlocks s s')
    (sound : CacheSound kernel s cache) :
    CacheSound kernel s' cache where
  valid := sound.valid
  direct := by
    rw [same.metaDev, same.written]
    exact sound.direct

theorem SameBlocks.placement (same : SameBlocks s s') (placement : Placement kernel start s) :
    Placement kernel start s' where
  cursor := by rw [same.hba, same.written, placement.cursor]
  word := by
    rw [same.hba]
    exact placement.word
  placed := by
    rw [same.written]
    exact placement.placed
  sealed := by
    rw [same.written, same.metaDev]
    exact placement.sealed

theorem CacheSound.grows [BlockFormat T] (sound : CacheSound kernel s cache)
    (placement : Placement kernel start s) (grows : Grows s s') : CacheSound kernel s' cache where
  valid := sound.valid
  direct := by
    intro hba block held
    obtain ⟨record, plain, written, here, direct⟩ := sound.direct hba block held
    refine ⟨record, plain, grows.written.subset written, here, ?_⟩
    rw [placement.readBlockDirectly_grows grows written]
    exact direct

theorem CachesSound.grows (sound : CachesSound kernel s) (placement : Placement kernel start s)
    (grows : Grows s s') :
    CachesSound kernel s' where
  indirect := by
    rw [grows.indirectBlockCache]
    exact sound.indirect.grows placement grows
  leaf := by
    rw [grows.leafBlockCache]
    exact sound.leaf.grows placement grows

theorem cacheSound_new [BlockFormat T] (kernel : Kernel) (s : IndexStore) :
    CacheSound kernel s (LruCache.new lruCacheMaxSize : LruCache T) where
  valid := LruCache.valid_new (by decide)
  direct := by
    intro hba block held
    rw [LruCache.lookup_new] at held
    cases held

theorem cachesSound_mount (kernel : Kernel) (metaDev : Device) (draws : Nat) :
    CachesSound kernel (IndexStore.mount metaDev draws) :=
  ⟨cacheSound_new kernel _, cacheSound_new kernel _⟩

theorem CachesSound.setIndirect (sound : CachesSound kernel s) {cache : LruCache IndirectBlock}
    (cacheSound : CacheSound kernel s cache) :
    CachesSound kernel { s with indirectBlockCache := cache } := by
  have same : SameBlocks s { s with indirectBlockCache := cache } := ⟨rfl, rfl, rfl, rfl⟩
  exact ⟨same.cacheSound cacheSound, same.cacheSound sound.leaf⟩

theorem CachesSound.setLeaf (sound : CachesSound kernel s) {cache : LruCache LeafBlock}
    (cacheSound : CacheSound kernel s cache) :
    CachesSound kernel { s with leafBlockCache := cache } := by
  have same : SameBlocks s { s with leafBlockCache := cache } := ⟨rfl, rfl, rfl, rfl⟩
  exact ⟨same.cacheSound sound.indirect, same.cacheSound cacheSound⟩

class LawfulCachedBlock (T : Type) extends CachedBlock T where
  sameBlocks : ∀ s c, SameBlocks s (setCache s c)
  sound_cache : ∀ {kernel s}, CachesSound kernel s → CacheSound kernel s (cache s)
  sound_setCache : ∀ {kernel s c}, CachesSound kernel s → CacheSound kernel s c →
    CachesSound kernel (setCache s c)

instance : LawfulCachedBlock IndirectBlock where
  sameBlocks _ _ := ⟨rfl, rfl, rfl, rfl⟩
  sound_cache sound := sound.indirect
  sound_setCache sound cacheSound := sound.setIndirect cacheSound

instance : LawfulCachedBlock LeafBlock where
  sameBlocks _ _ := ⟨rfl, rfl, rfl, rfl⟩
  sound_cache sound := sound.leaf
  sound_setCache sound cacheSound := sound.setLeaf cacheSound

def Cached (kernel : Kernel) (s s' : IndexStore) : Prop :=
  SameBlocks s s' ∧ CachesSound kernel s'

theorem Cached.after (first : SameBlocks s s') (cached : Cached kernel s' s'') :
    Cached kernel s s'' :=
  ⟨first.trans cached.1, cached.2⟩

variable {record : Record} {plain : List UInt8}

section

variable [LawfulCachedBlock T]

def ReadsBlock (kernel : Kernel) (prog : IndexProgram T) (record : Record)
    (s : IndexStore) : Prop :=
  wp prog
    (fun block s' => Bit.readBlockDirectly kernel s.metaDev record = .ok block ∧ Cached kernel s s')
    (fun fault s' => (Bit.readBlockDirectly kernel s.metaDev record : Except Fault T) =
      .error fault ∧ Cached kernel s s') s

theorem fillCache_spec (sound : CachesSound kernel s) (written : (record, plain) ∈ s.written) :
    ReadsBlock kernel (Bit.fillCache kernel record : IndexProgram T) record s := by
  have cacheSound := LawfulCachedBlock.sound_cache (T := T) sound
  unfold ReadsBlock Bit.fillCache
  rw [wp_bind, wp_get]
  refine wp_seqExcept (fun block direct => ?_) fun fault failed =>
    ⟨failed, SameBlocks.refl s, sound⟩
  obtain ⟨replaced, cache, put, valid, -, associations⟩ := cacheSound.valid.put record.hba block
  rw [wp_bind, put]
  refine ⟨direct, LawfulCachedBlock.sameBlocks s cache, LawfulCachedBlock.sound_setCache sound ?_⟩
  refine ⟨valid, fun hba held associated => ?_⟩
  rcases associations hba held associated with ⟨rfl, rfl⟩ | before
  · exact ⟨record, plain, written, rfl, direct⟩
  · exact cacheSound.direct hba held before

theorem readBlock_spec (placement : Placement kernel start s) (sound : CachesSound kernel s)
    (written : (record, plain) ∈ s.written) :
    ReadsBlock kernel (Bit.readBlock kernel record : IndexProgram T) record s := by
  have cacheSound := LawfulCachedBlock.sound_cache (T := T) sound
  obtain ⟨hit, valid, same⟩ := cacheSound.valid.get record.hba
  have sound' := LawfulCachedBlock.sound_setCache sound
    ⟨valid, fun hba block held => cacheSound.direct hba block (by rw [← same]; exact held)⟩
  have blocks := LawfulCachedBlock.sameBlocks (T := T) s
    ((CachedBlock.cache s).get record.hba).2
  unfold ReadsBlock Bit.readBlock
  rw [wp_bind, wp_get]
  simp only
  rw [wp_bind, wp_set, hit]
  cases held : (CachedBlock.cache s : LruCache T).lookup record.hba with
  | some block =>
    obtain ⟨other, otherPlain, otherWritten, here, direct⟩ :=
      cacheSound.direct record.hba block held
    obtain ⟨rfl, -⟩ := placement.unique otherWritten written here
    exact ⟨direct, blocks, sound'⟩
  | none =>
    refine wp_mono (fillCache_spec sound' (by rw [blocks.written]; exact written))
      (fun block s' after => ?_) fun fault s' after => ?_
    · rw [blocks.metaDev] at after
      exact ⟨after.1, after.2.after blocks⟩
    · rw [blocks.metaDev] at after
      exact ⟨after.1, after.2.after blocks⟩

end

def ReadsOnly {α : Type} (prog : IndexProgram α) : Prop := ∀ s, SameBlocks s (prog.exec s).2

variable {α : Type}

theorem readsOnly_pure (value : α) : ReadsOnly (pure value : IndexProgram α) :=
  SameBlocks.refl

theorem readsOnly_ofExcept (result : Except Fault α) :
    ReadsOnly (Program.ofExcept result : IndexProgram α) :=
  SameBlocks.refl

theorem ReadsOnly.bind {β : Type} {prog : IndexProgram α} {next : α → IndexProgram β}
    (first : ReadsOnly prog) (rest : ∀ value, ReadsOnly (next value)) :
    ReadsOnly (prog >>= next) := by
  intro s
  have same := first s
  rw [exec_bind]
  generalize prog.exec s = outcome at same
  obtain ⟨result, s'⟩ := outcome
  cases result with
  | ok value => exact same.trans (rest value s')
  | error fault => exact same

section

theorem readsOnly_fillCache [LawfulCachedBlock T] (record : Record) :
    ReadsOnly (Bit.fillCache kernel record : IndexProgram T) := by
  intro s
  refine wp_exec ?_
  unfold Bit.fillCache
  rw [wp_bind, wp_get]
  refine wp_seqExcept (fun block _ => ?_) fun _ _ => SameBlocks.refl s
  exact wp_seqExcept (fun put _ => LawfulCachedBlock.sameBlocks s put.2)
    fun _ _ => SameBlocks.refl s

theorem readsOnly_readBlock [LawfulCachedBlock T] (record : Record) :
    ReadsOnly (Bit.readBlock kernel record : IndexProgram T) := by
  intro s
  have touched := LawfulCachedBlock.sameBlocks (T := T) s ((CachedBlock.cache s).get record.hba).2
  unfold Bit.readBlock
  rw [exec_bind, exec_get]
  simp only
  rw [exec_bind, exec_set]
  simp only
  split
  · exact touched
  · exact touched.trans (readsOnly_fillCache record _)

theorem readsOnly_traverse (lba level : Nat) (block : IndirectBlock) :
    ReadsOnly (Bit.traverse kernel lba level block) := by
  induction level generalizing block with
  | zero => exact readsOnly_pure _
  | succ level ih =>
    refine (readsOnly_ofExcept _).bind fun found => ?_
    cases found with
    | none => exact readsOnly_pure _
    | some child => exact (readsOnly_readBlock child.record).bind fun next => ih next

theorem readsOnly_findRecord (bit : Bit) (lba : Nat) : ReadsOnly (bit.findRecord kernel lba) := by
  refine (readsOnly_ofExcept _).bind fun lbaRange => ?_
  split
  · exact readsOnly_pure _
  · refine (readsOnly_traverse lba _ _).bind fun found => ?_
    cases found with
    | none => exact readsOnly_pure _
    | some block =>
      refine (readsOnly_ofExcept _).bind fun found => ?_
      cases found with
      | none => exact readsOnly_pure _
      | some child =>
        exact (readsOnly_readBlock child.record).bind fun leaf => readsOnly_ofExcept _

theorem readsOnly_readFromDisk (held : BitRootMeta BitInfo) :
    ReadsOnly (held.readFromDisk kernel) :=
  (readsOnly_readBlock held.bit.record.record).bind fun _ => readsOnly_pure _

theorem readsOnly_findInTables (lba : Nat) (tables : List (BitRootMeta BitInfo)) :
    ReadsOnly (findInTables kernel lba tables) := by
  induction tables with
  | nil => exact readsOnly_pure _
  | cons held rest ih =>
    unfold findInTables
    split
    · refine (readsOnly_readFromDisk held).bind fun bit => ?_
      refine (readsOnly_findRecord bit lba).bind fun found => ?_
      cases found with
      | none => exact ih
      | some record => exact readsOnly_pure _
    · exact ih

theorem readsOnly_readRoots (tables : List (BitRootMeta BitInfo)) :
    ReadsOnly (readRoots kernel tables) := by
  induction tables with
  | nil => exact readsOnly_pure _
  | cons held rest ih =>
    exact (readsOnly_readFromDisk held).bind fun _ => ih.bind fun _ => readsOnly_pure _

end

/-- Where a block did not fit on the device, what is read in its place is rejected. -/
def LostRejected (kernel : Kernel) (s : IndexStore) : Prop :=
  ∀ record plain, (record, plain) ∈ s.written → s.metaDev.sectors < record.hba + blockSectors →
    kernel.aead.decrypt record.key record.mac record.nonce
      (List.replicate (blockSectors * sectorSize) 0) = none

structure StoreInv (kernel : Kernel) (start : Nat) (s : IndexStore) : Prop where
  placement : Placement kernel start s
  caches : CachesSound kernel s
  rejected : LostRejected kernel s

theorem StoreInv.cached (inv : StoreInv kernel start s) (cached : Cached kernel s s') :
    StoreInv kernel start s' where
  placement := cached.1.placement inv.placement
  caches := cached.2
  rejected := by
    unfold LostRejected
    rw [cached.1.written, cached.1.metaDev]
    exact inv.rejected

def StoredChildren (written : List (Record × List UInt8)) (height : Nat) (block : IndirectBlock) :
    Prop :=
  ∀ i < block.count, ∃ child, block.children[i]? = some child ∧ Subtree written height child.record

variable {block : IndirectBlock}
  {height lba : Nat} {child : IndirectRecord} {tables : List (BitRootMeta BitInfo)}

section

theorem Placement.direct_eq (placement : Placement kernel start s)
    (rejected : LostRejected kernel s) [BlockFormat T] {block : T}
    (written : (record, plain) ∈ s.written)
    (direct : Bit.readBlockDirectly kernel s.metaDev record = .ok block) :
    BlockFormat.deserialize plain = .ok block := by
  obtain ⟨opened, decrypted, decoded⟩ := bind_eq_ok.mp direct
  unfold openRecord at decrypted
  by_cases inRange : record.hba + blockSectors ≤ s.metaDev.sectors
  · obtain ⟨cipher, encrypted, here⟩ := placement.sealed record plain written
    have back := kernel.aead.decrypt_encrypt record.key record.nonce plain
    rw [encrypted] at back
    rw [here inRange, back] at decrypted
    obtain rfl := Except.ok.inj decrypted
    exact decoded
  · have blank : s.metaDev.readSectors record.hba blockSectors =
        replicate (blockSectors * sectorSize) 0 := if_neg inRange
    rw [blank, rejected record plain written (by omega)] at decrypted
    cases decrypted

theorem Placement.storedChildren (placement : Placement kernel start s)
    (rejected : LostRejected kernel s) (subtree : Subtree s.written (height + 1) record)
    (direct : Bit.readBlockDirectly kernel s.metaDev record = .ok block) :
    StoredChildren s.written height block := by
  obtain ⟨plain, stored, written, decoded, children⟩ := subtree
  rw [placement.direct_eq rejected written direct] at decoded
  obtain rfl := Except.ok.inj decoded
  exact children

theorem searchLoop_found {compare : α → Ordering} {children : List α} {fuel left right : Nat}
    {child : α} (found : searchLoop compare children fuel left right = .ok (some child)) :
    ∃ i ≤ right, children[i]? = some child := by
  induction fuel generalizing left right with
  | zero => cases found
  | succ fuel ih =>
    unfold searchLoop at found
    split at found
    · obtain ⟨middle, here, next⟩ := bind_eq_ok.mp found
      split at next
      · obtain rfl := some.inj (Except.ok.inj next)
        exact ⟨(left + right) / 2, by omega, childAt_ok here⟩
      · split at next
        · cases next
        · obtain ⟨i, within, child⟩ := ih next
          exact ⟨i, by omega, child⟩
      · split at next
        · cases next
        · exact ih next
    · cases found

theorem findIndirectRecord_found (found : Bit.findIndirectRecord block lba = .ok (some child)) :
    ∃ i < block.count, block.children[i]? = some child := by
  unfold Bit.findIndirectRecord binarySearch at found
  split at found
  · cases found
  · next nonempty =>
      obtain ⟨i, within, here⟩ := searchLoop_found found
      exact ⟨i, by omega, here⟩

theorem StoredChildren.found {written : List (Record × List UInt8)}
    (stored : StoredChildren written height block)
    (found : Bit.findIndirectRecord block lba = .ok (some child)) :
    Subtree written height child.record := by
  obtain ⟨i, within, here⟩ := findIndirectRecord_found found
  obtain ⟨other, there, subtree⟩ := stored i within
  rw [here] at there
  obtain rfl := some.inj there
  exact subtree

theorem traverse_spec (inv : StoreInv kernel start s) (lba level : Nat)
    (stored : StoredChildren s.written level block) :
    wp (Bit.traverse kernel lba level block)
      (fun result s' => Cached kernel s s' ∧
        ∀ last, result = some last → StoredChildren s.written 0 last)
      (fun _ => Cached kernel s) s := by
  have same : Cached kernel s s := ⟨SameBlocks.refl s, inv.caches⟩
  induction level generalizing block s with
  | zero =>
    refine ⟨same, fun last here => ?_⟩
    obtain rfl := some.inj here
    exact stored
  | succ level ih =>
    unfold Bit.traverse
    refine wp_seqExcept (fun found searched => ?_) fun _ _ => same
    cases found with
    | none => exact ⟨same, fun _ none => (some_ne_none _ none.symm).elim⟩
    | some child =>
      have subtree := stored.found searched
      obtain ⟨plain, written⟩ := subtree.written
      simp only
      refine wp_seq (readBlock_spec inv.placement inv.caches written)
        (fun next s' after => ?_) fun _ _ after => after.2
      obtain ⟨direct, cached⟩ := after
      have stored' := inv.placement.storedChildren inv.rejected subtree direct
      rw [← cached.1.written] at stored'
      refine wp_mono (ih (inv.cached cached) stored' ⟨SameBlocks.refl s', cached.2⟩)
        (fun result s'' after => ?_) fun _ _ after => after.after cached.1
      rw [cached.1.written] at after
      exact ⟨after.1.after cached.1, after.2⟩

theorem findRecord_spec (inv : StoreInv kernel start s) {bit : Bit}
    (stored : StoredChildren s.written (bit.level - 2) bit.root) (lba : Nat) :
    wp (bit.findRecord kernel lba) (fun _ => Cached kernel s)
      (fun _ => Cached kernel s) s := by
  have same : Cached kernel s s := ⟨SameBlocks.refl s, inv.caches⟩
  unfold Bit.findRecord
  refine wp_seqExcept (fun lbaRange _ => ?_) fun _ _ => same
  split
  · exact same
  · refine wp_seq (traverse_spec inv lba _ stored) (fun found s' after => ?_)
      fun _ _ => id
    obtain ⟨cached, last⟩ := after
    cases found with
    | none => exact cached
    | some block =>
      simp only
      refine wp_seqExcept (fun found searched => ?_) fun _ _ => cached
      cases found with
      | none => exact cached
      | some child =>
        have inv' := inv.cached cached
        obtain ⟨plain, written⟩ := ((last block rfl).found searched).written
        rw [← cached.1.written] at written
        simp only
        refine wp_seq (readBlock_spec inv'.placement inv'.caches written)
          (fun leaf s'' after => ?_) fun _ _ after => after.2.after cached.1
        exact wp_ofExcept (fun _ _ => after.2.after cached.1)
          fun _ _ => after.2.after cached.1

def ListedTree (written : List (Record × List UInt8)) (held : BitRootMeta BitInfo) : Prop :=
  2 ≤ held.bit.level ∧ Subtree written (held.bit.level - 1) held.bit.record.record

variable (inv : StoreInv kernel start s)
include inv

theorem readFromDisk_spec {held : BitRootMeta BitInfo} (listed : ListedTree s.written held) :
    wp (held.readFromDisk kernel)
      (fun bit s' => (∃ root, Bit.readBlockDirectly kernel s.metaDev held.bit.record.record =
        .ok root ∧ bit = ⟨held.bit, root⟩) ∧ Cached kernel s s')
      (fun fault s' => (Bit.readBlockDirectly kernel s.metaDev held.bit.record.record :
        Except Fault IndirectBlock) = .error fault ∧ Cached kernel s s') s := by
  obtain ⟨plain, written⟩ := listed.2.written
  unfold BitRootMeta.readFromDisk
  exact wp_seq (readBlock_spec inv.placement inv.caches written)
    (fun root _ after => ⟨⟨root, after.1, rfl⟩, after.2⟩) fun _ _ => id

theorem findInTables_spec (lba : Nat) (listed : ∀ held ∈ tables, ListedTree s.written held) :
    wp (findInTables kernel lba tables) (fun _ => Cached kernel s)
      (fun _ => Cached kernel s) s := by
  have same : Cached kernel s s := ⟨SameBlocks.refl s, inv.caches⟩
  induction tables generalizing s with
  | nil => exact same
  | cons held rest ih =>
    have others : ∀ other ∈ rest, ListedTree s.written other := fun other member =>
      listed other (mem_cons_of_mem _ member)
    have tree := listed held mem_cons_self
    unfold findInTables
    split
    · refine wp_seq (readFromDisk_spec inv tree) (fun bit s' after => ?_)
        fun _ _ after => after.2
      obtain ⟨⟨root, direct, rfl⟩, cached⟩ := after
      have height : held.bit.level - 1 = held.bit.level - 2 + 1 := by
        have := tree.1
        omega
      have stored := inv.placement.storedChildren inv.rejected (height ▸ tree.2) direct
      rw [← cached.1.written] at stored others
      refine wp_seq (findRecord_spec (inv.cached cached) stored lba)
        (fun found s'' after => ?_) fun _ _ after => after.after cached.1
      have cached' := after.after cached.1
      cases found with
      | some record => exact cached'
      | none =>
        rw [← after.1.written] at others
        exact wp_mono (ih (inv.cached cached') others ⟨SameBlocks.refl s'', after.2⟩)
          (fun _ _ last => last.after cached'.1) fun _ _ last => last.after cached'.1
    · exact ih inv others same

theorem readRoots_spec (listed : ∀ held ∈ tables, ListedTree s.written held) :
    wp (readRoots kernel tables) (fun _ => Cached kernel s)
      (fun _ => Cached kernel s) s := by
  have same : Cached kernel s s := ⟨SameBlocks.refl s, inv.caches⟩
  induction tables generalizing s with
  | nil => exact same
  | cons held rest ih =>
    have others : ∀ other ∈ rest, ListedTree s.written other := fun other member =>
      listed other (mem_cons_of_mem _ member)
    unfold readRoots
    refine wp_seq (readFromDisk_spec inv (listed held mem_cons_self))
      (fun bit s' after => ?_) fun _ _ after => after.2
    obtain ⟨-, cached⟩ := after
    rw [← cached.1.written] at others
    exact wp_seq (ih (inv.cached cached) others ⟨SameBlocks.refl s', cached.2⟩)
      (fun _ _ last => last.after cached.1) fun _ _ last => last.after cached.1

end

end SwornDisk.Rust
