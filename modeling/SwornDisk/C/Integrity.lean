import SwornDisk.C.FirstSegment

/-!
# Read integrity on an untrusted device

After a session, the device may return anything.  A read of a written address gives
the data of the latest write if its block is in the segment buffer or if the fetched
block opens; otherwise the request is still completed as successful.
-/

namespace SwornDisk.C

open List Function Option

variable {K I M G : Type}

/-- The state with other contents of the data device, and of what was read ahead from it. -/
def tamper (s : DmSwornDisk K I M G) (dataDev : Nat → G) (prefetcher : BioPrefetcher G) :
    DmSwornDisk K I M G :=
  { s with
    dataDev := dataDev
    prefetcher := prefetcher }

/-- The block that a read of a record fetches opens under the record. -/
def Authentic (env : Env K I M G) (s : DmSwornDisk K I M G) (record : Record K I M) : Prop :=
  (env.aead.decrypt record.key record.iv record.mac record.pba
    (bioPrefetcherGet s record.pba).1).isSome = true

/-- A read fetches its block if it is not in the filled part of the segment buffer. -/
def Fetches (s : DmSwornDisk K I M G) (record : Record K I M) : Prop :=
  inSegmentBuffer s record.pba = false

/-- What a read of a written address should do: a successful one returns the data
written last, and one whose fetched block does not open is not successful. -/
structure ReadIntegrity (env : Env K I M G) (written : Nat → Option Sector)
    (s : DmSwornDisk K I M G) (bio : Bio) : Prop where
  latest : (sworndiskDoRead env s bio).1.status = .ok → ∀ i < bio.pages.length, ∀ data,
    written (bio.sector + i) = some data → (sworndiskDoRead env s bio).1.pages[i]? = some data
  refused : ∀ record, s.lsmTree (bioGetBlockAddress bio) = some record → Fetches s record →
    ¬ Authentic env s record → (sworndiskDoRead env s bio).1.status ≠ .ok

theorem sworndiskDoRead_status (env : Env K I M G) (s : DmSwornDisk K I M G) (bio : Bio) :
    (sworndiskDoRead env s bio).1.status = .ok := by
  unfold sworndiskDoRead
  split
  · rfl
  · simp only
    split
    · rfl
    · split <;> rfl

theorem InOrder.doRead_tamper {env : Env K I M G} {plain : Nat → Block} {s : DmSwornDisk K I M G}
    (o : InOrder env plain s) (addressable : Addressable s) (dataDev : Nat → G)
    (prefetcher : BioPrefetcher G) {bio : Bio} {record : Record K I M}
    (mapped : s.lsmTree (bioGetBlockAddress bio) = some record)
    (authentic : Fetches s record → Authentic env (tamper s dataDev prefetcher) record) :
    (sworndiskDoRead env (tamper s dataDev prefetcher) bio).1.pages =
      bioSetData (plain (bioGetBlockAddress bio)) (bioBlockSectorOffset bio) bio.pages.length := by
  have held := o.consistent.mapped _ record mapped
  have aligned : BufferAligned (tamper s dataDev prefetcher) := ⟨o.aligned.aligned, o.aligned.room⟩
  have mappedNow : (tamper s dataDev prefetcher).lsmTree (bioGetBlockAddress bio) = some record :=
    mapped
  rw [sworndiskDoRead_mapped env aligned mappedNow
    (bio.toUnsignedInt_sector addressable held.bound)]
  cases buffered : inSegmentBuffer s record.pba with
  | true =>
    have here : inSegmentBuffer (tamper s dataDev prefetcher) record.pba = true := buffered
    have slot : (tamper s dataDev prefetcher).segBuffer.buffer
        (record.pba - (tamper s dataDev prefetcher).segBuffer.curSegment * blocksPerSegment) =
        plain (bioGetBlockAddress bio) := o.slot_eq mapped buffered
    rw [if_pos here, slot]
  | false =>
    have outside : ¬ inSegmentBuffer (tamper s dataDev prefetcher) record.pba = true :=
      Bool.eq_false_iff.mp buffered
    obtain ⟨block, opened⟩ := isSome_iff_exists.mp (authentic buffered)
    rw [if_neg outside, opened]
    simp only
    rw [env.aead.eq_of_decrypt (o.sealed.cipher _ record mapped) opened]

/-- The block of a read is found or opens: the condition for integrity, on the state
before the read. -/
def ReadSafe (env : Env K I M G) (s : DmSwornDisk K I M G) (bio : Bio) : Prop :=
  ∀ record, s.lsmTree (bioGetBlockAddress bio) = some record →
    Fetches s record → Authentic env s record

/-- After any run of regular requests, and with any contents of the device since, a read
of a written address has integrity exactly if its block is in the segment buffer or
the fetched block opens. -/
theorem readIntegrity_iff_readSafe {env : Env K I M G} {nrSegment : Nat} {dataDev : Nat → G}
    {s : DmSwornDisk K I M G} {requests : List Request} (large : 16 < nrSegment)
    (addressable : nrSegment * sectorsPerSegment ≤ 2 ^ 32) (enough : nrSegment ≤ env.gcFuel)
    (mounted : mount env (format nrSegment dataDev) = some s)
    (safe : RequestsSafe env s requests) :
    ∃ t, runRequests env s requests = some t ∧
      ∀ (content : Nat → G) (prefetcher : BioPrefetcher G) (bio : Bio), bio.sector < 2 ^ 32 →
        (ReadIntegrity env (latestWrite requests) (tamper t content prefetcher) bio ↔
          ReadSafe env (tamper t content prefetcher) bio) := by
  obtain ⟨t, ran, inv⟩ := sessionInv_of_requestsSafe large addressable enough mounted safe
  refine ⟨t, ran, ?_⟩
  intro content prefetcher bio fits
  obtain ⟨plain, o, holds⟩ := inv.inOrder
  constructor
  · intro integrity record mapped fetches
    by_contra forged
    exact integrity.refused record mapped fetches forged (sworndiskDoRead_status ..)
  · intro authentic
    constructor
    · intro _ i inside data latest
      obtain ⟨mapped, stored⟩ := holds.of_bio fits inside latest
      obtain ⟨record, mapped⟩ := isSome_iff_exists.mp mapped
      rw [o.doRead_tamper inv.addressable content prefetcher mapped (authentic record mapped),
        getElem?_bioSetData _ _ _ inside, stored]
    · intro record mapped fetches forged
      exact absurd (authentic record mapped fetches) forged

theorem sworndiskReadBlock_of_fetches {s : DmSwornDisk K I M G} {record : Record K I M}
    (fetches : Fetches s record) :
    sworndiskReadBlock s record.pba = s.dataDev record.pba := by
  have outside : record.pba < s.segBuffer.curSegment * blocksPerSegment ∨
      s.segBuffer.curSegment * blocksPerSegment + curBlock s ≤ record.pba := by
    simpa [Fetches, inSegmentBuffer, not_and_or, or_iff_not_imp_left] using fetches
  simp only [sworndiskReadBlock, segbufQueryEncryptedBlock, outside, if_true, Option.getD_none]

theorem NextSegment.fetches {env : Env K I M G} {data : Nat → Block} {t : DmSwornDisk K I M G}
    (next : NextSegment env data t) (dataDev : Nat → G) (prefetcher : BioPrefetcher G)
    (record : Record K I M) : Fetches (tamper t dataDev prefetcher) record := by
  obtain ⟨plain, o⟩ := next.inOrder
  refine Bool.eq_false_iff.mpr fun inside => ?_
  have filled := ((inSegmentBuffer_iff (Nat.le_of_lt o.aligned.room) _).mp inside).2
  change _ < curBlock t at filled
  rw [next.empty] at filled
  exact absurd filled (Nat.not_lt_zero _)

theorem SessionInv.readSafe {env : Env K I M G} {written : Nat → Option Sector}
    {s : DmSwornDisk K I M G} (inv : SessionInv env written s) (bio : Bio) :
    ReadSafe env s bio := by
  intro record mapped _
  obtain ⟨plain, o, -⟩ := inv.inOrder
  have held := o.consistent.mapped _ record mapped
  have opened := env.aead.decrypt_encrypt (o.sealed.cipher _ record mapped)
  rw [Authentic, (inv.honest.get (inv.addressable.lt_deviceBlocks held.bound)).1,
    sworndiskReadBlock_eq (Nat.le_of_lt o.aligned.room), opened]
  rfl

theorem requestsSafe_flushed :
    ∃ s t requests, mount plainEnv (format 64 fun _ => zeroBlock) = some s ∧
      requests = (firstBios (fun _ => oneBlock) blocksPerSegment).map .write ∧
      RequestsSafe plainEnv s requests ∧ runRequests plainEnv s requests = some t ∧
      NextSegment plainEnv (fun _ => oneBlock) t := by
  have small : blocksPerSegment ≤ 2 * blocksPerSegment := by decide
  obtain ⟨s, requests, mounted, filled, safe⟩ := requestsSafe_fill (fun _ => oneBlock) small
  obtain ⟨t, ran, next, -⟩ := nextSegment_run plainEnv (fun _ => oneBlock) fun _ => zeroBlock
  obtain rfl := some.inj (mount_plainEnv.symm.trans mounted)
  refine ⟨_, t, requests, mounted, filled, safe, ?_, next⟩
  rw [filled, runRequests, foldlM_map]
  exact ran

/-- A block that was flushed is fetched, authenticated and read back from an honest device. -/
theorem readIntegrity_flushed :
    ∃ s t record, mount plainEnv (format 64 fun _ => zeroBlock) = some s ∧
      runRequests plainEnv s ((firstBios (fun _ => oneBlock) blocksPerSegment).map .write) =
        some t ∧
      t.lsmTree 0 = some record ∧ Fetches t record ∧
      ReadIntegrity plainEnv
        (latestWrite ((firstBios (fun _ => oneBlock) blocksPerSegment).map .write)) t
        (blockBio 0 zeroBlock) := by
  obtain ⟨s, t, requests, mounted, filled, safe, ran, next⟩ := requestsSafe_flushed
  have mapped : t.lsmTree 0 = some (firstRecord plainEnv (fun _ => oneBlock) 0) := by
    rw [next.lsmTree, firstTree, if_pos (by decide)]
  obtain ⟨u, ran', integrity⟩ := readIntegrity_iff_readSafe (by decide) (by decide) (by decide)
    mounted safe
  obtain ⟨v, ran'', inv⟩ := sessionInv_of_requestsSafe (by decide) (by decide) (by decide)
    mounted safe
  obtain rfl := some.inj (ran.symm.trans ran')
  obtain rfl := some.inj (ran.symm.trans ran'')
  have fits : (blockBio 0 zeroBlock).sector < 2 ^ 32 := by decide
  have kept := (integrity t.dataDev t.prefetcher (blockBio 0 zeroBlock) fits).mpr
    (inv.readSafe (blockBio 0 zeroBlock))
  rw [← filled]
  exact ⟨s, t, _, mounted, ran, mapped, next.fetches t.dataDev t.prefetcher _, kept⟩

theorem decrypt_plainEnv {record : Record Unit Unit (Unit × Unit × Nat × Block)}
    {plain cipher forged : Block}
    (sealed : plainEnv.aead.encrypt record.key record.iv record.pba plain = (cipher, record.mac))
    (other : forged ≠ plain) :
    plainEnv.aead.decrypt record.key record.iv record.mac record.pba forged = none := by
  cases opened : plainEnv.aead.decrypt record.key record.iv record.mac record.pba forged with
  | none => rfl
  | some block =>
    have same := plainEnv.aead.eq_of_decrypt sealed opened
    have resealed := plainEnv.aead.decrypt_eq_some_iff.mp opened
    exact absurd ((Prod.mk.inj resealed).1.symm.trans same) other

theorem NextSegment.refused {data : Nat → Block} {written : Nat → Option Sector}
    {t : DmSwornDisk Unit Unit (Unit × Unit × Nat × Block) Block}
    (next : NextSegment plainEnv data t) (inv : SessionInv plainEnv written t) {lba : Nat}
    (below : lba < blocksPerSegment) {content : Block} (forged : content ≠ data lba) :
    plainEnv.aead.decrypt (firstRecord plainEnv data lba).key (firstRecord plainEnv data lba).iv
      (firstRecord plainEnv data lba).mac (firstRecord plainEnv data lba).pba
      (bioPrefetcherGet (tamper t (fun _ => content) t.prefetcher)
        (firstRecord plainEnv data lba).pba).1 = none := by
  obtain ⟨plain, o, -⟩ := inv.inOrder
  have mapped : t.lsmTree lba = some (firstRecord plainEnv data lba) := by
    rw [next.lsmTree, firstTree, if_pos below]
  have held := o.consistent.mapped lba _ mapped
  have addressable : Addressable (tamper t (fun _ => content) t.prefetcher) := inv.addressable
  have honest : PrefetcherHonest (tamper t (fun _ => content) t.prefetcher) := by
    refine ⟨inv.honest.positive, fun blkaddr _ upper => ?_⟩
    change blkaddr < t.prefetcher.last at upper
    rw [next.drained] at upper
    exact absurd upper (Nat.not_lt_zero _)
  rw [(honest.get (addressable.lt_deviceBlocks held.bound)).1,
    sworndiskReadBlock_of_fetches (next.fetches _ _ _)]
  exact decrypt_plainEnv rfl forged

/-- A flushed block that was replaced on the device: the read succeeds and leaves the pages
of the request as they were. -/
theorem not_readIntegrity_replaced_block :
    ∃ s t record, mount plainEnv (format 64 fun _ => zeroBlock) = some s ∧
      runRequests plainEnv s ((firstBios (fun _ => oneBlock) blocksPerSegment).map .write) =
        some t ∧
      t.lsmTree 0 = some record ∧
      Fetches (tamper t (fun _ => zeroBlock) t.prefetcher) record ∧
      ¬ Authentic plainEnv (tamper t (fun _ => zeroBlock) t.prefetcher) record ∧
      ¬ ReadIntegrity plainEnv
        (latestWrite ((firstBios (fun _ => oneBlock) blocksPerSegment).map .write))
        (tamper t (fun _ => zeroBlock) t.prefetcher) (blockBio 0 zeroBlock) ∧
      (sworndiskDoRead plainEnv (tamper t (fun _ => zeroBlock) t.prefetcher)
        (blockBio 0 zeroBlock)).1 = ⟨(blockBio 0 zeroBlock).pages, .ok⟩ := by
  obtain ⟨s, t, requests, mounted, filled, safe, ran, next⟩ := requestsSafe_flushed
  obtain ⟨u, ran', inv⟩ := sessionInv_of_requestsSafe (by decide) (by decide) (by decide)
    mounted safe
  obtain rfl := some.inj (ran.symm.trans ran')
  obtain ⟨plain, o, -⟩ := inv.inOrder
  have distinct : zeroBlock ≠ oneBlock := fun equal =>
    absurd (congrFun (congrFun equal 0) 0) (by decide)
  have first : 0 < blocksPerSegment := by decide
  have refused := next.refused inv first distinct
  have mapped : t.lsmTree 0 = some (firstRecord plainEnv (fun _ => oneBlock) 0) := by
    rw [next.lsmTree, firstTree, if_pos first]
  have held := o.consistent.mapped 0 _ mapped
  have fetches := next.fetches (fun _ => zeroBlock) t.prefetcher
    (firstRecord plainEnv (fun _ => oneBlock) 0)
  have forged : ¬ Authentic plainEnv (tamper t (fun _ => zeroBlock) t.prefetcher)
      (firstRecord plainEnv (fun _ => oneBlock) 0) := by
    rw [Authentic, refused]
    exact Bool.false_ne_true
  have address : bioGetBlockAddress (blockBio 0 zeroBlock) = 0 := by decide
  have mappedNow : (tamper t (fun _ => zeroBlock) t.prefetcher).lsmTree
      (bioGetBlockAddress (blockBio 0 zeroBlock)) =
        some (firstRecord plainEnv (fun _ => oneBlock) 0) := by
    rw [address]
    exact mapped
  have addressable : Addressable (tamper t (fun _ => zeroBlock) t.prefetcher) := inv.addressable
  have aligned : BufferAligned (tamper t (fun _ => zeroBlock) t.prefetcher) :=
    ⟨o.aligned.aligned, o.aligned.room⟩
  refine ⟨s, t, _, mounted, filled ▸ ran, mapped, fetches, forged, fun integrity => ?_, ?_⟩
  · exact integrity.refused _ mappedNow fetches forged (sworndiskDoRead_status ..)
  · have outside : inSegmentBuffer (tamper t (fun _ => zeroBlock) t.prefetcher)
        (firstRecord plainEnv (fun _ => oneBlock) 0).pba = false := fetches
    rw [sworndiskDoRead_mapped plainEnv aligned mappedNow
      ((blockBio 0 zeroBlock).toUnsignedInt_sector addressable held.bound), outside, refused]
    rfl

end SwornDisk.C
