import SwornDisk.C.Prefetcher
import SwornDisk.C.Session

/-!
# The read path

`sworndisk_do_read` serves a request from the plaintext buffer, or from the block that
the prefetcher hands out.  With an honest device both give the latest plaintext; with
any device, a block that opens is the latest plaintext.
-/

namespace SwornDisk.C

open List Option

variable {K I M G : Type}

/-- All sectors of the device are numbered by an `unsigned int`. -/
def Addressable (s : DmSwornDisk K I M G) : Prop :=
  s.nrSegment * sectorsPerSegment ≤ 2 ^ 32

variable {pba : Nat}

theorem blkaddr_lt {nrSegment : Nat} (bound : blockToSegment pba < nrSegment) :
    pba < nrSegment * blocksPerSegment :=
  (Nat.div_lt_iff_lt_mul (Nat.succ_pos 1023)).mp bound

theorem bioBlockSectorOffset_lt (bio : Bio) : bioBlockSectorOffset bio < sectorsPerBlock :=
  Nat.mod_lt _ (Nat.succ_pos 7)

variable {s : DmSwornDisk K I M G}

theorem Bio.toUnsignedInt_sector (bio : Bio) (addressable : Addressable s)
    (bound : blockToSegment pba < s.nrSegment) :
    toUnsignedInt (pba * sectorsPerBlock + bioBlockSectorOffset bio) =
      pba * sectorsPerBlock + bioBlockSectorOffset bio := by
  have below := blkaddr_lt bound
  have inside := bioBlockSectorOffset_lt bio
  unfold Addressable at addressable
  apply Nat.mod_eq_of_lt
  unfold sectorsPerSegment at addressable
  unfold blocksPerSegment at below
  unfold sectorsPerBlock at *
  omega

theorem bioBlockSectorOffset_add_le (bio : Bio) :
    bioBlockSectorOffset bio + bio.pages.length ≤ sectorsPerBlock := by
  have same : bioBlockSectorOffset bio = bio.sector % sectorsPerBlock :=
    Nat.mod_mod_of_dvd bio.sector ⟨2 ^ 29, by decide⟩
  rw [same]
  exact bio.inBlock

theorem Bio.length_pos (bio : Bio) : 0 < bio.pages.length :=
  length_pos_iff.mpr bio.nonempty

/-- The plaintext buffer answers exactly for the blocks in its filled part. -/
theorem segbufQueryBio_eq (ba : BufferAligned s) (pba : Nat) {offset count : Nat}
    (inside : offset + count ≤ sectorsPerBlock) (positive : 0 < count) :
    segbufQueryBio s (pba * sectorsPerBlock + offset) count =
      if inSegmentBuffer s pba then
        some (bioSetData (s.segBuffer.buffer (pba - s.segBuffer.curSegment * blocksPerSegment))
          offset count)
      else none := by
  have aligned := ba.aligned
  unfold segbufQueryBio
  simp only [inSegmentBuffer, Bool.and_eq_true, decide_eq_true_eq, aligned]
  unfold sectorsPerSegment blocksPerSegment
  unfold sectorsPerBlock at *
  by_cases within : s.segBuffer.curSegment * 1024 ≤ pba ∧
      pba < s.segBuffer.curSegment * 1024 + curBlock s
  · rw [if_neg (by omega), if_pos within]
    congr 1
    apply map_congr_left
    intro i member
    have less := mem_range.mp member
    have slot : (pba * 8 + offset - s.segBuffer.curSegment * 8192 + i) / 8 =
        pba - s.segBuffer.curSegment * 1024 := by omega
    have sector : sectorInBlock (pba * 8 + offset - s.segBuffer.curSegment * 8192 + i) =
        sectorInBlock (offset + i) := by
      apply Fin.ext
      simp only [sectorInBlock_val]
      omega
    rw [slot, sector]
  · rw [if_pos (by omega), if_neg within]

theorem Addressable.lt_deviceBlocks (addressable : Addressable s)
    (bound : blockToSegment pba < s.nrSegment) : pba < deviceBlocks s := by
  have below := blkaddr_lt bound
  unfold Addressable sectorsPerSegment at addressable
  unfold deviceBlocks
  unfold blocksPerSegment at *
  omega

theorem sworndiskDoRead_snd (env : Env K I M G) (s : DmSwornDisk K I M G) (bio : Bio) :
    ∃ prefetcher, (sworndiskDoRead env s bio).2 = { s with prefetcher := prefetcher } := by
  unfold sworndiskDoRead
  split
  · exact ⟨s.prefetcher, rfl⟩
  · simp only
    split
    · exact ⟨s.prefetcher, rfl⟩
    · split
      · exact ⟨_, rfl⟩
      · exact ⟨_, rfl⟩

variable {bio : Bio} {record : Record K I M}

theorem sworndiskDoRead_mapped (env : Env K I M G) (ba : BufferAligned s)
    (mapped : s.lsmTree (bioGetBlockAddress bio) = some record)
    (sector : toUnsignedInt (record.pba * sectorsPerBlock + bioBlockSectorOffset bio) =
      record.pba * sectorsPerBlock + bioBlockSectorOffset bio) :
    sworndiskDoRead env s bio =
      if inSegmentBuffer s record.pba then
        (⟨bioSetData (s.segBuffer.buffer
          (record.pba - s.segBuffer.curSegment * blocksPerSegment))
          (bioBlockSectorOffset bio) bio.pages.length, .ok⟩, s)
      else
        match env.aead.decrypt record.key record.iv record.mac record.pba
            (bioPrefetcherGet s record.pba).1 with
        | some block =>
          (⟨bioSetData block (bioBlockSectorOffset bio) bio.pages.length, .ok⟩,
            (bioPrefetcherGet s record.pba).2)
        | none => (⟨bio.pages, .ok⟩, (bioPrefetcherGet s record.pba).2) := by
  have found : lsmSearch s (bioGetBlockAddress bio) = some record := by
    rw [lsmSearch, lsmKey_of_lt (bioGetBlockAddress_lt bio)]
    exact mapped
  have offset : (record.pba * sectorsPerBlock + bioBlockSectorOffset bio) % sectorsPerBlock =
      bioBlockSectorOffset bio := by
    rw [Nat.mul_add_mod_self_right]
    exact Nat.mod_eq_of_lt (bioBlockSectorOffset_lt bio)
  have query := segbufQueryBio_eq ba record.pba (bioBlockSectorOffset_add_le bio) bio.length_pos
  simp only [sworndiskDoRead, found, sector, query, offset]
  by_cases buffered : inSegmentBuffer s record.pba = true
  · simp only [buffered, if_true]
  · simp only [buffered]
    rfl

variable {env : Env K I M G} {plain : Nat → Block} (o : InOrder env plain s)
include o

theorem InOrder.slot_eq {lba : Nat} (mapped : s.lsmTree lba = some record)
    (buffered : inSegmentBuffer s record.pba = true) :
    s.segBuffer.buffer (record.pba - s.segBuffer.curSegment * blocksPerSegment) = plain lba := by
  obtain ⟨segment, filled⟩ := (inSegmentBuffer_iff (Nat.le_of_lt o.aligned.room) _).mp buffered
  rw [slot_eq_offset segment]
  exact o.sealed.buffered lba record mapped segment filled

theorem InOrder.doRead (honest : PrefetcherHonest s) (addressable : Addressable s)
    (mapped : (s.lsmTree (bioGetBlockAddress bio)).isSome = true) :
    (sworndiskDoRead env s bio).1 =
      ⟨bioSetData (plain (bioGetBlockAddress bio)) (bioBlockSectorOffset bio) bio.pages.length,
        .ok⟩ := by
  obtain ⟨record, mapped⟩ := isSome_iff_exists.mp mapped
  have held := o.consistent.mapped _ record mapped
  rw [sworndiskDoRead_mapped env o.aligned mapped (bio.toUnsignedInt_sector addressable held.bound)]
  by_cases buffered : inSegmentBuffer s record.pba = true
  · rw [if_pos buffered, o.slot_eq mapped buffered]
  · have fetched := (honest.get (addressable.lt_deviceBlocks held.bound)).1
    have opened := env.aead.decrypt_encrypt (o.sealed.cipher _ record mapped)
    rw [if_neg buffered, fetched, sworndiskReadBlock_eq (Nat.le_of_lt o.aligned.room), opened]

theorem InOrder.prefetcherHonest (honest : PrefetcherHonest s) (addressable : Addressable s)
    (bio : Bio) : PrefetcherHonest (sworndiskDoRead env s bio).2 := by
  cases mapped : s.lsmTree (bioGetBlockAddress bio) with
  | none =>
    have missing : lsmSearch s (bioGetBlockAddress bio) = none := by
      rw [lsmSearch, lsmKey_of_lt (bioGetBlockAddress_lt bio)]
      exact mapped
    simp only [sworndiskDoRead, missing]
    exact honest
  | some record =>
    have held := o.consistent.mapped _ record mapped
    rw [sworndiskDoRead_mapped env o.aligned mapped
      (bio.toUnsignedInt_sector addressable held.bound)]
    split
    · exact honest
    · have next := (honest.get (addressable.lt_deviceBlocks held.bound)).2
      split <;> exact next

end SwornDisk.C
