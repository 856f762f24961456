import SwornDisk.C.Requests

/-!
# Widths of addresses

`bio_get_sector` and `bio_set_sector` pass a sector as an `unsigned int`, and the LSM tree takes a
`uint32_t` key.  Nothing compares the device with these widths: beyond `2 ^ 32` sectors a request
is taken for one to another block.
-/

namespace SwornDisk.C

variable {K I M G : Type}

/-- The key under which `segbuf_push_bio` and `sworndisk_do_read` look for the block of a bio. -/
def bioKey (bio : Bio) : Nat :=
  lsmKey (bioGetBlockAddress bio)

/-- The sector that `sworndisk_do_read` sets for a record and `segbuf_query_bio` reads back. -/
def queriedSector (pba : Nat) (bio : Bio) : Nat :=
  toUnsignedInt (pba * sectorsPerBlock + bioBlockSectorOffset bio)

/-- On a data device of `sectors` sectors no address is truncated: the key of a bio is its block,
so that different blocks have different keys, and the sector of an allocated block is exact. -/
structure AddressesExact (sectors : Nat) : Prop where
  key_eq : ∀ bio : Bio, bio.sector < sectors → bioKey bio = bio.sector / sectorsPerBlock
  keys_differ : ∀ bio other : Bio, bio.sector < sectors → other.sector < sectors →
    bio.sector / sectorsPerBlock ≠ other.sector / sectorsPerBlock → bioKey bio ≠ bioKey other
  placed : ∀ pba < sectors / sectorsPerSegment * blocksPerSegment, ∀ bio : Bio,
    queriedSector pba bio = pba * sectorsPerBlock + bio.sector % sectorsPerBlock

/-- A bio `2 ^ 32` sectors further on. -/
def Bio.beyond (bio : Bio) : Bio where
  sector := bio.sector + 2 ^ 32
  pages := bio.pages
  nonempty := bio.nonempty
  inBlock := by
    have inBlock := bio.inBlock
    unfold sectorsPerBlock at inBlock ⊢
    omega

theorem bioGetBlockAddress_beyond (bio : Bio) :
    bioGetBlockAddress bio.beyond = bioGetBlockAddress bio := by
  rw [bioGetBlockAddress, bioGetBlockAddress, toUnsignedInt, toUnsignedInt, Bio.beyond,
    Nat.add_mod_right]

theorem bioBlockSectorOffset_beyond (bio : Bio) :
    bioBlockSectorOffset bio.beyond = bioBlockSectorOffset bio := by
  rw [bioBlockSectorOffset, bioBlockSectorOffset, toUnsignedInt, toUnsignedInt, Bio.beyond,
    Nat.add_mod_right]

section

variable (env : Env K I M G) (s : DmSwornDisk K I M G) (bio : Bio)

theorem sworndiskDoWrite_beyond :
    sworndiskDoWrite env s bio.beyond = sworndiskDoWrite env s bio := by
  have pages : bio.beyond.pages = bio.pages := rfl
  simp only [sworndiskDoWrite, segbufPushBio, fillBuffer, modifyInMemBuffer, pages,
    bioGetBlockAddress_beyond, bioBlockSectorOffset_beyond]

end

section

variable {sectors : Nat}

theorem bioKey_of_lt {bio : Bio} (fits : bio.sector < 2 ^ 32) :
    bioKey bio = bio.sector / sectorsPerBlock := by
  rw [bioKey, lsmKey_of_lt (bioGetBlockAddress_lt bio), bioGetBlockAddress_of_lt fits]

theorem addressesExact_of_le (small : sectors ≤ 2 ^ 32) : AddressesExact sectors where
  key_eq bio inside := bioKey_of_lt (inside.trans_le small)
  keys_differ bio other inside otherInside differ := by
    rw [bioKey_of_lt (inside.trans_le small), bioKey_of_lt (otherInside.trans_le small)]
    exact differ
  placed pba allocated bio := by
    simp only [queriedSector, bioBlockSectorOffset, toUnsignedInt, sectorsPerBlock,
      sectorsPerSegment, blocksPerSegment] at allocated ⊢
    omega

def firstBio : Bio where
  sector := 0
  pages := [fun _ => 0]
  nonempty := List.cons_ne_nil _ _
  inBlock := by decide

/-- Addresses are exact on the devices of at most `2 ^ 32` sectors. -/
theorem addressesExact_iff (sectors : Nat) : AddressesExact sectors ↔ sectors ≤ 2 ^ 32 := by
  constructor
  · intro exact'
    by_contra large
    have differ := exact'.keys_differ firstBio.beyond firstBio
      (by simp only [Bio.beyond, firstBio]; omega) (by simp only [firstBio]; omega) (by decide)
    apply differ
    rw [bioKey, bioKey, bioGetBlockAddress_beyond]
  · exact addressesExact_of_le

/-- On a device with one block more, a write to the last block overwrites the first. -/
theorem last_block_overwrites_first :
    firstBio.beyond.sector < 2 ^ 32 + sectorsPerBlock ∧
      firstBio.sector / sectorsPerBlock ≠
        firstBio.beyond.sector / sectorsPerBlock ∧
      bioKey firstBio.beyond = bioKey firstBio ∧
      ∀ s, sworndiskDoWrite plainEnv s firstBio.beyond = sworndiskDoWrite plainEnv s firstBio :=
  ⟨by decide, by decide, by decide, fun s => sworndiskDoWrite_beyond plainEnv s _⟩

end

end SwornDisk.C
