import SwornDisk.C.Session

/-!
# A device with room

The ledger of a state counts the slots filled and the segments in use.  While it is below
the threshold of threaded logging, every push is regular whatever its address, and costs one
block.
-/

namespace SwornDisk.C

open Lib Function Option

variable {K I M G : Type}

/-- A state in order that has room for `budget` more blocks before threaded logging or a
collection can start. -/
structure Sparse (env : Env K I M G) (budget : Nat) (s : DmSwornDisk K I M G) : Prop where
  inOrder : ∃ plain, InOrder env plain s
  room : ledger s + budget < blocksPerSegment * threadedThreshold s.nrSegment
  large : 16 < s.nrSegment
  word : s.nrSegment < 2 ^ 64
  enough : s.nrSegment ≤ env.gcFuel

theorem threadedThreshold_of_lt {nrSegment : Nat} (large : 16 < nrSegment)
    (word : nrSegment < 2 ^ 64) :
    threadedThreshold nrSegment = nrSegment - 17 ∧ gcThreshold nrSegment = nrSegment - 16 := by
  unfold threadedThreshold gcThreshold
  omega

namespace Sparse

variable {env : Env K I M G} {budget : Nat} {s t : DmSwornDisk K I M G}

section

variable (sparse : Sparse env budget s)
include sparse

theorem few : s.segAllocator.nrValidSegment < threadedThreshold s.nrSegment := by
  have room := sparse.room
  unfold ledger at room
  exact Nat.lt_of_mul_lt_mul_left (a := blocksPerSegment) (by omega)

theorem logged : sworndiskShouldThreadedLogging s = false :=
  if_pos sparse.few

theorem free : ∃ seg < s.nrSegment, segmentValid s seg = false := by
  obtain ⟨plain, o⟩ := sparse.inOrder
  have few := sparse.few
  rw [(threadedThreshold_of_lt sparse.large sparse.word).1, o.consistent.counted] at few
  exact exists_clear_of_countSet_lt (by omega)

theorem not_startsGc : ¬ StartsGc s := by
  obtain ⟨threaded, gc⟩ := threadedThreshold_of_lt sparse.large sparse.word
  have few := sparse.few
  intro starts
  have above := starts.2
  rw [threaded] at few
  rw [gc] at above
  omega

theorem not_saWillTriggerGc : saWillTriggerGc s = false := by
  obtain ⟨threaded, gc⟩ := threadedThreshold_of_lt sparse.large sparse.word
  have few := sparse.few
  rw [threaded] at few
  refine decide_eq_false ?_
  rw [gc]
  omega

theorem pushSafe {lba : Nat} (key : lba < 2 ^ 32) : PushSafe s lba ∧ NoneStale s lba := by
  refine ⟨⟨key, ?_, fun _ => sparse.free, fun starts => absurd starts sparse.not_startsGc⟩,
    fun starts => absurd starts sparse.not_startsGc⟩
  intro threaded
  rw [sparse.logged] at threaded
  exact absurd threaded Bool.false_ne_true

theorem bioSafe (bio : Bio) : BioSafe s bio := fun _ =>
  (sparse.pushSafe (bioGetBlockAddress_lt bio)).1

theorem mono {less : Nat} (le : less ≤ budget) : Sparse env less s :=
  { sparse with room := Nat.lt_of_le_of_lt (Nat.add_le_add_left le _) sparse.room }

theorem fillSlot (data : Block) : Sparse env budget (C.fillSlot s data) := by
  obtain ⟨plain, o⟩ := sparse.inOrder
  exact ⟨⟨plain, o.fillSlot data⟩, sparse.room, sparse.large, sparse.word, sparse.enough⟩

end

variable (sparse : Sparse env (budget + 1) s)
include sparse

theorem push {lba : Nat} (key : lba < 2 ^ 32) (data : Block) :
    ∃ t, (∀ gc, segbufPushBlock env gc s lba data = some t) ∧ Sparse env budget t := by
  obtain ⟨plain, o⟩ := sparse.inOrder
  obtain ⟨t, push, pushes⟩ := o.consistent.push_cases o.aligned env sparse.logged key data
    fun _ => sparse.free
  have sameNr := push.nrSegment_eq
  have left : Sparse env budget t := by
    refine ⟨⟨_, (o.of_loggedTo push key).1⟩, ?_, ?_, ?_, ?_⟩
    · rw [push.ledger_eq, sameNr, Nat.add_assoc, Nat.add_comm 1]
      exact sparse.room
    · exact sameNr.symm ▸ sparse.large
    · exact sameNr.symm ▸ sparse.word
    · exact sameNr.symm ▸ sparse.enough
  refine ⟨t, fun gc => ?_, left⟩
  rw [pushes gc, if_neg]
  intro collects
  rw [left.not_saWillTriggerGc] at collects
  exact absurd collects.2.1 Bool.false_ne_true

theorem pushBio (bio : Bio) :
    ∃ t, segbufPushBio env s bio = some t ∧ Sparse env budget t := by
  have key := bioGetBlockAddress_lt bio
  cases modifies : modifiesBuffer s bio with
  | true =>
    obtain ⟨record, mapped, inside, pushed⟩ := segbufPushBio_modify env modifies
    obtain ⟨plain, o⟩ := sparse.inOrder
    have kept := sparse.mono (Nat.le_succ budget)
    exact ⟨_, pushed, ⟨_, (o.modify key mapped inside bio).1⟩, kept.room, kept.large, kept.word,
      kept.enough⟩
  | false =>
    let data := bioGetData bio.pages (bioBlockSectorOffset bio) (bioBase env s bio)
    obtain ⟨t, pushes, left⟩ := (sparse.fillSlot data).push key data
    refine ⟨t, ?_, left⟩
    rw [segbufPushBio_fill env modifies]
    exact pushes (saForegroundGc env)

end Sparse

end SwornDisk.C
