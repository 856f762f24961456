import SwornDisk.Lib.Tiling
import SwornDisk.Rust.Serialize

/-!
# Splitting a request into blocks

`get_lba_range` and the lengths and offsets that `IoWorker::handle_read_request` and
`IoWorker::handle_write_request` compute for each block of a request.  The last block of
a request is taken to have `end_offset` bytes, which is what the request leaves of it.
-/

namespace SwornDisk.Rust

open Lib List

/-- What `get_lba_range` returns: the blocks `[begin_lba, end_lba)`, the bytes of the first
one before the request, and those of the last one behind it. -/
structure LbaRange where
  beginLba : Nat
  endLba : Nat
  beginOffset : Nat
  endOffset : Nat
deriving DecidableEq

/-- The result of a `u64` operation; an overflow panics. -/
def checkedWord (n : Nat) : Except Fault Nat :=
  if n < 2 ^ 64 then .ok n else .error .panic

def getLbaRange (beginSector len : Nat) : Except Fault LbaRange := do
  let beginByte ← checkedWord (beginSector * sectorSize)
  let endByte ← checkedWord (beginByte + len)
  let beginLba := beginByte / blockSize
  let endLba := if 0 < endByte then (endByte - 1) / blockSize + 1 else 1
  let beginOffset := beginByte - beginLba * blockSize
  let blocksEnd ← checkedWord (endLba * blockSize)
  return ⟨beginLba, endLba, beginOffset, blocksEnd - endByte⟩

example : getLbaRange 0 4096 = .ok ⟨0, 1, 0, 0⟩ := by decide +kernel

example : getLbaRange 0 0 = .ok ⟨0, 1, 0, 4096⟩ := by decide +kernel

/-- The part of a request in one block: `len` bytes from `offset` on, which stand at
`bufOffset` in the buffer of the request. -/
structure Piece where
  lba : Nat
  offset : Nat
  len : Nat
  bufOffset : Nat
deriving DecidableEq

def Piece.span (piece : Piece) : Span :=
  ⟨piece.lba * blockSize + piece.offset, piece.len⟩

/-- The length of the piece in a block; `len` is that of the request. -/
def LbaRange.pieceLen (range : LbaRange) (len lba : Nat) : Nat :=
  if lba = range.beginLba then min (blockSize - range.beginOffset) len
  else if lba = range.endLba - 1 then range.endOffset
  else blockSize

def LbaRange.pieceOffset (range : LbaRange) (lba : Nat) : Nat :=
  if lba = range.beginLba then range.beginOffset else 0

/-- The loop over the blocks with its running `buf_offset`. -/
def LbaRange.split (range : LbaRange) (len : Nat) : List Nat → Nat → List Piece
  | [], _ => []
  | lba :: rest, bufOffset =>
    ⟨lba, range.pieceOffset lba, range.pieceLen len lba, bufOffset⟩ ::
      range.split len rest (bufOffset + range.pieceLen len lba)

def LbaRange.lbas (range : LbaRange) : List Nat :=
  List.range' range.beginLba (range.endLba - range.beginLba)

def requestPieces (beginSector len : Nat) : Except Fault (List Piece) := do
  let range ← getLbaRange beginSector len
  return range.split len range.lbas 0

theorem blockSize_eq : blockSize = 4096 := by
  unfold blockSize
  rfl

structure LbaRange.Frames (range : LbaRange) (beginByte len : Nat) : Prop where
  begins : range.beginLba * blockSize + range.beginOffset = beginByte
  beginOffset : range.beginOffset < blockSize
  ends : beginByte + len + range.endOffset = range.endLba * blockSize
  endOffset : range.endOffset ≤ blockSize
  endOffset_lt : 0 < beginByte + len → range.endOffset < blockSize

/-- The range is computed without overflow exactly if its blocks end inside the words. -/
theorem getLbaRange_cases (beginSector len : Nat) :
    (beginSector * sectorSize + len ≤ 2 ^ 64 - blockSize ∧
      ∃ range, getLbaRange beginSector len = .ok range ∧
        range.Frames (beginSector * sectorSize) len) ∨
    (2 ^ 64 - blockSize < beginSector * sectorSize + len ∧
      getLbaRange beginSector len = .error .panic) := by
  unfold getLbaRange
  generalize beginSector * sectorSize = beginByte
  simp only [blockSize_eq]
  by_cases fits : beginByte + len ≤ 2 ^ 64 - 4096
  · left
    refine ⟨fits, ?_⟩
    have small : beginByte < 2 ^ 64 := by omega
    have smallEnd : beginByte + len < 2 ^ 64 := by omega
    have smallBlocks : (if 0 < beginByte + len then (beginByte + len - 1) / 4096 + 1 else 1) * 4096
        < 2 ^ 64 := by
      split <;> omega
    rw [checkedWord, if_pos small, ok_bind, checkedWord, if_pos smallEnd, ok_bind]
    rw [checkedWord, if_pos smallBlocks, ok_bind]
    refine ⟨_, rfl, ?_⟩
    constructor <;> simp only [blockSize_eq] <;> (try split) <;> omega
  · right
    refine ⟨by omega, ?_⟩
    by_cases small : beginByte < 2 ^ 64
    · rw [checkedWord, if_pos small, ok_bind]
      by_cases smallEnd : beginByte + len < 2 ^ 64
      · have large : ¬ (if 0 < beginByte + len then (beginByte + len - 1) / 4096 + 1 else 1) * 4096
            < 2 ^ 64 := by
          rw [if_pos (by omega)]
          omega
        rw [checkedWord, if_pos smallEnd, ok_bind]
        rw [checkedWord, if_neg large]
        rfl
      · rw [checkedWord, if_neg smallEnd]
        rfl
    · rw [checkedWord, if_neg small]
      rfl

/-- The request is split into pieces inside their blocks, in ascending order, that cover its
bytes once each and stand in its buffer where their bytes belong. -/
structure Splits (beginSector len : Nat) (pieces : List Piece) : Prop where
  ordered : (pieces.map Piece.lba).Pairwise (· < ·)
  inside : ∀ piece ∈ pieces, piece.offset + piece.len ≤ blockSize
  covered : ∀ byte, pieces.countP (fun piece => piece.span.Contains byte) =
    if beginSector * sectorSize ≤ byte ∧ byte < beginSector * sectorSize + len then 1 else 0
  distance : ∀ piece ∈ pieces,
    piece.lba * blockSize + piece.offset = beginSector * sectorSize + piece.bufOffset
  total : (pieces.map Piece.len).sum = len
  sliced : ∀ piece ∈ pieces, piece.bufOffset + piece.len ≤ len

/-- The request does not reach the last block of the words, and lies in one block or ends in
the middle of one. -/
def SplitsCleanly (beginSector len : Nat) : Prop :=
  beginSector * sectorSize + len ≤ 2 ^ 64 - blockSize ∧
    (beginSector * sectorSize % blockSize + len ≤ blockSize ∨
      (beginSector * sectorSize + len) % blockSize = blockSize / 2)

instance (beginSector len : Nat) : Decidable (SplitsCleanly beginSector len) :=
  inferInstanceAs (Decidable (_ ∧ _))

/-- A row of pieces that covers the bytes from `first` to `last`, each inside its block and
as far into the buffer as it is behind `beginByte`. -/
structure PieceRow (beginByte first last : Nat) (pieces : List Piece) : Prop where
  tiles : Tiles first (pieces.map Piece.span) last
  inside : ∀ piece ∈ pieces, piece.offset + piece.len ≤ blockSize
  distance : ∀ piece ∈ pieces, piece.lba * blockSize + piece.offset = beginByte + piece.bufOffset

theorem PieceRow.nil (beginByte first : Nat) : PieceRow beginByte first first [] :=
  ⟨rfl, by simp, by simp⟩

variable {beginByte first last : Nat} {pieces : List Piece} {piece : Piece}

theorem PieceRow.cons (row : PieceRow beginByte (first + piece.len) last pieces)
    (starts : piece.lba * blockSize + piece.offset = first)
    (inside : piece.offset + piece.len ≤ blockSize)
    (distance : first = beginByte + piece.bufOffset) :
    PieceRow beginByte first last (piece :: pieces) where
  tiles := ⟨starts, row.tiles⟩
  inside other member := by
    rcases mem_cons.mp member with rfl | inRest
    · exact inside
    · exact row.inside other inRest
  distance other member := by
    rcases mem_cons.mp member with rfl | inRest
    · exact starts.trans distance
    · exact row.distance other inRest

theorem PieceRow.uncons (row : PieceRow beginByte first last (piece :: pieces)) :
    first = beginByte + piece.bufOffset ∧
      PieceRow beginByte (first + piece.len) last pieces :=
  ⟨row.tiles.1.symm.trans (row.distance piece mem_cons_self), row.tiles.2,
    fun other member => row.inside other (mem_cons_of_mem _ member),
    fun other member => row.distance other (mem_cons_of_mem _ member)⟩

variable {count : Nat}

namespace LbaRange

variable {range : LbaRange} {beginByte len : Nat}

theorem map_lba_split (range : LbaRange) (len : Nat) (lbas : List Nat) (bufOffset : Nat) :
    (range.split len lbas bufOffset).map Piece.lba = lbas := by
  induction lbas generalizing bufOffset with
  | nil => rfl
  | cons lba rest ih => rw [split, map_cons, ih]

section

variable {lba : Nat} (later : range.beginLba < lba)
include later

theorem split_succ (inside : lba + 1 < range.endLba) (count bufOffset : Nat) :
    range.split len (range' lba (count + 1)) bufOffset =
      ⟨lba, 0, blockSize, bufOffset⟩ ::
        range.split len (range' (lba + 1) count) (bufOffset + blockSize) := by
  rw [range'_succ, split, pieceOffset, pieceLen, if_neg later.ne', if_neg later.ne',
    if_neg (by omega)]

theorem split_last (last : lba + 1 = range.endLba) (bufOffset : Nat) :
    range.split len (range' lba 1) bufOffset = [⟨lba, 0, range.endOffset, bufOffset⟩] := by
  rw [range'_succ, split, pieceOffset, pieceLen, if_neg later.ne', if_neg later.ne',
    if_pos (by omega)]
  rfl

theorem sum_len_split (ends : lba + (count + 1) = range.endLba) (bufOffset : Nat) :
    ((range.split len (range' lba (count + 1)) bufOffset).map Piece.len).sum =
      count * blockSize + range.endOffset := by
  induction count generalizing lba bufOffset with
  | zero =>
    rw [split_last later ends]
    simp
  | succ count ih =>
    rw [split_succ later (by omega), map_cons, sum_cons, ih (by omega) (by omega)]
    simp only [Nat.add_mul, Nat.one_mul]
    omega

end

theorem row_split (frames : range.Frames beginByte len) (half : 2 * range.endOffset = blockSize)
    {lba bufOffset : Nat} (later : range.beginLba < lba) (ends : lba + (count + 1) = range.endLba)
    (distance : lba * blockSize = beginByte + bufOffset) :
    PieceRow beginByte (lba * blockSize) (beginByte + len)
      (range.split len (range' lba (count + 1)) bufOffset) := by
  have ended := frames.ends
  induction count generalizing lba bufOffset with
  | zero =>
    rw [split_last later ends]
    rw [← ends, Nat.zero_add, Nat.succ_mul] at ended
    refine PieceRow.cons ?_ (Nat.add_zero _) (by simpa using frames.endOffset) distance
    have here : lba * blockSize + range.endOffset = beginByte + len := by omega
    rw [here]
    exact PieceRow.nil _ _
  | succ count ih =>
    rw [split_succ later (by omega)]
    refine PieceRow.cons ?_ (Nat.add_zero _) (Nat.zero_add _).le distance
    have next : (lba + 1) * blockSize = beginByte + (bufOffset + blockSize) := by
      rw [Nat.succ_mul]
      omega
    rw [← Nat.succ_mul]
    exact ih (by omega) (by omega) next

theorem split_first (count : Nat) :
    range.split len (range' range.beginLba (count + 1)) 0 =
      ⟨range.beginLba, range.beginOffset, min (blockSize - range.beginOffset) len, 0⟩ ::
        range.split len (range' (range.beginLba + 1) count)
          (min (blockSize - range.beginOffset) len) := by
  rw [range'_succ, split, pieceOffset, pieceLen, if_pos rfl, if_pos rfl, Nat.zero_add]

variable (frames : range.Frames beginByte len)
include frames

theorem Frames.beyond_first (blocks : range.endLba - range.beginLba = count + 2) :
    blockSize < range.beginOffset + len := by
  obtain ⟨begins, -, ends, endOffset, endOffset_lt⟩ := frames
  rw [blockSize_eq] at *
  omega

theorem row_lbas (clean : beginByte % blockSize + len ≤ blockSize ∨
      (beginByte + len) % blockSize = blockSize / 2) :
    PieceRow beginByte beginByte (beginByte + len) (range.split len range.lbas 0) := by
  have begins := frames.begins
  have beginOffset := frames.beginOffset
  have ends := frames.ends
  unfold lbas
  cases blocks : range.endLba - range.beginLba with
  | zero =>
    have empty : len = 0 := by
      have order := Nat.mul_le_mul_right blockSize (Nat.le_of_sub_eq_zero blocks)
      omega
    subst empty
    exact PieceRow.nil _ _
  | succ more =>
    rw [split_first]
    cases more with
    | zero =>
      have inside : range.beginOffset + len ≤ blockSize := by
        rw [blockSize_eq] at *
        omega
      rw [min_eq_right (Nat.le_sub_of_add_le' inside)]
      exact PieceRow.cons (PieceRow.nil _ _) begins inside (Nat.add_zero _).symm
    | succ count =>
      have beyond := frames.beyond_first blocks
      have half : 2 * range.endOffset = blockSize := by
        have short := frames.endOffset_lt (by omega)
        rw [blockSize_eq] at *
        omega
      have second : beginByte + (blockSize - range.beginOffset) =
          (range.beginLba + 1) * blockSize := by
        rw [Nat.succ_mul]
        omega
      rw [min_eq_left (by omega)]
      refine PieceRow.cons ?_ begins (Nat.add_sub_cancel' beginOffset.le).le (Nat.add_zero _).symm
      simp only
      rw [second]
      exact row_split frames half (Nat.lt_succ_self _) (by omega) second.symm

theorem clean_of_sum_len (total : ((range.split len range.lbas 0).map Piece.len).sum = len) :
    beginByte % blockSize + len ≤ blockSize ∨ (beginByte + len) % blockSize = blockSize / 2 := by
  have begins := frames.begins
  have beginOffset := frames.beginOffset
  have ends := frames.ends
  unfold lbas at total
  cases blocks : range.endLba - range.beginLba with
  | zero =>
    left
    rw [blockSize_eq] at *
    omega
  | succ more =>
    cases more with
    | zero =>
      left
      rw [blockSize_eq] at *
      omega
    | succ count =>
      right
      have beyond := frames.beyond_first blocks
      rw [blocks, split_first, map_cons, sum_cons,
        sum_len_split (Nat.lt_succ_self _) (by omega)] at total
      simp only at total
      rw [min_eq_left (by omega)] at total
      rw [blockSize_eq] at *
      omega

end LbaRange

theorem PieceRow.splits {range : LbaRange} {beginSector len : Nat}
    (row : PieceRow (beginSector * sectorSize) (beginSector * sectorSize)
      (beginSector * sectorSize + len) (range.split len range.lbas 0)) :
    Splits beginSector len (range.split len range.lbas 0) where
  ordered := by
    rw [LbaRange.map_lba_split]
    exact pairwise_lt_range'
  inside := row.inside
  covered byte := by
    rw [← row.tiles.countP_contains byte, countP_map]
    rfl
  distance := row.distance
  total := by
    have total := row.tiles.total
    rw [map_map] at total
    exact Nat.add_left_cancel total
  sliced piece member := by
    have bounds := row.tiles.bounds (mem_map_of_mem member)
    have distance := row.distance piece member
    simp only [Piece.span] at bounds
    omega

/-- A request is split as it should be exactly if it lies in one block or ends in the middle
of one. -/
theorem requestPieces_splits_iff (beginSector len : Nat) :
    (∃ pieces, requestPieces beginSector len = .ok pieces ∧ Splits beginSector len pieces) ↔
      SplitsCleanly beginSector len := by
  unfold requestPieces
  rcases getLbaRange_cases beginSector len with ⟨fits, range, found, frames⟩ | ⟨large, panics⟩
  · rw [found, ok_bind]
    constructor
    · rintro ⟨pieces, split, splits⟩
      obtain rfl := Except.ok.inj split
      exact ⟨fits, LbaRange.clean_of_sum_len frames splits.total⟩
    · rintro ⟨-, clean⟩
      exact ⟨_, rfl, (LbaRange.row_lbas frames clean).splits⟩
  · rw [panics]
    constructor
    · rintro ⟨pieces, split, -⟩
      cases split
    · rintro ⟨fits, -⟩
      omega

/-- Two whole blocks: the second piece is empty. -/
theorem not_splits_two_blocks :
    requestPieces 0 8192 = .ok [⟨0, 0, 4096, 0⟩, ⟨1, 0, 0, 4096⟩] ∧
      ¬ ∃ pieces, requestPieces 0 8192 = .ok pieces ∧ Splits 0 8192 pieces := by
  have computed : requestPieces 0 8192 = .ok [⟨0, 0, 4096, 0⟩, ⟨1, 0, 0, 4096⟩] := by
    decide +kernel
  refine ⟨computed, ?_⟩
  rintro ⟨pieces, split, splits⟩
  obtain rfl := Except.ok.inj (computed.symm.trans split)
  have total := splits.total
  simp at total

end SwornDisk.Rust
