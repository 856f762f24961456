import SwornDisk.Rust.FullDisk
import SwornDisk.Rust.IoWorker

/-!
# Reads over holes

`handle_read_request` advances its cursor only for blocks that are found, so it packs them:
behind a block that was never written everything moves to the front.  The pieces of a
request stand at their own positions exactly if nothing but zeros is found behind such a
block.
-/

namespace SwornDisk.Rust

open Lib List Program

def Piece.of (piece : Piece) (block : List UInt8) : List UInt8 :=
  (block.drop piece.offset).take piece.len

/-- In the states that satisfy `Holds`, an address has the block that `content` gives it, or
was never written; and a lookup stays in these states. -/
structure LooksUp (kernel : Kernel) (Holds : SwornDiskContext → Prop)
    (content : Nat → Option (List UInt8)) : Prop where
  sized : ∀ lba block, content lba = some block → block.length = blockSize
  finds : ∀ s, Holds s → ∀ piece : Piece, piece.offset + piece.len ≤ blockSize →
    ∃ s', (findPiece kernel piece).exec s = (.ok ((content piece.lba).map piece.of), s') ∧ Holds s'

def Piece.expected (content : Nat → Option (List UInt8)) (piece : Piece) : List UInt8 :=
  match content piece.lba with
  | some block => piece.of block
  | none => List.replicate piece.len 0

structure InPlace (content : Nat → Option (List UInt8)) (pieces : List Piece) (len : Nat)
    (buf : List UInt8) : Prop where
  length : buf.length = len
  bytes : ∀ piece ∈ pieces,
    (buf.drop piece.bufOffset).take piece.len = piece.expected content

def Piece.fragment (content : Nat → Option (List UInt8)) (piece : Piece) : Fragment UInt8 where
  found := (content piece.lba).isSome
  data := piece.expected content
  blank missing := by
    rw [Option.isSome_eq_false_iff, Option.isNone_iff_eq_none] at missing
    unfold Piece.expected
    rw [missing]
    exact fun _ member => List.eq_of_mem_replicate member

variable {piece : Piece} {s : SwornDiskContext}

section

variable {content : Nat → Option (List UInt8)} {pieces : List Piece}

section

variable (sized : ∀ lba block, content lba = some block → block.length = blockSize)
include sized

theorem Piece.length_expected (inside : piece.offset + piece.len ≤ blockSize) :
    (piece.expected content).length = piece.len := by
  unfold Piece.expected
  split
  · next block found =>
      rw [Piece.of, length_take, length_drop, sized _ _ found]
      omega
  · exact length_replicate

theorem length_spread (inside : ∀ piece ∈ pieces, piece.offset + piece.len ≤ blockSize) :
    (Fragment.spread (pieces.map (Piece.fragment content))).length =
      (pieces.map Piece.len).sum := by
  induction pieces with
  | nil => rfl
  | cons piece rest ih =>
    rw [map_cons, Fragment.spread_cons, length_append, map_cons, sum_cons,
      ih fun other member => inside other (mem_cons_of_mem _ member)]
    congr 1
    exact Piece.length_expected sized (inside piece mem_cons_self)

end

theorem inPlace_iff {beginByte first last : Nat} (buf : List UInt8)
    (sized : ∀ lba block, content lba = some block → block.length = blockSize)
    (row : PieceRow beginByte first last pieces) (begun : beginByte ≤ first)
    (length : beginByte + buf.length = last) :
    (∀ piece ∈ pieces, (buf.drop piece.bufOffset).take piece.len = piece.expected content) ↔
      buf.drop (first - beginByte) = Fragment.spread (pieces.map (Piece.fragment content)) := by
  induction pieces generalizing first with
  | nil =>
    have ended : first = last := row.tiles
    have nothing : buf.drop (first - beginByte) = [] := drop_eq_nil_of_le (by omega)
    simp [nothing, Fragment.spread]
  | cons piece rest ih =>
    obtain ⟨rfl, rowRest⟩ := row.uncons
    have later := ih rowRest (by omega)
    have expected := Piece.length_expected sized (row.inside piece mem_cons_self)
    have behind : beginByte + piece.bufOffset + piece.len - beginByte =
        piece.bufOffset + piece.len := by omega
    rw [behind] at later
    have cut : buf.drop piece.bufOffset = (buf.drop piece.bufOffset).take piece.len ++
        buf.drop (piece.bufOffset + piece.len) := by
      rw [← drop_drop, take_append_drop]
    rw [map_cons, Fragment.spread_cons, forall_mem_cons, later, Nat.add_sub_cancel_left]
    constructor
    · rintro ⟨here, others⟩
      rw [cut, here, others]
      rfl
    · intro same
      have total := rowRest.tiles.total
      rw [cut] at same
      refine append_inj same ?_
      rw [length_take, length_drop]
      rw [expected]
      omega

variable {kernel : Kernel} {Holds : SwornDiskContext → Prop}

theorem exec_readPieces (looks : LooksUp kernel Holds content) (holds : Holds s)
    (inside : ∀ piece ∈ pieces, piece.offset + piece.len ≤ blockSize) (done : List UInt8)
    (room : Nat) (fits : (pieces.map Piece.len).sum ≤ room) :
    ∃ s', (readPieces kernel pieces done.length (done ++ replicate room 0)).exec s =
        (.ok (done ++ Fragment.packed (pieces.map (Piece.fragment content)) ++ replicate
          (room - (Fragment.packed (pieces.map (Piece.fragment content))).length) 0), s') ∧
      Holds s' := by
  induction pieces generalizing s done room with
  | nil =>
    refine ⟨s, ?_, holds⟩
    rw [readPieces, exec_pure]
    simp [Fragment.packed]
  | cons piece rest ih =>
    have here := inside piece mem_cons_self
    have later : ∀ other ∈ rest, other.offset + other.len ≤ blockSize :=
      fun other member => inside other (mem_cons_of_mem _ member)
    rw [map_cons, sum_cons] at fits
    obtain ⟨s₁, found, holds₁⟩ := looks.finds s holds piece here
    rw [readPieces, if_pos (by rw [length_append, length_replicate]; omega),
      exec_bind, found, map_cons]
    cases content' : content piece.lba with
    | none =>
      have hole : (piece.fragment content).found = false := congrArg Option.isSome content'
      rw [Fragment.packed_cons_hole hole]
      exact ih holds₁ later done room (by omega)
    | some block =>
      have hit : (piece.fragment content).found = true := congrArg Option.isSome content'
      have data : (piece.fragment content).data = piece.of block := by
        simp only [Piece.fragment, Piece.expected, content']
      have length : (piece.of block).length = piece.len := by
        rw [← data]
        exact Piece.length_expected looks.sized here
      have copied : copyFromSlice (done ++ replicate room 0) done.length (piece.of block) =
          (done ++ piece.of block) ++ replicate (room - piece.len) 0 := by
        rw [copyFromSlice, take_left, drop_append, drop_replicate, length]
        simp
      obtain ⟨s', run, holds'⟩ := ih holds₁ later (done ++ piece.of block) (room - piece.len)
        (by omega)
      refine ⟨s', ?_, holds'⟩
      rw [length_append, length] at run
      rw [Fragment.packed_cons_found hit, data, length_append, length]
      simp only [Option.map_some]
      rw [copied, run, append_assoc, append_assoc, Nat.sub_sub]
      simp

/-- Nothing but zeros is found behind a block that was never written. -/
def ZeroBehindMissing (content : Nat → Option (List UInt8)) (pieces : List Piece) : Prop :=
  pieces.Pairwise fun left right => content left.lba = none → 0 < left.len →
    ∀ block, content right.lba = some block → ∀ byte ∈ right.of block, byte = 0

theorem zeroBehindHoles_iff :
    Fragment.ZeroBehindHoles (pieces.map (Piece.fragment content)) ↔
      ZeroBehindMissing content pieces := by
  unfold Fragment.ZeroBehindHoles ZeroBehindMissing
  rw [pairwise_map]
  refine Pairwise.iff fun left right => ?_
  have missing : (left.fragment content).found = false ↔ content left.lba = none :=
    Option.isSome_eq_false_iff.trans Option.isNone_iff_eq_none
  constructor
  · intro zeros hole positive block found byte member
    have data : (left.fragment content).data = replicate left.len 0 := by
      simp only [Piece.fragment, Piece.expected, hole]
    refine zeros (missing.mpr hole) ?_ (congrArg Option.isSome found) byte ?_
    · rw [data]
      simpa using positive.ne'
    · simpa only [Piece.fragment, Piece.expected, found] using member
  · intro zeros hole nonempty found byte member
    have hole := missing.mp hole
    obtain ⟨block, found⟩ := Option.isSome_iff_exists.mp found
    refine zeros hole ?_ block found byte ?_
    · simp only [Piece.fragment, Piece.expected, hole] at nonempty
      exact Nat.pos_of_ne_zero fun empty => nonempty (by rw [empty]; rfl)
    · simpa only [Piece.fragment, Piece.expected, found] using member

end

/-- With pieces and lookups that are right, a read returns every piece at its own position
exactly if nothing but zeros is found behind a block that was never written. -/
theorem read_in_place_iff {kernel : Kernel} {Holds : SwornDiskContext → Prop}
    {content : Nat → Option (List UInt8)} (looks : LooksUp kernel Holds content)
    {s : SwornDiskContext} (holds : Holds s) {beginByte len : Nat} {pieces : List Piece}
    (row : PieceRow beginByte beginByte (beginByte + len) pieces) :
    (∃ buf s', (readPieces kernel pieces 0 (List.replicate len 0)).exec s = (.ok buf, s') ∧
      InPlace content pieces len buf) ↔ ZeroBehindMissing content pieces := by
  have total : (pieces.map Piece.len).sum = len := by
    have total := row.tiles.total
    rw [map_map] at total
    exact Nat.add_left_cancel total
  have length := length_spread looks.sized row.inside
  obtain ⟨s', run, -⟩ := exec_readPieces looks holds row.inside [] len total.le
  rw [length_nil, nil_append, nil_append] at run
  rw [← zeroBehindHoles_iff, ← Fragment.packed_eq_spread_iff, length, total, run]
  have place : ∀ buf : List UInt8, buf.length = len →
      ((∀ piece ∈ pieces, (buf.drop piece.bufOffset).take piece.len = piece.expected content) ↔
        buf = Fragment.spread (pieces.map (Piece.fragment content))) := by
    intro buf sized
    have placed := inPlace_iff buf looks.sized row le_rfl (by rw [sized])
    rwa [Nat.sub_self, drop_zero] at placed
  constructor
  · rintro ⟨buf, s'', result, inPlace⟩
    obtain rfl := Except.ok.inj (Prod.mk.inj result).1
    exact (place _ inPlace.length).mp inPlace.bytes
  · intro same
    refine ⟨_, s', rfl, ?_, ?_⟩
    · rw [same, length, total]
    · rw [place _ (by rw [same, length, total])]
      exact same

def BitCategory.Tableless (category : BitCategory BitInfo) : Prop :=
  ∀ level, category.category level = []

theorem BitCategory.tableless_new : (BitCategory.new : BitCategory BitInfo).Tableless :=
  fun _ => rfl

def noTables : BitCategory BitInfo → Nat → Option Record := fun _ _ => none

theorem findInCategory_tableless (kernel : Kernel) {category : BitCategory BitInfo}
    (tableless : category.Tableless) (lba : Nat) :
    findInCategory kernel category lba = pure none := by
  have empty : (range lsmTreeMaxLevel).flatMap category.iterLevel = [] := by
    rw [flatMap_eq_nil_iff]
    intro level _
    rw [BitCategory.iterLevel, tableless level, reverse_nil]
  rw [findInCategory, empty, findInTables]

variable {kernel : Kernel} {nrSegments : Nat}

theorem exec_findPiece (inv : PathInv nrSegments s.path)
    (tableless : s.path.checkpoint.bitCategory.Tableless)
    (inside : piece.offset + piece.len ≤ blockSize) {block : Option (List UInt8)}
    (sized : ∀ bytes ∈ block, bytes.length = blockSize)
    (read : readBlock kernel noTables s.path piece.lba = .ok block) :
    (findPiece kernel piece).exec s = (.ok (block.map piece.of), s) := by
  unfold readBlock DataSegment.read at read
  unfold findPiece
  rw [exec_bind, exec_get]
  simp only
  rw [exec_bind, exec_ofExcept]
  unfold DataSegment.readPart
  cases mapped : s.path.segment.lbaIndexMap.find piece.lba with
  | some index =>
    rw [mapped] at read
    obtain rfl := Except.ok.inj read
    have last := inv.inside piece.lba index mapped
    simp only
    rw [if_pos (by omega)]
    simp only [exec_pure, Option.map_some, Piece.of]
    rw [Memory.take_drop_read _ inside]
  | none =>
    rw [mapped] at read
    simp only [lookupRecord, noTables, Option.or_none] at read
    simp only
    cases logged : s.path.memtable.find piece.lba with
    | some record =>
      rw [logged] at read
      simp only at read ⊢
      cases opened : openRecord kernel s.path.dataDev record with
      | error fault =>
        rw [opened] at read
        cases read
      | ok bytes =>
        rw [opened] at read
        obtain rfl := Except.ok.inj read
        have length := sized bytes rfl
        rw [exec_bind, exec_ofExcept, readPieceWithRecord, opened, ok_bind,
          sliceOf_inside (by omega)]
        rfl
    | none =>
      rw [logged] at read
      obtain rfl := Except.ok.inj read
      rw [findInCategory_tableless kernel tableless]
      rfl

variable {path : DataPath (BitCategory BitInfo)}

theorem looksUp_path (inv : PathInv nrSegments path)
    (tableless : path.checkpoint.bitCategory.Tableless) {content : Nat → Option (List UInt8)}
    (sized : ∀ lba block, content lba = some block → block.length = blockSize)
    (reads : ∀ lba, readBlock kernel noTables path lba = .ok (content lba)) :
    LooksUp kernel (fun s => s.path = path) content where
  sized := sized
  finds := by
    rintro s rfl piece inside
    exact ⟨s, exec_findPiece inv tableless inside (fun bytes found => sized _ bytes found)
      (reads piece.lba), rfl⟩

/-- A new device, mounted: nothing is buffered, recorded or listed, and the first segment
has free blocks. -/
structure NewlyMounted (dev : Device) (path : DataPath (BitCategory BitInfo)) : Prop where
  live : LiveInv noTables (superBlockDataSegments dev) path
  buffer : path.segment = DataSegment.new 0
  memtable : path.memtable = MemTable.new
  category : path.checkpoint.bitCategory = BitCategory.new
  room : ∃ dst, path.checkpoint.dst[path.checkpoint.currentDataSegment]? = some dst ∧
    dst.bvm.isFull = false

section

variable (kernel) (dev : Device)

def Host.initialised : Host (BitCategory BitInfo) :=
  (Host.blank dev).run kernel BitCategory.new [.ctr true 0]

theorem hostLive_initialised :
    HostLive noTables (superBlockDataSegments dev) (Host.initialised kernel dev) := by
  refine hostLive_run kernel (fun _ => rfl) dev ?_
  intro done event rest split
  cases done with
  | nil =>
    obtain ⟨rfl, -⟩ := List.cons.inj split
    trivial
  | cons head tail => simp at split

theorem newlyMounted_initialised (positive : 0 < superBlockDataSegments dev) :
    ∃ path, (Host.initialised kernel dev).context = some path ∧ NewlyMounted dev path := by
  let checkpoint : Checkpoint (BitCategory BitInfo) :=
    Checkpoint.new BitCategory.new (superBlockDataSegments dev) 0 fun i => kernel.timestamp (0 + i)
  have valid := BitMap.valid_new (superBlockDataSegments dev)
  obtain ⟨index, svt, taken⟩ := valid.alloc_of_clear positive (BitMap.bit_new _ 0)
  rw [← svtAlloc_eq] at taken
  obtain ⟨rfl, -, -⟩ := (allocated_new (superBlockDataSegments dev)).svtAlloc_ok taken
  have fresh : svtAlloc checkpoint.dataSvt = .ok (0, svt) := taken
  have mounted : (Host.initialised kernel dev).context = some
      { segment := DataSegment.new (0 * segmentSectors)
        checkpoint := { checkpoint with dataSvt := svt }
        memtable := MemTable.new
        dataDev := dev
        draws := 0
        ticks := 0 } := by
    change ((Host.blank dev).ctr (some checkpoint)).context = _
    simp only [Host.ctr, fresh]
    rfl
  have live := (hostLive_initialised kernel dev).live _ mounted
  refine ⟨_, mounted, live, ?_, rfl, rfl, ?_⟩
  · simp only [Nat.zero_mul]
  · refine ⟨Dst.new (kernel.timestamp (0 + 0)), ?_, ?_⟩
    · change ((range (superBlockDataSegments dev)).map _)[0]? = _
      rw [getElem?_map, getElem?_range positive]
      rfl
    · simp only [Dst.new, BitMap.new, BitMap.isFull, beq_eq_false_iff_ne]
      unfold segmentBlockNumber
      decide

end

def oneBlock (lba other : Nat) : Option (List UInt8) :=
  if other = lba then some onesBlock else none

theorem looksUp_first_write (kernel : Kernel) {dev : Device} (mounted : NewlyMounted dev path)
    (lba : Nat) :
    LooksUp kernel (fun s => s.path = (path.write kernel lba 0 onesBlock).2) (oneBlock lba) := by
  obtain ⟨dst, entry, room⟩ := mounted.room
  have inv := mounted.live.toPathInv
  have missing : path.segment.lbaIndexMap.find lba = none := by
    rw [mounted.buffer]
    rfl
  have index : SameIndex path (path.write kernel lba 0 onesBlock).2 := by
    obtain ⟨block, s', allocated, -, written⟩ :=
      inv.write_logged kernel missing entry room onesBlock_fits
    have first := sameIndex_allocBlock kernel path
    rw [allocated] at first
    rw [written]
    exact ⟨first.memtable, first.bitCategory, first.dataDev⟩
  refine looksUp_path (mounted.live.write kernel lba onesBlock_fits).toPathInv ?_ ?_ ?_
  · rw [index.bitCategory, mounted.category]
    exact BitCategory.tableless_new
  · intro other block found
    unfold oneBlock at found
    split at found
    · obtain rfl := Option.some.inj found
      exact length_onesBlock
    · cases found
  · intro other
    have read := read_logged inv kernel missing entry room length_onesBlock other
    unfold readBlock oneBlock
    rw [read, index.lookupRecord_eq noTables]
    by_cases same : other = lba
    · rw [if_pos same, if_pos same]
    · have empty : path.segment.read other = none := by
        rw [mounted.buffer]
        rfl
      rw [if_neg same, if_neg same, empty, lookupRecord, mounted.memtable, MemTable.find_new]
      rfl

def oneAndAHalfBlocks : List Piece := [⟨0, 0, 4096, 0⟩, ⟨1, 0, 2048, 4096⟩]

theorem requestPieces_oneAndAHalfBlocks : requestPieces 0 6144 = .ok oneAndAHalfBlocks := by
  decide +kernel

theorem row_oneAndAHalfBlocks : PieceRow 0 0 (0 + 6144) oneAndAHalfBlocks := by
  constructor <;> simp [oneAndAHalfBlocks, Tiles, Piece.span, blockSize_eq]

theorem superBlockDataSegments_pos : 0 < superBlockDataSegments oneSegment := by
  rw [superBlockDataSegments_oneSegment]
  exact Nat.zero_lt_one

/-- The hole comes last. -/
theorem read_in_place_first_block :
    ∃ path, (Host.initialised plainKernel oneSegment).context = some path ∧
      ∃ buf s', (readPieces plainKernel oneAndAHalfBlocks 0 (List.replicate 6144 0)).exec
          ⟨(path.write plainKernel 0 0 onesBlock).2, IndexStore.mount oneSegment 0⟩ =
            (.ok buf, s') ∧
        InPlace (oneBlock 0) oneAndAHalfBlocks 6144 buf := by
  obtain ⟨path, context, mounted⟩ :=
    newlyMounted_initialised plainKernel oneSegment superBlockDataSegments_pos
  refine ⟨path, context, ?_⟩
  refine (read_in_place_iff (looksUp_first_write plainKernel mounted 0) rfl
    row_oneAndAHalfBlocks).mpr ?_
  unfold ZeroBehindMissing oneAndAHalfBlocks
  rw [pairwise_pair]
  intro missing
  cases missing

/-- The first block was never written: the data of the second takes its place. -/
theorem not_in_place_second_block :
    ∃ path, (Host.initialised plainKernel oneSegment).context = some path ∧
      ∃ buf s', (IoWorker.handleReadRequest plainKernel 0 6144).exec
          ⟨(path.write plainKernel 1 0 onesBlock).2, IndexStore.mount oneSegment 0⟩ =
            (.ok buf, s') ∧
        buf.head? = some 1 ∧ ¬ InPlace (oneBlock 1) oneAndAHalfBlocks 6144 buf := by
  obtain ⟨path, context, mounted⟩ :=
    newlyMounted_initialised plainKernel oneSegment superBlockDataSegments_pos
  refine ⟨path, context, ?_⟩
  have looks := looksUp_first_write plainKernel mounted 1
  let s : SwornDiskContext :=
    ⟨(path.write plainKernel 1 0 onesBlock).2, IndexStore.mount oneSegment 0⟩
  have here : s.path = (path.write plainKernel 1 0 onesBlock).2 := rfl
  have run := exec_readPieces looks here row_oneAndAHalfBlocks.inside [] 6144 (by decide)
  have packed : Fragment.packed (oneAndAHalfBlocks.map (Piece.fragment (oneBlock 1))) =
      List.replicate 2048 1 := by
    have block : Piece.of ⟨1, 0, 2048, 4096⟩ onesBlock = List.replicate 2048 1 := by
      rw [Piece.of, onesBlock, blockSize_eq, drop_zero, take_replicate]
      rfl
    rw [← block, oneAndAHalfBlocks, map_cons, map_cons, Fragment.packed_cons_hole rfl,
      Fragment.packed_cons_found rfl]
    exact append_nil _
  rw [packed] at run
  obtain ⟨s', run, -⟩ := run
  rw [IoWorker.handleReadRequest, requestPieces_oneAndAHalfBlocks, exec_bind,
    exec_ofExcept]
  refine ⟨_, s', run, rfl, ?_⟩
  intro inPlace
  have first := inPlace.bytes ⟨0, 0, 4096, 0⟩ mem_cons_self
  have zeros : Piece.expected (oneBlock 1) ⟨0, 0, 4096, 0⟩ = List.replicate 4096 0 := rfl
  rw [zeros] at first
  have byte : (some 1 : Option UInt8) = some 0 := congrArg List.head? first
  exact absurd byte (by decide)

end SwornDisk.Rust
