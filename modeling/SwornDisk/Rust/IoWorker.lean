import SwornDisk.Lib.Fragments
import SwornDisk.Rust.BitLookup
import SwornDisk.Rust.RequestSplit

/-!
# Request handlers of the Rust implementation

`IoWorker::handle_read_request` and `IoWorker::handle_write_request` over the data segment
buffer, the memtable and the block index tables.  The read handler keeps a cursor into the
buffer of the request, which only a block that is found moves on.  Allocation of kernel
memory is taken to succeed.
-/

namespace SwornDisk.Rust

open Lib

/-- What the handlers use of `SwornDiskContext`. -/
structure SwornDiskContext where
  path : DataPath (BitCategory BitInfo)
  index : IndexStore

abbrev IoProgram (α : Type) : Type := Program Fault SwornDiskContext α

namespace SwornDiskContext

def onIndex {α : Type} (prog : IndexProgram α) : IoProgram α := do
  let s ← get
  let outcome := prog.exec s.index
  set { s with index := outcome.2 }
  Program.ofExcept outcome.1

def onPath {α : Type}
    (step : DataPath (BitCategory BitInfo) → Except Fault α × DataPath (BitCategory BitInfo)) :
    IoProgram α := do
  let s ← get
  let outcome := step s.path
  set { s with path := outcome.2 }
  Program.ofExcept outcome.1

end SwornDiskContext

open SwornDiskContext

/-- `DataSegment::read` -/
def DataSegment.readPart (segment : DataSegment) (lba offset len : Nat) :
    Except Fault (Option (List UInt8)) :=
  match segment.lbaIndexMap.find lba with
  | some index =>
    if index + offset + len ≤ segmentSize then
      .ok (some (segment.buffer.read (index + offset) len))
    else .error .panic
  | none => .ok none

/-- Read and decrypt the block of a record, and take a piece of it. -/
def readPieceWithRecord (kernel : Kernel) (dataDev : Device) (record : Record) (piece : Piece) :
    Except Fault (List UInt8) := do
  let block ← openRecord kernel dataDev record
  sliceOf block piece.offset (piece.offset + piece.len)

/-- Look for a piece in the segment buffer, the memtable and the block index tables. -/
def findPiece (kernel : Kernel) (piece : Piece) : IoProgram (Option (List UInt8)) := do
  let s ← get
  match ← Program.ofExcept (s.path.segment.readPart piece.lba piece.offset piece.len) with
  | some bytes => return some bytes
  | none =>
    match s.path.memtable.find piece.lba with
    | some record =>
      let bytes ← Program.ofExcept (readPieceWithRecord kernel s.path.dataDev record piece)
      return some bytes
    | none =>
      match ← onIndex (findInCategory kernel s.path.checkpoint.bitCategory piece.lba) with
      | some record =>
        let bytes ← Program.ofExcept (readPieceWithRecord kernel s.path.dataDev record piece)
        return some bytes
      | none => return none

/-- `buf[offset..offset + len].copy_from_slice(bytes)` inside the buffer. -/
def copyFromSlice (buf : List UInt8) (offset : Nat) (bytes : List UInt8) : List UInt8 :=
  buf.take offset ++ bytes ++ buf.drop (offset + bytes.length)

/-- The loop of `handle_read_request`, with its own `buf_offset`. -/
def readPieces (kernel : Kernel) : List Piece → Nat → List UInt8 → IoProgram (List UInt8)
  | [], _, buf => return buf
  | piece :: rest, bufOffset, buf =>
    -- the slice of the buffer is taken before the block is looked up
    if bufOffset + piece.len ≤ buf.length then do
      match ← findPiece kernel piece with
      | some bytes =>
        readPieces kernel rest (bufOffset + piece.len) (copyFromSlice buf bufOffset bytes)
      | none => readPieces kernel rest bufOffset buf
    else throw .panic

/-- `IoWorker::handle_read_request`: what the request's buffer is set to. -/
def IoWorker.handleReadRequest (kernel : Kernel) (beginSector len : Nat) :
    IoProgram (List UInt8) := do
  let pieces ← Program.ofExcept (requestPieces beginSector len)
  readPieces kernel pieces 0 (List.replicate len 0)

def memtableThreshold : Nat := 65536

/-- Minor compaction: convert the memtable, add the table at level 0 and clear. -/
def convertMemtable (kernel : Kernel) : IoProgram Unit := do
  let s ← get
  let bit ← onIndex (Bit.fromMemtable kernel s.path.memtable)
  onPath fun path =>
    match path.checkpoint.bitCategory.addBit bit.toBitInfo 0 true with
    | (.error err, category) =>
      (.error (.error err),
        { path with checkpoint := { path.checkpoint with bitCategory := category } })
    | (.ok (), category) =>
      (.ok (),
        { path with
          checkpoint := { path.checkpoint with bitCategory := category }
          memtable := path.memtable.clear })

/-- One round of the loop of `handle_write_request`. -/
def writePiece (kernel : Kernel) (data : List UInt8) (piece : Piece) : IoProgram Unit := do
  let block ← Program.ofExcept (sliceOf data piece.bufOffset (piece.bufOffset + piece.len))
  let _ ← onPath fun path => path.write kernel piece.lba piece.offset block
  let s ← get
  if memtableThreshold ≤ s.path.memtable.size then convertMemtable kernel else return ()

/-- The loop of `handle_write_request`. -/
def writePieces (kernel : Kernel) (data : List UInt8) : List Piece → IoProgram Unit
  | [] => return ()
  | piece :: rest => do
      writePiece kernel data piece
      writePieces kernel data rest

def IoWorker.handleWriteRequest (kernel : Kernel) (beginSector : Nat) (data : List UInt8) :
    IoProgram Unit := do
  let pieces ← Program.ofExcept (requestPieces beginSector data.length)
  writePieces kernel data pieces

end SwornDisk.Rust
