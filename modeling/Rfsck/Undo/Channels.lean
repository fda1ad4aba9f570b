import Rfsck.Undo.Layout

/-!
# The channels below the undo manager

`undo_io.c` works on two channels of its backing manager: `real`, the device, and `undo_file`.

* `IoChannel σ` is what it asks of a channel, over a state `σ` that both channels share.
* `Files` are two files with the outcomes of the operations to come, those that change the
  device apart from the others.  Its channels are those of `unix_io.c` as a caller sees them
  while the cache is transparent: positions are natural numbers, one call transfers at most
  `maxRwCount` bytes, and of a read of one block that comes up short nothing arrives, since
  the cache keeps it.
-/

namespace Rfsck
namespace Undo

open Storage
open Redo (fit length_fit fit_of_length Outcome maxRwCount)
open UnixIo (Errcode transferSize)

/-- A failed read: the code, the length that `read_error` is told, and the bytes that have
arrived in the buffer. -/
structure ReadFailure where
  code : Errcode
  actual : Nat
  arrived : Bytes
deriving DecidableEq, Repr

/-- The functions of a channel. -/
structure IoChannel (σ : Type) where
  blockSize : σ → Nat
  setBlksize : Nat → σ → σ
  setOffset : Nat → σ → σ
  fileSize : σ → Nat
  readBlk64 : Nat → Int → σ → Except ReadFailure Bytes × σ
  writeBlk64 : Nat → Int → Bytes → σ → Errcode × σ
  writeByte : Nat → Bytes → σ → Errcode × σ
  discard : Nat → Nat → σ → Errcode × σ
  zeroout : Nat → Nat → σ → Errcode × σ
  flush : σ → Errcode × σ

/-- A file that is open as a channel. -/
structure FileChannel where
  file : ByteFile
  blockSize : Nat
  offset : Nat

namespace FileChannel

def place (c : FileChannel) (block : Nat) : Nat :=
  block * c.blockSize + c.offset

/-- A read of at most `limit` bytes. -/
def readUpTo (limit block : Nat) (count : Int) (c : FileChannel) : Except ReadFailure Bytes :=
  let size := transferSize c.blockSize count
  let bytes := c.file.pread (c.place block) (min size limit)
  if bytes.length = size then
    .ok bytes
  else
    .error ⟨.shortRead, bytes.length, if count = 1 then [] else bytes⟩

/-- A write of at most `limit` bytes of the data. -/
def writeUpTo (limit position : Nat) (data : Bytes) (c : FileChannel) : Errcode × FileChannel :=
  let written := data.take limit
  (if written.length = data.length then .ok else .shortWrite,
    { c with file := c.file.pwrite position written })

/-- What the outcome of an operation lets a transfer move. -/
def limit : Outcome → Option Nat
  | .ok => some maxRwCount
  | .short n => some (min n maxRwCount)
  | .fail => none

/-- `read_blk64`. -/
def readBlk64 (outcome : Outcome) (block : Nat) (count : Int) (c : FileChannel) :
    Except ReadFailure Bytes :=
  match limit outcome with
  | some n => c.readUpTo n block count
  | none => .error ⟨.errno, 0, []⟩

/-- `write_blk64`; `buf` is the memory at the pointer. -/
def writeBlk64 (outcome : Outcome) (block : Nat) (count : Int) (buf : Bytes) (c : FileChannel) :
    Errcode × FileChannel :=
  match limit outcome with
  | some n => c.writeUpTo n (c.place block) (fit (transferSize c.blockSize count) buf)
  | none => (.errno, c)

/-- `write_byte`. -/
def writeByte (outcome : Outcome) (offset : Nat) (buf : Bytes) (c : FileChannel) :
    Errcode × FileChannel :=
  match limit outcome with
  | some n => c.writeUpTo n (offset + c.offset) buf
  | none => (.errno, c)

/-- `discard`: a hole, which reads as zeros. -/
def discard (outcome : Outcome) (block count : Nat) (c : FileChannel) : Errcode × FileChannel :=
  match outcome with
  | .ok => (.ok, { c with file := c.file.punchHole (c.place block) (count * c.blockSize) })
  | _ => (.errno, c)

/-- `zeroout`: the file is extended over the range, which reads as zeros. -/
def zeroout (outcome : Outcome) (block count : Nat) (c : FileChannel) : Errcode × FileChannel :=
  match outcome with
  | .ok => (.ok, { c with
      file := c.file.pwrite (c.place block) (List.replicate (count * c.blockSize) 0) })
  | _ => (.errno, c)

/-- `flush`. -/
def flush (outcome : Outcome) : Errcode :=
  match outcome with
  | .ok => .ok
  | _ => .errno

end FileChannel

/-- The device and the undo file, with the outcomes of the changes of the device (`requests`)
and of all other operations to come. -/
structure Files where
  real : FileChannel
  undoFile : FileChannel
  outcomes : List Outcome
  requests : List Outcome

namespace Files

def next (s : Files) : Outcome :=
  s.outcomes.headD .ok

def advance (s : Files) : Files :=
  { s with outcomes := s.outcomes.tail }

def onReal (f : Outcome → FileChannel → Errcode × FileChannel) (s : Files) : Errcode × Files :=
  let (retval, real) := f (s.requests.headD .ok) s.real
  (retval, { s with real := real, requests := s.requests.tail })

/-- A change of the undo file. -/
def onUndoFile (f : Outcome → FileChannel → Errcode × FileChannel) (s : Files) :
    Errcode × Files :=
  let (retval, undoFile) := f s.next s.undoFile
  (retval, { s.advance with undoFile := undoFile })

/-- The channel `real`. -/
def realChannel : IoChannel Files where
  blockSize := fun s => s.real.blockSize
  setBlksize := fun n s => { s with real.blockSize := n }
  setOffset := fun n s => { s with real.offset := n }
  fileSize := fun s => s.real.file.size
  readBlk64 := fun block count s => (s.real.readBlk64 s.next block count, s.advance)
  writeBlk64 := fun block count buf => onReal (FileChannel.writeBlk64 · block count buf)
  writeByte := fun offset buf => onReal (FileChannel.writeByte · offset buf)
  discard := fun block count => onReal (FileChannel.discard · block count)
  zeroout := fun block count => onReal (FileChannel.zeroout · block count)
  flush := fun s => (FileChannel.flush s.next, s.advance)

/-- The channel `undo_file`. -/
def undoChannel : IoChannel Files where
  blockSize := fun s => s.undoFile.blockSize
  setBlksize := fun n s => { s with undoFile.blockSize := n }
  setOffset := fun n s => { s with undoFile.offset := n }
  fileSize := fun s => s.undoFile.file.size
  readBlk64 := fun block count s => (s.undoFile.readBlk64 s.next block count, s.advance)
  writeBlk64 := fun block count buf => onUndoFile (FileChannel.writeBlk64 · block count buf)
  writeByte := fun offset buf => onUndoFile (FileChannel.writeByte · offset buf)
  discard := fun block count => onUndoFile (FileChannel.discard · block count)
  zeroout := fun block count => onUndoFile (FileChannel.zeroout · block count)
  flush := fun s => (FileChannel.flush s.next, s.advance)

end Files

end Undo
end Rfsck
