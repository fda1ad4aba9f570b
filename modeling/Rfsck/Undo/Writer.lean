import Rfsck.Undo.Channels

/-!
# The undo manager

The functions of `undo_io.c` that save the old content of the device before it is overwritten.

* `undo_write_tdb` walks over the undo blocks of a request.  A block that is not marked yet is
  marked, read from the device and appended to the undo file, and its key is entered into the
  key block in memory: a new key, or the last one made longer.
* `write_undo_indexes` then writes the key block, the header and the copy of the superblock.
* The requests of a caller are passed on to the device once their blocks are saved.

`undo_file` is never null here, allocations do not fail, and the counters of blocks and keys
are natural numbers.
-/

namespace Rfsck
namespace Undo

open Storage
open Redo (fit ext2fsCrc32cLe)
open UnixIo (Errcode)

/-- `struct undo_private_data`, without the channels. -/
structure UndoPrivateData where
  undoBlkNum : Nat
  keyBlkNum : Nat
  superBlkNum : Nat
  firstKeyBlk : Nat
  keyb : UndoKeyBlock
  numKeys : Nat
  keysInBlock : Nat
  tdbDataSize : Nat
  tdbWritten : Int
  offset : Nat
  writtenBlockMap : Nat → Bool
  hdr : UndoHeader

namespace UndoPrivateData

/-- The private data that `undo_open` prepares. -/
def init : UndoPrivateData where
  undoBlkNum := 3
  keyBlkNum := 0
  superBlkNum := 1
  firstKeyBlk := 2
  keyb := .zero 0
  numKeys := 0
  keysInBlock := 0
  tdbDataSize := 0
  tdbWritten := 0
  offset := 0
  writtenBlockMap := fun _ => false
  hdr := .zero

/-- `ext2fs_mark_block_bitmap2`. -/
def mark (d : UndoPrivateData) (blockNum : Nat) : UndoPrivateData :=
  { d with writtenBlockMap := Function.update d.writtenBlockMap blockNum true }

def sealKeyb (d : UndoPrivateData) : UndoPrivateData :=
  { d with keyb := d.keyb.sealed d.tdbDataSize }

/-- The next key block is begun if the current one is full. -/
def rollKeyb (d : UndoPrivateData) : UndoPrivateData :=
  if d.keysInBlock = keysPerBlock d.tdbDataSize then
    { d with
      keyb := .zero d.tdbDataSize
      keysInBlock := 0
      keyBlkNum := d.undoBlkNum
      undoBlkNum := d.undoBlkNum + 1 }
  else
    d

/-- The header for the current state, with the block size of the device and its superblock. -/
def fillHeader (d : UndoPrivateData) (fsBlockSize : Nat) (super : Bytes) : UndoHeader :=
  { d.hdr with
    magic := e2undoMagic
    numKeys := UInt64.ofNat d.numKeys
    superOffset := UInt64.ofNat d.superBlkNum
    keyOffset := UInt64.ofNat d.firstKeyBlk
    fsBlockSize := UInt32.ofNat fsBlockSize
    sbCrc := crc32c super
    fsOffset := UInt64.ofNat d.offset
    fCompat :=
      if d.offset ≠ 0 then d.hdr.fCompat ||| e2undoFeatureCompatFsOffset
      else d.hdr.fCompat &&& ~~~e2undoFeatureCompatFsOffset
    magic_length := length_e2undoMagic }

def lastKey (d : UndoPrivateData) : Option UndoKey :=
  if d.keysInBlock = 0 then none else some (d.keyb.key (d.keysInBlock - 1))

/-- Whether saved data of `size` bytes make the key longer. -/
def continues (d : UndoPrivateData) (blockSize backing size : Nat) (key : UndoKey) : Bool :=
  (key.fsblk.toNat * blockSize + blockSize - 1 + key.size.toNat) % 2 ^ 64 / blockSize = backing ∧
    key.size.toNat + size < e2undoMaxExtentBlocks * d.tdbDataSize

/-- A new key for saved data. -/
def addKey (d : UndoPrivateData) (backing : Nat) (saved : Bytes) : UndoPrivateData :=
  { d with
    numKeys := d.numKeys + 1
    keyb := d.keyb.setKey d.keysInBlock
      { fsblk := UInt64.ofNat backing
        blkCrc := crc32c saved
        size := UInt32.ofNat saved.length }
    keysInBlock := d.keysInBlock + 1 }

/-- The last key gets longer. -/
def extendKey (d : UndoPrivateData) (key : UndoKey) (saved : Bytes) : UndoPrivateData :=
  { d with
    keyb := d.keyb.setKey (d.keysInBlock - 1)
      { key with
        blkCrc := ext2fsCrc32cLe key.blkCrc saved
        size := UInt32.ofNat (key.size.toNat + saved.length) } }

/-- The key of saved data is entered. -/
def enterKey (d : UndoPrivateData) (blockSize backing : Nat) (saved : Bytes) :
    UndoPrivateData :=
  match d.lastKey with
  | some key =>
      if d.continues blockSize backing saved.length key then
        d.extendKey key saved
      else
        d.addKey backing saved
  | none => d.addKey backing saved

end UndoPrivateData

/-- The channel of the undo manager, over the state of the two channels below it. -/
structure State (σ : Type) where
  blockSize : Nat
  data : UndoPrivateData
  sys : σ

/-- The block of the device where an undo block begins. -/
def backingBlkNum (blockSize tdbDataSize offset blockNum : Nat) : Nat :=
  toUnsigned ((toLoff (blockNum * tdbDataSize + offset % tdbDataSize : Nat) -
    toLoff offset).tdiv blockSize)

/-- The count of a transfer of `size` bytes. -/
def transferCount (blockSize size : Nat) : Int :=
  if size % blockSize = 0 then (size / blockSize : Nat) else -size

section Manager

variable {σ : Type} (real undoFile : IoChannel σ)

/-- The first part of `write_undo_indexes`: the key block, if it has keys. -/
def writeKeyBlock (s : State σ) : Errcode × State σ :=
  if s.data.keysInBlock = 0 then
    (.ok, s)
  else
    let s := { s with data := s.data.sealKeyb }
    match undoFile.writeBlk64 s.data.keyBlkNum 1 s.data.keyb.encode s.sys with
    | (.ok, sys) => (.ok, { s with data := s.data.rollKeyb, sys := sys })
    | (retval, sys) => (retval, { s with sys := sys })

/-- The second part: the header, and the superblock with its magic number inverted. -/
def writeHeader (flush : Bool) (s : State σ) : Errcode × State σ :=
  let blockSize := real.blockSize s.sys
  let done := fun (retval : Errcode) (s : State σ) =>
    (retval, { s with sys := real.setBlksize blockSize s.sys })
  match real.readBlk64 1 (-superblockSize) (real.setBlksize superblockOffset s.sys) with
  | (.error e, sys) => done e.code { s with sys := sys }
  | (.ok super, sys) =>
      let s := { s with data.hdr := (s.data.fillHeader blockSize super).sealed, sys := sys }
      match undoFile.writeBlk64 0 (-undoHeaderSize) s.data.hdr.encode s.sys with
      | (.ok, sys) =>
          match undoFile.writeBlk64 s.data.superBlkNum (-superblockSize) (invertMagic super)
              sys with
          | (.ok, sys) =>
              let (retval, sys) := if flush then undoFile.flush sys else (.ok, sys)
              done retval { s with sys := sys }
          | (retval, sys) => done retval { s with sys := sys }
      | (retval, sys) => done retval { s with sys := sys }

/-- `write_undo_indexes`. -/
def writeUndoIndexes (flush : Bool) (s : State σ) : Errcode × State σ :=
  match writeKeyBlock undoFile s with
  | (.ok, s) => writeHeader real undoFile flush s
  | (retval, s) => (retval, s)

/-- Space for one of the blocks before the data. -/
def setupBlock (i : Nat) (s : State σ) : Errcode × State σ :=
  let (block, sys) :=
    match undoFile.readBlk64 i 1 s.sys with
    | (.ok bytes, sys) => (bytes, sys)
    | (.error _, sys) => (List.replicate s.data.tdbDataSize 0, sys)
  let s := { s with data.keyb := .decode block }
  match undoFile.writeBlk64 i 1 block sys with
  | (.ok, sys) =>
      let (retval, sys) := undoFile.flush sys
      (retval, { s with sys := sys })
  | (retval, sys) => (retval, { s with sys := sys })

/-- The loop over the blocks before the data. -/
def setupBlocks : List Nat → State σ → Errcode × State σ
  | [], s => (.ok, s)
  | i :: is, s =>
      match setupBlock undoFile i s with
      | (.ok, s) => setupBlocks is s
      | (retval, s) => (retval, s)

/-- `undo_setup_tdb`. -/
def undoSetupTdb (s : State σ) : Errcode × State σ :=
  if s.data.tdbWritten = 1 then
    (.ok, s)
  else
    let s := { s with
      data.tdbWritten := 1
      data.writtenBlockMap := fun _ => false
      data.keyBlkNum := s.data.firstKeyBlk
      data.hdr.blockSize := UInt32.ofNat s.data.tdbDataSize
      sys := undoFile.setBlksize s.data.tdbDataSize s.sys }
    match setupBlocks undoFile [0, 1, 2] s with
    | (.ok, s) => (.ok, { s with data.keyb := .zero s.data.tdbDataSize })
    | (retval, s) => (retval, s)

/-- Saved data go to the undo file: the key, the data, and the indexes. -/
def storeBlock (backing : Nat) (saved : Bytes) (s : State σ) : Round (Errcode × State σ) :=
  let count := transferCount (undoFile.blockSize s.sys) saved.length
  let s := { s with data := s.data.enterKey s.blockSize backing saved }
  match undoFile.writeBlk64 s.data.undoBlkNum count saved s.sys with
  | (.ok, sys) =>
      match writeUndoIndexes real undoFile false
          { s with data.undoBlkNum := s.data.undoBlkNum + 1, sys := sys } with
      | (.ok, s) => .next (.ok, s)
      | (retval, s) => .done (retval, s)
  | (retval, sys) => .done (retval, { s with sys := sys })

/-- The body of the loop of `undo_write_tdb`. -/
def saveBlock (blockNum : Nat) (r : Errcode × State σ) : Round (Errcode × State σ) :=
  let s := r.2
  if s.data.writtenBlockMap blockNum then
    .next r
  else
    let s := { s with data := s.data.mark blockNum }
    let backing := backingBlkNum s.blockSize s.data.tdbDataSize s.data.offset blockNum
    match real.readBlk64 backing (transferCount s.blockSize s.data.tdbDataSize) s.sys with
    | (.ok bytes, sys) => storeBlock real undoFile backing bytes { s with sys := sys }
    | (.error e, sys) =>
        if e.code ≠ .shortRead then
          .done (e.code, { s with sys := sys })
        else if e.actual = 0 then
          .next (.shortRead, { s with sys := sys })
        else
          storeBlock real undoFile backing (fit e.actual e.arrived) { s with sys := sys }

/-- The loop over the undo blocks, with as many rounds as it needs. -/
def saveBlocks (blockNum endBlock : Nat) (r : Errcode × State σ) : Errcode × State σ :=
  (whileBlocks (saveBlock real undoFile) (endBlock + 2 - blockNum) blockNum endBlock r).getD r

/-- `undo_write_tdb`. -/
def undoWriteTdb (block : Nat) (count : Int) (s : State σ) : Errcode × State σ :=
  let size := tdbSize s.blockSize count
  match undoSetupTdb undoFile s with
  | (.ok, s) =>
      let offset := tdbOffset s.blockSize block s.data.offset
      saveBlocks real undoFile (tdbBlockNum s.data.tdbDataSize offset)
        (tdbEndBlock s.data.tdbDataSize offset size) (.ok, s)
  | (retval, s) => (retval, s)

/-- A request is passed on once its blocks are saved. -/
def saveThen (block : Nat) (count : Int) (request : σ → Errcode × σ) (s : State σ) :
    Errcode × State σ :=
  match undoWriteTdb real undoFile block count s with
  | (.ok, s) =>
      let (retval, sys) := request s.sys
      (retval, { s with sys := sys })
  | (retval, s) => (retval, s)

/-- `undo_write_blk64`. -/
def undoWriteBlk64 (block : Nat) (count : Int) (buf : Bytes) (s : State σ) : Errcode × State σ :=
  saveThen real undoFile block count (real.writeBlk64 block count buf) s

/-- The first block and the number of blocks that `undo_write_byte` has saved. -/
def byteBlocks (blockSize offset position size : Nat) : Nat × Int :=
  let location := position + offset
  (location / blockSize,
    toInt32 ((size + location % blockSize + blockSize - 1) / blockSize : Nat))

/-- `undo_write_byte`. -/
def undoWriteByte (position : Nat) (buf : Bytes) (s : State σ) : Errcode × State σ :=
  let (block, count) := byteBlocks s.blockSize s.data.offset position buf.length
  saveThen real undoFile block count (real.writeByte position buf) s

/-- `undo_discard`. -/
def undoDiscard (block count : Nat) (s : State σ) : Errcode × State σ :=
  if 2 ^ 31 ≤ count then
    (.unimplemented, s)
  else
    saveThen real undoFile block count (real.discard block count) s

/-- `undo_zeroout`. -/
def undoZeroout (block count : Nat) (s : State σ) : Errcode × State σ :=
  if 2 ^ 31 ≤ count then
    (.unimplemented, s)
  else
    saveThen real undoFile block count (real.zeroout block count) s

/-- `undo_set_blksize`. -/
def undoSetBlksize (blksize : Nat) (s : State σ) : Errcode × State σ :=
  if e2undoMaxBlockSize < blksize ∨ blksize < e2undoMinBlockSize then
    (.errno, s)
  else
    (.ok, { s with
      blockSize := blksize
      data.tdbDataSize :=
        if s.data.tdbDataSize = 0 ∨ s.data.tdbWritten = 0 then blksize else s.data.tdbDataSize
      sys := real.setBlksize blksize s.sys })

/-- `undo_set_option` with `tdb_data_size`. -/
def undoSetTdbDataSize (size : Nat) (s : State σ) : Errcode × State σ :=
  if e2undoMaxBlockSize < size ∨ size < e2undoMinBlockSize then
    (.errno, s)
  else if s.data.tdbDataSize = 0 ∨ s.data.tdbWritten = 0 then
    (.ok, { s with data.tdbWritten := -1, data.tdbDataSize := size })
  else
    (.ok, s)

/-- `undo_set_option` with `offset`. -/
def undoSetOffset (offset : Nat) (s : State σ) : Errcode × State σ :=
  (.ok, { s with data.offset := offset, sys := real.setOffset offset s.sys })

/-- `undo_close`, up to the release of the channels; `unfinished` is whether
`UNDO_IO_SIMULATE_UNFINISHED` is set. -/
def undoClose (unfinished : Bool) (s : State σ) : Errcode × State σ :=
  writeUndoIndexes real undoFile true
    { s with data.hdr.state := if unfinished then s.data.hdr.state else e2undoStateFinished }

end Manager

/-- The channel that `undo_open` makes on an undo file without content. -/
def opened {σ : Type} (sys : σ) : State σ where
  blockSize := 1024
  data := .init
  sys := sys

/-- The requests of a caller. -/
inductive Call where
  | writeBlk64 (block : Nat) (count : Int) (buf : Bytes)
  | writeByte (position : Nat) (buf : Bytes)
  | discard (block count : Nat)
  | zeroout (block count : Nat)

section Calls

variable {σ : Type} (real undoFile : IoChannel σ)

/-- What the manager does for a request. -/
def Call.run : Call → State σ → Errcode × State σ
  | .writeBlk64 block count buf, s => undoWriteBlk64 real undoFile block count buf s
  | .writeByte position buf, s => undoWriteByte real undoFile position buf s
  | .discard block count, s => undoDiscard real undoFile block count s
  | .zeroout block count, s => undoZeroout real undoFile block count s

/-- The block and the count that `undo_write_tdb` gets for a request. -/
def Call.handed (blockSize offset : Nat) : Call → Nat × Int
  | .writeBlk64 block count _ => (block, count)
  | .writeByte position buf => byteBlocks blockSize offset position buf.length
  | .discard block count => (block, count)
  | .zeroout block count => (block, count)

/-- The request to the device. -/
def Call.passOn : Call → σ → Errcode × σ
  | .writeBlk64 block count buf => real.writeBlk64 block count buf
  | .writeByte position buf => real.writeByte position buf
  | .discard block count => real.discard block count
  | .zeroout block count => real.zeroout block count

/-- Every request has its blocks saved and is passed on, if its count is an `int`. -/
theorem Call.run_eq (c : Call) {s : State σ}
    (hcount : (c.handed s.blockSize s.data.offset).2 < 2 ^ 31) :
    c.run real undoFile s = saveThen real undoFile (c.handed s.blockSize s.data.offset).1
      (c.handed s.blockSize s.data.offset).2 (c.passOn real) s := by
  cases c with
  | writeBlk64 block count buf =>
      rfl
  | writeByte position buf =>
      simp only [Call.run, undoWriteByte, Call.handed, Call.passOn]
  | discard block count =>
      simp only [Call.handed] at hcount
      show undoDiscard real undoFile block count s = _
      rw [undoDiscard, if_neg (by omega)]
      rfl
  | zeroout block count =>
      simp only [Call.handed] at hcount
      show undoZeroout real undoFile block count s = _
      rw [undoZeroout, if_neg (by omega)]
      rfl

def runCalls (cs : List Call) (s : State σ) : State σ :=
  cs.foldl (fun s c => (c.run real undoFile s).2) s

end Calls

end Undo
end Rfsck
