import Rfsck.Redo.Replay

/-!
# Raw input and output

`raw_read_blk` and `raw_write_blk` of `unix_io.c`, the functions below the cache.

* Without redo logging they transfer straight to the device: in one positioned call, in a
  second attempt behind `lseek`, or block by block through the bounce buffer when the
  channel forces it or the memory is not aligned.
* With redo logging a write that needs no bounce buffer becomes a call of `rfsck_write`.

A channel has no error handlers here, as `unix_open_channel` leaves it.  Locations are
natural numbers: the signed 64-bit product of the source is undefined where it overflows.
-/

namespace Rfsck
namespace UnixIo

open Storage
open Redo

/-- The error codes that the I/O manager tells apart; `redo` is a result of the redo
library handed on. -/
inductive Errcode where
  | ok
  | errno
  | shortRead
  | shortWrite
  | unimplemented
  | redo (code : Int)
deriving DecidableEq, Repr

/-- A failed read: the code, and the number of bytes that were transferred. -/
structure ReadError where
  code : Errcode
  actual : Nat
deriving DecidableEq, Repr

/-- The memory behind a pointer. -/
structure Buffer where
  addr : Nat
  byte : Nat → UInt8

namespace Buffer

/-- The first `n` bytes. -/
def bytes (b : Buffer) (n : Nat) : Bytes :=
  (List.range n).map b.byte

def advance (b : Buffer) (n : Nat) : Buffer where
  addr := b.addr + n
  byte := fun i => b.byte (n + i)

/-- A buffer of the cache; `io_channel_alloc_buf` aligns it. -/
def ofBytes (bs : Bytes) : Buffer where
  addr := 0
  byte := fun i => bs.getD i 0

@[simp] theorem length_bytes (b : Buffer) (n : Nat) : (b.bytes n).length = n := by
  simp [bytes]

theorem bytes_ofBytes {bs : Bytes} {n : Nat} (h : bs.length = n) :
    (ofBytes bs).bytes n = bs := by
  subst h
  apply List.ext_getElem?
  intro i
  by_cases hi : i < bs.length
  · simp [bytes, ofBytes, List.getElem?_range hi, List.getElem?_eq_getElem hi]
  · rw [List.getElem?_eq_none (by simpa using hi), List.getElem?_eq_none (by omega)]

theorem bytes_add (b : Buffer) (m n : Nat) :
    b.bytes (m + n) = b.bytes m ++ (b.advance m).bytes n := by
  simp [bytes, advance, List.range_add]

end Buffer

/-- The descriptor, and what `unix_open_channel` and `unix_set_option` fix about it. -/
structure Device where
  dev : Fd
  offset : Nat
  align : Nat
  forceBounce : Bool

/-- `IS_ALIGNED`. -/
def isAligned (n align : Nat) : Bool :=
  n &&& (align - 1) = 0

/-- No bounce buffer is needed for this memory and size. -/
def Device.direct (d : Device) (addr size : Nat) : Bool :=
  d.align = 0 || (isAligned addr d.align && isAligned size d.align)

/-- The `size` of a transfer: a negative count is a number of bytes. -/
def transferSize (blockSize : Nat) (count : Int) : Nat :=
  if count < 0 then (-count).toNat else count.toNat * blockSize

/-- The number of blocks that hold `size` bytes. -/
def blocksOf (blockSize size : Nat) : Nat :=
  (size + blockSize - 1) / blockSize

/-- `ext2fs_llseek`: whether it succeeds. -/
def llseek (w : World) : Bool × World :=
  match w.nextOutcome with
  | .ok => (true, w.advance)
  | _ => (false, w.advance)

/-- The loop behind `bounce_read`, over the blocks that are left. -/
def bounceRead (d : Device) (blockSize : Nat) :
    Nat → Nat → Nat → Nat → World → Except ReadError Bytes × World
  | 0, _, _, _, w => (.ok [], w)
  | n + 1, location, size, reallyRead, w =>
      match w.pread d.dev location blockSize with
      | (none, w) => (.error ⟨.shortRead, reallyRead⟩, w)
      | (some block, w) =>
          if block.length ≠ blockSize then
            (.error ⟨.shortRead, reallyRead⟩, w)
          else
            let data := block.take size
            let (rest, w) := bounceRead d blockSize n (location + blockSize) (size - blockSize)
              (reallyRead + data.length) w
            (rest.map (data ++ ·), w)

/-- The attempt with `read`. -/
def seekRead (d : Device) (location size : Nat) (w : World) : Except ReadError Bytes × World :=
  match llseek w with
  | (false, w) => (.error ⟨.errno, 0⟩, w)
  | (true, w) =>
      match w.pread d.dev location size with
      | (none, w) => (.error ⟨.errno, 0⟩, w)
      | (some bytes, w) =>
          if bytes.length ≠ size then
            (.error ⟨.shortRead, bytes.length⟩, w)
          else
            (.ok bytes, w)

/-- `raw_read_blk` into the memory at `addr`. -/
def rawReadBlk (d : Device) (blockSize block : Nat) (count : Int) (addr : Nat) (w : World) :
    Except ReadError Bytes × World :=
  let size := transferSize blockSize count
  let location := block * blockSize + d.offset
  if d.forceBounce || !d.direct addr size then
    match llseek w with
    | (false, w) => (.error ⟨.errno, 0⟩, w)
    | (true, w) => bounceRead d blockSize (blocksOf blockSize size) location size 0 w
  else
    match w.pread d.dev location size with
    | (none, w) => seekRead d location size w
    | (some bytes, w) =>
        if bytes.length = size then
          (.ok bytes, w)
        else
          seekRead d location size w

/-- The bounce buffer for the next block of `data`: a part of a block is completed from
the device, and by zeros at its end. -/
def bounceBlock (d : Device) (blockSize location : Nat) (data : Bytes) (w : World) :
    Option Bytes × World :=
  if data.length < blockSize then
    match w.pread d.dev location blockSize with
    | (none, w) => (none, w)
    | (some old, w) => (some (data ++ (fit blockSize old).drop data.length), w)
  else
    (some (data.take blockSize), w)

/-- The loop behind `bounce_write`, over the blocks that are left. -/
def bounceWrite (d : Device) (blockSize : Nat) :
    Nat → Nat → Bytes → World → Errcode × World
  | 0, _, _, w => (.ok, w)
  | n + 1, location, data, w =>
      match bounceBlock d blockSize location data w with
      | (none, w) => (.errno, w)
      | (some block, w) =>
          match llseek w with
          | (false, w) => (.errno, w)
          | (true, w) =>
              match w.pwrite d.dev location block with
              | (actual, w) =>
                  if actual < 0 then
                    (.errno, w)
                  else if actual ≠ blockSize then
                    (.shortWrite, w)
                  else
                    bounceWrite d blockSize n (location + blockSize) (data.drop blockSize) w

/-- The attempt with `write`. -/
def seekWrite (d : Device) (location : Nat) (data : Bytes) (w : World) : Errcode × World :=
  match llseek w with
  | (false, w) => (.errno, w)
  | (true, w) =>
      match w.pwrite d.dev location data with
      | (actual, w) =>
          if actual < 0 then
            (.errno, w)
          else if actual ≠ data.length then
            (.shortWrite, w)
          else
            (.ok, w)

/-- `raw_write_blk` through the bounce buffer. -/
def rawBounceWrite (d : Device) (blockSize location : Nat) (data : Bytes) (w : World) :
    Errcode × World :=
  match llseek w with
  | (false, w) => (.errno, w)
  | (true, w) => bounceWrite d blockSize (blocksOf blockSize data.length) location data w

/-- `raw_write_blk` while `is_redo_enabled` is clear. -/
def rawWriteBlk (d : Device) (blockSize block : Nat) (count : Int) (buf : Buffer) (w : World) :
    Errcode × World :=
  let size := transferSize blockSize count
  let location := block * blockSize + d.offset
  let data := buf.bytes size
  if d.forceBounce || !d.direct buf.addr size then
    rawBounceWrite d blockSize location data w
  else
    match w.pwrite d.dev location data with
    | (actual, w) =>
        if actual = size then
          (.ok, w)
        else
          seekWrite d location data w

/-- The write of `unix_write_byte`. -/
def rawWriteByte (d : Device) (offset : Nat) (data : Bytes) (w : World) : Errcode × World :=
  seekWrite d (offset + d.offset) data w

/-- The `fsync` of `unix_flush`. -/
def rawSync (d : Device) (retval : Errcode) (w : World) : Errcode × World :=
  if retval ≠ .ok then
    (retval, w)
  else
    match w.fsync d.dev with
    | (code, w) => (if code ≠ 0 then .errno else .ok, w)

/-- The arguments of `rfsck_write`: the size becomes a `uint32_t`. -/
def logRequest (location : Nat) (data : Bytes) : WriteReq where
  offset := UInt64.ofNat location
  buf := data.take (data.length % 2 ^ 32)
  size_lt := by
    rw [List.length_take]
    exact lt_of_le_of_lt (Nat.min_le_left _ _) (Nat.mod_lt _ (by norm_num))

/-- What the I/O manager asks of the redo library. -/
inductive LogCall where
  | write (location : Nat) (data : Bytes)
  | flush

def LogCall.call : LogCall → Call
  | .write location data => .write (logRequest location data)
  | .flush => .flush

/-- The bytes that a call diverts from the device. -/
def LogCall.patches : LogCall → List Patch
  | .write location data => [⟨location, data⟩]
  | .flush => []

/-- A process that logs: the redo library, and the calls made so far. -/
structure Logging where
  redo : State
  calls : List LogCall

namespace Logging

def onWorld {α : Type} (f : World → α × World) (s : Logging) : α × Logging :=
  let (a, w) := f s.redo.world
  (a, { s with redo.world := w })

def call (crc : Bytes → UInt32) (c : LogCall) (s : Logging) : Errcode × Logging :=
  let (retval, redo) := c.call.run crc s.redo
  (if retval = 0 then .ok else .redo retval, { redo := redo, calls := s.calls ++ [c] })

end Logging

section Redo

variable (crc : Bytes → UInt32)

/-- `raw_write_blk` while `is_redo_enabled` is set. -/
def redoWriteBlk (d : Device) (blockSize block : Nat) (count : Int) (buf : Buffer)
    (s : Logging) : Errcode × Logging :=
  let size := transferSize blockSize count
  let location := block * blockSize + d.offset
  let data := buf.bytes size
  if d.forceBounce || !d.direct buf.addr size then
    s.onWorld (rawBounceWrite d blockSize location data)
  else
    s.call crc (.write location data)

/-- The write of `unix_write_byte` while `is_redo_enabled` is set. -/
def redoWriteByte (d : Device) (offset : Nat) (data : Bytes) (s : Logging) : Errcode × Logging :=
  s.call crc (.write (offset + d.offset) data)

end Redo

/-- What the cache is built on. -/
structure Raw (σ : Type) where
  align : Nat
  readBlk : Nat → Nat → Int → Nat → σ → Except ReadError Bytes × σ
  writeBlk : Nat → Nat → Int → Buffer → σ → Errcode × σ
  writeByte : Nat → Bytes → σ → Errcode × σ
  sync : Errcode → σ → Errcode × σ

/-- A device without redo logging. -/
def plain (d : Device) : Raw World where
  align := d.align
  readBlk := rawReadBlk d
  writeBlk := rawWriteBlk d
  writeByte := rawWriteByte d
  sync := rawSync d

/-- A device with redo logging; `unix_flush` returns what `rfsck_flush` returns. -/
def logged (crc : Bytes → UInt32) (d : Device) : Raw Logging where
  align := d.align
  readBlk := fun blockSize block count addr s =>
    s.onWorld (rawReadBlk d blockSize block count addr)
  writeBlk := redoWriteBlk crc d
  writeByte := redoWriteByte crc d
  sync := fun _ s => s.call crc .flush

end UnixIo
end Rfsck
