import Rfsck.Redo.Format
import Rfsck.Storage.Crash

/-!
# The logging half of the redo library

The functions of `redo.c` that write the log: `write_info`, `rfsck_txn_begin`,
`rfsck_txn_end`, `rfsck_write`, `rfsck_flush` and `redo_mark_done`.

**State.**  `RedoPrivateData` is the structure behind the global pointer
`redo_data`; a `State` exists once the pointer is set, so the null tests of the
source hold by type.  The offsets are natural numbers: `pwrite` fails long
before a 64-bit offset wraps around.  `txn_id` is an `int` of which only the
32-bit pattern is used, and it is kept as that pattern.

**System.**  The `World` records the content of every file when the process
started and the system calls that took effect since.  A list of outcomes says
what the next system calls do; once it is used up every call succeeds.  As on
Linux, one call transfers at most `0x7ffff000` bytes.  Fresh heap memory holds
arbitrary bytes.
-/

namespace Rfsck
namespace Redo

open Storage

/-- The open files: the redo log, and devices by their descriptor. -/
inductive Fd where
  | redo
  | dev (fd : Nat)
deriving DecidableEq, Repr

/-- What the environment makes of a system call. -/
inductive Outcome where
  | ok
  | fail
  | short (n : Nat)
deriving DecidableEq, Repr

/-- The `malloc` calls whose memory is read before it is written. -/
inductive Site where
  | header
  | keyBlock
  | dataBlock
deriving DecidableEq, Repr

/-- The lines that the library prints, with their arguments. -/
inductive Message where
  | redoFileNameEmpty
  | fdOfDevFileEmpty
  | unableToOpenRedoFile
  | unableToWriteRecord (size offset : Nat)
  | unableToWriteRedoHeader
  | unableToReadHeader
  | headerChecksumMismatch
  | redoLogIncomplete
  | unableToReadKeyBlock
  | keyOffsets (keybCount logOffset : Nat)
  | alreadyReplayed (blkCrc : UInt32)
  | txnBegin (keybCount count : Nat) (txnId txnCsum : UInt32)
  | txnEnd (keybCount count : Nat) (txnId txnCsum : UInt32)
  | checksumMismatch (txnId : UInt32)
  | unableToReadDataBlock
deriving DecidableEq, Repr

/-- Files, system calls so far, and the choices of the environment. -/
structure World where
  init : Fd → ByteFile
  trace : List (Event Fd)
  outcomes : List Outcome
  heap : Site → Nat → Nat → UInt8

/-- The most bytes that one read or write transfers. -/
def maxRwCount : Nat := 0x7ffff000

namespace World

def file (w : World) (fd : Fd) : ByteFile :=
  applyEvents fd (w.init fd) w.trace

/-- A system call that takes effect. -/
def push (w : World) (e : Event Fd) : World :=
  { w with trace := w.trace ++ [e] }

def nextOutcome (w : World) : Outcome :=
  w.outcomes.headD .ok

def advance (w : World) : World :=
  { w with outcomes := w.outcomes.tail }

/-- `pwrite`: the number of bytes written, or -1. -/
def pwrite (w : World) (fd : Fd) (off : Nat) (buf : Bytes) : Int × World :=
  match w.nextOutcome with
  | .fail => (-1, w.advance)
  | .short n =>
      let data := buf.take (min n maxRwCount)
      (data.length, w.advance.push (.pwrite fd off data))
  | .ok =>
      let data := buf.take maxRwCount
      (data.length, w.advance.push (.pwrite fd off data))

/-- `pread64`: the bytes read, or an error. -/
def pread (w : World) (fd : Fd) (off n : Nat) : Option Bytes × World :=
  match w.nextOutcome with
  | .fail => (none, w.advance)
  | .short k => (some ((w.file fd).pread off (min n (min k maxRwCount))), w.advance)
  | .ok => (some ((w.file fd).pread off (min n maxRwCount)), w.advance)

/-- `fsync`: zero, or -1 and no guarantee. -/
def fsync (w : World) (fd : Fd) : Int × World :=
  match w.nextOutcome with
  | .ok => (0, w.advance.push (.fsync fd))
  | _ => (-1, w.advance)

/-- `open` of the redo file. -/
def openRedo (w : World) : Bool × World :=
  match w.nextOutcome with
  | .ok => (true, w.advance)
  | _ => (false, w.advance)

/-- `malloc`: `n` bytes of whatever the heap held. -/
def malloc (w : World) (site : Site) (n : Nat) : Bytes :=
  (List.range n).map (w.heap site w.trace.length)

end World

/-- `struct redo_private_data`. -/
structure RedoPrivateData where
  devFd : Nat
  numKeys : Nat
  keysInBlock : Nat
  redoBlockOffset : Nat
  logOffset : Nat
  hdr : RedoHeader
  keyb : RedoBlock
  txnBeginBlk : Nat
  txnBeginIdx : Nat
  txnId : UInt32
  txnCsum : UInt32

/-- The process once `redo_data` is set. -/
structure State where
  data : RedoPrivateData
  world : World
  out : List Message

namespace State

/-- `printf`. -/
def print (s : State) (m : Message) : State :=
  { s with out := s.out ++ [m] }

/-- Assignment to `redo_data->keyb->tags[redo_data->keys_in_block]`. -/
def setTag (s : State) (t : RedoBlockTag) : State :=
  { s with data.keyb := s.data.keyb.setTag s.data.keysInBlock t }

end State

/-- `write_info`. -/
def writeInfo
    (fd : Fd) (offset : Nat) (buf : Bytes) (countOffset : Bool) (s : State) :
    Int × State :=
  let (retval, world) := s.world.pwrite fd offset buf
  let s := { s with world := world }
  if retval < 0 then
    (1, s.print (.unableToWriteRecord buf.length offset))
  else if retval ≠ buf.length then
    (1, s.print (.unableToWriteRecord buf.length offset))
  else if countOffset then
    (0, { s with data.logOffset := s.data.logOffset + buf.length })
  else
    (0, s)

section Writer

variable (crc : Bytes → UInt32)

/-- The stamping of the current key block before it is written. -/
def stampKeyb (s : State) : State :=
  { s with data.keyb := s.data.keyb.stamp crc }

/-- The stamping of the functions that also clear the reserved field. -/
def stampKeybReserved (s : State) : State :=
  { s with data.keyb := { s.data.keyb with reserved := 0 }.stamp crc }

def writeKeyb (s : State) : Int × State :=
  writeInfo .redo s.data.redoBlockOffset s.data.keyb.encode false s

/-- A new key block is started behind the data once the current one is full. -/
def rollKeyb (s : State) : State :=
  if s.data.keysInBlock = keysPerBlock then
    { s with
      data.keyb := { RedoBlock.zero with magic := hash redoBlockMagicNumber }
      data.keysInBlock := 0
      data.numKeys := s.data.numKeys + 1
      data.redoBlockOffset := s.data.logOffset
      data.logOffset := s.data.logOffset + redoLogBlockSize }
  else
    s

/-- `rfsck_txn_begin`; `retval` is the value of the uninitialised local. -/
def rfsckTxnBegin (retval : Int) (s : State) : Int × State :=
  let tag : RedoBlockTag := { offset := 0, size := 0, blkCrc := s.data.txnId }
  let s := s.setTag tag
  let s := { s with data.txnCsum := txnChksmCnst ^^^ crc tag.encode }
  if retval ≠ 0 then
    (retval, s)
  else
    let s := stampKeybReserved crc s
    let s := { s with data.keysInBlock := s.data.keysInBlock + 1 }
    let (retval, s) := writeKeyb s
    if retval ≠ 0 then
      (retval, s)
    else
      (0, rollKeyb s)

/-- `rfsck_flush`. -/
def rfsckFlush (s : State) : Int × State :=
  let s := stampKeyb crc s
  let (retval, s) := writeKeyb s
  if retval ≠ 0 then
    (retval, s)
  else
    let (retval, world) := s.world.fsync .redo
    (retval, { s with world := world })

/-- `rfsck_txn_end`; the result of the final flush is dropped. -/
def rfsckTxnEnd (s : State) : Int × State :=
  let tag : RedoBlockTag := { offset := 0, size := 0, blkCrc := s.data.txnId }
  let s := { s with data.txnCsum := s.data.txnCsum ^^^ crc tag.encode }
  let s := s.setTag { tag with offset := s.data.txnCsum.toUInt64 }
  let s := { s with
    data.keysInBlock := s.data.keysInBlock + 1
    data.txnId := s.data.txnId + 1 }
  let s := stampKeybReserved crc s
  let (retval, s) := writeKeyb s
  if retval ≠ 0 then
    (retval, s)
  else
    let s := rollKeyb s
    let s := { s with data.txnCsum := 0 }
    let (_, s) := rfsckFlush crc s
    (0, s)

/-- The arguments of `rfsck_write`: the length is a `uint32_t`. -/
structure WriteReq where
  offset : UInt64
  buf : Bytes
  size_lt : buf.length < 2 ^ 32

/-- One system call transfers the whole buffer. -/
def WriteReq.Whole (req : WriteReq) : Prop :=
  req.buf.length ≤ maxRwCount

instance (req : WriteReq) : Decidable req.Whole :=
  inferInstanceAs (Decidable (_ ≤ _))

/-- The `size` argument. -/
def WriteReq.size (req : WriteReq) : UInt32 :=
  UInt32.ofNat req.buf.length

/-- The tag of a write. -/
def WriteReq.tag (req : WriteReq) : RedoBlockTag where
  offset := req.offset
  size := req.size
  blkCrc := crc req.buf

/-- `rfsck_write`. -/
def rfsckWrite (req : WriteReq) (s : State) : Int × State :=
  let s := s.setTag (req.tag crc)
  let s := { s with data.txnCsum := s.data.txnCsum ^^^ crc (req.tag crc).encode }
  let (retval, s) := writeInfo .redo s.data.logOffset req.buf true s
  if retval ≠ 0 then
    (retval, s)
  else
    let s := stampKeybReserved crc s
    let (retval, s) := writeKeyb s
    if retval ≠ 0 then
      (retval, s)
    else
      let s := { s with data.keysInBlock := s.data.keysInBlock + 1 }
      (0, rollKeyb s)

/-- The header as `redo_mark_done` completes it. -/
def sealHeader (h : RedoHeader) : RedoHeader :=
  { h with headerCrc := h.checksum crc }

/-- `redo_mark_done`. -/
def redoMarkDone (markDone : Bool) (s : State) : Int × State :=
  let s := stampKeyb crc s
  let (retval, s) := writeKeyb s
  if retval ≠ 0 then
    (retval, s)
  else
    let (retval, s) := rfsckFlush crc s
    if retval ≠ 0 then
      (retval, s)
    else
      let hdr := { s.data.hdr with
        numKeys := UInt64.ofNat s.data.numKeys
        state := if markDone then e2redoStateFinished else 0 }
      let s := { s with data.hdr := sealHeader crc hdr }
      let (retval, s) := writeInfo .redo 0 s.data.hdr.encode false s
      if retval ≠ 0 then
        (retval, s)
      else
        rfsckFlush crc s

end Writer

end Redo
end Rfsck
