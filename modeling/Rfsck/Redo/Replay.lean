import Rfsck.Redo.Writer

/-!
# The replaying half of the redo library

`rfsck_replay` and `rfsck_open` of `redo.c`.

The replayer walks the key blocks of the log.  It computes the place of the next
key block from the sizes of the tags it has seen (`logOffset`) and, with a second
running sum, the place of the data it copies (`replayLogOffset`).  A transaction
is copied to the device when its end tag is met, and its begin tag is then
overwritten by the mark `TXN_REPLAYED_CNST` in a copy of the key block, which is
written back.

`goto free_end` is `Except.error`.  The arrays `replay_blocks` and `keys_offset`
are total functions here; that the source allocates too few elements of the
first is no matter of the values computed.  `keyb_count` is an `int`: the loop
over key blocks ends after `2 ^ 31` of them, because the negative counter is
larger than every `num_keys` once it is converted.
-/

namespace Rfsck
namespace Redo

open Storage

/-- The variables of `rfsck_replay` that no system call changes, with the fields
of `redo_data` it works on. -/
structure Scan where
  data : RedoPrivateData
  out : List Message
  keyb : RedoBlock
  keybCount : Nat
  logOffset : Nat
  replayLogOffset : Nat
  isReplayed : Bool
  replayBlocks : Nat → RedoBlock
  keysOffset : Nat → Nat

/-- The variables of `rfsck_replay` and the world. -/
structure Replay extends Scan where
  world : World
  retval : Int

namespace Replay

/-- What remains of the variables when `rfsck_replay` returns. -/
def state (r : Replay) : State where
  data := r.data
  world := r.world
  out := r.out

/-- `printf`. -/
def print (r : Replay) (m : Message) : Replay :=
  { r with out := r.out ++ [m] }

/-- `write_info` called from the replayer, never counting the offset. -/
def writeInfo (fd : Fd) (offset : Nat) (buf : Bytes) (r : Replay) : Replay :=
  let (retval, s) := Redo.writeInfo fd offset buf false r.state
  { r with data := s.data, world := s.world, out := s.out, retval := retval }

end Replay

/-- The beginning of the loop over key blocks: read one and copy it. -/
def loadKeyb (r : Replay) : Except Replay Replay :=
  match r.world.pread .redo r.logOffset redoLogBlockSize with
  | (none, world) =>
      .error ({ r with world := world, retval := -1 }.print .unableToReadKeyBlock)
  | (some bytes, world) =>
      -- a short read leaves the tail of the previous key block in the buffer
      let keyb := RedoBlock.decode (bytes ++ r.keyb.encode.drop bytes.length)
      .ok { r with
        world := world
        retval := bytes.length
        keyb := keyb
        keysOffset := Function.update r.keysOffset r.keybCount r.logOffset
        out := r.out ++ [.keyOffsets r.keybCount r.logOffset]
        replayBlocks := Function.update r.replayBlocks r.keybCount
          { keyb with reserved := (r.replayBlocks r.keybCount).reserved }
        logOffset := r.logOffset + redoLogBlockSize }

/-- Copy the data of one tag from the log to the device. -/
def replayData (i j : Nat) (r : Replay) : Except Replay Replay :=
  let tag := (r.replayBlocks i).tag j
  let buf := r.world.malloc .dataBlock tag.size.toNat
  match r.world.pread .redo r.replayLogOffset tag.size.toNat with
  | (none, world) =>
      .error ({ r with world := world, retval := -1 }.print .unableToReadDataBlock)
  | (some bytes, world) =>
      let buf := bytes ++ buf.drop bytes.length
      let r := { r with world := world }.writeInfo (.dev r.data.devFd) tag.offset.toNat buf
      if r.retval ≠ 0 then
        .error r
      else
        .ok { r with replayLogOffset := r.replayLogOffset + tag.size.toNat }

/-- The `while` loop over the tags `j`, `j + 1`, ... of one key block, of which
the first argument says how many are left.  The result is `txn_replayed`. -/
def replayWhile (i count : Nat) : Nat → Nat → Replay → Except Replay (Bool × Replay)
  | 0, _, r =>
      .ok (false, { r with replayLogOffset := r.replayLogOffset + redoLogBlockSize })
  | n + 1, j, r =>
      if i = r.keybCount ∧ j = count then
        .ok (true, r)
      else do
        let r ← replayData i j r
        replayWhile i count n (j + 1) r

/-- The `for` loop over the key blocks `i`, `i + 1`, ... of a transaction. -/
def replayFor (count : Nat) : Nat → Nat → Replay → Except Replay Replay
  | 0, _, r => .ok r
  | n + 1, i, r => do
      let j := if i = r.data.txnBeginBlk then r.data.txnBeginIdx + 1 else 0
      let (txnReplayed, r) ← replayWhile i count (keysPerBlock - j) j r
      if txnReplayed then
        .ok r
      else
        replayFor count n (i + 1) r

/-- Mark the transaction as replayed and reset its fields. -/
def markReplayed (r : Replay) : Replay :=
  let blk := r.data.txnBeginBlk
  let idx := r.data.txnBeginIdx
  let kb := (r.replayBlocks blk).setTag idx ((r.replayBlocks blk).tag idx).marked
  let r := { r with replayBlocks := Function.update r.replayBlocks blk kb }
  let r := r.writeInfo .redo (r.keysOffset blk) kb.encode
  { r with
    data.txnId := 0
    data.txnCsum := 0
    data.txnBeginBlk := 0
    data.txnBeginIdx := 0 }

section Replayer

variable (crc : Bytes → UInt32)

/-- The checksum test at an end tag: a mismatch is printed and changes nothing. -/
def checkTxnEnd (count : Nat) (tag : RedoBlockTag) (r : Replay) : Replay :=
  let txnEndCsum := tag.offset.toUInt32
  let tag := { tag with offset := 0 }
  let r := { r with
    keyb := r.keyb.setTag count tag
    data.txnCsum := r.data.txnCsum ^^^ crc tag.encode }
  let r := r.print (.txnEnd r.keybCount count r.data.txnId r.data.txnCsum)
  if txnEndCsum ≠ r.data.txnCsum then
    r.print (.checksumMismatch r.data.txnId)
  else
    r

/-- The body of the loop over the tags of a key block. -/
def replayTag (count : Nat) (r : Replay) : Except Replay Replay :=
  let tag := r.keyb.tag count
  let r := { r with logOffset := r.logOffset + tag.size.toNat }
  if tag.size = 0 ∧ tag.blkCrc = 0 ∧ tag.offset = 0 then
    .ok r
  else if tag.size = 0 ∧ 0 < tag.blkCrc then
    if r.data.txnId = 0 then
      -- a begin tag
      let r := { r with data.txnId := tag.blkCrc }
      if tag.offset = txnReplayedCnst then
        .ok ({ r with isReplayed := true }.print (.alreadyReplayed tag.blkCrc))
      else
        let r := { r with
          isReplayed := false
          data.txnBeginBlk := r.keybCount
          data.txnBeginIdx := count
          data.txnCsum := txnChksmCnst ^^^ crc tag.encode }
        .ok (r.print (.txnBegin r.keybCount count r.data.txnId r.data.txnCsum))
    else if r.isReplayed then
      -- the end tag of a transaction that is skipped
      .ok { r with data.txnId := 0 }
    else do
      let r := checkTxnEnd crc count tag r
      let r ← replayFor count (r.keybCount + 1 - r.data.txnBeginBlk) r.data.txnBeginBlk r
      .ok (markReplayed r)
  else if r.isReplayed then
    .ok r
  else
    .ok { r with data.txnCsum := r.data.txnCsum ^^^ crc tag.encode }

/-- The loop over the tags `count`, `count + 1`, ... of a key block. -/
def replayTags : Nat → Nat → Replay → Except Replay Replay
  | 0, _, r => .ok r
  | n + 1, count, r => do
      let r ← replayTag crc count r
      replayTags n (count + 1) r

/-- The loop over key blocks. -/
def replayKeyBlocks : Nat → Replay → Except Replay Replay
  | 0, r => .ok r
  | n + 1, r => do
      let r ← loadKeyb r
      let r ← replayTags crc keysPerBlock 0 r
      replayKeyBlocks n { r with keybCount := r.keybCount + 1 }

/-- The number of key blocks after which the `int` counter is negative. -/
def keybCountLimit : Nat := 2 ^ 31

/-- The number of key blocks that the loop visits. -/
def RedoHeader.visited (hdr : RedoHeader) : Nat :=
  min (hdr.numKeys.toNat + 1) keybCountLimit

/-- The variables before the loop over key blocks. -/
def startReplay (hdr : RedoHeader) (retval : Int) (s : State) : Replay where
  data := { s.data with
    txnId := 0
    txnCsum := 0
    txnBeginBlk := 0
    txnBeginIdx := 0 }
  out := s.out
  keyb := RedoBlock.decode (s.world.malloc .keyBlock redoLogBlockSize)
  keybCount := 0
  logOffset := hdr.keyOffset.toNat
  replayLogOffset := redoHeaderSize + redoLogBlockSize
  isReplayed := false
  replayBlocks := fun _ => RedoBlock.zero
  keysOffset := fun _ => 0
  world := s.world
  retval := retval

/-- The header that `rfsck_replay` sees; what a short file leaves out is heap
memory. -/
def readHeader (w : World) (bytes : Bytes) : RedoHeader :=
  RedoHeader.decode (bytes ++ (w.malloc .header redoHeaderSize).drop bytes.length)

/-- The end of `rfsck_replay`: only a complete walk reaches the `fsync`. -/
def finishReplay (flush : Bool) : Except Replay Replay → Int × State
  | .error r => (r.retval, r.state)
  | .ok r =>
      if flush then
        let (retval, world) := r.world.fsync (.dev r.data.devFd)
        (retval, { r.state with world := world })
      else
        (r.retval, r.state)

/-- `rfsck_replay`. -/
def rfsckReplay (flush : Bool) (s : State) : Int × State :=
  match s.world.pread .redo 0 redoHeaderSize with
  | (none, world) => (-1, { s with world := world }.print .unableToReadHeader)
  | (some bytes, world) =>
      let hdr := readHeader s.world bytes
      let s := { s with world := world }
      if hdr.headerCrc ≠ hdr.checksum crc then
        (1, s.print .headerChecksumMismatch)
      else if hdr.state ≠ e2redoStateFinished then
        (1, s.print .redoLogIncomplete)
      else
        finishReplay flush
          (replayKeyBlocks crc hdr.visited (startReplay hdr bytes.length s))

/-- The fields that `redo_setup` gives to a new `redo_data`, of which `raw` is
the memory. -/
def redoSetup (devFd : Nat) (raw : RedoPrivateData) : RedoPrivateData where
  devFd := devFd
  numKeys := 0
  keysInBlock := 0
  redoBlockOffset := redoHeaderSize
  logOffset := redoHeaderSize + redoLogBlockSize
  hdr := sealHeader crc
    { magic := redoHeaderMagicNumber
      numKeys := 0
      superOffset := 0
      keyOffset := UInt64.ofNat redoHeaderSize
      sbCrc := 0
      state := 0
      headerCrc := 0
      padding := raw.hdr.padding
      magic_length := by rfl
      padding_length := raw.hdr.padding_length }
  keyb := RedoBlock.zero
  txnBeginBlk := raw.txnBeginBlk
  txnBeginIdx := raw.txnBeginIdx
  txnId := 1
  txnCsum := raw.txnCsum

/-- The process, before or after `redo_data` is set. -/
structure Process where
  redoData : Option RedoPrivateData
  world : World
  out : List Message

/-- The process of a state. -/
def State.process (s : State) : Process where
  redoData := some s.data
  world := s.world
  out := s.out

/-- `rfsck_open`.  A second call finds `tdb_written` set, so `redo_setup` leaves
`redo_data` as it is. -/
def rfsckOpen
    (redo : Option String) (devFd : Nat) (raw : RedoPrivateData) (p : Process) :
    Int × Process :=
  if redo = none then
    (1, { p with out := p.out ++ [.redoFileNameEmpty] })
  else if devFd < 1 then
    (1, { p with out := p.out ++ [.fdOfDevFileEmpty] })
  else
    match p.world.openRedo with
    | (false, world) =>
        (1, { p with world := world, out := p.out ++ [.unableToOpenRedoFile] })
    | (true, world) =>
        match world.openRedo with
        | (false, world) =>
            (1, { p with world := world, out := p.out ++ [.unableToOpenRedoFile] })
        | (true, world) =>
            let s : State :=
              { data := p.redoData.getD (redoSetup crc devFd raw)
                world := world
                out := p.out }
            let (_, s) := rfsckReplay crc true s
            let (retval, s) := writeInfo .redo 0 s.data.hdr.encode false s
            if retval ≠ 0 then
              (retval, (s.print .unableToWriteRedoHeader).process)
            else
              (retval, s.process)

/-- A call of the library in a session. -/
inductive Call where
  | txnBegin
  | write (req : WriteReq)
  | txnEnd
  | flush
  | markDone (done : Bool)
  | replay (sync : Bool)

/-- One call; the uninitialised local of `rfsck_txn_begin` reads zero. -/
def Call.run : Call → State → Int × State
  | .txnBegin, s => rfsckTxnBegin crc 0 s
  | .write req, s => rfsckWrite crc req s
  | .txnEnd, s => rfsckTxnEnd crc s
  | .flush, s => rfsckFlush crc s
  | .markDone done, s => redoMarkDone crc done s
  | .replay sync, s => rfsckReplay crc sync s

def runCalls (cs : List Call) (s : State) : State :=
  cs.foldl (fun s c => (c.run crc s).2) s

@[simp] theorem runCalls_nil (s : State) : runCalls crc [] s = s := by
  rfl

@[simp] theorem runCalls_cons (c : Call) (cs : List Call) (s : State) :
    runCalls crc (c :: cs) s = runCalls crc cs (c.run crc s).2 := by
  rfl

@[simp] theorem runCalls_append (cs ds : List Call) (s : State) :
    runCalls crc (cs ++ ds) s = runCalls crc ds (runCalls crc cs s) := by
  simp [runCalls]

end Replayer

attribute [irreducible] rfsckReplay

end Redo
end Rfsck
