import Rfsck.Undo.Range

/-!
# The program `e2undo`

`main` of `e2undo.c`: the checks of the header, the comparison of the superblocks, the loop
that loads and checks the keys, and the replay.

* What the options change is a parameter: `-f` turns most refusals into flags, `-n` leaves
  the writes out, `-o` gives the offset of the file system.
* The loop over the key blocks ends by the count in the header.  A forced run may never end,
  so the loop is cut off after a number of rounds.
* The keys lie in memory of their number times 24 bytes.  Entries that were not loaded are
  whatever `malloc` returned, and `qsort` may permute the entries in any way: its comparison
  truncates the difference of two 64-bit numbers to an `int` and is not an order.

The positions of a transfer are computed as `raw_read_blk` and `raw_write_blk` do, in signed
64-bit integers; a negative position is refused by the system.  The last part of `main`, which
opens the file system once more to mark it for a check, is left out; the replay says whether
it is reached.
-/

namespace Rfsck
namespace Undo

open Storage
open Redo (fit length_fit fit_of_length)
open UnixIo (transferSize)

/-- The `location` of a transfer. -/
def location (blockSize : Int) (block : Nat) (offset : Int) : Int :=
  toLoff (toLoff block * blockSize + offset)

/-- A file to be read, and the positions that its medium does not give back. -/
structure Medium where
  file : ByteFile
  unreadable : Nat → Bool

namespace Medium

/-- A file on a medium without defects. -/
def sound (f : ByteFile) : Medium where
  file := f
  unreadable := fun _ => false

/-- A read of exactly `n` bytes. -/
def read (m : Medium) (location : Int) (n : Nat) : Option Bytes :=
  if n = 0 then
    some []
  else if location < 0 then
    none
  else if (m.file.pread location.toNat n).length = n ∧
      (List.range n).all (fun i => !m.unreadable (location.toNat + i)) then
    some (m.file.pread location.toNat n)
  else
    none

/-- A read through the channel of the undo file. -/
def readBlk64 (m : Medium) (blockSize block : Nat) (count : Int) : Option Bytes :=
  m.read (location (toInt32 blockSize) block 0) (transferSize blockSize count)

theorem length_of_read {m : Medium} {location : Int} {n : Nat} {bs : Bytes}
    (h : m.read location n = some bs) : bs.length = n := by
  rw [read] at h
  split_ifs at h with hzero hneg hlen
  · obtain rfl := Option.some.inj h
    exact hzero.symm
  · obtain rfl := Option.some.inj h
    exact hlen.1

end Medium

/-- The options of a run. -/
structure Options where
  force : Bool
  dump : Bool
  dryRun : Bool
  offset : Option UInt64

/-- A run without options. -/
def Options.none : Options where
  force := false
  dump := false
  dryRun := false
  offset := Option.none

/-- The reasons for `exit(1)`. -/
inductive Refusal where
  | undoFile
  | notAnUndoFile
  | dumped
  | headerChecksum
  | corruptHeader
  | blockSizeTooLarge
  | blockSizeTooSmall
  | featureSet
  | superblock
  | memory
  | readingKeys (lblk : Nat)
  | keyMagic (lblk : Nat)
  | keyChecksum (lblk : Nat)
  | tooLong (fsblk : Nat)
  | fetching (fileblk : Nat)
  | checksum (fsblk fileblk : Nat)
deriving DecidableEq, Repr

/-- The part of `main` up to the check of the feature words. -/
def readHeader (opts : Options) (undo : Medium) : Except Refusal UndoHeader :=
  match undo.readBlk64 1024 0 (-undoHeaderSize) with
  | none => .error .undoFile
  | some bytes =>
      let hdr := UndoHeader.decode bytes
      if hdr.magic ≠ e2undoMagic then
        .error .notAnUndoFile
      else if opts.dump then
        .error .dumped
      else if !opts.force ∧ hdr.headerCrc ≠ hdr.checksum then
        .error .headerChecksum
      else if hdr.blockSize = 0 ∨ hdr.fsBlockSize = 0 then
        .error .corruptHeader
      else if !opts.force ∧ e2undoMaxBlockSize < hdr.blockSize.toNat then
        .error .blockSizeTooLarge
      else if !opts.force ∧ hdr.blockSize.toNat < e2undoMinBlockSize then
        .error .blockSizeTooSmall
      else if !opts.force ∧ (hdr.fIncompat ≠ 0 ∨ hdr.fRocompat ≠ 0) then
        .error .featureSet
      else
        .ok hdr

/-- The offset of the file system: the option, or else the one of the header. -/
def fsOffset (opts : Options) (hdr : UndoHeader) : UInt64 :=
  match opts.offset with
  | some offset => offset
  | Option.none => if hdr.hasFeatureFsOffset then hdr.fsOffset else 0

def readSuper (dev : ByteFile) (offset : UInt64) : Option Bytes :=
  (Medium.sound dev).read (location superblockOffset 1 (toLoff offset.toNat)) superblockSize

/-- `check_filesystem`: whether the superblock of the device is the one of the undo file. -/
def checkFilesystem (hdr : UndoHeader) (undo : Medium) (dev : ByteFile)
    (offset : UInt64) : Bool :=
  (readSuper dev offset).any fun super =>
    (undo.readBlk64 hdr.blockSize.toNat hdr.superOffset.toNat (-superblockSize)).any fun buf =>
      super = invertMagic buf ∧ hdr.sbCrc = crc32c (invertMagic buf)

/-- `struct undo_key_info`. -/
structure UndoKeyInfo where
  fsblk : Nat
  fileblk : Nat
  blkCrc : UInt32
  size : Nat
deriving DecidableEq, Repr, Inhabited

/-- `sizeof(struct undo_key_info)`. -/
def undoKeyInfoSize : Nat := 24

/-- The number of undo blocks that a key takes, computed in an `unsigned int`. -/
def dataBlocks (blocksize size : Nat) : Nat :=
  (size + blocksize - 1) % 2 ^ 32 / blocksize

/-- The entry for a key whose data begin at the given block. -/
def UndoKey.info (k : UndoKey) (lblk : Nat) : UndoKeyInfo where
  fsblk := k.fsblk.toNat
  fileblk := lblk
  blkCrc := k.blkCrc
  size := k.size.toNat

def fetch (undo : Medium) (blocksize : Nat) (ikey : UndoKeyInfo) : Option Bytes :=
  undo.readBlk64 blocksize ikey.fileblk (-toInt32 ikey.size)

/-- `csum_error` and `io_error`. -/
structure Errors where
  csum : Bool
  io : Bool
deriving DecidableEq, Repr

section Load

variable (force : Bool) (undo : Medium) (blocksize : Nat)

/-- The checks of one key: the errors seen so far and with it, or the reason to stop. -/
def checkKey (ikey : UndoKeyInfo) (errors : Errors) : Except Refusal Errors :=
  if e2undoMaxExtentBlocks * blocksize % 2 ^ 32 < ikey.size then
    .error (.tooLong ikey.fsblk)
  else
    match fetch undo blocksize ikey with
    | none => if force then .ok { errors with io := true } else .error (.fetching ikey.fileblk)
    | some buf =>
        if crc32c (fit ikey.size buf) = ikey.blkCrc then
          .ok errors
        else if force then
          .ok { errors with csum := true }
        else
          .error (.checksum ikey.fsblk ikey.fileblk)

/-- The inner loop, over the keys of a key block: the entries, and the block behind. -/
def loadKeys : List UndoKey → Nat → Errors → Except Refusal (List UndoKeyInfo × Nat × Errors)
  | [], lblk, errors => .ok ([], lblk, errors)
  | k :: ks, lblk, errors =>
      match checkKey force undo blocksize (k.info lblk) errors with
      | .error e => .error e
      | .ok errors =>
          match loadKeys ks ((lblk + dataBlocks blocksize k.size.toNat) % 2 ^ 64) errors with
          | .error e => .error e
          | .ok (ikeys, lblk', errors) => .ok (k.info lblk :: ikeys, lblk', errors)

/-- What is loaded: the entries, and `num_keys` as it stands then. -/
structure Loaded where
  keys : List UndoKeyInfo
  numKeys : Nat
  errors : Errors

/-- The loop that loads the keys, with the entries loaded so far. -/
def loadLoop (numKeys : Nat) :
    Nat → Nat → Nat → List UndoKeyInfo → Errors → Option (Except Refusal Loaded)
  | 0, _, _, _, _ => none
  | rounds + 1, i, lblk, keys, errors =>
      if numKeys ≤ i then
        some (.ok ⟨keys, numKeys, errors⟩)
      else
        match undo.readBlk64 blocksize lblk 1 with
        | none =>
            if force then
              some (.ok ⟨keys, toUnsigned (i - 1), { errors with io := true }⟩)
            else
              some (.error (.readingKeys lblk))
        | some bytes =>
            let keyb := UndoKeyBlock.decode bytes
            if !force ∧ keyb.magic ≠ keyblockMagic then
              some (.error (.keyMagic lblk))
            else if !force ∧ keyb.crc ≠ keyb.checksum blocksize then
              some (.error (.keyChecksum lblk))
            else
              let maxJ := min (numKeys - i) (keysPerBlock blocksize)
              match loadKeys force undo blocksize ((List.range maxJ).map keyb.key)
                  ((lblk + 1) % 2 ^ 64) errors with
              | .error e => some (.error e)
              | .ok (ikeys, lblk, errors) =>
                  loadLoop numKeys rounds ((i + keysPerBlock blocksize) % 2 ^ 64) lblk
                    (keys ++ ikeys) errors

end Load

/-- What `qsort` may do to the entries. -/
structure Qsort where
  apply : List UndoKeyInfo → List UndoKeyInfo
  perm : ∀ keys, (apply keys).Perm keys

/-- The array of the entries: those that were loaded, and memory behind them. -/
def keyArray (memory : Nat → UndoKeyInfo) (l : Loaded) : List UndoKeyInfo :=
  (List.range l.numKeys).map (fun i => l.keys.getD i (memory i))

def keyPosition (opts : Options) (hdr : UndoHeader) (ikey : UndoKeyInfo) : Int :=
  location (toInt32 hdr.fsBlockSize.toNat) ikey.fsblk (toLoff (fsOffset opts hdr).toNat)

def keyLength (hdr : UndoHeader) (ikey : UndoKeyInfo) : Nat :=
  transferSize hdr.fsBlockSize.toNat (-toInt32 ikey.size)

/-- The body of the replay loop: a failed transfer, or the bytes written if any. -/
def replayKey (opts : Options) (undo : Medium) (hdr : UndoHeader) (ikey : UndoKeyInfo) :
    Except Unit (Option Patch) :=
  (fetch undo hdr.blockSize.toNat ikey).elim (.error ()) fun buf =>
    if opts.dryRun ∨ keyLength hdr ikey = 0 then
      .ok none
    else if keyPosition opts hdr ikey < 0 then
      .error ()
    else
      .ok (some ⟨(keyPosition opts hdr ikey).toNat, fit (keyLength hdr ikey) buf⟩)

/-- The write of a key, if it makes one. -/
def keyWrite (opts : Options) (undo : Medium) (hdr : UndoHeader) (ikey : UndoKeyInfo) :
    Option Patch :=
  (replayKey opts undo hdr ikey).toOption.join

/-- The result of a run that comes to the replay: the entries in the order of the replay, the
writes to the device, and whether the file system is marked for a check. -/
structure Replay where
  keys : List UndoKeyInfo
  writes : List Patch
  errors : Errors
  marked : Bool

/-- The replay and what follows it. -/
def replay (sort : Qsort) (memory : Nat → UndoKeyInfo) (opts : Options) (undo : Medium)
    (hdr : UndoHeader) (l : Loaded) : Replay :=
  let keys := sort.apply (keyArray memory l)
  let failed := keys.any (fun ikey => (replayKey opts undo hdr ikey).toOption.isNone)
  let errors : Errors := { l.errors with io := l.errors.io || failed }
  { keys := keys
    writes := keys.filterMap (keyWrite opts undo hdr)
    errors := errors
    marked := !opts.dryRun && (opts.force || errors.csum || errors.io ||
      hdr.state &&& e2undoStateFinished = 0) }

/-- `main`, with at most the given number of rounds of the loop over the key blocks. -/
def e2undo (sort : Qsort) (memory : Nat → UndoKeyInfo) (opts : Options) (undo : Medium)
    (dev : ByteFile) (rounds : Nat) : Option (Except Refusal Replay) :=
  match readHeader opts undo with
  | .error e => some (.error e)
  | .ok hdr =>
      if !opts.force ∧ !checkFilesystem hdr undo dev (fsOffset opts hdr) then
        some (.error .superblock)
      else if 2 ^ 63 ≤ undoKeyInfoSize * hdr.numKeys.toNat % 2 ^ 64 then
        some (.error .memory)
      else
        match loadLoop opts.force undo hdr.blockSize.toNat hdr.numKeys.toNat rounds 0
            hdr.keyOffset.toNat [] ⟨false, false⟩ with
        | none => none
        | some (.error e) => some (.error e)
        | some (.ok l) => some (.ok (replay sort memory opts undo hdr l))

def Replay.device (r : Replay) (dev : ByteFile) : ByteFile :=
  applyPatches dev r.writes

end Undo
end Rfsck
