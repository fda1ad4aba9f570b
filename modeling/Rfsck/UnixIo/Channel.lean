import Rfsck.UnixIo.RawIo

/-!
# The cached channel

The operations of `unix_io.c` on a channel with a cache of eight blocks, over any raw
device.

* A lookup returns the slot of a block, or the slot to be reused: the first unused one, or
  else the one whose last access is the longest ago.
* A reused slot is written back if it is dirty; the result of that write is dropped.
* Transfers of a negative number of blocks, or of more than four, pass by the cache.

A build with `NO_IO_CACHE` leaves the cache out; its calls are the last definitions here.

Access times are natural numbers.  Whether `CHANNEL_FLAGS_WRITETHROUGH` is set is an
argument of `unixWriteBlk64`, because callers change the flags of a channel at will.
-/

namespace Rfsck
namespace UnixIo

open Storage

/-- `CACHE_SIZE`. -/
def cacheSize : Nat := 8

/-- `WRITE_DIRECT_SIZE`. -/
def writeDirectSize : Nat := 4

/-- `struct unix_cache`. -/
structure Cache where
  buf : Bytes
  block : Nat
  accessTime : Nat
  dirty : Bool
  inUse : Bool

abbrev Slot := Fin cacheSize

/-- The channel: its block size, its reference count and its cache. -/
structure Channel where
  blockSize : Nat
  refcount : Nat
  accessTime : Nat
  cache : Slot → Cache
  blockSize_pos : 0 < blockSize

namespace Channel

def set (ch : Channel) (i : Slot) (c : Cache) : Channel :=
  { ch with cache := Function.update ch.cache i c }

/-- The access time of a slot becomes `++data->access_time`. -/
def touch (ch : Channel) (i : Slot) : Channel :=
  { ch with
    accessTime := ch.accessTime + 1
    cache := Function.update ch.cache i
      { ch.cache i with accessTime := ch.accessTime + 1 } }

/-- The channel behind `alloc_cache`. -/
def alloc (blockSize refcount : Nat) (pos : 0 < blockSize) : Channel where
  blockSize := blockSize
  refcount := refcount
  accessTime := 0
  cache := fun _ =>
    { buf := List.replicate blockSize 0
      block := 0
      accessTime := 0
      dirty := false
      inUse := false }
  blockSize_pos := pos

/-- The channel that `unix_open_channel` makes. -/
def opened : Channel :=
  alloc 1024 1 (by decide)

end Channel

/-- The result of a lookup. -/
inductive Lookup where
  | found (i : Slot)
  | missing (eldest : Slot)
deriving DecidableEq

/-- The loop of `find_cached_block` over the slots that are left. -/
def scanCache (cache : Slot → Cache) (block : Nat) :
    List Slot → Option Slot → Option Slot → Lookup
  | [], unused, oldest => .missing ((unused <|> oldest).getD ⟨0, by decide⟩)
  | i :: is, unused, oldest =>
      if !(cache i).inUse then
        scanCache cache block is (unused <|> some i) oldest
      else if (cache i).block = block then
        .found i
      else
        match oldest with
        | none => scanCache cache block is unused (some i)
        | some o =>
            if (cache i).accessTime < (cache o).accessTime then
              scanCache cache block is unused (some i)
            else
              scanCache cache block is unused (some o)

/-- `find_cached_block`. -/
def findCachedBlock (ch : Channel) (block : Nat) : Lookup × Channel :=
  match scanCache ch.cache block (List.finRange cacheSize) none none with
  | .found i => (.found i, ch.touch i)
  | .missing eldest => (.missing eldest, ch)

/-- A channel together with the process below it. -/
structure Io (σ : Type) where
  channel : Channel
  sys : σ

namespace Io

variable {σ : Type}

/-- `memcpy` into the buffer of a slot. -/
def fill (io : Io σ) (i : Slot) (data : Bytes) : Io σ :=
  { io with channel := io.channel.set i { io.channel.cache i with buf := data } }

end Io

section Operations

variable {σ : Type} (raw : Raw σ)

def writeBack (blockSize : Nat) (c : Cache) (s : σ) : Errcode × σ :=
  raw.writeBlk blockSize c.block 1 (Buffer.ofBytes c.buf) s

/-- `reuse_cache`. -/
def reuseCache (i : Slot) (block : Nat) (io : Io σ) : Io σ :=
  let c := io.channel.cache i
  { channel := (io.channel.set i
      { c with inUse := true, dirty := false, block := block }).touch i
    sys :=
      if c.dirty && c.inUse then
        (writeBack raw io.channel.blockSize c io.sys).2
      else
        io.sys }

/-- The body of the loop of `flush_cached_blocks`. -/
def flushSlot (invalidate : Bool) (r : Errcode × Io σ) (i : Slot) : Errcode × Io σ :=
  let io := r.2
  let c := io.channel.cache i
  if !c.inUse then
    r
  else
    let c' := if invalidate then { c with inUse := false } else c
    if !c.dirty then
      (r.1, { io with channel := io.channel.set i c' })
    else
      match writeBack raw io.channel.blockSize c io.sys with
      | (.ok, s) => (r.1, { channel := io.channel.set i { c' with dirty := false }, sys := s })
      | (retval, s) => (retval, { channel := io.channel.set i c', sys := s })

/-- `flush_cached_blocks`. -/
def flushCachedBlocks (invalidate : Bool) (io : Io σ) : Errcode × Io σ :=
  (List.finRange cacheSize).foldl (flushSlot raw invalidate) (.ok, io)

/-- The loop that counts the blocks behind a missing one that are missing as well: the
slots for them, of at most `n` blocks. -/
def missingSlots : Nat → Nat → Channel → List Slot × Channel
  | 0, _, ch => ([], ch)
  | n + 1, block, ch =>
      match findCachedBlock ch block with
      | (.found _, ch) => ([], ch)
      | (.missing eldest, ch) =>
          let (slots, ch) := missingSlots n (block + 1) ch
          (eldest :: slots, ch)

/-- The loop that saves the blocks of a read in the cache. -/
def saveBlocks : List Slot → Nat → Bytes → Io σ → Io σ
  | [], _, _, io => io
  | i :: is, block, data, io =>
      let blockSize := io.channel.blockSize
      saveBlocks is (block + 1) (data.drop blockSize)
        ((reuseCache raw i block io).fill i (data.take blockSize))

/-- The read of one block into its slot. -/
def readIntoSlot (i : Slot) (block : Nat) (io : Io σ) : Except ReadError Bytes × Io σ :=
  let io := reuseCache raw i block io
  match raw.readBlk io.channel.blockSize block 1 0 io.sys with
  | (.error e, s) =>
      (.error e,
        { channel := io.channel.set i { io.channel.cache i with inUse := false }, sys := s })
  | (.ok data, s) => (.ok data, { io with sys := s }.fill i data)

/-- The read of consecutive blocks into the memory at `addr`, and then into the slots. -/
def readMissing (slots : List Slot) (block addr : Nat) (io : Io σ) :
    Except ReadError Bytes × Io σ :=
  match raw.readBlk io.channel.blockSize block slots.length addr io.sys with
  | (.error e, s) => (.error e, { io with sys := s })
  | (.ok data, s) => (.ok data, saveBlocks raw slots block data { io with sys := s })

/-- The loop of `unix_read_blk64`.  Every round deals with at least one block, so that the
count itself bounds the number of rounds. -/
def readLoop : Nat → Nat → Nat → Nat → Io σ → Except ReadError Bytes × Io σ
  | 0, _, _, _, io => (.ok [], io)
  | n + 1, count, block, addr, io =>
      if count = 0 then
        (.ok [], io)
      else
        let blockSize := io.channel.blockSize
        match findCachedBlock io.channel block with
        | (.found i, ch) =>
            let (rest, io') := readLoop n (count - 1) (block + 1) (addr + blockSize)
              { io with channel := ch }
            (rest.map ((ch.cache i).buf ++ ·), io')
        | (.missing eldest, ch) =>
            if count = 1 then
              readIntoSlot raw eldest block { io with channel := ch }
            else
              let (slots, ch) := missingSlots (count - 1) (block + 1) ch
              let m := slots.length + 1
              match readMissing raw (eldest :: slots) block addr { io with channel := ch } with
              | (.error e, io) => (.error e, io)
              | (.ok data, io) =>
                  let (rest, io') := readLoop n (count - m) (block + m) (addr + m * blockSize) io
                  (rest.map (data ++ ·), io')

/-- `unix_read_blk64`. -/
def unixReadBlk64 (block : Nat) (count : Int) (addr : Nat) (io : Io σ) :
    Except ReadError Bytes × Io σ :=
  if count < 0 ∨ (writeDirectSize : Int) < count then
    match flushCachedBlocks raw false io with
    | (.ok, io) =>
        let (r, s) := raw.readBlk io.channel.blockSize block count addr io.sys
        (r, { io with sys := s })
    | (retval, io) => (.error ⟨retval, 0⟩, io)
  else
    readLoop raw count.toNat count.toNat block addr io

/-- The loop of `unix_write_blk64`. -/
def writeLoop (writethrough : Bool) : Nat → Nat → Buffer → Io σ → Io σ
  | 0, _, _, io => io
  | n + 1, block, buf, io =>
      let blockSize := io.channel.blockSize
      let (i, io) :=
        match findCachedBlock io.channel block with
        | (.found i, ch) => (i, { io with channel := ch })
        | (.missing eldest, ch) => (eldest, reuseCache raw eldest block { io with channel := ch })
      let c := { io.channel.cache i with buf := buf.bytes blockSize, dirty := !writethrough }
      writeLoop writethrough n (block + 1) (buf.advance blockSize)
        { io with channel := io.channel.set i c }

/-- `unix_write_blk64`. -/
def unixWriteBlk64 (writethrough : Bool) (block : Nat) (count : Int) (buf : Buffer)
    (io : Io σ) : Errcode × Io σ :=
  if count < 0 ∨ (writeDirectSize : Int) < count then
    match flushCachedBlocks raw true io with
    | (.ok, io) =>
        let (retval, s) := raw.writeBlk io.channel.blockSize block count buf io.sys
        (retval, { io with sys := s })
    | (retval, io) => (retval, io)
  else
    let (retval, s) :=
      if writethrough then
        raw.writeBlk io.channel.blockSize block count buf io.sys
      else
        (.ok, io.sys)
    (retval, writeLoop raw writethrough count.toNat block buf { io with sys := s })

/-- `unix_write_byte`. -/
def unixWriteByte (offset : Nat) (data : Bytes) (io : Io σ) : Errcode × Io σ :=
  if raw.align ≠ 0 then
    (.unimplemented, io)
  else
    match flushCachedBlocks raw true io with
    | (.ok, io) =>
        let (retval, s) := raw.writeByte offset data io.sys
        (retval, { io with sys := s })
    | (retval, io) => (retval, io)

/-- `unix_flush`. -/
def unixFlush (io : Io σ) : Errcode × Io σ :=
  let (retval, io) := flushCachedBlocks raw false io
  let (retval, s) := raw.sync retval io.sys
  (retval, { io with sys := s })

/-- `unix_set_blksize`. -/
def unixSetBlksize (blksize : Nat) (pos : 0 < blksize) (io : Io σ) : Errcode × Io σ :=
  if io.channel.blockSize = blksize then
    (.ok, io)
  else
    match flushCachedBlocks raw false io with
    | (.ok, io) => (.ok, { io with channel := Channel.alloc blksize io.channel.refcount pos })
    | (retval, io) => (retval, io)

/-- `unix_close`, up to the release of the descriptor and the memory. -/
def unixClose (io : Io σ) : Errcode × Io σ :=
  let io := { io with channel := { io.channel with refcount := io.channel.refcount - 1 } }
  if 0 < io.channel.refcount then
    (.ok, io)
  else
    flushCachedBlocks raw false io

end Operations

/-- A call on a channel. -/
inductive Op where
  | readBlk64 (block : Nat) (count : Int) (addr : Nat)
  | writeBlk64 (writethrough : Bool) (block : Nat) (count : Int) (buf : Buffer)
  | writeByte (offset : Nat) (data : Bytes)
  | flush
  | setBlksize (blksize : Nat) (pos : 0 < blksize)

/-- What a caller gets: an error, or the bytes read. -/
abbrev Result := Except Errcode Bytes

/-- The result of a call that reads nothing. -/
def Errcode.result : Errcode → Result
  | .ok => .ok []
  | e => .error e

section Runs

variable {σ : Type} (raw : Raw σ)

/-- A call. -/
def Op.run : Op → Io σ → Result × Io σ
  | .readBlk64 block count addr, io =>
      let (r, io) := unixReadBlk64 raw block count addr io
      (r.mapError ReadError.code, io)
  | .writeBlk64 writethrough block count buf, io =>
      let (r, io) := unixWriteBlk64 raw writethrough block count buf io
      (r.result, io)
  | .writeByte offset data, io =>
      let (r, io) := unixWriteByte raw offset data io
      (r.result, io)
  | .flush, io =>
      let (r, io) := unixFlush raw io
      (r.result, io)
  | .setBlksize blksize pos, io =>
      let (r, io) := unixSetBlksize raw blksize pos io
      (r.result, io)

/-- A sequence of calls: the results, and the state at the end. -/
def runOps : List Op → Io σ → List Result × Io σ
  | [], io => ([], io)
  | op :: ops, io =>
      let (r, io) := op.run raw io
      let (rs, io) := runOps ops io
      (r :: rs, io)

theorem runOps_cons (op : Op) (ops : List Op) (io : Io σ) :
    runOps raw (op :: ops) io =
      ((op.run raw io).1 :: (runOps raw ops (op.run raw io).2).1,
        (runOps raw ops (op.run raw io).2).2) :=
  rfl

/-- Every call of a sequence meets a condition in the state before it. -/
def AllMeet (P : Op → Io σ → Prop) : List Op → Io σ → Prop
  | [], _ => True
  | op :: ops, io => P op io ∧ AllMeet P ops (op.run raw io).2

instance AllMeet.decidable (P : Op → Io σ → Prop) [∀ op io, Decidable (P op io)] :
    ∀ (ops : List Op) (io : Io σ), Decidable (AllMeet raw P ops io)
  | [], _ => inferInstanceAs (Decidable True)
  | op :: ops, io =>
      have := AllMeet.decidable P ops (op.run raw io).2
      inferInstanceAs (Decidable (P op io ∧ AllMeet raw P ops (op.run raw io).2))

end Runs

/-- A channel of a build with `NO_IO_CACHE`: its block size, over the process. -/
structure Uncached (σ : Type) where
  blockSize : Nat
  sys : σ

section Uncached

variable {σ : Type} (raw : Raw σ)

/-- A call in a build with `NO_IO_CACHE`. -/
def Op.runUncached : Op → Uncached σ → Result × Uncached σ
  | .readBlk64 block count addr, u =>
      let (r, s) := raw.readBlk u.blockSize block count addr u.sys
      (r.mapError ReadError.code, { u with sys := s })
  | .writeBlk64 _ block count buf, u =>
      let (r, s) := raw.writeBlk u.blockSize block count buf u.sys
      (r.result, { u with sys := s })
  | .writeByte offset data, u =>
      if raw.align ≠ 0 then
        (Errcode.unimplemented.result, u)
      else
        let (r, s) := raw.writeByte offset data u.sys
        (r.result, { u with sys := s })
  | .flush, u =>
      let (r, s) := raw.sync .ok u.sys
      (r.result, { u with sys := s })
  | .setBlksize blksize _, u => (.ok [], { u with blockSize := blksize })

/-- A sequence of calls in a build with `NO_IO_CACHE`. -/
def runUncached : List Op → Uncached σ → List Result × Uncached σ
  | [], u => ([], u)
  | op :: ops, u =>
      let (r, u) := op.runUncached raw u
      let (rs, u) := runUncached ops u
      (r :: rs, u)

end Uncached

end UnixIo
end Rfsck
