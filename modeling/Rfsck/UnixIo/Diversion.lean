import Rfsck.UnixIo.Transparency

/-!
# What redo logging diverts

With redo logging a channel should not touch its device.  Two operations do not go through
`raw_write_blk` at all, and `raw_write_blk` itself writes to the device whatever goes through
the bounce buffer.

* `Diverts crc s s'`: from `s` to `s'` the process has made system calls that change no file,
  and calls of `rfsck_write` and `rfsck_flush`.
* `Keeping raw P bs`: the transfers between cache and device keep `P`; then all operations of
  the channel do.
* `device_unchanged`: operations that need no bounce buffer only divert, whatever fails.
-/

namespace Rfsck
namespace UnixIo

open Storage
open Redo

section Operations

/-- A system call that either takes effect or fails; an outcome that is neither success nor
failure stands for `EOPNOTSUPP`. -/
def sysCall (effect : World → World) (w : World) : Errcode × World :=
  match w.nextOutcome with
  | .ok => (.ok, effect w.advance)
  | .fail => (.errno, w.advance)
  | .short _ => (.unimplemented, w.advance)

/-- Zeros over a part of a file, which keeps its size. -/
def zeroRange (fd : Fd) (location size : Nat) (w : World) : World :=
  w.push (.pwrite fd location (List.replicate (min size ((w.file fd).size - location)) 0))

/-- `ftruncate` to a larger size. -/
def extend (fd : Fd) (size : Nat) (w : World) : World :=
  w.push (.pwrite fd (size - 1) [0])

/-- `unix_discard`: the ioctl `BLKDISCARD` of a block device, or a hole in a file.  What was
discarded reads as zeros. -/
def unixDiscard (d : Device) (blockSize block count : Nat) (w : World) : Errcode × World :=
  sysCall (zeroRange d.dev (block * blockSize + d.offset) (count * blockSize)) w

/-- The last attempts of `unix_zeroout`: a hole, or else a range of zeros. -/
def zeroFile (d : Device) (location size : Nat) (w : World) : Errcode × World :=
  match sysCall (zeroRange d.dev location size) w with
  | (.ok, w) => (.ok, w)
  | (_, w) => sysCall (zeroRange d.dev location size) w

/-- `unix_zeroout`; `blockDevice` is `CHANNEL_FLAGS_BLOCK_DEVICE`, and `noZeroout` whether
`UNIX_IO_NOZEROOUT` is set. -/
def unixZeroout (blockDevice noZeroout : Bool) (d : Device) (blockSize block count : Nat)
    (w : World) : Errcode × World :=
  if noZeroout || blockDevice then
    (.unimplemented, w)
  else if count = 0 then
    (.ok, w)
  else
    let newSize := (block + count) * blockSize + d.offset
    match sysCall id w with
    | (.ok, w) =>
        let (retval, w) :=
          if (w.file d.dev).size < newSize then sysCall (extend d.dev newSize) w else (.ok, w)
        if retval ≠ .ok then
          (retval, w)
        else
          zeroFile d (block * blockSize + d.offset) (count * blockSize) w
    | (retval, w) => (retval, w)

/-- An operation of the I/O manager. -/
inductive ManagerOp where
  | channel (op : Op)
  | discard (block count : Nat)
  | zeroout (block count : Nat)
  | close

/-- An operation on a channel with redo logging. -/
def ManagerOp.run (crc : Bytes → UInt32) (blockDevice noZeroout : Bool) (d : Device) :
    ManagerOp → Io Logging → Result × Io Logging
  | .channel op, io => op.run (logged crc d) io
  | .discard block count, io =>
      let (r, s) := io.sys.onWorld (unixDiscard d io.channel.blockSize block count)
      (r.result, { io with sys := s })
  | .zeroout block count, io =>
      let (r, s) := io.sys.onWorld
        (unixZeroout blockDevice noZeroout d io.channel.blockSize block count)
      (r.result, { io with sys := s })
  | .close, io =>
      let (r, io) := unixClose (logged crc d) io
      (r.result, io)

def runManager (crc : Bytes → UInt32) (blockDevice noZeroout : Bool) (d : Device)
    (ops : List ManagerOp) (io : Io Logging) : Io Logging :=
  ops.foldl (fun io op => (op.run crc blockDevice noZeroout d io).2) io

end Operations

section Diverts

variable {crc : Bytes → UInt32}

/-- Between two worlds no device was written. -/
structure Spares (w w' : World) : Prop where
  file : ∀ fd, w'.file (.dev fd) = w.file (.dev fd)
  outcomes : w'.outcomes <:+ w.outcomes

theorem Spares.refl (w : World) : Spares w w :=
  ⟨fun _ => rfl, List.suffix_refl _⟩

theorem Spares.trans {w w' w'' : World} (h : Spares w w') (h' : Spares w' w'') : Spares w w'' :=
  ⟨fun fd => (h'.file fd).trans (h.file fd), h'.outcomes.trans h.outcomes⟩

theorem spares_pwrite (w : World) (off : Nat) (buf : Bytes) :
    Spares w (w.pwrite .redo off buf).2 := by
  have htail : w.outcomes.tail <:+ w.outcomes := List.tail_suffix _
  unfold World.pwrite
  cases w.nextOutcome with
  | fail =>
      exact ⟨fun _ => rfl, htail⟩
  | short n =>
      exact ⟨fun fd => file_dev_push_redo w.advance fd off _, htail⟩
  | ok =>
      exact ⟨fun fd => file_dev_push_redo w.advance fd off _, htail⟩

theorem spares_fsync (w : World) : Spares w (w.fsync .redo).2 := by
  have htail : w.outcomes.tail <:+ w.outcomes := List.tail_suffix _
  unfold World.fsync
  cases w.nextOutcome with
  | fail =>
      exact ⟨fun _ => rfl, htail⟩
  | short n =>
      exact ⟨fun _ => rfl, htail⟩
  | ok =>
      exact ⟨fun fd => by rw [World.file_push, applyEvent_fsync]; rfl, htail⟩

theorem spares_writeInfo (off : Nat) (buf : Bytes) (countOffset : Bool) (s : State) :
    Spares s.world (writeInfo .redo off buf countOffset s).2.world := by
  have hworld : (writeInfo .redo off buf countOffset s).2.world =
      (s.world.pwrite .redo off buf).2 := by
    unfold writeInfo
    dsimp only
    split_ifs <;> rfl
  rw [hworld]
  exact spares_pwrite _ _ _

theorem spares_rfsckFlush (s : State) : Spares s.world (rfsckFlush crc s).2.world := by
  unfold rfsckFlush
  dsimp only
  have hkeyb : Spares s.world (writeKeyb (stampKeyb crc s)).2.world :=
    spares_writeInfo _ _ _ (stampKeyb crc s)
  split_ifs
  · exact hkeyb
  · exact hkeyb.trans (spares_fsync _)

/-- **`rfsck_write`** writes the log only, whatever fails. -/
theorem spares_rfsckWrite (req : WriteReq) (s : State) :
    Spares s.world (rfsckWrite crc req s).2.world := by
  unfold rfsckWrite
  dsimp only
  -- the tag and the checksum are set before the first write
  have hdata : ∀ (off : Nat) (s₁ : State), s₁.world = s.world →
      Spares s.world (writeInfo .redo off req.buf true s₁).2.world := by
    intro off s₁ hworld
    rw [← hworld]
    exact spares_writeInfo _ _ _ s₁
  have hkeyb : ∀ s₁ : State, Spares s.world s₁.world →
      Spares s.world (writeKeyb (stampKeybReserved crc s₁)).2.world :=
    fun s₁ h => h.trans (spares_writeInfo _ _ _ (stampKeybReserved crc s₁))
  split_ifs
  · exact hdata _ _ rfl
  · exact hkeyb _ (hdata _ _ rfl)
  · rw [rollKeyb_world]
    exact hkeyb _ (hdata _ _ rfl)

/-- The process has made system calls that change no file, and calls of the redo library. -/
inductive Diverts (crc : Bytes → UInt32) (s : Logging) : Logging → Prop
  | refl : Diverts crc s s
  | quiet {s' : Logging} (h : Diverts crc s s') (outcomes : List Outcome)
      (hsuffix : outcomes <:+ s'.redo.world.outcomes) :
      Diverts crc s { s' with redo.world.outcomes := outcomes }
  | call {s' : Logging} (h : Diverts crc s s') (c : LogCall) : Diverts crc s (s'.call crc c).2

theorem spares_call (c : LogCall) (s : Logging) :
    Spares s.redo.world (s.call crc c).2.redo.world := by
  cases c with
  | write location data =>
      exact spares_rfsckWrite _ _
  | flush =>
      exact spares_rfsckFlush _

/-- **What diverts leaves every device alone.** -/
theorem Diverts.spares {s s' : Logging} (h : Diverts crc s s') :
    Spares s.redo.world s'.redo.world := by
  induction h with
  | refl =>
      exact Spares.refl _
  | quiet _ outcomes hsuffix ih =>
      exact ih.trans ⟨fun _ => rfl, hsuffix⟩
  | call _ c ih =>
      exact ih.trans (spares_call c _)

end Diverts

section Keeping

variable {σ : Type} {raw : Raw σ} {P : σ → Prop} {bs n : Nat} {io : Io σ}

/-- The transfers between the cache and the device keep `P`. -/
structure Keeping (raw : Raw σ) (P : σ → Prop) (bs : Nat) : Prop where
  readBlk : ∀ (b : Nat) (count : Int) (addr : Nat) (s : σ), P s →
    P (raw.readBlk bs b count addr s).2
  writeBack : ∀ (c : Cache) (s : σ), P s → P (writeBack raw bs c s).2

/-- A channel of that block size and with `n` references, over a state with `P`. -/
structure Kept (P : σ → Prop) (bs n : Nat) (io : Io σ) : Prop where
  blockSize : io.channel.blockSize = bs
  refcount : io.channel.refcount = n
  sys : P io.sys

theorem Kept.reuseCache (h : Keeping raw P bs) (hio : Kept P bs n io) (i : Slot) (block : Nat) :
    Kept P bs n (reuseCache raw i block io) := by
  obtain ⟨hbs, href, hsys⟩ := hio
  refine ⟨hbs, href, ?_⟩
  unfold UnixIo.reuseCache
  dsimp only
  rw [hbs]
  split_ifs
  · exact h.writeBack _ _ hsys
  · exact hsys

theorem Kept.fill (hio : Kept P bs n io) (i : Slot) (data : Bytes) : Kept P bs n (io.fill i data) :=
  ⟨hio.blockSize, hio.refcount, hio.sys⟩

/-- A round of `flush_cached_blocks` writes at most one block. -/
theorem flushSlot_sys (raw : Raw σ) (invalidate : Bool) (r : Errcode × Io σ) (i : Slot) :
    (flushSlot raw invalidate r i).2.channel.blockSize = r.2.channel.blockSize ∧
      (flushSlot raw invalidate r i).2.channel.refcount = r.2.channel.refcount ∧
      ((flushSlot raw invalidate r i).2.sys = r.2.sys ∨
        (flushSlot raw invalidate r i).2.sys =
          (writeBack raw r.2.channel.blockSize (r.2.channel.cache i) r.2.sys).2) := by
  unfold UnixIo.flushSlot
  dsimp only
  by_cases huse : (!(r.2.channel.cache i).inUse) = true
  · rw [if_pos huse]
    exact ⟨rfl, rfl, .inl rfl⟩
  rw [if_neg huse]
  by_cases hclean : (!(r.2.channel.cache i).dirty) = true
  · rw [if_pos hclean]
    exact ⟨rfl, rfl, .inl rfl⟩
  rw [if_neg hclean]
  generalize writeBack raw r.2.channel.blockSize (r.2.channel.cache i) r.2.sys = back
  split
  · exact ⟨rfl, rfl, .inr rfl⟩
  · exact ⟨rfl, rfl, .inr rfl⟩

theorem Kept.flushSlot (h : Keeping raw P bs) (invalidate : Bool) (i : Slot)
    {r : Errcode × Io σ} (hr : Kept P bs n r.2) : Kept P bs n (flushSlot raw invalidate r i).2 := by
  obtain ⟨hbs, href, hsys⟩ := hr
  obtain ⟨hsize, hcount, hcases⟩ := flushSlot_sys raw invalidate r i
  refine ⟨hsize.trans hbs, hcount.trans href, ?_⟩
  rcases hcases with heq | heq
  · rw [heq]
    exact hsys
  · rw [heq, hbs]
    exact h.writeBack _ _ hsys

theorem Kept.flushCachedBlocks (h : Keeping raw P bs) (hio : Kept P bs n io) (invalidate : Bool) :
    Kept P bs n (flushCachedBlocks raw invalidate io).2 := by
  have hfold : ∀ (is : List Slot) (r : Errcode × Io σ), Kept P bs n r.2 →
      Kept P bs n (is.foldl (UnixIo.flushSlot raw invalidate) r).2 := by
    intro is
    induction is with
    | nil =>
        exact fun r hr => hr
    | cons i is ih =>
        exact fun r hr => ih _ (Kept.flushSlot h invalidate i hr)
  exact hfold _ _ hio

theorem Kept.saveBlocks (h : Keeping raw P bs) (hio : Kept P bs n io) (slots : List Slot)
    (block : Nat) (data : Bytes) : Kept P bs n (saveBlocks raw slots block data io) := by
  induction slots generalizing io block data with
  | nil =>
      exact hio
  | cons i slots ih =>
      exact ih ((hio.reuseCache h i block).fill i _) _ _

theorem Kept.readIntoSlot (h : Keeping raw P bs) (hio : Kept P bs n io) (i : Slot) (block : Nat) :
    Kept P bs n (readIntoSlot raw i block io).2 := by
  obtain ⟨hbs, href, hsys⟩ := hio.reuseCache h i block
  have hread := h.readBlk block 1 0 _ hsys
  unfold UnixIo.readIntoSlot
  dsimp only
  rw [hbs]
  generalize raw.readBlk bs block 1 0 (UnixIo.reuseCache raw i block io).sys = r at hread ⊢
  obtain ⟨r, s⟩ := r
  cases r with
  | error e =>
      exact ⟨hbs, href, hread⟩
  | ok data =>
      exact ⟨hbs, href, hread⟩

theorem Kept.readMissing (h : Keeping raw P bs) (hio : Kept P bs n io) (slots : List Slot)
    (block addr : Nat) : Kept P bs n (readMissing raw slots block addr io).2 := by
  obtain ⟨hbs, href, hsys⟩ := hio
  have hread := h.readBlk block slots.length addr _ hsys
  unfold UnixIo.readMissing
  rw [hbs]
  generalize raw.readBlk bs block slots.length addr io.sys = r at hread ⊢
  obtain ⟨r, s⟩ := r
  cases r with
  | error e =>
      exact ⟨hbs, href, hread⟩
  | ok data =>
      have hkept : Kept P bs n { io with sys := s } := ⟨hbs, href, hread⟩
      exact hkept.saveBlocks h slots block data

theorem Kept.readLoop (h : Keeping raw P bs) (hio : Kept P bs n io)
    (rounds count block addr : Nat) :
    Kept P bs n (readLoop raw rounds count block addr io).2 := by
  induction rounds generalizing io count block addr with
  | zero =>
      exact hio
  | succ rounds ih =>
      unfold UnixIo.readLoop
      by_cases hcount : count = 0
      · rw [if_pos hcount]
        exact hio
      rw [if_neg hcount]
      rcases findCachedBlock_cases io.channel block with ⟨i, hfind, -⟩ | ⟨e, hfind, -⟩
      · rw [hfind]
        have htouch : Kept P bs n { io with channel := io.channel.touch i } :=
          ⟨hio.blockSize, hio.refcount, hio.sys⟩
        exact ih htouch _ _ _
      rw [hfind]
      dsimp only
      by_cases hone : count = 1
      · rw [if_pos hone]
        exact hio.readIntoSlot h e block
      rw [if_neg hone]
      obtain ⟨hsame, hcount, -⟩ := missingSlots_spec (count - 1) (block + 1) io.channel
      generalize missingSlots (count - 1) (block + 1) io.channel = m at hsame hcount ⊢
      have hio' : Kept P bs n { io with channel := m.2 } :=
        ⟨hsame.blockSize.trans hio.blockSize, hcount.trans hio.refcount, hio.sys⟩
      have hread := hio'.readMissing h (e :: m.1) block addr
      generalize UnixIo.readMissing raw (e :: m.1) block addr { io with channel := m.2 } = r
        at hread ⊢
      obtain ⟨r, io'⟩ := r
      cases r with
      | error e =>
          exact hread
      | ok data =>
          exact ih hread _ _ _

theorem Kept.unixReadBlk64 (h : Keeping raw P bs) (hio : Kept P bs n io) (block : Nat) (count : Int)
    (addr : Nat) : Kept P bs n (unixReadBlk64 raw block count addr io).2 := by
  unfold UnixIo.unixReadBlk64
  split_ifs
  · have hflush := hio.flushCachedBlocks h false
    generalize UnixIo.flushCachedBlocks raw false io = r at hflush ⊢
    obtain ⟨hbs, href, hsys⟩ := hflush
    split
    · refine ⟨hbs, href, ?_⟩
      dsimp only at hbs hsys ⊢
      rw [hbs]
      exact h.readBlk _ _ _ _ hsys
    · exact ⟨hbs, href, hsys⟩
  · exact hio.readLoop h _ _ _ _

theorem Kept.writeLoop (h : Keeping raw P bs) (hio : Kept P bs n io) (writethrough : Bool)
    (count block : Nat) (buf : Buffer) :
    Kept P bs n (writeLoop raw writethrough count block buf io) := by
  induction count generalizing io block buf with
  | zero =>
      exact hio
  | succ count ih =>
      rw [writeLoop_succ]
      have hslot : Kept P bs n (writeSlot raw block io).2 := by
        unfold writeSlot
        rcases findCachedBlock_cases io.channel block with ⟨i, hfind, -⟩ | ⟨e, hfind, -⟩
        · rw [hfind]
          exact ⟨hio.blockSize, hio.refcount, hio.sys⟩
        · rw [hfind]
          exact hio.reuseCache h e block
      apply ih
      exact ⟨hslot.blockSize, hslot.refcount, hslot.sys⟩

/-- A write keeps `P` if the transfer of its own buffer does. -/
theorem Kept.unixWriteBlk64 (h : Keeping raw P bs) (hio : Kept P bs n io) {writethrough : Bool}
    {block : Nat} {count : Int} {buf : Buffer}
    (hwrite : writethrough = true ∨ count < 0 ∨ (writeDirectSize : Int) < count →
      ∀ s, P s → P (raw.writeBlk bs block count buf s).2) :
    Kept P bs n (unixWriteBlk64 raw writethrough block count buf io).2 := by
  unfold UnixIo.unixWriteBlk64
  by_cases hdirect : count < 0 ∨ (writeDirectSize : Int) < count
  · rw [if_pos hdirect]
    have hflush := hio.flushCachedBlocks h true
    generalize UnixIo.flushCachedBlocks raw true io = r at hflush ⊢
    obtain ⟨hbs, href, hsys⟩ := hflush
    split
    · refine ⟨hbs, href, ?_⟩
      dsimp only at hbs hsys ⊢
      rw [hbs]
      exact hwrite (.inr hdirect) _ hsys
    · exact ⟨hbs, href, hsys⟩
  · rw [if_neg hdirect]
    dsimp only
    apply Kept.writeLoop h
    refine ⟨hio.blockSize, hio.refcount, ?_⟩
    dsimp only
    rw [hio.blockSize]
    split_ifs with hthrough
    · exact hwrite (.inl hthrough) _ hio.sys
    · exact hio.sys

theorem Kept.unixWriteByte (h : Keeping raw P bs) (hio : Kept P bs n io) {offset : Nat}
    {data : Bytes} (hwrite : ∀ s, P s → P (raw.writeByte offset data s).2) :
    Kept P bs n (unixWriteByte raw offset data io).2 := by
  unfold UnixIo.unixWriteByte
  split_ifs
  · exact hio
  · have hflush := hio.flushCachedBlocks h true
    generalize UnixIo.flushCachedBlocks raw true io = r at hflush ⊢
    obtain ⟨hbs, href, hsys⟩ := hflush
    split
    · exact ⟨hbs, href, hwrite _ hsys⟩
    · exact ⟨hbs, href, hsys⟩

theorem Kept.unixFlush (h : Keeping raw P bs) (hio : Kept P bs n io)
    (hsync : ∀ e s, P s → P (raw.sync e s).2) : Kept P bs n (unixFlush raw io).2 := by
  obtain ⟨hbs, href, hsys⟩ := hio.flushCachedBlocks h false
  exact ⟨hbs, href, hsync _ _ hsys⟩

theorem Kept.unixSetBlksize (h : Keeping raw P bs) (hio : Kept P bs n io) (blksize : Nat)
    (pos : 0 < blksize) :
    (unixSetBlksize raw blksize pos io).2.channel.refcount = n ∧
      P (unixSetBlksize raw blksize pos io).2.sys := by
  unfold UnixIo.unixSetBlksize
  split_ifs
  · exact ⟨hio.refcount, hio.sys⟩
  · have hflush := hio.flushCachedBlocks h false
    generalize UnixIo.flushCachedBlocks raw false io = r at hflush ⊢
    split
    · exact ⟨hflush.refcount, hflush.sys⟩
    · exact ⟨hflush.refcount, hflush.sys⟩

theorem Kept.unixClose (h : Keeping raw P bs) (hio : Kept P bs n io) :
    P (unixClose raw io).2.sys := by
  unfold UnixIo.unixClose
  dsimp only
  split_ifs
  · exact hio.sys
  · have hclose : Kept P bs (io.channel.refcount - 1)
        { io with channel := { io.channel with refcount := io.channel.refcount - 1 } } :=
      ⟨hio.blockSize, rfl, hio.sys⟩
    exact (hclose.flushCachedBlocks h false).sys

end Keeping

section Quiet

variable {crc : Bytes → UInt32} {d : Device}

def Quiet (w w' : World) : Prop :=
  ∃ outcomes, outcomes <:+ w.outcomes ∧ w' = { w with outcomes := outcomes }

theorem Quiet.refl (w : World) : Quiet w w :=
  ⟨w.outcomes, List.suffix_refl _, rfl⟩

theorem Quiet.trans {w w' w'' : World} (h : Quiet w w') (h' : Quiet w' w'') : Quiet w w'' := by
  obtain ⟨o, ho, rfl⟩ := h
  obtain ⟨o', ho', rfl⟩ := h'
  exact ⟨o', ho'.trans ho, rfl⟩

theorem quiet_advance (w : World) : Quiet w w.advance :=
  ⟨w.outcomes.tail, List.tail_suffix _, rfl⟩

theorem quiet_llseek (w : World) : Quiet w (llseek w).2 := by
  unfold llseek
  split
  · exact quiet_advance w
  · exact quiet_advance w

theorem quiet_pread (w : World) (fd : Fd) (off n : Nat) : Quiet w (w.pread fd off n).2 := by
  unfold World.pread
  split
  · exact quiet_advance w
  · exact quiet_advance w
  · exact quiet_advance w

theorem quiet_seekRead (location size : Nat) (w : World) :
    Quiet w (seekRead d location size w).2 := by
  unfold seekRead
  have hseek := quiet_llseek w
  generalize llseek w = r at hseek ⊢
  split
  · exact hseek
  · have hread := hseek.trans (quiet_pread _ d.dev location size)
    dsimp only at hread
    split
    · rename_i hr
      rw [hr] at hread
      exact hread
    · rename_i hr
      rw [hr] at hread
      split_ifs
      · exact hread
      · exact hread

theorem quiet_bounceRead (blockSize n location size reallyRead : Nat) (w : World) :
    Quiet w (bounceRead d blockSize n location size reallyRead w).2 := by
  induction n generalizing location size reallyRead w with
  | zero =>
      exact Quiet.refl w
  | succ n ih =>
      unfold bounceRead
      have hread := quiet_pread w d.dev location blockSize
      split
      · rename_i hr
        rw [hr] at hread
        exact hread
      · rename_i hr
        rw [hr] at hread
        split_ifs
        · exact hread
        · exact hread.trans (ih _ _ _ _)

/-- **A read** changes no file. -/
theorem quiet_rawReadBlk (blockSize block : Nat) (count : Int) (addr : Nat) (w : World) :
    Quiet w (rawReadBlk d blockSize block count addr w).2 := by
  unfold rawReadBlk
  dsimp only
  split_ifs
  · have hseek := quiet_llseek w
    generalize llseek w = r at hseek ⊢
    split
    · exact hseek
    · exact hseek.trans (quiet_bounceRead _ _ _ _ _ _)
  · have hread := quiet_pread w d.dev (block * blockSize + d.offset)
      (transferSize blockSize count)
    split
    · rename_i hr
      rw [hr] at hread
      exact hread.trans (quiet_seekRead _ _ _)
    · rename_i hr
      rw [hr] at hread
      split_ifs
      · exact hread
      · exact hread.trans (quiet_seekRead _ _ _)

theorem Diverts.of_quiet {s s' : Logging} (h : Diverts crc s s') {w : World}
    (hw : Quiet s'.redo.world w) : Diverts crc s { s' with redo.world := w } := by
  obtain ⟨o, ho, rfl⟩ := hw
  exact h.quiet o ho

end Quiet

section Device

variable {crc : Bytes → UInt32} {d : Device} {s₀ : Logging}

/-- What an operation needs so that nothing bounces: the memory and the size of the transfer of
a caller's buffer are aligned; discards and the zeroing of a file are not diverted at all. -/
def ManagerOp.Diverted (blockDevice noZeroout : Bool) (d : Device) (bs : Nat) : ManagerOp → Prop
  | .channel (.writeBlk64 writethrough _ count buf) =>
      writethrough = true ∨ count < 0 ∨ (writeDirectSize : Int) < count →
        d.direct buf.addr (transferSize bs count) = true
  | .channel _ => True
  | .discard _ _ => False
  | .zeroout _ count => noZeroout = true ∨ blockDevice = true ∨ count = 0
  | .close => True

/-- Blocks of the cache need no bounce buffer. -/
def Device.DirectBlocks (d : Device) (bs : Nat) : Prop :=
  d.forceBounce = false ∧ d.direct 0 bs = true

theorem redoWriteBlk_direct (hd : d.forceBounce = false) {bs : Nat} (block : Nat) {count : Int}
    {buf : Buffer} (hdirect : d.direct buf.addr (transferSize bs count) = true) (s : Logging) :
    redoWriteBlk crc d bs block count buf s =
      s.call crc (.write (block * bs + d.offset) (buf.bytes (transferSize bs count))) := by
  unfold redoWriteBlk
  dsimp only
  rw [hd, hdirect]
  rfl

theorem keeping_diverts {bs : Nat} (hd : d.DirectBlocks bs) :
    Keeping (logged crc d) (Diverts crc s₀) bs where
  readBlk := fun b count addr s hs => hs.of_quiet (quiet_rawReadBlk bs b count addr s.redo.world)
  writeBack := by
    intro c s hs
    have hback : writeBack (logged crc d) bs c s =
        s.call crc (.write (c.block * bs + d.offset)
          ((Buffer.ofBytes c.buf).bytes (transferSize bs 1))) :=
      redoWriteBlk_direct hd.1 c.block (by rw [transferSize_one]; exact hd.2) s
    rw [hback]
    exact hs.call _

/-- **One operation** that needs no bounce buffer. -/
theorem ManagerOp.Diverted.run
    {blockDevice noZeroout : Bool} {op : ManagerOp} {io : Io Logging}
    (hop : op.Diverted blockDevice noZeroout d io.channel.blockSize)
    (hd : d.DirectBlocks io.channel.blockSize) (hio : Diverts crc s₀ io.sys) :
    Diverts crc s₀ (op.run crc blockDevice noZeroout d io).2.sys := by
  have hkeeping := @keeping_diverts crc d s₀ _ hd
  have hkept : Kept (Diverts crc s₀) io.channel.blockSize io.channel.refcount io :=
    ⟨rfl, rfl, hio⟩
  cases op with
  | channel op =>
      cases op with
      | readBlk64 block count addr =>
          exact (hkept.unixReadBlk64 hkeeping block count addr).sys
      | writeBlk64 writethrough block count buf =>
          refine (hkept.unixWriteBlk64 hkeeping fun hraw s hs => ?_).sys
          have hcall := @redoWriteBlk_direct crc d hd.1 _ block _ _ (hop hraw) s
          rw [show (logged crc d).writeBlk = redoWriteBlk crc d from rfl, hcall]
          exact hs.call _
      | writeByte offset data =>
          exact (hkept.unixWriteByte hkeeping fun s hs => hs.call _).sys
      | flush =>
          exact (hkept.unixFlush hkeeping fun _ s hs => hs.call _).sys
      | setBlksize blksize pos =>
          exact (hkept.unixSetBlksize hkeeping blksize pos).2
  | discard block count =>
      exact hop.elim
  | zeroout block count =>
      have hquiet : Quiet io.sys.redo.world (unixZeroout blockDevice noZeroout d
          io.channel.blockSize block count io.sys.redo.world).2 := by
        unfold unixZeroout
        rcases hop with rfl | rfl | rfl
        · rw [Bool.true_or, if_pos rfl]
          exact Quiet.refl _
        · rw [Bool.or_true, if_pos rfl]
          exact Quiet.refl _
        · by_cases hoff : (noZeroout || blockDevice) = true
          · rw [if_pos hoff]
            exact Quiet.refl _
          · rw [if_neg hoff, if_pos rfl]
            exact Quiet.refl _
      exact hio.of_quiet hquiet
  | close =>
      exact hkept.unixClose hkeeping

/-- Every operation of a run meets the condition in the state before it. -/
def AllDiverted (crc : Bytes → UInt32) (blockDevice noZeroout : Bool) (d : Device) :
    List ManagerOp → Io Logging → Prop
  | [], _ => True
  | op :: ops, io =>
      op.Diverted blockDevice noZeroout d io.channel.blockSize ∧
        d.DirectBlocks io.channel.blockSize ∧
        AllDiverted crc blockDevice noZeroout d ops (op.run crc blockDevice noZeroout d io).2

theorem AllDiverted.diverts
    {blockDevice noZeroout : Bool} {ops : List ManagerOp} {io : Io Logging}
    (hops : AllDiverted crc blockDevice noZeroout d ops io) (hio : Diverts crc s₀ io.sys) :
    Diverts crc s₀ (runManager crc blockDevice noZeroout d ops io).sys := by
  induction ops generalizing io with
  | nil =>
      exact hio
  | cons op ops ih =>
      exact ih hops.2.2 (hops.1.run hops.2.1 hio)

theorem Device.direct_of_align_zero (d : Device) (hd : d.align = 0) (addr size : Nat) :
    d.direct addr size = true := by
  rw [Device.direct, hd, decide_eq_true rfl, Bool.true_or]

theorem allDiverted_of_align_zero
    (hd : d.align = 0) (hbounce : d.forceBounce = false) {blockDevice noZeroout : Bool}
    {ops : List ManagerOp} (hops : ∀ op ∈ ops, ∃ c, op = .channel c) (io : Io Logging) :
    AllDiverted crc blockDevice noZeroout d ops io := by
  have hdirect := d.direct_of_align_zero hd
  induction ops generalizing io with
  | nil =>
      trivial
  | cons op ops ih =>
      refine ⟨?_, ⟨hbounce, hdirect _ _⟩, ih (fun op hop => hops op (List.mem_cons_of_mem _ hop)) _⟩
      obtain ⟨c, rfl⟩ := hops op List.mem_cons_self
      cases c with
      | writeBlk64 writethrough block count buf =>
          exact fun _ => hdirect _ _
      | readBlk64 _ _ _ =>
          trivial
      | writeByte _ _ =>
          trivial
      | flush =>
          trivial
      | setBlksize _ _ =>
          trivial

/-- **Redo mode leaves the devices alone**, whatever fails, as long as nothing needs the bounce
buffer and nothing is discarded or zeroed: the process has only read and called the redo
library. -/
theorem device_unchanged
    (crc : Bytes → UInt32) (blockDevice noZeroout : Bool) (d : Device) (ops : List ManagerOp)
    (io : Io Logging) (hops : AllDiverted crc blockDevice noZeroout d ops io) :
    Diverts crc io.sys (runManager crc blockDevice noZeroout d ops io).sys ∧
      ∀ fd, (runManager crc blockDevice noZeroout d ops io).sys.redo.world.file (.dev fd) =
        io.sys.redo.world.file (.dev fd) := by
  have hdiverts := hops.diverts Diverts.refl
  exact ⟨hdiverts, hdiverts.spares.file⟩

/-- A channel over a process that has just opened the redo log. -/
def blankIo : Io Logging where
  channel := Channel.opened
  sys := { redo := blankState crc32c, calls := [] }

theorem device_unchanged_block :
    (runManager crc32c false false ⟨.dev 1, 0, 0, false⟩
        [.channel (.writeBlk64 true 0 1 ⟨0, fun _ => 7⟩), .channel .flush]
        blankIo).sys.redo.world.file (.dev 1) =
      blankIo.sys.redo.world.file (.dev 1) :=
  (device_unchanged crc32c false false ⟨.dev 1, 0, 0, false⟩ _ blankIo
    (allDiverted_of_align_zero rfl rfl (by simp) blankIo)).2 1

theorem byte_rawBounceWrite {w : World} (hw : w.outcomes = []) (hd : d.forceBounce = true) :
    ((redoWriteBlk crc d 1024 0 (-1) ⟨0, fun _ => 7⟩
      { redo := { data := s₀.redo.data, world := w, out := s₀.redo.out }
        calls := s₀.calls }).2.redo.world.file d.dev).byte d.offset = 7 := by
  have hsize : transferSize 1024 (-1) = 1 := rfl
  unfold redoWriteBlk
  dsimp only
  rw [hd, hsize, Bool.true_or, if_pos rfl]
  unfold Logging.onWorld rawBounceWrite
  dsimp only
  rw [llseek_of_outcomes_nil hw]
  dsimp only
  obtain ⟨-, hok, hput⟩ := bounceWrite_spec (d := d) hw 1024
    (blocksOf 1024 ([7] : Bytes).length) (0 * 1024 + d.offset) [7]
  have hfile := (hput (hok (by decide))).1
  change ((bounceWrite d 1024 (blocksOf 1024 ([7] : Bytes).length) (0 * 1024 + d.offset) [7]
    w).2.file d.dev).byte d.offset = 7
  rw [hfile]
  simp [blocksOf, bouncePut, bounced, ByteFile.byte_pwrite]

/-- With `IO_FLAG_FORCE_BOUNCE` a byte goes to the device. -/
theorem device_changed_by_bounce :
    (runManager crc32c false false ⟨.dev 1, 0, 0, true⟩
        [.channel (.writeBlk64 false 0 (-1) ⟨0, fun _ => 7⟩)] blankIo).sys.redo.world.file
        (.dev 1) ≠ blankIo.sys.redo.world.file (.dev 1) := by
  obtain ⟨hsession, -, -, hworld⟩ := (blankState_freshlyOpened crc32c).session
  have hbyte : ((runManager crc32c false false ⟨.dev 1, 0, 0, true⟩
      [.channel (.writeBlk64 false 0 (-1) ⟨0, fun _ => 7⟩)] blankIo).sys.redo.world.file
      (.dev 1)).byte 0 = 7 :=
    @byte_rawBounceWrite crc32c ⟨.dev 1, 0, 0, true⟩ blankIo.sys _ hsession.outcomes_nil rfl
  intro heq
  rw [heq] at hbyte
  have hzero : (blankIo.sys.redo.world.file (.dev 1)).byte 0 = 0 := by
    rw [show blankIo.sys.redo.world = _ from hworld, file_dev_push_redo]
    rfl
  rw [hzero] at hbyte
  cases hbyte

end Device

end UnixIo
end Rfsck
