import Rfsck.UnixIo.Diversion

/-!
# The write primitives of `libxfs`

`libxfs_writebufr`, `libxfs_putbufr`, `libxfs_bcache_flush`, `libxfs_device_zero` and
`libxfs_log_clear` of `rdwr.c`.  With `redo_file` set, `__write_buf` hands a buffer to
`rfsck_write`; `libxfs_device_zero` has no such branch.

* `Libxfs` is the process: the open devices, the buffer cache, the redo library, and a list
  of the writes that were asked for.
* A primitive tells whether the process goes on: the other case is `exit(1)`.
* `Primitive.Diverted`: what the primitive zeroes reads zero already.
* `redo_mode_spares_devices`: a sequence of such primitives changes no device, and every
  write that was asked for is an entry of the redo log.

Disk addresses count basic blocks of 512 bytes.
-/

namespace Rfsck
namespace Xfs

open Storage
open Redo
open UnixIo (Buffer logRequest Spares)

/-- `BBSIZE`. -/
def bbSize : Nat := 512

/-- `LIBXFS_BBTOOFF64` and `BBTOB`, where nothing overflows. -/
def bbToB (bbs : Nat) : Nat :=
  bbs * bbSize

/-- `BTOBB`. -/
def bToBb (bytes : Nat) : Nat :=
  (bytes + bbSize - 1) / bbSize

/-- `BDSTRAT_SIZE`. -/
def bdstratSize : Nat := 256 * 1024

/-- The error numbers in use; a failed `pwrite` says `EIO`. -/
def eio : Int := 5

@[inherit_doc eio] def einval : Int := 22

@[inherit_doc eio] def estale : Int := 116

/-- `struct xfs_buf_map`. -/
structure XfsBufMap where
  bmBn : Nat
  bmLen : Nat

/-- `struct xfs_buf`.  The verifier gets the memory of the buffer, which it may change, and
returns the error it sets. -/
structure XfsBuf where
  dev : Nat
  bn : Nat
  bcount : Nat
  addr : Buffer
  maps : List XfsBufMap
  exit : Bool
  dirty : Bool
  stale : Bool
  uptodate : Bool
  discontig : Bool
  unchecked : Bool
  error : Int
  verifyWrite : Option (Buffer → Buffer × Int)

namespace XfsBuf

/-- The call of the verifier, behind `b_error = 0`. -/
def verified (bp : XfsBuf) : XfsBuf :=
  match bp.verifyWrite with
  | none => { bp with error := 0 }
  | some verify => { bp with addr := (verify bp.addr).1, error := (verify bp.addr).2 }

/-- The flags behind a write with the given result. -/
def written (bp : XfsBuf) (error : Int) : XfsBuf :=
  if error = 0 then
    { bp with error := 0, uptodate := true, dirty := false, exit := false, unchecked := false }
  else
    { bp with error := error }

end XfsBuf

/-- A write that a program asks for: the descriptor, the place and the bytes. -/
structure DevWrite where
  fd : Nat
  location : Nat
  data : Bytes
deriving DecidableEq

/-- The process: `dev_map`, `libxfs_bcache` in the order of its hash lists, the memory of a
buffer from `libxfs_getbufr`, the redo library, and the writes asked for so far. -/
structure Libxfs where
  redoFile : Option String
  devMap : List (Nat × Nat)
  bcache : List XfsBuf
  bufMem : Nat → UInt8
  redo : State
  issued : List DevWrite

namespace Libxfs

/-- `libxfs_device_to_fd`; a device that is not open ends the process. -/
def deviceToFd (s : Libxfs) (dev : Nat) : Option Nat :=
  (s.devMap.find? (fun entry => entry.1 = dev)).map Prod.snd

end Libxfs

section Write

variable (crc : Bytes → UInt32)

/-- `__write_buf`; `exit` is `LIBXFS_B_EXIT`. -/
def writeBuf (fd : Nat) (buf : Buffer) (len offset : Nat) (exit : Bool) (s : Libxfs) :
    Option Int × Libxfs :=
  let data := buf.bytes len
  let s := { s with issued := s.issued ++ [DevWrite.mk fd offset data] }
  if s.redoFile.isSome then
    let (sts, redo) := rfsckWrite crc (logRequest offset data) s.redo
    (some sts, { s with redo := redo })
  else
    let (sts, world) := s.redo.world.pwrite (.dev fd) offset data
    let s := { s with redo.world := world }
    if sts < 0 then
      (if exit then none else some (-eio), s)
    else if sts ≠ len then
      (if exit then none else some (-eio), s)
    else
      (some 0, s)

/-- The loop over the maps of a discontiguous buffer. -/
def writeMaps (fd : Nat) (exit : Bool) : List XfsBufMap → Buffer → Libxfs → Option Int × Libxfs
  | [], _, s => (some 0, s)
  | map :: maps, buf, s =>
      let len := bbToB map.bmLen
      match writeBuf crc fd buf len (bbToB map.bmBn) exit s with
      | (none, s) => (none, s)
      | (some error, s) =>
          if error ≠ 0 then
            (some error, s)
          else
            writeMaps fd exit maps (buf.advance len) s

/-- `libxfs_writebufr`: the buffer afterwards, with the result in its `error`. -/
def writebufr (bp : XfsBuf) (s : Libxfs) : Option XfsBuf × Libxfs :=
  match s.deviceToFd bp.dev with
  | none => (none, s)
  | some fd =>
      if bp.stale then
        (some { bp with error := -estale }, s)
      else
        let bp := bp.verified
        if bp.error ≠ 0 then
          (some bp, s)
        else
          let (error, s) :=
            if !bp.discontig then
              writeBuf crc fd bp.addr bp.bcount (bbToB bp.bn) bp.exit s
            else
              writeMaps crc fd bp.exit bp.maps bp.addr s
          (error.map bp.written, s)

/-- `libxfs_putbufr`; the buffer goes to the free list. -/
def putbufr (bp : XfsBuf) (s : Libxfs) : Bool × Libxfs :=
  if bp.dirty then
    let (bp, s) := writebufr crc bp s
    (bp.isSome, s)
  else
    (true, s)

/-- `libxfs_bflush` for a buffer of the cache. -/
def bflush (bp : XfsBuf) (s : Libxfs) : Option XfsBuf × Libxfs :=
  if bp.error = 0 ∧ bp.dirty = true then
    writebufr crc bp s
  else
    (some bp, s)

/-- `cache_flush` over the buffers that are left; `done` are those behind. -/
def cacheFlush : List XfsBuf → List XfsBuf → Libxfs → Bool × Libxfs
  | done, [], s => (true, { s with bcache := done })
  | done, bp :: bps, s =>
      match bflush crc bp s with
      | (none, s) => (false, { s with bcache := done ++ bp :: bps })
      | (some bp, s) => cacheFlush (done ++ [bp]) bps s

/-- `libxfs_bcache_flush`. -/
def bcacheFlush (s : Libxfs) : Bool × Libxfs :=
  cacheFlush crc [] s.bcache s

end Write

section Zero

/-- `zsize`: the product is a 32-bit number. -/
def zeroSize (len : Nat) : Nat :=
  min bdstratSize (bbToB len % 2 ^ 32)

/-- The loop of `libxfs_device_zero` over the bytes that are left, of which there are at most
as many as the first argument says. -/
def zeroLoop (fd zsize : Nat) : Nat → Nat → Nat → World → Bool × World
  | 0, _, _, w => (true, w)
  | n + 1, location, left, w =>
      if left = 0 then
        (true, w)
      else
        match w.pwrite (.dev fd) location (List.replicate (min left zsize) 0) with
        | (bytes, w) =>
            if bytes ≤ 0 then
              (false, w)
            else
              zeroLoop fd zsize n (location + bytes.toNat) (left - bytes.toNat) w

/-- `libxfs_device_zero`. -/
def deviceZero (dev start len : Nat) (s : Libxfs) : Bool × Libxfs :=
  match s.deviceToFd dev with
  | none => (false, s)
  | some fd =>
      match UnixIo.llseek s.redo.world with
      | (false, w) => (false, { s with redo.world := w })
      | (true, w) =>
          let (ok, w) := zeroLoop fd (zeroSize len) (bbToB len) (bbToB start) (bbToB len) w
          (ok, { s with redo.world := w })

end Zero

section LogRecord

/-- Fields of the log record are stored with the most significant byte first. -/
def beBytes (w n : Nat) : Bytes :=
  (leBytes w n).reverse

/-- `xlog_assign_lsn`. -/
def xlogAssignLsn (cycle block : UInt32) : UInt64 :=
  cycle.toUInt64 <<< 32 ||| block.toUInt64

/-- `NULLCOMMITLSN`. -/
def nullCommitLsn : UInt64 := 0xffffffffffffffff

/-- `XLOG_INIT_CYCLE`. -/
def xlogInitCycle : UInt32 := 1

/-- `XLOG_HEADER_CYCLE_SIZE`, which is also `XLOG_BIG_RECORD_BSIZE`. -/
def xlogHeaderCycleSize : Nat := 32 * 1024

def basicBlock (bytes : Bytes) : Bytes :=
  bytes ++ List.replicate (bbSize - bytes.length) 0

/-- The transaction id of `unmount_record`. -/
def unmountTid : Nat := 0xb0c0d0d0

/-- `unmount_record`, with the cycle in the place of its first word. -/
def unmountRecord (cycle : Bytes) : Bytes :=
  basicBlock (cycle ++ beBytes 4 8 ++ [0xaa, 0x20, 0, 0] ++ leBytes 2 0x556e ++
    List.replicate 6 0)

/-- The number of header blocks of a record. -/
def headerBlocks (version sunit : Nat) : Nat :=
  if version = 2 ∧ xlogHeaderCycleSize < sunit then
    (sunit + xlogHeaderCycleSize - 1) / xlogHeaderCycleSize
  else
    1

/-- The blocks that `libxfs_log_header` writes to the buffer. -/
def logHeader (fsUuid : Bytes) (version sunit fmt : Nat) (lsn tailLsn : UInt64) : Bytes :=
  let lsn := if lsn = nullCommitLsn then xlogAssignLsn xlogInitCycle 0 else lsn
  let tailLsn := if tailLsn = nullCommitLsn then lsn else tailLsn
  let cycle := beBytes 4 (lsn >>> 32).toNat
  let hdrs := headerBlocks version sunit
  let len := max (if version = 2 ∧ sunit ≠ 0 then bToBb sunit else 1) (hdrs + 1)
  let head := beBytes 4 0xfeedbabe ++ cycle ++ beBytes 4 version ++
    beBytes 4 (max (bbToB 2) sunit - hdrs * bbSize) ++ beBytes 8 lsn.toNat ++
    beBytes 8 tailLsn.toNat ++ leBytes 4 0 ++ beBytes 4 0xffffffff ++ beBytes 4 1 ++
    (beBytes 4 unmountTid ++ List.replicate 252 0) ++ beBytes 4 fmt ++ fsUuid ++
    beBytes 4 (max sunit xlogHeaderCycleSize)
  basicBlock head ++ (List.replicate (hdrs - 1) (basicBlock cycle)).flatten ++
    unmountRecord cycle ++ (List.replicate (len - (hdrs + 1)) (basicBlock cycle)).flatten

end LogRecord

/-- The arguments of `libxfs_log_clear`; `btp` and `dptr` may be null pointers, and of the
memory behind `dptr` only the existence matters here. -/
structure LogClear where
  btp : Option Nat
  dptr : Bool
  start : Nat
  length : Nat
  fsUuid : Option Bytes
  version : Nat
  sunit : Nat
  fmt : Nat
  cycle : UInt32
  max : Bool

section Clear

variable (crc : Bytes → UInt32)

/-- A record of the log goes through a buffer of its own. -/
def putRecord (dev blk len : Nat) (record : Bytes) (s : Libxfs) : Bool × Libxfs :=
  putbufr crc
    { dev := dev
      bn := blk
      bcount := bbToB len
      addr := ⟨0, fun i => record.getD i (s.bufMem i)⟩
      maps := []
      exit := false
      dirty := true
      stale := false
      uptodate := false
      discontig := false
      unchecked := false
      error := 0
      verifyWrite := none } s

/-- The loop over the records behind the first one; the first argument bounds their number. -/
def fillLog (dev start : Nat) (a : LogClear) (fsUuid : Bytes) (cycle : UInt32) :
    Nat → Nat → Nat → Libxfs → Bool × Libxfs
  | 0, _, _, s => (true, s)
  | n + 1, blk, len, s =>
      let endBlk := start + a.length
      if blk < endBlk then
        let lsn := xlogAssignLsn cycle (UInt32.ofNat (blk - start))
        let tailLsn := xlogAssignLsn cycle (UInt32.ofNat (blk - start - len))
        match putRecord crc dev blk len
            (logHeader fsUuid a.version (bbToB len) a.fmt lsn tailLsn) s with
        | (false, s) => (false, s)
        | (true, s) => fillLog dev start a fsUuid cycle n (blk + len)
            (min (endBlk - (blk + len)) len) s
      else
        (true, s)

/-- The part of `libxfs_log_clear` behind its tests and the zeroing, for a device. -/
def formatLog (dev : Nat) (a : LogClear) (fsUuid : Bytes) (s : Libxfs) : Bool × Libxfs :=
  let len := Nat.max (if a.version = 2 ∧ a.sunit ≠ 0 then bToBb a.sunit else 2) 2
  let lsn := xlogAssignLsn a.cycle 0
  let tailLsn :=
    if a.cycle = xlogInitCycle then lsn
    else xlogAssignLsn (a.cycle - 1) (UInt32.ofNat a.length - UInt32.ofNat len)
  match putRecord crc dev a.start len (logHeader fsUuid a.version a.sunit a.fmt lsn tailLsn) s with
  | (false, s) => (false, s)
  | (true, s) =>
      if a.cycle = xlogInitCycle then
        (true, s)
      else
        let len := if a.max then bToBb bdstratSize else len
        let blk := a.start + len
        fillLog crc dev a.start a fsUuid (a.cycle - 1) a.length blk
          (min (a.start + a.length - blk) len) s

/-- `libxfs_log_clear`: the result, or `none` when the process has ended. -/
def logClear (a : LogClear) (s : Libxfs) : Option Int × Libxfs :=
  match a.btp, a.dptr, a.fsUuid with
  | some dev, false, some fsUuid =>
      if dev = 0 then
        (some (-einval), s)
      else
        match deviceZero dev a.start a.length s with
        | (false, s) => (none, s)
        | (true, s) =>
            let (ok, s) := formatLog crc dev a fsUuid s
            (if ok then some 0 else none, s)
  | none, true, some _ => (some 0, s)
  | _, _, _ => (some (-einval), s)

/-- The write primitives, and what the program does to the buffers of the cache meanwhile. -/
inductive Primitive where
  | writebufr (bp : XfsBuf)
  | putbufr (bp : XfsBuf)
  | setBcache (bufs : List XfsBuf)
  | bcacheFlush
  | deviceZero (dev start len : Nat)
  | logClear (a : LogClear)

/-- One primitive: whether the process goes on. -/
def Primitive.run : Primitive → Libxfs → Bool × Libxfs
  | .writebufr bp, s =>
      let (bp, s) := Xfs.writebufr crc bp s
      (bp.isSome, s)
  | .putbufr bp, s => Xfs.putbufr crc bp s
  | .setBcache bufs, s => (true, { s with bcache := bufs })
  | .bcacheFlush, s => Xfs.bcacheFlush crc s
  | .deviceZero dev start len, s => Xfs.deviceZero dev start len s
  | .logClear a, s =>
      let (retval, s) := Xfs.logClear crc a s
      (retval.isSome, s)

/-- A sequence of primitives, up to the end of the process. -/
def runPrimitives : List Primitive → Libxfs → Libxfs
  | [], s => s
  | p :: ps, s =>
      match p.run crc s with
      | (false, s) => s
      | (true, s) => runPrimitives ps s

end Clear

section Diverts

variable {crc : Bytes → UInt32} {s : Libxfs}

/-- The entry of the redo log for a write. -/
def DevWrite.entry (crc : Bytes → UInt32) (d : DevWrite) : Entry :=
  (logRequest d.location d.data).entry crc

/-- Behind the entries `es` the log holds the writes that were asked for, when each of them
fits one system call. -/
def Libxfs.Logs (crc : Bytes → UInt32) (es : List Entry) (s : Libxfs) : Prop :=
  (∀ d ∈ s.issued, d.data.length ≤ maxRwCount) →
    ∃ n, Session crc (es ++ s.issued.map (DevWrite.entry crc)) [] n [] s.redo

/-- From `s` to `s'` no device changes, and the log keeps up with the writes asked for. -/
structure Diverts (crc : Bytes → UInt32) (s s' : Libxfs) : Prop where
  redoFile : s'.redoFile = s.redoFile
  devMap : s'.devMap = s.devMap
  file : ∀ fd, s'.redo.world.file (.dev fd) = s.redo.world.file (.dev fd)
  logs : ∀ es, s.Logs crc es → s'.Logs crc es

theorem Diverts.refl (crc : Bytes → UInt32) (s : Libxfs) : Diverts crc s s :=
  ⟨rfl, rfl, fun _ => rfl, fun _ h => h⟩

theorem Diverts.trans {s' s'' : Libxfs} (h : Diverts crc s s') (h' : Diverts crc s' s'') :
    Diverts crc s s'' :=
  ⟨h'.redoFile.trans h.redoFile, h'.devMap.trans h.devMap,
    fun fd => (h'.file fd).trans (h.file fd), fun es hs => h'.logs es (h.logs es hs)⟩

theorem Diverts.setBcache {s' : Libxfs} (h : Diverts crc s s') (bufs : List XfsBuf) :
    Diverts crc s { s' with bcache := bufs } :=
  ⟨h.redoFile, h.devMap, h.file, h.logs⟩

/-- **A buffer goes to the log** while `redo_file` is set. -/
theorem writeBuf_diverts (hredo : s.redoFile.isSome) (fd : Nat) (buf : Buffer) (len offset : Nat)
    (exit : Bool) : Diverts crc s (writeBuf crc fd buf len offset exit s).2 := by
  unfold writeBuf
  dsimp only
  rw [if_pos hredo]
  refine ⟨rfl, rfl, fun fd' => (UnixIo.spares_rfsckWrite _ _).file fd', ?_⟩
  intro es hlogs hwhole
  obtain ⟨n, hs⟩ := hlogs (fun d hd => hwhole d (List.mem_append_left _ hd))
  have hreq : (logRequest offset (buf.bytes len)).Whole := by
    refine le_trans ?_ (hwhole ⟨fd, offset, buf.bytes len⟩ (by simp))
    exact List.length_take_le' _ _
  have hentries : es ++ (s.issued.map (DevWrite.entry crc) ++
      [(logRequest offset (buf.bytes len)).entry crc]) =
      es ++ (s.issued ++ [DevWrite.mk fd offset (buf.bytes len)]).map (DevWrite.entry crc) := by
    rw [List.map_append]
    rfl
  have hnext := hs.write hreq
  rw [clearMarks_nil, List.append_assoc, hentries] at hnext
  exact ⟨_, hnext⟩

theorem writeMaps_diverts (hredo : s.redoFile.isSome) (fd : Nat) (exit : Bool)
    (maps : List XfsBufMap) (buf : Buffer) :
    Diverts crc s (writeMaps crc fd exit maps buf s).2 := by
  induction maps generalizing buf s with
  | nil =>
      exact Diverts.refl crc s
  | cons map maps ih =>
      have hfirst : Diverts crc s
          (writeBuf crc fd buf (bbToB map.bmLen) (bbToB map.bmBn) exit s).2 :=
        writeBuf_diverts hredo fd buf _ _ exit
      rw [writeMaps]
      generalize writeBuf crc fd buf (bbToB map.bmLen) (bbToB map.bmBn) exit s = r at hfirst ⊢
      obtain ⟨r, s'⟩ := r
      cases r with
      | none =>
          exact hfirst
      | some error =>
          have hredo' : s'.redoFile.isSome := by
            rw [hfirst.redoFile]
            exact hredo
          change Diverts crc s (if error ≠ 0 then (some error, s') else
            writeMaps crc fd exit maps (buf.advance (bbToB map.bmLen)) s').2
          split_ifs
          · exact hfirst
          · exact hfirst.trans (ih hredo' _)

theorem writebufr_diverts (hredo : s.redoFile.isSome) (bp : XfsBuf) :
    Diverts crc s (writebufr crc bp s).2 := by
  unfold writebufr
  cases s.deviceToFd bp.dev with
  | none =>
      exact Diverts.refl crc s
  | some fd =>
      dsimp only
      split_ifs
      · exact Diverts.refl crc s
      · exact Diverts.refl crc s
      · exact writeBuf_diverts hredo _ _ _ _ _
      · exact writeMaps_diverts hredo _ _ _ _

theorem putbufr_diverts (hredo : s.redoFile.isSome) (bp : XfsBuf) :
    Diverts crc s (putbufr crc bp s).2 := by
  unfold putbufr
  split_ifs
  · exact writebufr_diverts hredo bp
  · exact Diverts.refl crc s

theorem cacheFlush_diverts (hredo : s.redoFile.isSome) (done bps : List XfsBuf) :
    Diverts crc s (cacheFlush crc done bps s).2 := by
  induction bps generalizing done s with
  | nil =>
      exact (Diverts.refl crc s).setBcache done
  | cons bp bps ih =>
      have hfirst : Diverts crc s (bflush crc bp s).2 := by
        unfold bflush
        split_ifs
        · exact writebufr_diverts hredo bp
        · exact Diverts.refl crc s
      rw [cacheFlush]
      generalize bflush crc bp s = r at hfirst ⊢
      obtain ⟨r, s'⟩ := r
      cases r with
      | none =>
          exact hfirst.setBcache _
      | some bp' =>
          have hredo' : s'.redoFile.isSome := by
            rw [hfirst.redoFile]
            exact hredo
          exact hfirst.trans (ih hredo' _)

end Diverts

section Zeroing

variable {crc : Bytes → UInt32} {s : Libxfs}

theorem Diverts.of_world {w : World} (hfile : ∀ fd, w.file fd = s.redo.world.file fd)
    (hout : w.outcomes <:+ s.redo.world.outcomes) :
    Diverts crc s { s with redo.world := w } := by
  refine ⟨rfl, rfl, fun fd => hfile (.dev fd), ?_⟩
  intro es hlogs hwhole
  obtain ⟨n, hs⟩ := hlogs hwhole
  have hnil : w.outcomes = [] := by
    rw [hs.outcomes_nil] at hout
    exact List.suffix_nil.mp hout
  exact ⟨n, hs.of_file (hfile .redo) hnil⟩

theorem pwrite_of_holds {w : World} {fd : Fd} {off : Nat} {buf : Bytes}
    (h : (w.file fd).Holds off buf) :
    (w.pwrite fd off buf).1 ≤ buf.length ∧
      (∀ fd', (w.pwrite fd off buf).2.file fd' = w.file fd') ∧
      (w.pwrite fd off buf).2.outcomes <:+ w.outcomes := by
  have htail : w.outcomes.tail <:+ w.outcomes := List.tail_suffix _
  have hpush : ∀ (m : Nat) (fd' : Fd),
      (w.advance.push (.pwrite fd off (buf.take m))).file fd' = w.file fd' := by
    intro m fd'
    rw [World.file_push]
    by_cases hfd : fd = fd'
    · subst hfd
      have hsplit := h
      rw [← List.take_append_drop m buf, ByteFile.holds_append] at hsplit
      rw [applyEvent_pwrite_self]
      exact hsplit.1.pwrite_eq
    · exact applyEvent_pwrite_other hfd _ _ _
  unfold World.pwrite
  cases w.nextOutcome with
  | fail =>
      exact ⟨by simp only; omega, fun _ => rfl, htail⟩
  | short n =>
      exact ⟨Int.ofNat_le.mpr (List.length_take_le' _ _), hpush _, htail⟩
  | ok =>
      exact ⟨Int.ofNat_le.mpr (List.length_take_le' _ _), hpush _, htail⟩

theorem holds_replicate_split {f : ByteFile} {off m n : Nat} {b : UInt8} (hm : m ≤ n)
    (h : f.Holds off (List.replicate n b)) :
    f.Holds off (List.replicate m b) ∧ f.Holds (off + m) (List.replicate (n - m) b) := by
  rw [← Nat.add_sub_cancel' hm, List.replicate_add, ByteFile.holds_append,
    List.length_replicate] at h
  exact h

theorem zeroLoop_succ (fd zsize n location left : Nat) (w : World) :
    zeroLoop fd zsize (n + 1) location left w =
      if left = 0 then (true, w)
      else
        let r := w.pwrite (.dev fd) location (List.replicate (min left zsize) 0)
        if r.1 ≤ 0 then (false, r.2)
        else zeroLoop fd zsize n (location + r.1.toNat) (left - r.1.toNat) r.2 := by
  rfl

theorem zeroLoop_spares {fd zsize : Nat} (n location left : Nat) {w : World}
    (h : zsize = 0 ∨ (w.file (.dev fd)).Holds location (List.replicate left 0)) :
    (∀ fd', (zeroLoop fd zsize n location left w).2.file fd' = w.file fd') ∧
      (zeroLoop fd zsize n location left w).2.outcomes <:+ w.outcomes := by
  induction n generalizing location left w with
  | zero =>
      exact ⟨fun _ => rfl, List.suffix_refl _⟩
  | succ n ih =>
      have hhere : (w.file (.dev fd)).Holds location (List.replicate (min left zsize) 0) := by
        rcases h with rfl | hholds
        · rw [Nat.min_zero]
          exact ByteFile.holds_nil _ _
        · exact (holds_replicate_split (Nat.min_le_left left zsize) hholds).1
      obtain ⟨hlen, hfile, hout⟩ := pwrite_of_holds hhere
      rw [List.length_replicate] at hlen
      rw [zeroLoop_succ]
      generalize w.pwrite (.dev fd) location (List.replicate (min left zsize) 0) = r at *
      dsimp only
      split_ifs with hleft hbytes
      · exact ⟨fun _ => rfl, List.suffix_refl _⟩
      · exact ⟨hfile, hout⟩
      · have hle : r.1.toNat ≤ left := by
          have := Nat.min_le_left left zsize
          omega
        have hrest : zsize = 0 ∨ (r.2.file (.dev fd)).Holds (location + r.1.toNat)
            (List.replicate (left - r.1.toNat) 0) := by
          refine h.imp id (fun hholds => ?_)
          rw [hfile]
          exact (holds_replicate_split hle hholds).2
        obtain ⟨hfile', hout'⟩ := ih (location + r.1.toNat) (left - r.1.toNat) hrest
        exact ⟨fun fd' => (hfile' fd').trans (hfile fd'), hout'.trans hout⟩

/-- The blocks lie in the device and read zero, or the 32-bit size of the memory for zeros
is zero. -/
def Libxfs.ReadsZero (s : Libxfs) (dev start len : Nat) : Prop :=
  zeroSize len = 0 ∨ ∀ fd, s.deviceToFd dev = some fd →
    (s.redo.world.file (.dev fd)).Holds (bbToB start) (List.replicate (bbToB len) 0)

theorem deviceZero_diverts {dev start len : Nat} (h : s.ReadsZero dev start len) :
    Diverts crc s (deviceZero dev start len s).2 := by
  unfold deviceZero
  cases hfd : s.deviceToFd dev with
  | none =>
      exact Diverts.refl crc s
  | some fd =>
      have hseek : (∀ fd', (UnixIo.llseek s.redo.world).2.file fd' = s.redo.world.file fd') ∧
          (UnixIo.llseek s.redo.world).2.outcomes <:+ s.redo.world.outcomes := by
        unfold UnixIo.llseek
        cases s.redo.world.nextOutcome <;> exact ⟨fun _ => rfl, List.tail_suffix _⟩
      dsimp only
      generalize UnixIo.llseek s.redo.world = r at hseek ⊢
      obtain ⟨ok, w⟩ := r
      obtain ⟨hfile, hout⟩ := hseek
      cases ok with
      | false =>
          exact Diverts.of_world hfile hout
      | true =>
          have hzeros : zeroSize len = 0 ∨
              (w.file (.dev fd)).Holds (bbToB start) (List.replicate (bbToB len) 0) := by
            refine h.imp id (fun hholds => ?_)
            rw [hfile]
            exact hholds fd hfd
          obtain ⟨hfile', hout'⟩ := zeroLoop_spares (bbToB len) (bbToB start) (bbToB len) hzeros
          exact Diverts.of_world (fun fd' => (hfile' fd').trans (hfile fd')) (hout'.trans hout)

end Zeroing

section Sequences

variable {crc : Bytes → UInt32} {s : Libxfs}

theorem fillLog_diverts (hredo : s.redoFile.isSome) (dev start : Nat) (a : LogClear)
    (fsUuid : Bytes) (cycle : UInt32) (n blk len : Nat) :
    Diverts crc s (fillLog crc dev start a fsUuid cycle n blk len s).2 := by
  induction n generalizing blk len s with
  | zero =>
      exact Diverts.refl crc s
  | succ n ih =>
      rw [fillLog]
      dsimp only
      split_ifs
      · generalize logHeader fsUuid a.version (bbToB len) a.fmt
          (xlogAssignLsn cycle (UInt32.ofNat (blk - start)))
          (xlogAssignLsn cycle (UInt32.ofNat (blk - start - len))) = record
        have hfirst : Diverts crc s (putRecord crc dev blk len record s).2 :=
          putbufr_diverts hredo _
        generalize putRecord crc dev blk len record s = r at hfirst ⊢
        obtain ⟨ok, s'⟩ := r
        cases ok with
        | false =>
            exact hfirst
        | true =>
            have hredo' : s'.redoFile.isSome := by
              rw [hfirst.redoFile]
              exact hredo
            exact hfirst.trans (ih hredo' _ _)
      · exact Diverts.refl crc s

theorem formatLog_diverts (hredo : s.redoFile.isSome) (dev : Nat) (a : LogClear)
    (fsUuid : Bytes) : Diverts crc s (formatLog crc dev a fsUuid s).2 := by
  unfold formatLog
  dsimp only
  generalize Nat.max (if a.version = 2 ∧ a.sunit ≠ 0 then bToBb a.sunit else 2) 2 = len
  generalize logHeader fsUuid a.version a.sunit a.fmt (xlogAssignLsn a.cycle 0)
    (if a.cycle = xlogInitCycle then xlogAssignLsn a.cycle 0
      else xlogAssignLsn (a.cycle - 1) (UInt32.ofNat a.length - UInt32.ofNat len)) = record
  have hfirst : Diverts crc s (putRecord crc dev a.start len record s).2 :=
    putbufr_diverts hredo _
  generalize putRecord crc dev a.start len record s = r at hfirst ⊢
  obtain ⟨ok, s'⟩ := r
  cases ok with
  | false =>
      exact hfirst
  | true =>
      have hredo' : s'.redoFile.isSome := by
        rw [hfirst.redoFile]
        exact hredo
      dsimp only
      split_ifs
      · exact hfirst
      · exact hfirst.trans (fillLog_diverts hredo' _ _ _ _ _ _ _ _)
      · exact hfirst.trans (fillLog_diverts hredo' _ _ _ _ _ _ _ _)

/-- The call gets to `libxfs_device_zero`, for this device. -/
def LogClear.Clears (a : LogClear) (dev : Nat) : Prop :=
  a.btp = some dev ∧ dev ≠ 0 ∧ a.dptr = false ∧ a.fsUuid.isSome

theorem logClear_diverts (hredo : s.redoFile.isSome) {a : LogClear}
    (h : ∀ dev, a.Clears dev → s.ReadsZero dev a.start a.length) :
    Diverts crc s (logClear crc a s).2 := by
  unfold logClear
  split
  next dev fsUuid hbtp hdptr huuid =>
    split_ifs with hdev
    · exact Diverts.refl crc s
    · have hzero : Diverts crc s (deviceZero dev a.start a.length s).2 :=
        deviceZero_diverts (h dev ⟨hbtp, hdev, hdptr, by rw [huuid]; rfl⟩)
      generalize deviceZero dev a.start a.length s = r at hzero ⊢
      obtain ⟨ok, s'⟩ := r
      cases ok with
      | false =>
          exact hzero
      | true =>
          have hredo' : s'.redoFile.isSome := by
            rw [hzero.redoFile]
            exact hredo
          exact hzero.trans (formatLog_diverts hredo' dev a fsUuid)
  next =>
    exact Diverts.refl crc s
  next =>
    exact Diverts.refl crc s

/-- What the primitive zeroes on a device reads zero already. -/
def Primitive.Diverted (s : Libxfs) : Primitive → Prop
  | .deviceZero dev start len => s.ReadsZero dev start len
  | .logClear a => ∀ dev, a.Clears dev → s.ReadsZero dev a.start a.length
  | .writebufr _ => True
  | .putbufr _ => True
  | .setBcache _ => True
  | .bcacheFlush => True

theorem Primitive.Diverted.run {p : Primitive} (h : p.Diverted s) (hredo : s.redoFile.isSome) :
    Diverts crc s (p.run crc s).2 := by
  cases p with
  | writebufr bp =>
      exact writebufr_diverts hredo bp
  | putbufr bp =>
      exact putbufr_diverts hredo bp
  | setBcache bufs =>
      exact (Diverts.refl crc s).setBcache bufs
  | bcacheFlush =>
      exact cacheFlush_diverts hredo [] s.bcache
  | deviceZero dev start len =>
      exact deviceZero_diverts h
  | logClear a =>
      exact logClear_diverts hredo h

/-- Every primitive of the sequence is diverted in the state it runs in. -/
def AllDiverted (crc : Bytes → UInt32) : List Primitive → Libxfs → Prop
  | [], _ => True
  | p :: ps, s => p.Diverted s ∧ ((p.run crc s).1 = true → AllDiverted crc ps (p.run crc s).2)

theorem AllDiverted.take {ps : List Primitive} (h : AllDiverted crc ps s) (k : Nat) :
    AllDiverted crc (ps.take k) s := by
  induction ps generalizing s k with
  | nil =>
      rw [List.take_nil]
      exact h
  | cons p ps ih =>
      cases k with
      | zero =>
          trivial
      | succ k =>
          exact ⟨h.1, fun hok => ih (h.2 hok) k⟩

theorem AllDiverted.diverts {ps : List Primitive} (h : AllDiverted crc ps s)
    (hredo : s.redoFile.isSome) : Diverts crc s (runPrimitives crc ps s) := by
  induction ps generalizing s with
  | nil =>
      exact Diverts.refl crc s
  | cons p ps ih =>
      obtain ⟨hp, hps⟩ := h
      have hfirst : Diverts crc s (p.run crc s).2 := hp.run hredo
      rw [runPrimitives]
      generalize p.run crc s = r at hfirst hps ⊢
      obtain ⟨ok, s'⟩ := r
      cases ok with
      | false =>
          exact hfirst
      | true =>
          have hredo' : s'.redoFile.isSome := by
            rw [hfirst.redoFile]
            exact hredo
          exact hfirst.trans (ih (hps rfl) hredo')

/-- **Redo mode leaves the devices alone** behind every primitive of a sequence, whatever
fails, as long as what is zeroed reads zero already; and the redo log holds the writes that
were asked for, in their order. -/
theorem redo_mode_spares_devices
    (hredo : s.redoFile.isSome) {ps : List Primitive} (h : AllDiverted crc ps s) (k : Nat) :
    (∀ fd, (runPrimitives crc (ps.take k) s).redo.world.file (.dev fd) =
        s.redo.world.file (.dev fd)) ∧
      ∀ es, s.Logs crc es → (runPrimitives crc (ps.take k) s).Logs crc es := by
  have hdiverts := (h.take k).diverts hredo
  exact ⟨hdiverts.file, hdiverts.logs⟩

/-- A device full of sevens, and the redo log just opened. -/
def sevensWorld : World :=
  { blankWorld with
    init := fun fd => if fd = .dev 1 then ByteFile.empty.pwrite 0 (List.replicate 512 7)
      else ByteFile.empty }

/-- A process that has this device open. -/
def sevens : Libxfs where
  redoFile := some "redo"
  devMap := [(1, 1)]
  bcache := []
  bufMem := fun _ => 0
  redo := (firstOpen crc32c (setupState crc32c 1 blankData sevensWorld [])).2
  issued := []

/-- A block of nines for the start of the device. -/
def ninesBuf : XfsBuf where
  dev := 1
  bn := 0
  bcount := 512
  addr := ⟨0, fun _ => 9⟩
  maps := []
  exit := false
  dirty := true
  stale := false
  uptodate := false
  discontig := false
  unchecked := false
  error := 0
  verifyWrite := none

/-- A buffer is written back from the cache, and nothing is zeroed. -/
theorem redo_mode_spares_devices_of_buffer :
    (runPrimitives crc32c [.setBcache [ninesBuf], .bcacheFlush, .deviceZero 1 0 0]
        sevens).redo.world.file (.dev 1) = sevens.redo.world.file (.dev 1) :=
  (@redo_mode_spares_devices crc32c sevens rfl
    [.setBcache [ninesBuf], .bcacheFlush, .deviceZero 1 0 0]
    ⟨trivial, fun _ => ⟨trivial, fun _ => ⟨Or.inl rfl, fun _ => trivial⟩⟩⟩ 3).1 1

end Sequences

section Direct

/-- Without failures the zeros get to the device. -/
theorem zeroLoop_file {fd zsize : Nat} (hz : 0 < zsize) (hmax : zsize ≤ maxRwCount)
    (n location left : Nat) (hn : left ≤ n) {w : World} (hout : w.outcomes = []) :
    (zeroLoop fd zsize n location left w).2.file (.dev fd) =
      (w.file (.dev fd)).pwrite location (List.replicate left 0) := by
  induction n generalizing location left w with
  | zero =>
      rw [Nat.le_zero.mp hn]
      simp [zeroLoop]
  | succ n ih =>
      rw [zeroLoop_succ]
      split_ifs with hleft
      · rw [hleft]
        simp
      · have hcut : (List.replicate (min left zsize) (0 : UInt8)).take maxRwCount =
            List.replicate (min left zsize) 0 := by
          rw [List.take_of_length_le]
          rw [List.length_replicate]
          omega
        rw [World.pwrite_of_outcomes_nil hout, hcut, List.length_replicate]
        dsimp only
        rw [if_neg (by omega), Int.toNat_natCast]
        have hrest := ih (location + min left zsize) (left - min left zsize) (by omega)
          (w := w.push (.pwrite (.dev fd) location (List.replicate (min left zsize) 0))) hout
        have hsplit : List.replicate left (0 : UInt8) =
            List.replicate (min left zsize) 0 ++ List.replicate (left - min left zsize) 0 := by
          rw [← List.replicate_add, Nat.add_sub_cancel' (Nat.min_le_left _ _)]
        rw [hrest, World.file_push, applyEvent_pwrite_self, hsplit, ByteFile.pwrite_append,
          List.length_replicate]

theorem deviceZero_file {s : Libxfs} {dev fd start len : Nat} (hfd : s.deviceToFd dev = some fd)
    (hlen : zeroSize len ≠ 0) (hout : s.redo.world.outcomes = []) :
    (deviceZero dev start len s).2.redo.world.file (.dev fd) =
      (s.redo.world.file (.dev fd)).pwrite (bbToB start) (List.replicate (bbToB len) 0) := by
  have hmax : zeroSize len ≤ maxRwCount :=
    le_trans (Nat.min_le_left _ _) (by decide)
  unfold deviceZero
  rw [hfd]
  dsimp only
  rw [UnixIo.llseek_of_outcomes_nil hout]
  exact zeroLoop_file (Nat.pos_of_ne_zero hlen) hmax _ _ _ (le_refl _) hout

theorem runPrimitives_singleton (crc : Bytes → UInt32) (p : Primitive) (s : Libxfs) :
    runPrimitives crc [p] s = (p.run crc s).2 := by
  rw [runPrimitives]
  rcases p.run crc s with ⟨_ | _, s'⟩ <;> rfl

theorem sevens_freshlyOpened : FreshlyOpened crc32c sevensWorld sevens.redo := by
  refine freshlyOpened_firstOpen crc32c rfl ?_ (le_refl 1) blankData []
  have hstate : sevensWorld.header.state ≠ e2redoStateFinished := by
    decide +kernel
  exact fun hf => hstate hf.2

/-- **Zeroing reaches the device**, although `redo_file` is set. -/
theorem zeroing_reaches_device :
    ((runPrimitives crc32c [.deviceZero 1 0 1] sevens).redo.world.file (.dev 1)).byte 0 = 0 ∧
      (sevens.redo.world.file (.dev 1)).byte 0 = 7 := by
  obtain ⟨hsession, -, -, hworld⟩ := sevens_freshlyOpened.session
  have hfile : sevens.redo.world.file (.dev 1) =
      ByteFile.empty.pwrite 0 (List.replicate 512 7) := by
    rw [hworld, file_dev_push_redo]
    rfl
  constructor
  · rw [runPrimitives_singleton, Primitive.run,
      @deviceZero_file sevens 1 1 0 1 rfl (by decide) hsession.outcomes_nil]
    rfl
  · rw [hfile]
    rfl

end Direct

end Xfs
end Rfsck
