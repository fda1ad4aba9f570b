import Rfsck.PowerFault.Recorder

/-!
# Requests of the backing store

`bs_rdwr_request` of `bs_rdwr.c` carries out one SCSI command on the backing file.  The commands
that reach its label `write` are recorded; `WRITE SAME` and `UNMAP` change the backing file
without a record.

* `bsRdwrRequest`: one command, with its status and sense data.
* `Traceless`: a `WRITE SAME` or an `UNMAP` that leaves the content as it is.
* `Recorded`: the state of the logs behind a number of recorded writes.
* `recorded_io_reproduces_disk`: a replay of all recorded writes on the first image gives the
  backing file, if every unrecorded command was traceless.
-/

namespace Rfsck
namespace PowerFault

open Storage
open Redo (Outcome maxRwCount)

/-- The opcodes that `bs_rdwr_request` tells apart. -/
inductive Opcode where
  | orwrite16
  | compareAndWrite
  | synchronizeCache
  | synchronizeCache16
  | writeVerify
  | writeVerify12
  | writeVerify16
  | write6
  | write10
  | write12
  | write16
  | writeSame
  | writeSame16
  | read6
  | read10
  | read12
  | read16
  | preFetch10
  | preFetch16
  | verify10
  | verify12
  | verify16
  | unmap
  | other
deriving DecidableEq, Repr

/-- The numbers of `scsi.h`. -/
def opcodes : List (UInt8 × Opcode) :=
  [(0x8b, .orwrite16), (0x89, .compareAndWrite), (0x35, .synchronizeCache),
    (0x91, .synchronizeCache16), (0x2e, .writeVerify), (0xae, .writeVerify12),
    (0x8e, .writeVerify16), (0x0a, .write6), (0x2a, .write10), (0xaa, .write12),
    (0x8a, .write16), (0x41, .writeSame), (0x93, .writeSame16), (0x08, .read6), (0x28, .read10),
    (0xa8, .read12), (0x88, .read16), (0x34, .preFetch10), (0x90, .preFetch16),
    (0x2f, .verify10), (0xaf, .verify12), (0x8f, .verify16), (0x42, .unmap)]

/-- The status of a command. -/
inductive Status where
  | good
  | checkCondition
deriving DecidableEq, Repr

/-- The sense keys in use. -/
inductive SenseKey where
  | noSense
  | mediumError
  | hardwareError
  | illegalRequest
  | miscompare
deriving DecidableEq, Repr

/-- The additional sense codes in use. -/
inductive Asc where
  | none
  | readError
  | internalTgtFailure
  | invalidFieldInCdb
  | lbaOutOfRange
  | miscompareDuringVerifyOperation
deriving DecidableEq, Repr

/-- What the initiator gets: the status, the sense data, and the data read. -/
structure Reply where
  status : Status
  key : SenseKey
  asc : Asc
  inBuffer : Bytes
deriving DecidableEq, Repr

/-- What is read of `struct scsi_lu`; `caching` is `mode_data[0]` of the mode page `0x08`. -/
structure ScsiLu where
  blkShift : Nat
  size : Nat
  thinprovisioning : Bool
  caching : Option UInt8

/-- `blocksize`. -/
def ScsiLu.blocksize (lu : ScsiLu) : Nat :=
  2 ^ lu.blkShift

/-- `struct scsi_cmd`: `sbc_rw` makes `tl` a whole number of blocks. -/
structure ScsiCmd (lu : ScsiLu) where
  info : CmdInfo
  scb1 : UInt8
  offset : UInt64
  tl : UInt32
  outLength : UInt32
  outBuffer : Nat → UInt8
  inLength : UInt32
  tl_whole : lu.blocksize ∣ tl.toNat

namespace ScsiCmd

variable {lu : ScsiLu} (cmd : ScsiCmd lu)

def opcode : Opcode :=
  (opcodes.lookup cmd.info.scb0).getD .other

/-- The bits of the second byte of the command that `mask` selects. -/
def flag (mask : UInt8) : Bool :=
  cmd.scb1 &&& mask ≠ 0

/-- `n` bytes of the data of the command. -/
def out (pos n : Nat) : Bytes :=
  (List.range n).map fun i => cmd.outBuffer (pos + i)

end ScsiCmd

/-- `ret == length`, as the comparison of an `int` with a `uint32_t` goes. -/
def retIs (ret : Int) (length : UInt32) : Bool :=
  UInt32.ofInt ret = length

/-- A command in progress. -/
structure Task where
  reply : Reply
  recorder : Recorder

namespace Task

variable (t : Task)

/-- No error yet. -/
def start (r : Recorder) : Task where
  reply :=
    { status := .good
      key := .noSense
      asc := .none
      inBuffer := [] }
  recorder := r

def call {α : Type} (f : System → α × System) : α × Task :=
  ((f t.recorder.sys).1, { t with recorder := (t.recorder.call f).2 })

/-- `result`, `key` and `asc` are set. -/
def fail (key : SenseKey) (asc : Asc) : Task :=
  { t with reply := { t.reply with status := .checkCondition, key := key, asc := asc } }

/-- `set_medium_error`. -/
def setMediumError : Task :=
  t.fail .mediumError .readError

/-- `bs_sync_sync_range`. -/
def bsSyncSyncRange : Task :=
  let sync := t.call System.fsync
  if sync.1 ≠ 0 then sync.2.setMediumError else sync.2

/-- `pread64` from the backing file into `tmpbuf`: whether all was read, and the buffer. -/
def readDisk (offset : UInt64) (length : UInt32) : (Bool × Bytes) × Task :=
  let read := t.call (·.pread .disk offset.toNat length.toNat)
  let ret : Int := read.1.elim (-1) fun bs => bs.length
  ((retIs ret length, t.recorder.sys.readInto length.toNat read.1), read.2)

/-- A buffer is allocated and filled from the backing file, and used. -/
def withDisk (offset : UInt64) (length : UInt32) (k : Bytes → Task → Task) : Task :=
  let memory := t.call System.malloc
  if !memory.1 then
    memory.2.fail .hardwareError .internalTgtFailure
  else
    let read := memory.2.readDisk offset length
    if !read.1.1 then
      read.2.setMediumError
    else
      k read.1.2 read.2

end Task

section Commands

variable {lu : ScsiLu} (cmd : ScsiCmd lu)

/-- The label `verify`. -/
def verify (t : Task) : Task :=
  t.withDisk cmd.offset cmd.outLength fun tmpbuf t =>
    if cmd.out 0 cmd.outLength.toNat ≠ tmpbuf then
      t.fail .miscompare .miscompareDuringVerifyOperation
    else
      t

/-- What follows the `pwrite64` behind the label `write`. -/
def finishWrite (doVerify : Bool) (length : UInt32) (ret : Int) (t : Task) : Task :=
  if retIs ret length then
    match lu.caching with
    | none => t.fail .illegalRequest .invalidFieldInCdb
    | some mode =>
        let t :=
          if (cmd.opcode ≠ .write6 && cmd.flag 0x8) || mode &&& 0x4 = 0 then
            t.bsSyncSyncRange
          else
            t
        if doVerify then verify cmd t else t
  else if doVerify then
    verify cmd t.setMediumError
  else
    t.setMediumError

/-- The record of the write, if `pfe_enable_record` is set. -/
def record (ts : UInt64) (writeBuf : Bytes) (t : Task) : Task :=
  if t.recorder.pfeEnableRecord then
    { t with recorder := (t.recorder.pfeLogIoReq cmd.info ts cmd.offset writeBuf).2 }
  else
    t

/-- The label `write`, with `write_buf` and `length` as the command has set them. -/
def write (ts : UInt64) (doVerify : Bool) (writeBuf : Bytes) (t : Task) : Task :=
  let written := (record cmd ts writeBuf t).call (·.pwrite .disk cmd.offset.toNat writeBuf)
  finishWrite cmd doVerify (UInt32.ofNat writeBuf.length) written.1 written.2

/-- `ORWRITE_16`. -/
def orwrite (ts : UInt64) (t : Task) : Task :=
  t.withDisk cmd.offset cmd.outLength fun tmpbuf t =>
    write cmd ts false ((cmd.out 0 cmd.outLength.toNat).zipWith (· ||| ·) tmpbuf) t

/-- `COMPARE_AND_WRITE`: the first half of the data is compared, the second half written. -/
def compareAndWrite (ts : UInt64) (t : Task) : Task :=
  let length := cmd.outLength / 2
  if length ≠ cmd.tl then
    t.fail .illegalRequest .invalidFieldInCdb
  else
    t.withDisk cmd.offset length fun tmpbuf t =>
      if cmd.out 0 length.toNat ≠ tmpbuf then
        t.fail .miscompare .miscompareDuringVerifyOperation
      else
        write cmd ts false (cmd.out length.toNat length.toNat) t

/-- `SYNCHRONIZE_CACHE` and `SYNCHRONIZE_CACHE_16`. -/
def synchronizeCache (t : Task) : Task :=
  if cmd.flag 0x2 then
    t.fail .illegalRequest .invalidFieldInCdb
  else
    t.bsSyncSyncRange

/-- `put_unaligned_be32` and `put_unaligned_be64` at the beginning of a buffer. -/
def putBe (width : Nat) (x : UInt64) (mem : Nat → UInt8) : Nat → UInt8 :=
  fun i => if i < width then UInt8.ofNat (x.toNat / 256 ^ (width - 1 - i)) else mem i

/-- The bits `LBDATA` and `PBDATA` put the address into the block. -/
def stampBlock (scb1 : UInt8) (offset : UInt64) (mem : Nat → UInt8) : Nat → UInt8 :=
  if scb1 &&& 0x6 = 0x2 then
    putBe 4 offset mem
  else if scb1 &&& 0x6 = 0x4 then
    putBe 8 offset mem
  else
    mem

/-- The loop of `WRITE_SAME` over the blocks that are left. -/
def writeSameLoop : Nat → UInt64 → (Nat → UInt8) → Task → Task
  | 0, _, _, t => t
  | n + 1, offset, mem, t =>
      let mem := stampBlock cmd.scb1 offset mem
      let written := t.call (·.pwrite .disk offset.toNat ((List.range lu.blocksize).map mem))
      let t := if written.1 ≠ lu.blocksize then written.2.setMediumError else written.2
      writeSameLoop n (offset + UInt64.ofNat lu.blocksize) mem t

/-- `WRITE_SAME` and `WRITE_SAME_16`. -/
def writeSame (t : Task) : Task :=
  if cmd.flag 0x8 then
    let punched := t.call (·.punchHole .disk cmd.offset.toNat cmd.tl.toNat)
    if punched.1 ≠ 0 then
      punched.2.fail .hardwareError .internalTgtFailure
    else
      punched.2
  else
    writeSameLoop cmd (cmd.tl.toNat / lu.blocksize) cmd.offset cmd.outBuffer t

/-- `READ_6` to `READ_16`. -/
def read (t : Task) : Task :=
  let got := t.call (·.pread .disk cmd.offset.toNat cmd.inLength.toNat)
  let t := { got.2 with reply := { got.2.reply with inBuffer := got.1.getD [] } }
  if !retIs (got.1.elim (-1) fun bs => bs.length) cmd.inLength then t.setMediumError else t

/-- `PRE_FETCH_10` and `PRE_FETCH_16`. -/
def preFetch (t : Task) : Task :=
  let advised := t.call System.fadvise
  if advised.1 ≠ 0 then advised.2.setMediumError else advised.2

/-- `get_unaligned_be32` and `get_unaligned_be64`. -/
def getBe (width pos : Nat) (mem : Nat → UInt8) : Nat :=
  (List.range width).foldl (fun n i => n * 256 + (mem (pos + i)).toNat) 0

/-- A range of the backing file. -/
structure Region where
  offset : Nat
  tl : Nat
deriving DecidableEq, Repr

/-- A descriptor of `UNMAP`, in bytes; the shifts are those of `uint64_t` and `uint32_t`. -/
def descriptor (lu : ScsiLu) (pos : Nat) (mem : Nat → UInt8) : Region where
  offset := getBe 8 pos mem * lu.blocksize % 2 ^ 64
  tl := getBe 4 (pos + 8) mem * lu.blocksize % 2 ^ 32

/-- The loop of `UNMAP` over the descriptors that are left. -/
def unmapLoop : Nat → Nat → Task → Task
  | 0, _, t => t
  | n + 1, pos, t =>
      let region := descriptor lu pos cmd.outBuffer
      if lu.size < (region.offset + region.tl) % 2 ^ 64 then
        t.fail .illegalRequest .lbaOutOfRange
      else if 0 < region.tl then
        let punched := t.call (·.punchHole .disk region.offset region.tl)
        if punched.1 ≠ 0 then
          punched.2.fail .hardwareError .internalTgtFailure
        else
          unmapLoop n (pos + 16) punched.2
      else
        unmapLoop n (pos + 16) t

/-- `UNMAP`. -/
def unmap (t : Task) : Task :=
  if !lu.thinprovisioning then
    t.fail .illegalRequest .invalidFieldInCdb
  else if cmd.outLength < 8 then
    t
  else
    unmapLoop cmd ((cmd.outLength.toNat - 8) / 16) 8 t

/-- `bs_rdwr_request`; `ts` is the time that the recorder reads. -/
def bsRdwrRequest (ts : UInt64) (r : Recorder) : Task :=
  let t := Task.start r
  match cmd.opcode with
  | .orwrite16 => orwrite cmd ts t
  | .compareAndWrite => compareAndWrite cmd ts t
  | .synchronizeCache | .synchronizeCache16 => synchronizeCache cmd t
  | .writeVerify | .writeVerify12 | .writeVerify16 =>
      write cmd ts true (cmd.out 0 cmd.outLength.toNat) t
  | .write6 | .write10 | .write12 | .write16 =>
      write cmd ts false (cmd.out 0 cmd.outLength.toNat) t
  | .writeSame | .writeSame16 => writeSame cmd t
  | .read6 | .read10 | .read12 | .read16 => read cmd t
  | .preFetch10 | .preFetch16 => preFetch t
  | .verify10 | .verify12 | .verify16 => verify cmd t
  | .unmap => unmap cmd t
  | .other => t

end Commands

section Keeps

/-- Neither the files nor the recorder are changed, and failed calls are not forgotten. -/
structure Recorder.Keeps (r r' : Recorder) : Prop where
  sys : r.sys.Keeps r'.sys
  pfeIoId : r'.pfeIoId = r.pfeIoId
  pfeIoDatalogOffset : r'.pfeIoDatalogOffset = r.pfeIoDatalogOffset
  pfeEnableRecord : r'.pfeEnableRecord = r.pfeEnableRecord

theorem Recorder.Keeps.refl (r : Recorder) : r.Keeps r :=
  ⟨.refl _, rfl, rfl, rfl⟩

theorem Recorder.Keeps.trans {r r' r'' : Recorder} (h : r.Keeps r') (h' : r'.Keeps r'') :
    r.Keeps r'' :=
  ⟨h.sys.trans h'.sys, h'.pfeIoId.trans h.pfeIoId,
    h'.pfeIoDatalogOffset.trans h.pfeIoDatalogOffset, h'.pfeEnableRecord.trans h.pfeEnableRecord⟩

namespace Task

variable {t t' : Task}

/-- The same for a command in progress. -/
def Keeps (t t' : Task) : Prop :=
  t.recorder.Keeps t'.recorder

theorem Keeps.refl (t : Task) : t.Keeps t :=
  Recorder.Keeps.refl _

theorem Keeps.trans {t'' : Task} (h : t.Keeps t') (h' : t'.Keeps t'') : t.Keeps t'' :=
  Recorder.Keeps.trans h h'

theorem Keeps.fail (h : t.Keeps t') (key : SenseKey) (asc : Asc) : t.Keeps (t'.fail key asc) :=
  h

theorem keeps_call {α : Type} {f : System → α × System}
    (h : t.recorder.sys.Keeps (f t.recorder.sys).2) : t.Keeps (t.call f).2 :=
  ⟨h, rfl, rfl, rfl⟩

theorem keeps_bsSyncSyncRange (t : Task) : t.Keeps t.bsSyncSyncRange := by
  have hsync : t.Keeps (t.call System.fsync).2 := keeps_call (System.keeps_fsync _)
  unfold bsSyncSyncRange
  dsimp only
  split_ifs
  · exact hsync.fail _ _
  · exact hsync

theorem withDisk_cases {P : Task → Prop} (offset : UInt64) (length : UInt32)
    {k : Bytes → Task → Task} (hkeeps : ∀ t', t.Keeps t' → P t')
    (hk : ∀ tmpbuf t', t.Keeps t' → P (k tmpbuf t')) : P (t.withDisk offset length k) := by
  have hmalloc : t.Keeps (t.call System.malloc).2 := keeps_call (System.keeps_malloc _)
  unfold withDisk
  dsimp only
  split_ifs
  · exact hkeeps _ (hmalloc.fail _ _)
  · exact hkeeps _ ((hmalloc.trans (keeps_call (System.keeps_pread _ _ _ _))).fail _ _)
  · exact hk _ _ (hmalloc.trans (keeps_call (System.keeps_pread _ _ _ _)))

end Task

end Keeps

section Effects

variable {lu : ScsiLu} (cmd : ScsiCmd lu)

theorem keeps_verify (t : Task) : t.Keeps (verify cmd t) := by
  refine Task.withDisk_cases _ _ (fun _ h => h) fun tmpbuf t' h => ?_
  split_ifs
  · exact h.fail _ _
  · exact h

theorem keeps_synchronizeCache (t : Task) : t.Keeps (synchronizeCache cmd t) := by
  unfold synchronizeCache
  split_ifs
  · exact (Task.Keeps.refl t).fail _ _
  · exact t.keeps_bsSyncSyncRange

theorem keeps_read (t : Task) : t.Keeps (read cmd t) := by
  have hread : t.Keeps (t.call (·.pread .disk cmd.offset.toNat cmd.inLength.toNat)).2 :=
    Task.keeps_call (System.keeps_pread _ _ _ _)
  unfold read
  dsimp only
  split_ifs
  · exact hread
  · exact hread

theorem keeps_preFetch (t : Task) : t.Keeps (preFetch t) := by
  have hadvise : t.Keeps (t.call System.fadvise).2 := Task.keeps_call (System.keeps_fadvise _)
  unfold preFetch
  dsimp only
  split_ifs
  · exact hadvise.fail _ _
  · exact hadvise

theorem keeps_finishWrite (doVerify : Bool) (length : UInt32) (ret : Int) (t : Task) :
    t.Keeps (finishWrite cmd doVerify length ret t) := by
  have hverify : ∀ t' : Task, t.Keeps t' → t.Keeps (if doVerify then verify cmd t' else t') := by
    intro t' h
    split_ifs
    · exact h.trans (keeps_verify cmd t')
    · exact h
  unfold finishWrite
  by_cases hret : retIs ret length = true
  · rw [if_pos hret]
    cases lu.caching with
    | none => exact (Task.Keeps.refl t).fail _ _
    | some mode =>
        refine hverify _ ?_
        split_ifs
        · exact t.keeps_bsSyncSyncRange
        · exact .refl t
  · rw [if_neg hret]
    exact hverify t.setMediumError (.refl t)

/-- The write is recorded and carried out. -/
structure Recorder.Records (r : Recorder) (io : Io) (r' : Recorder) : Prop where
  logs : ∃ r₁, r.Logs io r₁ ∧
    (r₁.setFile .disk ((r₁.sys.file .disk).pwrite io.header.offset.toNat io.data)).Keeps r'
  header : ∃ cmd ts offset, io.header = (r.reserve cmd ts offset io.data.length).1
  offset_lt : io.header.offset.toNat + io.data.length < 2 ^ 63

/-- **The label `write`** records the write and carries it out. -/
theorem records_write {ts : UInt64} {doVerify : Bool} {writeBuf : Bytes} {t : Task}
    (hrecord : t.recorder.pfeEnableRecord = true)
    (hintact : (write cmd ts doVerify writeBuf t).recorder.sys.intact = true) :
    ∃ io, t.recorder.Records io (write cmd ts doVerify writeBuf t).recorder := by
  unfold write record at hintact ⊢
  rw [if_pos hrecord] at hintact ⊢
  dsimp only at hintact ⊢
  have hlogs := @Recorder.logs_of_intact t.recorder cmd.info ts cmd.offset writeBuf
  generalize t.recorder.pfeLogIoReq cmd.info ts cmd.offset writeBuf = logged at hintact hlogs ⊢
  have hrest := keeps_finishWrite cmd doVerify (UInt32.ofNat writeBuf.length)
    (Task.call { t with recorder := logged.2 } (·.pwrite .disk cmd.offset.toNat writeBuf)).1
    (Task.call { t with recorder := logged.2 } (·.pwrite .disk cmd.offset.toNat writeBuf)).2
  obtain ⟨hlogged, -, hlt, heq⟩ := Recorder.call_pwrite_of_intact (hrest.sys.intact hintact)
  refine ⟨⟨(t.recorder.reserve cmd.info ts cmd.offset writeBuf.length).1, writeBuf⟩,
    ⟨logged.2, ?_, ?_⟩, ⟨cmd.info, ts, cmd.offset, rfl⟩, hlt⟩
  · exact hlogs hlogged
  · change (logged.2.setFile .disk
      ((logged.2.sys.file .disk).pwrite cmd.offset.toNat writeBuf)).Keeps _
    have hkeeps : (logged.2.call (·.pwrite .disk cmd.offset.toNat writeBuf)).2.Keeps _ := hrest
    rw [heq] at hkeeps
    exact hkeeps

theorem Recorder.Records.of_keeps {r r₁ r' : Recorder} {io : Io} (h : r₁.Records io r')
    (hkeeps : r.Keeps r₁) : r.Records io r' := by
  obtain ⟨r₂, hlogs, hrest⟩ := h.logs
  obtain ⟨info, ts, offset, hheader⟩ := h.header
  have hfile := hkeeps.sys.file
  refine ⟨⟨r₂, ?_, hrest⟩, ⟨info, ts, offset, ?_⟩, h.offset_lt⟩
  · exact {
      intact := hkeeps.sys.intact hlogs.intact
      length_le := hlogs.length_le
      pos_lt := hlogs.pos_lt
      datalog_lt := hlogs.datalog_lt
      disk := by rw [hlogs.disk, hfile]
      header := by rw [hlogs.header, hfile]
      data := by rw [hlogs.data, hfile]
      nextId := by rw [hlogs.nextId, hkeeps.pfeIoId]
      nextOffset := by rw [hlogs.nextOffset, hkeeps.pfeIoDatalogOffset]
      enabled := by rw [hlogs.enabled, hkeeps.pfeEnableRecord] }
  · rw [hheader, Recorder.reserve, Recorder.reserve, hkeeps.pfeIoId, hkeeps.pfeIoDatalogOffset]

/-- The blocks that `WRITE_SAME` writes. -/
def sameBlocks (lu : ScsiLu) (scb1 : UInt8) : Nat → UInt64 → (Nat → UInt8) → List Patch
  | 0, _, _ => []
  | n + 1, offset, mem =>
      let mem := stampBlock scb1 offset mem
      ⟨offset.toNat, (List.range lu.blocksize).map mem⟩ ::
        sameBlocks lu scb1 n (offset + UInt64.ofNat lu.blocksize) mem

/-- The ranges that `UNMAP` punches out: it stops at the first one beyond the end. -/
def unmapRegions (lu : ScsiLu) (mem : Nat → UInt8) : Nat → Nat → List Region
  | 0, _ => []
  | n + 1, pos =>
      let region := descriptor lu pos mem
      if lu.size < (region.offset + region.tl) % 2 ^ 64 then
        []
      else
        region :: unmapRegions lu mem n (pos + 16)

/-- An unrecorded command does not change the content: the blocks of a `WRITE SAME` are there
already, and what it or an `UNMAP` punches out reads zero. -/
def ScsiCmd.Traceless (disk : ByteFile) : Prop :=
  match cmd.opcode with
  | .writeSame | .writeSame16 =>
      if cmd.flag 0x8 then
        disk.Zeros cmd.offset.toNat cmd.tl.toNat
      else
        ∀ p ∈ sameBlocks lu cmd.scb1 (cmd.tl.toNat / lu.blocksize) cmd.offset cmd.outBuffer,
          disk.Holds p.offset p.data
  | .unmap =>
      lu.thinprovisioning = true → ¬ cmd.outLength < 8 →
        ∀ region ∈ unmapRegions lu cmd.outBuffer ((cmd.outLength.toNat - 8) / 16) 8,
          disk.Zeros region.offset region.tl
  | _ => True

theorem Task.keeps_pwrite {t : Task} {off : Nat} {buf : Bytes}
    (hintact : (t.call (·.pwrite .disk off buf)).2.recorder.sys.intact = true)
    (hholds : (t.recorder.sys.file .disk).Holds off buf) :
    t.Keeps (t.call (·.pwrite .disk off buf)).2 := by
  obtain ⟨hs, -, -, heq⟩ := System.pwrite_of_intact hintact
  refine Task.keeps_call ⟨?_, fun _ => hs⟩
  rw [heq, hholds.pwrite_eq]
  exact Function.update_eq_self _ _

theorem Task.keeps_punchHole {t : Task} {off n : Nat}
    (hintact : (t.call (·.punchHole .disk off n)).2.recorder.sys.intact = true)
    (hzeros : (t.recorder.sys.file .disk).Zeros off n) :
    t.Keeps (t.call (·.punchHole .disk off n)).2 := by
  obtain ⟨hs, heq⟩ := System.punchHole_of_intact hintact
  refine Task.keeps_call ⟨?_, fun _ => hs⟩
  rw [heq, hzeros.punchHole_eq]
  exact Function.update_eq_self _ _

/-- The loop of `WRITE_SAME` does not forget a failed call. -/
theorem intact_of_writeSameLoop {n : Nat} {offset : UInt64} {mem : Nat → UInt8} {t : Task}
    (h : (writeSameLoop cmd n offset mem t).recorder.sys.intact = true) :
    t.recorder.sys.intact = true := by
  induction n generalizing offset mem t with
  | zero => exact h
  | succ n ih =>
      unfold writeSameLoop at h
      dsimp only at h
      have hstep := ih h
      split_ifs at hstep
      · exact (System.pwrite_of_intact hstep).1
      · exact (System.pwrite_of_intact hstep).1

theorem keeps_writeSameLoop {n : Nat} {offset : UInt64} {mem : Nat → UInt8} {t : Task}
    (hintact : (writeSameLoop cmd n offset mem t).recorder.sys.intact = true)
    (hholds : ∀ p ∈ sameBlocks lu cmd.scb1 n offset mem,
      (t.recorder.sys.file .disk).Holds p.offset p.data) :
    t.Keeps (writeSameLoop cmd n offset mem t) := by
  induction n generalizing offset mem t with
  | zero => exact .refl t
  | succ n ih =>
      unfold writeSameLoop at hintact ⊢
      unfold sameBlocks at hholds
      dsimp only at hintact hholds ⊢
      generalize stampBlock cmd.scb1 offset mem = mem' at hintact hholds ⊢
      have hfirst := hholds _ List.mem_cons_self
      have hwritten := intact_of_writeSameLoop cmd hintact
      have hkeeps : t.Keeps (if (t.call (·.pwrite .disk offset.toNat
          ((List.range lu.blocksize).map mem'))).1 ≠ lu.blocksize then
            (t.call (·.pwrite .disk offset.toNat
              ((List.range lu.blocksize).map mem'))).2.setMediumError
          else (t.call (·.pwrite .disk offset.toNat ((List.range lu.blocksize).map mem'))).2) := by
        split_ifs at hwritten ⊢
        · exact (Task.keeps_pwrite hwritten hfirst).fail _ _
        · exact Task.keeps_pwrite hwritten hfirst
      refine hkeeps.trans (ih hintact fun p hp => ?_)
      rw [hkeeps.sys.file]
      exact hholds p (List.mem_cons_of_mem _ hp)

theorem intact_of_unmapLoop {n pos : Nat} {t : Task}
    (h : (unmapLoop cmd n pos t).recorder.sys.intact = true) : t.recorder.sys.intact = true := by
  induction n generalizing pos t with
  | zero => exact h
  | succ n ih =>
      unfold unmapLoop at h
      dsimp only at h
      split_ifs at h
      · exact h
      · exact (System.punchHole_of_intact h).1
      · exact (System.punchHole_of_intact (ih h)).1
      · exact ih h

theorem keeps_unmapLoop {n pos : Nat} {t : Task}
    (hintact : (unmapLoop cmd n pos t).recorder.sys.intact = true)
    (hzeros : ∀ region ∈ unmapRegions lu cmd.outBuffer n pos,
      (t.recorder.sys.file .disk).Zeros region.offset region.tl) :
    t.Keeps (unmapLoop cmd n pos t) := by
  induction n generalizing pos t with
  | zero => exact .refl t
  | succ n ih =>
      unfold unmapLoop at hintact ⊢
      unfold unmapRegions at hzeros
      dsimp only at hintact hzeros ⊢
      generalize descriptor lu pos cmd.outBuffer = region at hintact hzeros ⊢
      by_cases hend : lu.size < (region.offset + region.tl) % 2 ^ 64
      · rw [if_pos hend]
        exact (Task.Keeps.refl t).fail _ _
      rw [if_neg hend] at hintact hzeros ⊢
      have hrest : ∀ t' : Task, t.Keeps t' → ∀ region' ∈ unmapRegions lu cmd.outBuffer n (pos + 16),
          (t'.recorder.sys.file .disk).Zeros region'.offset region'.tl := by
        intro t' hkeeps region' hmem
        rw [hkeeps.sys.file]
        exact hzeros region' (List.mem_cons_of_mem _ hmem)
      split_ifs at hintact ⊢ with htl hret
      · exact (Task.keeps_punchHole hintact (hzeros region List.mem_cons_self)).fail _ _
      · have hkeeps := Task.keeps_punchHole (intact_of_unmapLoop cmd hintact)
          (hzeros region List.mem_cons_self)
        exact hkeeps.trans (ih hintact (hrest _ hkeeps))
      · exact ih hintact (hrest t (.refl t))

theorem keeps_writeSame {t : Task} (hintact : (writeSame cmd t).recorder.sys.intact = true)
    (htraceless : if cmd.flag 0x8 then
        (t.recorder.sys.file .disk).Zeros cmd.offset.toNat cmd.tl.toNat
      else
        ∀ p ∈ sameBlocks lu cmd.scb1 (cmd.tl.toNat / lu.blocksize) cmd.offset cmd.outBuffer,
          (t.recorder.sys.file .disk).Holds p.offset p.data) :
    t.Keeps (writeSame cmd t) := by
  unfold writeSame at hintact ⊢
  dsimp only at hintact ⊢
  split_ifs at hintact htraceless ⊢
  · exact (Task.keeps_punchHole hintact htraceless).fail _ _
  · exact Task.keeps_punchHole hintact htraceless
  · exact keeps_writeSameLoop cmd hintact htraceless

theorem keeps_unmap {t : Task} (hintact : (unmap cmd t).recorder.sys.intact = true)
    (htraceless : lu.thinprovisioning = true → ¬ cmd.outLength < 8 →
      ∀ region ∈ unmapRegions lu cmd.outBuffer ((cmd.outLength.toNat - 8) / 16) 8,
        (t.recorder.sys.file .disk).Zeros region.offset region.tl) :
    t.Keeps (unmap cmd t) := by
  unfold unmap at hintact ⊢
  split_ifs at hintact ⊢ with hthin hlen
  · exact (Task.Keeps.refl t).fail _ _
  · exact .refl t
  · exact keeps_unmapLoop cmd hintact (htraceless (by simpa using hthin) hlen)

/-- What a command does to the files: nothing, or one write that it records. -/
def Recorder.Effect (r r' : Recorder) : Prop :=
  r.Keeps r' ∨ ∃ io, r.Records io r'

/-- The same for a command in progress, unless a system call fails. -/
def Task.Effect (t t' : Task) : Prop :=
  t'.recorder.sys.intact = true → t.recorder.Effect t'.recorder

theorem Task.Keeps.effect {t t' : Task} (h : t.Keeps t') : t.Effect t' :=
  fun _ => .inl h

theorem Task.Keeps.effect_write {ts : UInt64} {doVerify : Bool} {writeBuf : Bytes} {t t' : Task}
    (hkeeps : t.Keeps t') (hrecord : t.recorder.pfeEnableRecord = true) :
    t.Effect (write cmd ts doVerify writeBuf t') := by
  intro hintact
  obtain ⟨io, hio⟩ := records_write cmd (hkeeps.pfeEnableRecord.trans hrecord) hintact
  exact .inr ⟨io, hio.of_keeps hkeeps⟩

theorem effect_orwrite {ts : UInt64} {t : Task} (hrecord : t.recorder.pfeEnableRecord = true) :
    t.Effect (orwrite cmd ts t) :=
  Task.withDisk_cases (P := t.Effect) _ _ (fun _ hkeeps => hkeeps.effect)
    fun _ _ hkeeps => hkeeps.effect_write cmd hrecord

theorem effect_compareAndWrite {ts : UInt64} {t : Task}
    (hrecord : t.recorder.pfeEnableRecord = true) :
    t.Effect (compareAndWrite cmd ts t) := by
  unfold compareAndWrite
  dsimp only
  by_cases hlen : cmd.outLength / 2 ≠ cmd.tl
  · rw [if_pos hlen]
    exact ((Task.Keeps.refl t).fail _ _).effect
  · rw [if_neg hlen]
    refine Task.withDisk_cases (P := t.Effect) _ _ (fun _ hkeeps => hkeeps.effect)
      fun tmpbuf t' hkeeps => ?_
    split_ifs
    · exact (hkeeps.fail _ _).effect
    · exact hkeeps.effect_write cmd hrecord

/-- **One command**: it keeps the files, or it records a write and carries it out. -/
theorem bsRdwrRequest_effect {ts : UInt64} {r : Recorder} (hrecord : r.pfeEnableRecord = true)
    (hintact : (bsRdwrRequest cmd ts r).recorder.sys.intact = true)
    (htraceless : cmd.Traceless (r.sys.file .disk)) :
    r.Effect (bsRdwrRequest cmd ts r).recorder := by
  unfold bsRdwrRequest at hintact ⊢
  unfold ScsiCmd.Traceless at htraceless
  dsimp only at hintact ⊢
  generalize cmd.opcode = op at hintact htraceless ⊢
  cases op with
  | orwrite16 => exact effect_orwrite cmd hrecord hintact
  | compareAndWrite => exact effect_compareAndWrite cmd hrecord hintact
  | synchronizeCache => exact .inl (keeps_synchronizeCache cmd (.start r))
  | synchronizeCache16 => exact .inl (keeps_synchronizeCache cmd (.start r))
  | writeVerify => exact (Task.Keeps.refl _).effect_write cmd hrecord hintact
  | writeVerify12 => exact (Task.Keeps.refl _).effect_write cmd hrecord hintact
  | writeVerify16 => exact (Task.Keeps.refl _).effect_write cmd hrecord hintact
  | write6 => exact (Task.Keeps.refl _).effect_write cmd hrecord hintact
  | write10 => exact (Task.Keeps.refl _).effect_write cmd hrecord hintact
  | write12 => exact (Task.Keeps.refl _).effect_write cmd hrecord hintact
  | write16 => exact (Task.Keeps.refl _).effect_write cmd hrecord hintact
  | writeSame => exact .inl (keeps_writeSame cmd hintact htraceless)
  | writeSame16 => exact .inl (keeps_writeSame cmd hintact htraceless)
  | read6 => exact .inl (keeps_read cmd (.start r))
  | read10 => exact .inl (keeps_read cmd (.start r))
  | read12 => exact .inl (keeps_read cmd (.start r))
  | read16 => exact .inl (keeps_read cmd (.start r))
  | preFetch10 => exact .inl (keeps_preFetch (.start r))
  | preFetch16 => exact .inl (keeps_preFetch (.start r))
  | verify10 => exact .inl (keeps_verify cmd (.start r))
  | verify12 => exact .inl (keeps_verify cmd (.start r))
  | verify16 => exact .inl (keeps_verify cmd (.start r))
  | unmap => exact .inl (keeps_unmap cmd hintact htraceless)
  | other => exact .inl (.refl _)

end Effects

section Recording

variable {image : ByteFile} {ios : List Io} {r r' : Recorder}

/-- The recorder behind a number of recorded writes. -/
structure Recorded (image : ByteFile) (ios : List Io) (r : Recorder) : Prop where
  enabled : r.pfeEnableRecord = true
  ids : ios.map (fun io => io.header.id) = List.range' 1 ios.length
  nextId : r.pfeIoId = ios.length + 1
  extent_le : ∀ io ∈ ios,
    io.header.datalogOffset + io.data.length ≤ r.pfeIoDatalogOffset
  sound : ∀ io ∈ ios, io.Sound
  logged : ∀ io ∈ ios, io.Logged r.sys.file
  size : pfeIoHeaderSize ≤ (r.sys.file .header).size
  cnt : ioCnt (r.sys.file .header) = ios.length
  disk : r.sys.file .disk = applyPatches image (ios.map Io.patch)

theorem recorded_init (image : ByteFile) (outcomes : List Outcome) (heap : Nat → UInt8) :
    Recorded image [] (Recorder.init image outcomes heap) := by
  let header := ByteFile.empty.pwrite 0 (List.replicate pfeIoHeaderSize 0)
  have hsize : pfeIoHeaderSize ≤ header.size := by
    decide
  have hcnt : ioCnt header = 0 := by
    decide
  exact ⟨rfl, rfl, rfl, by simp, by simp, by simp, hsize, hcnt, rfl⟩

theorem Recorded.keeps (h : Recorded image ios r) (hkeeps : r.Keeps r') :
    Recorded image ios r' := by
  have hfile := hkeeps.sys.file
  exact {
    enabled := hkeeps.pfeEnableRecord.trans h.enabled
    ids := h.ids
    nextId := hkeeps.pfeIoId.trans h.nextId
    extent_le := by
      rw [hkeeps.pfeIoDatalogOffset]
      exact h.extent_le
    sound := h.sound
    logged := by
      rw [hfile]
      exact h.logged
    size := by
      rw [hfile]
      exact h.size
    cnt := by
      rw [hfile]
      exact h.cnt
    disk := by
      rw [hfile]
      exact h.disk }

theorem Recorded.id_pos (h : Recorded image ios r) {io : Io} (hio : io ∈ ios) :
    1 ≤ io.header.id ∧ io.header.id < r.pfeIoId := by
  have hmem : io.header.id ∈ List.range' 1 ios.length := by
    rw [← h.ids]
    exact List.mem_map_of_mem hio
  rw [List.mem_range'_1] at hmem
  rw [h.nextId]
  omega

theorem Recorded.logged_records (h : Recorded image ios r) {io : Io} {r₁ : Recorder}
    (hid : io.header.id = r.pfeIoId) (hoff : io.header.datalogOffset = r.pfeIoDatalogOffset)
    (hlogs : r.Logs io r₁) {io' : Io} (hio' : io' ∈ ios) : io'.Logged r₁.sys.file := by
  obtain ⟨hpos, hlt⟩ := h.id_pos hio'
  have hold := h.logged io' hio'
  have hextent := h.extent_le io' hio'
  constructor
  · rw [hlogs.header]
    exact holds_logCount (holds_logHeader hold.header (by omega)) hpos _
  · rw [hlogs.data]
    exact hold.data.pwrite_of_disjoint (.inl (by omega))

theorem Recorded.records (h : Recorded image ios r) {io : Io} (hrec : r.Records io r') :
    Recorded image (ios ++ [io]) r' := by
  obtain ⟨r₁, hlogs, hkeeps⟩ := hrec.logs
  obtain ⟨info, ts, offset, hheader⟩ := hrec.header
  have hid : io.header.id = r.pfeIoId := by
    rw [hheader]
    rfl
  have hoff : io.header.datalogOffset = r.pfeIoDatalogOffset := by
    rw [hheader]
    rfl
  have hlen : io.header.length = io.data.length := by
    rw [hheader]
    rfl
  have hsound : io.Sound :=
    ⟨hlen, hlogs.length_le, hlogs.pos_lt, hlogs.datalog_lt, hrec.offset_lt⟩
  have hnew : io.Logged r₁.sys.file := by
    constructor
    · rw [hlogs.header]
      refine holds_logCount (ByteFile.holds_pwrite_self _ _ _) ?_ _
      rw [hid, h.nextId]
      omega
    · rw [hlogs.data]
      exact ByteFile.holds_pwrite_self _ _ _
  have hother : ∀ fd, fd ≠ .disk → (r₁.setFile .disk ((r₁.sys.file .disk).pwrite
      io.header.offset.toNat io.data)).sys.file fd = r₁.sys.file fd :=
    fun fd hfd => Function.update_of_ne hfd _ _
  refine Recorded.keeps ?_ hkeeps
  exact {
    enabled := hlogs.enabled.trans h.enabled
    ids := by
      rw [List.map_append, h.ids, List.length_append, List.length_singleton, List.range'_1_concat,
        List.map_singleton, hid, h.nextId, Nat.add_comm]
    nextId := by
      rw [List.length_append, List.length_singleton, ← h.nextId]
      exact hlogs.nextId
    extent_le := by
      intro io' hio'
      refine le_of_le_of_eq ?_ hlogs.nextOffset.symm
      rcases List.mem_append.mp hio' with hio' | hio'
      · exact (h.extent_le io' hio').trans (Nat.le_add_right _ _)
      · rw [List.mem_singleton.mp hio', hoff]
    sound := by
      intro io' hio'
      rcases List.mem_append.mp hio' with hio' | hio'
      · exact h.sound io' hio'
      · rw [List.mem_singleton.mp hio']
        exact hsound
    logged := by
      intro io' hio'
      have hlogged : io'.Logged r₁.sys.file := by
        rcases List.mem_append.mp hio' with hio' | hio'
        · exact h.logged_records hid hoff hlogs hio'
        · rw [List.mem_singleton.mp hio']
          exact hnew
      constructor
      · rw [hother _ (by decide)]
        exact hlogged.header
      · rw [hother _ (by decide)]
        exact hlogged.data
    size := by
      rw [hother _ (by decide), hlogs.header]
      exact h.size.trans ((ByteFile.size_le_size_pwrite _ _ _).trans
        (ByteFile.size_le_size_pwrite _ _ _))
    cnt := by
      rw [hother _ (by decide), hlogs.header, ioCnt_logCount hsound.fits.id_lt, hid, h.nextId,
        List.length_append, List.length_singleton]
    disk := by
      rw [List.map_append, applyPatches_append, ← h.disk, ← hlogs.disk]
      exact Function.update_self File.disk _ r₁.sys.file }

end Recording

section Sequence

variable {lu : ScsiLu}

/-- A command, and the time at which it is recorded. -/
structure Request (lu : ScsiLu) where
  cmd : ScsiCmd lu
  ts : UInt64

def runRequests (reqs : List (Request lu)) (r : Recorder) : Recorder :=
  reqs.foldl (fun r req => (bsRdwrRequest req.cmd req.ts r).recorder) r

/-- Every command meets a condition in the state before it. -/
def EachRequest (P : Request lu → Recorder → Prop) : List (Request lu) → Recorder → Prop
  | [], _ => True
  | req :: reqs, r =>
      P req r ∧ EachRequest P reqs (bsRdwrRequest req.cmd req.ts r).recorder

/-- No system call fails during the command. -/
def Request.NoIoError (req : Request lu) (r : Recorder) : Prop :=
  (bsRdwrRequest req.cmd req.ts r).recorder.sys.intact = true

/-- The command changes the backing file through the label `write` only. -/
def Request.Traceless (req : Request lu) (r : Recorder) : Prop :=
  req.cmd.Traceless (r.sys.file .disk)

theorem EachRequest.append {P : Request lu → Recorder → Prop} {before after : List (Request lu)}
    {r : Recorder} (h : EachRequest P (before ++ after) r) :
    EachRequest P before r ∧ EachRequest P after (runRequests before r) := by
  induction before generalizing r with
  | nil =>
      exact ⟨trivial, h⟩
  | cons req before ih =>
      obtain ⟨hbefore, hafter⟩ := ih h.2
      exact ⟨⟨h.1, hbefore⟩, hafter⟩

theorem Recorded.run {image : ByteFile} {ios : List Io} {r : Recorder} (h : Recorded image ios r)
    {reqs : List (Request lu)} (herror : EachRequest Request.NoIoError reqs r)
    (htraceless : EachRequest Request.Traceless reqs r) :
    ∃ more, Recorded image (ios ++ more) (runRequests reqs r) := by
  induction reqs generalizing ios r with
  | nil =>
      exact ⟨[], (List.append_nil ios).symm ▸ h⟩
  | cons req reqs ih =>
      rcases bsRdwrRequest_effect req.cmd h.enabled herror.1 htraceless.1 with hkeeps | ⟨io, hio⟩
      · exact ih (h.keeps hkeeps) herror.2 htraceless.2
      · obtain ⟨more, hmore⟩ := ih (h.records hio) herror.2 htraceless.2
        exact ⟨io :: more, List.append_cons ios io more ▸ hmore⟩

/-- The process `pfe_replay`: the logs, and a disk image. -/
def replaySystem (image : ByteFile) (heap : Nat → UInt8) (r : Recorder) : System where
  file := Function.update r.sys.file .disk image
  outcomes := []
  heap := heap
  intact := true

theorem replaySystem_disk (image : ByteFile) (heap : Nat → UInt8) (r : Recorder) :
    (replaySystem image heap r).file .disk = image :=
  Function.update_self File.disk _ r.sys.file

theorem replaySystem_of_ne {fd : File} (h : fd ≠ .disk) (image : ByteFile) (heap : Nat → UInt8)
    (r : Recorder) : (replaySystem image heap r).file fd = r.sys.file fd :=
  Function.update_of_ne h _ _

theorem Io.Logged.replaySystem {io : Io} {r : Recorder} (h : io.Logged r.sys.file)
    (image : ByteFile) (heap : Nat → UInt8) :
    io.Logged (PowerFault.replaySystem image heap r).file := by
  constructor
  · rw [replaySystem_of_ne (by decide)]
    exact h.header
  · rw [replaySystem_of_ne (by decide)]
    exact h.data

theorem Recorded.replay_take {image : ByteFile} {ios : List Io} {r : Recorder}
    (h : Recorded image ios r) (heap : Nat → UInt8) {startId : Nat} (hstart : startId ≤ 1)
    (endId : Nat) : (pfeReplayFailure startId endId (replaySystem image heap r)).file .disk =
      applyPatches image ((ios.take endId).map Io.patch) := by
  have hheader := replaySystem_of_ne (show File.header ≠ .disk by decide) image heap r
  rw [pfeReplayFailure_eq rfl (hheader ▸ h.size) (hheader ▸ h.cnt) h.ids h.sound
    (fun io hio => (h.logged io hio).replaySystem image heap) hstart, replaySystem_disk]

theorem Recorded.replay {image : ByteFile} {ios : List Io} {r : Recorder}
    (h : Recorded image ios r) (heap : Nat → UInt8) {startId endId : Nat} (hstart : startId ≤ 1)
    (hend : r.pfeIoId - 1 ≤ endId) :
    (pfeReplayFailure startId endId (replaySystem image heap r)).file .disk =
      r.sys.file .disk := by
  have hall : ios.length ≤ endId := by
    rw [h.nextId] at hend
    omega
  rw [h.replay_take heap hstart, List.take_of_length_le hall, h.disk]

/-- **Recorded writes reproduce the backing file**: after any sequence of commands without an
I/O error, of which the unrecorded ones were traceless, a replay of all recorded writes on the
first image gives the content of the backing file. -/
theorem recorded_io_reproduces_disk (image : ByteFile) (outcomes : List Outcome)
    (heap heap' : Nat → UInt8) (reqs : List (Request lu))
    (herror : EachRequest Request.NoIoError reqs (Recorder.init image outcomes heap))
    (htraceless : EachRequest Request.Traceless reqs (Recorder.init image outcomes heap))
    (startId endId : Nat) (hstart : startId ≤ 1)
    (hend : (runRequests reqs (Recorder.init image outcomes heap)).pfeIoId - 1 ≤ endId) :
    (pfeReplayFailure startId endId (replaySystem image heap'
        (runRequests reqs (Recorder.init image outcomes heap)))).file .disk =
      (runRequests reqs (Recorder.init image outcomes heap)).sys.file .disk := by
  obtain ⟨ios, h⟩ := (recorded_init image outcomes heap).run herror htraceless
  exact h.replay heap' hstart hend

/-- A unit with blocks of one byte. -/
def byteLu : ScsiLu where
  blkShift := 0
  size := 1
  thinprovisioning := true
  caching := some 0x4

/-- A command on the first byte. -/
def byteCmd (scb0 scb1 : UInt8) (outLength : UInt32) (outBuffer : Nat → UInt8) :
    Request byteLu where
  cmd :=
    { info := ⟨scb0, .write, 1⟩
      scb1 := scb1
      offset := 0
      tl := 1
      outLength := outLength
      outBuffer := outBuffer
      inLength := 0
      tl_whole := by decide }
  ts := 0

/-- `WRITE_10`, `ORWRITE_16`, and a `WRITE_SAME` of what is there. -/
def tracelessRun : List (Request byteLu) :=
  [byteCmd 0x2a 0 1 (fun _ => 5), byteCmd 0x8b 0 1 (fun _ => 2), byteCmd 0x41 0 1 (fun _ => 7)]

theorem recorded_io_reproduces_disk_tracelessRun :
    (pfeReplayFailure 0 2 (replaySystem .empty (fun _ => 0)
        (runRequests tracelessRun (Recorder.init .empty [] fun _ => 0)))).file .disk =
      (runRequests tracelessRun (Recorder.init .empty [] fun _ => 0)).sys.file .disk := by
  refine recorded_io_reproduces_disk .empty [] (fun _ => 0) (fun _ => 0) tracelessRun ?_ ?_ 0 2
    (by decide) (by decide +kernel)
  · exact ⟨rfl, rfl, rfl, trivial⟩
  · refine ⟨trivial, trivial, fun p hp => ?_, trivial⟩
    obtain rfl : p = ⟨0, [7]⟩ := List.mem_singleton.mp hp
    intro i b hb
    obtain rfl : i = 0 := Nat.lt_one_iff.mp (List.getElem?_eq_some_iff.mp hb).1
    obtain rfl : 7 = b := Option.some.inj hb
    decide +kernel

/-- **A replay up to the last write before a power fault gives the image at that moment**: what
the commands behind it have logged is not applied. -/
theorem fault_image (image : ByteFile) (outcomes : List Outcome) (heap heap' : Nat → UInt8)
    (before after : List (Request lu))
    (herror : EachRequest Request.NoIoError (before ++ after)
      (Recorder.init image outcomes heap))
    (htraceless : EachRequest Request.Traceless (before ++ after)
      (Recorder.init image outcomes heap)) (startId : Nat) (hstart : startId ≤ 1) :
    (pfeReplayFailure startId
        ((runRequests before (Recorder.init image outcomes heap)).pfeIoId - 1)
        (replaySystem image heap'
          (runRequests (before ++ after) (Recorder.init image outcomes heap)))).file .disk =
      (runRequests before (Recorder.init image outcomes heap)).sys.file .disk := by
  obtain ⟨ios, h⟩ := (recorded_init image outcomes heap).run herror.append.1 htraceless.append.1
  obtain ⟨more, hmore⟩ := h.run herror.append.2 htraceless.append.2
  have hrun : runRequests (before ++ after) (Recorder.init image outcomes heap) =
      runRequests after (runRequests before (Recorder.init image outcomes heap)) :=
    List.foldl_append
  rw [hrun, hmore.replay_take heap' hstart, h.disk, h.nextId, Nat.add_sub_cancel, List.take_left]

theorem fault_image_tracelessRun :
    (pfeReplayFailure 0 1 (replaySystem .empty (fun _ => 0)
        (runRequests (tracelessRun.take 2) (Recorder.init .empty [] fun _ => 0)))).file .disk =
      (runRequests (tracelessRun.take 1) (Recorder.init .empty [] fun _ => 0)).sys.file .disk :=
  fault_image .empty [] (fun _ => 0) (fun _ => 0) (tracelessRun.take 1)
    (tracelessRun.tail.take 1) ⟨rfl, rfl, trivial⟩ ⟨trivial, trivial, trivial⟩ 0 (by decide)

/-- **Unrecorded commands**: a `WRITE SAME` and an `UNMAP` change the backing file, and the
replay does not. -/
theorem unrecorded_commands :
    (EachRequest Request.NoIoError [byteCmd 0x41 0 1 fun _ => 7]
        (Recorder.init .empty [] fun _ => 0) ∧
      (pfeReplayFailure 0 1 (replaySystem .empty (fun _ => 0) (runRequests
          [byteCmd 0x41 0 1 fun _ => 7] (Recorder.init .empty [] fun _ => 0)))).file .disk ≠
        (runRequests [byteCmd 0x41 0 1 fun _ => 7]
          (Recorder.init .empty [] fun _ => 0)).sys.file .disk) ∧
    EachRequest Request.NoIoError [byteCmd 0x42 0 24 fun i => if i = 19 then 1 else 0]
        (Recorder.init (ByteFile.empty.pwrite 0 [7]) [] fun _ => 0) ∧
      (pfeReplayFailure 0 1 (replaySystem (ByteFile.empty.pwrite 0 [7]) (fun _ => 0) (runRequests
          [byteCmd 0x42 0 24 fun i => if i = 19 then 1 else 0]
          (Recorder.init (ByteFile.empty.pwrite 0 [7]) [] fun _ => 0)))).file .disk ≠
        (runRequests [byteCmd 0x42 0 24 fun i => if i = 19 then 1 else 0]
          (Recorder.init (ByteFile.empty.pwrite 0 [7]) [] fun _ => 0)).sys.file .disk := by
  refine ⟨⟨⟨rfl, trivial⟩, fun h => ?_⟩, ⟨rfl, trivial⟩, fun h => ?_⟩
  · exact absurd (congrArg ByteFile.size h) (by decide +kernel)
  · exact absurd (congrArg (fun f => f.byte 0) h) (by decide +kernel)

end Sequence

end PowerFault
end Rfsck
