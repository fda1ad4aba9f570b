import Rfsck.Redo.Writer

/-!
# The recorder of the power fault emulator

`powerfault.c` records the writes of a SCSI target in two log files: a header log, whose slot
`0` has the number of recorded writes, and a data log.  `pfe_replay` applies a recorded range to
a disk image.

**System.**  A system call that fails, or that transfers less than it was asked to for another
reason than the end of the file, clears `intact`.  As on Linux one call transfers at most
`0x7ffff000` bytes, and a range that does not end below `2 ^ 63` is refused.

**Counters.**  `pfe_io_id` and `pfe_io_datalog_offset` are natural numbers here: the positions
derived from them are refused long before 64 bits wrap around.

**Replay.**  `ret` is unsigned in `pfe_replay_simple`, so its tests for a negative result never
hold: after a failed read the header of the iteration before is used again.
-/

namespace Rfsck
namespace PowerFault

open Storage
open Redo (Outcome maxRwCount fit)

/-- The open files: the backing file of the logical unit, and the two logs. -/
inductive File where
  | disk
  | header
  | data
deriving DecidableEq, Repr

/-- The files, the choices of the environment, and the content of fresh memory. -/
structure System where
  file : File → ByteFile
  outcomes : List Outcome
  heap : Nat → UInt8
  intact : Bool

/-- How many of `n` bytes at `off` a call transfers, unless it fails. -/
def callSize (o : Outcome) (off n : Nat) : Option Nat :=
  if off + n < 2 ^ 63 then
    match o with
    | .ok => some (min n maxRwCount)
    | .short k => some (min n (min k maxRwCount))
    | .fail => none
  else
    none

namespace System

variable (s : System)

def nextOutcome : Outcome :=
  s.outcomes.headD .ok

/-- A call is over; `whole` says whether it did all that it was asked to do. -/
def advance (whole : Bool) : System :=
  { s with
    outcomes := s.outcomes.tail
    intact := s.intact && whole }

def setFile (fd : File) (f : ByteFile) : System :=
  { s with file := Function.update s.file fd f }

/-- `pwrite64`: the number of bytes written, or -1. -/
def pwrite (fd : File) (off : Nat) (buf : Bytes) : Int × System :=
  match callSize s.nextOutcome off buf.length with
  | none => (-1, s.advance false)
  | some n =>
      (n, (s.advance (n = buf.length)).setFile fd ((s.file fd).pwrite off (buf.take n)))

/-- `pread64`: the bytes read, or an error. -/
def pread (fd : File) (off n : Nat) : Option Bytes × System :=
  match callSize s.nextOutcome off n with
  | none => (none, s.advance false)
  | some k => (some ((s.file fd).pread off k), s.advance (k = n))

/-- `fsync` and `fdatasync`. -/
def fsync : Int × System :=
  match s.nextOutcome with
  | .ok => (0, s.advance true)
  | _ => (-1, s.advance false)

/-- `posix_fadvise`: its result. -/
def fadvise : Int × System :=
  match s.nextOutcome with
  | .ok => (0, s.advance true)
  | _ => (1, s.advance false)

/-- `fallocate` with `FALLOC_FL_PUNCH_HOLE`; an empty range is refused. -/
def punchHole (fd : File) (off n : Nat) : Int × System :=
  if n ≠ 0 ∧ off + n < 2 ^ 63 ∧ s.nextOutcome = .ok then
    (0, (s.advance true).setFile fd ((s.file fd).punchHole off n))
  else
    (-1, s.advance false)

/-- `malloc` and `calloc`: whether there is memory. -/
def malloc : Bool × System :=
  (s.nextOutcome = .ok, s.advance true)

/-- Fresh memory into which bytes are read. -/
def readInto (n : Nat) (got : Option Bytes) : Bytes :=
  got.getD [] ++ ((List.range n).map s.heap).drop (got.getD []).length

end System

/-- `pfe_io_header_t`. -/
structure PfeIoHeader where
  id : Nat
  ts : UInt64
  offset : UInt64
  length : Nat
  datalogOffset : Nat
  cmdType : UInt64
  dataDir : UInt64
  tid : UInt64
deriving DecidableEq, Repr

/-- `sizeof(pfe_io_header_t)`. -/
def pfeIoHeaderSize : Nat := 64

namespace PfeIoHeader

def encode (h : PfeIoHeader) : Bytes :=
  le64 (UInt64.ofNat h.id) ++ le64 h.ts ++ le64 h.offset ++ le64 (UInt64.ofNat h.length) ++
    le64 (UInt64.ofNat h.datalogOffset) ++ le64 h.cmdType ++ le64 h.dataDir ++ le64 h.tid

/-- The record from memory. -/
def decode (bs : Bytes) : PfeIoHeader where
  id := (get64 bs).toNat
  ts := get64 (bs.drop 8)
  offset := get64 (bs.drop 16)
  length := (get64 (bs.drop 24)).toNat
  datalogOffset := (get64 (bs.drop 32)).toNat
  cmdType := get64 (bs.drop 40)
  dataDir := get64 (bs.drop 48)
  tid := get64 (bs.drop 56)

def pos (h : PfeIoHeader) : Nat :=
  pfeIoHeaderSize * h.id

/-- The counters fit their fields. -/
structure Fits (h : PfeIoHeader) : Prop where
  id_lt : h.id < 2 ^ 64
  length_lt : h.length < 2 ^ 64
  datalogOffset_lt : h.datalogOffset < 2 ^ 64

@[simp] theorem length_encode (h : PfeIoHeader) : h.encode.length = pfeIoHeaderSize := by
  simp [encode, pfeIoHeaderSize]

theorem drop_le64_append {n : Nat} (h : 8 ≤ n) (x : UInt64) (bs : Bytes) :
    (le64 x ++ bs).drop n = bs.drop (n - 8) := by
  rw [List.drop_append, length_le64, List.drop_eq_nil_of_le (by simpa using h), List.nil_append]

theorem decode_encode {h : PfeIoHeader} (hfits : h.Fits) (bs : Bytes) :
    decode (h.encode ++ bs) = h := by
  have hfield : ∀ {n : Nat}, n < 2 ^ 64 → (UInt64.ofNat n).toNat = n := by
    intro n hn
    exact UInt64.toNat_ofNat_of_lt' hn
  simp [decode, encode, List.append_assoc, drop_le64_append, hfield hfits.id_lt,
    hfield hfits.length_lt, hfield hfits.datalogOffset_lt]

end PfeIoHeader

/-- `enum data_direction`. -/
inductive DataDirection where
  | none
  | write
  | read
  | bidirectional
deriving DecidableEq, Repr

/-- The number behind the name. -/
def DataDirection.code : DataDirection → UInt64
  | .none => 0
  | .write => 1
  | .read => 2
  | .bidirectional => 3

/-- What is recorded of `struct scsi_cmd`. -/
structure CmdInfo where
  scb0 : UInt8
  dataDir : DataDirection
  tid : UInt64

/-- The process `tgtd`: its files, and the globals of the recorder. -/
structure Recorder where
  sys : System
  pfeIoId : Nat
  pfeIoDatalogOffset : Nat
  pfeEnableRecord : Bool

namespace Recorder

variable (r : Recorder)

def call {α : Type} (f : System → α × System) : α × Recorder :=
  ((f r.sys).1, { r with sys := (f r.sys).2 })

/-- The part of `pfe_log_io_req` under the mutex. -/
def reserve (cmd : CmdInfo) (ts offset : UInt64) (length : Nat) : PfeIoHeader × Recorder :=
  ({ id := r.pfeIoId
     ts := ts
     offset := offset
     length := length
     datalogOffset := r.pfeIoDatalogOffset
     cmdType := cmd.scb0.toUInt64
     dataDir := cmd.dataDir.code
     tid := cmd.tid },
   { r with
     pfeIoId := r.pfeIoId + 1
     pfeIoDatalogOffset := r.pfeIoDatalogOffset + length })

def logHeader (h : PfeIoHeader) : Int × Recorder :=
  r.call (·.pwrite .header h.pos h.encode)

/-- The id becomes the number of recorded writes, in slot `0`. -/
def logCount (h : PfeIoHeader) : Int × Recorder :=
  r.call (·.pwrite .header 0 (le64 (UInt64.ofNat h.id)))

def logData (h : PfeIoHeader) (buf : Bytes) : Int × Recorder :=
  r.call (·.pwrite .data h.datalogOffset buf)

/-- `pfe_log_io_req`. -/
def pfeLogIoReq (cmd : CmdInfo) (ts offset : UInt64) (buf : Bytes) : Int × Recorder :=
  let h := (r.reserve cmd ts offset buf.length).1
  let header := (r.reserve cmd ts offset buf.length).2.logHeader h
  if header.1 < 0 then
    header
  else
    let count := header.2.logCount h
    if count.1 < 0 then
      count
    else
      let data := count.2.logData h buf
      if data.1 < 0 then
        data
      else
        (0, (data.2.call System.fsync).2)

end Recorder

/-- What `tgtd` starts with: two empty logs, and a super head of zeros. -/
def Recorder.init (image : ByteFile) (outcomes : List Outcome) (heap : Nat → UInt8) :
    Recorder where
  sys :=
    { file := fun
        | .disk => image
        | .header => ByteFile.empty.pwrite 0 (List.replicate pfeIoHeaderSize 0)
        | .data => ByteFile.empty
      outcomes := outcomes
      heap := heap
      intact := true }
  pfeIoId := 1
  pfeIoDatalogOffset := 0
  pfeEnableRecord := true

/-- `pfe_get_io_cnt`. -/
def pfeGetIoCnt (s : System) : Nat × System :=
  match s.pread .header 0 pfeIoHeaderSize with
  | (none, s) => (2 ^ 64 - 1, s)
  | (some bs, s) => ((PfeIoHeader.decode (s.readInto pfeIoHeaderSize (some bs))).id, s)

/-- The loop of `pfe_replay_simple` over the ids that are left; `mem` is the memory of
`io_header`. -/
def replayLoop : List Nat → Bytes → Int → System → Int × System
  | [], _, ret, s => (ret, s)
  | i :: is, mem, _, s =>
      match s.pread .header (pfeIoHeaderSize * i) pfeIoHeaderSize with
      | (got, s) =>
          let mem := got.getD [] ++ mem.drop (got.getD []).length
          let h := PfeIoHeader.decode mem
          match s.malloc with
          | (false, s) => (-1, s)
          | (true, s) =>
              match s.pread .data h.datalogOffset h.length with
              | (got, s) =>
                  match s.pwrite .disk h.offset.toNat (fit h.length (got.getD [])) with
                  | (ret, s) => replayLoop is mem ret s

/-- `pfe_replay_simple`. -/
def pfeReplaySimple (firstId lastId : Nat) (s : System) : Int × System :=
  replayLoop (List.range' firstId (lastId + 1 - firstId))
    ((List.range pfeIoHeaderSize).map s.heap) 0 (pfeGetIoCnt s).2

/-- `pfe_replay_failure`; it returns zero in any case. -/
def pfeReplayFailure (startId endId : Nat) (s : System) : System :=
  match pfeGetIoCnt s with
  | (totIoCnt, s) =>
      let lastId := if totIoCnt < endId then totIoCnt else endId
      let firstId := if startId < 1 then 1 else startId
      (pfeReplaySimple firstId lastId s).2

section Intact

variable {s : System} {fd : File} {off n : Nat} {buf : Bytes}

theorem callSize_of_eq {o : Outcome} (h : callSize o off n = some n) :
    n ≤ maxRwCount ∧ off + n < 2 ^ 63 := by
  unfold callSize at h
  split_ifs at h with hlt
  refine ⟨?_, hlt⟩
  cases o with
  | ok =>
      have hmin := Option.some.inj h
      omega
  | short k =>
      have hmin := Option.some.inj h
      omega
  | fail => cases h

theorem System.pwrite_of_intact (h : (s.pwrite fd off buf).2.intact = true) :
    s.intact = true ∧ buf.length ≤ maxRwCount ∧ off + buf.length < 2 ^ 63 ∧
      s.pwrite fd off buf =
        ((buf.length : Int), (s.advance true).setFile fd ((s.file fd).pwrite off buf)) := by
  unfold System.pwrite at h ⊢
  cases hsize : callSize s.nextOutcome off buf.length with
  | none =>
      rw [hsize] at h
      exact absurd h (by simp [System.advance])
  | some n =>
      rw [hsize] at h
      obtain ⟨hs, hn⟩ : s.intact = true ∧ n = buf.length := by
        simpa [System.advance, System.setFile] using h
      subst hn
      obtain ⟨hle, hlt⟩ := callSize_of_eq hsize
      refine ⟨hs, hle, hlt, ?_⟩
      simp [List.take_length]

/-- No file is changed, and failed calls are not forgotten. -/
structure System.Keeps (s s' : System) : Prop where
  file : s'.file = s.file
  intact : s'.intact = true → s.intact = true

theorem System.Keeps.refl (s : System) : s.Keeps s :=
  ⟨rfl, id⟩

theorem System.Keeps.trans {s s' s'' : System} (h : s.Keeps s') (h' : s'.Keeps s'') :
    s.Keeps s'' :=
  ⟨h'.file.trans h.file, fun hs => h.intact (h'.intact hs)⟩

theorem System.keeps_advance (s : System) (whole : Bool) : s.Keeps (s.advance whole) :=
  ⟨rfl, fun h => (Bool.and_eq_true_iff.mp h).1⟩

theorem System.keeps_pread (s : System) (fd : File) (off n : Nat) :
    s.Keeps (s.pread fd off n).2 := by
  unfold System.pread
  split
  · exact s.keeps_advance _
  · exact s.keeps_advance _

theorem System.keeps_fsync (s : System) : s.Keeps s.fsync.2 := by
  unfold System.fsync
  split
  · exact s.keeps_advance _
  · exact s.keeps_advance _

theorem System.keeps_fadvise (s : System) : s.Keeps s.fadvise.2 := by
  unfold System.fadvise
  split
  · exact s.keeps_advance _
  · exact s.keeps_advance _

theorem System.keeps_malloc (s : System) : s.Keeps s.malloc.2 :=
  s.keeps_advance _

theorem System.punchHole_of_intact (h : (s.punchHole fd off n).2.intact = true) :
    s.intact = true ∧
      (s.punchHole fd off n).2.file =
        Function.update s.file fd ((s.file fd).punchHole off n) := by
  unfold System.punchHole at h ⊢
  split_ifs at h ⊢ with hok
  · exact ⟨(s.keeps_advance _).intact h, rfl⟩
  · exact absurd h (by simp [System.advance])

end Intact

/-- A recorded write. -/
structure Io where
  header : PfeIoHeader
  data : Bytes

def Io.patch (io : Io) : Patch where
  offset := io.header.offset.toNat
  data := io.data

/-- Every system call that replays the write is in its bounds. -/
structure Io.Sound (io : Io) : Prop where
  length_eq : io.header.length = io.data.length
  length_le : io.data.length ≤ maxRwCount
  pos_lt : io.header.pos + pfeIoHeaderSize < 2 ^ 63
  datalog_lt : io.header.datalogOffset + io.data.length < 2 ^ 63
  offset_lt : io.header.offset.toNat + io.data.length < 2 ^ 63

/-- The write is in both logs. -/
structure Io.Logged (io : Io) (file : File → ByteFile) : Prop where
  header : (file .header).Holds io.header.pos io.header.encode
  data : (file .data).Holds io.header.datalogOffset io.data

theorem Io.Sound.fits {io : Io} (h : io.Sound) : io.header.Fits := by
  have hpos := h.pos_lt
  have hdata := h.datalog_lt
  rw [PfeIoHeader.pos, pfeIoHeaderSize] at hpos
  exact ⟨by omega, by rw [h.length_eq]; omega, by omega⟩

namespace Recorder

variable {r : Recorder}

def setFile (r : Recorder) (fd : File) (f : ByteFile) : Recorder :=
  { r with sys := (r.sys.advance true).setFile fd f }

theorem call_pwrite_of_intact {fd : File} {off : Nat} {buf : Bytes}
    (h : (r.call (·.pwrite fd off buf)).2.sys.intact = true) :
    r.sys.intact = true ∧ buf.length ≤ maxRwCount ∧ off + buf.length < 2 ^ 63 ∧
      r.call (·.pwrite fd off buf) =
        ((buf.length : Int), r.setFile fd ((r.sys.file fd).pwrite off buf)) := by
  obtain ⟨hs, hle, hlt, heq⟩ := System.pwrite_of_intact h
  refine ⟨hs, hle, hlt, ?_⟩
  rw [Recorder.call, heq]
  rfl

end Recorder

section Slots

variable {f : ByteFile} {h h' : PfeIoHeader}

/-- The count in slot `0` of the header log. -/
def ioCnt (header : ByteFile) : Nat :=
  (PfeIoHeader.decode (header.pread 0 pfeIoHeaderSize)).id

theorem holds_logHeader (hold : f.Holds h.pos h.encode) (hne : h.id ≠ h'.id) :
    (f.pwrite h'.pos h'.encode).Holds h.pos h.encode := by
  apply hold.pwrite_of_disjoint
  rw [PfeIoHeader.length_encode, PfeIoHeader.length_encode, PfeIoHeader.pos, PfeIoHeader.pos,
    pfeIoHeaderSize]
  omega

theorem holds_logCount (hold : f.Holds h.pos h.encode) (hid : 1 ≤ h.id) (n : UInt64) :
    (f.pwrite 0 (le64 n)).Holds h.pos h.encode := by
  apply hold.pwrite_of_disjoint
  rw [length_le64, PfeIoHeader.pos, pfeIoHeaderSize]
  omega

theorem ioCnt_logHeader (hsize : pfeIoHeaderSize ≤ f.size) (hid : 1 ≤ h.id) :
    ioCnt (f.pwrite h.pos h.encode) = ioCnt f := by
  have hpos : pfeIoHeaderSize ≤ h.pos := by
    rw [PfeIoHeader.pos, pfeIoHeaderSize]
    omega
  rw [ioCnt, ByteFile.pread_pwrite_of_ge f (by omega) (by omega), ioCnt]

theorem ioCnt_logCount {n : Nat} (hn : n < 2 ^ 64) :
    ioCnt (f.pwrite 0 (le64 (UInt64.ofNat n))) = n := by
  rw [ioCnt, ByteFile.pread_pwrite_self f 0 (by simp [pfeIoHeaderSize]), PfeIoHeader.decode,
    get64_le64_append]
  exact UInt64.toNat_ofNat_of_lt' hn

end Slots

namespace Recorder

variable {r : Recorder}

/-- What `pfe_log_io_req` does if no system call fails. -/
structure Logs (r : Recorder) (io : Io) (r' : Recorder) : Prop where
  intact : r.sys.intact = true
  length_le : io.data.length ≤ maxRwCount
  pos_lt : io.header.pos + pfeIoHeaderSize < 2 ^ 63
  datalog_lt : io.header.datalogOffset + io.data.length < 2 ^ 63
  disk : r'.sys.file .disk = r.sys.file .disk
  header : r'.sys.file .header =
    ((r.sys.file .header).pwrite io.header.pos io.header.encode).pwrite 0
      (le64 (UInt64.ofNat io.header.id))
  data : r'.sys.file .data = (r.sys.file .data).pwrite io.header.datalogOffset io.data
  nextId : r'.pfeIoId = r.pfeIoId + 1
  nextOffset : r'.pfeIoDatalogOffset = r.pfeIoDatalogOffset + io.data.length
  enabled : r'.pfeEnableRecord = r.pfeEnableRecord

theorem intact_of_ite {p q : Int × Recorder}
    (hq : q.2.sys.intact = true → p.2.sys.intact = true)
    (h : (if p.1 < 0 then p else q).2.sys.intact = true) : p.2.sys.intact = true := by
  split_ifs at h with hp
  · exact h
  · exact hq h

theorem logs_of_intact {cmd : CmdInfo} {ts offset : UInt64} {buf : Bytes}
    (h : (r.pfeLogIoReq cmd ts offset buf).2.sys.intact = true) :
    r.Logs ⟨(r.reserve cmd ts offset buf.length).1, buf⟩ (r.pfeLogIoReq cmd ts offset buf).2 := by
  unfold pfeLogIoReq at h ⊢
  dsimp only at h ⊢
  generalize hres : r.reserve cmd ts offset buf.length = res at h ⊢
  -- a failed write ends the function, and is not forgotten
  have hdata : ∀ p : Int × Recorder,
      (if p.1 < 0 then p else (0, (p.2.call System.fsync).2)).2.sys.intact = true →
        p.2.sys.intact = true :=
    fun p => intact_of_ite (p.2.sys.keeps_fsync).intact
  have hcount : ∀ p : Int × Recorder,
      (if p.1 < 0 then p else
        if (p.2.logData res.1 buf).1 < 0 then p.2.logData res.1 buf
        else (0, ((p.2.logData res.1 buf).2.call System.fsync).2)).2.sys.intact = true →
        p.2.sys.intact = true :=
    fun p => intact_of_ite fun hp => (call_pwrite_of_intact (hdata _ hp)).1
  have hheader : (res.2.logHeader res.1).2.sys.intact = true :=
    intact_of_ite (fun hp => (call_pwrite_of_intact
      (hcount ((res.2.logHeader res.1).2.logCount res.1) hp)).1) h
  obtain ⟨hr, -, hpos, heq⟩ := call_pwrite_of_intact hheader
  change res.2.logHeader res.1 = _ at heq
  have hlt : ∀ n : Nat, ¬ (n : Int) < 0 := fun n => by omega
  rw [heq, if_neg (hlt _)] at h ⊢
  obtain ⟨-, -, -, heq⟩ := call_pwrite_of_intact
    (intact_of_ite (fun hp => (call_pwrite_of_intact (hdata _ hp)).1) h)
  change Recorder.logCount _ res.1 = _ at heq
  rw [heq, if_neg (hlt _)] at h ⊢
  obtain ⟨-, hle, hoff, heq⟩ := call_pwrite_of_intact (hdata _ h)
  change Recorder.logData _ res.1 buf = _ at heq
  rw [heq, if_neg (hlt _)] at h ⊢
  have hfile : ∀ t : Recorder, (t.call System.fsync).2.sys.file = t.sys.file :=
    fun t => t.sys.keeps_fsync.file
  have hsys : res.2.sys = r.sys ∧ res.2.pfeIoId = r.pfeIoId + 1 ∧
      res.2.pfeIoDatalogOffset = r.pfeIoDatalogOffset + buf.length ∧
      res.2.pfeEnableRecord = r.pfeEnableRecord := by
    rw [← hres]
    exact ⟨rfl, rfl, rfl, rfl⟩
  obtain ⟨hsys, hid, hoffset, hen⟩ := hsys
  rw [PfeIoHeader.length_encode] at hpos
  rw [hsys] at hr
  refine ⟨hr, hle, hpos, hoff, ?_, ?_, ?_, hid, hoffset, hen⟩
  · rw [hfile, ← hsys]
    rfl
  · rw [hfile, ← hsys]
    rfl
  · rw [hfile, ← hsys]
    rfl

end Recorder

section Replay

variable {s : System}

theorem System.callSize_eq (hs : s.outcomes = []) {off n : Nat} (hle : n ≤ maxRwCount)
    (hlt : off + n < 2 ^ 63) : callSize s.nextOutcome off n = some n := by
  unfold callSize System.nextOutcome
  rw [if_pos hlt, hs]
  exact congrArg some (Nat.min_eq_left hle)

theorem System.pread_of_holds (hs : s.outcomes = []) {fd : File} {off n : Nat} {bs : Bytes}
    (h : (s.file fd).Holds off bs) (hn : bs.length = n) (hle : n ≤ maxRwCount)
    (hlt : off + n < 2 ^ 63) : s.pread fd off n = (some bs, s.advance true) := by
  rw [System.pread, System.callSize_eq hs hle hlt]
  dsimp only
  rw [ByteFile.pread_of_holds_length h hn, decide_eq_true rfl]

theorem System.pwrite_eq (hs : s.outcomes = []) (fd : File) {off : Nat} {buf : Bytes}
    (hle : buf.length ≤ maxRwCount) (hlt : off + buf.length < 2 ^ 63) :
    s.pwrite fd off buf =
      ((buf.length : Int), (s.advance true).setFile fd ((s.file fd).pwrite off buf)) := by
  rw [System.pwrite, System.callSize_eq hs hle hlt]
  simp

theorem System.malloc_eq (hs : s.outcomes = []) : s.malloc = (true, s.advance true) := by
  rw [System.malloc, System.nextOutcome, hs]
  rfl

/-- One iteration of `pfe_replay_simple`. -/
theorem replayLoop_cons (hs : s.outcomes = []) {io : Io} (hsound : io.Sound)
    (hlog : io.Logged s.file) (is : List Nat) (mem : Bytes) (ret : Int) :
    ∃ mem' ret' s', replayLoop (io.header.id :: is) mem ret s = replayLoop is mem' ret' s' ∧
      s'.outcomes = [] ∧
      s'.file = Function.update s.file .disk ((s.file .disk).pwrite io.patch.offset io.data) := by
  have hadvance : ∀ {t : System}, t.outcomes = [] → (t.advance true).outcomes = [] := by
    intro t ht
    rw [System.advance, ht]
    rfl
  have hhead : pfeIoHeaderSize ≤ maxRwCount := by
    decide
  have hfit : fit io.header.length io.data = io.data :=
    Redo.fit_of_length hsound.length_eq.symm
  have hs1 := hadvance hs
  have hs2 := hadvance hs1
  have hs3 := hadvance hs2
  refine ⟨io.header.encode ++ mem.drop io.header.encode.length, io.data.length,
    (((s.advance true).advance true).advance true |>.advance true).setFile .disk
      ((s.file .disk).pwrite io.patch.offset io.data), ?_, hadvance hs3, rfl⟩
  rw [replayLoop, show pfeIoHeaderSize * io.header.id = io.header.pos from rfl,
    System.pread_of_holds hs hlog.header io.header.length_encode hhead hsound.pos_lt]
  dsimp only [Option.getD_some]
  rw [System.malloc_eq hs1, PfeIoHeader.decode_encode hsound.fits]
  dsimp only
  rw [System.pread_of_holds hs2 hlog.data hsound.length_eq.symm
    (hsound.length_eq.trans_le hsound.length_le) (by
      rw [hsound.length_eq]
      exact hsound.datalog_lt)]
  dsimp only [Option.getD_some]
  rw [hfit, System.pwrite_eq hs3 .disk hsound.length_le hsound.offset_lt]
  rfl

/-- **Replay**: the logged writes are applied in the order of their ids. -/
theorem replayLoop_eq {ios : List Io} {firstId : Nat} (hs : s.outcomes = [])
    (hids : ios.map (fun io => io.header.id) = List.range' firstId ios.length)
    (hsound : ∀ io ∈ ios, io.Sound) (hlog : ∀ io ∈ ios, io.Logged s.file) (mem : Bytes)
    (ret : Int) :
    (replayLoop (List.range' firstId ios.length) mem ret s).2.file .disk =
      applyPatches (s.file .disk) (ios.map Io.patch) := by
  rw [← hids]
  clear hids
  induction ios generalizing s mem ret with
  | nil => rfl
  | cons io ios ih =>
      obtain ⟨mem', ret', s', hloop, hs', hfile⟩ :=
        replayLoop_cons hs (hsound io (by simp)) (hlog io (by simp))
          (ios.map fun io => io.header.id) mem ret
      rw [List.map_cons, hloop, List.map_cons, applyPatches_cons]
      rw [ih hs' (fun io' h => hsound io' (by simp [h])) (fun io' h => ?_), hfile,
        Function.update_self]
      · rfl
      · have hlogged := hlog io' (by simp [h])
        rw [hfile]
        constructor
        · rw [Function.update_of_ne (by decide)]
          exact hlogged.header
        · rw [Function.update_of_ne (by decide)]
          exact hlogged.data

theorem pfeGetIoCnt_eq (hs : s.outcomes = []) (hsize : pfeIoHeaderSize ≤ (s.file .header).size) :
    pfeGetIoCnt s = (ioCnt (s.file .header), s.advance true) := by
  have hlen : ((s.file .header).pread 0 pfeIoHeaderSize).length = pfeIoHeaderSize := by
    rw [ByteFile.length_pread]
    omega
  rw [pfeGetIoCnt, System.pread_of_holds hs (ByteFile.holds_of_pread hlen) hlen (by decide)
    (by decide)]
  dsimp only
  rw [System.readInto, Option.getD_some, List.drop_of_length_le (by simp [hlen]), List.append_nil]
  rfl

/-- `pfe_replay_simple` over all recorded writes. -/
theorem pfeReplaySimple_eq {ios : List Io} (hs : s.outcomes = [])
    (hsize : pfeIoHeaderSize ≤ (s.file .header).size)
    (hids : ios.map (fun io => io.header.id) = List.range' 1 ios.length)
    (hsound : ∀ io ∈ ios, io.Sound) (hlog : ∀ io ∈ ios, io.Logged s.file) :
    (pfeReplaySimple 1 ios.length s).2.file .disk =
      applyPatches (s.file .disk) (ios.map Io.patch) := by
  have hs' : (s.advance true).outcomes = [] := by
    rw [System.advance, hs]
    rfl
  rw [pfeReplaySimple, pfeGetIoCnt_eq hs hsize, Nat.add_sub_cancel]
  exact replayLoop_eq hs' hids hsound hlog _ _

/-- `pfe_replay_failure` from the first recorded write to any id. -/
theorem pfeReplayFailure_eq {ios : List Io} (hs : s.outcomes = [])
    (hsize : pfeIoHeaderSize ≤ (s.file .header).size)
    (hcnt : ioCnt (s.file .header) = ios.length)
    (hids : ios.map (fun io => io.header.id) = List.range' 1 ios.length)
    (hsound : ∀ io ∈ ios, io.Sound) (hlog : ∀ io ∈ ios, io.Logged s.file) {startId : Nat}
    (hstart : startId ≤ 1) (endId : Nat) :
    (pfeReplayFailure startId endId s).file .disk =
      applyPatches (s.file .disk) ((ios.take endId).map Io.patch) := by
  have hs' : (s.advance true).outcomes = [] := by
    rw [System.advance, hs]
    rfl
  have hfirst : (if startId < 1 then 1 else startId) = 1 := by
    split_ifs <;> omega
  have hlast : (if ios.length < endId then ios.length else endId) = (ios.take endId).length := by
    rw [List.length_take]
    split_ifs <;> omega
  rw [pfeReplayFailure, pfeGetIoCnt_eq hs hsize]
  dsimp only
  rw [hcnt, hfirst, hlast]
  refine pfeReplaySimple_eq hs' hsize ?_ (fun io hio => hsound io (List.mem_of_mem_take hio))
    fun io hio => hlog io (List.mem_of_mem_take hio)
  rw [List.map_take, hids, List.length_take, List.range'_eq_map_range, List.range'_eq_map_range,
    ← List.map_take, List.take_range]

end Replay

end PowerFault
end Rfsck
