import Rfsck.PowerFault.Split

/-!
# Errors of the replay program

`pfe_split_io_log` and `pfe_replay_simple` store the results of `pread` and `pwrite` in an
unsigned variable, whose tests for a negative value never hold; `pfe_get_io_cnt` turns an error
into the count `2 ^ 64 - 1`; `pfe_replay_failure` drops the result of `pfe_replay_simple`.

* `pfeReplay`: `main` of `pfe_replay.c` behind the opening of its files, with the exit status.
* `pfeReplayTrace`: its reads of the two logs and its writes to the disk, in order.
* `Reported`: every such call that fails or is short is the last one that touches the disk, and
  leads to a failure status.
* `failures_reported_iff`: that is so exactly if no such call fails or is short.  Then the
  program applies recorded writes only, none of them beyond the count.

The loops of the source never end for the count `2 ^ 64 - 1`, as every id is at most that; the
model stops when the ids are used up.
-/

namespace Rfsck
namespace PowerFault

open Storage
open Redo (maxRwCount fit)

/-- `main` of `pfe_replay.c`: the exit status and the files. -/
def pfeReplay (splitIo : Bool) (b startIo endIo : Nat) (old : ByteFile) (s : System) :
    Int × System :=
  let files :=
    if splitIo then
      let t := (pfeSplitIoLog b old s).2
      pfeReplayFailure startIo endIo (t.sys.fsync.2.withHeader t.log)
    else
      pfeReplayFailure startIo endIo s
  -- the result of `pfe_replay_failure`
  let ret : Int := 0
  if ret < 0 then (-1, files) else (0, files)

/-- A read of one of the logs or a write to the disk, with its result. -/
inductive ReplayCall where
  | pread (fd : File) (off n : Nat) (got : Option Bytes)
  | pwrite (off : Nat) (buf : Bytes) (written : Int)
deriving DecidableEq

namespace ReplayCall

/-- The call did all that it was asked to do. -/
def Whole : ReplayCall → Prop
  | .pread _ _ n got => got.map List.length = some n
  | .pwrite _ buf written => written = buf.length

instance : DecidablePred Whole
  | .pread _ _ n got => inferInstanceAs (Decidable (got.map List.length = some n))
  | .pwrite _ buf written => inferInstanceAs (Decidable (written = buf.length))

def Writes : ReplayCall → Prop
  | .pread .. => False
  | .pwrite .. => True

instance : DecidablePred Writes
  | .pread .. => inferInstanceAs (Decidable False)
  | .pwrite .. => inferInstanceAs (Decidable True)

def onDisk (g : ByteFile) : ReplayCall → ByteFile
  | .pread .. => g
  | .pwrite off buf written => g.pwrite off (buf.take written.toNat)

end ReplayCall

/-- The read of slot `i` of the header log. -/
def slotCall (i : Nat) (s : System) : ReplayCall :=
  .pread .header (pfeIoHeaderSize * i) pfeIoHeaderSize
    (s.pread .header (pfeIoHeaderSize * i) pfeIoHeaderSize).1

/-- The calls for one record. -/
def recordTrace (h : PfeIoHeader) (s : System) : List ReplayCall :=
  let got := s.pread .data h.datalogOffset h.length
  [.pread .data h.datalogOffset h.length got.1,
    .pwrite h.offset.toNat (fit h.length (got.1.getD [])) (replayRecord h s).1]

/-- The calls of `replayLoop`. -/
def replayTrace : List Nat → Bytes → System → List ReplayCall
  | [], _, _ => []
  | i :: is, mem, s =>
      let got := s.pread .header (pfeIoHeaderSize * i) pfeIoHeaderSize
      let mem := got.1.getD [] ++ mem.drop (got.1.getD []).length
      let alloc := got.2.malloc
      let h := PfeIoHeader.decode mem
      slotCall i s ::
        if alloc.1 then
          recordTrace h alloc.2 ++ replayTrace is mem (replayRecord h alloc.2).2
        else
          []

/-- The calls of `pfeReplayFailure`, which reads the count twice. -/
def failureTrace (startId endId : Nat) (s : System) : List ReplayCall :=
  let cnt := pfeGetIoCnt s
  let lastId := if cnt.1 < endId then cnt.1 else endId
  let firstId := if startId < 1 then 1 else startId
  slotCall 0 s :: slotCall 0 cnt.2 ::
    replayTrace (List.range' firstId (lastId + 1 - firstId))
      ((List.range pfeIoHeaderSize).map cnt.2.heap) (pfeGetIoCnt cnt.2).2

/-- The calls of `splitLoop`. -/
def splitTrace (b : Nat) : List Nat → Bytes → Splitter → List ReplayCall
  | [], _, _ => []
  | i :: is, mem, t =>
      let got := t.sys.pread .header (pfeIoHeaderSize * i) pfeIoHeaderSize
      let mem := got.1.getD [] ++ mem.drop (got.1.getD []).length
      slotCall i t.sys ::
        splitTrace b is mem ({ t with sys := got.2 }.splitRecord b (PfeIoHeader.decode mem))

/-- The calls of `pfeReplay`. -/
def pfeReplayTrace (splitIo : Bool) (b startIo endIo : Nat) (old : ByteFile) (s : System) :
    List ReplayCall :=
  if splitIo then
    let cnt := pfeGetIoCnt s
    let t := (pfeSplitIoLog b old s).2
    slotCall 0 s ::
      splitTrace b (List.range' 1 cnt.1) ((List.range pfeIoHeaderSize).map s.heap)
        (Splitter.init old cnt.2) ++
      failureTrace startIo endIo (t.sys.fsync.2.withHeader t.log)
  else
    failureTrace startIo endIo s

/-- Failures are reported and stop the replay: behind a call that failed or was short there is
no write to the disk, every write has the bytes of a read, and the exit status is not zero. -/
def Reported (exit : Int) (calls : List ReplayCall) : Prop :=
  ∀ pre c post, calls = pre ++ c :: post → ¬ c.Whole →
    exit ≠ 0 ∧ (∀ e ∈ post, ¬ e.Writes) ∧
      ∀ off buf written, .pwrite off buf written ∈ calls →
        ∃ pos n, .pread .data pos n (some buf) ∈ calls

def replayedLog (splitIo : Bool) (b : Nat) (old : ByteFile) (s : System) : ByteFile :=
  if splitIo then (pfeSplitIoLog b old s).2.log else s.file .header

section Disk

/-- What a `pwrite` to the disk does, by its result. -/
theorem System.pwrite_disk_eq (s : System) (off : Nat) (buf : Bytes) :
    (s.pwrite .disk off buf).2.file = Function.update s.file .disk
      ((s.file .disk).pwrite off (buf.take (s.pwrite .disk off buf).1.toNat)) := by
  rw [System.pwrite]
  cases callSize s.nextOutcome off buf.length with
  | none =>
      dsimp only
      rw [show (-1 : Int).toNat = 0 from rfl, List.take_zero, ByteFile.pwrite_nil,
        Function.update_eq_self]
      rfl
  | some n =>
      rfl

theorem replayRecord_file (h : PfeIoHeader) (s : System) :
    (replayRecord h s).2.file = Function.update s.file .disk
      ((recordTrace h s).foldl ReplayCall.onDisk (s.file .disk)) := by
  have hkeeps := (s.keeps_pread .data h.datalogOffset h.length).file
  rw [replayRecord, recordTrace, System.pwrite_disk_eq, hkeeps]
  rfl

/-- **The trace accounts for all that happens to the disk.** -/
theorem replayLoop_onDisk (is : List Nat) (mem : Bytes) (ret : Int) (s : System) :
    (replayLoop is mem ret s).2.file .disk =
      (replayTrace is mem s).foldl ReplayCall.onDisk (s.file .disk) := by
  induction is generalizing mem ret s with
  | nil =>
      rfl
  | cons i is ih =>
      have hread := (s.keeps_pread .header (pfeIoHeaderSize * i) pfeIoHeaderSize).trans
        (System.keeps_malloc _)
      rw [replayLoop_stages, replayTrace, List.foldl_cons, slotCall, ReplayCall.onDisk]
      split_ifs with halloc
      · rw [ih, List.foldl_append, replayRecord_file, Function.update_self, hread.file]
      · rw [hread.file]
        rfl

theorem pfeGetIoCnt_file (s : System) : (pfeGetIoCnt s).2.file = s.file := by
  have hkeeps := (s.keeps_pread .header 0 pfeIoHeaderSize).file
  rw [pfeGetIoCnt]
  generalize s.pread .header 0 pfeIoHeaderSize = got at *
  obtain ⟨got, s'⟩ := got
  cases got <;> exact hkeeps

theorem pfeReplayFailure_onDisk (startId endId : Nat) (s : System) :
    (pfeReplayFailure startId endId s).file .disk =
      (failureTrace startId endId s).foldl ReplayCall.onDisk (s.file .disk) := by
  rw [pfeReplayFailure, failureTrace]
  dsimp only
  rw [pfeReplaySimple, replayLoop_onDisk, pfeGetIoCnt_file, pfeGetIoCnt_file]
  rfl

theorem Splitter.pwrite_file (t : Splitter) (off : Nat) (buf : Bytes) :
    (t.pwrite off buf).2.sys.file = t.sys.file := by
  rw [Splitter.pwrite]
  split <;> rfl

theorem Splitter.foldl_put_file (ps : List PfeIoHeader) (t : Splitter) :
    (ps.foldl Splitter.put t).sys.file = t.sys.file := by
  induction ps generalizing t with
  | nil =>
      rfl
  | cons p ps ih =>
      rw [List.foldl_cons, ih, Splitter.put, Splitter.pwrite_file]

theorem splitLoop_file (b : Nat) (is : List Nat) (mem : Bytes) (t : Splitter) (g : ByteFile) :
    (splitLoop b is mem t).sys.file = t.sys.file ∧
      (splitTrace b is mem t).foldl ReplayCall.onDisk g = g := by
  induction is generalizing mem t with
  | nil =>
      exact ⟨rfl, rfl⟩
  | cons i is ih =>
      have hread := (t.sys.keeps_pread .header (pfeIoHeaderSize * i) pfeIoHeaderSize).file
      rw [splitLoop, splitTrace, (ih _ _).1, Splitter.splitRecord_eq, Splitter.foldl_put_file, hread, List.foldl_cons,
        slotCall, ReplayCall.onDisk, ← Splitter.splitRecord_eq]
      exact ⟨rfl, (ih _ _).2⟩

theorem pfeSplitIoLog_file (b : Nat) (old : ByteFile) (s : System) :
    (pfeSplitIoLog b old s).2.sys.file = s.file := by
  rw [pfeSplitIoLog, Splitter.pwrite_file, (splitLoop_file b _ _ _ ByteFile.empty).1,
    Splitter.init]
  split_ifs
  · rw [Splitter.pwrite_file]
    exact pfeGetIoCnt_file s
  · exact pfeGetIoCnt_file s

end Disk

section Whole

variable {s : System}

theorem System.pread_of_whole {fd : File} {off n : Nat}
    (h : (s.pread fd off n).1.map List.length = some n) :
    (s.pread fd off n).1 = some ((s.file fd).pread off n) ∧
      ((s.file fd).pread off n).length = n := by
  unfold System.pread at h ⊢
  cases hsize : callSize s.nextOutcome off n with
  | none =>
      rw [hsize] at h
      cases h
  | some k =>
      rw [hsize] at h
      have hlen : ((s.file fd).pread off k).length = n := Option.some.inj h
      have hk : k = n := by
        have hle := ByteFile.length_pread_le (s.file fd) off k
        have hle' : k ≤ n := by
          unfold callSize at hsize
          split_ifs at hsize
          cases ho : s.nextOutcome with
          | ok =>
              rw [ho] at hsize
              have hmin := Option.some.inj hsize
              omega
          | short m =>
              rw [ho] at hsize
              have hmin := Option.some.inj hsize
              omega
          | fail =>
              rw [ho] at hsize
              cases hsize
        omega
      subst hk
      exact ⟨rfl, hlen⟩

theorem bytes_of_pread {f : ByteFile} {off n : Nat} (h : (f.pread off n).length = n) :
    f.pread off n = f.bytes off n := by
  rw [← f.pread_append_replicate off (le_refl n), List.take_append_of_le_length h.ge,
    List.take_of_length_le h.le]

/-- **One record**, read and written in full. -/
theorem replayRecord_of_whole {h : PfeIoHeader} (hwhole : ∀ c ∈ recordTrace h s, c.Whole) :
    ((s.file .data).pread h.datalogOffset h.length).length = h.length ∧
      (replayRecord h s).2.file = Function.update s.file .disk
        (applyPatches (s.file .disk) [h.patch (s.file .data) h.length]) := by
  have hread : (s.pread .data h.datalogOffset h.length).1.map List.length = some h.length :=
    hwhole (.pread .data h.datalogOffset h.length _) (List.mem_cons_self)
  obtain ⟨hgot, hlen⟩ := System.pread_of_whole hread
  have hput : (replayRecord h s).1 = (fit h.length
      ((s.pread .data h.datalogOffset h.length).1.getD [])).length :=
    hwhole (.pwrite h.offset.toNat _ _) (List.mem_cons_of_mem _ List.mem_cons_self)
  refine ⟨hlen, ?_⟩
  rw [replayRecord_file, recordTrace]
  dsimp only [List.foldl_cons, List.foldl_nil, ReplayCall.onDisk]
  rw [hput, Int.toNat_natCast, List.take_length, hgot, Option.getD_some,
    Redo.fit_of_length hlen, bytes_of_pread hlen]
  rfl

/-- The record in slot `i` and its data are in the logs. -/
def Available (f d : ByteFile) (i : Nat) : Prop :=
  (f.pread (pfeIoHeaderSize * i) pfeIoHeaderSize).length = pfeIoHeaderSize ∧
    (d.pread (slot f i).datalogOffset (slot f i).length).length = (slot f i).length

/-- **A loop without failures** applies recorded writes, in the order of their ids. -/
theorem replayLoop_of_whole {is : List Nat} {mem : Bytes} {ret : Int}
    (hmem : mem.length = pfeIoHeaderSize) (hwhole : ∀ c ∈ replayTrace is mem s, c.Whole) :
    ∃ done, done <+: is ∧ (∀ i ∈ done, Available (s.file .header) (s.file .data) i) ∧
      (replayLoop is mem ret s).2.file .disk =
        applyPatches (s.file .disk) (done.map fun i =>
          (slot (s.file .header) i).patch (s.file .data) (slot (s.file .header) i).length) := by
  induction is generalizing s mem ret with
  | nil =>
      exact ⟨[], List.nil_prefix, by simp, rfl⟩
  | cons i is ih =>
      rw [replayTrace] at hwhole
      have hread := (s.keeps_pread .header (pfeIoHeaderSize * i) pfeIoHeaderSize).trans
        (System.keeps_malloc _)
      obtain ⟨hgot, hlen⟩ := System.pread_of_whole (hwhole (slotCall i s) (by simp))
      have hslot : PfeIoHeader.decode ((s.file .header).pread (pfeIoHeaderSize * i)
          pfeIoHeaderSize) = slot (s.file .header) i := rfl
      rw [hgot, Option.getD_some, hlen, List.drop_eq_nil_of_le hmem.le, List.append_nil, hslot]
        at hwhole
      rw [replayLoop_stages, hgot, Option.getD_some, hlen, List.drop_eq_nil_of_le hmem.le,
        List.append_nil, hslot]
      generalize (s.pread .header (pfeIoHeaderSize * i) pfeIoHeaderSize).2.malloc = alloc at *
      split_ifs at hwhole ⊢ with halloc
      · obtain ⟨hdata, hfile⟩ := replayRecord_of_whole (s := alloc.2)
          (h := slot (s.file .header) i) (fun c hc => hwhole c (by simp [hc]))
        rw [hread.file] at hdata hfile
        obtain ⟨done, hpre, havail, hdisk⟩ := ih hlen (fun c hc => hwhole c (by
          simp only [List.mem_cons, List.mem_append]
          exact Or.inr (Or.inr hc)))
        have hlogs : (replayRecord (slot (s.file .header) i) alloc.2).2.file .header =
              s.file .header ∧
            (replayRecord (slot (s.file .header) i) alloc.2).2.file .data = s.file .data := by
          rw [hfile]
          exact ⟨rfl, rfl⟩
        rw [hlogs.1, hlogs.2] at havail hdisk
        rw [hfile, Function.update_self] at hdisk
        refine ⟨i :: done, List.cons_prefix_cons.mpr ⟨rfl, hpre⟩, ?_, ?_⟩
        · intro j hj
          rcases List.mem_cons.mp hj with rfl | hj
          · exact ⟨hlen, hdata⟩
          · exact havail j hj
        · rw [List.map_cons]
          exact hdisk
      · refine ⟨[], List.nil_prefix, by simp, ?_⟩
        rw [hread.file]
        rfl

theorem pfeGetIoCnt_of_whole (h : (slotCall 0 s).Whole) :
    (pfeGetIoCnt s).1 = ioCnt (s.file .header) := by
  obtain ⟨hgot, hlen⟩ := System.pread_of_whole h
  rw [Nat.mul_zero] at hgot hlen
  rw [pfeGetIoCnt]
  generalize s.pread .header 0 pfeIoHeaderSize = got at *
  obtain ⟨got, s'⟩ := got
  obtain rfl : got = _ := hgot
  dsimp only
  rw [System.readInto, Option.getD_some, List.drop_eq_nil_of_le (by simp [hlen]), List.append_nil]
  rfl

/-- **`pfe_replay_failure` without failures.** -/
theorem pfeReplayFailure_of_whole {startId endId : Nat}
    (hwhole : ∀ c ∈ failureTrace startId endId s, c.Whole) :
    ∃ done, done <+: List.range' (max 1 startId)
        (min endId (ioCnt (s.file .header)) + 1 - max 1 startId) ∧
      (∀ i ∈ done, Available (s.file .header) (s.file .data) i) ∧
      (pfeReplayFailure startId endId s).file .disk =
        applyPatches (s.file .disk) (done.map fun i =>
          (slot (s.file .header) i).patch (s.file .data) (slot (s.file .header) i).length) := by
  have hcnt := pfeGetIoCnt_of_whole (hwhole (slotCall 0 s) List.mem_cons_self)
  have hfirst : (if startId < 1 then 1 else startId) = max 1 startId := by
    split_ifs <;> omega
  have hlast : (if ioCnt (s.file .header) < endId then ioCnt (s.file .header) else endId) =
      min endId (ioCnt (s.file .header)) := by
    split_ifs <;> omega
  rw [failureTrace, hcnt, hfirst, hlast] at hwhole
  have hloop := @replayLoop_of_whole _ _ _ 0
    (by simp : ((List.range pfeIoHeaderSize).map (pfeGetIoCnt s).2.heap).length = _)
    (fun c hc => hwhole c (List.mem_cons_of_mem _ (List.mem_cons_of_mem _ hc)))
  rw [pfeGetIoCnt_file, pfeGetIoCnt_file] at hloop
  rw [pfeReplayFailure]
  dsimp only
  rw [hcnt, hfirst, hlast, pfeReplaySimple]
  exact hloop

theorem reported_iff (splitIo : Bool) (b startIo endIo : Nat) (old : ByteFile) (s : System) :
    Reported (pfeReplay splitIo b startIo endIo old s).1
        (pfeReplayTrace splitIo b startIo endIo old s) ↔
      ∀ c ∈ pfeReplayTrace splitIo b startIo endIo old s, c.Whole := by
  constructor
  · intro h c hc
    by_contra hshort
    obtain ⟨pre, post, hcalls⟩ := List.append_of_mem hc
    exact (h pre c post hcalls hshort).1 rfl
  · intro h pre c post hcalls hshort
    exact absurd (h c (by rw [hcalls]; simp)) hshort

end Whole

/-- **Replay failures are reported and stop the replay** exactly if no call fails or is short.
Then the program applies recorded writes only, up to the count. -/
theorem failures_reported_iff (splitIo : Bool) (b startIo endIo : Nat) (old : ByteFile)
    (s : System) :
    (Reported (pfeReplay splitIo b startIo endIo old s).1
        (pfeReplayTrace splitIo b startIo endIo old s) ↔
      ∀ c ∈ pfeReplayTrace splitIo b startIo endIo old s, c.Whole) ∧
    ((∀ c ∈ pfeReplayTrace splitIo b startIo endIo old s, c.Whole) →
      ∃ done, done <+: List.range' (max 1 startIo)
          (min endIo (ioCnt (replayedLog splitIo b old s)) + 1 - max 1 startIo) ∧
        (∀ i ∈ done, Available (replayedLog splitIo b old s) (s.file .data) i) ∧
        (pfeReplay splitIo b startIo endIo old s).2.file .disk =
          applyPatches (s.file .disk) (done.map fun i =>
            (slot (replayedLog splitIo b old s) i).patch (s.file .data)
              (slot (replayedLog splitIo b old s) i).length)) := by
  refine ⟨reported_iff splitIo b startIo endIo old s, fun hwhole => ?_⟩
  rw [pfeReplay]
  dsimp only
  rw [if_neg (lt_irrefl _)]
  cases splitIo with
  | false =>
      exact pfeReplayFailure_of_whole hwhole
  | true =>
      have hsync := (System.keeps_fsync (pfeSplitIoLog b old s).2.sys).file
      have hfiles : ∀ fd, fd ≠ .header → (System.withHeader
          (pfeSplitIoLog b old s).2.sys.fsync.2 (pfeSplitIoLog b old s).2.log).file fd =
          s.file fd := by
        intro fd hfd
        rw [System.withHeader, hsync, pfeSplitIoLog_file]
        exact Function.update_of_ne hfd _ _
      have hrun := @pfeReplayFailure_of_whole (System.withHeader
        (pfeSplitIoLog b old s).2.sys.fsync.2 (pfeSplitIoLog b old s).2.log) startIo endIo
        (fun c hc => hwhole c (by
          rw [pfeReplayTrace, if_pos rfl]
          exact List.mem_append_right _ hc))
      rw [hfiles .disk (by decide), hfiles .data (by decide)] at hrun
      exact hrun

theorem failures_reported_of_one_record :
    ∃ done, done <+: [1] ∧
      (pfeReplay false 1 0 1 ByteFile.empty (logSystem (oneRecordLog ⟨1, 0, 0, 1, 0, 0, 0, 0⟩)
        (ByteFile.empty.pwrite 0 [7]))).2.file .disk =
      applyPatches ByteFile.empty (done.map fun i =>
        (slot (oneRecordLog ⟨1, 0, 0, 1, 0, 0, 0, 0⟩) i).patch (ByteFile.empty.pwrite 0 [7])
          (slot (oneRecordLog ⟨1, 0, 0, 1, 0, 0, 0, 0⟩) i).length) := by
  have hwhole : ∀ c ∈ pfeReplayTrace false 1 0 1 ByteFile.empty
      (logSystem (oneRecordLog ⟨1, 0, 0, 1, 0, 0, 0, 0⟩) (ByteFile.empty.pwrite 0 [7])),
      c.Whole := by
    decide +kernel
  have hcnt : ioCnt (oneRecordLog ⟨1, 0, 0, 1, 0, 0, 0, 0⟩) = 1 := ioCnt_logCount (by decide)
  obtain ⟨done, hpre, -, hdisk⟩ := (failures_reported_iff false 1 0 1 ByteFile.empty
    (logSystem (oneRecordLog ⟨1, 0, 0, 1, 0, 0, 0, 0⟩) (ByteFile.empty.pwrite 0 [7]))).2 hwhole
  refine ⟨done, ?_, hdisk⟩
  change done <+: List.range' 1 (min 1 (ioCnt (oneRecordLog ⟨1, 0, 0, 1, 0, 0, 0, 0⟩)) + 1 - 1)
    at hpre
  rw [hcnt] at hpre
  exact hpre

/-- A header log with one record whose count cannot be read, and the ids up to 2: the record is
applied twice, the second time for the slot behind the end of the log, and the exit status is
zero. -/
theorem unreadable_count_replays_beyond_end :
    ∃ s : System, ioCnt (s.file .header) = 1 ∧
      ¬ Reported (pfeReplay false 1 1 2 ByteFile.empty s).1
        (pfeReplayTrace false 1 1 2 ByteFile.empty s) ∧
      ((pfeReplayTrace false 1 1 2 ByteFile.empty s).filter fun c => c.Writes).length = 2 ∧
      (pfeReplay false 1 1 2 ByteFile.empty s).1 = 0 := by
  refine ⟨{ logSystem (oneRecordLog ⟨1, 0, 0, 1, 0, 0, 0, 0⟩) (ByteFile.empty.pwrite 0 [7]) with
    outcomes := [.fail] }, ioCnt_logCount (by decide), ?_, ?_, rfl⟩
  · rw [reported_iff]
    decide +kernel
  · decide +kernel

end PowerFault
end Rfsck
