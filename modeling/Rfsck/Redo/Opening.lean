import Rfsck.Redo.SessionReplay

/-!
# Opening the log

The first `rfsck_open` of a process sets `redo_data` up, replays the log it finds
and then writes a header of its own, whatever the replay did.

* `firstOpen` is that sequence once the log file is open (`rfsckOpen_eq`).
* `session_of_open`: from then on the session relation holds with an empty list of
  entries, whatever bytes an earlier process left in the file.
* `FreshlyOpened`: the replay found no valid FINISHED header, so that it did
  nothing.
-/

namespace Rfsck
namespace Redo

open Storage

section Opening

variable (crc : Bytes → UInt32)

/-- `rfsck_open` behind its tests: replay, then write the header. -/
def firstOpen (s : State) : Int × State :=
  let s := (rfsckReplay crc true s).2
  writeInfo .redo 0 s.data.hdr.encode false s

/-- The state in which `rfsck_open` calls `rfsck_replay`. -/
def setupState (devFd : Nat) (raw : RedoPrivateData) (w : World) (out : List Message) : State where
  data := redoSetup crc devFd raw
  world := w
  out := out

theorem World.openRedo_of_outcomes_nil
    {w : World} (h : w.outcomes = []) : w.openRedo = (true, w) := by
  simp [World.openRedo, World.nextOutcome_of_outcomes_nil h, World.advance_of_outcomes_nil h]

/-- A first `rfsck_open` with a file name and a descriptor. -/
theorem rfsckOpen_eq
    {w : World} (h : w.outcomes = []) (redo : String) {devFd : Nat} (hdev : 1 ≤ devFd)
    (raw : RedoPrivateData) (out : List Message) :
    rfsckOpen crc (some redo) devFd raw { redoData := none, world := w, out := out } =
      (let r := firstOpen crc (setupState crc devFd raw w out)
      if r.1 ≠ 0 then
        (r.1, (r.2.print .unableToWriteRedoHeader).process)
      else
        (r.1, r.2.process)) := by
  unfold rfsckOpen
  rw [if_neg (by simp), if_neg (by omega)]
  dsimp only
  rw [World.openRedo_of_outcomes_nil h]
  dsimp only
  rw [World.openRedo_of_outcomes_nil h]
  rfl

theorem firstOpen_eq
    {s : State} (h : (rfsckReplay crc true s).2.world.outcomes = []) :
    firstOpen crc s =
      (0, { (rfsckReplay crc true s).2 with
        world := (rfsckReplay crc true s).2.world.push
          (.pwrite .redo 0 (rfsckReplay crc true s).2.data.hdr.encode) }) := by
  refine writeInfo_plain h .redo 0 ?_
  rw [RedoHeader.length_encode]
  exact redoHeaderSize_le_maxRwCount

theorem State.process_injective {s s' : State} (h : s.process = s'.process) : s = s' := by
  cases s with
  | mk data world out =>
      cases s' with
      | mk data' world' out' =>
          simp only [State.process, Process.mk.injEq, Option.some.injEq] at h
          obtain ⟨rfl, rfl, rfl⟩ := h
          rfl

theorem redoSetup_writerAt (devFd : Nat) (raw : RedoPrivateData) :
    WriterAt [] 0 (redoSetup crc devFd raw) := by
  refine {
    numKeys_eq := rfl
    keysInBlock_eq := rfl
    redoBlockOffset_eq := rfl
    logOffset_eq := rfl
    keyb_tags := ?_
    keyb_reserved := rfl }
  rw [slice_tagOf_of_le [] (Nat.zero_le _)]
  rfl

theorem zero_ne_finished : (0 : UInt32) ≠ e2redoStateFinished := by
  decide

/-- Whatever the file held before, the header that `rfsck_open` writes starts an
empty log. -/
theorem session_of_open
    {devFd : Nat} {raw : RedoPrivateData} {s : State}
    (hidle : s.data.idle = (redoSetup crc devFd raw).idle)
    (h : s.world.outcomes = []) :
    Session crc [] [] 0 []
      { s with world := s.world.push (.pwrite .redo 0 s.data.hdr.encode) } := by
  have hhdr : s.data.hdr = (redoSetup crc devFd raw).hdr :=
    RedoPrivateData.hdr_of_idle hidle
  refine {
    writer := (redoSetup_writerAt crc devFd raw).congr hidle
    stored := ⟨fun i e he => by simp at he, fun k hk => absurd hk (Nat.not_lt_zero k)⟩
    pending_holds := ByteFile.holds_nil _ _
    whole := fun e he => by simp at he
    le_n := Nat.le_refl _
    n_le := Nat.zero_le _
    marks_edge := fun m hm => by simp at hm
    header_holds := ?_
    header_crc := ?_
    header_keyOffset := ?_
    header_covers := ?_
    outcomes_nil := h }
  · rw [World.file_push, applyEvent_pwrite_self]
    exact ByteFile.holds_pwrite_self _ _ _
  · rw [hhdr]
    rfl
  · rw [hhdr]
    rfl
  · rw [hhdr]
    exact fun hf => absurd hf zero_ne_finished

/-- The state after a successful first `rfsck_open` of a log without a valid
FINISHED header, all system calls succeeding. -/
def FreshlyOpened (w : World) (s : State) : Prop :=
  w.outcomes = [] ∧ ¬ w.header.Finished crc ∧
    ∃ redo devFd raw out,
      rfsckOpen crc (some redo) devFd raw { redoData := none, world := w, out := out } =
        (0, s.process)

variable {crc}

theorem state_of_rfsckOpen
    {w : World} {s : State} {redo : String} {devFd : Nat} {raw : RedoPrivateData}
    {out : List Message} (hw : w.outcomes = []) (hnew : ¬ w.header.Finished crc)
    (hopen : rfsckOpen crc (some redo) devFd raw { redoData := none, world := w, out := out } =
      (0, s.process)) :
    ∃ m, s = { (setupState crc devFd raw w out).print m with
      world := w.push (.pwrite .redo 0 (redoSetup crc devFd raw).hdr.encode) } := by
  have hdev : 1 ≤ devFd := by
    by_contra hlt
    rw [rfsckOpen, if_neg (by simp), if_pos (by omega)] at hopen
    simp at hopen
  obtain ⟨m, hm⟩ := rfsckReplay_of_not_finished crc
    (s := setupState crc devFd raw w out) hw hnew true
  have hrun : (rfsckReplay crc true (setupState crc devFd raw w out)).2 =
      (setupState crc devFd raw w out).print m := by
    rw [hm]
  have hfirst := firstOpen_eq crc (s := setupState crc devFd raw w out) (by
    rw [hrun]
    exact hw)
  rw [rfsckOpen_eq crc hw redo hdev, hfirst, hrun] at hopen
  simp only [ne_eq, not_true_eq_false, if_false, Prod.mk.injEq, true_and] at hopen
  exact ⟨m, (State.process_injective hopen).symm⟩

theorem FreshlyOpened.session
    {w : World} {s : State} (h : FreshlyOpened crc w s) :
    Session crc [] [] 0 [] s ∧ s.data.txnId = 1 ∧
      s.data.hdr.state ≠ e2redoStateFinished ∧
      s.world = w.push (.pwrite .redo 0 s.data.hdr.encode) := by
  obtain ⟨hw, hnew, redo, devFd, raw, out, hopen⟩ := h
  obtain ⟨m, rfl⟩ := state_of_rfsckOpen hw hnew hopen
  refine ⟨?_, rfl, ?_, rfl⟩
  · exact session_of_open crc (s := (setupState crc devFd raw w out).print m) rfl hw
  · exact zero_ne_finished

variable (crc)

theorem rfsckOpen_eq_firstOpen
    {w : World} (hw : w.outcomes = []) (hnew : ¬ w.header.Finished crc) (redo : String)
    {devFd : Nat} (hdev : 1 ≤ devFd) (raw : RedoPrivateData) (out : List Message) :
    rfsckOpen crc (some redo) devFd raw { redoData := none, world := w, out := out } =
      (0, (firstOpen crc (setupState crc devFd raw w out)).2.process) := by
  obtain ⟨m, hm⟩ := rfsckReplay_of_not_finished crc
    (s := setupState crc devFd raw w out) hw hnew true
  have hfirst := firstOpen_eq crc (s := setupState crc devFd raw w out) (by
    rw [hm]
    exact hw)
  rw [rfsckOpen_eq crc hw redo hdev, hfirst]
  rfl

theorem freshlyOpened_firstOpen
    {w : World} (hw : w.outcomes = []) (hnew : ¬ w.header.Finished crc)
    {devFd : Nat} (hdev : 1 ≤ devFd) (raw : RedoPrivateData) (out : List Message) :
    FreshlyOpened crc w (firstOpen crc (setupState crc devFd raw w out)).2 := by
  exact ⟨hw, hnew, "redo", devFd, raw, out,
    rfsckOpen_eq_firstOpen crc hw hnew "redo" hdev raw out⟩

end Opening

/-- A system with empty files, in which no call fails and the heap is zero. -/
def blankWorld : World where
  init := fun _ => ByteFile.empty
  trace := []
  outcomes := []
  heap := fun _ _ _ => 0

/-- The memory of `redo_data` in that system. -/
def blankData : RedoPrivateData where
  devFd := 0
  numKeys := 0
  keysInBlock := 0
  redoBlockOffset := 0
  logOffset := 0
  hdr := RedoHeader.decode []
  keyb := RedoBlock.zero
  txnBeginBlk := 0
  txnBeginIdx := 0
  txnId := 0
  txnCsum := 0

theorem not_finished_blankWorld (crc : Bytes → UInt32) : ¬ blankWorld.header.Finished crc := by
  have hstate : blankWorld.header.state ≠ e2redoStateFinished := by
    decide +kernel
  exact fun hf => hstate hf.2

/-- The state behind a first `rfsck_open` there. -/
def blankState (crc : Bytes → UInt32) : State :=
  (firstOpen crc (setupState crc 1 blankData blankWorld [])).2

theorem blankState_freshlyOpened (crc : Bytes → UInt32) :
    FreshlyOpened crc blankWorld (blankState crc) := by
  exact freshlyOpened_firstOpen crc rfl (not_finished_blankWorld crc) (le_refl 1) blankData []

end Redo
end Rfsck
