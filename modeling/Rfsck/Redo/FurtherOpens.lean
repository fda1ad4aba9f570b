import Rfsck.Redo.FailedCalls
import Rfsck.Redo.ReplayResult

/-!
# Opening more channels

`unix_open_channel` calls `rfsck_open` for every channel.  From the second call on,
`redo_setup` leaves `redo_data` as it is, `rfsck_replay` looks at the log that is being
written, and the header in memory is written once more.

* `InStep`: the log starts with the header in memory, and everything else that is written
  lies behind it.  It is kept by every call, whatever its system calls do, if
  `redo_mark_done` does not change the header in memory without writing it.
* `InStep.reopen`: a further `rfsck_open` changes nothing if the log is not FINISHED.
* `further_opens_untouched`: the same in every state of a session.
-/

namespace Rfsck
namespace Redo

open Storage

section Model

variable (crc : Bytes → UInt32)

/-- The arguments of a further `rfsck_open`. -/
structure Reopening where
  redo : Option String
  devFd : Nat
  raw : RedoPrivateData

/-- The state behind a further `rfsck_open`. -/
def reopen (o : Reopening) (s : State) : State :=
  let p := (rfsckOpen crc o.redo o.devFd o.raw s.process).2
  { data := p.redoData.getD s.data
    world := p.world
    out := p.out }

/-- A step of a session. -/
inductive Step where
  | call (c : Call)
  | reopen (o : Reopening)

def Step.run : Step → State → State
  | .call c, s => (c.run crc s).2
  | .reopen o, s => Redo.reopen crc o s

def runSteps (steps : List Step) (s : State) : State :=
  steps.foldl (fun s step => step.run crc s) s

/-- A header that passes the tests of `rfsck_replay` was read in full. -/
def HeaderReadWhole (w : World) : Prop :=
  ∀ bytes w', w.pread .redo 0 redoHeaderSize = (some bytes, w') →
    (readHeader w bytes).Finished crc → bytes.length = redoHeaderSize

/-- The condition on a step.  If `redo_mark_done` gets to its header, then it writes all of
it, unless it has not changed; a header that a replay takes for FINISHED was read in full. -/
def Step.Sound (s : State) : Step → Prop
  | .call (.markDone done) => ReachesHeader s.world →
      (s.world.outcomeAt 3).Transfers redoHeaderSize ∨ s.doneHeader crc done = s.data.hdr
  | .call (.replay _) => HeaderReadWhole crc s.world
  | .call _ => True
  | .reopen _ => ∀ w v, s.world.openRedo = (true, w) → w.openRedo = (true, v) →
      HeaderReadWhole crc v

/-- Every step of a run meets the condition. -/
def SoundRun : List Step → State → Prop
  | [], _ => True
  | step :: steps, s => step.Sound crc s ∧ SoundRun steps (step.run crc s)

/-- The fields of `redo_data`, the log and the devices are the same. -/
structure Untouched (s s' : State) : Prop where
  data_eq : s'.data = s.data
  log_eq : s'.world.file .redo = s.world.file .redo
  dev_eq : ∀ fd, s'.world.file (.dev fd) = s.world.file (.dev fd)

end Model

/-- The log starts with the header in memory, and the writer is behind it. -/
structure State.InStep (s : State) : Prop where
  held : (s.world.file .redo).Holds 0 s.data.hdr.encode
  keyOffset : s.data.hdr.keyOffset.toNat = redoHeaderSize
  keyb_le : redoHeaderSize ≤ s.data.redoBlockOffset
  log_le : redoHeaderSize ≤ s.data.logOffset

section Writer

variable {crc : Bytes → UInt32} {s : State}

theorem State.InStep.congr {t : State} (h : s.InStep)
    (hlog : t.world.file .redo = s.world.file .redo) (hhdr : t.data.hdr = s.data.hdr)
    (hkeyb : s.data.redoBlockOffset ≤ t.data.redoBlockOffset)
    (hoff : s.data.logOffset ≤ t.data.logOffset) : t.InStep := by
  refine ⟨?_, ?_, le_trans h.keyb_le hkeyb, le_trans h.log_le hoff⟩
  · rw [hlog, hhdr]
    exact h.held
  · rw [hhdr]
    exact h.keyOffset

theorem State.InStep.writeInfo (h : s.InStep) {off : Nat} (hoff : redoHeaderSize ≤ off)
    (buf : Bytes) (countOffset : Bool) : (writeInfo .redo off buf countOffset s).2.InStep := by
  obtain ⟨n, hfile, hok, hfail⟩ := writeInfo_take off buf countOffset s
  generalize Redo.writeInfo .redo off buf countOffset s = r at *
  have hdata : r.2.data.hdr = s.data.hdr ∧ r.2.data.redoBlockOffset = s.data.redoBlockOffset ∧
      s.data.logOffset ≤ r.2.data.logOffset := by
    by_cases hr : r.1 = 0
    · rw [(hok hr).2]
      split_ifs
      · exact ⟨rfl, rfl, Nat.le_add_right _ _⟩
      · exact ⟨rfl, rfl, le_refl _⟩
    · rw [hfail hr]
      exact ⟨rfl, rfl, le_refl _⟩
  refine ⟨?_, ?_, ?_, le_trans h.log_le hdata.2.2⟩
  · rw [hfile, hdata.1]
    apply h.held.pwrite_of_disjoint
    rw [RedoHeader.length_encode]
    exact Or.inl (by omega)
  · rw [hdata.1]
    exact h.keyOffset
  · rw [hdata.2.1]
    exact h.keyb_le

theorem State.InStep.writeKeyb (h : s.InStep) : (writeKeyb s).2.InStep := by
  exact h.writeInfo h.keyb_le _ false

theorem State.InStep.rollKeyb (h : s.InStep) : (rollKeyb s).InStep := by
  unfold Redo.rollKeyb
  split_ifs
  · exact ⟨h.held, h.keyOffset, h.log_le, le_trans h.log_le (Nat.le_add_right _ _)⟩
  · exact h

theorem World.file_fsync (w : World) (fd fd' : Fd) : (w.fsync fd).2.file fd' = w.file fd' := by
  unfold World.fsync
  cases w.nextOutcome with
  | fail =>
      rfl
  | short n =>
      rfl
  | ok =>
      dsimp only
      rw [World.file_push, applyEvent_fsync]
      rfl

theorem State.InStep.rfsckFlush (h : s.InStep) : (rfsckFlush crc s).2.InStep := by
  have hkeyb : (Redo.writeKeyb (stampKeyb crc s)).2.InStep :=
    (h.congr (t := stampKeyb crc s) rfl rfl (le_refl _) (le_refl _)).writeKeyb
  unfold Redo.rfsckFlush
  dsimp only
  split_ifs
  · exact hkeyb
  · exact hkeyb.congr (World.file_fsync _ _ _) rfl (le_refl _) (le_refl _)

theorem State.InStep.rfsckTxnBegin (h : s.InStep) (retval : Int) :
    (rfsckTxnBegin crc retval s).2.InStep := by
  have hkeyb : (Redo.writeKeyb (s.begun crc)).2.InStep :=
    (h.congr (t := s.begun crc) rfl rfl (le_refl _) (le_refl _)).writeKeyb
  rw [rfsckTxnBegin_stages]
  split_ifs
  · exact h.congr rfl rfl (le_refl _) (le_refl _)
  · exact hkeyb
  · exact hkeyb.rollKeyb

theorem State.InStep.rfsckTxnEnd (h : s.InStep) : (rfsckTxnEnd crc s).2.InStep := by
  have hkeyb : (Redo.writeKeyb (s.ended crc)).2.InStep :=
    (h.congr (t := s.ended crc) rfl rfl (le_refl _) (le_refl _)).writeKeyb
  rw [rfsckTxnEnd_stages]
  split_ifs
  · exact hkeyb
  · have hroll := hkeyb.rollKeyb
    refine State.InStep.rfsckFlush ?_
    exact hroll.congr rfl rfl (le_refl _) (le_refl _)

theorem State.InStep.rfsckWrite (h : s.InStep) (req : WriteReq) :
    (rfsckWrite crc req s).2.InStep := by
  have hdata : (Redo.writeInfo .redo s.data.logOffset req.buf true (s.tagged crc req)).2.InStep :=
    (h.congr (t := s.tagged crc req) rfl rfl (le_refl _) (le_refl _)).writeInfo h.log_le _ true
  rw [rfsckWrite_stages]
  dsimp only
  generalize Redo.writeInfo .redo s.data.logOffset req.buf true (s.tagged crc req) = r at *
  have hkeyb : (Redo.writeKeyb (stampKeybReserved crc r.2)).2.InStep :=
    (hdata.congr (t := stampKeybReserved crc r.2) rfl rfl (le_refl _) (le_refl _)).writeKeyb
  split_ifs
  · exact hdata
  · exact hkeyb
  · refine State.InStep.rollKeyb ?_
    exact hkeyb.congr rfl rfl (le_refl _) (le_refl _)

theorem State.InStep.size_le (h : s.InStep) : redoHeaderSize ≤ (s.world.file .redo).size := by
  have hlen := RedoHeader.length_encode s.data.hdr
  obtain ⟨hlt, -⟩ := h.held (redoHeaderSize - 1) _ (List.getElem?_eq_getElem (by
    rw [hlen]
    decide))
  have hpos : redoHeaderSize = redoHeaderSize - 1 + 1 := by
    decide
  omega

theorem World.log_writeInfo_held (h : (s.world.file .redo).Holds 0 s.data.hdr.encode) :
    (Redo.writeInfo .redo 0 s.data.hdr.encode false s).2.world.file .redo =
      s.world.file .redo := by
  obtain ⟨rest, hrest⟩ := s.world.nextOutcome.written_isPrefix s.data.hdr.encode
  rw [writeInfo_file]
  rw [← hrest, ByteFile.holds_append] at h
  exact h.1.pwrite_eq

theorem State.InStep.putHeader (h : s.InStep) {hdr : RedoHeader}
    (hkey : hdr.keyOffset = s.data.hdr.keyOffset)
    (hwrite : s.world.nextOutcome.Transfers redoHeaderSize ∨ hdr = s.data.hdr) :
    (Redo.writeInfo .redo 0 hdr.encode false { s with data.hdr := hdr }).2.InStep := by
  have hdata := (writeInfo_cases .redo 0 hdr.encode { s with data.hdr := hdr }).2.2
  refine ⟨?_, ?_, ?_, ?_⟩
  · rw [hdata]
    rcases hwrite with hwhole | rfl
    · have hlen : hdr.encode.length = redoHeaderSize := RedoHeader.length_encode _
      rw [writeInfo_file, Outcome.written_of_transfers (by
        rw [hlen]
        exact redoHeaderSize_le_maxRwCount) (by
        rw [hlen]
        exact hwhole)]
      exact ByteFile.holds_pwrite_self _ _ _
    · rw [World.log_writeInfo_held h.held]
      exact h.held
  · rw [hdata, hkey]
    exact h.keyOffset
  · rw [hdata]
    exact h.keyb_le
  · rw [hdata]
    exact h.log_le

/-- The stages of `redo_mark_done`. -/
theorem redoMarkDone_stages (done : Bool) (s : State) :
    let r₁ := Redo.writeKeyb (stampKeyb crc s)
    let r₂ := Redo.rfsckFlush crc r₁.2
    let r₃ := Redo.writeInfo .redo 0 (r₂.2.doneHeader crc done).encode false
      { r₂.2 with data.hdr := r₂.2.doneHeader crc done }
    Redo.redoMarkDone crc done s =
      if r₁.1 ≠ 0 then r₁
      else if r₂.1 ≠ 0 then r₂
      else if r₃.1 ≠ 0 then r₃
      else Redo.rfsckFlush crc r₃.2 := by
  unfold Redo.redoMarkDone State.doneHeader
  dsimp only

/-- `redo_mark_done`, if its header gets to the log. -/
theorem State.InStep.redoMarkDone (h : s.InStep) {done : Bool}
    (hsound : ReachesHeader s.world →
      (s.world.outcomeAt 3).Transfers redoHeaderSize ∨ s.doneHeader crc done = s.data.hdr) :
    (redoMarkDone crc done s).2.InStep := by
  have hstamped := h.congr (t := stampKeyb crc s) rfl rfl (le_refl _) (le_refl _)
  have hin₁ := hstamped.writeKeyb
  obtain ⟨_, hfst₁, hnext₁, hdata₁, hsize₁⟩ :=
    writeKeyb_steps (s := stampKeyb crc s) h.keyb_le h.size_le
  rw [redoMarkDone_stages]
  dsimp only
  generalize Redo.writeKeyb (stampKeyb crc s) = x at *
  obtain ⟨r₁, s₁⟩ := x
  dsimp only at hin₁ hfst₁ hnext₁ hdata₁ hsize₁ ⊢
  by_cases hr₁ : r₁ ≠ 0
  · rw [if_pos hr₁]
    exact hin₁
  rw [if_neg hr₁]
  have hin₂ := @State.InStep.rfsckFlush crc s₁ hin₁
  obtain ⟨_, hfst₂, hnext₂, hdata₂, hsize₂⟩ := rfsckFlush_steps crc hin₁.keyb_le hsize₁
  generalize Redo.rfsckFlush crc s₁ = x at *
  obtain ⟨r₂, s₂⟩ := x
  dsimp only at hin₂ hfst₂ hnext₂ hdata₂ hsize₂ ⊢
  rw [hnext₁, hnext₁] at hfst₂
  by_cases hr₂ : r₂ ≠ 0
  · rw [if_pos hr₂]
    exact hin₂
  rw [if_neg hr₂]
  have hreaches : ReachesHeader s.world :=
    ⟨hfst₁.mp (not_not.mp hr₁), hfst₂.mp (not_not.mp hr₂)⟩
  have hheader : s₂.doneHeader crc done = s.doneHeader crc done := by
    refine doneHeader_congr crc ?_ ?_ done
    · rw [hdata₂, stampKeyb, hdata₁]
      rfl
    · rw [hdata₂, stampKeyb, hdata₁]
      rfl
  have hfourth : s₂.world.nextOutcome = s.world.outcomeAt 3 := by
    rw [World.nextOutcome_eq, hnext₂ (not_not.mp hr₂), hnext₁]
    rfl
  have hput : (Redo.writeInfo .redo 0 (s₂.doneHeader crc done).encode false
      { s₂ with data.hdr := s₂.doneHeader crc done }).2.InStep := by
    refine hin₂.putHeader rfl ?_
    rw [hfourth, hheader, hdata₂, stampKeyb, hdata₁]
    exact hsound hreaches
  generalize Redo.writeInfo .redo 0 (s₂.doneHeader crc done).encode false
    { s₂ with data.hdr := s₂.doneHeader crc done } = r₃ at *
  split_ifs
  · exact hput
  · exact hput.rfsckFlush

end Writer

section Replay

/-- The variables that say where the replayer writes to the log, and the log, are the
same. -/
structure Replay.SameLog (r r' : Replay) : Prop where
  sameBegin : r.SameBegin r'
  keys_eq : r'.keysOffset = r.keysOffset
  log_eq : r'.logOffset = r.logOffset
  file_eq : r'.world.file .redo = r.world.file .redo

theorem Replay.SameLog.refl (r : Replay) : r.SameLog r := by
  exact ⟨Replay.SameBegin.refl r, rfl, rfl, rfl⟩

theorem Replay.SameLog.trans {r r' r'' : Replay} (h : r.SameLog r') (h' : r'.SameLog r'') :
    r.SameLog r'' := by
  exact ⟨h.sameBegin.trans h'.sameBegin, h'.keys_eq.trans h.keys_eq, h'.log_eq.trans h.log_eq,
    h'.file_eq.trans h.file_eq⟩

/-- A computation of the replayer goes on, or ends the replay, with the same log. -/
def StaysOnLog {α : Type} (r₀ : Replay) (f : α → Replay) : Except Replay α → Prop
  | .ok a => r₀.SameLog (f a)
  | .error r => r₀.SameLog r

theorem StaysOnLog.bind
    {α β : Type} {r₀ : Replay} {f : α → Replay} {g : β → Replay}
    {x : Except Replay α} {k : α → Except Replay β}
    (hx : StaysOnLog r₀ f x) (hk : ∀ a, StaysOnLog (f a) g (k a)) :
    StaysOnLog r₀ g (x >>= k) := by
  cases x with
  | error r =>
      exact hx
  | ok a =>
      have hka := hk a
      change StaysOnLog r₀ g (k a)
      cases hk' : k a with
      | error r =>
          rw [hk'] at hka
          exact Replay.SameLog.trans hx hka
      | ok b =>
          rw [hk'] at hka
          exact Replay.SameLog.trans hx hka

theorem World.file_pread (w : World) (fd : Fd) (off n : Nat) (fd' : Fd) :
    (w.pread fd off n).2.file fd' = w.file fd' := by
  unfold World.pread
  cases w.nextOutcome with
  | fail =>
      rfl
  | short k =>
      rfl
  | ok =>
      rfl

theorem Replay.sameLog_writeDev (fd off : Nat) (buf : Bytes) (r : Replay) :
    r.SameLog (r.writeInfo (.dev fd) off buf) := by
  refine ⟨Replay.sameBegin_writeInfo _ _ _ _, rfl, rfl, ?_⟩
  have hworld := (writeInfo_cases (.dev fd) off buf r.state).2.1
  change (Redo.writeInfo (.dev fd) off buf false r.state).2.world.file .redo = _
  rw [hworld]
  unfold World.pwrite
  cases r.state.world.nextOutcome with
  | fail =>
      rfl
  | short n =>
      dsimp only
      rw [World.file_push]
      rfl
  | ok =>
      dsimp only
      rw [World.file_push]
      rfl

theorem replayData_onLog (i j : Nat) (r : Replay) : StaysOnLog r id (replayData i j r) := by
  have hfile := World.file_pread r.world .redo r.replayLogOffset
    ((r.replayBlocks i).tag j).size.toNat .redo
  unfold replayData
  dsimp only
  cases hread : r.world.pread .redo r.replayLogOffset
      ((r.replayBlocks i).tag j).size.toNat with
  | mk got world =>
      rw [hread] at hfile
      have hstart : r.SameLog { r with world := world } :=
        ⟨Replay.SameBegin.refl r, rfl, rfl, hfile⟩
      cases got with
      | none =>
          exact hstart.trans ⟨⟨rfl, rfl, rfl⟩, rfl, rfl, rfl⟩
      | some bytes =>
          have hwrite := hstart.trans (Replay.sameLog_writeDev r.data.devFd
            ((r.replayBlocks i).tag j).offset.toNat
            (bytes ++ (r.world.malloc .dataBlock ((r.replayBlocks i).tag j).size.toNat).drop
              bytes.length) { r with world := world })
          dsimp only
          split_ifs
          · exact hwrite
          · exact hwrite.trans ⟨⟨rfl, rfl, rfl⟩, rfl, rfl, rfl⟩

theorem replayWhile_onLog (i count n j : Nat) (r : Replay) :
    StaysOnLog r Prod.snd (replayWhile i count n j r) := by
  induction n generalizing j r with
  | zero =>
      exact ⟨⟨rfl, rfl, rfl⟩, rfl, rfl, rfl⟩
  | succ n ih =>
      rw [replayWhile]
      split_ifs
      · exact Replay.SameLog.refl r
      · exact (replayData_onLog i j r).bind fun r' => ih (j + 1) r'

theorem replayFor_onLog (count n i : Nat) (r : Replay) :
    StaysOnLog r id (replayFor count n i r) := by
  induction n generalizing i r with
  | zero =>
      exact Replay.SameLog.refl r
  | succ n ih =>
      rw [replayFor]
      refine (replayWhile_onLog i count _ _ r).bind fun x => ?_
      obtain ⟨done, r'⟩ := x
      cases done with
      | true =>
          exact Replay.SameLog.refl r'
      | false =>
          exact ih (i + 1) r'

/-- The log starts with the header `hdr`, and the first `m` key blocks that the replayer has
met and the place where it goes on lie behind it. -/
structure Replay.Behind (hdr : RedoHeader) (m : Nat) (r : Replay) : Prop where
  held : (r.world.file .redo).Holds 0 hdr.encode
  before : r.BeginBefore
  keys_le : ∀ k < m, redoHeaderSize ≤ r.keysOffset k
  log_le : redoHeaderSize ≤ r.logOffset

/-- A computation of the replayer goes on behind the header in key block `k`, or ends the
replay with the header in place. -/
def StaysBehind (hdr : RedoHeader) (k : Nat) : Except Replay Replay → Prop
  | .ok r => r.Behind hdr (k + 1) ∧ r.keybCount = k
  | .error r => (r.world.file .redo).Holds 0 hdr.encode

variable {crc : Bytes → UInt32} {hdr : RedoHeader} {m : Nat}

theorem Replay.Behind.same {r r' : Replay} (h : r.Behind hdr m) (hsame : r.SameLog r') :
    r'.Behind hdr m := by
  refine ⟨?_, h.before.same hsame.sameBegin, ?_, ?_⟩
  · rw [hsame.file_eq]
    exact h.held
  · rw [hsame.keys_eq]
    exact h.keys_le
  · rw [hsame.log_eq]
    exact h.log_le

theorem Replay.Behind.markReplayed {r : Replay} (h : r.Behind hdr (r.keybCount + 1)) :
    (markReplayed r).Behind hdr (r.keybCount + 1) := by
  refine ⟨?_, ⟨Nat.zero_le _, show 0 < keysPerBlock by decide⟩, h.keys_le, h.log_le⟩
  have hplace := h.keys_le r.data.txnBeginBlk (Nat.lt_succ_of_le h.before.blk)
  have hfile := writeInfo_file (r.keysOffset r.data.txnBeginBlk) (markedBlock r).encode r.state
  change (Redo.writeInfo .redo (r.keysOffset r.data.txnBeginBlk) (markedBlock r).encode false
    r.state).2.world.file .redo |>.Holds 0 hdr.encode
  rw [hfile]
  apply h.held.pwrite_of_disjoint
  rw [RedoHeader.length_encode]
  exact Or.inl (by omega)

theorem Replay.Behind.atTxnEnd {r : Replay} (h : r.Behind hdr m) (count : Nat) :
    (atTxnEnd crc count r).Behind hdr m := by
  have hle := Nat.le_add_right r.logOffset (r.keyb.tag count).size.toNat
  unfold Redo.atTxnEnd checkTxnEnd
  dsimp only
  split_ifs
  · exact ⟨h.held, ⟨h.before.blk, h.before.idx⟩, h.keys_le, le_trans h.log_le hle⟩
  · exact ⟨h.held, ⟨h.before.blk, h.before.idx⟩, h.keys_le, le_trans h.log_le hle⟩

theorem replayTag_behind {count : Nat} {r : Replay} (hcount : count < keysPerBlock)
    (h : r.Behind hdr (r.keybCount + 1)) :
    StaysBehind hdr r.keybCount (replayTag crc count r) := by
  by_cases hends : EndsTxn count r
  · have hend : (atTxnEnd crc count r).Behind hdr (r.keybCount + 1) := h.atTxnEnd count
    have hkeyb : (atTxnEnd crc count r).keybCount = r.keybCount :=
      (sameBegin_checkTxnEnd crc count _ _).2.2
    have hcopy := replayFor_onLog count
      ((atTxnEnd crc count r).keybCount + 1 - (atTxnEnd crc count r).data.txnBeginBlk)
      (atTxnEnd crc count r).data.txnBeginBlk (atTxnEnd crc count r)
    rw [replayTag_of_endsTxn hends]
    change StaysOnLog _ id (copyTxn count (atTxnEnd crc count r)) at hcopy
    cases hrun : copyTxn count (atTxnEnd crc count r) with
    | error r' =>
        rw [hrun] at hcopy
        exact (hend.same hcopy).held
    | ok r' =>
        rw [hrun] at hcopy
        have hkeyb' : r'.keybCount = r.keybCount := hcopy.sameBegin.2.2.trans hkeyb
        have hmark := hend.same hcopy
        rw [← hkeyb'] at hmark ⊢
        exact ⟨hmark.markReplayed, rfl⟩
  · obtain ⟨r', hr', _, hworld, hkeys, hlog⟩ := @replayTag_of_not_endsTxn crc count r hends
    obtain ⟨hbefore, hkeyb⟩ := beginBefore_replayTag hcount h.before hr'
    rw [hr']
    refine ⟨⟨?_, hbefore, ?_, le_trans h.log_le hlog⟩, hkeyb⟩
    · rw [hworld]
      exact h.held
    · rw [hkeys]
      exact h.keys_le

theorem replayTags_behind {n count : Nat} {r : Replay} (hcount : count + n ≤ keysPerBlock)
    (h : r.Behind hdr (r.keybCount + 1)) :
    StaysBehind hdr r.keybCount (replayTags crc n count r) := by
  induction n generalizing count r with
  | zero =>
      exact ⟨h, rfl⟩
  | succ n ih =>
      have hone := @replayTag_behind crc hdr count r (by omega) h
      rw [replayTags]
      cases htag : replayTag crc count r with
      | error r' =>
          rw [htag] at hone
          exact hone
      | ok r' =>
          rw [htag] at hone
          obtain ⟨hbehind, hkeyb⟩ := hone
          have hrest := @ih (count + 1) r' (by omega) (by rw [hkeyb]; exact hbehind)
          rw [hkeyb] at hrest
          exact hrest

theorem loadKeyb_behind {r : Replay} (h : r.Behind hdr r.keybCount) :
    StaysBehind hdr r.keybCount (loadKeyb r) := by
  have hfile := World.file_pread r.world .redo r.logOffset redoLogBlockSize .redo
  unfold loadKeyb
  cases hread : r.world.pread .redo r.logOffset redoLogBlockSize with
  | mk got world =>
      rw [hread] at hfile
      have hheld : (world.file .redo).Holds 0 hdr.encode := by
        rw [hfile]
        exact h.held
      cases got with
      | none =>
          exact hheld
      | some bytes =>
          refine ⟨⟨hheld, ⟨h.before.blk, h.before.idx⟩, ?_, ?_⟩, rfl⟩
          · intro k hk
            dsimp only
            by_cases hnew : k = r.keybCount
            · rw [hnew, Function.update_self]
              exact h.log_le
            · rw [Function.update_of_ne hnew]
              exact h.keys_le k (by omega)
          · exact le_trans h.log_le (Nat.le_add_right _ _)

theorem replayKeyBlocks_behind {n : Nat} {r : Replay} (h : r.Behind hdr r.keybCount) :
    match replayKeyBlocks crc n r with
    | .ok r' => (r'.world.file .redo).Holds 0 hdr.encode
    | .error r' => (r'.world.file .redo).Holds 0 hdr.encode := by
  induction n generalizing r with
  | zero =>
      exact h.held
  | succ n ih =>
      have hload := loadKeyb_behind h
      rw [replayKeyBlocks]
      cases hrun : loadKeyb r with
      | error r' =>
          rw [hrun] at hload
          exact hload
      | ok r₁ =>
          rw [hrun] at hload
          obtain ⟨hbehind₁, hkeyb₁⟩ := hload
          have htags := @replayTags_behind crc hdr keysPerBlock 0 r₁ (by omega)
            (by rw [hkeyb₁]; exact hbehind₁)
          rw [ok_bind]
          cases hrun' : replayTags crc keysPerBlock 0 r₁ with
          | error r' =>
              rw [hrun'] at htags
              exact htags
          | ok r₂ =>
              rw [hrun'] at htags
              obtain ⟨hbehind₂, hkeyb₂⟩ := htags
              rw [ok_bind]
              refine ih ⟨hbehind₂.held, ⟨?_, hbehind₂.before.idx⟩, ?_, hbehind₂.log_le⟩
              · exact le_trans hbehind₂.before.blk (Nat.le_succ _)
              · dsimp only
                rw [hkeyb₂]
                exact hbehind₂.keys_le

theorem State.InStep.readHeader_eq {s : State} (h : s.InStep) {bytes : Bytes} {w : World}
    (hread : s.world.pread .redo 0 redoHeaderSize = (some bytes, w))
    (hlen : bytes.length = redoHeaderSize) : readHeader s.world bytes = s.data.hdr := by
  have hfile : ((s.world.file .redo).pread 0 redoHeaderSize).length = redoHeaderSize := by
    rw [ByteFile.pread_of_holds_length h.held (RedoHeader.length_encode _)]
    exact RedoHeader.length_encode _
  have hbytes := (World.pread_eq_iff s.world .redo 0 redoHeaderSize
    redoHeaderSize_le_maxRwCount).mpr (by
      rw [hread, hfile]
      exact congrArg some hlen)
  rw [hread] at hbytes
  rw [Option.some.inj hbytes]
  exact World.header_of_holds h.held

theorem State.InStep.header_eq {s : State} (h : s.InStep) : s.world.header = s.data.hdr := by
  exact World.header_of_holds h.held

/-- **A replay** leaves the header in memory and in the log, whatever its system calls do. -/
theorem State.InStep.rfsckReplay {s : State} (h : s.InStep) (sync : Bool)
    (hsound : HeaderReadWhole crc s.world) : (rfsckReplay crc sync s).2.InStep := by
  obtain ⟨hidle, -⟩ := rfsckReplay_stays crc sync s
  have hhdr : (Redo.rfsckReplay crc sync s).2.data.hdr = s.data.hdr :=
    RedoPrivateData.hdr_of_idle hidle
  have hkeyb : (Redo.rfsckReplay crc sync s).2.data.redoBlockOffset = s.data.redoBlockOffset := by
    have hfield := congrArg RedoPrivateData.redoBlockOffset hidle
    exact hfield
  have hlog : (Redo.rfsckReplay crc sync s).2.data.logOffset = s.data.logOffset := by
    have hfield := congrArg RedoPrivateData.logOffset hidle
    exact hfield
  have hheld : ((Redo.rfsckReplay crc sync s).2.world.file .redo).Holds 0 s.data.hdr.encode := by
    have hfile := World.file_pread s.world .redo 0 redoHeaderSize .redo
    cases hread : s.world.pread .redo 0 redoHeaderSize with
    | mk got w =>
        rw [hread] at hfile
        have hstart : (w.file .redo).Holds 0 s.data.hdr.encode := by
          rw [hfile]
          exact h.held
        cases got with
        | none =>
            rw [Redo.rfsckReplay, hread]
            exact hstart
        | some bytes =>
            have hrun := @rfsckReplay_of_read crc sync s bytes w hread
            by_cases hfinished : (readHeader s.world bytes).Finished crc
            · rw [hrun.1 hfinished, h.readHeader_eq hread (hsound bytes w hread hfinished)]
              have hwalk := @replayKeyBlocks_behind crc s.data.hdr s.data.hdr.visited
                (startReplay s.data.hdr bytes.length { s with world := w })
                ⟨hstart, ⟨le_refl 0, show 0 < keysPerBlock by decide⟩,
                  fun k hk => absurd hk (Nat.not_lt_zero k), le_of_eq h.keyOffset.symm⟩
              cases hend : replayKeyBlocks crc s.data.hdr.visited
                  (startReplay s.data.hdr bytes.length { s with world := w }) with
              | error r =>
                  rw [hend] at hwalk
                  exact hwalk
              | ok r =>
                  rw [hend] at hwalk
                  cases sync with
                  | false =>
                      exact hwalk
                  | true =>
                      rw [finishReplay]
                      dsimp only
                      rw [if_pos rfl, World.file_fsync]
                      exact hwalk
            · obtain ⟨msg, hresult⟩ := hrun.2 hfinished
              rw [hresult]
              exact hstart
  refine ⟨?_, ?_, ?_, ?_⟩
  · rw [hhdr]
    exact hheld
  · rw [hhdr]
    exact h.keyOffset
  · rw [hkeyb]
    exact h.keyb_le
  · rw [hlog]
    exact h.log_le

end Replay

section Session

variable {crc : Bytes → UInt32} {s : State}

theorem State.InStep.callRun (h : s.InStep) {c : Call} (hsound : (Step.call c).Sound crc s) :
    (c.run crc s).2.InStep := by
  cases c with
  | txnBegin =>
      exact h.rfsckTxnBegin 0
  | write req =>
      exact h.rfsckWrite req
  | txnEnd =>
      exact h.rfsckTxnEnd
  | flush =>
      exact h.rfsckFlush
  | markDone done =>
      exact h.redoMarkDone hsound
  | replay sync =>
      exact h.rfsckReplay sync hsound

theorem Untouched.refl (s : State) : Untouched s s := by
  exact ⟨rfl, rfl, fun _ => rfl⟩

theorem Untouched.trans {s' s'' : State} (h : Untouched s s') (h' : Untouched s' s'') :
    Untouched s s'' := by
  exact ⟨h'.data_eq.trans h.data_eq, h'.log_eq.trans h.log_eq,
    fun fd => (h'.dev_eq fd).trans (h.dev_eq fd)⟩

theorem State.InStep.untouched {s' : State} (h : s.InStep) (hsame : Untouched s s') :
    s'.InStep := by
  have hdata := hsame.data_eq
  exact h.congr hsame.log_eq (by rw [hdata]) (by rw [hdata]) (by rw [hdata])

theorem World.file_openRedo (w : World) (fd : Fd) : w.openRedo.2.file fd = w.file fd := by
  unfold World.openRedo
  cases w.nextOutcome with
  | fail =>
      rfl
  | short n =>
      rfl
  | ok =>
      rfl

/-- A further `rfsck_open` gets no further than its `open` calls, or it replays and writes
the header from the state that there is. -/
theorem reopen_cases (crc : Bytes → UInt32) (o : Reopening) (s : State) :
    Untouched s (reopen crc o s) ∨
      ∃ w v, s.world.openRedo = (true, w) ∧ w.openRedo = (true, v) ∧
        (reopen crc o s).data = (firstOpen crc { s with world := v }).2.data ∧
        (reopen crc o s).world = (firstOpen crc { s with world := v }).2.world := by
  have hfile := World.file_openRedo s.world
  unfold reopen rfsckOpen
  by_cases hname : o.redo = none
  · rw [if_pos hname]
    exact Or.inl ⟨rfl, rfl, fun _ => rfl⟩
  by_cases hdev : o.devFd < 1
  · rw [if_neg hname, if_pos hdev]
    exact Or.inl ⟨rfl, rfl, fun _ => rfl⟩
  rw [if_neg hname, if_neg hdev]
  cases hopen : s.process.world.openRedo with
  | mk opened w =>
      have hw : ∀ fd, w.file fd = s.world.file fd := by
        intro fd
        rw [← hfile fd]
        exact congrArg (fun x => World.file x.2 fd) hopen.symm
      cases opened with
      | false =>
          exact Or.inl ⟨rfl, hw .redo, fun fd => hw (.dev fd)⟩
      | true =>
          have hfile' := World.file_openRedo w
          dsimp only
          cases hopen' : w.openRedo with
          | mk opened' v =>
              rw [hopen'] at hfile'
              cases opened' with
              | false =>
                  exact Or.inl ⟨rfl, (hfile' .redo).trans (hw .redo),
                    fun fd => (hfile' _).trans (hw (.dev fd))⟩
              | true =>
                  refine Or.inr ⟨w, v, hopen, hopen', ?_⟩
                  dsimp only
                  split_ifs
                  · exact ⟨rfl, rfl⟩
                  · exact ⟨rfl, rfl⟩

theorem State.InStep.firstOpen (h : s.InStep) (hsound : HeaderReadWhole crc s.world)
    (hunfinished : ¬ s.world.header.Finished crc) :
    Untouched s (firstOpen crc s).2 := by
  have hreplay : Untouched s (Redo.rfsckReplay crc true s).2 := by
    have hfile := World.file_pread s.world .redo 0 redoHeaderSize
    cases hread : s.world.pread .redo 0 redoHeaderSize with
    | mk got w =>
        rw [hread] at hfile
        cases got with
        | none =>
            rw [Redo.rfsckReplay, hread]
            exact ⟨rfl, hfile .redo, fun fd => hfile (.dev fd)⟩
        | some bytes =>
            have hno : ¬ (readHeader s.world bytes).Finished crc := by
              intro hfinished
              rw [h.readHeader_eq hread (hsound bytes w hread hfinished)] at hfinished
              rw [h.header_eq] at hunfinished
              exact hunfinished hfinished
            obtain ⟨msg, hresult⟩ := (@rfsckReplay_of_read crc true s bytes w hread).2 hno
            rw [hresult]
            exact ⟨rfl, hfile .redo, fun fd => hfile (.dev fd)⟩
  have hin := h.untouched hreplay
  refine hreplay.trans ?_
  unfold Redo.firstOpen
  exact ⟨(writeInfo_cases _ _ _ _).2.2, World.log_writeInfo_held hin.held,
    fun fd => writeInfo_dev _ _ _ fd⟩

/-- **A further `rfsck_open`** changes nothing while the log is not FINISHED. -/
theorem State.InStep.reopen (h : s.InStep) {o : Reopening}
    (hsound : (Step.reopen o).Sound crc s) (hunfinished : ¬ s.world.header.Finished crc) :
    Untouched s (reopen crc o s) := by
  rcases reopen_cases crc o s with hsame | ⟨w, v, hopen, hopen', hdata, hworld⟩
  · exact hsame
  · have hfile : ∀ fd, v.file fd = s.world.file fd := by
      intro fd
      have hfirst := World.file_openRedo s.world fd
      have hsecond := World.file_openRedo w fd
      rw [hopen] at hfirst
      rw [hopen'] at hsecond
      exact hsecond.trans hfirst
    have hsame : Untouched s { s with world := v } :=
      ⟨rfl, hfile .redo, fun fd => hfile (.dev fd)⟩
    have hin := h.untouched hsame
    have hheader : ({ s with world := v } : State).world.header = s.world.header := by
      rw [hin.header_eq, h.header_eq]
    have hfirst := hin.firstOpen (hsound w v hopen hopen') (by
      rw [hheader]
      exact hunfinished)
    refine hsame.trans ⟨?_, ?_, ?_⟩
    · rw [hdata]
      exact hfirst.data_eq
    · rw [hworld]
      exact hfirst.log_eq
    · intro fd
      rw [hworld]
      exact hfirst.dev_eq fd

/-- A further `rfsck_open` writes the header that the log starts with, FINISHED or not. -/
theorem State.InStep.stepReopen (h : s.InStep) {o : Reopening}
    (hsound : (Step.reopen o).Sound crc s) : (Redo.reopen crc o s).InStep := by
  rcases reopen_cases crc o s with hsame | ⟨w, v, hopen, hopen', hdata, hworld⟩
  · exact h.untouched hsame
  · have hfile : v.file .redo = s.world.file .redo := by
      have hfirst := World.file_openRedo s.world .redo
      have hsecond := World.file_openRedo w .redo
      rw [hopen] at hfirst
      rw [hopen'] at hsecond
      exact hsecond.trans hfirst
    have hin : ({ s with world := v } : State).InStep :=
      h.congr hfile rfl (le_refl _) (le_refl _)
    have hreplay := hin.rfsckReplay true (hsound w v hopen hopen')
    have hwritten : (Redo.firstOpen crc { s with world := v }).2.data =
        (Redo.rfsckReplay crc true { s with world := v }).2.data := (writeInfo_cases _ _ _ _).2.2
    refine hreplay.congr ?_ ?_ ?_ ?_
    · rw [hworld]
      exact World.log_writeInfo_held hreplay.held
    · rw [hdata, hwritten]
    · rw [hdata, hwritten]
    · rw [hdata, hwritten]

theorem State.InStep.runSteps {steps : List Step} (h : s.InStep)
    (hsound : SoundRun crc steps s) : (runSteps crc steps s).InStep := by
  induction steps generalizing s with
  | nil =>
      exact h
  | cons step steps ih =>
      obtain ⟨hstep, hrest⟩ := hsound
      refine ih ?_ hrest
      cases step with
      | call c =>
          exact h.callRun hstep
      | reopen o =>
          exact h.stepReopen hstep

theorem State.InStep.runReopenings {os : List Reopening} (h : s.InStep)
    (hunfinished : ¬ s.world.header.Finished crc)
    (hsound : SoundRun crc (os.map Step.reopen) s) :
    Untouched s (Redo.runSteps crc (os.map Step.reopen) s) := by
  induction os generalizing s with
  | nil =>
      exact Untouched.refl s
  | cons o os ih =>
      obtain ⟨hstep, hrest⟩ := hsound
      have hone := h.reopen hstep hunfinished
      have hin := h.untouched hone
      refine hone.trans (ih hin ?_ hrest)
      have hheader : (Redo.reopen crc o s).world.header = s.world.header := by
        rw [hin.header_eq, h.header_eq]
        exact congrArg RedoPrivateData.hdr hone.data_eq
      rw [hheader]
      exact hunfinished

/-- The end of a first `rfsck_open`: a header that is written in full. -/
theorem inStep_firstOpen {devFd : Nat} {raw : RedoPrivateData} {w : World} {out : List Message}
    (hwrite : (firstOpen crc (setupState crc devFd raw w out)).1 = 0) :
    (firstOpen crc (setupState crc devFd raw w out)).2.InStep := by
  obtain ⟨hidle, -⟩ := rfsckReplay_stays crc true (setupState crc devFd raw w out)
  unfold Redo.firstOpen at hwrite ⊢
  dsimp only at hwrite ⊢
  generalize Redo.rfsckReplay crc true (setupState crc devFd raw w out) = x at *
  obtain ⟨r, s'⟩ := x
  have hhdr : s'.data.hdr = (redoSetup crc devFd raw).hdr := RedoPrivateData.hdr_of_idle hidle
  have hkeyb : s'.data.redoBlockOffset = redoHeaderSize := by
    have hfield := congrArg RedoPrivateData.redoBlockOffset hidle
    exact hfield
  have hlog : s'.data.logOffset = redoHeaderSize + redoLogBlockSize := by
    have hfield := congrArg RedoPrivateData.logOffset hidle
    exact hfield
  obtain ⟨n, hfile, hok, -⟩ := writeInfo_take 0 s'.data.hdr.encode false s'
  obtain ⟨htake, hdata⟩ := hok hwrite
  rw [if_neg Bool.false_ne_true] at hdata
  refine ⟨?_, ?_, ?_, ?_⟩
  · rw [hfile, hdata, htake]
    exact ByteFile.holds_pwrite_self _ _ _
  · rw [hdata, hhdr]
    rfl
  · rw [hdata, hkeyb]
  · rw [hdata, hlog]
    exact Nat.le_add_right _ _

/-- A first `rfsck_open` that succeeds leaves its header in the log. -/
theorem inStep_of_rfsckOpen {redo : Option String} {devFd : Nat} {raw : RedoPrivateData}
    {w : World} {out : List Message}
    (hopen : rfsckOpen crc redo devFd raw { redoData := none, world := w, out := out } =
      (0, s.process)) : s.InStep := by
  unfold rfsckOpen at hopen
  by_cases hname : redo = none
  · rw [if_pos hname] at hopen
    exact absurd (congrArg Prod.fst hopen) one_ne_zero
  by_cases hdev : devFd < 1
  · rw [if_neg hname, if_pos hdev] at hopen
    exact absurd (congrArg Prod.fst hopen) one_ne_zero
  rw [if_neg hname, if_neg hdev] at hopen
  dsimp only at hopen
  cases hfirst : w.openRedo with
  | mk opened w₁ =>
      rw [hfirst] at hopen
      cases opened with
      | false =>
          exact absurd (congrArg Prod.fst hopen) one_ne_zero
      | true =>
          dsimp only at hopen
          cases hsecond : w₁.openRedo with
          | mk opened' w₂ =>
              rw [hsecond] at hopen
              cases opened' with
              | false =>
                  exact absurd (congrArg Prod.fst hopen) one_ne_zero
              | true =>
                  have hin := @inStep_firstOpen crc devFd raw w₂ out
                  change (if (Redo.firstOpen crc (setupState crc devFd raw w₂ out)).1 ≠ 0
                    then _ else _) = _ at hopen
                  split_ifs at hopen with hretval
                  · exact absurd (congrArg Prod.fst hopen) hretval
                  · have hstate := State.process_injective (congrArg Prod.snd hopen)
                    rw [← hstate]
                    exact hin (not_not.mp hretval)

/-- **Opening more channels.**  In every state of a session whose steps meet the condition,
further calls of `rfsck_open` leave `redo_data`, the log and the devices alone as long as
the header in the log is not FINISHED. -/
theorem further_opens_untouched {redo : Option String} {devFd : Nat} {raw : RedoPrivateData}
    {w : World} {out : List Message}
    (hopen : rfsckOpen crc redo devFd raw { redoData := none, world := w, out := out } =
      (0, s.process))
    {steps : List Step} (hsteps : SoundRun crc steps s)
    (hunfinished : ¬ (runSteps crc steps s).world.header.Finished crc)
    {os : List Reopening} (hos : SoundRun crc (os.map Step.reopen) (runSteps crc steps s)) :
    Untouched (runSteps crc steps s)
      (runSteps crc (os.map Step.reopen) (runSteps crc steps s)) := by
  exact ((inStep_of_rfsckOpen hopen).runSteps hsteps).runReopenings hunfinished hos

theorem State.InStep.headerReadWhole (h : s.InStep) (hout : s.world.outcomes = []) :
    HeaderReadWhole crc s.world := by
  intro bytes w hread _
  rw [World.pread_of_outcomes_nil hout] at hread
  cases hread
  rw [min_eq_left redoHeaderSize_le_maxRwCount,
    ByteFile.pread_of_holds_length h.held (RedoHeader.length_encode _)]
  exact RedoHeader.length_encode _

theorem rfsckTxnBegin_hdr (retval : Int) (s : State) :
    (rfsckTxnBegin crc retval s).2.data.hdr = s.data.hdr := by
  have hkeyb := writeKeyb_data (s.begun crc)
  have hroll : ∀ s : State, (rollKeyb s).data.hdr = s.data.hdr := by
    intro s
    unfold rollKeyb
    split_ifs
    · rfl
    · rfl
  rw [rfsckTxnBegin_stages]
  split_ifs
  · rfl
  · rw [hkeyb]
    rfl
  · rw [hroll, hkeyb]
    rfl

end Session

/-- The arguments of a further `rfsck_open` on the same file. -/
def sameFile : Reopening where
  redo := some "redo"
  devFd := 1
  raw := blankData

section Failing

variable {crc : Bytes → UInt32}

/-- From now on every system call succeeds. -/
def World.AllOk (w : World) : Prop :=
  ∀ n, w.outcomeAt n = .ok

theorem World.AllOk.next {w : World} (h : w.AllOk) : w.nextOutcome = .ok := by
  rw [World.nextOutcome_eq]
  exact h 0

theorem World.AllOk.advance {w : World} (h : w.AllOk) : w.advance.AllOk := by
  intro n
  rw [World.outcomeAt_of_tail (w := w) rfl]
  exact h (n + 1)

theorem World.AllOk.openRedo {w : World} (h : w.AllOk) : w.openRedo = (true, w.advance) := by
  rw [World.openRedo, h.next]

/-- Then a further `rfsck_open` writes the header in memory. -/
theorem reopen_file_of_allOk {s : State} (hok : s.world.AllOk)
    (hunfinished : ¬ s.world.header.Finished crc) :
    (reopen crc sameFile s).world.file .redo =
      (s.world.file .redo).pwrite 0 s.data.hdr.encode := by
  have hworld := rfsckOpen_world crc "redo" (le_refl 1) blankData (p := s.process)
    hok.openRedo hok.advance.openRedo
  have hread : s.world.advance.advance.pread .redo 0 redoHeaderSize =
      (some ((s.world.file .redo).pread 0 redoHeaderSize), s.world.advance.advance.advance) := by
    rw [World.pread, hok.advance.advance.next, min_eq_left redoHeaderSize_le_maxRwCount]
    rfl
  have hlen := RedoHeader.length_encode s.data.hdr
  obtain ⟨msg, hreplay⟩ := (@rfsckReplay_of_read crc true
    (openState crc 1 blankData s.process s.world.advance.advance) _ _ hread).2 hunfinished
  change (rfsckOpen crc (some "redo") 1 blankData s.process).2.world.file .redo = _
  rw [hworld, firstOpen, hreplay, writeInfo_file, Outcome.written_of_transfers]
  · rfl
  · exact le_of_eq_of_le hlen redoHeaderSize_le_maxRwCount
  · change Outcome.Transfers _ s.world.advance.advance.advance.nextOutcome
    rw [hok.advance.advance.advance.next]
    trivial

/-- A `redo_mark_done(1)` of which only the write of the header fails. -/
theorem redoMarkDone_header_fails {s : State} (h : s.InStep) (hreaches : ReachesHeader s.world)
    (hfail : s.world.outcomeAt 3 = .fail) (hlater : ∀ n, s.world.outcomeAt (n + 4) = .ok) :
    (redoMarkDone crc true s).2.data.hdr = s.doneHeader crc true ∧
      (redoMarkDone crc true s).2.world.header = s.data.hdr ∧
      (redoMarkDone crc true s).2.world.AllOk := by
  have hstamped := h.congr (t := stampKeyb crc s) rfl rfl (le_refl _) (le_refl _)
  have hin₁ := hstamped.writeKeyb
  obtain ⟨_, hfst₁, hnext₁, hdata₁, hsize₁⟩ :=
    writeKeyb_steps (s := stampKeyb crc s) h.keyb_le h.size_le
  rw [redoMarkDone_stages]
  dsimp only
  generalize writeKeyb (stampKeyb crc s) = x at *
  obtain ⟨r₁, s₁⟩ := x
  dsimp only at hin₁ hfst₁ hnext₁ hdata₁ hsize₁ ⊢
  rw [if_neg (not_not.mpr (hfst₁.mpr hreaches.1))]
  have hin₂ := @State.InStep.rfsckFlush crc s₁ hin₁
  obtain ⟨_, hfst₂, hnext₂, hdata₂, hsize₂⟩ := rfsckFlush_steps crc hin₁.keyb_le hsize₁
  generalize rfsckFlush crc s₁ = x at *
  obtain ⟨r₂, s₂⟩ := x
  dsimp only at hin₂ hfst₂ hnext₂ hdata₂ hsize₂ ⊢
  rw [hnext₁, hnext₁] at hfst₂
  have hr₂ : r₂ = 0 := hfst₂.mpr hreaches.2
  rw [if_neg (not_not.mpr hr₂)]
  have hsame : s₂.data.hdr = s.data.hdr ∧ s₂.data.numKeys = s.data.numKeys := by
    rw [hdata₂, stampKeyb, hdata₁]
    exact ⟨rfl, rfl⟩
  have hafter : ∀ n, s₂.world.outcomeAt n = s.world.outcomeAt (n + 3) := by
    intro n
    rw [hnext₂ hr₂, hnext₁]
    rfl
  have hnone : s₂.world.nextOutcome = .fail := by
    rw [World.nextOutcome_eq, hafter]
    exact hfail
  have hlen := RedoHeader.length_encode (s₂.doneHeader crc true)
  have hfst₃ := writeInfo_fst 0 (le_of_eq_of_le hlen redoHeaderSize_le_maxRwCount)
    { s₂ with data.hdr := s₂.doneHeader crc true }
  have hfile₃ := writeInfo_file 0 (s₂.doneHeader crc true).encode
    { s₂ with data.hdr := s₂.doneHeader crc true }
  have hout₃ := writeInfo_outcomes 0 (s₂.doneHeader crc true).encode
    { s₂ with data.hdr := s₂.doneHeader crc true }
  have hdata₃ := (writeInfo_cases .redo 0 (s₂.doneHeader crc true).encode
    { s₂ with data.hdr := s₂.doneHeader crc true }).2.2
  generalize writeInfo .redo 0 (s₂.doneHeader crc true).encode false
    { s₂ with data.hdr := s₂.doneHeader crc true } = r₃ at *
  dsimp only at hfst₃ hfile₃ hout₃ hdata₃
  rw [hnone] at hfst₃ hfile₃
  have hr₃ : r₃.1 ≠ 0 := hfst₃.mp
  rw [if_pos hr₃]
  refine ⟨?_, ?_, ?_⟩
  · rw [hdata₃]
    exact doneHeader_congr crc hsame.1 hsame.2 true
  · refine World.header_of_holds ?_
    rw [hfile₃, ← hsame.1]
    exact (ByteFile.pwrite_nil _ _).symm ▸ hin₂.held
  · intro n
    rw [World.outcomeAt_of_tail hout₃, hafter]
    exact hlater n

end Failing

/-- A first `rfsck_open` whose system calls succeed; other calls fail later. -/
theorem rfsckOpen_blank (os : List Outcome) :
    ∃ s : State, rfsckOpen crc32c (some "redo") 1 blankData
        { redoData := none
          world := { blankWorld with outcomes := .ok :: .ok :: .ok :: .ok :: os }
          out := [] } = (0, s.process) ∧
      s.world.outcomes = os ∧ s.data.hdr.state ≠ e2redoStateFinished := by
  have hread : ({ blankWorld with outcomes := .ok :: .ok :: os } : World).pread .redo 0
      redoHeaderSize = (some ((blankWorld.file .redo).pread 0 (min redoHeaderSize maxRwCount)),
        { blankWorld with outcomes := .ok :: os }) := by
    rfl
  obtain ⟨msg, hreplay⟩ := (@rfsckReplay_of_read crc32c true
    (setupState crc32c 1 blankData { blankWorld with outcomes := .ok :: .ok :: os } [])
    _ _ hread).2 (not_finished_blankWorld crc32c)
  have hlen := RedoHeader.length_encode (redoSetup crc32c 1 blankData).hdr
  have hwrite : (firstOpen crc32c (setupState crc32c 1 blankData
      { blankWorld with outcomes := .ok :: .ok :: os } [])).1 = 0 := by
    rw [firstOpen, hreplay]
    exact (writeInfo_fst 0 (le_of_eq_of_le hlen redoHeaderSize_le_maxRwCount) _).mpr trivial
  refine ⟨(firstOpen crc32c (setupState crc32c 1 blankData
    { blankWorld with outcomes := .ok :: .ok :: os } [])).2, ?_, ?_, ?_⟩
  · change (if (firstOpen crc32c (setupState crc32c 1 blankData
      { blankWorld with outcomes := .ok :: .ok :: os } [])).1 ≠ 0 then _ else _) = _
    rw [if_neg (not_not.mpr hwrite)]
    exact Prod.ext hwrite rfl
  · rw [firstOpen, hreplay]
    exact writeInfo_outcomes 0 _ _
  · rw [firstOpen, hreplay, (writeInfo_cases _ _ _ _).2.2]
    exact zero_ne_finished

/-- The header that `redo_mark_done(1)` could not write is written by the next `rfsck_open`,
which so marks the log as FINISHED. -/
theorem further_open_writes_header :
    ∃ s : State, rfsckOpen crc32c (some "redo") 1 blankData
        { redoData := none
          world := { blankWorld with
            outcomes := [.ok, .ok, .ok, .ok, .ok, .ok, .ok, .fail] }
          out := [] } = (0, s.process) ∧
      ¬ (runSteps crc32c [.call (.markDone true)] s).world.header.Finished crc32c ∧
      ¬ Untouched (runSteps crc32c [.call (.markDone true)] s)
        (runSteps crc32c [.reopen sameFile]
          (runSteps crc32c [.call (.markDone true)] s)) := by
  obtain ⟨s, hopen, hout, hstate⟩ := rfsckOpen_blank [.ok, .ok, .ok, .fail]
  have hin := inStep_of_rfsckOpen hopen
  have hat : ∀ n, s.world.outcomeAt n = [Outcome.ok, .ok, .ok, .fail].getD n .ok := by
    intro n
    rw [World.outcomeAt, hout]
  have hreaches : ReachesHeader s.world := by
    rw [ReachesHeader, hat, hat, hat]
    exact ⟨trivial, trivial, rfl⟩
  obtain ⟨hdata, hheader, hok⟩ := @redoMarkDone_header_fails crc32c s hin hreaches (hat 3)
    (fun n => hat (n + 4))
  have hunfinished : ¬ (redoMarkDone crc32c true s).2.world.header.Finished crc32c := by
    rw [hheader]
    exact fun hfinished => hstate hfinished.2
  refine ⟨s, hopen, hunfinished, fun hsame => ?_⟩
  have hlog := hsame.log_eq
  change (reopen crc32c sameFile (redoMarkDone crc32c true s).2).world.file .redo =
    (redoMarkDone crc32c true s).2.world.file .redo at hlog
  rw [reopen_file_of_allOk hok hunfinished] at hlog
  -- the log would start with the header in memory, which says FINISHED
  have hheld := ByteFile.holds_pwrite_self ((redoMarkDone crc32c true s).2.world.file .redo) 0
    (redoMarkDone crc32c true s).2.data.hdr.encode
  rw [hlog] at hheld
  have hnew := World.header_of_holds hheld
  rw [hheader, hdata] at hnew
  refine hstate ?_
  rw [hnew]
  rfl

/-- A channel is opened while a transaction is open. -/
theorem further_opens_untouched_in_txn :
    Untouched (runSteps crc32c [.call .txnBegin] (blankState crc32c))
      (runSteps crc32c [.reopen sameFile]
        (runSteps crc32c [.call .txnBegin] (blankState crc32c))) := by
  have hopen := rfsckOpen_eq_firstOpen crc32c (w := blankWorld) rfl
    (not_finished_blankWorld crc32c) "redo" (le_refl 1) blankData []
  have hfresh := (blankState_freshlyOpened crc32c).session
  have hin : (blankState crc32c).InStep := inStep_of_rfsckOpen hopen
  have hbegun : (runSteps crc32c [.call .txnBegin] (blankState crc32c)).InStep :=
    hin.rfsckTxnBegin 0
  have hout : (runSteps crc32c [.call .txnBegin] (blankState crc32c)).world.outcomes = [] :=
    @runCalls_outcomes crc32c [.txnBegin] (by simp [Call.Logging]) _ hfresh.1.outcomes_nil
  refine @further_opens_untouched crc32c (blankState crc32c) _ _ _ _ _ hopen [.call .txnBegin]
    ⟨trivial, trivial⟩ ?_ [sameFile] ⟨?_, trivial⟩
  · rw [hbegun.header_eq]
    intro hfinished
    refine hfresh.2.2.1 ?_
    rw [← @rfsckTxnBegin_hdr crc32c 0]
    exact hfinished.2
  · intro w v hw hv
    rw [World.openRedo_of_outcomes_nil hout] at hw
    cases hw
    rw [World.openRedo_of_outcomes_nil hout] at hv
    cases hv
    exact hbegun.headerReadWhole hout

end Redo
end Rfsck
