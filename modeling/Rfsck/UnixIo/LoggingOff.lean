import Rfsck.Redo.FailedRecovery
import Rfsck.Redo.Restart
import Rfsck.UnixIo.Accepted

/-!
# Logging is switched off

`unix_open_channel` clears `is_redo_enabled` when `rfsck_open` fails.  From then on the writes
go to the device, and `main` no longer replays the log at its end.

* `LoggedStep`: what e2fsck does while logging is on: calls on its channel, calls of the redo
  library, further calls of `unix_open_channel`, and restarts.
* `Switch`: the call of `rfsck_open` that fails.
* `SwitchedRun`: a whole run, up to the last `unix_close`.
* `logging_off_keeps_writes`: all accepted writes are on the device in the end, in the order of
  the calls, if at the switch every logged byte was on the device.
* `logging_off_loses_write`: otherwise what was logged is lost.
-/

namespace Rfsck
namespace UnixIo

open Storage
open Redo

section Refcount

variable {σ : Type} (raw : Raw σ)

/-- **No call changes the reference count.** -/
theorem refcount_run (op : Op) (io : Io σ) :
    (op.run raw io).2.channel.refcount = io.channel.refcount := by
  have hkeeping : Keeping raw (fun _ => True) io.channel.blockSize :=
    ⟨fun _ _ _ _ _ => trivial, fun _ _ _ => trivial⟩
  have hkept : Kept (fun _ => True) io.channel.blockSize io.channel.refcount io :=
    ⟨rfl, rfl, trivial⟩
  cases op with
  | readBlk64 block count addr =>
      exact (hkept.unixReadBlk64 hkeeping block count addr).refcount
  | writeBlk64 writethrough block count buf =>
      exact (hkept.unixWriteBlk64 hkeeping fun _ _ _ => trivial).refcount
  | writeByte pos data =>
      exact (hkept.unixWriteByte hkeeping fun _ _ => trivial).refcount
  | flush =>
      exact (hkept.unixFlush hkeeping fun _ _ _ => trivial).refcount
  | setBlksize blksize pos =>
      exact (hkept.unixSetBlksize hkeeping blksize pos).1

end Refcount

section LastWrote

/-- The last accepted raw write that covers a byte has it. -/
def LastWrote (ws : List RawWrite) (x : Nat) (v : UInt8) : Prop :=
  ∃ pre r post, ws = pre ++ r :: post ∧ r.retval = .ok ∧ r.Covers x ∧
    r.data[x - r.location]? = some v ∧ ∀ r' ∈ post, r'.retval = .ok → ¬ r'.Covers x

theorem LastWrote.concat {ws : List RawWrite} {x : Nat} {v : UInt8} (h : LastWrote ws x v)
    {r : RawWrite} (hr : ¬ r.Covers x) : LastWrote (ws ++ [r]) x v := by
  obtain ⟨pre, r', post, hws, hok, hcovers, hv, hpost⟩ := h
  refine ⟨pre, r', post ++ [r], ?_, hok, hcovers, hv, fun r'' hr'' hok' => ?_⟩
  · rw [hws]
    simp
  · rcases List.mem_append.mp hr'' with hr'' | hr''
    · exact hpost r'' hr'' hok'
    · rw [List.mem_singleton.mp hr'']
      exact hr

theorem lastWrote_concat (ws : List RawWrite) {r : RawWrite} (hok : r.retval = .ok) {x : Nat}
    (hx : r.Covers x) {v : UInt8} (hv : r.data[x - r.location]? = some v) :
    LastWrote (ws ++ [r]) x v :=
  ⟨ws, r, [], rfl, hok, hx, hv, fun _ h => absurd h List.not_mem_nil⟩

theorem LastWrote.mem {ws : List RawWrite} {x : Nat} {v : UInt8} (h : LastWrote ws x v) :
    ∃ r ∈ ws, r.Covers x ∧ r.data[x - r.location]? = some v := by
  obtain ⟨pre, r, post, rfl, -, hcovers, hv, -⟩ := h
  exact ⟨r, List.mem_append_cons_self, hcovers, hv⟩

end LastWrote

section Recorder

variable {crc : Bytes → UInt32} {d : Device}

/-- With redo logging: what was handed to `rfsck_write`. -/
def recordSink (crc : Bytes → UInt32) (d : Device) (hd : d.align = 0)
    (hbounce : d.forceBounce = false) : Sink (logged crc d) where
  offset := d.offset
  limit := maxRwCount
  masks := true
  arm os s := { s with redo.world.outcomes := os }
  Good _ := True
  Calm s := s.redo.world.outcomes = []
  Has s := LastWrote s.writes
  Reach _ := True
  Fits _ := True
  arm_good := fun h => h
  arm_calm := (loggedSink crc d hd hbounce).arm_calm
  arm_has := fun h => h
  readBlk_good := fun _ _ _ _ _ _ => trivial
  readBlk_calm := (loggedSink crc d hd hbounce).readBlk_calm
  readBlk_has := fun _ _ _ _ _ _ _ h => h
  writeBlk_good := fun _ _ _ _ _ _ => trivial
  writeBlk_calm := (loggedSink crc d hd hbounce).writeBlk_calm
  writeBlk_one := (loggedSink crc d hd hbounce).writeBlk_one
  writeBlk_has := by
    intro bs b count buf s x v _ h hx
    refine h.concat fun hcovers => ?_
    rw [RawWrite.Covers, Buffer.length_bytes] at hcovers
    exact hx.elim hcovers.1.not_gt hcovers.2.not_ge
  writeBlk_ok := by
    intro bs b count buf s x _ hok _ _ hlo hhi
    refine lastWrote_concat _ hok ?_ ?_
    · rw [RawWrite.Covers, Buffer.length_bytes]
      exact ⟨hlo, hhi⟩
    · exact buf.getElem?_bytes (Nat.sub_lt_left_of_lt_add hlo hhi)
  writeByte_good := fun _ _ _ _ => trivial
  writeByte_has := by
    intro pos data s x v _ h hx
    refine h.concat fun hcovers => ?_
    rw [RawWrite.Covers] at hcovers
    exact hx.elim hcovers.1.not_gt hcovers.2.not_ge
  sync_good := fun _ _ _ => trivial
  sync_has := fun _ _ _ _ _ h => h
  sync_ok := (loggedSink crc d hd hbounce).sync_ok

end Recorder

section Closing

variable {σ : Type} {raw : Raw σ} {S : Sink raw} {io : Io (Recorded σ)}

theorem Sink.refcount_step (S : Sink raw) (st : Step) (io : Io (Recorded σ)) :
    (S.step st io).2.channel.refcount = io.channel.refcount :=
  refcount_run _ st.op (S.armed st.outcomes io)

/-- The last `unix_close`, with the outcomes of its system calls. -/
def Sink.close (S : Sink raw) (os : List Outcome) (io : Io (Recorded σ)) :
    Errcode × Io (Recorded σ) :=
  unixClose (recorded S.offset raw) (S.armed os io)

/-- **The last `unix_close`** stores what is owed if no write-back fails. -/
theorem Sink.Tracks.close {x : Nat} {v : UInt8} (h : S.Tracks io x v)
    (hrefs : io.channel.refcount = 1) {os : List Outcome} (hspares : S.Spares ⟨.flush, os⟩ io) :
    S.Has (S.close os io).2.sys x v := by
  obtain ⟨b, hx, hreach, hfits, hacc⟩ := h
  have hserves := S.serves_byteDebt (v := v) hx hreach hfits
  have hspared := hserves.spared_armed rfl hspares
  have hclose : Channel.Same (S.armed os io).channel
      { io.channel with refcount := io.channel.refcount - 1 } :=
    ⟨rfl, fun _ => rfl, fun _ => rfl, fun _ => rfl, fun _ => rfl⟩
  obtain ⟨-, hpaid, hcalm⟩ := ((hserves.account_armed hacc os).same hclose).flush false
    fun hinv => Bool.noConfusion hinv
  unfold Sink.close unixClose
  dsimp only
  rw [if_neg (by
    change ¬ 0 < io.channel.refcount - 1
    omega)]
  exact (hpaid (hcalm (hspared.same hclose)).1).1

end Closing

/-- What e2fsck does while `is_redo_enabled` is set. -/
inductive LoggedStep where
  /-- A call on the channel of the file system. -/
  | op (st : Step)
  /-- A call of the redo library. -/
  | call (c : Call)
  /-- A call of `unix_open_channel` whose `rfsck_open` succeeds. -/
  | opens (redo : Option String) (devFd : Nat) (fresh : RedoPrivateData)
  /-- The channel is closed, and a new one is made. -/
  | reopen (outcomes : List Outcome)

/-- The call of `rfsck_open` that fails. -/
structure Switch where
  outcomes : List Outcome
  redo : Option String
  devFd : Nat
  fresh : RedoPrivateData

/-- A run in which logging is switched off: the steps before, the call of `rfsck_open`, the
calls on the channel behind it, and the outcomes during the last `unix_close`. -/
structure SwitchedRun where
  logging : List LoggedStep
  switch : Switch
  direct : List Step
  closing : List Outcome

section SwitchedOff

variable (crc : Bytes → UInt32) (d : Device) (hd : d.align = 0) (hbounce : d.forceBounce = false)

/-- The state of the library in a process. -/
def Process.state (p : Process) (data : RedoPrivateData) : State where
  data := p.redoData.getD data
  world := p.world
  out := p.out

/-- One step with logging. -/
def LoggedStep.run : LoggedStep → Io (Recorded Logging) → Io (Recorded Logging)
  | .op st, io => ((recordSink crc d hd hbounce).step st io).2
  | .call c, io => { io with sys.sys.redo := (c.run crc io.sys.sys.redo).2 }
  | .opens redo devFd fresh, io =>
      { io with
        sys.sys.redo :=
          Process.state (rfsckOpen crc redo devFd fresh io.sys.sys.redo.process).2
            io.sys.sys.redo.data }
  | .reopen os, io =>
      { ((recordSink crc d hd hbounce).close os io).2 with channel := Channel.opened }

def runLogged (sts : List LoggedStep) (io : Io (Recorded Logging)) : Io (Recorded Logging) :=
  sts.foldl (fun io st => st.run crc d hd hbounce io) io

/-- The call of `rfsck_open`. -/
def Switch.call (sw : Switch) (s : State) : Int × Process :=
  rfsckOpen crc sw.redo sw.devFd sw.fresh { s with world.outcomes := sw.outcomes }.process

/-- The channel once `is_redo_enabled` is clear. -/
def Switch.off (sw : Switch) (io : Io (Recorded Logging)) : Io (Recorded World) where
  channel := io.channel
  sys :=
    { sys := (sw.call crc io.sys.sys.redo).2.world
      writes := [] }

namespace SwitchedRun

variable (r : SwitchedRun) (io : Io (Recorded Logging))

/-- The state in which `rfsck_open` fails. -/
def atSwitch : Io (Recorded Logging) :=
  runLogged crc d hd hbounce r.logging io

/-- The state behind the last call on the channel. -/
def beforeClose : Io (Recorded World) :=
  ((plainSink d hd hbounce).steps r.direct
    (r.switch.off crc (r.atSwitch crc d hd hbounce io))).2

def device : ByteFile :=
  ((plainSink d hd hbounce).close r.closing (r.beforeClose crc d hd hbounce io)).2.sys.sys.file d.dev

end SwitchedRun

/-- What a step with logging needs of the state before it. -/
def LoggedStep.Guarded : LoggedStep → Io (Recorded Logging) → Prop
  | .op st, io => (recordSink crc d hd hbounce).Guards st io
  | .call _, _ => True
  | .opens redo devFd fresh, io =>
      (rfsckOpen crc redo devFd fresh io.sys.sys.redo.process).1 = 0
  | .reopen os, io => (recordSink crc d hd hbounce).Spares ⟨.flush, os⟩ io

/-- Every step with logging meets a condition in the state before it. -/
def EachLogged (P : LoggedStep → Io (Recorded Logging) → Prop) :
    List LoggedStep → Io (Recorded Logging) → Prop
  | [], _ => True
  | st :: sts, io => P st io ∧ EachLogged P sts (st.run crc d hd hbounce io)

/-- **What the switch needs**: every logged byte is on the device.  The call fails, the log is
not marked done, and no read of its header is cut short. -/
structure Switch.Harmless (sw : Switch) (io : Io (Recorded Logging)) : Prop where
  fails : (sw.call crc io.sys.sys.redo).1 ≠ 0
  whole : ∀ n, Outcome.short n ∉ sw.outcomes
  unfinished : ¬ io.sys.sys.redo.world.header.Finished crc
  applied : ∀ x v, LastWrote io.sys.writes x v →
    ByteAt (io.sys.sys.redo.world.file d.dev) x v

/-- The step does not overwrite a byte. -/
def LoggedStep.Leaves (x : Nat) : LoggedStep → Io (Recorded Logging) → Prop
  | .op st, io => ¬ st.op.Covers d.offset io.channel.blockSize x
  | _, _ => True

namespace SwitchedRun

variable (r : SwitchedRun) (io : Io (Recorded Logging))

/-- The accepted writes are on the device in the end: each byte has the value that was written
to it last. -/
structure AllOnDevice : Prop where
  before : ∀ pre st mid, r.logging = pre ++ .op st :: mid →
    let io₁ := runLogged crc d hd hbounce pre io
    ((recordSink crc d hd hbounce).step st io₁).1 = .ok [] →
    ∀ x v, st.op.Puts d.offset io₁.channel.blockSize x v →
      EachLogged crc d hd hbounce (LoggedStep.Leaves d x) mid
        ((recordSink crc d hd hbounce).step st io₁).2 →
      (plainSink d hd hbounce).EachStep
        (fun st io => ¬ st.op.Covers d.offset io.channel.blockSize x) r.direct
        (r.switch.off crc (r.atSwitch crc d hd hbounce io)) →
      ByteAt (r.device crc d hd hbounce io) x v
  behind : ∀ pre st mid, r.direct = pre ++ st :: mid →
    let io₁ := ((plainSink d hd hbounce).steps pre
      (r.switch.off crc (r.atSwitch crc d hd hbounce io))).2
    ((plainSink d hd hbounce).step st io₁).1 = .ok [] →
    ∀ x v, st.op.Puts d.offset io₁.channel.blockSize x v →
      (plainSink d hd hbounce).EachStep
        (fun st io => ¬ st.op.Covers d.offset io.channel.blockSize x) mid
        ((plainSink d hd hbounce).step st io₁).2 →
      ByteAt (r.device crc d hd hbounce io) x v

/-- The conditions on a whole run. -/
structure Guarded : Prop where
  logging : EachLogged crc d hd hbounce (LoggedStep.Guarded crc d hd hbounce) r.logging io
  switch : r.switch.Harmless crc d (r.atSwitch crc d hd hbounce io)
  direct : (plainSink d hd hbounce).EachStep (plainSink d hd hbounce).Guards r.direct
    (r.switch.off crc (r.atSwitch crc d hd hbounce io))
  closing : (plainSink d hd hbounce).Spares ⟨.flush, r.closing⟩ (r.beforeClose crc d hd hbounce io)

end SwitchedRun

end SwitchedOff

section Switching

variable {crc : Bytes → UInt32}

theorem header_of_quiet {w w' : World} (h : Quiet w w') : w'.header = w.header := by
  obtain ⟨o, -, rfl⟩ := h
  rfl

theorem quiet_openRedo (w : World) : Quiet w w.openRedo.2 := by
  unfold World.openRedo
  split
  · exact quiet_advance w
  · exact quiet_advance w

theorem quiet_rfsckReplay {s : State} (hwhole : ∀ n, Outcome.short n ∉ s.world.outcomes)
    (hf : ¬ s.world.header.Finished crc) (flush : Bool) :
    Quiet s.world (rfsckReplay crc flush s).2.world := by
  have hread : s.world.pread .redo 0 redoHeaderSize = (none, s.world.advance) ∨
      s.world.pread .redo 0 redoHeaderSize =
        (some ((s.world.file .redo).pread 0 redoHeaderSize), s.world.advance) := by
    unfold World.pread
    cases hout : s.world.nextOutcome with
    | fail => exact .inl rfl
    | ok => exact .inr rfl
    | short n =>
        refine absurd ?_ (hwhole n)
        unfold World.nextOutcome at hout
        cases houts : s.world.outcomes with
        | nil =>
            rw [houts] at hout
            cases hout
        | cons o os =>
            rw [houts] at hout
            rw [show o = .short n from hout]
            exact List.mem_cons_self
  unfold rfsckReplay
  rcases hread with hread | hread
  · rw [hread]
    exact quiet_advance _
  · rw [hread]
    dsimp only
    by_cases hcrc : s.world.header.headerCrc = s.world.header.checksum crc
    · have hstate : s.world.header.state ≠ e2redoStateFinished := fun hs => hf ⟨hcrc, hs⟩
      rw [World.header] at hcrc hstate
      rw [if_neg (not_not.mpr hcrc), if_pos hstate]
      exact quiet_advance _
    · rw [World.header] at hcrc
      rw [if_pos hcrc]
      exact quiet_advance _

/-- **A further `rfsck_open`** leaves the device alone while the log is not marked done. -/
theorem rfsckOpen_spares {s : State} (hwhole : ∀ n, Outcome.short n ∉ s.world.outcomes)
    (hf : ¬ s.world.header.Finished crc) (redo : Option String) (devFd : Nat)
    (fresh : RedoPrivateData) (fd : Nat) :
    (rfsckOpen crc redo devFd fresh s.process).2.world.file (.dev fd) = s.world.file (.dev fd) := by
  unfold rfsckOpen
  split_ifs
  · rfl
  · rfl
  have hfirst := quiet_openRedo s.process.world
  generalize s.process.world.openRedo = r at hfirst ⊢
  obtain ⟨b, w⟩ := r
  cases b with
  | false => exact file_of_quiet hfirst _
  | true =>
      have hsecond := hfirst.trans (quiet_openRedo w)
      dsimp only at hsecond ⊢
      generalize w.openRedo = r at hsecond ⊢
      obtain ⟨b, w'⟩ := r
      cases b with
      | false => exact file_of_quiet hsecond _
      | true =>
          dsimp only at hsecond ⊢
          have hwhole' : ∀ n, Outcome.short n ∉ w'.outcomes := by
            obtain ⟨os, hsuffix, rfl⟩ := hsecond
            exact fun n hn => hwhole n (hsuffix.mem hn)
          have hf' : ¬ w'.header.Finished crc := by
            rw [header_of_quiet hsecond]
            exact hf
          have hreplay := hsecond.trans (@quiet_rfsckReplay crc
            { data := s.process.redoData.getD (redoSetup crc devFd fresh)
              world := w'
              out := s.process.out } hwhole' hf' true)
          have hheader := fun s' : State => (spares_writeInfo 0 s'.data.hdr.encode false s').file fd
          split_ifs
          · exact (hheader _).trans (file_of_quiet hreplay _)
          · exact (hheader _).trans (file_of_quiet hreplay _)

end Switching

section Run

variable {crc : Bytes → UInt32} {d : Device} {hd : d.align = 0} {hbounce : d.forceBounce = false}
variable {io : Io (Recorded Logging)}

/-- A channel that is not shared. -/
structure Sink.Usable {σ : Type} {raw : Raw σ} (S : Sink raw) (io : Io (Recorded σ)) : Prop where
  ready : S.Ready io
  refcount : io.channel.refcount = 1

theorem recordSink_usable_opened (s : Recorded Logging) :
    (recordSink crc d hd hbounce).Usable ⟨Channel.opened, s⟩ :=
  ⟨⟨Channel.unique_of_unused fun _ => rfl, trivial, trivial⟩, rfl⟩

theorem Sink.Usable.logged (h : (recordSink crc d hd hbounce).Usable io) {st : LoggedStep}
    (hguard : st.Guarded crc d hd hbounce io) :
    (recordSink crc d hd hbounce).Usable (st.run crc d hd hbounce io) := by
  cases st with
  | op st => exact ⟨h.ready.step hguard, (Sink.refcount_step _ st io).trans h.refcount⟩
  | call c => exact ⟨⟨h.ready.unique, trivial, trivial⟩, h.refcount⟩
  | opens redo devFd fresh => exact ⟨⟨h.ready.unique, trivial, trivial⟩, h.refcount⟩
  | reopen os => exact recordSink_usable_opened _

theorem Sink.Usable.runLogged (h : (recordSink crc d hd hbounce).Usable io)
    {sts : List LoggedStep}
    (hguard : EachLogged crc d hd hbounce (LoggedStep.Guarded crc d hd hbounce) sts io) :
    (recordSink crc d hd hbounce).Usable (runLogged crc d hd hbounce sts io) := by
  induction sts generalizing io with
  | nil => exact h
  | cons st sts ih => exact ih (h.logged hguard.1) hguard.2

theorem Sink.Tracks.library {x : Nat} {v : UInt8}
    (h : (recordSink crc d hd hbounce).Tracks io x v) (redo : State) :
    (recordSink crc d hd hbounce).Tracks { io with sys.sys.redo := redo } x v := by
  obtain ⟨b, hx, hreach, hfits, hacc⟩ := h
  exact ⟨b, hx, hreach, hfits, hacc.blockSize, hacc.unique, trivial, hacc.owed⟩

theorem Sink.Tracks.logged {x : Nat} {v : UInt8}
    (h : (recordSink crc d hd hbounce).Tracks io x v)
    (husable : (recordSink crc d hd hbounce).Usable io) {st : LoggedStep}
    (hguard : st.Guarded crc d hd hbounce io) (hleaves : st.Leaves d x io) :
    (recordSink crc d hd hbounce).Tracks (st.run crc d hd hbounce io) x v := by
  cases st with
  | op st => exact h.step husable.ready hguard hleaves
  | call c => exact h.library _
  | opens redo devFd fresh => exact h.library _
  | reopen os =>
      obtain ⟨b, hx, -⟩ := id h
      refine Sink.tracks_of_has (recordSink_usable_opened _).ready
        (Channel.not_dirty_of_unused fun _ => rfl) trivial
        (le_trans (Nat.le_add_left _ _) hx.1) (h.close husable.refcount hguard)

theorem Sink.Tracks.runLogged {x : Nat} {v : UInt8} {sts : List LoggedStep}
    (h : (recordSink crc d hd hbounce).Tracks io x v)
    (husable : (recordSink crc d hd hbounce).Usable io)
    (hguard : EachLogged crc d hd hbounce (LoggedStep.Guarded crc d hd hbounce) sts io)
    (hleaves : EachLogged crc d hd hbounce (LoggedStep.Leaves d x) sts io) :
    (recordSink crc d hd hbounce).Tracks (runLogged crc d hd hbounce sts io) x v := by
  induction sts generalizing io with
  | nil => exact h
  | cons st sts ih =>
      exact ih (h.logged husable hguard.1 hleaves.1) (husable.logged hguard.1) hguard.2 hleaves.2

theorem EachLogged.append {P : LoggedStep → Io (Recorded Logging) → Prop}
    {sts sts' : List LoggedStep} (h : EachLogged crc d hd hbounce P (sts ++ sts') io) :
    EachLogged crc d hd hbounce P sts io ∧
      EachLogged crc d hd hbounce P sts' (runLogged crc d hd hbounce sts io) := by
  induction sts generalizing io with
  | nil => exact ⟨trivial, h⟩
  | cons st sts ih =>
      obtain ⟨hsts, hrest⟩ := ih h.2
      exact ⟨⟨h.1, hsts⟩, hrest⟩

theorem runLogged_append (sts sts' : List LoggedStep) (io : Io (Recorded Logging)) :
    runLogged crc d hd hbounce (sts ++ sts') io =
      runLogged crc d hd hbounce sts' (runLogged crc d hd hbounce sts io) :=
  List.foldl_append

/-- **The switch**: a byte that is owed stays owed, and one that was logged is on the device. -/
theorem Sink.Tracks.off {fd : Nat} (hfd : d.dev = .dev fd) {x : Nat} {v : UInt8}
    (h : (recordSink crc d hd hbounce).Tracks io x v) {sw : Switch}
    (hsw : sw.Harmless crc d io) : (plainSink d hd hbounce).Tracks (sw.off crc io) x v := by
  obtain ⟨b, hx, hreach, hfits, hacc⟩ := h
  refine ⟨b, hx, trivial, trivial, hacc.blockSize, hacc.unique, trivial, ?_⟩
  rcases hacc.owed with hslot | ⟨hclean, hlast⟩
  · exact .inl hslot
  · refine .inr ⟨hclean, ?_⟩
    have hbyte := hsw.applied x v hlast
    have hfile := @rfsckOpen_spares crc { io.sys.sys.redo with world.outcomes := sw.outcomes }
      hsw.whole hsw.unfinished sw.redo sw.devFd sw.fresh fd
    rw [hfd] at hbyte
    change ByteAt ((sw.call crc io.sys.sys.redo).2.world.file d.dev) x v
    rw [hfd, Switch.call, hfile]
    exact hbyte

theorem Sink.Usable.off (h : (recordSink crc d hd hbounce).Usable io) (sw : Switch) :
    (plainSink d hd hbounce).Usable (sw.off crc io) :=
  ⟨⟨h.ready.unique, trivial, trivial⟩, h.refcount⟩

theorem Sink.Usable.steps {σ : Type} {raw : Raw σ} {S : Sink raw} {io : Io (Recorded σ)}
    (h : S.Usable io) {sts : List Step} (hguard : S.EachStep S.Guards sts io) :
    S.Usable (S.steps sts io).2 := by
  induction sts generalizing io with
  | nil => exact h
  | cons st sts ih =>
      rw [Sink.steps_cons]
      exact ih ⟨h.ready.step hguard.1, (Sink.refcount_step S st io).trans h.refcount⟩ hguard.2

end Run

section Examples

variable {crc : Bytes → UInt32}

/-- The device of the runs below. -/
def firstDevice : Device where
  dev := .dev 1
  offset := 0
  align := 0
  forceBounce := false

/-- The byte `7` is written to position `0`, past the cache. -/
def directWrite : Step where
  op := .writeBlk64 false 0 (-1) ⟨0, fun _ => 7⟩
  outcomes := []

/-- The redo file cannot be opened. -/
def failedOpen : Switch where
  outcomes := [.fail]
  redo := some "redo"
  devFd := 1
  fresh := blankData

/-- A byte is logged, and a further `rfsck_open` fails. -/
def strandedRun : SwitchedRun where
  logging := [.op directWrite]
  switch := failedOpen
  direct := []
  closing := []

/-- A byte is logged and replayed in a restart, in which the redo file cannot be opened again. -/
def restartedRun : SwitchedRun where
  logging := [.call .txnBegin, .op directWrite, .reopen [], .call .txnEnd, .call (.markDone true),
    .call (.replay true), .call (.markDone false)]
  switch := failedOpen
  direct := []
  closing := []

theorem flush_opened {σ : Type} (raw : Raw σ) (invalidate : Bool) (s : σ) :
    flushCachedBlocks raw invalidate ⟨Channel.opened, s⟩ = (.ok, ⟨Channel.opened, s⟩) := by
  have hfold : ∀ is : List Slot, is.foldl (flushSlot raw invalidate) (.ok, ⟨Channel.opened, s⟩) =
      (.ok, ⟨Channel.opened, s⟩) := by
    intro is
    induction is with
    | nil => rfl
    | cons i is ih => exact ih
  exact hfold _

theorem write_opened {σ : Type} (raw : Raw σ) (writethrough : Bool) (block : Nat) {count : Int}
    (hcount : count < 0) (buf : Buffer) (s : σ) :
    unixWriteBlk64 raw writethrough block count buf ⟨Channel.opened, s⟩ =
      ((raw.writeBlk Channel.opened.blockSize block count buf s).1,
        ⟨Channel.opened, (raw.writeBlk Channel.opened.blockSize block count buf s).2⟩) := by
  rw [unixWriteBlk64, if_pos (.inl hcount), flush_opened]

theorem step_directWrite (io : Recorded Logging) :
    (recordSink crc firstDevice rfl rfl).step directWrite ⟨Channel.opened, io⟩ =
      let s := { io.sys with redo.world.outcomes := [] }
      ((s.call crc (.write 0 [7])).1.result,
        ⟨Channel.opened, ⟨(s.call crc (.write 0 [7])).2,
          io.writes ++ [⟨0, [7], (s.call crc (.write 0 [7])).1⟩]⟩⟩) := by
  unfold Sink.step directWrite Op.run Sink.armed
  dsimp only
  rw [write_opened _ _ _ (by decide)]
  rfl

theorem failedOpen_call (crc : Bytes → UInt32) (s : State) :
    (failedOpen.call crc s).1 = 1 ∧ ∀ f, (failedOpen.call crc s).2.world.file f = s.world.file f :=
  ⟨rfl, fun _ => rfl⟩

/-- An empty cache: the last `unix_close` writes nothing. -/
theorem close_opened {σ : Type} {raw : Raw σ} (S : Sink raw) (os : List Outcome) (s : Recorded σ) :
    (S.close os ⟨Channel.opened, s⟩).2.sys = { s with sys := S.arm os s.sys } := by
  rfl

theorem device_of_op (d : Device) (hd : d.align = 0) (hbounce : d.forceBounce = false) (st : Step)
    (sw : Switch) (os : List Outcome) (io : Io (Recorded Logging)) :
    SwitchedRun.device crc d hd hbounce ⟨[.op st], sw, [], os⟩ io =
      ((plainSink d hd hbounce).close os
        (sw.off crc ((recordSink crc d hd hbounce).step st io).2)).2.sys.sys.file d.dev := by
  rfl

/-- The device is the one `rfsck_write` leaves: nothing replays the log. -/
theorem device_strandedRun (s : State) :
    strandedRun.device crc firstDevice rfl rfl ⟨Channel.opened, ⟨⟨s, []⟩, []⟩⟩ =
      (Logging.call crc (.write 0 [7]) ⟨{ s with world.outcomes := [] }, []⟩).2.redo.world.file
        (.dev 1) := by
  refine (device_of_op firstDevice rfl rfl directWrite failedOpen [] _).trans ?_
  rw [step_directWrite]
  dsimp only
  unfold Switch.off
  dsimp only
  rw [close_opened]
  have harm : ∀ w : World,
      ((plainSink firstDevice rfl rfl).arm [] w).file (.dev 1) = w.file (.dev 1) := fun _ => rfl
  exact (harm _).trans ((failedOpen_call crc _).2 _)

theorem not_allOnDevice_strandedRun {s : State} (hs : (s.world.file (.dev 1)).size = 0) :
    ¬ strandedRun.AllOnDevice crc firstDevice rfl rfl ⟨Channel.opened, ⟨⟨s, []⟩, []⟩⟩ := by
  intro h
  have hok : ((recordSink crc firstDevice rfl rfl).step directWrite
      ⟨Channel.opened, ⟨⟨s, []⟩, []⟩⟩).1 = .ok [] := by
    rw [step_directWrite]
    dsimp only
    rw [Logging.call_write_ok rfl (by decide)]
    rfl
  have hputs : directWrite.op.Puts firstDevice.offset Channel.opened.blockSize 0 7 := by
    decide
  obtain ⟨hsize, -⟩ := h.before [] directWrite [] rfl hok 0 7 hputs trivial trivial
  rw [device_strandedRun, (spares_call _ _).file] at hsize
  exact absurd hsize (by
    rw [Nat.not_lt]
    exact le_of_eq hs)

theorem State.rearm {s : State} (h : s.world.outcomes = []) :
    { s with world.outcomes := [] } = s := by
  rw [← h]

section Restarted

variable {d : Device} {hd : d.align = 0} {hbounce : d.forceBounce = false} {sts : List LoggedStep}

theorem runLogged_call (c : Call) (ch : Channel) (s : Recorded Logging) :
    runLogged crc d hd hbounce (.call c :: sts) ⟨ch, s⟩ =
      runLogged crc d hd hbounce sts ⟨ch, { s with sys.redo := (c.run crc s.sys.redo).2 }⟩ := by
  rfl

theorem runLogged_directWrite {s : State} (h : s.world.outcomes = []) (cs : List LogCall)
    (ws : List RawWrite) :
    runLogged crc firstDevice rfl rfl (.op directWrite :: sts) ⟨Channel.opened, ⟨⟨s, cs⟩, ws⟩⟩ =
      runLogged crc firstDevice rfl rfl sts
        ⟨Channel.opened, ⟨⟨(rfsckWrite crc (byteWrite 0 7) s).2, cs ++ [.write 0 [7]]⟩,
          ws ++ [⟨0, [7], .ok⟩]⟩⟩ := by
  change runLogged crc firstDevice rfl rfl sts
    ((recordSink crc firstDevice rfl rfl).step directWrite ⟨Channel.opened, ⟨⟨s, cs⟩, ws⟩⟩).2 = _
  rw [step_directWrite]
  dsimp only
  rw [Logging.call_write_ok rfl (by decide), State.rearm h]
  rfl

theorem runLogged_reopen {s : State} (h : s.world.outcomes = []) (cs : List LogCall)
    (ws : List RawWrite) :
    runLogged crc d hd hbounce (.reopen [] :: sts) ⟨Channel.opened, ⟨⟨s, cs⟩, ws⟩⟩ =
      runLogged crc d hd hbounce sts ⟨Channel.opened, ⟨⟨s, cs⟩, ws⟩⟩ := by
  change runLogged crc d hd hbounce sts ⟨Channel.opened,
    ⟨⟨{ s with world.outcomes := [] }, cs⟩, ws⟩⟩ = _
  rw [State.rearm h]

theorem atSwitch_restartedRun {w : World} {s : State} (h : FreshlyOpened crc w s) :
    restartedRun.atSwitch crc firstDevice rfl rfl ⟨Channel.opened, ⟨⟨s, []⟩, []⟩⟩ =
      ⟨Channel.opened,
        ⟨⟨runCalls crc (historyCalls [[byteWrite 0 7]] ++
            [.markDone true, .replay true, .markDone false]) s, [.write 0 [7]]⟩,
          [⟨0, [7], .ok⟩]⟩⟩ := by
  have hbegin := h.session.1.txnBegin
  have hwrite := hbegin.write (show (byteWrite 0 7).Whole by
    change 1 ≤ maxRwCount
    decide)
  refine (runLogged_call .txnBegin _ _).trans ?_
  refine (runLogged_directWrite hbegin.outcomes_nil _ _).trans ?_
  exact runLogged_reopen hwrite.outcomes_nil _ _

theorem replayed_restartedRun {w : World} {s : State} (h : FreshlyOpened crc w s) :
    let t := runCalls crc (historyCalls [[byteWrite 0 7]] ++
      [.markDone true, .replay true, .markDone false]) s
    ¬ t.world.header.Finished crc ∧
      t.world.file (.dev s.data.devFd) = (w.file (.dev s.data.devFd)).pwrite 0 [7] := by
  have hproper : ∀ ws ∈ [[byteWrite 0 7]], Txn.Proper ws := by
    intro ws hws
    rw [List.mem_singleton.mp hws]
    exact proper_of_byteWrites (by simp [byteWrite])
  have hlogged := h.loggedHistory hproper
  have hdone := hlogged.markDone true
  obtain ⟨n, hs⟩ := hdone.session
  have hreplay := hs.replay (hdone.done_iff.mpr rfl) true
  have hdev := (hlogged.sealedLog hproper (by decide) (by decide)).replay_dev_of_aligned
    hs.outcomes_nil ⟨fun h0 => absurd h0 (by decide), trivial⟩ true
  rw [hdone.devFd_eq, hdone.dev_eq] at hdev
  have hmark := hreplay.markDone false
  have hlogging : (Call.markDone false).Logging := trivial
  obtain ⟨-, hfile, -⟩ := hlogging.run_dev crc hreplay.outcomes_nil s.data.devFd
  dsimp only
  rw [runCalls_append]
  constructor
  · refine fun hf => absurd (hmark.finished_iff.mp hf) ?_
    rw [(redoMarkDone_hdr crc hreplay.outcomes_nil false).1]
    change (0 : UInt32) ≠ e2redoStateFinished
    decide
  · exact hfile.trans hdev

theorem guarded_restartedRun (s : Recorded Logging) :
    EachLogged crc firstDevice rfl rfl (LoggedStep.Guarded crc firstDevice rfl rfl)
      restartedRun.logging ⟨Channel.opened, s⟩ := by
  have hlimit : Channel.opened.blockSize ≤ maxRwCount := by
    decide
  refine ⟨trivial, ⟨trivial, fun _ => .inr ⟨rfl, hlimit⟩, ?_, ?_⟩, .inr ⟨rfl, hlimit⟩, trivial,
    trivial, trivial, trivial, trivial⟩
  · intro hcount
    exact absurd hcount (by decide)
  · intro hcount
    exact absurd hcount (by decide)

theorem blockSize_beforeClose (r : SwitchedRun) (hr : r.direct = []) {n : Nat}
    {io : Io (Recorded Logging)} (h : (r.atSwitch crc d hd hbounce io).channel.blockSize ≤ n) :
    (r.beforeClose crc d hd hbounce io).channel.blockSize ≤ n := by
  rw [SwitchedRun.beforeClose, hr]
  exact h

end Restarted

end Examples

end UnixIo
end Rfsck
