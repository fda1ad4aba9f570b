import Rfsck.Redo.Restart
import Rfsck.Xfs.Redo

/-!
# Several devices and one log

The I/O layers open the log once for each device: `unix_open_channel` for the file system
and for an external journal, `libxfs_device_open` for the data, log and realtime devices.
`redo_setup` acts only at the first of these opens, and `rfsck_write` is not told the device.
So the log belongs to the first device that was opened.

* `DevCall`: what the I/O layers ask for, with the device.
* `DevRun`: any interleaving of opens and of writes inside transactions.
* `replay_reaches_first`: a replay applies every write to the first device.
* `replay_reaches_issued`: each device gets its own writes, if all of them are issued on the
  first one.
-/

namespace Rfsck
namespace Devices

open Storage
open Redo

section Model

variable (crc : Bytes → UInt32)

/-- The two copies of `redo.c`. -/
inductive Tool where
  | ext
  | xfs
deriving DecidableEq, Repr

/-- `rfsck_replay`. -/
def Tool.rfsckReplay : Tool → Bool → State → Int × State
  | .ext => Redo.rfsckReplay crc
  | .xfs => Xfs.rfsckReplay crc

/-- `rfsck_open`. -/
def Tool.rfsckOpen :
    Tool → Option String → Nat → RedoPrivateData → Process → Int × Process
  | .ext => Redo.rfsckOpen crc
  | .xfs => Xfs.rfsckOpen crc

/-- A request to the I/O layer of a tool whose log is open. -/
inductive DevCall where
  | openDevice (devFd : Nat)
  | txnBegin
  | write (devFd : Nat) (req : WriteReq)
  | txnEnd

/-- What the library does for a request.  The device of a write does not reach it. -/
def DevCall.run (tool : Tool) (redo : String) : DevCall → State → State
  | .openDevice devFd, s =>
      let p := (tool.rfsckOpen crc (some redo) devFd s.data s.process).2
      { data := p.redoData.getD s.data, world := p.world, out := p.out }
  | .txnBegin, s => (Call.txnBegin.run crc s).2
  | .write _ req, s => ((Call.write req).run crc s).2
  | .txnEnd, s => (Call.txnEnd.run crc s).2

def runDevCalls (tool : Tool) (redo : String) (cs : List DevCall) (s : State) : State :=
  cs.foldl (fun s c => c.run crc tool redo s) s

theorem runDevCalls_snoc (tool : Tool) (redo : String) (cs : List DevCall) (c : DevCall)
    (s : State) :
    runDevCalls crc tool redo (cs ++ [c]) s =
      c.run crc tool redo (runDevCalls crc tool redo cs s) := by
  simp [runDevCalls]

/-- The log is marked and replayed. -/
def finish (tool : Tool) (sync : Bool) (s : State) : State :=
  (tool.rfsckReplay crc sync (redoMarkDone crc true s).2).2

end Model

/-- The write of a request, if it is one on the device `fd`. -/
def DevCall.patchOn (fd : Nat) : DevCall → Option Patch
  | .write devFd req => if devFd = fd then some req.patch else none
  | _ => none

def issuedOn (fd : Nat) (cs : List DevCall) : List Patch :=
  cs.filterMap (DevCall.patchOn fd)

/-- The device of a write is `fd`. -/
def DevCall.On (fd : Nat) : DevCall → Prop
  | .write devFd _ => devFd = fd
  | _ => True

def DevCall.NoOpen : DevCall → Prop
  | .openDevice _ => False
  | _ => True

/-- Opens at any point, and writes inside transactions that are not nested. -/
inductive DevRun : List DevCall → Txns → Prop
  | nil : DevRun [] ⟨[], none⟩
  | openDevice {cs : List DevCall} {T : Txns} (run : DevRun cs T) (devFd : Nat) :
      DevRun (cs ++ [.openDevice devFd]) T
  | txnBegin {cs : List DevCall} {H : List Txn} (run : DevRun cs ⟨H, none⟩) :
      DevRun (cs ++ [.txnBegin]) ⟨H, some []⟩
  | write {cs : List DevCall} {H : List Txn} {ws : Txn} {req : WriteReq}
      (run : DevRun cs ⟨H, some ws⟩) (nonempty : req.buf ≠ []) (whole : req.Whole)
      (devFd : Nat) :
      DevRun (cs ++ [.write devFd req]) ⟨H, some (ws ++ [req])⟩
  | txnEnd {cs : List DevCall} {H : List Txn} {ws : Txn} (run : DevRun cs ⟨H, some ws⟩) :
      DevRun (cs ++ [.txnEnd]) ⟨H ++ [ws], none⟩

section Patches

variable {cs : List DevCall} {fd : Nat}

/-- The writes of the committed transactions and of the open one. -/
def txnsPatches (T : Txns) : List Patch :=
  historyPatches T.committed ++ (T.current.getD []).map WriteReq.patch

theorem issuedOn_snoc (fd : Nat) (cs : List DevCall) (c : DevCall) :
    issuedOn fd (cs ++ [c]) = issuedOn fd cs ++ (c.patchOn fd).toList := by
  rw [issuedOn, issuedOn, List.filterMap_append]
  cases h : c.patchOn fd with
  | none =>
      simp [h]
  | some p =>
      simp [h]

theorem DevRun.issuedOn_eq {T : Txns} (hrun : DevRun cs T) (hon : ∀ c ∈ cs, c.On fd) :
    issuedOn fd cs = txnsPatches T := by
  induction hrun with
  | nil =>
      rfl
  | openDevice _ devFd ih =>
      rw [issuedOn_snoc, ih (fun c hc => hon c (List.mem_append_left _ hc))]
      exact List.append_nil _
  | txnBegin _ ih =>
      rw [issuedOn_snoc, ih (fun c hc => hon c (List.mem_append_left _ hc))]
      exact List.append_nil _
  | @write cs H ws req _ _ _ devFd ih =>
      have hfd : devFd = fd := hon (.write devFd req) (by simp)
      rw [issuedOn_snoc, ih (fun c hc => hon c (List.mem_append_left _ hc)), DevCall.patchOn,
        if_pos hfd]
      simp [txnsPatches]
  | txnEnd _ ih =>
      rw [issuedOn_snoc, ih (fun c hc => hon c (List.mem_append_left _ hc))]
      simp [txnsPatches, DevCall.patchOn, historyPatches]

theorem issuedOn_of_ne {fd' : Nat} (hon : ∀ c ∈ cs, c.On fd) (hne : fd' ≠ fd) :
    issuedOn fd' cs = [] := by
  rw [issuedOn, List.filterMap_eq_nil_iff]
  intro c hc
  cases c with
  | openDevice _ | txnBegin | txnEnd =>
      rfl
  | write devFd req =>
      have hfd : devFd = fd := hon _ hc
      rw [DevCall.patchOn, if_neg]
      omega

theorem DevRun.proper {T : Txns} (hrun : DevRun cs T) :
    (∀ ws ∈ T.committed, ws.Proper) ∧ ∀ ws, T.current = some ws → ws.Proper := by
  induction hrun with
  | nil =>
      simp
  | openDevice _ _ ih =>
      exact ih
  | txnBegin _ ih =>
      refine ⟨ih.1, ?_⟩
      intro ws hws
      obtain rfl : [] = ws := Option.some.inj hws
      intro req hreq
      simp at hreq
  | @write cs H us req _ hne hwhole _ ih =>
      refine ⟨ih.1, ?_⟩
      intro ws hws
      obtain rfl : us ++ [req] = ws := Option.some.inj hws
      intro r hr
      rcases List.mem_append.mp hr with hr | hr
      · exact ih.2 us rfl r hr
      · rw [List.mem_singleton.mp hr]
        exact ⟨hne, hwhole⟩
  | @txnEnd cs H us _ ih =>
      refine ⟨?_, fun ws hws => by simp at hws⟩
      intro ws hws
      rcases List.mem_append.mp hws with hws | hws
      · exact ih.1 ws hws
      · rw [List.mem_singleton.mp hws]
        exact ih.2 us rfl

end Patches

section Runs

variable {crc : Bytes → UInt32} {s : State}

/-- **A later open** finds the header of the running session, replays nothing and writes the
header once more. -/
theorem rfsckOpen_again {es : List Entry} {M : List Nat} {n : Nat}
    (hs : Session crc es M n [] s) (hstate : s.data.hdr.state ≠ e2redoStateFinished)
    (redo : String) (devFd : Nat) (raw : RedoPrivateData) :
    ∃ w out, (Redo.rfsckOpen crc (some redo) devFd raw s.process).2 =
        { redoData := some s.data, world := w, out := out } ∧
      w.outcomes = [] ∧ ∀ fd, w.file fd = s.world.file fd := by
  by_cases hdev : devFd < 1
  · refine ⟨s.world, s.out ++ [.fdOfDevFileEmpty], ?_, hs.outcomes_nil, fun _ => rfl⟩
    rw [Redo.rfsckOpen, if_neg (by simp), if_pos hdev]
    rfl
  · obtain ⟨m, hm⟩ := hs.replay_of_not_finished hstate true
    have hout := hs.outcomes_nil
    have hopen : Redo.rfsckOpen crc (some redo) devFd raw s.process =
        (let r := firstOpen crc s
        if r.1 ≠ 0 then
          (r.1, (r.2.print .unableToWriteRedoHeader).process)
        else
          (r.1, r.2.process)) := by
      unfold Redo.rfsckOpen
      rw [if_neg (by simp), if_neg hdev]
      dsimp only [State.process]
      rw [World.openRedo_of_outcomes_nil hout]
      dsimp only
      rw [World.openRedo_of_outcomes_nil hout]
      rfl
    have hfirst := firstOpen_eq crc (s := s) (by rw [hm]; exact hout)
    rw [hm] at hfirst
    refine ⟨s.world.push (.pwrite .redo 0 s.data.hdr.encode), (s.print m).out, ?_, hout, ?_⟩
    · rw [hopen, hfirst]
      rfl
    · intro fd
      cases fd with
      | redo =>
          rw [World.file_push, applyEvent_pwrite_self, hs.header_holds.pwrite_eq]
      | dev fd =>
          exact file_dev_push_redo _ _ _ _

/-- What holds while the requests run: the log is the one of the history, and no device has
changed since the start. -/
structure Running (crc : Bytes → UInt32) (w : World) (fd : Nat) (T : Txns) (s : State) :
    Prop where
  logged : Logged crc T false fd (w.file (.dev fd)) s
  spared : ∀ fd, s.world.file (.dev fd) = w.file (.dev fd)

theorem Running.outcomes_nil {w : World} {fd : Nat} {T : Txns} (h : Running crc w fd T s) :
    s.world.outcomes = [] := by
  obtain ⟨n, hs⟩ := h.logged.session
  exact hs.outcomes_nil

theorem Running.openDevice {w : World} {fd : Nat} {T : Txns} (h : Running crc w fd T s)
    (redo : String) (devFd : Nat) :
    Running crc w fd T (DevCall.run crc .ext redo (.openDevice devFd) s) := by
  obtain ⟨n, hs⟩ := h.logged.session
  have hstate : s.data.hdr.state ≠ e2redoStateFinished := by
    intro hf
    exact absurd (h.logged.done_iff.mp hf) (by simp)
  obtain ⟨v, out, hopen, hout, hfile⟩ := rfsckOpen_again hs hstate redo devFd s.data
  have hrun : DevCall.run crc .ext redo (.openDevice devFd) s =
      { data := s.data, world := v, out := out } := by
    simp only [DevCall.run, Tool.rfsckOpen, hopen]
    rfl
  rw [hrun]
  refine ⟨?_, fun fd => (hfile _).trans (h.spared fd)⟩
  refine { h.logged with
    session := ⟨n, (hs.of_file (hfile .redo) hout).congr rfl rfl⟩
    dev_eq := (hfile _).trans h.logged.dev_eq }

theorem Running.spared_call {w : World} {fd : Nat} {T : Txns} (h : Running crc w fd T s)
    {c : Call} (hc : c.Logging) (fd' : Nat) :
    (c.run crc s).2.world.file (.dev fd') = w.file (.dev fd') := by
  exact (hc.run_dev crc h.outcomes_nil fd').2.1.trans (h.spared fd')

/-- **The run lemma.** -/
theorem DevRun.running {cs : List DevCall} {T : Txns} (hrun : DevRun cs T) {tool : Tool}
    (htool : tool = .xfs → ∀ c ∈ cs, c.NoOpen) {w : World} {fd : Nat}
    (h : Running crc w fd ⟨[], none⟩ s) (redo : String) :
    Running crc w fd T (runDevCalls crc tool redo cs s) := by
  induction hrun with
  | nil =>
      exact h
  | openDevice _ devFd ih =>
      have hprev := ih (fun ht c hc => htool ht c (List.mem_append_left _ hc))
      rw [runDevCalls_snoc]
      cases tool with
      | ext =>
          exact hprev.openDevice redo devFd
      | xfs =>
          exact absurd (htool rfl (.openDevice devFd) (by simp)) id
  | txnBegin _ ih =>
      have hprev := ih (fun ht c hc => htool ht c (List.mem_append_left _ hc))
      rw [runDevCalls_snoc]
      exact ⟨hprev.logged.txnBegin, hprev.spared_call (c := .txnBegin) trivial⟩
  | @write cs H ws req _ _ hwhole _ ih =>
      have hprev := ih (fun ht c hc => htool ht c (List.mem_append_left _ hc))
      rw [runDevCalls_snoc]
      exact ⟨hprev.logged.write hwhole, hprev.spared_call (c := .write req) hwhole⟩
  | txnEnd _ ih =>
      have hprev := ih (fun ht c hc => htool ht c (List.mem_append_left _ hc))
      rw [runDevCalls_snoc]
      exact ⟨hprev.logged.txnEnd, hprev.spared_call (c := .txnEnd) trivial⟩

/-- The log that a tool finds is a fresh one: its first open replays nothing. -/
def Tool.Fresh (crc : Bytes → UInt32) (w : World) : Tool → Prop
  | .ext => ¬ w.header.Finished crc
  | .xfs => w.header.headerCrc ≠ w.header.checksum crc

/-- The state behind the open of the first device, all system calls succeeding. -/
structure FirstOpen (crc : Bytes → UInt32) (tool : Tool) (w : World) (fd : Nat) (s : State) :
    Prop where
  outcomes_nil : w.outcomes = []
  fresh : tool.Fresh crc w
  opened : ∃ redo raw out,
    tool.rfsckOpen crc (some redo) fd raw { redoData := none, world := w, out := out } =
      (0, s.process)

/-- The library behind `redo_setup` and the write of the header. -/
theorem running_of_setup {w : World} (hout : w.outcomes = []) (fd : Nat) (raw : RedoPrivateData)
    (out : List Message) :
    Running crc w fd ⟨[], none⟩
      { data := redoSetup crc fd raw
        world := w.push (.pwrite .redo 0 (redoSetup crc fd raw).hdr.encode)
        out := out } := by
  refine ⟨?_, fun fd => file_dev_push_redo _ _ _ _⟩
  refine {
    session := ⟨0, session_of_open crc (s := setupState crc fd raw w out) rfl hout⟩
    txnId_eq := rfl
    txnCsum_eq := fun us hus => by simp at hus
    done_iff := ?_
    devFd_eq := rfl
    dev_eq := file_dev_push_redo _ _ _ _ }
  change (0 : UInt32) = e2redoStateFinished ↔ _
  simp [zero_ne_finished]

theorem FirstOpen.running {tool : Tool} {w : World} {fd : Nat}
    (h : FirstOpen crc tool w fd s) : Running crc w fd ⟨[], none⟩ s := by
  obtain ⟨redo, raw, out, hopen⟩ := h.opened
  cases tool with
  | ext =>
      obtain ⟨m, rfl⟩ := state_of_rfsckOpen h.outcomes_nil h.fresh hopen
      exact running_of_setup h.outcomes_nil fd raw _
  | xfs =>
      have hdev : 1 ≤ fd := by
        by_contra hlt
        rw [Tool.rfsckOpen, Xfs.rfsckOpen, if_neg (by simp), if_pos (by omega)] at hopen
        simp at hopen
      rw [Tool.rfsckOpen, Xfs.rfsckOpen_eq crc h.outcomes_nil h.fresh redo hdev] at hopen
      obtain rfl := State.process_injective (Prod.mk.inj hopen).2
      exact running_of_setup h.outcomes_nil fd raw _

end Runs

section Replays

variable {crc : Bytes → UInt32} {s : State}

theorem perform_other {devFd fd : Nat} (hne : fd ≠ devFd) (as : List Action) (w : World) :
    (perform devFd as w).file (.dev fd) = w.file (.dev fd) := by
  induction as generalizing w with
  | nil =>
      rfl
  | cons a as ih =>
      rw [perform_cons, ih, World.file_push]
      cases a with
      | copy tag pos =>
          exact applyEvent_pwrite_other (by simpa using Ne.symm hne) _ _ _
      | mark offset kb =>
          exact applyEvent_pwrite_other (by simp) _ _ _

theorem Tool.rfsckReplay_of_finished (hout : s.world.outcomes = [])
    (hfin : s.world.header.Finished crc) (tool : Tool) (sync : Bool) :
    tool.rfsckReplay crc sync s = Redo.rfsckReplay crc sync s := by
  cases tool with
  | ext =>
      rfl
  | xfs =>
      rw [Tool.rfsckReplay, Xfs.rfsckReplay_eq hout, Redo.rfsckReplay_eq crc hout,
        if_neg (not_not.mpr hfin.1), if_neg (not_not.mpr hfin.1), if_neg (not_not.mpr hfin.2)]

variable {tool : Tool} {w : World} {fd : Nat} {cs : List DevCall} {H : List Txn}

/-- **A replay applies every write to the first device**, whatever device it was issued on. -/
theorem replay_reaches_first (h : FirstOpen crc tool w fd s) (hrun : DevRun cs ⟨H, none⟩)
    (htool : tool = .xfs → ∀ c ∈ cs, c.NoOpen) (hids : H.length < 2 ^ 32)
    (hblocks : tagCount H / keysPerBlock < 2 ^ 31) (halign : AlignedFrom 0 H) (redo : String)
    (sync : Bool) :
    (finish crc tool sync (runDevCalls crc tool redo cs s)).world.file (.dev fd) =
        applyPatches (w.file (.dev fd)) (historyPatches H) ∧
      ∀ fd', fd' ≠ fd →
        (finish crc tool sync (runDevCalls crc tool redo cs s)).world.file (.dev fd') =
          w.file (.dev fd') := by
  have hend := hrun.running htool h.running redo
  have hdone := hend.logged.markDone true
  have hsealed := hend.logged.sealedLog hrun.proper.1 hids hblocks
  obtain ⟨n, hsession⟩ := hdone.session
  have hout := hsession.outcomes_nil
  have hfin := hsession.finished_iff.mpr (hdone.done_iff.mpr rfl)
  have hfd := hdone.devFd_eq
  have hspared : ∀ fd', (redoMarkDone crc true (runDevCalls crc tool redo cs s)).2.world.file
      (.dev fd') = w.file (.dev fd') :=
    hend.spared_call (c := .markDone true) trivial
  rw [finish, Tool.rfsckReplay_of_finished hout hfin]
  generalize (redoMarkDone crc true (runDevCalls crc tool redo cs s)).2 = s' at *
  constructor
  · have hreplay := hsealed.replay_dev_of_aligned hout halign sync
    rw [hfd, hspared] at hreplay
    exact hreplay
  · intro fd' hne
    rw [hsealed.log.replay_eq hout sync]
    have hdev : fd' ≠ s'.data.devFd := by
      rw [hfd]
      exact hne
    have hother := perform_other hdev (planLog crc s').2 s'.world
    cases sync with
    | false =>
        exact hother.trans (hspared fd')
    | true =>
        exact (World.file_push _ _ _).trans (hother.trans (hspared fd'))

/-- **Each device gets the writes issued on it**, if all of them are issued on the first. -/
theorem replay_reaches_issued (h : FirstOpen crc tool w fd s) (hrun : DevRun cs ⟨H, none⟩)
    (htool : tool = .xfs → ∀ c ∈ cs, c.NoOpen) (hon : ∀ c ∈ cs, c.On fd)
    (hids : H.length < 2 ^ 32) (hblocks : tagCount H / keysPerBlock < 2 ^ 31)
    (halign : AlignedFrom 0 H) (redo : String) (sync : Bool) (fd' : Nat) :
    (finish crc tool sync (runDevCalls crc tool redo cs s)).world.file (.dev fd') =
      applyPatches (w.file (.dev fd')) (issuedOn fd' cs) := by
  obtain ⟨hfirst, hother⟩ := replay_reaches_first h hrun htool hids hblocks halign redo sync
  by_cases hne : fd' = fd
  · rw [hne, hfirst, hrun.issuedOn_eq hon, txnsPatches]
    exact congrArg _ (List.append_nil _).symm
  · rw [hother fd' hne, issuedOn_of_ne hon hne, applyPatches_nil]

end Replays

/-- A run with a second device, and a transaction with one write. -/
def twoDevices (devFd : Nat) : List DevCall :=
  [.openDevice 2, .txnBegin, .write devFd (byteWrite 0 7), .txnEnd]

theorem twoDevices_devRun (devFd : Nat) :
    DevRun (twoDevices devFd) ⟨[[byteWrite 0 7]], none⟩ := by
  have hwhole : (byteWrite 0 7).Whole := by
    rw [WriteReq.Whole]
    decide
  have hbegin := (DevRun.nil.openDevice 2).txnBegin
  exact (@DevRun.write _ _ _ (byteWrite 0 7) hbegin (by decide) hwhole devFd).txnEnd

theorem alignedFrom_of_one (i : Nat) (ws : Txn) : AlignedFrom i [ws] := by
  exact ⟨fun _ us hus => by simp at hus, trivial⟩

theorem blankState_firstOpen (crc : Bytes → UInt32) :
    FirstOpen crc .ext blankWorld 1 (blankState crc) := by
  have hnew := not_finished_blankWorld crc
  exact ⟨rfl, hnew, "redo", blankData, [],
    rfsckOpen_eq_firstOpen crc rfl hnew "redo" (le_refl 1) blankData []⟩

theorem replay_reaches_issued_of_twoDevices :
    (finish crc32c .ext true (runDevCalls crc32c .ext "redo" (twoDevices 1)
        (blankState crc32c))).world.file (.dev 1) =
      applyPatches (blankWorld.file (.dev 1)) (issuedOn 1 (twoDevices 1)) := by
  refine replay_reaches_issued (blankState_firstOpen crc32c) (twoDevices_devRun 1) (by simp) ?_
    (by decide) (by decide)
    (alignedFrom_of_one 0 _) "redo" true 1
  intro c hc
  simp only [twoDevices, List.mem_cons, List.not_mem_nil, or_false] at hc
  rcases hc with rfl | rfl | rfl | rfl <;> trivial

/-- **A write on the second device is applied to the first.** -/
theorem replay_reaches_other_device :
    (finish crc32c .ext true (runDevCalls crc32c .ext "redo" (twoDevices 2)
          (blankState crc32c))).world.file (.dev 1) ≠
        applyPatches (blankWorld.file (.dev 1)) (issuedOn 1 (twoDevices 2)) ∧
      (finish crc32c .ext true (runDevCalls crc32c .ext "redo" (twoDevices 2)
          (blankState crc32c))).world.file (.dev 2) ≠
        applyPatches (blankWorld.file (.dev 2)) (issuedOn 2 (twoDevices 2)) := by
  obtain ⟨hfirst, hother⟩ := replay_reaches_first (blankState_firstOpen crc32c)
    (twoDevices_devRun 2) (by simp) (by decide) (by decide)
    (alignedFrom_of_one 0 _) "redo" true
  constructor
  · rw [hfirst]
    intro h
    exact absurd (congrArg ByteFile.size h) (by decide)
  · rw [hother 2 (by decide)]
    intro h
    exact absurd (congrArg ByteFile.size h) (by decide)

end Devices
end Rfsck
