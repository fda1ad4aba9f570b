import Rfsck.Redo.Reuse
import Rfsck.Xfs.Rdwr
import Rfsck.Xfs.Redo

/-!
# The transaction of `xfs_repair`

`libxfs_device_open` calls `rfsck_open`, `libxfs_device_close` calls `rfsck_replay`, and
`main` of `xfs_repair.c` puts the flush of the buffer cache into one transaction.

* `Repair` describes a run: the volumes, and the writes through `__write_buf` before, inside
  and behind the transaction.
* `xfsRepair` is the run, from the first open to the last close.
* `repair_applies_txn`: with one volume, no write before the transaction and tags that fit
  the first key block, the volume holds the writes of the transaction.
* `repair_loses_txn`: a transaction that fills the first key block is lost.

A volume is a device number and the file behind it.  The descriptor that `rfsck_open` gets
is a second one of the same file.
-/

namespace Rfsck
namespace Xfs

open Storage
open Redo
open UnixIo (Buffer logRequest)

/-- `MAX_DEVS`. -/
def maxDevs : Nat := 10

/-- A volume of the file system. -/
structure Volume where
  dev : Nat
  fd : Nat

/-- The entry of a new device in `dev_map`; `none` is `exit(1)`. -/
def addDevice (v : Volume) (devMap : List (Nat × Nat)) : Option (List (Nat × Nat)) :=
  if devMap.any (fun entry => entry.1 = v.dev) then
    none
  else if devMap.length < maxDevs then
    some (devMap ++ [(v.dev, v.fd)])
  else
    none

section Devices

variable (crc : Bytes → UInt32)

/-- `libxfs_device_open`. -/
def deviceOpen (redoFile : Option String) (raw : RedoPrivateData) (v : Volume)
    (devMap : List (Nat × Nat)) (p : Process) : Option (List (Nat × Nat)) × Process :=
  match redoFile with
  | none => (addDevice v devMap, p)
  | some redo =>
      let (retval, p) := rfsckOpen crc (some redo) v.fd raw p
      if retval ≠ 0 then
        (none, p)
      else
        (addDevice v devMap, p)

/-- The opens of `libxfs_init`. -/
def openDevices (redoFile : Option String) (raw : RedoPrivateData) :
    List Volume → List (Nat × Nat) → Process → Option (List (Nat × Nat) × Process)
  | [], devMap, p => some (devMap, p)
  | v :: vs, devMap, p =>
      match deviceOpen crc redoFile raw v devMap p with
      | (none, _) => none
      | (some devMap, p) => openDevices redoFile raw vs devMap p

/-- `libxfs_device_close`; `none` is `exit(1)`. -/
def deviceClose (dev : Nat) (s : Libxfs) : Option Libxfs :=
  match s.deviceToFd dev with
  | none => none
  | some fd =>
      let s := { s with devMap := s.devMap.filter (fun entry => entry.1 ≠ dev) }
      if s.redoFile.isSome then
        let (_, redo) := rfsckReplay crc true s.redo
        some { s with redo := redo }
      else
        let (_, world) := s.redo.world.fsync (.dev fd)
        some { s with redo.world := world }

/-- The closes at the end of `main`. -/
def closeDevices : List Nat → Libxfs → Option Libxfs
  | [], s => some s
  | dev :: devs, s =>
      match deviceClose crc dev s with
      | none => none
      | some s => closeDevices devs s

/-- Writes through `__write_buf`, one behind the other. -/
def issueAll (ds : List DevWrite) (s : Libxfs) : Libxfs :=
  ds.foldl (fun s d =>
    (writeBuf crc d.fd (Buffer.ofBytes d.data) d.data.length d.location false s).2) s

end Devices

/-- A run of `xfs_repair` with `redo_file` set. -/
structure Repair where
  redoFile : String
  raw : RedoPrivateData
  data : Volume
  log : Option Volume
  rt : Option Volume
  before : List DevWrite
  within : List DevWrite
  behind : List DevWrite

namespace Repair

def volumes (r : Repair) : List Volume :=
  r.data :: (r.log.toList ++ r.rt.toList)

/-- The process behind the opens. -/
def opened (crc : Bytes → UInt32) (r : Repair) (w : World) : Option Libxfs :=
  match openDevices crc (some r.redoFile) r.raw r.volumes []
      { redoData := none, world := w, out := [] } with
  | none => none
  | some (devMap, p) =>
      p.redoData.map fun data =>
        { redoFile := some r.redoFile
          devMap := devMap
          bcache := []
          bufMem := fun _ => 0
          redo := { data := data, world := p.world, out := p.out }
          issued := [] }

/-- The writes and the transaction around the flush of the buffer cache. -/
def session (crc : Bytes → UInt32) (r : Repair) (s : Libxfs) : Libxfs :=
  let s := issueAll crc r.before s
  let s := { s with redo := (rfsckTxnBegin crc 0 s.redo).2 }
  let s := issueAll crc r.within s
  let s := { s with redo := (rfsckTxnEnd crc s.redo).2 }
  issueAll crc r.behind s

end Repair

/-- `main` of `xfs_repair.c`, as far as it uses the devices. -/
def xfsRepair (crc : Bytes → UInt32) (r : Repair) (w : World) : Option Libxfs :=
  match r.opened crc w with
  | none => none
  | some s =>
      closeDevices crc ((r.rt.toList ++ r.log.toList ++ [r.data]).map Volume.dev)
        (r.session crc s)

section Runs

variable {crc : Bytes → UInt32}

/-- The arguments that `rfsck_write` gets. -/
def DevWrite.request (d : DevWrite) : WriteReq :=
  logRequest d.location d.data

def DevWrite.patch (d : DevWrite) : Patch where
  offset := d.location
  data := d.data

/-- The write has data, fits one system call and starts at an `off64_t`. -/
structure DevWrite.Proper (d : DevWrite) : Prop where
  ne_nil : d.data ≠ []
  le_max : d.data.length ≤ maxRwCount
  lt_off : d.location < 2 ^ 63

theorem DevWrite.Proper.buf_eq {d : DevWrite} (h : d.Proper) : d.request.buf = d.data := by
  have hlt : d.data.length < 2 ^ 32 := lt_of_le_of_lt h.le_max (by decide)
  change d.data.take (d.data.length % 2 ^ 32) = d.data
  rw [Nat.mod_eq_of_lt hlt, List.take_length]

theorem DevWrite.Proper.patch_eq {d : DevWrite} (h : d.Proper) : d.request.patch = d.patch := by
  have hoff : (UInt64.ofNat d.location).toNat = d.location := by
    refine UInt64.toNat_ofNat_of_lt' ?_
    have := h.lt_off
    rw [show UInt64.size = 2 ^ 64 from rfl]
    omega
  rw [WriteReq.patch, h.buf_eq, DevWrite.patch]
  exact congrArg (fun n => (⟨n, d.data⟩ : Patch)) hoff

def requests (ds : List DevWrite) : Txn :=
  ds.map DevWrite.request

theorem proper_requests {ds : List DevWrite} (h : ∀ d ∈ ds, d.Proper) :
    (requests ds).Proper := by
  intro req hreq
  obtain ⟨d, hd, rfl⟩ := List.mem_map.mp hreq
  have hbuf := (h d hd).buf_eq
  refine ⟨?_, ?_⟩
  · rw [hbuf]
    exact (h d hd).ne_nil
  · rw [WriteReq.Whole, hbuf]
    exact (h d hd).le_max

theorem patches_requests {ds : List DevWrite} (h : ∀ d ∈ ds, d.Proper) :
    (requests ds).map WriteReq.patch = ds.map DevWrite.patch := by
  rw [requests, List.map_map]
  exact List.map_congr_left (fun d hd => (h d hd).patch_eq)

/-- The library behind writes through `__write_buf`. -/
theorem issueAll_redo (ds : List DevWrite) {s : Libxfs} (hredo : s.redoFile.isSome) :
    (issueAll crc ds s).redo = runCalls crc ((requests ds).map Call.write) s.redo ∧
      (issueAll crc ds s).redoFile = s.redoFile ∧ (issueAll crc ds s).devMap = s.devMap := by
  induction ds generalizing s with
  | nil =>
      exact ⟨rfl, rfl, rfl⟩
  | cons d ds ih =>
      have hbytes : (Buffer.ofBytes d.data).bytes d.data.length = d.data :=
        UnixIo.Buffer.bytes_ofBytes rfl
      have hfirst : (writeBuf crc d.fd (Buffer.ofBytes d.data) d.data.length d.location false
          s).2 = { s with
            redo := (rfsckWrite crc d.request s.redo).2
            issued := s.issued ++ [⟨d.fd, d.location, d.data⟩] } := by
        unfold writeBuf
        dsimp only
        rw [if_pos hredo, hbytes]
        rfl
      obtain ⟨h1, h2, h3⟩ := ih (s := (writeBuf crc d.fd (Buffer.ofBytes d.data) d.data.length
        d.location false s).2) (by rw [hfirst]; exact hredo)
      rw [hfirst] at h1 h2 h3
      rw [issueAll, List.foldl_cons, hfirst]
      exact ⟨h1, h2, h3⟩

def Repair.pieces (r : Repair) : List Piece :=
  (requests r.before).map Piece.outside ++
    .txn (requests r.within) :: (requests r.behind).map Piece.outside

theorem calls_outside (reqs : Txn) (xs : List Piece) :
    Piece.calls (reqs.map Piece.outside ++ xs) = reqs.map Call.write ++ Piece.calls xs := by
  induction reqs with
  | nil =>
      rfl
  | cons req reqs ih =>
      exact congrArg (List.cons _) ih

theorem Repair.session_redo (r : Repair) {s : Libxfs} (hredo : s.redoFile.isSome) :
    (r.session crc s).redo = runCalls crc (Piece.calls r.pieces) s.redo ∧
      (r.session crc s).redoFile = s.redoFile ∧ (r.session crc s).devMap = s.devMap := by
  obtain ⟨h1, h2, h3⟩ := @issueAll_redo crc r.before s hredo
  unfold Repair.session
  dsimp only
  generalize issueAll crc r.before s = s₁ at *
  obtain ⟨h4, h5, h6⟩ := @issueAll_redo crc r.within
    { s₁ with redo := (rfsckTxnBegin crc 0 s₁.redo).2 } (by rw [h2]; exact hredo)
  generalize issueAll crc r.within { s₁ with redo := (rfsckTxnBegin crc 0 s₁.redo).2 } = s₂ at *
  obtain ⟨h7, h8, h9⟩ := @issueAll_redo crc r.behind
    { s₂ with redo := (rfsckTxnEnd crc s₂.redo).2 } (by rw [h5]; exact h2 ▸ hredo)
  refine ⟨?_, h8.trans (h5.trans h2), h9.trans (h6.trans h3)⟩
  have hbehind := calls_outside (requests r.behind) []
  rw [List.append_nil, Piece.calls, List.append_nil] at hbehind
  rw [h7, Repair.pieces, calls_outside, Piece.calls, hbehind, runCalls_append, txnCalls,
    runCalls_append, runCalls_cons, runCalls_append, ← h1]
  dsimp only at h4 ⊢
  rw [h4]
  rfl

end Runs

section Headers

variable {crc : Bytes → UInt32} {s : State}

/-- Only `redo_mark_done` changes the header. -/
theorem run_hdr {c : Call} (hc : c.Logging) (hdone : ∀ done, c ≠ .markDone done)
    (h : s.world.outcomes = []) : (c.run crc s).2.data.hdr = s.data.hdr := by
  cases c with
  | txnBegin =>
      rw [Call.run, rfsckTxnBegin_eq crc h]
      exact rollKeyb_hdr _
  | write req =>
      rw [Call.run, rfsckWrite_eq crc h hc]
      exact rollKeyb_hdr _
  | txnEnd =>
      rw [Call.run, rfsckTxnEnd_eq crc h]
      exact rollKeyb_hdr _
  | flush =>
      rw [Call.run, rfsckFlush_eq crc h]
      rfl
  | markDone done =>
      exact absurd rfl (hdone done)
  | replay sync =>
      exact hc.elim

theorem runCalls_hdr {cs : List Call} (hcs : ∀ c ∈ cs, c.Logging ∧ ∀ done, c ≠ .markDone done)
    (h : s.world.outcomes = []) : (runCalls crc cs s).data.hdr = s.data.hdr := by
  induction cs generalizing s with
  | nil =>
      rfl
  | cons c cs ih =>
      obtain ⟨hc, hdone⟩ := hcs c (by simp)
      have hout := (hc.run_dev crc h 0).2.2
      rw [runCalls_cons]
      exact (ih (fun d hd => hcs d (List.mem_cons_of_mem c hd)) hout).trans (run_hdr hc hdone h)

theorem Piece.not_markDone_of_mem_calls {xs : List Piece} {c : Call} (hc : c ∈ Piece.calls xs)
    (done : Bool) : c ≠ .markDone done := by
  induction xs with
  | nil =>
      simp [Piece.calls] at hc
  | cons x xs ih =>
      cases x with
      | txn ws =>
          rw [Piece.calls] at hc
          rcases List.mem_append.mp hc with hc | hc
          · rintro rfl
            simp [txnCalls] at hc
          · exact ih hc
      | outside req =>
          rw [Piece.calls] at hc
          rcases List.mem_cons.mp hc with rfl | hc
          · simp
          · exact ih hc

end Headers

section Replayed

variable {crc : Bytes → UInt32} {s : State}

/-- The history of a single transaction, and writes behind it. -/
def txnThen (ws reqs : Txn) : List Piece :=
  .txn ws :: reqs.map Piece.outside

theorem txns_outside (reqs : Txn) : Piece.txns (reqs.map Piece.outside) = [] := by
  induction reqs with
  | nil =>
      rfl
  | cons req reqs ih =>
      exact ih

theorem found_outside (i : Nat) (id : UInt32) (pos : Nat) (reqs : Txn) :
    Piece.found crc i id pos (reqs.map Piece.outside) = [] := by
  induction reqs generalizing i with
  | nil =>
      rfl
  | cons req reqs ih =>
      exact ih _

theorem entries_outside (id : UInt32) (reqs : Txn) :
    Piece.entries crc id (reqs.map Piece.outside) = reqs.map (WriteReq.entry crc) := by
  induction reqs with
  | nil =>
      rfl
  | cons req reqs ih =>
      exact congrArg (List.cons _) ih

theorem inertFrom_outside (i : Nat) (reqs : Txn) :
    Piece.InertFrom i (reqs.map Piece.outside) := by
  induction reqs generalizing i with
  | nil =>
      trivial
  | cons req reqs ih =>
      refine ⟨?_, ih _⟩
      intro us hus
      rw [txns_outside] at hus
      simp at hus

theorem proper_txnThen {ws reqs : Txn} (hws : ws.Proper) (hreqs : reqs.Proper) :
    ∀ x ∈ txnThen ws reqs, x.Proper := by
  intro x hx
  rcases List.mem_cons.mp hx with rfl | hx
  · exact hws
  · obtain ⟨req, hreq, rfl⟩ := List.mem_map.mp hx
    intro r hr
    rw [List.mem_singleton.mp hr]
    exact hreqs req hreq

theorem found_txnThen {ws reqs : Txn} (hws : ws.Proper) (hreqs : reqs.Proper)
    (hfits : ws.length + 2 ≤ keysPerBlock) (out : List Message) :
    (walkLog crc (Piece.entries crc 1 (txnThen ws reqs)) [] 1 out).found =
      Piece.found crc 0 1 (redoHeaderSize + redoLogBlockSize) (txnThen ws reqs) := by
  have hentries : Piece.entries crc 1 (txnThen ws reqs) =
      txnEntries crc 1 ws ++ reqs.map (WriteReq.entry crc) := by
    rw [txnThen, Piece.entries, entries_outside]
  have hslice := slice_tagOf_append [] (txnEntries crc 1 ws) (reqs.map (WriteReq.entry crc))
  rw [List.nil_append, length_txnEntries, map_tag_txnEntries, List.length_nil] at hslice
  rw [walkLog, markedTagOf_nil, hentries, Nat.mul_one, ← Nat.add_sub_cancel' hfits, Walk.run_add,
    Walk.found_run_of_not_isEdge, run_txn crc _ (by decide) hws hslice rfl, txnThen, Piece.found,
    found_outside]
  · rfl
  · intro g hg _
    rw [tagOf_append_right _ _ (by rw [length_txnEntries]; omega)]
    refine not_isEdge_tagOf ?_ _
    intro e he
    obtain ⟨req, hreq, rfl⟩ := List.mem_map.mp he
    exact not_isEdge_entry crc (hreqs req hreq).1

/-- **The replay of a transaction in the first key block**, whoever wrote the log. -/
theorem replay_txnThen_of_holds {hdr : RedoHeader} {ws reqs : Txn} (hws : ws.Proper)
    (hreqs : reqs.Proper) (hfits : ws.length + 2 ≤ keysPerBlock) (hout : s.world.outcomes = [])
    (hholds : (s.world.file .redo).Holds 0 hdr.encode) (hcrc : hdr.headerCrc = hdr.checksum crc)
    (hkeys : hdr.numKeys = 0) (hoffset : hdr.keyOffset.toNat = redoHeaderSize)
    (hkeyb : (s.world.file .redo).Holds redoHeaderSize
      (keybOf crc (Piece.entries crc 1 (txnThen ws reqs)) 0).encode)
    (hdata : DataHolds (Piece.entries crc 1 (txnThen ws reqs)) (s.world.file .redo))
    (flush : Bool) :
    (rfsckReplay crc flush s).2.world.file (.dev s.data.devFd) =
      applyPatches (s.world.file (.dev s.data.devFd)) (ws.map WriteReq.patch) := by
  have hxs := proper_txnThen hws hreqs
  have hacts := planLog_of_firstKeyb hholds hkeys hoffset hkeyb
  rw [found_txnThen hws hreqs hfits] at hacts
  have hinside : ∀ a ∈ (planLog crc s).2, a.Inside (s.world.file .redo).size := by
    rw [hacts]
    exact inside_pieces _ _ hxs hdata [] rfl (le_refl _) []
  have hvalid : s.world.header.headerCrc = s.world.header.checksum crc := by
    rw [World.header_of_holds hholds]
    exact hcrc
  have hpatches := devPatches_pieces (fun k => (keybOf crc (Piece.entries crc 1
    (txnThen ws reqs)) k).remark k []) (txnThen ws reqs) hdata [] rfl (Or.inl rfl)
    ⟨fun _ us hus => by rw [txns_outside] at hus; simp at hus, inertFrom_outside _ _⟩ []
  rw [rfsckReplay_dev hout hvalid hinside, hacts]
  refine congrArg _ (hpatches.trans ?_)
  rw [txnThen, Piece.txns, txns_outside, historyPatches_cons, historyPatches_nil, List.append_nil]

theorem Session.replay_txnThen {n : Nat} {ws reqs : Txn} (hws : ws.Proper) (hreqs : reqs.Proper)
    (hfits : ws.length + 2 ≤ keysPerBlock)
    (hs : Session crc (Piece.entries crc 1 (txnThen ws reqs)) [] n [] s) (hn : 0 < n)
    (hkeys : s.data.hdr.numKeys = 0) (flush : Bool) :
    (rfsckReplay crc flush s).2.world.file (.dev s.data.devFd) =
      applyPatches (s.world.file (.dev s.data.devFd)) (ws.map WriteReq.patch) := by
  have hkeyb := hs.stored.keyb_holds 0 hn
  rw [RedoBlock.remark_nil, keybPos_zero] at hkeyb
  exact replay_txnThen_of_holds hws hreqs hfits hs.outcomes_nil hs.header_holds hs.header_crc
    hkeys hs.header_keyOffset hkeyb hs.stored.data_holds flush

end Replayed

section Main

variable {crc : Bytes → UInt32} {w : World} {r : Repair}

/-- The process behind the open of the only volume. -/
def Repair.start (crc : Bytes → UInt32) (r : Repair) (w : World) : Libxfs where
  redoFile := some r.redoFile
  devMap := [(r.data.dev, r.data.fd)]
  bcache := []
  bufMem := fun _ => 0
  redo := openedState crc r.data.fd r.raw w []
  issued := []

theorem Repair.opened_eq (hout : w.outcomes = [])
    (hcrc : w.header.headerCrc ≠ w.header.checksum crc) (hfd : 1 ≤ r.data.fd)
    (hlog : r.log = none) (hrt : r.rt = none) :
    r.opened crc w = some (r.start crc w) := by
  have hopen := rfsckOpen_eq crc hout hcrc r.redoFile hfd r.raw []
  unfold Repair.opened
  rw [Repair.volumes, hlog, hrt, Option.toList_none, List.append_nil, openDevices, deviceOpen]
  dsimp only
  rw [hopen]
  rfl

/-- Only the data volume is open, nothing is written before the transaction, and the writes
are proper. -/
structure Repair.Single (r : Repair) : Prop where
  fd_pos : 1 ≤ r.data.fd
  log_eq : r.log = none
  rt_eq : r.rt = none
  before_eq : r.before = []
  within_proper : ∀ d ∈ r.within, d.Proper
  behind_proper : ∀ d ∈ r.behind, d.Proper

theorem Repair.Single.pieces_eq (h : r.Single) :
    r.pieces = txnThen (requests r.within) (requests r.behind) := by
  rw [Repair.pieces, h.before_eq]
  rfl

theorem Repair.Single.session (h : r.Single) (hout : w.outcomes = []) :
    (∃ n, 0 < n ∧ Session crc
        (Piece.entries crc 1 (txnThen (requests r.within) (requests r.behind))) [] n []
        (r.session crc (r.start crc w)).redo) ∧
      (r.session crc (r.start crc w)).redo.data.hdr.numKeys = 0 ∧
      (r.session crc (r.start crc w)).redo.data.devFd = r.data.fd ∧
      ∀ fd, (r.session crc (r.start crc w)).redo.world.file (.dev fd) = w.file (.dev fd) := by
  have hopen := openedState_session crc hout r.data.fd r.raw []
  have hxs := proper_txnThen (proper_requests h.within_proper) (proper_requests h.behind_proper)
  obtain ⟨n, hs, hn⟩ := hopen.pieces hxs
  have hlogging : ∀ c ∈ Piece.calls (txnThen (requests r.within) (requests r.behind)),
      c.Logging := fun c hc => Piece.logging_of_mem_calls hxs hc
  have hhdr : (runCalls crc (Piece.calls (txnThen (requests r.within) (requests r.behind)))
      (openedState crc r.data.fd r.raw w [])).data.hdr =
      (openedState crc r.data.fd r.raw w []).data.hdr :=
    runCalls_hdr (fun c hc => ⟨hlogging c hc, Piece.not_markDone_of_mem_calls hc⟩)
      hopen.outcomes_nil
  have hdev := runCalls_dev crc hlogging hopen.outcomes_nil
  rw [(r.session_redo rfl).1, h.pieces_eq]
  refine ⟨⟨n, hn (Or.inr (by simp [txnThen])), hs⟩, ?_, (hdev 0).1, ?_⟩
  · exact congrArg RedoHeader.numKeys hhdr
  · intro fd
    refine (hdev fd).2.trans ?_
    exact file_dev_push_redo _ _ _ _

theorem Repair.Single.xfsRepair_eq (h : r.Single) (hout : w.outcomes = [])
    (hcrc : w.header.headerCrc ≠ w.header.checksum crc) :
    ∃ s, xfsRepair crc r w = some s ∧
      s.redo = (rfsckReplay crc true (r.session crc (r.start crc w)).redo).2 := by
  obtain ⟨-, hredo, hmap⟩ := @Repair.session_redo crc r (r.start crc w) rfl
  unfold xfsRepair
  rw [Repair.opened_eq hout hcrc h.fd_pos h.log_eq h.rt_eq, h.log_eq, h.rt_eq]
  dsimp only
  generalize r.session crc (r.start crc w) = t at *
  have hlookup : t.deviceToFd r.data.dev = some r.data.fd := by
    rw [Libxfs.deviceToFd, hmap]
    simp [Repair.start]
  have hset : t.redoFile.isSome := by
    rw [hredo]
    rfl
  refine ⟨{ t with
    devMap := t.devMap.filter (fun entry => entry.1 ≠ r.data.dev)
    redo := (rfsckReplay crc true t.redo).2 }, ?_, rfl⟩
  simp only [Option.toList_none, List.nil_append, List.map_cons, List.map_nil, closeDevices,
    deviceClose, hlookup, hset, if_true]

/-- **The transaction of `xfs_repair` is applied** to the data volume, if it is the only one,
nothing was written before the transaction, and the tags fit the first key block. -/
theorem repair_applies_txn (hout : w.outcomes = [])
    (hcrc : w.header.headerCrc ≠ w.header.checksum crc) (h : r.Single)
    (hfits : r.within.length + 2 ≤ keysPerBlock) :
    ∃ s, xfsRepair crc r w = some s ∧
      s.redo.world.file (.dev r.data.fd) =
        applyPatches (w.file (.dev r.data.fd)) (r.within.map DevWrite.patch) := by
  obtain ⟨⟨n, hn, hs⟩, hkeys, hfd, hfile⟩ := @Repair.Single.session crc w r h hout
  obtain ⟨s, hrun, hredo⟩ := h.xfsRepair_eq hout hcrc
  have hlen : (requests r.within).length + 2 ≤ keysPerBlock := by
    rw [requests, List.length_map]
    exact hfits
  have hreplay := Session.replay_txnThen (proper_requests h.within_proper)
    (proper_requests h.behind_proper) hlen hs hn hkeys true
  rw [hfd, hfile, patches_requests h.within_proper] at hreplay
  refine ⟨s, hrun, ?_⟩
  rw [hredo]
  exact hreplay

theorem not_isEdge_openEntries {ws : Txn} (hws : ws.Proper) (id : UInt32) (cs : List Entry)
    {g : Nat} (hg : 1 ≤ g) (hlt : g < ws.length + 1) :
    ¬ (tagOf (openEntries crc id ws ++ cs) g).IsEdge := by
  have hlen : (openEntries crc id ws).length = ws.length + 1 := by
    simp [openEntries]
  have hopen : openEntries crc id ws = [Entry.edge 0 id] ++ ws.map (WriteReq.entry crc) := by
    rfl
  rw [tagOf_append_left _ _ (by omega), hopen, tagOf_append_right _ _ hg]
  refine not_isEdge_tagOf ?_ _
  intro e he
  obtain ⟨req, hreq, rfl⟩ := List.mem_map.mp he
  exact not_isEdge_entry crc (hws req hreq).1

theorem repair_misses_txn (hout : w.outcomes = [])
    (hcrc : w.header.headerCrc ≠ w.header.checksum crc) (h : r.Single)
    (hfull : keysPerBlock < r.within.length + 2) :
    ∃ s, xfsRepair crc r w = some s ∧
      s.redo.world.file (.dev r.data.fd) = w.file (.dev r.data.fd) := by
  obtain ⟨⟨n, hn, hs⟩, hkeys, hfd, hfile⟩ := @Repair.Single.session crc w r h hout
  obtain ⟨s, hrun, hredo⟩ := h.xfsRepair_eq hout hcrc
  refine ⟨s, hrun, ?_⟩
  rw [hredo, ← hfile]
  generalize (r.session crc (r.start crc w)).redo = t at *
  have hkeyb := hs.stored.keyb_holds 0 hn
  rw [RedoBlock.remark_nil, keybPos_zero] at hkeyb
  have hload : ((startReplay t.world.header 0 t).toScan.load (t.world.file .redo)).keyb =
      keybOf crc (Piece.entries crc 1 (txnThen (requests r.within) (requests r.behind))) 0 := by
    refine load_keyb_of_holds ?_
    rw [hs.header_eq]
    change (t.world.file .redo).Holds t.data.hdr.keyOffset.toNat _
    rw [hs.header_keyOffset]
    exact hkeyb
  have hplan : (planLog crc t).2 = [] := by
    refine planLog_of_one_edge (by rw [hs.header_eq]; exact hkeys) ?_
    intro c hc hlt
    rw [hload, keybOf_tag _ _ _ hlt, Nat.mul_zero, Nat.zero_add, txnThen, Piece.entries,
      txnEntries, List.append_assoc]
    refine not_isEdge_openEntries (proper_requests h.within_proper) 1 _ hc ?_
    rw [requests, List.length_map]
    omega
  have hvalid : t.world.header.headerCrc = t.world.header.checksum crc := by
    rw [hs.header_eq]
    exact hs.header_crc
  have hdev := rfsckReplay_dev hs.outcomes_nil hvalid (by rw [hplan]; simp) true
  rw [hplan, hfd] at hdev
  exact hdev

end Main

section Examples

/-- A run on one volume that writes a byte `n` times in its transaction. -/
def sevensRun (n : Nat) : Repair where
  redoFile := "redo"
  raw := blankData
  data := ⟨1, 1⟩
  log := none
  rt := none
  before := []
  within := List.replicate n ⟨1, 0, [7]⟩
  behind := []

theorem sevensRun_single (n : Nat) : (sevensRun n).Single := by
  refine ⟨le_refl 1, rfl, rfl, rfl, ?_, fun d hd => by simp [sevensRun] at hd⟩
  intro d hd
  rw [List.eq_of_mem_replicate hd]
  exact ⟨by simp, by decide, by decide⟩

theorem length_sevensRun (n : Nat) : (sevensRun n).within.length = n := by
  exact List.length_replicate

theorem blankWorld_mismatch : blankWorld.header.headerCrc ≠ blankWorld.header.checksum crc32c := by
  decide +kernel

theorem repair_applies_txn_sevensRun :
    ∃ s, xfsRepair crc32c (sevensRun 1) blankWorld = some s ∧
      s.redo.world.file (.dev 1) = applyPatches (blankWorld.file (.dev 1)) [⟨0, [7]⟩] :=
  repair_applies_txn rfl blankWorld_mismatch (sevensRun_single 1) (by decide)

/-- **A transaction with 254 writes is lost**: its end tag is in the second key block. -/
theorem repair_loses_txn :
    ∃ s, xfsRepair crc32c (sevensRun 254) blankWorld = some s ∧
      s.redo.world.file (.dev 1) ≠
        applyPatches (blankWorld.file (.dev 1)) ((sevensRun 254).within.map DevWrite.patch) := by
  obtain ⟨s, hrun, hfile⟩ := repair_misses_txn rfl blankWorld_mismatch (sevensRun_single 254)
    (by rw [length_sevensRun, keysPerBlock_eq]; omega)
  have hsize : (applyPatches (blankWorld.file (.dev 1))
      ((sevensRun 254).within.map DevWrite.patch)).size = 1 := by
    decide +kernel
  have hzero : (s.redo.world.file (.dev 1)).size = 0 := congrArg ByteFile.size hfile
  refine ⟨s, hrun, ?_⟩
  intro heq
  have hone := (congrArg ByteFile.size heq).trans hsize
  rw [hzero] at hone
  cases hone

end Examples

end Xfs
end Rfsck
