import Rfsck.Redo.Opening

/-!
# Histories of transactions

A transaction is the list of its writes.  A history is logged by calling
`rfsck_txn_begin`, `rfsck_write` for each write and `rfsck_txn_end`.

* `historyEntries` is the log of a history: a begin tag, the tags of the writes
  and an end tag with the checksum of the transaction, for each transaction.
* `PlainRun cs T done`: the calls `cs` log the transactions `T`, possibly with
  flushes, `redo_mark_done` calls and replays in between, where no replay finds the
  log marked done.
* `Logged`: what holds in the state after such a run.
-/

namespace Rfsck
namespace Redo

open Storage

abbrev Txn := List WriteReq

def txnCalls (ws : Txn) : List Call :=
  .txnBegin :: (ws.map Call.write ++ [.txnEnd])

def historyCalls (H : List Txn) : List Call :=
  H.flatMap txnCalls

/-- The tag of a transaction without the checksum. -/
def edgeTag (id : UInt32) : RedoBlockTag where
  offset := 0
  size := 0
  blkCrc := id

section Entries

variable (crc : Bytes → UInt32)

def openCsum (id : UInt32) (ws : Txn) : UInt32 :=
  ws.foldl (fun c req => c ^^^ crc (req.tag crc).encode)
    (txnChksmCnst ^^^ crc (edgeTag id).encode)

def txnCsum (id : UInt32) (ws : Txn) : UInt32 :=
  openCsum crc id ws ^^^ crc (edgeTag id).encode

def openEntries (id : UInt32) (ws : Txn) : List Entry :=
  Entry.edge 0 id :: ws.map (WriteReq.entry crc)

def txnEntries (id : UInt32) (ws : Txn) : List Entry :=
  openEntries crc id ws ++ [Entry.edge (txnCsum crc id ws).toUInt64 id]

/-- The entries of a history whose first transaction has the given id. -/
def historyEntries : UInt32 → List Txn → List Entry
  | _, [] => []
  | id, ws :: H => txnEntries crc id ws ++ historyEntries (id + 1) H

theorem openCsum_snoc (id : UInt32) (ws : Txn) (req : WriteReq) :
    openCsum crc id (ws ++ [req]) = openCsum crc id ws ^^^ crc (req.tag crc).encode := by
  simp [openCsum]

theorem openEntries_snoc (id : UInt32) (ws : Txn) (req : WriteReq) :
    openEntries crc id (ws ++ [req]) = openEntries crc id ws ++ [req.entry crc] := by
  simp [openEntries]

theorem historyEntries_append (id : UInt32) (H H' : List Txn) :
    historyEntries crc id (H ++ H') =
      historyEntries crc id H ++ historyEntries crc (id + UInt32.ofNat H.length) H' := by
  induction H generalizing id with
  | nil =>
      simp [historyEntries]
  | cons ws H ih =>
      have hid : id + 1 + UInt32.ofNat H.length = id + UInt32.ofNat (H.length + 1) := by
        rw [UInt32.ofNat_add, UInt32.add_assoc, UInt32.add_comm 1]
        rfl
      rw [List.cons_append, historyEntries, ih, historyEntries, List.length_cons, hid,
        List.append_assoc]

end Entries

/-- The transactions of a run, and the writes of the one that is open. -/
structure Txns where
  committed : List Txn
  current : Option Txn

namespace Txns

/-- The id of the next transaction or of the open one. -/
def nextId (T : Txns) : UInt32 :=
  1 + UInt32.ofNat T.committed.length

/-- The entries of a run. -/
def entries (crc : Bytes → UInt32) (T : Txns) : List Entry :=
  historyEntries crc 1 T.committed ++
    match T.current with
    | none => []
    | some ws => openEntries crc T.nextId ws

theorem entries_txnBegin (crc : Bytes → UInt32) (H : List Txn) :
    entries crc ⟨H, some []⟩ =
      entries crc ⟨H, none⟩ ++ [Entry.edge 0 (nextId ⟨H, none⟩)] := by
  simp [entries, openEntries, nextId]

theorem entries_write (crc : Bytes → UInt32) (H : List Txn) (ws : Txn) (req : WriteReq) :
    entries crc ⟨H, some (ws ++ [req])⟩ =
      entries crc ⟨H, some ws⟩ ++ [req.entry crc] := by
  simp only [entries, openEntries_snoc, List.append_assoc]
  rfl

theorem entries_txnEnd (crc : Bytes → UInt32) (H : List Txn) (ws : Txn) :
    entries crc ⟨H ++ [ws], none⟩ =
      entries crc ⟨H, some ws⟩ ++
        [Entry.edge (txnCsum crc (nextId ⟨H, some ws⟩) ws).toUInt64
          (nextId ⟨H, some ws⟩)] := by
  simp [entries, nextId, historyEntries_append, historyEntries, txnEntries]

end Txns

/-- The calls of a run and the transactions they log.  The last argument says
whether the last `redo_mark_done` marked the log done. -/
inductive PlainRun : List Call → Txns → Bool → Prop
  | nil : PlainRun [] ⟨[], none⟩ false
  | txnBegin
      {cs : List Call} {H : List Txn} {done : Bool}
      (run : PlainRun cs ⟨H, none⟩ done) :
      PlainRun (cs ++ [.txnBegin]) ⟨H, some []⟩ done
  | write
      {cs : List Call} {H : List Txn} {ws : Txn} {done : Bool} {req : WriteReq}
      (run : PlainRun cs ⟨H, some ws⟩ done)
      (nonempty : req.buf ≠ [])
      (whole : req.Whole) :
      PlainRun (cs ++ [.write req]) ⟨H, some (ws ++ [req])⟩ done
  | txnEnd
      {cs : List Call} {H : List Txn} {ws : Txn} {done : Bool}
      (run : PlainRun cs ⟨H, some ws⟩ done) :
      PlainRun (cs ++ [.txnEnd]) ⟨H ++ [ws], none⟩ done
  | flush
      {cs : List Call} {T : Txns} {done : Bool}
      (run : PlainRun cs T done) :
      PlainRun (cs ++ [.flush]) T done
  | markDone
      {cs : List Call} {T : Txns} {done : Bool}
      (run : PlainRun cs T done) (mark : Bool) :
      PlainRun (cs ++ [.markDone mark]) T mark
  | replay
      {cs : List Call} {T : Txns}
      (run : PlainRun cs T false) (sync : Bool) :
      PlainRun (cs ++ [.replay sync]) T false

/-- A transaction whose writes succeed and are not empty. -/
def Txn.Proper (ws : Txn) : Prop :=
  ∀ req ∈ ws, req.buf ≠ [] ∧ req.Whole

/-- A write of one byte. -/
def byteWrite (offset : UInt64) (b : UInt8) : WriteReq where
  offset := offset
  buf := [b]
  size_lt := by simp

theorem proper_of_byteWrites
    {ws : Txn} (h : ∀ req ∈ ws, req.buf.length = 1) : ws.Proper := by
  intro req hreq
  have hlen := h req hreq
  constructor
  · rintro hnil
    rw [hnil] at hlen
    simp at hlen
  · rw [WriteReq.Whole, hlen]
    decide

theorem PlainRun.writes
    {cs : List Call} {H : List Txn} {ws : Txn} {done : Bool}
    (h : PlainRun cs ⟨H, some ws⟩ done) {us : Txn} (hus : us.Proper) :
    PlainRun (cs ++ us.map Call.write) ⟨H, some (ws ++ us)⟩ done := by
  induction us generalizing cs ws with
  | nil =>
      simpa using h
  | cons req us ih =>
      obtain ⟨hne, hwhole⟩ := hus req (by simp)
      have hrest := ih (h.write hne hwhole)
        (fun r hr => hus r (List.mem_cons_of_mem req hr))
      simpa using hrest

theorem PlainRun.txn
    {cs : List Call} {H : List Txn} {done : Bool}
    (h : PlainRun cs ⟨H, none⟩ done) {ws : Txn} (hws : ws.Proper) :
    PlainRun (cs ++ txnCalls ws) ⟨H ++ [ws], none⟩ done := by
  have hend := (h.txnBegin.writes hws).txnEnd
  simpa [txnCalls] using hend

theorem PlainRun.history
    {cs : List Call} {H : List Txn} {done : Bool}
    (h : PlainRun cs ⟨H, none⟩ done) {H' : List Txn} (hH : ∀ ws ∈ H', ws.Proper) :
    PlainRun (cs ++ historyCalls H') ⟨H ++ H', none⟩ done := by
  induction H' generalizing cs H with
  | nil =>
      simpa [historyCalls] using h
  | cons ws H' ih =>
      have hrest := ih (h.txn (hH ws (by simp)))
        (fun u hu => hH u (List.mem_cons_of_mem ws hu))
      simpa [historyCalls] using hrest

theorem PlainRun.proper
    {cs : List Call} {T : Txns} {done : Bool} (h : PlainRun cs T done) :
    (∀ ws ∈ T.committed, ws.Proper) ∧ ∀ ws, T.current = some ws → ws.Proper := by
  induction h with
  | nil =>
      simp
  | txnBegin _ ih =>
      refine ⟨ih.1, ?_⟩
      rintro ws ⟨⟩ req hreq
      simp at hreq
  | write _ hne hwhole ih =>
      refine ⟨ih.1, ?_⟩
      rintro ws ⟨⟩ req hreq
      rcases List.mem_append.mp hreq with hreq | hreq
      · exact ih.2 _ rfl req hreq
      · rw [List.mem_singleton.mp hreq]
        exact ⟨hne, hwhole⟩
  | txnEnd _ ih =>
      refine ⟨?_, fun ws hws => by simp at hws⟩
      intro ws hws
      rcases List.mem_append.mp hws with hws | hws
      · exact ih.1 ws hws
      · exact ih.2 ws (by rw [List.mem_singleton.mp hws])
  | flush _ ih | markDone _ _ ih | replay _ _ ih =>
      exact ih

/-- The calls that put a tag into the log. -/
def Call.logs : Call → Bool
  | .txnBegin => true
  | .write _ => true
  | .txnEnd => true
  | .flush => false
  | .markDone _ => false
  | .replay _ => false

theorem logs_of_mem_historyCalls
    {H : List Txn} {c : Call} (h : c ∈ historyCalls H) : c.logs = true := by
  obtain ⟨ws, _, hc⟩ := List.mem_flatMap.mp h
  rcases List.mem_cons.mp hc with rfl | hc
  · rfl
  · rcases List.mem_append.mp hc with hc | hc
    · obtain ⟨req, _, rfl⟩ := List.mem_map.mp hc
      rfl
    · rw [List.mem_singleton.mp hc]
      rfl

theorem PlainRun.length_entries
    {cs : List Call} {T : Txns} {done : Bool} (h : PlainRun cs T done)
    (crc : Bytes → UInt32) :
    (T.entries crc).length = cs.countP Call.logs := by
  induction h with
  | nil =>
      rfl
  | txnBegin _ ih =>
      rw [Txns.entries_txnBegin, List.length_append, ih, List.countP_append]
      rfl
  | write _ _ _ ih =>
      rw [Txns.entries_write, List.length_append, ih, List.countP_append]
      rfl
  | txnEnd _ ih =>
      rw [Txns.entries_txnEnd, List.length_append, ih, List.countP_append]
      rfl
  | flush _ ih | markDone _ _ ih | replay _ _ ih =>
      rw [ih, List.countP_append]
      rfl

theorem PlainRun.of_isPrefix
    {cs : List Call} {T : Txns} {done : Bool} (h : PlainRun cs T done)
    (crc : Bytes → UInt32) {ds : List Call} (hds : ds <+: cs) :
    ∃ T' done', PlainRun ds T' done' ∧ T'.entries crc <+: T.entries crc := by
  induction h with
  | nil =>
      rw [List.prefix_nil.mp hds]
      exact ⟨_, _, PlainRun.nil, List.prefix_refl _⟩
  | txnBegin run ih =>
      rcases List.prefix_concat_iff.mp hds with rfl | hds
      · exact ⟨_, _, run.txnBegin, List.prefix_refl _⟩
      · obtain ⟨T', done', hrun, hpre⟩ := ih hds
        rw [Txns.entries_txnBegin]
        exact ⟨T', done', hrun, hpre.trans (List.prefix_append _ _)⟩
  | write run hne hwhole ih =>
      rcases List.prefix_concat_iff.mp hds with rfl | hds
      · exact ⟨_, _, run.write hne hwhole, List.prefix_refl _⟩
      · obtain ⟨T', done', hrun, hpre⟩ := ih hds
        rw [Txns.entries_write]
        exact ⟨T', done', hrun, hpre.trans (List.prefix_append _ _)⟩
  | txnEnd run ih =>
      rcases List.prefix_concat_iff.mp hds with rfl | hds
      · exact ⟨_, _, run.txnEnd, List.prefix_refl _⟩
      · obtain ⟨T', done', hrun, hpre⟩ := ih hds
        rw [Txns.entries_txnEnd]
        exact ⟨T', done', hrun, hpre.trans (List.prefix_append _ _)⟩
  | flush run ih =>
      rcases List.prefix_concat_iff.mp hds with rfl | hds
      · exact ⟨_, _, run.flush, List.prefix_refl _⟩
      · exact ih hds
  | markDone run mark ih =>
      rcases List.prefix_concat_iff.mp hds with rfl | hds
      · exact ⟨_, _, run.markDone mark, List.prefix_refl _⟩
      · exact ih hds
  | replay run sync ih =>
      rcases List.prefix_concat_iff.mp hds with rfl | hds
      · exact ⟨_, _, run.replay sync, List.prefix_refl _⟩
      · exact ih hds

/-- What holds after a run: the log has the entries of the transactions, without
marks, and the device `fd` has the content `g`. -/
structure Logged
    (crc : Bytes → UInt32) (T : Txns) (done : Bool) (fd : Nat) (g : ByteFile)
    (s : State) : Prop where
  session : ∃ n, Session crc (T.entries crc) [] n [] s
  txnId_eq : s.data.txnId = T.nextId
  txnCsum_eq : ∀ ws, T.current = some ws → s.data.txnCsum = openCsum crc T.nextId ws
  done_iff : s.data.hdr.state = e2redoStateFinished ↔ done = true
  devFd_eq : s.data.devFd = fd
  dev_eq : s.world.file (.dev fd) = g

section Run

variable {crc : Bytes → UInt32}
variable {H : List Txn} {ws : Txn} {T : Txns} {done : Bool} {fd : Nat} {g : ByteFile} {s : State}

theorem Logged.txnBegin (h : Logged crc ⟨H, none⟩ done fd g s) :
    Logged crc ⟨H, some []⟩ done fd g (rfsckTxnBegin crc 0 s).2 := by
  obtain ⟨n, hs⟩ := h.session
  have hstep := hs.txnBegin
  rw [h.txnId_eq, ← Txns.entries_txnBegin] at hstep
  have hid := h.txnId_eq
  have hdone := h.done_iff
  have hfd := h.devFd_eq
  have hdev := h.dev_eq
  rw [rfsckTxnBegin_eq crc hs.outcomes_nil] at hstep ⊢
  refine {
    session := ⟨_, hstep⟩
    txnId_eq := (rollKeyb_txn _).1.trans hid
    txnCsum_eq := ?_
    done_iff := ?_
    devFd_eq := (rollKeyb_devFd _).trans hfd
    dev_eq := ?_ }
  · intro ws hws
    obtain rfl : [] = ws := Option.some.inj hws
    refine (rollKeyb_txn _).2.trans ?_
    change txnChksmCnst ^^^ crc s.data.beginTag.encode = _
    rw [RedoPrivateData.beginTag, hid]
    rfl
  · rw [State.logTag, rollKeyb_hdr]
    exact hdone
  · rw [logTag_dev]
    exact hdev

theorem Logged.write
    (h : Logged crc ⟨H, some ws⟩ done fd g s) {req : WriteReq} (hreq : req.Whole) :
    Logged crc ⟨H, some (ws ++ [req])⟩ done fd g (rfsckWrite crc req s).2 := by
  obtain ⟨n, hs⟩ := h.session
  have hstep := hs.write hreq
  rw [← Txns.entries_write] at hstep
  have hid := h.txnId_eq
  have hcsum := h.txnCsum_eq ws rfl
  have hdone := h.done_iff
  have hfd := h.devFd_eq
  have hdev := h.dev_eq
  rw [rfsckWrite_eq crc hs.outcomes_nil hreq] at hstep ⊢
  refine {
    session := ⟨_, hstep⟩
    txnId_eq := (rollKeyb_txn _).1.trans hid
    txnCsum_eq := ?_
    done_iff := ?_
    devFd_eq := (rollKeyb_devFd _).trans hfd
    dev_eq := ?_ }
  · intro us hus
    obtain rfl : ws ++ [req] = us := Option.some.inj hus
    refine (rollKeyb_txn _).2.trans ?_
    change s.data.txnCsum ^^^ crc (req.tag crc).encode = _
    rw [hcsum, openCsum_snoc]
    rfl
  · rw [State.logTag, rollKeyb_hdr]
    exact hdone
  · rw [logTag_dev, putData_dev]
    exact hdev

theorem Logged.txnEnd (h : Logged crc ⟨H, some ws⟩ done fd g s) :
    Logged crc ⟨H ++ [ws], none⟩ done fd g (rfsckTxnEnd crc s).2 := by
  obtain ⟨n, hs⟩ := h.session
  have hstep := hs.txnEnd
  have hid := h.txnId_eq
  have hcsum := h.txnCsum_eq ws rfl
  have hend : s.data.endCsum crc = txnCsum crc (Txns.nextId ⟨H, some ws⟩) ws := by
    rw [RedoPrivateData.endCsum, hcsum, RedoPrivateData.beginTag, hid]
    rfl
  rw [hend, hid, ← Txns.entries_txnEnd] at hstep
  have hdone := h.done_iff
  have hfd := h.devFd_eq
  have hdev := h.dev_eq
  rw [clearMarks_nil, clearMarks_nil, rfsckTxnEnd_eq crc hs.outcomes_nil] at hstep
  rw [rfsckTxnEnd_eq crc hs.outcomes_nil]
  refine {
    session := ⟨_, hstep⟩
    txnId_eq := ?_
    txnCsum_eq := fun us hus => by simp at hus
    done_iff := ?_
    devFd_eq := (rollKeyb_devFd _).trans hfd
    dev_eq := ?_ }
  · refine (rollKeyb_txn _).1.trans ?_
    change s.data.txnId + 1 = _
    rw [hid, Txns.nextId, Txns.nextId, List.length_append, List.length_singleton,
      UInt32.ofNat_add, UInt32.add_assoc]
    rfl
  · have hhdr : (State.putKeyb crc (State.logTag crc (s.data.endTag crc)
        { s with
          data.txnId := s.data.txnId + 1
          data.txnCsum := 0 })).syncRedo.data.hdr = s.data.hdr := rollKeyb_hdr _
    rw [hhdr]
    exact hdone
  · rw [syncRedo_dev, putKeyb_dev, logTag_dev]
    exact hdev

theorem Logged.flush (h : Logged crc T done fd g s) :
    Logged crc T done fd g (rfsckFlush crc s).2 := by
  obtain ⟨n, hs⟩ := h.session
  have hstep := hs.flush
  rw [clearMarks_nil, rfsckFlush_eq crc hs.outcomes_nil] at hstep
  rw [rfsckFlush_eq crc hs.outcomes_nil]
  refine { h with
    session := ⟨_, hstep⟩
    dev_eq := ?_ }
  rw [syncRedo_dev, putKeyb_dev]
  exact h.dev_eq

theorem Logged.markDone (h : Logged crc T done fd g s) (mark : Bool) :
    Logged crc T mark fd g (redoMarkDone crc mark s).2 := by
  obtain ⟨n, hs⟩ := h.session
  have hstep := hs.markDone mark
  rw [clearMarks_nil, redoMarkDone_eq crc hs.outcomes_nil] at hstep
  rw [redoMarkDone_eq crc hs.outcomes_nil]
  refine { h with
    session := ⟨_, hstep⟩
    done_iff := ?_
    dev_eq := ?_ }
  · change (if mark then e2redoStateFinished else 0) = e2redoStateFinished ↔ mark = true
    cases mark with
    | true =>
        simp
    | false =>
        simp [zero_ne_finished]
  · rw [syncRedo_dev, putKeyb_dev, putHeader_dev, syncRedo_dev, putKeyb_dev, putKeyb_dev]
    exact h.dev_eq

theorem Logged.idleReplay (h : Logged crc T false fd g s) (sync : Bool) :
    Logged crc T false fd g (rfsckReplay crc sync s).2 := by
  obtain ⟨n, hs⟩ := h.session
  have hnot : s.data.hdr.state ≠ e2redoStateFinished := by
    intro hf
    exact absurd (h.done_iff.mp hf) (by simp)
  obtain ⟨m, hm⟩ := hs.replay_of_not_finished hnot sync
  rw [hm]
  exact { h with session := ⟨n, hs.congr rfl rfl⟩ }

/-- **The run lemma.** -/
theorem PlainRun.logged
    {cs : List Call} (hrun : PlainRun cs T done)
    (h : Logged crc ⟨[], none⟩ false fd g s) :
    Logged crc T done fd g (runCalls crc cs s) := by
  induction hrun with
  | nil =>
      exact h
  | txnBegin _ ih =>
      rw [runCalls_append]
      exact ih.txnBegin
  | write _ _ hwhole ih =>
      rw [runCalls_append]
      exact ih.write hwhole
  | txnEnd _ ih =>
      rw [runCalls_append]
      exact ih.txnEnd
  | flush _ ih =>
      rw [runCalls_append]
      exact ih.flush
  | markDone _ mark ih =>
      rw [runCalls_append]
      exact ih.markDone mark
  | replay _ sync ih =>
      rw [runCalls_append]
      exact ih.idleReplay sync

theorem FreshlyOpened.logged
    {w : World} (h : FreshlyOpened crc w s) :
    Logged crc ⟨[], none⟩ false s.data.devFd (w.file (.dev s.data.devFd)) s := by
  obtain ⟨hs, hid, hstate, hworld⟩ := h.session
  refine {
    session := ⟨0, hs⟩
    txnId_eq := hid
    txnCsum_eq := fun us hus => by simp at hus
    done_iff := ?_
    devFd_eq := rfl
    dev_eq := ?_ }
  · simp [hstate]
  · rw [hworld, file_dev_push_redo]

end Run

end Redo
end Rfsck
