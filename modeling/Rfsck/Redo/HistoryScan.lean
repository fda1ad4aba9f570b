import Rfsck.Redo.HistoryWalk

/-!
# The scan of the log of a history

`SealedLog crc H hdr f` says that the file `f` is the log of the history `H` behind
`redo_mark_done(1)`.  Some of the transactions may carry the mark of an earlier
replay.

* `Logged.sealedLog`: this is the log that the library leaves behind.
* `SealedLog.found_eq`, `SealedLog.out_eq`: what the replayer finds and prints.
* `ScanInverts`: the key blocks, transactions, tags and checksums that the walk of
  `rfsck_replay` recovers are those of the writer.

The transaction ids are 32-bit numbers.  After `2 ^ 32` transactions the id zero
comes up, and a begin tag with that id is an unused slot for the replayer.
-/

namespace Rfsck
namespace Redo

open Storage

/-- The log of a history behind `redo_mark_done(1)`. -/
structure SealedLog
    (crc : Bytes → UInt32) (H : MarkedHistory) (hdr : RedoHeader) (f : ByteFile) : Prop where
  log : FinishedLog crc (historyEntries crc 1 H.txns) (MarkedHistory.marksAt 0 H) hdr f
  numKeys_eq : hdr.numKeys.toNat = tagCount H.txns / keysPerBlock
  blocks_lt : tagCount H.txns / keysPerBlock < keybCountLimit
  length_lt : H.length < 2 ^ 32
  proper : ∀ ws ∈ H.txns, ws.Proper

section Sealed

variable {crc : Bytes → UInt32}
variable {H : MarkedHistory} {hdr : RedoHeader} {s : State}

theorem visited_of_numKeys
    {n : Nat} (h : hdr.numKeys.toNat = n) (hn : n < keybCountLimit) : hdr.visited = n + 1 := by
  rw [RedoHeader.visited, h]
  exact min_eq_left hn

theorem SealedLog.visited_eq {f : ByteFile} (h : SealedLog crc H hdr f) :
    hdr.visited = tagCount H.txns / keysPerBlock + 1 := by
  exact visited_of_numKeys h.numKeys_eq h.blocks_lt

theorem le_keysPerBlock_mul (n : Nat) : n ≤ keysPerBlock * (n / keysPerBlock + 1) := by
  simp only [keysPerBlock_eq]
  omega

theorem SealedLog.found_eq {f : ByteFile} (h : SealedLog crc H hdr f) (out : List Message) :
    (walkLog crc (historyEntries crc 1 H.txns) (MarkedHistory.marksAt 0 H)
      hdr.visited out).found =
      MarkedHistory.found crc 0 1 (redoHeaderSize + redoLogBlockSize) H := by
  rw [h.visited_eq]
  exact (walkLog_history crc h.length_lt h.proper (le_keysPerBlock_mul _) out).1

theorem SealedLog.logWalk_found (h : SealedLog crc H hdr (s.world.file .redo)) :
    (logWalk crc s).found =
      MarkedHistory.found crc 0 1 (redoHeaderSize + redoLogBlockSize) H := by
  rw [h.log.logWalk_eq.2, h.found_eq]

theorem SealedLog.replay_txnId
    (h : SealedLog crc H hdr (s.world.file .redo)) (hout : s.world.outcomes = [])
    (sync : Bool) :
    (rfsckReplay crc sync s).2.data.txnId = 0 := by
  have hid := (walkLog_history crc h.length_lt h.proper (le_keysPerBlock_mul _) s.out).2.2
  rw [← h.visited_eq] at hid
  rw [h.log.replay_eq hout sync]
  exact h.log.planLog_follows.txnId_eq.trans hid

theorem SealedLog.planLog_eq (h : SealedLog crc H hdr (s.world.file .redo)) :
    (planLog crc s).2 =
      actionsOf (keybPos (historyEntries crc 1 H.txns))
        (fun k => (keybOf crc (historyEntries crc 1 H.txns) k).remark k
          (MarkedHistory.marksAt 0 H)) []
        (MarkedHistory.found crc 0 1 (redoHeaderSize + redoLogBlockSize) H) := by
  rw [h.log.planLog_follows.acts_eq, h.found_eq]

end Sealed

section Run

variable {crc : Bytes → UInt32}
variable {H : List Txn} {done : Bool} {fd : Nat} {g : ByteFile} {s : State}

/-- The header of `redo_mark_done(1)` counts all key blocks. -/
theorem Session.numKeys_markDone {es : List Entry} {M : List Nat} {n : Nat}
    (h : Session crc es M n [] s) (hblocks : es.length / keysPerBlock < keybCountLimit) :
    (redoMarkDone crc true s).2.data.hdr.numKeys.toNat = es.length / keysPerBlock := by
  have hcount : (s.doneHeader crc true).numKeys = UInt64.ofNat s.data.numKeys := by
    rfl
  rw [(redoMarkDone_hdr crc h.outcomes_nil true).1, hcount, h.writer.numKeys_eq,
    UInt64.toNat_ofNat_of_lt']
  rw [keybCountLimit] at hblocks
  have hsize : UInt64.size = 2 ^ 64 := by
    rfl
  omega

/-- `redo_mark_done(1)` behind a run of committed transactions: the log is
finished and its header counts all key blocks. -/
theorem Logged.finishedLog
    (h : Logged crc ⟨H, none⟩ done fd g s)
    (hblocks : tagCount H / keysPerBlock < keybCountLimit) :
    FinishedLog crc (historyEntries crc 1 H) [] (redoMarkDone crc true s).2.data.hdr
        ((redoMarkDone crc true s).2.world.file .redo) ∧
      (redoMarkDone crc true s).2.data.hdr.numKeys.toNat = tagCount H / keysPerBlock := by
  have hentries : Txns.entries crc ⟨H, none⟩ = historyEntries crc 1 H := List.append_nil _
  obtain ⟨n, hs⟩ := h.session
  obtain ⟨m, hdone⟩ := (h.markDone true).session
  have hfin := (h.markDone true).done_iff.mpr rfl
  rw [hentries] at hs hdone
  have hlen := length_historyEntries crc 1 H
  refine ⟨hdone.finishedLog hfin, ?_⟩
  rw [hs.numKeys_markDone (by rw [hlen]; exact hblocks), hlen]

/-- **The library leaves the log of its history.** -/
theorem Logged.sealedLog
    (h : Logged crc ⟨H, none⟩ done fd g s)
    (hH : ∀ ws ∈ H, ws.Proper) (hids : H.length < 2 ^ 32)
    (hblocks : tagCount H / keysPerBlock < keybCountLimit) :
    SealedLog crc (MarkedHistory.unmarked H) (redoMarkDone crc true s).2.data.hdr
      ((redoMarkDone crc true s).2.world.file .redo) := by
  obtain ⟨hlog, hkeys⟩ := h.finishedLog hblocks
  refine {
    log := ?_
    numKeys_eq := ?_
    blocks_lt := ?_
    length_lt := ?_
    proper := ?_ }
  · rw [MarkedHistory.txns_unmarked, MarkedHistory.marksAt_unmarked]
    exact hlog
  · rw [MarkedHistory.txns_unmarked]
    exact hkeys
  · rw [MarkedHistory.txns_unmarked]
    exact hblocks
  · rw [MarkedHistory.unmarked, List.length_map]
    exact hids
  · rw [MarkedHistory.txns_unmarked]
    exact hH

end Run

section Inverse

variable (crc : Bytes → UInt32)

/-- The state behind a history and `redo_mark_done(1)`. -/
def sealHistory (H : List Txn) (s : State) : State :=
  runCalls crc (historyCalls H ++ [.markDone true]) s

/-- The scan of `rfsck_replay` recovers what the writer logged from the state `s`. -/
structure ScanInverts (s : State) (H : List Txn) : Prop where
  /-- Every key block that the header counts has been the current one. -/
  keyb_reached : ∀ k, k ≤ (sealHistory crc H s).data.numKeys →
    ∃ cs, cs <+: historyCalls H ∧ (runCalls crc cs s).data.numKeys = k
  /-- The walk looks for a key block where the writer put it. -/
  keyb_found : ∀ cs, cs <+: historyCalls H →
    loadedPlace crc (sealHistory crc H s) (runCalls crc cs s).data.numKeys =
      (runCalls crc cs s).data.redoBlockOffset
  /-- The transactions found are those of the history, with their tags. -/
  txns_found : (logWalk crc (sealHistory crc H s)).found.map (fun t => (t.id, t.tags)) =
    H.mapIdx (fun k ws => (1 + UInt32.ofNat k, dataTags crc ws))
  /-- The checksum computed is the one of the end tag. -/
  csums_agree : ∀ t ∈ (logWalk crc (sealHistory crc H s)).found,
    t.csum = t.endTag.offset.toUInt32
  /-- The replay prints what the walk prints. -/
  walked : ∀ sync, (rfsckReplay crc sync (sealHistory crc H s)).2.out =
    (logWalk crc (sealHistory crc H s)).out

theorem MarkedHistory.map_found_unmarked (i : Nat) (id : UInt32) (pos : Nat) (H : List Txn) :
    (MarkedHistory.found crc i id pos (MarkedHistory.unmarked H)).map
        (fun t => (t.id, t.tags)) =
      H.mapIdx (fun k ws => (id + UInt32.ofNat k, dataTags crc ws)) := by
  induction H generalizing i id pos with
  | nil =>
      rfl
  | cons ws H ih =>
      have hrest := ih (i + (ws.length + 2)) (id + 1) (txnFound crc i id ws pos).copies.1
      have hzero : id + UInt32.ofNat 0 = id := UInt32.add_zero id
      rw [List.mapIdx_cons, hzero]
      simp only [← add_one_add_ofNat]
      rw [← hrest]
      rfl

theorem MarkedHistory.csum_of_mem_found
    {i : Nat} {id : UInt32} {pos : Nat} {H : MarkedHistory} {t : Found}
    (h : t ∈ MarkedHistory.found crc i id pos H) :
    t.csum = t.endTag.offset.toUInt32 := by
  induction H generalizing i id pos with
  | nil =>
      simp [MarkedHistory.found] at h
  | cons x H ih =>
      obtain ⟨m, ws⟩ := x
      cases m with
      | true =>
          exact ih h
      | false =>
          rcases List.mem_cons.mp h with rfl | h
          · exact (UInt32.toUInt32_toUInt64 _).symm
          · exact ih h

variable {crc}

theorem sealHistory_eq (H : List Txn) (s : State) :
    sealHistory crc H s = (redoMarkDone crc true (runCalls crc (historyCalls H) s)).2 := by
  rw [sealHistory, runCalls_append]
  rfl

theorem FreshlyOpened.loggedHistory
    {w : World} {s : State} (h : FreshlyOpened crc w s)
    {H : List Txn} (hH : ∀ ws ∈ H, ws.Proper) :
    Logged crc ⟨H, none⟩ false s.data.devFd (w.file (.dev s.data.devFd))
      (runCalls crc (historyCalls H) s) := by
  have hrun := PlainRun.nil.history hH
  rw [List.nil_append, List.nil_append] at hrun
  exact hrun.logged h.logged

/-- The log of a history on a freshly opened log. -/
theorem FreshlyOpened.sealedLog
    {w : World} {s : State} (h : FreshlyOpened crc w s)
    {H : List Txn} (hH : ∀ ws ∈ H, ws.Proper) (hids : H.length < 2 ^ 32)
    (hblocks : tagCount H / keysPerBlock < keybCountLimit) :
    SealedLog crc (MarkedHistory.unmarked H) (sealHistory crc H s).data.hdr
        ((sealHistory crc H s).world.file .redo) ∧
      (sealHistory crc H s).world.outcomes = [] ∧
      (sealHistory crc H s).data.devFd = s.data.devFd ∧
      (sealHistory crc H s).world.file (.dev s.data.devFd) =
        w.file (.dev s.data.devFd) := by
  have hlogged := h.loggedHistory hH
  have hdone := hlogged.markDone true
  obtain ⟨n, hs⟩ := hdone.session
  rw [sealHistory_eq]
  exact ⟨hlogged.sealedLog hH hids hblocks, hs.outcomes_nil, hdone.devFd_eq, hdone.dev_eq⟩

theorem length_historyCalls (H : List Txn) : (historyCalls H).length = tagCount H := by
  have hlen : ∀ ws, (txnCalls ws).length = ws.length + 2 := by
    intro ws
    simp [txnCalls]
  simp only [historyCalls, tagCount, List.length_flatMap, hlen]

/-- **The scan inverts the writer**, as long as no id wraps around and the `int`
that counts key blocks does not either. -/
theorem scan_inverts_writer
    {w : World} {s : State} (h : FreshlyOpened crc w s)
    {H : List Txn} (hH : ∀ ws ∈ H, ws.Proper) (hids : H.length < 2 ^ 32)
    (hblocks : tagCount H / keysPerBlock < 2 ^ 31) :
    ScanInverts crc s H := by
  have hlogged := h.loggedHistory hH
  have hrun : PlainRun (historyCalls H) ⟨H, none⟩ false := by
    simpa using PlainRun.nil.history hH
  have hentries : Txns.entries crc ⟨H, none⟩ = historyEntries crc 1 H := List.append_nil _
  obtain ⟨hsealed, hout, _⟩ := h.sealedLog hH hids hblocks
  have hvisited := hsealed.visited_eq
  have hfound := hsealed.found_eq (sealHistory crc H s).out
  obtain ⟨hplace, hwalk⟩ := hsealed.log.logWalk_eq
  rw [hvisited] at hplace
  rw [← hwalk] at hfound
  rw [MarkedHistory.txns_unmarked] at hplace hvisited
  obtain ⟨n, hsession⟩ := hlogged.session
  have hprefix : ∀ cs, cs <+: historyCalls H → ∃ es rest m,
      es.length = cs.length ∧ historyEntries crc 1 H = es ++ rest ∧
        Session crc es [] m [] (runCalls crc cs s) := by
    intro cs hcs
    obtain ⟨T, d, hrunT, rest, hrest⟩ := hrun.of_isPrefix crc hcs
    obtain ⟨m, hm⟩ := (hrunT.logged h.logged).session
    refine ⟨T.entries crc, rest, m, ?_, ?_, hm⟩
    · rw [hrunT.length_entries crc, List.countP_eq_length]
      exact fun c hc => logs_of_mem_historyCalls (hcs.subset hc)
    · rw [hrest, hentries]
  refine {
    keyb_reached := ?_
    keyb_found := ?_
    txns_found := ?_
    csums_agree := ?_
    walked := ?_ }
  · intro k hk
    rw [sealHistory_eq, (redoMarkDone_hdr crc hsession.outcomes_nil true).2.2,
      hsession.writer.numKeys_eq, hentries, length_historyEntries] at hk
    have hle : keysPerBlock * k ≤ tagCount H := by
      simp only [keysPerBlock_eq] at *
      omega
    have htake := List.take_prefix (keysPerBlock * k) (historyCalls H)
    obtain ⟨es, rest, m, hlen, _, hm⟩ := hprefix _ htake
    refine ⟨_, htake, ?_⟩
    rw [hm.writer.numKeys_eq, hlen, List.length_take, length_historyCalls, min_eq_left hle]
    exact Nat.mul_div_cancel_left k (by decide)
  · intro cs hcs
    obtain ⟨es, rest, m, _, hes, hm⟩ := hprefix cs hcs
    have hlen := length_historyEntries crc 1 H
    rw [hes, List.length_append] at hlen
    have hle : es.length / keysPerBlock < tagCount H / keysPerBlock + 1 := by
      simp only [keysPerBlock_eq] at *
      omega
    rw [hm.writer.numKeys_eq, (hplace _ hle).1, hes, hm.writer.redoBlockOffset_eq,
      keybPos_append es rest (Nat.mul_div_le _ _)]
  · rw [hfound]
    exact MarkedHistory.map_found_unmarked crc 0 1 _ H
  · intro t ht
    rw [hfound] at ht
    exact MarkedHistory.csum_of_mem_found crc ht
  · intro sync
    rw [hsealed.log.replay_eq hout sync, hwalk]

theorem scan_inverts_writer_of_one_write :
    ScanInverts crc32c (blankState crc32c) [[byteWrite 0 7]] := by
  refine scan_inverts_writer (blankState_freshlyOpened crc32c) ?_ (by decide) (by decide)
  intro ws hws
  rw [List.mem_singleton.mp hws]
  exact proper_of_byteWrites (by decide)

/-- The last of `2 ^ 32` transactions has the id zero and is not found. -/
theorem found_of_wrapped_ids
    {w : World} {s : State} (h : FreshlyOpened crc w s) {n : Nat} (hn : n + 1 = 2 ^ 32) :
    (logWalk crc (sealHistory crc (List.replicate (n + 1) []) s)).found.length = n := by
  have hproper : ∀ m, ∀ ws ∈ List.replicate m ([] : Txn), Txn.Proper ws := by
    intro m ws hws
    rw [List.eq_of_mem_replicate hws]
    exact proper_of_byteWrites (by simp)
  have hcount : ∀ m, tagCount (List.replicate m []) = 2 * m := by
    intro m
    simp [tagCount, Nat.mul_comm]
  have hblocks : tagCount (List.replicate (n + 1) []) / keysPerBlock < keybCountLimit := by
    rw [hcount, keysPerBlock_eq, keybCountLimit]
    omega
  have hlogged := h.loggedHistory (hproper (n + 1))
  obtain ⟨hlog, hkeys⟩ := hlogged.finishedLog hblocks
  rw [← sealHistory_eq] at hlog hkeys
  have hvisited := visited_of_numKeys hkeys hblocks
  have hzero : 1 + UInt32.ofNat n = 0 := by
    refine UInt32.toNat.inj ?_
    have h1 : (1 : UInt32).toNat = 1 := by
      rfl
    have h0 : (0 : UInt32).toNat = 0 := by
      rfl
    rw [UInt32.toNat_add, UInt32.toNat_ofNat', h1, h0]
    omega
  have hes : historyEntries crc 1 (List.replicate (n + 1) []) =
      historyEntries crc 1 (List.replicate n []) ++ txnEntries crc 0 [] := by
    rw [List.replicate_succ', historyEntries_append, List.length_replicate, hzero]
    simp [historyEntries]
  have hempty : ∀ e ∈ txnEntries crc 0 [], ¬ e.tag.IsEdge := by
    intro e he hedge
    refine hedge.2 ?_
    rcases List.mem_append.mp he with he | he
    · rw [List.mem_singleton.mp he]
      rfl
    · rw [List.mem_singleton.mp he]
      rfl
  have hfound := found_walkLog_append crc (H := MarkedHistory.unmarked (List.replicate n []))
    (k := tagCount (List.replicate (n + 1) []) / keysPerBlock + 1)
    (by
      rw [MarkedHistory.unmarked, List.length_map, List.length_replicate]
      omega)
    (by
      rw [MarkedHistory.txns_unmarked]
      exact hproper n)
    (by
      rw [MarkedHistory.txns_unmarked, hcount, hcount, keysPerBlock_eq]
      omega)
    (sealHistory crc (List.replicate (n + 1) []) s).out hempty
  rw [MarkedHistory.txns_unmarked, MarkedHistory.marksAt_unmarked, ← hes, ← hvisited,
    ← hlog.logWalk_eq.2] at hfound
  have hmap := congrArg List.length
    (MarkedHistory.map_found_unmarked crc 0 1 (redoHeaderSize + redoLogBlockSize)
      (List.replicate n []))
  rw [List.length_map, List.length_mapIdx, List.length_replicate] at hmap
  rw [hfound]
  exact hmap

/-- So the scan does not invert the log of `2 ^ 32` empty transactions. -/
theorem not_scanInverts_of_wrapped_ids :
    ¬ ScanInverts crc32c (blankState crc32c) (List.replicate (2 ^ 32) []) := by
  intro h
  have hlen := congrArg List.length h.txns_found
  have hfound := found_of_wrapped_ids (blankState_freshlyOpened crc32c)
    (n := 2 ^ 32 - 1) (by omega)
  rw [List.length_map, List.length_mapIdx, List.length_replicate] at hlen
  rw [show 2 ^ 32 - 1 + 1 = 2 ^ 32 by omega] at hfound
  omega

end Inverse

end Redo
end Rfsck
