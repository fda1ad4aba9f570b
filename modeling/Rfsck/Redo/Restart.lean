import Rfsck.Redo.HistoryReplay

/-!
# Transactions behind a replay

A replay uses the fields of the writer as scratch space.  It leaves the transaction
id zero, and the next begin tag is made from it: a tag of zero bytes, which the
replayer takes for an unused slot.

* `replay_applies_later_txn`: a transaction is replayed behind any run in which no
  earlier replay found the log marked done.
* `Session.unseenTxn`: with the id zero no begin or end tag is logged.
* `replay_dev_behind_restart`: the first transaction behind a restart of `e2fsck` is
  lost.
-/

namespace Rfsck
namespace Redo

open Storage

section Later

variable {crc : Bytes → UInt32}

/-- **A later transaction is replayed**, in order behind everything committed
earlier, as long as no replay so far found the log marked done. -/
theorem replay_applies_later_txn
    {cs : List Call} {H : List Txn} {done : Bool} (hrun : PlainRun cs ⟨H, none⟩ done)
    {w : World} {s : State} (h : FreshlyOpened crc w s)
    {ws : Txn} (hws : ws.Proper) (hids : H.length + 1 < 2 ^ 32)
    (hblocks : tagCount (H ++ [ws]) / keysPerBlock < 2 ^ 31)
    (halign : AlignedFrom 0 (H ++ [ws])) (sync : Bool) :
    (runCalls crc (cs ++ txnCalls ws ++ [.markDone true, .replay sync]) s).world.file
        (.dev s.data.devFd) =
      applyPatches (w.file (.dev s.data.devFd)) (historyPatches (H ++ [ws])) := by
  refine (hrun.txn hws).replay_dev h ?_ hblocks halign sync
  rw [List.length_append]
  exact hids

theorem replay_applies_later_txn_of_two_txns :
    (runCalls crc32c ([] ++ txnCalls [byteWrite 0 7] ++ [.flush] ++ [.replay true] ++
          txnCalls [byteWrite 1 8] ++ [.markDone true, .replay true])
        (blankState crc32c)).world.file (.dev (blankState crc32c).data.devFd) =
      applyPatches (blankWorld.file (.dev (blankState crc32c).data.devFd))
        (historyPatches ([] ++ [[byteWrite 0 7]] ++ [[byteWrite 1 8]])) := by
  have hproper : ∀ o b, Txn.Proper [byteWrite o b] := by
    intro o b
    refine proper_of_byteWrites ?_
    intro req hreq
    rw [List.mem_singleton.mp hreq]
    rfl
  refine replay_applies_later_txn
    ((PlainRun.nil.txn (hproper 0 7)).flush.replay true)
    (blankState_freshlyOpened crc32c) (hproper 1 8) (by decide) (by decide) ?_ true
  exact ⟨fun h => absurd h (by decide), fun h => absurd h (by decide), trivial⟩

theorem Session.unseenWrites
    {es : List Entry} {M : List Nat} {n : Nat} {s : State}
    (h : Session crc es M n [] s) {ws : Txn} (hws : ws.Proper) :
    ∃ cs M' n', Session crc (es ++ cs) M' n' [] (runCalls crc (ws.map Call.write) s) ∧
      (∀ e ∈ cs, ¬ e.tag.IsEdge) ∧ (∀ m ∈ M', m ∈ M) ∧
      (runCalls crc (ws.map Call.write) s).data.txnId = s.data.txnId := by
  induction ws generalizing es M n s with
  | nil =>
      exact ⟨[], M, n, by simpa using h, by simp, fun m hm => hm, rfl⟩
  | cons req ws ih =>
      obtain ⟨hne, hwhole⟩ := hws req (by simp)
      obtain ⟨cs, M', n', hs, hedge, hM, hid⟩ := ih (h.write hwhole)
        (fun r hr => hws r (List.mem_cons_of_mem req hr))
      refine ⟨req.entry crc :: cs, M', n', ?_, ?_, ?_, ?_⟩
      · rw [List.append_assoc] at hs
        exact hs
      · intro e he
        rcases List.mem_cons.mp he with rfl | he
        · intro hedge'
          have hsize := (req.entry crc).size_eq
          rw [hedge'.1, UInt32.toNat_zero] at hsize
          exact hne (List.length_eq_zero_iff.mp hsize.symm)
        · exact hedge e he
      · exact fun m hm => mem_of_mem_clearMarks (hM m hm)
      · exact hid.trans (rfsckWrite_txnId crc h.outcomes_nil hwhole)

theorem not_isEdge_edge_zero (offset : UInt64) : ¬ (Entry.edge offset 0).tag.IsEdge := by
  exact fun h => h.2 rfl

/-- **A transaction with the id zero** leaves no begin or end tag. -/
theorem Session.unseenTxn
    {es : List Entry} {M : List Nat} {n : Nat} {s : State}
    (h : Session crc es M n [] s) (hid : s.data.txnId = 0) {ws : Txn} (hws : ws.Proper) :
    ∃ cs M' n', Session crc (es ++ cs) M' n' [] (runCalls crc (txnCalls ws) s) ∧
      (∀ e ∈ cs, ¬ e.tag.IsEdge) ∧ ∀ m ∈ M', m ∈ M := by
  have hbegin := h.txnBegin
  have hid1 := rfsckTxnBegin_txnId crc h.outcomes_nil
  obtain ⟨cs, M', n', hs, hedge, hM, hid2⟩ := hbegin.unseenWrites hws
  have hend := hs.txnEnd
  rw [hid2, hid1, hid] at hend
  have hcalls : runCalls crc (txnCalls ws) s =
      (rfsckTxnEnd crc (runCalls crc (ws.map Call.write) (rfsckTxnBegin crc 0 s).2)).2 := by
    rw [txnCalls, runCalls_cons, runCalls_append]
    rfl
  rw [← hcalls, List.append_assoc (es ++ [Entry.edge 0 0]), List.append_assoc es] at hend
  refine ⟨_, _, _, hend, ?_, ?_⟩
  · intro e he
    rcases List.mem_append.mp he with he | he
    · rw [List.mem_singleton.mp he]
      exact not_isEdge_edge_zero 0
    · rcases List.mem_append.mp he with he | he
      · exact hedge e he
      · rw [List.mem_singleton.mp he]
        exact not_isEdge_edge_zero _
  · intro m hm
    exact mem_of_mem_clearMarks (hM m (mem_of_mem_clearMarks (mem_of_mem_clearMarks hm)))

theorem logging_of_mem_txnCalls
    {ws : Txn} (hws : ws.Proper) {c : Call} (h : c ∈ txnCalls ws) : c.Logging := by
  rcases List.mem_cons.mp h with rfl | h
  · trivial
  · rcases List.mem_append.mp h with h | h
    · obtain ⟨req, hreq, rfl⟩ := List.mem_map.mp h
      exact (hws req hreq).2
    · rw [List.mem_singleton.mp h]
      trivial

theorem clearMarks_of_short
    {es : List Entry} {M : List Nat} (h : ∀ m ∈ M, (tagOf es m).IsEdge)
    (hlen : es.length < keysPerBlock) :
    clearMarks (es.length / keysPerBlock) M = [] := by
  rw [clearMarks, List.filter_eq_nil_iff]
  intro m hm
  have hlt := (h m hm).lt_length
  rw [Nat.div_eq_of_lt hlen, Nat.div_eq_of_lt (by omega)]
  simp

/-- The library in front of a restart of `e2fsck`: an empty transaction, and the
four calls of `main`. -/
def restartCalls : List Call :=
  [.txnBegin, .txnEnd, .markDone true, .replay true, .markDone false]

theorem session_of_restart
    {w : World} {s : State} (h : FreshlyOpened crc w s) :
    ∃ n, Session crc (historyEntries crc 1 [[]]) [] n [] (runCalls crc restartCalls s) ∧
      (runCalls crc restartCalls s).data.txnId = 0 ∧
      (runCalls crc restartCalls s).data.devFd = s.data.devFd ∧
      (runCalls crc restartCalls s).world.file (.dev s.data.devFd) =
        w.file (.dev s.data.devFd) := by
  have hempty : ∀ ws ∈ [([] : Txn)], Txn.Proper ws := by
    intro ws hws
    rw [List.mem_singleton.mp hws]
    exact proper_of_byteWrites (by simp)
  have hentries : Txns.entries crc ⟨[[]], none⟩ = historyEntries crc 1 [[]] := List.append_nil _
  have hlogged := h.logged.txnBegin.txnEnd
  have hdone := hlogged.markDone true
  have hsealed := hlogged.sealedLog hempty (by decide) (by decide)
  obtain ⟨n, hs⟩ := hdone.session
  have hfin := hdone.done_iff.mpr rfl
  rw [List.nil_append, hentries] at hs
  have hreplay := hs.replay hfin true
  have hdev := hsealed.replay_dev_of_aligned hs.outcomes_nil
    ⟨fun h0 => absurd h0 (by decide), trivial⟩ true
  have hid := hsealed.replay_txnId hs.outcomes_nil true
  have hdata := hs.replay_idle hfin true
  have hcalls : runCalls crc restartCalls s = (redoMarkDone crc false (rfsckReplay crc true
      (redoMarkDone crc true (rfsckTxnEnd crc (rfsckTxnBegin crc 0 s).2).2).2).2).2 := by
    rfl
  rw [hcalls]
  rw [hdone.devFd_eq, hdone.dev_eq] at hdev
  have hmark := hreplay.markDone false
  rw [clearMarks_of_short hreplay.marks_edge (by
    rw [length_historyEntries]
    decide)] at hmark
  have hlogging : (Call.markDone false).Logging := trivial
  obtain ⟨hfd, hfile, _⟩ := hlogging.run_dev crc hreplay.outcomes_nil s.data.devFd
  refine ⟨_, hmark, ?_, ?_, ?_⟩
  · exact (redoMarkDone_hdr crc hreplay.outcomes_nil false).2.1.trans hid
  · exact hfd.trans ((RedoPrivateData.devFd_of_idle hdata).trans hdone.devFd_eq)
  · exact hfile.trans hdev

/-- **A restart loses the next transaction.**  The transaction that is committed
behind the restart does not reach the device. -/
theorem replay_dev_behind_restart
    {w : World} {s : State} (h : FreshlyOpened crc w s) {ws : Txn} (hws : ws.Proper) :
    (runCalls crc (restartCalls ++ txnCalls ws ++ [.markDone true, .replay true]) s).world.file
        (.dev s.data.devFd) =
      w.file (.dev s.data.devFd) := by
  obtain ⟨n, hs, hid, hfd, hdev⟩ := session_of_restart h
  obtain ⟨cs, M', n', hlog, hedge, hM⟩ := hs.unseenTxn hid hws
  obtain rfl : M' = [] := List.eq_nil_iff_forall_not_mem.mpr (fun m hm => by
    simpa using hM m hm)
  have hdone := hlog.markDone true
  rw [clearMarks_nil] at hdone
  have hlogging : ∀ c ∈ txnCalls ws ++ [.markDone true], c.Logging := by
    intro c hc
    rcases List.mem_append.mp hc with hc | hc
    · exact logging_of_mem_txnCalls hws hc
    · rw [List.mem_singleton.mp hc]
      trivial
  obtain ⟨hfd', hdev'⟩ := runCalls_dev crc hlogging hs.outcomes_nil s.data.devFd
  rw [hfd, runCalls_append] at hfd'
  rw [hdev, runCalls_append] at hdev'
  have hfin : (redoMarkDone crc true (runCalls crc (txnCalls ws)
      (runCalls crc restartCalls s))).2.data.hdr.state = e2redoStateFinished := by
    rw [(redoMarkDone_hdr crc hlog.outcomes_nil true).1]
    rfl
  have hfound := found_walkLog_append crc (H := MarkedHistory.unmarked [[]])
    (k := (redoMarkDone crc true (runCalls crc (txnCalls ws)
      (runCalls crc restartCalls s))).2.data.hdr.visited)
    (by decide)
    (by
      intro us hus
      rw [MarkedHistory.txns_unmarked] at hus
      rw [List.mem_singleton.mp hus]
      exact proper_of_byteWrites (by simp))
    (by
      have hpos : 1 ≤ keybCountLimit := by
        decide
      rw [MarkedHistory.txns_unmarked, RedoHeader.visited]
      simp only [tagCount_cons, keysPerBlock_eq]
      simp only [List.length_nil, tagCount, List.map_nil, List.sum_nil]
      omega)
    (redoMarkDone crc true (runCalls crc (txnCalls ws) (runCalls crc restartCalls s))).2.out
    hedge
  rw [MarkedHistory.txns_unmarked, MarkedHistory.marksAt_unmarked] at hfound
  have hacts := (hdone.finishedLog hfin).planLog_follows.acts_eq
  rw [hfound] at hacts
  have hcalls : runCalls crc (restartCalls ++ txnCalls ws ++ [.markDone true, .replay true]) s =
      (rfsckReplay crc true (redoMarkDone crc true (runCalls crc (txnCalls ws)
        (runCalls crc restartCalls s))).2).2 := by
    rw [runCalls_append, runCalls_append]
    rfl
  rw [hcalls, hdone.replay_eq hfin true, hacts, if_pos rfl]
  dsimp only
  rw [World.file_push, applyEvent_fsync]
  exact (file_dev_push_redo _ _ _ _).trans hdev'

theorem replay_misses_txn_behind_restart :
    (runCalls crc32c (restartCalls ++ txnCalls [byteWrite 0 7] ++ [.markDone true, .replay true])
        (blankState crc32c)).world.file (.dev (blankState crc32c).data.devFd) ≠
      applyPatches (blankWorld.file (.dev (blankState crc32c).data.devFd))
        (historyPatches [[], [byteWrite 0 7]]) := by
  intro heq
  rw [replay_dev_behind_restart (blankState_freshlyOpened crc32c)
    (proper_of_byteWrites (by decide))] at heq
  have hbyte := congrArg (fun f : ByteFile => f.byte 0) heq
  exact absurd hbyte (by decide)

end Later

end Redo
end Rfsck
