import Rfsck.Redo.HistoryReplay

/-!
# Replays that are interrupted and run again

A replay is stopped behind its first `p` writes, and a second replay runs on the log
and the device that are left.

* `doneTxns p H` are the transactions whose mark is among the first `p` writes,
  `restTxns p H` are the others (`stopped_sealedLog`).
* The second replay skips the first ones.  It does not move its position over their
  data, so it copies the data of the others from the right place only if there was
  nothing to move over (`StillFrom`).
* `replay_restartable`: in that case, and when nothing is left to copy, the device
  ends up as after one uninterrupted replay.
-/

namespace Rfsck
namespace Redo

open Storage

/-- The world when a replay of the state `s` is stopped behind its first `p` writes. -/
def stoppedWorld (crc : Bytes → UInt32) (sync : Bool) (p : Nat) (s : State) : World :=
  { s.world with
    trace := (rfsckReplay crc sync s).2.world.trace.take (s.world.trace.length + p) }

theorem perform_init (devFd : Nat) (as : List Action) (w : World) :
    (perform devFd as w).init = w.init := by
  induction as generalizing w with
  | nil =>
      rfl
  | cons a as ih =>
      rw [perform_cons, ih, World.push_init]

theorem trace_perform (devFd : Nat) (as : List Action) (w : World) :
    ∃ tr, (perform devFd as w).trace = w.trace ++ tr := by
  induction as generalizing w with
  | nil =>
      exact ⟨[], (List.append_nil _).symm⟩
  | cons a as ih =>
      obtain ⟨tr, htr⟩ := ih (w.push (a.event devFd w))
      exact ⟨a.event devFd w :: tr, by
        rw [perform_cons, htr, World.push_trace, List.append_assoc]
        rfl⟩

theorem length_trace_perform (devFd : Nat) (as : List Action) (w : World) :
    (perform devFd as w).trace.length = w.trace.length + as.length := by
  induction as generalizing w with
  | nil =>
      rfl
  | cons a as ih =>
      rw [perform_cons, ih, World.push_trace, List.length_append, List.length_singleton,
        List.length_cons]
      omega

theorem take_trace_perform (devFd : Nat) (as : List Action) (w : World) (p : Nat) :
    (perform devFd as w).trace.take (w.trace.length + p) =
      (perform devFd (as.take p) w).trace := by
  induction as generalizing w p with
  | nil =>
      rw [List.take_nil, perform_nil]
      exact List.take_of_length_le (by omega)
  | cons a as ih =>
      cases p with
      | zero =>
          obtain ⟨tr, htr⟩ := trace_perform devFd (a :: as) w
          rw [htr, Nat.add_zero, List.take_left]
          rfl
      | succ p =>
          have hrest := ih (w.push (a.event devFd w)) p
          rw [World.push_trace, List.length_append, List.length_singleton] at hrest
          rw [perform_cons, List.take_succ_cons, perform_cons, ← hrest,
            show w.trace.length + (p + 1) = w.trace.length + 1 + p by omega]

section Stopped

variable {crc : Bytes → UInt32}

theorem FinishedLog.stoppedWorld_file
    {es : List Entry} {M : List Nat} {hdr : RedoHeader} {s : State}
    (h : FinishedLog crc es M hdr (s.world.file .redo)) (hout : s.world.outcomes = [])
    (sync : Bool) (p : Nat) (fd : Fd) :
    (stoppedWorld crc sync p s).file fd =
      (perform s.data.devFd ((planLog crc s).2.take p) s.world).file fd := by
  have htake := take_trace_perform s.data.devFd (planLog crc s).2 s.world p
  rw [stoppedWorld, h.replay_eq hout sync, World.file, World.file, perform_init, ← htake]
  cases sync with
  | false =>
      rfl
  | true =>
      dsimp only
      rw [if_pos rfl, World.push_trace]
      by_cases hp : s.world.trace.length + p ≤
          (perform s.data.devFd (planLog crc s).2 s.world).trace.length
      · rw [List.take_append_of_le_length hp]
      · rw [List.take_of_length_le (by simp; omega), List.take_of_length_le (by omega),
          applyEvents_append]
        rfl

/-- The transactions whose mark is among the first `p` writes, and those that were
marked before. -/
def doneTxns : Nat → MarkedHistory → MarkedHistory
  | _, [] => []
  | p, (true, ws) :: H => (true, ws) :: doneTxns p H
  | p, (false, ws) :: H =>
      if ws.length < p then (false, ws) :: doneTxns (p - (ws.length + 1)) H else []

def restTxns (p : Nat) (H : MarkedHistory) : MarkedHistory :=
  H.drop (doneTxns p H).length

def markAll (H : MarkedHistory) : MarkedHistory :=
  H.map (fun x => (true, x.2))

/-- The transactions without mark have no writes, and no key block ends inside
one. -/
def StillFrom : Nat → MarkedHistory → Prop
  | _, [] => True
  | i, (true, ws) :: H => StillFrom (i + (ws.length + 2)) H
  | i, (false, ws) :: H =>
      ws = [] ∧ (i + 1) % keysPerBlock ≠ 0 ∧ StillFrom (i + (ws.length + 2)) H

theorem doneTxns_append_restTxns (p : Nat) (H : MarkedHistory) :
    doneTxns p H ++ restTxns p H = H := by
  induction H generalizing p with
  | nil =>
      rfl
  | cons x H ih =>
      obtain ⟨m, ws⟩ := x
      cases m with
      | true =>
          exact congrArg (List.cons _) (ih p)
      | false =>
          unfold restTxns doneTxns
          split_ifs with hp
          · exact congrArg (List.cons _) (ih _)
          · rfl

@[simp] theorem txns_markAll (H : MarkedHistory) : (markAll H).txns = H.txns := by
  simp [markAll, MarkedHistory.txns]

@[simp] theorem length_markAll (H : MarkedHistory) : (markAll H).length = H.length := by
  simp [markAll]

theorem found_markAll (crc : Bytes → UInt32) (i : Nat) (id : UInt32) (pos : Nat)
    (H : MarkedHistory) :
    MarkedHistory.found crc i id pos (markAll H) = [] ∧
      MarkedHistory.endPos crc i id pos (markAll H) = pos := by
  induction H generalizing i id pos with
  | nil =>
      exact ⟨rfl, rfl⟩
  | cons x H ih =>
      exact ih _ _ _

theorem endPos_of_stillFrom (crc : Bytes → UInt32) {i : Nat} (id : UInt32) (pos : Nat)
    {H : MarkedHistory} (h : StillFrom i H) :
    MarkedHistory.endPos crc i id pos H = pos := by
  induction H generalizing i id pos with
  | nil =>
      rfl
  | cons x H ih =>
      obtain ⟨m, ws⟩ := x
      cases m with
      | true =>
          exact ih (id + 1) pos h
      | false =>
          obtain ⟨rfl, hgap, hrest⟩ := h
          have hpos : (txnFound crc i id [] pos).copies.1 = pos := by
            change pos + gap (i + 1) = pos
            rw [gap, if_neg hgap, Nat.add_zero]
          rw [MarkedHistory.endPos, hpos]
          exact ih (id + 1) pos hrest

theorem marksAt_append (i : Nat) (A B : MarkedHistory) :
    MarkedHistory.marksAt i (A ++ B) =
      MarkedHistory.marksAt i A ++ MarkedHistory.marksAt (i + tagCount A.txns) B := by
  induction A generalizing i with
  | nil =>
      rfl
  | cons x A ih =>
      obtain ⟨m, ws⟩ := x
      rw [MarkedHistory.txns_cons, tagCount_cons, ← Nat.add_assoc]
      cases m with
      | true =>
          rw [List.cons_append, MarkedHistory.marksAt, ih, MarkedHistory.marksAt]
          rfl
      | false =>
          rw [List.cons_append, MarkedHistory.marksAt, ih, MarkedHistory.marksAt]

theorem mem_marksAt_markAll
    (crc : Bytes → UInt32) (i : Nat) (id : UInt32) (pos : Nat) (A : MarkedHistory) (m : Nat) :
    m ∈ MarkedHistory.marksAt i (markAll A) ↔
      m ∈ MarkedHistory.marksAt i A ∨
        m ∈ (MarkedHistory.found crc i id pos A).map Found.beginAt := by
  induction A generalizing i id pos with
  | nil =>
      simp [markAll, MarkedHistory.marksAt, MarkedHistory.found]
  | cons x A ih =>
      obtain ⟨b, ws⟩ := x
      have hall : markAll ((b, ws) :: A) = (true, ws) :: markAll A := by
        rfl
      rw [hall, MarkedHistory.marksAt, List.mem_cons]
      cases b with
      | true =>
          rw [ih (i + (ws.length + 2)) (id + 1) pos, MarkedHistory.marksAt, List.mem_cons,
            MarkedHistory.found, or_assoc]
      | false =>
          rw [ih (i + (ws.length + 2)) (id + 1) (txnFound crc i id ws pos).copies.1,
            MarkedHistory.marksAt, MarkedHistory.found, List.map_cons, List.mem_cons]
          have hbegin : (txnFound crc i id ws pos).beginAt = i := by
            rfl
          rw [hbegin]
          tauto

theorem lt_of_mem_found
    {crc : Bytes → UInt32} {i : Nat} {id : UInt32} {pos : Nat} {H : MarkedHistory} {t : Found}
    (h : t ∈ MarkedHistory.found crc i id pos H) : t.beginAt < i + tagCount H.txns := by
  induction H generalizing i id pos with
  | nil =>
      simp [MarkedHistory.found] at h
  | cons x H ih =>
      obtain ⟨m, ws⟩ := x
      rw [MarkedHistory.txns_cons, tagCount_cons]
      cases m with
      | true =>
          have := ih h
          omega
      | false =>
          rcases List.mem_cons.mp h with rfl | h
          · change i < _
            omega
          · have := ih h
            omega

theorem length_copyTags (ts : List RedoBlockTag) (i pos : Nat) :
    (copyTags ts i pos).2.length = ts.length := by
  induction ts generalizing i pos with
  | nil =>
      rfl
  | cons t ts ih =>
      rw [copyTags_cons, List.length_cons, ih, List.length_cons]

/-- **Where a replay is stopped**: behind the actions of the transactions that are
done, and some copies of the next one. -/
theorem take_actionsOf_found
    (o : Nat → Nat) (B : Nat → RedoBlock) (M : List Nat) (p i : Nat) (id : UInt32) (pos : Nat)
    (H : MarkedHistory) :
    ∃ cs, (actionsOf o B M (MarkedHistory.found crc i id pos H)).take p =
        actionsOf o B M (MarkedHistory.found crc i id pos (doneTxns p H)) ++ cs ∧
      cs <+: actionsOf o B
        (M ++ (MarkedHistory.found crc i id pos (doneTxns p H)).map Found.beginAt)
        (MarkedHistory.found crc (i + tagCount (doneTxns p H).txns)
          (id + UInt32.ofNat (doneTxns p H).length)
          (MarkedHistory.endPos crc i id pos (doneTxns p H)) (restTxns p H)) ∧
      markPatches cs = [] := by
  induction H generalizing p i id pos M with
  | nil =>
      exact ⟨[], by simp [MarkedHistory.found, actionsOf, doneTxns], List.nil_prefix, rfl⟩
  | cons x H ih =>
      obtain ⟨m, ws⟩ := x
      cases m with
      | true =>
          obtain ⟨cs, htake, hpre, hmarks⟩ := ih M p (i + (ws.length + 2)) (id + 1) pos
          refine ⟨cs, htake, ?_, hmarks⟩
          rw [add_one_add_ofNat, Nat.add_assoc] at hpre
          exact hpre
      | false =>
          have hlen : (txnFound crc i id ws pos).copies.2.length = ws.length := by
            rw [Found.copies, length_copyTags]
            exact List.length_map _
          have hcons : actionsOf o B M (MarkedHistory.found crc i id pos ((false, ws) :: H)) =
              (txnFound crc i id ws pos).copies.2 ++
                (Action.mark (o (i / keysPerBlock)) ((B (i / keysPerBlock)).clearReserved.remark
                  (i / keysPerBlock) (M ++ [i])) ::
                actionsOf o B (M ++ [i]) (MarkedHistory.found crc (i + (ws.length + 2)) (id + 1)
                  (txnFound crc i id ws pos).copies.1 H)) := by
            rw [MarkedHistory.found, actionsOf, Found.actions, List.append_assoc]
            rfl
          by_cases hp : ws.length < p
          · obtain ⟨q, rfl⟩ : ∃ q, p = ws.length + (q + 1) := ⟨p - (ws.length + 1), by omega⟩
            obtain ⟨cs, htake, hpre, hmarks⟩ := ih (M ++ [i]) q (i + (ws.length + 2)) (id + 1)
              (txnFound crc i id ws pos).copies.1
            have hdone : doneTxns (ws.length + (q + 1)) ((false, ws) :: H) =
                (false, ws) :: doneTxns q H := by
              rw [doneTxns, if_pos hp, show ws.length + (q + 1) - (ws.length + 1) = q by omega]
            have hrest : restTxns (ws.length + (q + 1)) ((false, ws) :: H) = restTxns q H := by
              rw [restTxns, hdone]
              rfl
            refine ⟨cs, ?_, ?_, hmarks⟩
            · rw [hcons, List.take_append, hlen, Nat.add_sub_cancel_left,
                List.take_of_length_le (by omega), List.take_succ_cons, htake, hdone,
                MarkedHistory.found, actionsOf, Found.actions, List.append_assoc,
                List.append_assoc]
              rfl
            · rw [add_one_add_ofNat, Nat.add_assoc, List.append_assoc] at hpre
              rw [hrest, hdone]
              exact hpre
          · have hdone : doneTxns p ((false, ws) :: H) = [] := by
              rw [doneTxns, if_neg hp]
            have hrest : restTxns p ((false, ws) :: H) = (false, ws) :: H := by
              rw [restTxns, hdone]
              rfl
            refine ⟨(txnFound crc i id ws pos).copies.2.take p, ?_, ?_, ?_⟩
            · rw [hcons, hdone, List.take_append_of_le_length (by omega)]
              rfl
            · rw [hdone, hrest]
              have hwhole : (txnFound crc i id ws pos).copies.2.take p <+:
                  actionsOf o B M (MarkedHistory.found crc i id pos ((false, ws) :: H)) := by
                rw [hcons]
                exact (List.take_prefix _ _).trans (List.prefix_append _ _)
              simpa [MarkedHistory.found, MarkedHistory.endPos, MarkedHistory.txns, tagCount] using hwhole
            · have hsplit := markPatches_append
                ((txnFound crc i id ws pos).copies.2.take p)
                ((txnFound crc i id ws pos).copies.2.drop p)
              rw [List.take_append_drop, Found.copies, markPatches_copyTags] at hsplit
              exact (List.append_eq_nil_iff.mp hsplit.symm).1

/-- The marks when a replay is stopped behind the transactions `A`. -/
theorem mem_marksAt_stopped
    (crc : Bytes → UInt32) (pos : Nat) (A B : MarkedHistory) (m : Nat) :
    m ∈ MarkedHistory.marksAt 0 (A ++ B) ++
        (MarkedHistory.found crc 0 1 pos A).map Found.beginAt ↔
      m ∈ MarkedHistory.marksAt 0 (markAll A ++ B) := by
  rw [marksAt_append, marksAt_append, txns_markAll]
  simp only [List.mem_append, mem_marksAt_markAll crc 0 1 pos A]
  tauto

/-- **The log when a replay is stopped** holds the same history with more marks. -/
theorem SealedLog.stopped
    {H : MarkedHistory} {hdr : RedoHeader} {f : ByteFile} (h : SealedLog crc H hdr f)
    {A B : MarkedHistory} (hH : A ++ B = H) :
    SealedLog crc (markAll A ++ B) hdr
      (applyPatches f (markPatches (actionsOf (keybPos (historyEntries crc 1 H.txns))
        (fun k => (keybOf crc (historyEntries crc 1 H.txns) k).remark k
          (MarkedHistory.marksAt 0 H)) []
        (MarkedHistory.found crc 0 1 (redoHeaderSize + redoLogBlockSize) A)))) := by
  have htxns : MarkedHistory.txns (markAll A ++ B) = H.txns := by
    rw [MarkedHistory.txns_append, txns_markAll, ← MarkedHistory.txns_append, hH]
  have hlt : ∀ t ∈ MarkedHistory.found crc 0 1 (redoHeaderSize + redoLogBlockSize) A,
      t.beginAt / keysPerBlock < hdr.numKeys.toNat + 1 := by
    intro t ht
    have hbegin := lt_of_mem_found ht
    have hcount : tagCount H.txns = tagCount A.txns + tagCount B.txns := by
      rw [← hH, MarkedHistory.txns_append, tagCount_append]
    rw [h.numKeys_eq]
    simp only [keysPerBlock_eq]
    omega
  have hstored : Stored crc (historyEntries crc 1 H.txns) (MarkedHistory.marksAt 0 H ++ [])
      (hdr.numKeys.toNat + 1) f := by
    rw [List.append_nil]
    exact h.log.stored
  have hmarks := hstored.applyMarks hlt
  rw [List.append_nil] at hmarks
  refine {
    log := ?_
    numKeys_eq := ?_
    blocks_lt := ?_
    length_lt := ?_
    proper := ?_ }
  · rw [htxns]
    exact { h.log with
      stored := hmarks.congr_marks (fun m => by
        rw [← hH]
        exact mem_marksAt_stopped crc _ A B m)
      header_holds := header_applyMarks h.log.header_holds _ _ _ }
  · rw [htxns]
    exact h.numKeys_eq
  · rw [htxns]
    exact h.blocks_lt
  · rw [List.length_append, length_markAll, ← List.length_append, hH]
    exact h.length_lt
  · rw [htxns]
    exact h.proper

theorem actionsOf_congr
    {o : Nat → Nat} {B B' : Nat → RedoBlock} {M M' : List Nat}
    (h : ∀ k L, (B k).clearReserved.remark k (M ++ L) = (B' k).clearReserved.remark k (M' ++ L))
    (ts : List Found) :
    actionsOf o B M ts = actionsOf o B' M' ts := by
  induction ts generalizing M M' with
  | nil =>
      rfl
  | cons t ts ih =>
      have hrest : actionsOf o B (M ++ [t.beginAt]) ts = actionsOf o B' (M' ++ [t.beginAt]) ts := by
        refine ih ?_
        intro k L
        rw [List.append_assoc, h, List.append_assoc]
      rw [actionsOf, actionsOf, Found.actions, Found.actions, h, hrest]

theorem devPatches_of_empty
    (o : Nat → Nat) (B : Nat → RedoBlock) (M : List Nat) {ts : List Found}
    (h : ∀ t ∈ ts, t.tags = []) (f : ByteFile) :
    devPatches f (actionsOf o B M ts) = [] := by
  induction ts generalizing M f with
  | nil =>
      rfl
  | cons t ts ih =>
      rw [devPatches_actions, ih _ (fun u hu => h u (List.mem_cons_of_mem t hu)),
        Found.copies, h t (by simp)]
      rfl

theorem tags_of_mem_found
    {i : Nat} {id : UInt32} {pos : Nat} {H : MarkedHistory}
    (hH : ∀ ws, (false, ws) ∈ H → ws = []) {t : Found}
    (h : t ∈ MarkedHistory.found crc i id pos H) : t.tags = [] := by
  induction H generalizing i id pos with
  | nil =>
      simp [MarkedHistory.found] at h
  | cons x H ih =>
      obtain ⟨m, ws⟩ := x
      have hrest : ∀ us, (false, us) ∈ H → us = [] :=
        fun us hus => hH us (List.mem_cons_of_mem _ hus)
      cases m with
      | true =>
          exact ih hrest h
      | false =>
          rcases List.mem_cons.mp h with rfl | h
          · rw [hH ws (by simp)]
            rfl
          · exact ih hrest h

end Stopped

section Restart

variable {crc : Bytes → UInt32}
variable {H : MarkedHistory} {hdr : RedoHeader} {s : State}

theorem inside_planLog (h : SealedLog crc H hdr (s.world.file .redo)) :
    ∀ a ∈ (planLog crc s).2, a.Inside (s.world.file .redo).size := by
  rw [h.planLog_eq]
  exact inside_found _ H h.proper h.log.stored.data_holds [] rfl (le_refl _) []

/-- The files when the replay of the log of a history is stopped: the log has more
marks, and the device has part of the writes. -/
theorem SealedLog.stoppedWorld_files
    (h : SealedLog crc H hdr (s.world.file .redo)) (hout : s.world.outcomes = [])
    (sync : Bool) (p : Nat) :
    SealedLog crc (markAll (doneTxns p H) ++ restTxns p H) hdr
        ((stoppedWorld crc sync p s).file .redo) ∧
      (stoppedWorld crc sync p s).file (.dev s.data.devFd) =
        applyPatches (s.world.file (.dev s.data.devFd))
          (devPatches (s.world.file .redo) ((planLog crc s).2.take p)) := by
  obtain ⟨cs, htake, _, hmarks⟩ := @take_actionsOf_found crc
    (keybPos (historyEntries crc 1 H.txns))
    (fun k => (keybOf crc (historyEntries crc 1 H.txns) k).remark k
      (MarkedHistory.marksAt 0 H)) [] p 0 1 (redoHeaderSize + redoLogBlockSize) H
  constructor
  · rw [h.log.stoppedWorld_file hout, perform_redo, h.planLog_eq, htake, markPatches_append,
      hmarks, List.append_nil]
    exact h.stopped (doneTxns_append_restTxns p H)
  · rw [h.log.stoppedWorld_file hout]
    exact perform_dev (fun a ha => inside_planLog h a (List.mem_of_mem_take ha))

/-- The plan of the second replay: the transactions that are left, from the first
position. -/
theorem planLog_of_stopped
    {A B : MarkedHistory} {s₂ : State}
    (h : SealedLog crc (markAll A ++ B) hdr (s₂.world.file .redo)) :
    (planLog crc s₂).2 =
      actionsOf (keybPos (historyEntries crc 1 (MarkedHistory.txns (A ++ B))))
        (fun k => (keybOf crc (historyEntries crc 1 (MarkedHistory.txns (A ++ B))) k).remark k
          (MarkedHistory.marksAt 0 (A ++ B)))
        ([] ++ (MarkedHistory.found crc 0 1 (redoHeaderSize + redoLogBlockSize) A).map
          Found.beginAt)
        (MarkedHistory.found crc (0 + tagCount A.txns) (1 + UInt32.ofNat A.length)
          (redoHeaderSize + redoLogBlockSize) B) := by
  have htxns : MarkedHistory.txns (markAll A ++ B) = MarkedHistory.txns (A ++ B) := by
    rw [MarkedHistory.txns_append, txns_markAll, MarkedHistory.txns_append]
  obtain ⟨hfound, hend⟩ := found_markAll crc 0 1 (redoHeaderSize + redoLogBlockSize) A
  rw [h.planLog_eq, htxns, MarkedHistory.found_append, hfound, hend, txns_markAll,
    length_markAll, List.nil_append]
  refine actionsOf_congr ?_ _
  intro k L
  rw [RedoBlock.clearReserved_of_eq rfl, RedoBlock.clearReserved_of_eq rfl,
    RedoBlock.remark_remark, RedoBlock.remark_remark]
  refine RedoBlock.remark_congr rfl ?_
  intro c _
  have hmem := mem_marksAt_stopped crc (redoHeaderSize + redoLogBlockSize) A B
    (keysPerBlock * k + c)
  simp only [List.nil_append, List.mem_append] at hmem ⊢
  rw [← hmem, or_assoc]

/-- **Replay is restartable** when the transactions that are done have no data for
the second replay to move over, or nothing is left for it to copy. -/
theorem replay_restartable
    (h : SealedLog crc H hdr (s.world.file .redo)) (hout : s.world.outcomes = [])
    (sync : Bool) (p : Nat)
    (hstop : StillFrom 0 (doneTxns p H) ∨ ∀ ws, (false, ws) ∈ restTxns p H → ws = [])
    (s₂ : State)
    (hredo : s₂.world.file .redo = (stoppedWorld crc sync p s).file .redo)
    (hdev : s₂.world.file (.dev s.data.devFd) =
      (stoppedWorld crc sync p s).file (.dev s.data.devFd))
    (hfd : s₂.data.devFd = s.data.devFd) (hout₂ : s₂.world.outcomes = []) :
    (rfsckReplay crc sync s₂).2.world.file (.dev s.data.devFd) =
      (rfsckReplay crc sync s).2.world.file (.dev s.data.devFd) := by
  obtain ⟨hsealed, hpart⟩ := h.stoppedWorld_files hout sync p
  rw [← hredo] at hsealed
  rw [← hdev] at hpart
  have hsecond := hsealed.replay_dev hout₂ sync
  have hplan₂ := planLog_of_stopped hsealed
  have hplan := h.planLog_eq
  obtain ⟨cs, htake, hcs, hmarks⟩ := @take_actionsOf_found crc
    (keybPos (historyEntries crc 1 H.txns))
    (fun k => (keybOf crc (historyEntries crc 1 H.txns) k).remark k
      (MarkedHistory.marksAt 0 H)) [] p 0 1 (redoHeaderSize + redoLogBlockSize) H
  have hlog : s₂.world.file .redo = applyPatches (s.world.file .redo)
      (markPatches (actionsOf (keybPos (historyEntries crc 1 H.txns))
        (fun k => (keybOf crc (historyEntries crc 1 H.txns) k).remark k
          (MarkedHistory.marksAt 0 H)) []
        (MarkedHistory.found crc 0 1 (redoHeaderSize + redoLogBlockSize) (doneTxns p H)))) := by
    rw [hredo, h.log.stoppedWorld_file hout, perform_redo, hplan, htake, markPatches_append,
      hmarks, List.append_nil]
  rw [← hplan] at htake
  rw [htake, devPatches_append, ← hlog] at hpart
  rw [doneTxns_append_restTxns] at hplan₂
  rw [← doneTxns_append_restTxns p H, MarkedHistory.found_append, actionsOf_append,
    doneTxns_append_restTxns] at hplan
  rw [hfd] at hsecond
  rw [hsecond, hpart, hplan₂, h.replay_dev hout sync, hplan, devPatches_append, ← hlog,
    applyPatches_append, applyPatches_append]
  obtain ⟨ds, hds⟩ := hcs
  rcases hstop with hstill | hempty
  · -- the positions agree: the second replay repeats the copies that were cut off
    rw [endPos_of_stillFrom crc 1 _ hstill] at hds ⊢
    refine applyPatches_prefix_absorb ?_ _
    rw [← hds, devPatches_append]
    exact List.prefix_append _ _
  · have hnotags : ∀ pos, ∀ t ∈ MarkedHistory.found crc (0 + tagCount (doneTxns p H).txns)
        (1 + UInt32.ofNat (doneTxns p H).length) pos (restTxns p H), t.tags = [] :=
      fun pos t ht => tags_of_mem_found hempty ht
    have hnone := fun pos => devPatches_of_empty
      (keybPos (historyEntries crc 1 H.txns))
      (fun k => (keybOf crc (historyEntries crc 1 H.txns) k).remark k
        (MarkedHistory.marksAt 0 H))
      ([] ++ (MarkedHistory.found crc 0 1 (redoHeaderSize + redoLogBlockSize)
        (doneTxns p H)).map Found.beginAt)
      (hnotags pos) (s₂.world.file .redo)
    have hcut : devPatches (s₂.world.file .redo) cs = [] := by
      have hall := hnone (MarkedHistory.endPos crc 0 1 (redoHeaderSize + redoLogBlockSize)
        (doneTxns p H))
      rw [← hds, devPatches_append] at hall
      exact (List.append_eq_nil_iff.mp hall).1
    rw [hcut, hnone, hnone]
    rfl

/-- The process that replays the log again finds what the stopped one left. -/
def stoppedState (crc : Bytes → UInt32) (sync : Bool) (p : Nat) (s : State) : State :=
  { s with world := stoppedWorld crc sync p s }

@[simp] theorem stoppedState_world (crc : Bytes → UInt32) (sync : Bool) (p : Nat) (s : State) :
    (stoppedState crc sync p s).world = stoppedWorld crc sync p s := by
  rw [stoppedState]

@[simp] theorem stoppedState_devFd (crc : Bytes → UInt32) (sync : Bool) (p : Nat) (s : State) :
    (stoppedState crc sync p s).data.devFd = s.data.devFd := by
  rw [stoppedState]

@[simp] theorem stoppedWorld_outcomes (crc : Bytes → UInt32) (sync : Bool) (p : Nat)
    (s : State) :
    (stoppedWorld crc sync p s).outcomes = s.world.outcomes := by
  rw [stoppedWorld]

theorem proper_of_two_bytes (b c : UInt8) :
    ∀ ws ∈ [[byteWrite 0 b], [byteWrite 1 c]], Txn.Proper ws := by
  intro ws hws
  refine proper_of_byteWrites ?_
  intro req hreq
  simp only [List.mem_cons, List.not_mem_nil, or_false] at hws
  rcases hws with rfl | rfl
  · rw [List.mem_singleton.mp hreq]
    rfl
  · rw [List.mem_singleton.mp hreq]
    rfl

theorem replay_restartable_behind_copy :
    (rfsckReplay crc32c true (stoppedState crc32c true 1 (sealHistory crc32c
        [[byteWrite 0 7], [byteWrite 1 8]] (blankState crc32c)))).2.world.file
        (.dev (sealHistory crc32c [[byteWrite 0 7], [byteWrite 1 8]]
          (blankState crc32c)).data.devFd) =
      (rfsckReplay crc32c true (sealHistory crc32c
        [[byteWrite 0 7], [byteWrite 1 8]] (blankState crc32c))).2.world.file
        (.dev (sealHistory crc32c [[byteWrite 0 7], [byteWrite 1 8]]
          (blankState crc32c)).data.devFd) := by
  obtain ⟨hsealed, hout, _⟩ := (blankState_freshlyOpened crc32c).sealedLog
    (proper_of_two_bytes 7 8) (by decide) (by decide)
  generalize sealHistory crc32c [[byteWrite 0 7], [byteWrite 1 8]] (blankState crc32c) = s
    at *
  have hdone : doneTxns 1 (MarkedHistory.unmarked [[byteWrite 0 7], [byteWrite 1 8]]) = [] := by
    rfl
  refine replay_restartable hsealed hout true 1 (Or.inl ?_) (stoppedState crc32c true 1 s)
    (by rw [stoppedState_world]) (by rw [stoppedState_world]) (stoppedState_devFd _ _ _ _) ?_
  · rw [hdone]
    trivial
  · rw [stoppedState_world, stoppedWorld_outcomes, hout]

/-- Behind the mark of the first transaction, the second replay reads the data of
the first transaction for those of the second. -/
theorem devPatches_behind_mark
    {f : ByteFile} {r r' : WriteReq} (hlen : r'.buf.length = r.buf.length)
    (h : DataHolds (historyEntries crc 1 [[r], [r']]) f)
    (o : Nat → Nat) (B : Nat → RedoBlock) (M : List Nat) (id : UInt32) :
    devPatches f (actionsOf o B M
        (MarkedHistory.found crc 3 id (redoHeaderSize + redoLogBlockSize) [(false, [r'])])) =
      [{ offset := r'.offset.toNat, data := r.buf }] := by
  have hpos : dataPos (historyEntries crc 1 [[r], [r']]) 1 =
      redoHeaderSize + redoLogBlockSize := by
    have hbegin : (tagOf (historyEntries crc 1 [[r], [r']]) 0).size = 0 := by
      rfl
    have hstep := dataPos_succ_of_size_eq_zero hbegin
    have hgap : gap (0 + 1) = 0 := by
      decide
    rw [dataPos_zero, hgap] at hstep
    omega
  have hdata := h 1 (r.entry crc) rfl
  rw [hpos] at hdata
  have hsize : (r'.tag crc).size.toNat = r.buf.length := by
    rw [← hlen]
    exact (r'.entry crc).size_eq
  have hread : f.pread (redoHeaderSize + redoLogBlockSize) (r'.tag crc).size.toNat = r.buf := by
    rw [hsize]
    exact ByteFile.pread_of_holds hdata
  have hcopies : (txnFound crc 3 id [r'] (redoHeaderSize + redoLogBlockSize)).copies.2 =
      [Action.copy (r'.tag crc) (redoHeaderSize + redoLogBlockSize)] := by
    rfl
  rw [MarkedHistory.found, devPatches_actions, hcopies, devPatches, hread]
  rfl

/-- A replay that is stopped behind the first mark and run again leaves the byte of
the first write at the place of the second. -/
theorem replay_not_restartable_behind_mark :
    (rfsckReplay crc32c true (stoppedState crc32c true 2 (sealHistory crc32c
        [[byteWrite 0 7], [byteWrite 1 8]] (blankState crc32c)))).2.world.file
        (.dev (sealHistory crc32c [[byteWrite 0 7], [byteWrite 1 8]]
          (blankState crc32c)).data.devFd) ≠
      (rfsckReplay crc32c true (sealHistory crc32c
        [[byteWrite 0 7], [byteWrite 1 8]] (blankState crc32c))).2.world.file
        (.dev (sealHistory crc32c [[byteWrite 0 7], [byteWrite 1 8]]
          (blankState crc32c)).data.devFd) := by
  obtain ⟨hsealed, hout, _⟩ := (blankState_freshlyOpened crc32c).sealedLog
    (proper_of_two_bytes 7 8) (by decide) (by decide)
  have hfull := hsealed.replay_dev_of_aligned hout
    ⟨fun h => absurd h (by decide), fun h => absurd h (by decide), trivial⟩ true
  generalize sealHistory crc32c [[byteWrite 0 7], [byteWrite 1 8]] (blankState crc32c) = s
    at *
  have hdone : doneTxns 2 (MarkedHistory.unmarked [[byteWrite 0 7], [byteWrite 1 8]]) =
      [(false, [byteWrite 0 7])] := by
    rfl
  have hrest : restTxns 2 (MarkedHistory.unmarked [[byteWrite 0 7], [byteWrite 1 8]]) =
      [(false, [byteWrite 1 8])] := by
    rfl
  have hindex : 0 + tagCount (MarkedHistory.txns [(false, [byteWrite 0 7])]) = 3 := by
    rfl
  have htxns : MarkedHistory.txns (markAll [(false, [byteWrite 0 7])] ++
      [(false, [byteWrite 1 8])]) = [[byteWrite 0 7], [byteWrite 1 8]] := by
    rfl
  have hlen : (byteWrite 1 8).buf.length = (byteWrite 0 7).buf.length := by
    rfl
  have hstopped := (hsealed.stoppedWorld_files hout true 2).1
  rw [hdone, hrest, ← stoppedState_world] at hstopped
  have hsecond := hstopped.replay_dev (by rw [stoppedState_world, stoppedWorld_outcomes, hout])
    true
  have hplan := planLog_of_stopped hstopped
  have hdata := hstopped.log.stored.data_holds
  rw [htxns] at hdata
  rw [hindex] at hplan
  rw [hplan, devPatches_behind_mark hlen hdata, stoppedState_devFd] at hsecond
  intro heq
  have hbyte := congrArg (fun f : ByteFile => f.byte 1)
    (hsecond.symm.trans (heq.trans hfull))
  rw [historyPatches_cons, applyPatches_append] at hbyte
  have hold : ∀ f : ByteFile, (applyPatches f
      [{ offset := (byteWrite 1 8).offset.toNat, data := (byteWrite 0 7).buf }]).byte 1 = 7 := by
    exact fun f => rfl
  have hnew : ∀ f : ByteFile, (applyPatches f (historyPatches [[byteWrite 1 8]])).byte 1 = 8 := by
    exact fun f => rfl
  simp only [hold, hnew] at hbyte
  exact absurd hbyte (by decide)

end Restart

end Redo
end Rfsck
