import Rfsck.Redo.Restart
import Rfsck.Redo.WriteAhead

/-!
# Reusing a finished log

The log that a completed run leaves behind is opened again, and its key blocks and data
are overwritten in place.  The header that says so is not flushed before the first
`rfsck_txn_end`, so the next process may find the old header in front of new key blocks.

* The first transaction behind an open of a finished log has the id zero: it leaves no
  begin or end tag (`Event.Unedged`).
* `Reused` is what the medium holds whenever the power fails: the first key block is the
  old one, or it has no begin and no end tag.
* `reused_log_writes_only_committed`: nothing is replayed if the new header has survived,
  or the log has one key block, or all old key blocks have survived.
* `reused_log_replays_data`: otherwise the walk may take data for a key block.
-/

namespace Rfsck
namespace Redo

open Storage

/-- Every write to a device carries the data of one of the requests to its place. -/
def WritesOnly (reqs : List WriteReq) (tr : List (Event Fd)) : Prop :=
  ∀ fd off buf, Event.pwrite (.dev fd) off buf ∈ tr →
    ∃ req ∈ reqs, off = req.offset.toNat ∧ buf = req.buf

section Quiet

variable {crc : Bytes → UInt32}

theorem rfsckReplay_of_found_nil
    {s : State} (hout : s.world.outcomes = []) (hfin : s.world.header.Finished crc)
    (hfound : (logWalk crc s).found = []) :
    (rfsckReplay crc true s).2.world = s.world.push (.fsync (.dev s.data.devFd)) := by
  have hplan : (planLog crc s).2 = [] := by
    rw [(planLog_follows_logWalk crc s).acts_eq, hfound]
    rfl
  rw [rfsckReplay_of_whole crc hout hfin (by rw [hplan]; exact fun a ha => by simp at ha), hplan]
  rfl

theorem trace_rfsckReplay_of_found_nil
    {s : State} (hout : s.world.outcomes = []) (htrace : s.world.trace = [])
    (hfound : s.world.header.Finished crc → (logWalk crc s).found = []) :
    (∀ e ∈ (rfsckReplay crc true s).2.world.trace, ∃ fd, e = Event.fsync fd) ∧
      (rfsckReplay crc true s).2.world.outcomes = [] := by
  by_cases hfin : s.world.header.Finished crc
  · rw [rfsckReplay_of_found_nil hout hfin (hfound hfin), World.push_trace, htrace]
    refine ⟨?_, hout⟩
    intro e he
    exact ⟨_, List.mem_singleton.mp he⟩
  · obtain ⟨m, hm⟩ := rfsckReplay_of_not_finished crc hout hfin true
    rw [hm, State.print, htrace]
    exact ⟨fun e he => by simp at he, hout⟩

theorem rfsckOpen_writesOnly
    {p : Process} (hout : p.world.outcomes = []) (htrace : p.world.trace = [])
    (hfound : ∀ s : State, s.world = p.world → s.world.header.Finished crc →
      (logWalk crc s).found = [])
    (reqs : List WriteReq) (redo : Option String) (devFd : Nat) (raw : RedoPrivateData) :
    WritesOnly reqs (rfsckOpen crc redo devFd raw p).2.world.trace := by
  cases redo with
  | none =>
      rw [rfsckOpen, if_pos rfl, htrace]
      intro fd off buf hmem
      simp at hmem
  | some redo =>
      by_cases hdev : devFd < 1
      · rw [rfsckOpen, if_neg (by simp), if_pos hdev, htrace]
        intro fd off buf hmem
        simp at hmem
      · have hopen := World.openRedo_of_outcomes_nil hout
        have hworld : (openState crc devFd raw p p.world).world = p.world := rfl
        rw [rfsckOpen_world crc redo (by omega) raw hopen hopen]
        generalize openState crc devFd raw p p.world = s at *
        have hreplay := trace_rfsckReplay_of_found_nil (s := s) (by rw [hworld, hout])
          (by rw [hworld, htrace]) (hfound s hworld)
        rw [firstOpen_eq crc hreplay.2]
        intro fd off buf hmem
        rw [World.push_trace] at hmem
        rcases List.mem_append.mp hmem with hmem | hmem
        · obtain ⟨fd', he⟩ := hreplay.1 _ hmem
          simp at he
        · simp at hmem

end Quiet

section Unedged

variable {crc : Bytes → UInt32}
variable {es : List Entry} {M : List Nat} {n : Nat} {s : State}

/-- The event writes no begin or end tag to the first key block, and no FINISHED
header. -/
inductive Event.Unedged : Event Fd → Prop
  | above {off : Nat} {buf : Bytes} (h : redoHeaderSize + redoLogBlockSize ≤ off) :
      Event.Unedged (.pwrite .redo off buf)
  | keyb {kb : RedoBlock} (h : ∀ c, c < keysPerBlock → ¬ (kb.tag c).IsEdge) :
      Event.Unedged (.pwrite .redo redoHeaderSize kb.encode)
  | header {hdr : RedoHeader} (h : hdr.state ≠ e2redoStateFinished) :
      Event.Unedged (.pwrite .redo 0 hdr.encode)
  | sync {fd : Fd} : Event.Unedged (.fsync fd)

theorem unedged_keyb
    (es : List Entry) {es' : List Entry} (h : ∀ e ∈ es', ¬ e.tag.IsEdge) (k : Nat) :
    Event.Unedged (.pwrite .redo (keybPos es k) (keybOf crc es' k).encode) := by
  cases k with
  | zero =>
      rw [keybPos_zero]
      refine .keyb ?_
      intro c hc
      rw [keybOf_tag _ _ _ hc]
      exact not_isEdge_tagOf h _
  | succ k =>
      refine .above ?_
      rw [keybPos, redoLogBlockSize]
      omega

theorem Session.logTag_unedged
    {e : Entry} (h : Session crc es M n e.data s) (hes : ∀ e' ∈ es ++ [e], ¬ e'.tag.IsEdge) :
    (s.logTag crc e.tag).world.trace = s.world.trace ++
        [.pwrite .redo (keybPos es (es.length / keysPerBlock))
          (keybOf crc (es ++ [e]) (es.length / keysPerBlock)).encode] ∧
      Event.Unedged (.pwrite .redo (keybPos es (es.length / keysPerBlock))
        (keybOf crc (es ++ [e]) (es.length / keysPerBlock)).encode) := by
  exact ⟨h.logTag_trace, unedged_keyb es hes _⟩

theorem not_isEdge_append
    {es es' : List Entry} (h : ∀ e ∈ es, ¬ e.tag.IsEdge) (h' : ∀ e ∈ es', ¬ e.tag.IsEdge) :
    ∀ e ∈ es ++ es', ¬ e.tag.IsEdge := by
  intro e he
  rcases List.mem_append.mp he with he | he
  · exact h e he
  · exact h' e he

theorem Session.txnBegin_unedged
    (h : Session crc es M n [] s) (hid : s.data.txnId = 0) (hes : ∀ e ∈ es, ¬ e.tag.IsEdge) :
    ∃ evs, (rfsckTxnBegin crc 0 s).2.world.trace = s.world.trace ++ evs ∧
      ∀ e ∈ evs, Event.Unedged e := by
  have hstep : Session crc es M n (Entry.edge 0 s.data.txnId).data
      { s with data.txnCsum := txnChksmCnst ^^^ crc s.data.beginTag.encode } :=
    h.congr rfl rfl
  obtain ⟨htrace, hevent⟩ := hstep.logTag_unedged (not_isEdge_append hes (fun e he => by
    rw [List.mem_singleton.mp he, hid]
    exact not_isEdge_edge_zero 0))
  rw [rfsckTxnBegin_eq crc h.outcomes_nil]
  exact ⟨_, htrace, fun e he => by rw [List.mem_singleton.mp he]; exact hevent⟩

theorem not_isEdge_entry (crc : Bytes → UInt32) {req : WriteReq} (h : req.buf ≠ []) :
    ¬ (req.entry crc).tag.IsEdge := by
  intro hedge
  have hsize := (req.entry crc).size_eq
  rw [hedge.1, UInt32.toNat_zero] at hsize
  exact h (List.length_eq_zero_iff.mp hsize.symm)

theorem Session.write_unedged
    (h : Session crc es M n [] s) (hes : ∀ e ∈ es, ¬ e.tag.IsEdge)
    {req : WriteReq} (hne : req.buf ≠ []) (hreq : req.Whole) :
    ∃ evs, (rfsckWrite crc req s).2.world.trace = s.world.trace ++ evs ∧
      ∀ e ∈ evs, Event.Unedged e := by
  have hstep : Session crc es M n []
      { s with data.txnCsum := s.data.txnCsum ^^^ crc (req.tag crc).encode } :=
    h.congr rfl rfl
  have hdata : Session crc es M n (req.entry crc).data
      (State.putData req.buf
        { s with data.txnCsum := s.data.txnCsum ^^^ crc (req.tag crc).encode }) :=
    hstep.putData req.buf
  obtain ⟨htrace, hevent⟩ := hdata.logTag_unedged (not_isEdge_append hes (fun e he => by
    rw [List.mem_singleton.mp he]
    exact not_isEdge_entry crc hne))
  have hlog : redoHeaderSize + redoLogBlockSize ≤ s.data.logOffset := by
    rw [h.writer.logOffset_eq, dataPos]
    simp only [redoLogBlockSize, keysPerBlock_eq]
    omega
  rw [State.putData, World.push_trace, List.append_assoc] at htrace
  rw [rfsckWrite_eq crc h.outcomes_nil hreq]
  refine ⟨_, htrace, ?_⟩
  intro e he
  rcases List.mem_append.mp he with he | he
  · rw [List.mem_singleton.mp he]
    exact .above hlog
  · rw [List.mem_singleton.mp he]
    exact hevent

theorem Session.txnEnd_unedged
    (h : Session crc es M n [] s) (hid : s.data.txnId = 0) (hes : ∀ e ∈ es, ¬ e.tag.IsEdge) :
    ∃ evs, (rfsckTxnEnd crc s).2.world.trace = s.world.trace ++ evs ∧
      ∀ e ∈ evs, Event.Unedged e := by
  have hes' : ∀ e ∈ es ++ [Entry.edge (s.data.endCsum crc).toUInt64 s.data.txnId],
      ¬ e.tag.IsEdge := by
    refine not_isEdge_append hes ?_
    intro e he
    rw [List.mem_singleton.mp he, hid]
    exact not_isEdge_edge_zero _
  refine ⟨_, h.txnEnd_events, ?_⟩
  intro e he
  simp only [List.mem_cons, List.not_mem_nil, or_false] at he
  rcases he with rfl | rfl | rfl
  · exact unedged_keyb es hes' _
  · rw [keybEvent, RedoBlock.remark_nil]
    exact unedged_keyb _ hes' _
  · exact .sync

theorem Session.writes_unedged
    (h : Session crc es M n [] s) (hes : ∀ e ∈ es, ¬ e.tag.IsEdge)
    {ws : Txn} (hws : ws.Proper) :
    ∃ evs, (runCalls crc (ws.map Call.write) s).world.trace = s.world.trace ++ evs ∧
      ∀ e ∈ evs, Event.Unedged e := by
  induction ws generalizing es M n s with
  | nil =>
      exact ⟨[], (List.append_nil _).symm, fun e he => by simp at he⟩
  | cons req ws ih =>
      obtain ⟨hne, hwhole⟩ := hws req (by simp)
      obtain ⟨evs, htrace, hevs⟩ := h.write_unedged hes hne hwhole
      have hes' : ∀ e ∈ es ++ [req.entry crc], ¬ e.tag.IsEdge := by
        refine not_isEdge_append hes ?_
        intro e he
        rw [List.mem_singleton.mp he]
        exact not_isEdge_entry crc hne
      obtain ⟨evs', htrace', hevs'⟩ := ih (h.write hwhole) hes'
        (fun r hr => hws r (List.mem_cons_of_mem req hr))
      refine ⟨evs ++ evs', ?_, ?_⟩
      · rw [List.map_cons, runCalls_cons]
        refine htrace'.trans ?_
        rw [htrace, List.append_assoc]
      · intro e he
        rcases List.mem_append.mp he with he | he
        · exact hevs e he
        · exact hevs' e he

/-- **The events of a transaction with the id zero.** -/
theorem Session.txn_unedged
    (h : Session crc [] M n [] s) (hid : s.data.txnId = 0) {ws : Txn} (hws : ws.Proper) :
    ∃ evs, (runCalls crc (txnCalls ws) s).world.trace = s.world.trace ++ evs ∧
      ∀ e ∈ evs, Event.Unedged e := by
  have hnil : ∀ e ∈ ([] : List Entry), ¬ e.tag.IsEdge := by
    intro e he
    simp at he
  have hbegin := h.txnBegin
  have hid' := (rfsckTxnBegin_txnId crc h.outcomes_nil).trans hid
  obtain ⟨evs, htrace, hevs⟩ := h.txnBegin_unedged hid hnil
  have hes : ∀ e ∈ [] ++ [Entry.edge 0 s.data.txnId], ¬ e.tag.IsEdge := by
    refine not_isEdge_append hnil ?_
    intro e he
    rw [List.mem_singleton.mp he, hid]
    exact not_isEdge_edge_zero 0
  obtain ⟨cs, M', n', hs, hedge, _, hid''⟩ := hbegin.unseenWrites hws
  obtain ⟨evs', htrace', hevs'⟩ := hbegin.writes_unedged hes hws
  obtain ⟨evs'', htrace'', hevs''⟩ := hs.txnEnd_unedged (hid''.trans hid')
    (not_isEdge_append hes hedge)
  have hcalls : runCalls crc (txnCalls ws) s =
      (rfsckTxnEnd crc (runCalls crc (ws.map Call.write) (rfsckTxnBegin crc 0 s).2)).2 := by
    rw [txnCalls, runCalls_cons, runCalls_append]
    rfl
  refine ⟨evs ++ evs' ++ evs'', ?_, ?_⟩
  · rw [hcalls, htrace'', htrace', htrace]
    simp only [List.append_assoc]
  · intro e he
    simp only [List.mem_append] at he
    rcases he with (he | he) | he
    · exact hevs e he
    · exact hevs' e he
    · exact hevs'' e he

end Unedged

section Reused

variable {crc : Bytes → UInt32}
variable {H : MarkedHistory} {hdr : RedoHeader}

/-- The key block `k` of the log of a history. -/
def historyKeyb (crc : Bytes → UInt32) (H : MarkedHistory) (k : Nat) : RedoBlock :=
  (keybOf crc (historyEntries crc 1 H.txns) k).remark k (MarkedHistory.marksAt 0 H)

/-- All key blocks of the log of a history are in place. -/
def KeybKept (crc : Bytes → UInt32) (H : MarkedHistory) (hdr : RedoHeader) (g : ByteFile) :
    Prop :=
  ∀ k, k < hdr.numKeys.toNat + 1 →
    g.Holds (keybPos (historyEntries crc 1 H.txns) k) (historyKeyb crc H k).encode

/-- What the medium holds while a log is reused. -/
structure Reused
    (crc : Bytes → UInt32) (H : MarkedHistory) (hdr : RedoHeader) (g : ByteFile) : Prop where
  header : g.Holds 0 hdr.encode ∨
    ∃ hdr' : RedoHeader, g.Holds 0 hdr'.encode ∧ hdr'.state ≠ e2redoStateFinished
  keyb : g.Holds redoHeaderSize (historyKeyb crc H 0).encode ∨
    ∃ kb : RedoBlock, g.Holds redoHeaderSize kb.encode ∧
      ∀ c, c < keysPerBlock → ¬ (kb.tag c).IsEdge

theorem Event.Unedged.keeps
    {e : Event Fd} (he : Event.Unedged e) {g : ByteFile} (h : Reused crc H hdr g) :
    Reused crc H hdr (applyEvent .redo g e) := by
  have hheader : ∀ hdr' : RedoHeader, hdr'.encode.length = redoHeaderSize :=
    RedoHeader.length_encode
  have hkeyb : ∀ kb : RedoBlock, kb.encode.length = redoLogBlockSize :=
    RedoBlock.length_encode
  cases he with
  | @above off buf hoff =>
      rw [applyEvent_pwrite_self]
      have hkeeps : ∀ {p : Nat} {b : Bytes}, p + b.length ≤ off → g.Holds p b →
          (g.pwrite off buf).Holds p b :=
        fun hp hb => hb.pwrite_of_disjoint (Or.inl hp)
      refine ⟨?_, ?_⟩
      · rcases h.header with hh | ⟨hdr', hh, hstate⟩
        · exact Or.inl (hkeeps (by rw [hheader]; omega) hh)
        · exact Or.inr ⟨hdr', hkeeps (by rw [hheader]; omega) hh, hstate⟩
      · rcases h.keyb with hk | ⟨kb, hk, hedge⟩
        · exact Or.inl (hkeeps (by rw [hkeyb]; omega) hk)
        · exact Or.inr ⟨kb, hkeeps (by rw [hkeyb]; omega) hk, hedge⟩
  | @keyb kb hedge =>
      rw [applyEvent_pwrite_self]
      refine ⟨?_, Or.inr ⟨kb, ByteFile.holds_pwrite_self _ _ _, hedge⟩⟩
      rcases h.header with hh | ⟨hdr', hh, hstate⟩
      · exact Or.inl (hh.pwrite_of_disjoint (Or.inl (by rw [hheader]; omega)))
      · exact Or.inr ⟨hdr', hh.pwrite_of_disjoint (Or.inl (by rw [hheader]; omega)), hstate⟩
  | @header hdr' hstate =>
      rw [applyEvent_pwrite_self]
      refine ⟨Or.inr ⟨hdr', ByteFile.holds_pwrite_self _ _ _, hstate⟩, ?_⟩
      rcases h.keyb with hk | ⟨kb, hk, hedge⟩
      · exact Or.inl (hk.pwrite_of_disjoint (Or.inr (by rw [hheader]; omega)))
      · exact Or.inr ⟨kb, hk.pwrite_of_disjoint (Or.inr (by rw [hheader]; omega)), hedge⟩
  | sync =>
      rw [applyEvent_fsync]
      exact h

theorem SealedLog.reused {f : ByteFile} (h : SealedLog crc H hdr f) : Reused crc H hdr f := by
  have hkeyb := h.log.stored.keyb_holds 0 (Nat.succ_pos _)
  rw [keybPos_zero] at hkeyb
  exact ⟨Or.inl h.log.header_holds, Or.inl hkeyb⟩

/-- **Old key blocks, all marked**: nothing is found. -/
theorem SealedLog.found_of_kept
    {f : ByteFile} (h : SealedLog crc (markAll H) hdr f)
    {s : State} (hholds : (s.world.file .redo).Holds 0 hdr.encode)
    (hkept : KeybKept crc (markAll H) hdr (s.world.file .redo)) :
    (logWalk crc s).found = [] := by
  have hchain : KeyChain (s.world.file .redo)
      (keybPos (historyEntries crc 1 (markAll H).txns)) (historyKeyb crc (markAll H))
      (hdr.numKeys.toNat + 1) :=
    ⟨hkept, fun k hk => h.log.stored.keyChain.next k hk⟩
  have hwalk := (reads_of_keyChain hholds h.log.keyOffset_eq hchain).logWalk_eq.2
  rw [streamOf_remark, World.header_of_holds hholds] at hwalk
  rw [hwalk]
  exact (h.found_eq s.out).trans
    (found_markAll crc 0 1 (redoHeaderSize + redoLogBlockSize) H).1

/-- **A first key block without begin and end tags**: nothing is found when the header
counts no other. -/
theorem found_of_unedged
    {s : State} (hholds : (s.world.file .redo).Holds 0 hdr.encode)
    (hoffset : hdr.keyOffset.toNat = redoHeaderSize) (hkeys : hdr.numKeys = 0)
    {kb : RedoBlock} (hkb : (s.world.file .redo).Holds redoHeaderSize kb.encode)
    (hedge : ∀ c, c < keysPerBlock → ¬ (kb.tag c).IsEdge) :
    (logWalk crc s).found = [] := by
  have hheader := World.header_of_holds hholds
  have hvisited : s.world.header.visited = 1 := by
    rw [hheader, RedoHeader.visited, hkeys]
    rfl
  have hchain : KeyChain (s.world.file .redo) (fun _ => redoHeaderSize) (fun _ => kb) 1 :=
    ⟨fun k _ => hkb, fun k hk => absurd hk (by omega)⟩
  have hreads : (startReplay s.world.header 0 s).toScan.Reads crc (s.world.file .redo)
      (fun _ => redoHeaderSize) (fun _ => kb) 1 := by
    refine hchain.reads crc 1 ?_ (by rfl)
    rw [hheader]
    exact hoffset
  rw [← hvisited] at hreads
  rw [hreads.logWalk_eq.2, Walk.found_run_of_not_isEdge]
  · rfl
  · intro g _ hg
    rw [hvisited] at hg
    rw [streamOf]
    exact hedge _ (Nat.mod_lt _ (by decide))

theorem SealedLog.keybKept {f : ByteFile} (h : SealedLog crc H hdr f) :
    KeybKept crc H hdr f := by
  exact h.log.stored.keyb_holds

/-- **A completed run** leaves a log in which every transaction is marked. -/
theorem SealedLog.completed
    {s : State} (h : SealedLog crc H hdr (s.world.file .redo)) (hout : s.world.outcomes = []) :
    SealedLog crc (markAll H) hdr ((rfsckReplay crc true s).2.world.file .redo) ∧
      (rfsckReplay crc true s).2.world.outcomes = [] := by
  have hstopped := h.stopped (List.append_nil H)
  rw [List.append_nil, ← h.planLog_eq, ← perform_redo s.data.devFd] at hstopped
  rw [h.log.replay_eq hout true]
  dsimp only
  rw [if_pos rfl, World.file_push, applyEvent_fsync]
  exact ⟨hstopped, (perform_outcomes _ _ _).trans hout⟩

theorem SealedLog.replay_of_marked
    {s : State} (h : SealedLog crc (markAll H) hdr (s.world.file .redo))
    (hout : s.world.outcomes = []) :
    (rfsckReplay crc true s).2.world = s.world.push (.fsync (.dev s.data.devFd)) := by
  refine rfsckReplay_of_found_nil hout ?_ (h.found_of_kept h.log.header_holds h.keybKept)
  rw [h.log.header_eq]
  exact h.log.finished

/-- What `rfsck_open` does with the log of a completed run. -/
theorem SealedLog.reopened
    {v : World} (hv : v.outcomes = []) (h : SealedLog crc (markAll H) hdr (v.file .redo))
    {redo : String} {devFd : Nat} {raw : RedoPrivateData} {out : List Message} {s : State}
    (hopen : rfsckOpen crc (some redo) devFd raw { redoData := none, world := v, out := out } =
      (0, s.process)) :
    Session crc [] [] 0 [] s ∧ s.data.txnId = 0 ∧
      s.data.hdr.state ≠ e2redoStateFinished ∧
      s.world.trace = v.trace ++ [.fsync (.dev devFd), .pwrite .redo 0 s.data.hdr.encode] := by
  have hdev : 1 ≤ devFd := by
    by_contra hlt
    rw [rfsckOpen, if_neg (by simp), if_pos (by omega)] at hopen
    simp at hopen
  have hsealed : SealedLog crc (markAll H) hdr
      ((setupState crc devFd raw v out).world.file .redo) := h
  have hidle := (rfsckReplay_stays crc true (setupState crc devFd raw v out)).1
  have hid := hsealed.replay_txnId hv true
  have hworld := hsealed.replay_of_marked hv
  have hout : (rfsckReplay crc true (setupState crc devFd raw v out)).2.world.outcomes = [] := by
    rw [hworld]
    exact hv
  have hstate : (rfsckReplay crc true (setupState crc devFd raw v out)).2.data.hdr.state ≠
      e2redoStateFinished := by
    rw [RedoPrivateData.hdr_of_idle hidle]
    exact zero_ne_finished
  have hsession := session_of_open crc hidle hout
  rw [rfsckOpen_eq crc hv redo hdev, firstOpen_eq crc hout] at hopen
  simp only [ne_eq, not_true_eq_false, if_false, Prod.mk.injEq, true_and] at hopen
  have hs := State.process_injective hopen
  subst hs
  refine ⟨hsession, hid, hstate, ?_⟩
  rw [World.push_trace, hworld, World.push_trace, List.append_assoc]
  rfl

end Reused

section Stale

variable (crc : Bytes → UInt32)

/-- The key block of some log that writes one byte to the place 1000. -/
def staleKeyb : RedoBlock :=
  keybOf crc (historyEntries crc 1 [[byteWrite 1000 9]]) 0

/-- A write whose data are that key block. -/
def keybWrite : WriteReq where
  offset := 0
  buf := (staleKeyb crc).encode
  size_lt := by
    rw [RedoBlock.length_encode]
    decide

/-- A transaction that begins with that write and needs two key blocks. -/
def longTxn : Txn :=
  keybWrite crc :: List.replicate 253 (byteWrite 0 7)

theorem longTxn_proper : Txn.Proper (longTxn crc) := by
  intro req hreq
  rcases List.mem_cons.mp hreq with rfl | hreq
  · have hlen : (keybWrite crc).buf.length = redoLogBlockSize := RedoBlock.length_encode _
    refine ⟨?_, ?_⟩
    · intro hnil
      rw [hnil] at hlen
      exact absurd hlen (by decide)
    · rw [WriteReq.Whole, hlen]
      decide
  · rw [List.eq_of_mem_replicate hreq]
    exact ⟨by simp [byteWrite], by simp [WriteReq.Whole, byteWrite, maxRwCount]⟩

theorem tagCount_longTxn : tagCount [longTxn crc] = 256 := by
  rw [tagCount_cons, longTxn, List.length_cons, List.length_replicate]
  rfl

variable {crc}

theorem keyChain_of_data
    {hdr : RedoHeader} {f : ByteFile} {H : MarkedHistory} (hH : H.txns = [longTxn crc])
    (h : SealedLog crc H hdr f) :
    KeyChain (f.pwrite redoHeaderSize (keybOf crc [Entry.edge 0 0] 0).encode)
      (keybPos [Entry.edge 0 0])
      (fun k => if k = 0 then keybOf crc [Entry.edge 0 0] 0 else staleKeyb crc) 2 := by
  have hplace : keybPos [Entry.edge 0 0] 1 = redoHeaderSize + redoLogBlockSize := by
    rfl
  constructor
  · intro k hk
    by_cases hzero : k = 0
    · rw [if_pos hzero, hzero, keybPos_zero]
      exact ByteFile.holds_pwrite_self _ _ _
    · obtain rfl : k = 1 := by omega
      have hdata := h.log.stored.data_holds 1 ((keybWrite crc).entry crc) (by
        rw [hH]
        rfl)
      have hpos : dataPos (historyEntries crc 1 H.txns) 1 = redoHeaderSize + redoLogBlockSize := by
        rw [hH]
        rfl
      rw [if_neg hzero, hplace]
      rw [hpos] at hdata
      refine hdata.pwrite_of_disjoint (Or.inr ?_)
      rw [RedoBlock.length_encode]
  · intro k hk
    obtain rfl : k = 0 := by omega
    rw [if_pos rfl, keybOf_tags]
    exact keybPos_succ _ _

theorem tagOf_edge_zero (g : Nat) : tagOf [Entry.edge 0 0] g = RedoBlockTag.empty := by
  cases g with
  | zero =>
      rfl
  | succ g =>
      exact tagOf_of_le _ (by simp)

/-- **Data taken for a key block**: the walk finds the transaction of the other log. -/
theorem found_of_data
    {hdr : RedoHeader} {f : ByteFile} {H : MarkedHistory} (hH : H.txns = [longTxn crc])
    (h : SealedLog crc H hdr f) {s : State}
    (hfile : s.world.file .redo =
      f.pwrite redoHeaderSize (keybOf crc [Entry.edge 0 0] 0).encode) :
    s.world.header = hdr ∧
      (logWalk crc s).found =
        [txnFound crc 255 1 [byteWrite 1000 9] (redoHeaderSize + redoLogBlockSize)] := by
  have hholds : (s.world.file .redo).Holds 0 hdr.encode := by
    rw [hfile]
    refine h.log.header_holds.pwrite_of_disjoint (Or.inl ?_)
    rw [RedoHeader.length_encode, Nat.zero_add]
  have hheader := World.header_of_holds hholds
  have hvisited : s.world.header.visited = 2 := by
    rw [hheader, h.visited_eq, hH, tagCount_longTxn]
    rfl
  have hchain := keyChain_of_data hH h
  rw [← hfile] at hchain
  have hreads : (startReplay s.world.header 0 s).toScan.Reads crc (s.world.file .redo)
      (keybPos [Entry.edge 0 0])
      (fun k => if k = 0 then keybOf crc [Entry.edge 0 0] 0 else staleKeyb crc) 2 := by
    refine hchain.reads crc 2 ?_ (by rfl)
    rw [hheader]
    exact h.log.keyOffset_eq
  rw [← hvisited] at hreads
  refine ⟨hheader, ?_⟩
  rw [hreads.logWalk_eq.2, hvisited]
  generalize hT : streamOf (fun k => if k = 0 then keybOf crc [Entry.edge 0 0] 0
    else staleKeyb crc) = T
  have hnew : ∀ c, c < 255 → T c = RedoBlockTag.empty := by
    intro c hc
    have hslot := streamOf_slot (fun k => if k = 0 then keybOf crc [Entry.edge 0 0] 0
      else staleKeyb crc) 0 hc
    rw [Nat.mul_zero, Nat.zero_add, hT, if_pos rfl, keybOf_tag _ _ _ hc] at hslot
    rw [hslot, tagOf_edge_zero]
  have hstale : ∀ c, c < 255 →
      T (255 + c) = tagOf (historyEntries crc 1 [[byteWrite 1000 9]]) c := by
    intro c hc
    have hslot := streamOf_slot (fun k => if k = 0 then keybOf crc [Entry.edge 0 0] 0
      else staleKeyb crc) 1 hc
    rw [Nat.mul_one, hT, if_neg one_ne_zero, staleKeyb, keybOf_tag _ _ _ hc, Nat.mul_zero,
      Nat.zero_add] at hslot
    exact hslot
  have hfirst : slice T 0 255 = List.replicate 255 RedoBlockTag.empty := by
    refine List.eq_replicate_iff.mpr ⟨length_slice T 0 255, ?_⟩
    intro t ht
    rw [slice, List.mem_map] at ht
    obtain ⟨g, hg, rfl⟩ := ht
    exact hnew g (by simpa using List.mem_range'_1.mp hg)
  have hsecond : slice T 255 3 = txnTags crc false 1 [byteWrite 1000 9] := by
    rw [slice_succ, slice_succ, slice_succ, slice_zero, show T 255 = _ from hstale 0 (by decide),
      show T (255 + 1) = _ from hstale 1 (by decide),
      show T (255 + 1 + 1) = _ from hstale 2 (by decide)]
    rfl
  have hrest : ∀ g, 258 ≤ g → g < 258 + 252 → ¬ (T g).IsEdge := by
    intro g hle hlt
    obtain ⟨c, rfl⟩ : ∃ c, g = 255 + c := ⟨g - 255, by omega⟩
    have hlen : (historyEntries crc 1 [[byteWrite 1000 9]]).length ≤ c := by
      rw [show (historyEntries crc 1 [[byteWrite 1000 9]]).length = 3 from rfl]
      omega
    rw [hstale c (by omega), tagOf_of_le _ hlen]
    decide
  rw [show keysPerBlock * 2 = 255 + (3 + 252) by rfl, Walk.run_add, run_unused crc _ 255 hfirst,
    Walk.run_add, Walk.found_run_of_not_isEdge hrest]
  have hid : (1 : UInt32) ≠ 0 := by
    decide
  have hproper : Txn.Proper [byteWrite 1000 9] := proper_of_byteWrites (by decide)
  exact congrArg Walk.found (run_txn crc _ hid hproper hsecond rfl)

/-- The replay writes a byte that the completed run has not logged. -/
theorem not_writesOnly_of_data
    {hdr : RedoHeader} {f : ByteFile} {H : MarkedHistory} (hH : H.txns = [longTxn crc])
    (h : SealedLog crc H hdr f) {w : World} (hout : w.outcomes = [])
    (hfile : w.file .redo = f.pwrite redoHeaderSize (keybOf crc [Entry.edge 0 0] 0).encode)
    (redo : String) {devFd : Nat} (hdev : 1 ≤ devFd) (raw : RedoPrivateData)
    (out : List Message) :
    ¬ WritesOnly [longTxn crc].flatten
      (rfsckOpen crc (some redo) devFd raw
        { redoData := none, world := w, out := out }).2.world.trace := by
  have hopen := World.openRedo_of_outcomes_nil hout
  have hworld : (openState crc devFd raw { redoData := none, world := w, out := out } w).world =
      w := rfl
  rw [rfsckOpen_world crc redo hdev raw hopen hopen]
  generalize openState crc devFd raw { redoData := none, world := w, out := out } w = s at *
  obtain ⟨hheader, hfound⟩ := found_of_data hH h (s := s) (by rw [hworld, hfile])
  have hfin : s.world.header.Finished crc := by
    rw [hheader]
    exact h.log.finished
  have hwhole : ∀ a ∈ (planLog crc s).2, a.Whole := by
    refine whole_of_found ?_
    rw [hfound]
    intro t ht tag htag
    rw [List.mem_singleton.mp ht] at htag
    rw [List.mem_singleton.mp htag]
    exact (by decide : (UInt32.ofNat 1).toNat ≤ maxRwCount)
  have hout' : s.world.outcomes = [] := by
    rw [hworld, hout]
  have hreplay := rfsckReplay_of_whole crc hout' hfin hwhole true
  obtain ⟨pos, as, hplan⟩ : ∃ pos as, (planLog crc s).2 =
      .copy ((byteWrite 1000 9).tag crc) pos :: as := by
    have htags : (txnFound crc 255 1 [byteWrite 1000 9]
        (redoHeaderSize + redoLogBlockSize)).tags = [(byteWrite 1000 9).tag crc] := by
      rfl
    rw [(planLog_follows_logWalk crc s).acts_eq, hfound, actionsOf, Found.actions, Found.copies,
      htags, copyTags_cons]
    exact ⟨_, _, rfl⟩
  obtain ⟨evs, htrace⟩ : ∃ evs, (rfsckReplay crc true s).2.world.trace =
      s.world.trace ++ .pwrite (.dev s.data.devFd) 1000
        ((copyData s.world ((byteWrite 1000 9).tag crc) pos).take maxRwCount) :: evs := by
    obtain ⟨tr, htr⟩ := trace_perform s.data.devFd as
      (s.world.push (Action.event s.data.devFd s.world (.copy ((byteWrite 1000 9).tag crc) pos)))
    refine ⟨tr ++ [.fsync (.dev s.data.devFd)], ?_⟩
    rw [hreplay, hplan]
    dsimp only
    rw [if_pos rfl, World.push_trace, perform_cons, htr, World.push_trace, List.append_assoc,
      List.append_assoc]
    rfl
  have hnil : (rfsckReplay crc true s).2.world.outcomes = [] := by
    rw [hreplay]
    exact (perform_outcomes _ _ _).trans hout'
  rw [firstOpen_eq crc hnil]
  intro hwrites
  obtain ⟨req, hreq, hoff, _⟩ := hwrites s.data.devFd 1000 _ (by
    rw [World.push_trace, htrace]
    exact List.mem_append_left _ (List.mem_append_right _ (List.mem_cons_self)))
  rw [List.flatten_singleton, longTxn] at hreq
  rcases List.mem_cons.mp hreq with rfl | hreq
  · exact absurd hoff (by decide : 1000 ≠ (0 : UInt64).toNat)
  · rw [List.eq_of_mem_replicate hreq] at hoff
    exact absurd hoff (by decide)

variable (crc)

/-- A process that finds the content `g` of the log, and empty devices. -/
def mediumWorld (g : ByteFile) : World :=
  { blankWorld with init := Function.update blankWorld.init .redo g }

/-- The world that a completed run of the long transaction leaves. -/
def completedWorld : World :=
  (rfsckReplay crc true (sealHistory crc [longTxn crc] (blankState crc))).2.world

theorem completedWorld_sealed :
    ∃ hdr, SealedLog crc (markAll (MarkedHistory.unmarked [longTxn crc])) hdr
        ((completedWorld crc).file .redo) ∧ (completedWorld crc).outcomes = [] := by
  have hproper : ∀ ws ∈ [longTxn crc], Txn.Proper ws := by
    intro ws hws
    rw [List.mem_singleton.mp hws]
    exact longTxn_proper crc
  obtain ⟨hsealed, hout, _⟩ := (blankState_freshlyOpened crc).sealedLog hproper
    (by simp) (by rw [tagCount_longTxn]; decide)
  exact ⟨_, hsealed.completed hout⟩

/-- The state in which the log of that run has been opened again. -/
def reopenedState : State :=
  (firstOpen crc (setupState crc 1 blankData (completedWorld crc) [])).2

variable {crc}

theorem mediumWorld_redo (g : ByteFile) : (mediumWorld g).file .redo = g := by
  exact Function.update_self Fd.redo g blankWorld.init

theorem SealedLog.rfsckOpen_eq
    {H : MarkedHistory} {hdr : RedoHeader} {v : World}
    (h : SealedLog crc (markAll H) hdr (v.file .redo)) (hv : v.outcomes = [])
    (redo : String) {devFd : Nat} (hdev : 1 ≤ devFd) (raw : RedoPrivateData)
    (out : List Message) :
    rfsckOpen crc (some redo) devFd raw { redoData := none, world := v, out := out } =
      (0, (firstOpen crc (setupState crc devFd raw v out)).2.process) := by
  have hsealed : SealedLog crc (markAll H) hdr
      ((setupState crc devFd raw v out).world.file .redo) := h
  have hout : (rfsckReplay crc true (setupState crc devFd raw v out)).2.world.outcomes = [] := by
    rw [hsealed.replay_of_marked hv]
    exact hv
  rw [Redo.rfsckOpen_eq crc hv redo hdev, firstOpen_eq crc hout]
  rfl

theorem image_of_lost_header
    {H : MarkedHistory} {hdr : RedoHeader} {v : World} (hv : v.outcomes = [])
    (h : SealedLog crc (markAll H) hdr (v.file .redo))
    {redo : String} {devFd : Nat} {raw : RedoPrivateData} {out : List Message} {s : State}
    (hopen : rfsckOpen crc (some redo) devFd raw { redoData := none, world := v, out := out } =
      (0, s.process)) :
    CrashImage .redo (v.file .redo)
      (((runCalls crc (txnCalls []) s).world.trace.drop v.trace.length).take 3)
      ((v.file .redo).pwrite redoHeaderSize (keybOf crc [Entry.edge 0 0] 0).encode) := by
  obtain ⟨hs, hid, _, htrace⟩ := h.reopened hv hopen
  have hstep : Session crc [] [] 0 (Entry.edge 0 s.data.txnId).data
      { s with data.txnCsum := txnChksmCnst ^^^ crc s.data.beginTag.encode } :=
    hs.congr rfl rfl
  have hbegin : (rfsckTxnBegin crc 0 s).2.world.trace = s.world.trace ++
      [.pwrite .redo redoHeaderSize (keybOf crc [Entry.edge 0 0] 0).encode] := by
    obtain ⟨hlogged, _⟩ := hstep.logTag_unedged (by
      rw [hid]
      exact fun e he => by rw [List.mem_singleton.mp he]; exact not_isEdge_edge_zero 0)
    rw [rfsckTxnBegin_eq crc hs.outcomes_nil]
    refine hlogged.trans ?_
    rw [hid]
    rfl
  obtain ⟨evs, hend, _⟩ := hs.txnBegin.txnEnd_trace
  have hcalls : (runCalls crc (txnCalls []) s).world.trace =
      (rfsckTxnEnd crc (rfsckTxnBegin crc 0 s).2).2.world.trace := by
    rfl
  have htake : ((runCalls crc (txnCalls []) s).world.trace.drop v.trace.length).take 3 =
      [.fsync (.dev devFd)] ++ [.pwrite .redo 0 s.data.hdr.encode] ++
        [.pwrite .redo redoHeaderSize (keybOf crc [Entry.edge 0 0] 0).encode] := by
    rw [hcalls, hend, hbegin, htrace]
    simp
  rw [htake, crashImage_snoc_pwrite]
  refine Or.inr ⟨v.file .redo, ?_, rfl⟩
  rw [crashImage_snoc_pwrite]
  refine Or.inl ?_
  -- the flush of the device leaves the log alone
  rw [← List.nil_append [Event.fsync (Fd.dev devFd)],
    crashImage_snoc_other _ _ _ _ (by simp) (fun g => by simp)]
  exact (crashImage_nil _ _ _).mpr rfl

theorem SealedLog.replays_data
    {H : MarkedHistory} {hdr : RedoHeader} {v : World}
    (h : SealedLog crc (markAll H) hdr (v.file .redo)) (hv : v.outcomes = [])
    (hH : (markAll H).txns = [longTxn crc]) {s : State}
    (hs : s = (firstOpen crc (setupState crc 1 blankData v [])).2) :
    rfsckOpen crc (some "redo") 1 blankData { redoData := none, world := v, out := [] } =
        (0, s.process) ∧
      ∃ g, CrashImage .redo (v.file .redo)
          (((runCalls crc (txnCalls []) s).world.trace.drop v.trace.length).take 3) g ∧
        ¬ WritesOnly [longTxn crc].flatten
          (rfsckOpen crc (some "redo") 1 blankData
            { redoData := none, world := mediumWorld g, out := [] }).2.world.trace := by
  have hopen := h.rfsckOpen_eq hv "redo" (le_refl 1) blankData []
  rw [← hs] at hopen
  refine ⟨hopen, _, image_of_lost_header hv h hopen, ?_⟩
  exact not_writesOnly_of_data hH h rfl (mediumWorld_redo _) "redo" (le_refl 1) blankData []

end Stale

end Redo
end Rfsck
