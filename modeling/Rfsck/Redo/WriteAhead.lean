import Rfsck.Redo.KeptMarks

/-!
# The write-ahead gate

`redo_mark_done` flushes the log before and after it writes the header, and nothing is
logged between `redo_mark_done(1)` and `redo_mark_done(0)`.

* `diskHeader` is the header on a medium, where bytes that were never written read zero.
* `Gated`: a sequence of calls that logs only while the log is not marked done.
* `Gate` is the invariant over all failures: as long as the log is not marked done, no
  content of the medium has a FINISHED header, and as long as it is, every content holds
  all key blocks and data, up to marks.
* `write_ahead_gate`: whenever the power fails in such a session, a FINISHED header stands
  for a complete log.
* `end_tag_marked`: the marks need not stand in begin tags.
-/

namespace Rfsck
namespace Redo

open Storage

def diskHeader (g : ByteFile) : RedoHeader :=
  RedoHeader.decode ((List.range redoHeaderSize).map g.byte)

theorem diskHeader_pwrite_of_ge
    (g : ByteFile) {off : Nat} (h : redoHeaderSize ≤ off) (buf : Bytes) :
    diskHeader (g.pwrite off buf) = diskHeader g := by
  have hbytes : (List.range redoHeaderSize).map (g.pwrite off buf).byte =
      (List.range redoHeaderSize).map g.byte := by
    refine List.map_congr_left ?_
    intro i hi
    have hlt := List.mem_range.mp hi
    exact ByteFile.byte_pwrite_of_outside g (Or.inl (by omega))
  rw [diskHeader, hbytes, diskHeader]

theorem diskHeader_of_holds
    {g : ByteFile} {hdr : RedoHeader} (h : g.Holds 0 hdr.encode) : diskHeader g = hdr := by
  have hbytes : (List.range redoHeaderSize).map g.byte = hdr.encode := by
    refine List.ext_getElem? ?_
    intro i
    have hlen := RedoHeader.length_encode hdr
    by_cases hi : i < redoHeaderSize
    · rw [List.getElem?_map, List.getElem?_range hi, List.getElem?_eq_getElem (by omega)]
      have hbyte := (h i _ (List.getElem?_eq_getElem (by omega))).2
      rw [Nat.zero_add] at hbyte
      exact congrArg some hbyte
    · rw [List.getElem?_eq_none (by simp; omega), List.getElem?_eq_none (by omega)]
  rw [diskHeader, hbytes, RedoHeader.decode_encode]

theorem diskHeader_pwrite_header (g : ByteFile) (hdr : RedoHeader) :
    diskHeader (g.pwrite 0 hdr.encode) = hdr := by
  exact diskHeader_of_holds (ByteFile.holds_pwrite_self g 0 hdr.encode)

/-- The event leaves the header alone, or replaces it by one that is not FINISHED. -/
inductive Event.Quiet : Event Fd → Prop
  | above {off : Nat} {buf : Bytes} (h : redoHeaderSize ≤ off) :
      Event.Quiet (.pwrite .redo off buf)
  | header {hdr : RedoHeader} (h : hdr.state ≠ e2redoStateFinished) :
      Event.Quiet (.pwrite .redo 0 hdr.encode)
  | dev {fd off : Nat} {buf : Bytes} : Event.Quiet (.pwrite (.dev fd) off buf)
  | sync {fd : Fd} : Event.Quiet (.fsync fd)

section Gate

variable (crc : Bytes → UInt32)

/-- The medium holds the entries `es`, up to marks in tags of size zero, and a FINISHED
header counts no more key blocks than these fill. -/
structure Covered (es : List Entry) (g : ByteFile) : Prop where
  stored : ∃ M, (∀ m ∈ M, (tagOf es m).IsEdge) ∧
    Stored crc es M (es.length / keysPerBlock + 1) g
  numKeys_le : (diskHeader g).Finished crc →
    (diskHeader g).numKeys.toNat ≤ es.length / keysPerBlock

/-- The event writes a key block of `es`, up to marks, or a header for it. -/
inductive Event.Covers (es : List Entry) : Event Fd → Prop
  | keyb {k : Nat} {M : List Nat} (hk : k ≤ es.length / keysPerBlock)
      (hM : ∀ m ∈ M, (tagOf es m).IsEdge) :
      Event.Covers es (.pwrite .redo (keybPos es k) ((keybOf crc es k).remark k M).encode)
  | header {hdr : RedoHeader} (h : hdr.numKeys.toNat ≤ es.length / keysPerBlock) :
      Event.Covers es (.pwrite .redo 0 hdr.encode)
  | dev {fd off : Nat} {buf : Bytes} : Event.Covers es (.pwrite (.dev fd) off buf)
  | sync {fd : Fd} : Event.Covers es (.fsync fd)

variable {crc}

theorem Event.Quiet.keeps
    {e : Event Fd} (he : Event.Quiet e) {g : ByteFile}
    (hg : ¬ (diskHeader g).Finished crc) :
    ¬ (diskHeader (applyEvent .redo g e)).Finished crc := by
  cases he with
  | above h =>
      rw [applyEvent_pwrite_self, diskHeader_pwrite_of_ge g h]
      exact hg
  | header h =>
      rw [applyEvent_pwrite_self, diskHeader_pwrite_header]
      exact fun hf => h hf.2
  | dev =>
      rw [applyEvent_pwrite_other (by simp)]
      exact hg
  | sync =>
      rw [applyEvent_fsync]
      exact hg

theorem Event.Covers.keeps
    {es : List Entry} {e : Event Fd} (he : Event.Covers crc es e) {g : ByteFile}
    (hg : Covered crc es g) : Covered crc es (applyEvent .redo g e) := by
  cases he with
  | @keyb k M' hk hM =>
      obtain ⟨M, hedge, hstored⟩ := hg.stored
      rw [applyEvent_pwrite_self]
      refine ⟨⟨overrideMarks k M M', ?_, ?_⟩, ?_⟩
      · intro m hm
        rcases List.mem_append.mp hm with hm | hm
        · exact hedge m (List.mem_filter.mp hm).1
        · exact hM m (List.mem_filter.mp hm).1
      · have hput := hstored.pwrite_keyb (le_trans hk (Nat.le_succ _)) M'
        rwa [max_eq_left (by omega)] at hput
      · rw [diskHeader_pwrite_of_ge g (header_le_keybPos es k)]
        exact hg.numKeys_le
  | header h =>
      obtain ⟨M, hedge, hstored⟩ := hg.stored
      rw [applyEvent_pwrite_self]
      refine ⟨⟨M, hedge, hstored.pwrite_header (RedoHeader.length_encode _)⟩, ?_⟩
      rw [diskHeader_pwrite_header]
      exact fun _ => h
  | dev =>
      rw [applyEvent_pwrite_other (by simp)]
      exact hg
  | sync =>
      rw [applyEvent_fsync]
      exact hg

section Events

variable {es : List Entry} {M : List Nat} {n : Nat} {s : State}

def keybEvent (crc : Bytes → UInt32) (es : List Entry) : Event Fd :=
  .pwrite .redo (keybPos es (es.length / keysPerBlock))
    ((keybOf crc es (es.length / keysPerBlock)).remark (es.length / keysPerBlock) []).encode

theorem keybEvent_quiet (crc : Bytes → UInt32) (es : List Entry) :
    Event.Quiet (keybEvent crc es) := by
  exact .above (header_le_keybPos es _)

theorem keybEvent_covers (crc : Bytes → UInt32) (es : List Entry) :
    Event.Covers crc es (keybEvent crc es) := by
  exact .keyb (le_refl _) (fun m hm => by simp at hm)

def tagEvent (crc : Bytes → UInt32) (es : List Entry) (e : Entry) : Event Fd :=
  .pwrite .redo (keybPos es (es.length / keysPerBlock))
    (keybOf crc (es ++ [e]) (es.length / keysPerBlock)).encode

theorem Session.logTag_trace {e : Entry} (h : Session crc es M n e.data s) :
    (s.logTag crc e.tag).world.trace = s.world.trace ++ [tagEvent crc es e] := by
  rw [logTag_world, World.push_trace, h.writer.stamp_setTag e, h.writer.redoBlockOffset_eq,
    tagEvent]

theorem Session.putKeyb_trace (h : Session crc es M n [] s) :
    (s.putKeyb crc).world.trace = s.world.trace ++ [keybEvent crc es] := by
  rw [State.putKeyb, World.push_trace, h.writer.stamp_keyb, h.writer.redoBlockOffset_eq,
    keybEvent, RedoBlock.remark_nil]

theorem Session.flush_trace (h : Session crc es M n [] s) :
    (rfsckFlush crc s).2.world.trace = s.world.trace ++ [keybEvent crc es, .fsync .redo] := by
  rw [rfsckFlush_eq crc h.outcomes_nil]
  have hput := h.putKeyb_trace
  rw [State.syncRedo, World.push_trace, hput, List.append_assoc]
  rfl

/-- The events of `redo_mark_done`: everything is flushed, and then the header is
written and flushed. -/
theorem Session.markDone_trace (h : Session crc es M n [] s) (done : Bool) :
    (redoMarkDone crc done s).2.world.trace =
      s.world.trace ++ ([keybEvent crc es, keybEvent crc es, .fsync .redo] ++
        [.pwrite .redo 0 (s.doneHeader crc done).encode, keybEvent crc es, .fsync .redo]) := by
  rw [redoMarkDone_eq crc h.outcomes_nil]
  have hfirst := h.putKeyb_trace
  have hsecond := h.putKeyb.putKeyb_trace
  have hthird := (h.putKeyb.putKeyb.syncRedo.putHeader done).putKeyb_trace
  have hheader : (State.putHeader crc done
      (State.putKeyb crc (s.putKeyb crc)).syncRedo).world.trace =
      (State.putKeyb crc (s.putKeyb crc)).world.trace ++
        [.fsync .redo, .pwrite .redo 0 (s.doneHeader crc done).encode] := by
    rw [State.putHeader, World.push_trace, State.syncRedo, World.push_trace, List.append_assoc]
    rfl
  rw [State.syncRedo, World.push_trace, hthird, hheader, hsecond, hfirst]
  simp

theorem Session.txnBegin_trace (h : Session crc es M n [] s) :
    ∃ evs, (rfsckTxnBegin crc 0 s).2.world.trace = s.world.trace ++ evs ∧
      ∀ e ∈ evs, Event.Quiet e := by
  rw [rfsckTxnBegin_eq crc h.outcomes_nil, logTag_world, World.push_trace]
  refine ⟨_, rfl, ?_⟩
  intro e he
  rw [List.mem_singleton.mp he, h.writer.redoBlockOffset_eq]
  exact .above (header_le_keybPos es _)

theorem Session.write_trace
    (h : Session crc es M n [] s) {req : WriteReq} (hreq : req.Whole) :
    ∃ evs, (rfsckWrite crc req s).2.world.trace = s.world.trace ++ evs ∧
      ∀ e ∈ evs, Event.Quiet e := by
  rw [rfsckWrite_eq crc h.outcomes_nil hreq, logTag_world, World.push_trace, State.putData,
    World.push_trace, List.append_assoc]
  refine ⟨_, rfl, ?_⟩
  have hkeyb : redoHeaderSize ≤ s.data.redoBlockOffset := by
    rw [h.writer.redoBlockOffset_eq]
    exact header_le_keybPos es _
  have hlog : redoHeaderSize ≤ s.data.logOffset := by
    rw [h.writer.logOffset_eq]
    exact le_trans (header_le_dataPos es _) (Nat.le_add_right _ _)
  intro e he
  rcases List.mem_append.mp he with he | he
  · rw [List.mem_singleton.mp he]
    exact .above hlog
  · rw [List.mem_singleton.mp he]
    exact .above hkeyb

/-- The events of `rfsck_txn_end`. -/
theorem Session.txnEnd_events (h : Session crc es M n [] s) :
    (rfsckTxnEnd crc s).2.world.trace = s.world.trace ++
      [tagEvent crc es (Entry.edge (s.data.endCsum crc).toUInt64 s.data.txnId),
        keybEvent crc (es ++ [Entry.edge (s.data.endCsum crc).toUInt64 s.data.txnId]),
        .fsync .redo] := by
  have hstep : Session crc es M n
      (Entry.edge (s.data.endCsum crc).toUInt64 s.data.txnId).data
      { s with
        data.txnId := s.data.txnId + 1
        data.txnCsum := 0 } :=
    h.congr rfl rfl
  have hput := (hstep.logTag (Nat.zero_le _)).putKeyb_trace
  rw [hstep.logTag_trace] at hput
  rw [rfsckTxnEnd_eq crc h.outcomes_nil, State.syncRedo, World.push_trace]
  refine (congrArg (· ++ [Event.fsync Fd.redo]) hput).trans ?_
  simp

theorem Session.txnEnd_trace (h : Session crc es M n [] s) :
    ∃ evs, (rfsckTxnEnd crc s).2.world.trace = s.world.trace ++ evs ∧
      ∀ e ∈ evs, Event.Quiet e := by
  refine ⟨_, h.txnEnd_events, ?_⟩
  intro e he
  simp only [List.mem_cons, List.not_mem_nil, or_false] at he
  rcases he with rfl | rfl | rfl
  · exact .above (header_le_keybPos es _)
  · exact keybEvent_quiet crc _
  · exact .sync

theorem trace_perform_events (devFd : Nat) (as : List Action) (w : World) :
    ∃ evs, (perform devFd as w).trace = w.trace ++ evs ∧
      ∀ e ∈ evs, ∃ a ∈ as, ∃ v, e = Action.event devFd v a := by
  induction as generalizing w with
  | nil =>
      exact ⟨[], (List.append_nil _).symm, fun e he => by simp at he⟩
  | cons a as ih =>
      obtain ⟨evs, htrace, hevs⟩ := ih (w.push (a.event devFd w))
      refine ⟨a.event devFd w :: evs, ?_, ?_⟩
      · rw [perform_cons, htrace, World.push_trace, List.append_assoc]
        rfl
      · intro e he
        rcases List.mem_cons.mp he with rfl | he
        · exact ⟨a, by simp, w, rfl⟩
        · obtain ⟨b, hb, v, rfl⟩ := hevs e he
          exact ⟨b, List.mem_cons_of_mem a hb, v, rfl⟩

theorem mark_notMem_copyTags
    (ts : List RedoBlockTag) (i pos offset : Nat) (kb : RedoBlock) :
    Action.mark offset kb ∉ (copyTags ts i pos).2 := by
  induction ts generalizing i pos with
  | nil =>
      simp [copyTags]
  | cons tag ts ih =>
      rw [copyTags_cons]
      simp [ih]

theorem covers_of_mem_actionsOf
    {ts : List Found} {M' : List Nat}
    (hM : ∀ m ∈ M, (tagOf es m).IsEdge) (hM' : ∀ m ∈ M', (tagOf es m).IsEdge)
    (hts : ∀ t ∈ ts, (tagOf es t.beginAt).IsEdge) {a : Action}
    (ha : a ∈ actionsOf (keybPos es) (fun k => (keybOf crc es k).remark k M) M' ts)
    (devFd : Nat) (v : World) :
    Event.Covers crc es (a.event devFd v) := by
  induction ts generalizing M' with
  | nil =>
      simp [actionsOf] at ha
  | cons t ts ih =>
      have ht := hts t (by simp)
      have hM'' : ∀ m ∈ M' ++ [t.beginAt], (tagOf es m).IsEdge := by
        intro m hm
        rcases List.mem_append.mp hm with hm | hm
        · exact hM' m hm
        · rw [List.mem_singleton.mp hm]
          exact ht
      rw [actionsOf] at ha
      rcases List.mem_append.mp ha with ha | ha
      · cases a with
        | copy tag pos =>
            exact .dev
        | mark offset kb =>
            have hmark : Action.mark offset kb = .mark (keybPos es t.beginBlk)
                (((keybOf crc es t.beginBlk).remark t.beginBlk M).clearReserved.remark
                  t.beginBlk (M' ++ [t.beginAt])) := by
              rw [Found.actions] at ha
              rcases List.mem_append.mp ha with ha | ha
              · exact absurd ha (mark_notMem_copyTags _ _ _ _ _)
              · exact List.mem_singleton.mp ha
            obtain ⟨rfl, rfl⟩ := Action.mark.inj hmark
            rw [Action.event, RedoBlock.clearReserved_of_eq rfl, RedoBlock.remark_remark]
            refine .keyb ?_ ?_
            · have hlt := ht.lt_length
              rw [Found.beginBlk]
              exact Nat.div_le_div_right (le_of_lt hlt)
            · intro m hm
              rcases List.mem_append.mp hm with hm | hm
              · exact hM m hm
              · exact hM'' m hm
      · exact ih hM'' (fun u hu => hts u (List.mem_cons_of_mem t hu)) ha

theorem Session.replay_trace
    (h : Session crc es M n [] s) (hf : s.data.hdr.state = e2redoStateFinished)
    (sync : Bool) :
    ∃ evs, (rfsckReplay crc sync s).2.world.trace = s.world.trace ++ evs ∧
      ∀ e ∈ evs, Event.Covers crc es e := by
  have hacts := (h.finishedLog hf).planLog_follows.acts_eq
  have hedges := (walkLog_sound crc es M s.data.hdr.visited s.out).found_edge
  obtain ⟨evs, htrace, hevs⟩ := trace_perform_events s.data.devFd (planLog crc s).2 s.world
  have hcovers : ∀ e ∈ evs, Event.Covers crc es e := by
    intro e he
    obtain ⟨a, ha, v, rfl⟩ := hevs e he
    rw [hacts] at ha
    refine covers_of_mem_actionsOf h.marks_edge (fun m hm => by simp at hm) ?_ ha _ _
    intro t ht
    have hedge := hedges t ht
    rw [RedoBlockTag.IsEdge, markedTagOf_size, markedTagOf_blkCrc] at hedge
    exact hedge
  rw [h.replay_eq hf]
  cases sync with
  | false =>
      exact ⟨evs, htrace, hcovers⟩
  | true =>
      refine ⟨evs ++ [.fsync (.dev s.data.devFd)], ?_, ?_⟩
      · dsimp only
        rw [if_pos rfl, World.push_trace, htrace, List.append_assoc]
      · intro e he
        rcases List.mem_append.mp he with he | he
        · exact hcovers e he
        · rw [List.mem_singleton.mp he]
          exact .sync

end Events

/-- What a call may do when the log is marked done, or is not. -/
def Call.Gated (done : Bool) : Call → Prop
  | .txnBegin => done = false
  | .write req => done = false ∧ req.Whole
  | .txnEnd => done = false
  | _ => True

/-- The log is marked done behind the call. -/
def Call.doneAfter (done : Bool) : Call → Bool
  | .markDone b => b
  | _ => done

/-- A sequence of calls in which nothing is logged while the log is marked done. -/
def Gated : Bool → List Call → Prop
  | _, [] => True
  | done, c :: cs => c.Gated done ∧ Gated (c.doneAfter done) cs

theorem Gated.of_append
    {done : Bool} {cs ds : List Call} (h : Gated done (cs ++ ds)) : Gated done cs := by
  induction cs generalizing done with
  | nil =>
      trivial
  | cons c cs ih =>
      exact ⟨h.1, ih h.2⟩

/-- The entries that a call logs. -/
def Call.entries (crc : Bytes → UInt32) : Call → State → List Entry
  | .txnBegin, s => [Entry.edge 0 s.data.txnId]
  | .write req, _ => [req.entry crc]
  | .txnEnd, s => [Entry.edge (s.data.endCsum crc).toUInt64 s.data.txnId]
  | .flush, _ => []
  | .markDone _, _ => []
  | .replay _, _ => []

def entriesOf (crc : Bytes → UInt32) : List Call → State → List Entry
  | [], _ => []
  | c :: cs, s => c.entries crc s ++ entriesOf crc cs (c.run crc s).2

/-- **The invariant of the gate** over all failures. -/
structure Gate
    (crc : Bytes → UInt32) (init : ByteFile) (es : List Entry) (done : Bool) (s : State) :
    Prop where
  session : ∃ M n, Session crc es M n [] s
  init_eq : s.world.init .redo = init
  done_iff : s.data.hdr.state = e2redoStateFinished ↔ done = true
  idle : done = false → ∀ g, CrashImage .redo init s.world.trace g →
    ¬ (diskHeader g).Finished crc
  covered : done = true → ∀ g, CrashImage .redo init s.world.trace g → Covered crc es g

/-- Whenever the power fails while the events are under way, a FINISHED header stands for
the entries `es`. -/
def SafeDuring
    (crc : Bytes → UInt32) (init : ByteFile) (es : List Entry)
    (tr evs : List (Event Fd)) : Prop :=
  ∀ k g, CrashImage .redo init (tr ++ evs.take k) g →
    (diskHeader g).Finished crc → Covered crc es g

section Step

variable {init : ByteFile} {es : List Entry} {M : List Nat} {n : Nat} {done : Bool} {s : State}

theorem safeDuring_of_quiet
    (es : List Entry) {tr evs : List (Event Fd)}
    (h : ∀ g, CrashImage .redo init tr g → ¬ (diskHeader g).Finished crc)
    (hevs : ∀ e ∈ evs, Event.Quiet e) :
    SafeDuring crc init es tr evs ∧
      ∀ g, CrashImage .redo init (tr ++ evs) g → ¬ (diskHeader g).Finished crc := by
  have hkeeps : ∀ e ∈ evs, ∀ g, ¬ (diskHeader g).Finished crc →
      ¬ (diskHeader (applyEvent .redo g e)).Finished crc :=
    fun e he g hg => (hevs e he).keeps hg
  refine ⟨?_, forall_crashImage_append h hkeeps⟩
  intro k g hg hfin
  exact absurd hfin (forall_crashImage_take h hkeeps k g hg)

theorem safeDuring_of_covers
    {tr evs : List (Event Fd)}
    (h : ∀ g, CrashImage .redo init tr g → Covered crc es g)
    (hevs : ∀ e ∈ evs, Event.Covers crc es e) :
    SafeDuring crc init es tr evs ∧
      ∀ g, CrashImage .redo init (tr ++ evs) g → Covered crc es g := by
  have hkeeps : ∀ e ∈ evs, ∀ g, Covered crc es g → Covered crc es (applyEvent .redo g e) :=
    fun e he g hg => (hevs e he).keeps hg
  refine ⟨?_, forall_crashImage_append h hkeeps⟩
  intro k g hg _
  exact forall_crashImage_take h hkeeps k g hg

theorem SafeDuring.append
    {tr xs ys : List (Event Fd)} (h : SafeDuring crc init es tr xs)
    (h' : SafeDuring crc init es (tr ++ xs) ys) :
    SafeDuring crc init es tr (xs ++ ys) := by
  intro k g hg
  rw [List.take_append] at hg
  by_cases hk : k ≤ xs.length
  · rw [Nat.sub_eq_zero_of_le hk, List.take_zero, List.append_nil] at hg
    exact h k g hg
  · rw [List.take_of_length_le (by omega), ← List.append_assoc] at hg
    exact h' _ g hg

theorem image_of_synced
    {w : World} (htrace : ∃ tr, w.trace = tr ++ [.fsync .redo])
    (hinit : w.init .redo = init) {g : ByteFile}
    (hg : CrashImage .redo init w.trace g) : g = w.file .redo := by
  obtain ⟨tr, htr⟩ := htrace
  rw [htr, crashImage_snoc_fsync] at hg
  rw [hg, World.file, htr, hinit, applyEvents_append]
  rfl

theorem Session.covered (h : Session crc es M (es.length / keysPerBlock + 1) [] s) :
    Covered crc es (s.world.file .redo) := by
  refine ⟨⟨M, h.marks_edge, h.stored⟩, ?_⟩
  rw [diskHeader_of_holds h.header_holds]
  exact fun hf => Nat.lt_succ_iff.mp (h.header_covers hf.2)

theorem Session.not_finished
    (h : Session crc es M n [] s) (hf : s.data.hdr.state ≠ e2redoStateFinished) :
    ¬ (diskHeader (s.world.file .redo)).Finished crc := by
  rw [diskHeader_of_holds h.header_holds]
  exact fun hfin => hf hfin.2

theorem Session.doneHeader_numKeys_le (h : Session crc es M n [] s) (mark : Bool) :
    (s.doneHeader crc mark).numKeys.toNat ≤ es.length / keysPerBlock := by
  have hkeys : (s.doneHeader crc mark).numKeys = UInt64.ofNat s.data.numKeys := by
    rfl
  rw [hkeys, h.writer.numKeys_eq, UInt64.toNat_ofNat']
  exact Nat.mod_le _ _

theorem Gate.quiet
    (h : Gate crc init es false s) {es' : List Entry} {s' : State}
    (hs' : ∃ M n, Session crc es' M n [] s') (hinit : s'.world.init = s.world.init)
    (hhdr : s'.data.hdr = s.data.hdr)
    (htrace : ∃ evs, s'.world.trace = s.world.trace ++ evs ∧ ∀ e ∈ evs, Event.Quiet e) :
    (∃ evs, s'.world.trace = s.world.trace ++ evs ∧
        SafeDuring crc init es s.world.trace evs) ∧ Gate crc init es' false s' := by
  obtain ⟨evs, htr, hquiet⟩ := htrace
  obtain ⟨hsafe, hidle⟩ := safeDuring_of_quiet es (h.idle rfl) hquiet
  refine ⟨⟨evs, htr, hsafe⟩, ?_⟩
  refine {
    session := hs'
    init_eq := by rw [hinit, h.init_eq]
    done_iff := by rw [hhdr]; exact h.done_iff
    idle := ?_
    covered := fun hd => absurd hd Bool.false_ne_true }
  intro _
  rw [htr]
  exact hidle

theorem Gate.covers
    (h : Gate crc init es true s) {s' : State}
    (hs' : ∃ M n, Session crc es M n [] s') (hinit : s'.world.init = s.world.init)
    (hhdr : s'.data.hdr = s.data.hdr)
    (htrace : ∃ evs, s'.world.trace = s.world.trace ++ evs ∧ ∀ e ∈ evs, Event.Covers crc es e) :
    (∃ evs, s'.world.trace = s.world.trace ++ evs ∧
        SafeDuring crc init es s.world.trace evs) ∧ Gate crc init es true s' := by
  obtain ⟨evs, htr, hcovers⟩ := htrace
  obtain ⟨hsafe, hcovered⟩ := safeDuring_of_covers (h.covered rfl) hcovers
  refine ⟨⟨evs, htr, hsafe⟩, ?_⟩
  refine {
    session := hs'
    init_eq := by rw [hinit, h.init_eq]
    done_iff := by rw [hhdr]; exact h.done_iff
    idle := fun hd => absurd hd.symm Bool.false_ne_true
    covered := ?_ }
  intro _
  rw [htr]
  exact hcovered

/-- **`redo_mark_done`** opens or closes the gate. -/
theorem Gate.markDone (h : Gate crc init es done s) (mark : Bool) :
    (∃ evs, (redoMarkDone crc mark s).2.world.trace = s.world.trace ++ evs ∧
        SafeDuring crc init es s.world.trace evs) ∧
      Gate crc init es mark (redoMarkDone crc mark s).2 := by
  obtain ⟨M, n, hs⟩ := h.session
  have htrace := hs.markDone_trace mark
  have hnext := hs.markDone mark
  have hinit : (redoMarkDone crc mark s).2.world.init .redo = init := by
    rw [redoMarkDone_eq crc hs.outcomes_nil]
    exact h.init_eq
  have hstate : (redoMarkDone crc mark s).2.data.hdr.state = e2redoStateFinished ↔
      mark = true := by
    rw [(redoMarkDone_hdr crc hs.outcomes_nil mark).1]
    cases mark with
    | false =>
        exact ⟨fun hz => absurd hz zero_ne_finished, fun hz => absurd hz Bool.false_ne_true⟩
    | true =>
        exact ⟨fun _ => rfl, fun _ => rfl⟩
  have hsafe : SafeDuring crc init es s.world.trace
      ([keybEvent crc es, keybEvent crc es, .fsync .redo] ++
        [.pwrite .redo 0 (s.doneHeader crc mark).encode, keybEvent crc es, .fsync .redo]) := by
    have hseal : ∀ e ∈ [.pwrite .redo 0 (s.doneHeader crc mark).encode, keybEvent crc es,
        .fsync .redo], Event.Covers crc es e := by
      intro e he
      simp only [List.mem_cons, List.not_mem_nil, or_false] at he
      rcases he with rfl | rfl | rfl
      · exact .header (hs.doneHeader_numKeys_le mark)
      · exact keybEvent_covers crc es
      · exact .sync
    cases done with
    | false =>
        have hflush : ∀ e ∈ [keybEvent crc es, keybEvent crc es, .fsync .redo],
            Event.Quiet e := by
          intro e he
          simp only [List.mem_cons, List.not_mem_nil, or_false] at he
          rcases he with rfl | rfl | rfl
          · exact keybEvent_quiet crc es
          · exact keybEvent_quiet crc es
          · exact .sync
        refine (safeDuring_of_quiet es (h.idle rfl) hflush).1.append ?_
        -- right behind the flush the medium holds the whole log
        have hsynced := hs.putKeyb.putKeyb.syncRedo
        have htr : (State.putKeyb crc (s.putKeyb crc)).syncRedo.world.trace =
            s.world.trace ++ [keybEvent crc es, keybEvent crc es, .fsync .redo] := by
          rw [State.syncRedo, World.push_trace, hs.putKeyb.putKeyb_trace, hs.putKeyb_trace]
          simp
        refine (safeDuring_of_covers ?_ hseal).1
        intro g hg
        rw [← htr] at hg
        rw [image_of_synced (w := (State.putKeyb crc (s.putKeyb crc)).syncRedo.world)
          ⟨_, rfl⟩ h.init_eq hg]
        exact hsynced.covered
    | true =>
        have hflush : ∀ e ∈ [keybEvent crc es, keybEvent crc es, .fsync .redo],
            Event.Covers crc es e := by
          intro e he
          simp only [List.mem_cons, List.not_mem_nil, or_false] at he
          rcases he with rfl | rfl | rfl
          · exact keybEvent_covers crc es
          · exact keybEvent_covers crc es
          · exact .sync
        obtain ⟨hfirst, hcovered⟩ := safeDuring_of_covers (h.covered rfl) hflush
        exact hfirst.append (safeDuring_of_covers hcovered hseal).1
  have hsynced : ∀ g, CrashImage .redo init (redoMarkDone crc mark s).2.world.trace g →
      g = (redoMarkDone crc mark s).2.world.file .redo := by
    intro g hg
    refine image_of_synced ⟨s.world.trace ++ ([keybEvent crc es, keybEvent crc es,
      .fsync .redo] ++ [.pwrite .redo 0 (s.doneHeader crc mark).encode, keybEvent crc es]), ?_⟩
      hinit hg
    rw [htrace]
    simp
  refine ⟨⟨_, htrace, hsafe⟩, ?_⟩
  refine {
    session := ⟨_, _, hnext⟩
    init_eq := hinit
    done_iff := hstate
    idle := ?_
    covered := ?_ }
  · rintro rfl g hg
    rw [hsynced g hg]
    exact hnext.not_finished (fun hz => absurd (hstate.mp hz) Bool.false_ne_true)
  · intro _ g hg
    rw [hsynced g hg]
    exact hnext.covered

theorem Gate.step (h : Gate crc init es done s) {c : Call} (hc : c.Gated done) :
    (∃ evs, (c.run crc s).2.world.trace = s.world.trace ++ evs ∧
        SafeDuring crc init es s.world.trace evs) ∧
      Gate crc init (es ++ c.entries crc s) (c.doneAfter done) (c.run crc s).2 := by
  obtain ⟨M, n, hs⟩ := h.session
  cases c with
  | txnBegin =>
      obtain rfl : done = false := hc
      refine h.quiet ⟨_, _, hs.txnBegin⟩ ?_ ?_ hs.txnBegin_trace
      · rw [Call.run, rfsckTxnBegin_eq crc hs.outcomes_nil, logTag_world]
        rfl
      · rw [Call.run, rfsckTxnBegin_eq crc hs.outcomes_nil]
        exact rollKeyb_hdr _
  | write req =>
      obtain ⟨rfl, hreq⟩ : done = false ∧ req.Whole := hc
      refine h.quiet ⟨_, _, hs.write hreq⟩ ?_ ?_ (hs.write_trace hreq)
      · rw [Call.run, rfsckWrite_eq crc hs.outcomes_nil hreq, logTag_world]
        rfl
      · rw [Call.run, rfsckWrite_eq crc hs.outcomes_nil hreq]
        exact rollKeyb_hdr _
  | txnEnd =>
      obtain rfl : done = false := hc
      refine h.quiet ⟨_, _, hs.txnEnd⟩ ?_ ?_ hs.txnEnd_trace
      · rw [Call.run, rfsckTxnEnd_eq crc hs.outcomes_nil]
        rw [State.syncRedo, State.putKeyb, logTag_world]
        rfl
      · rw [Call.run, rfsckTxnEnd_eq crc hs.outcomes_nil]
        exact rollKeyb_hdr _
  | flush =>
      rw [Call.entries, List.append_nil]
      have hinit : (rfsckFlush crc s).2.world.init = s.world.init := by
        rw [rfsckFlush_eq crc hs.outcomes_nil]
        rfl
      have hhdr : (rfsckFlush crc s).2.data.hdr = s.data.hdr := by
        rw [rfsckFlush_eq crc hs.outcomes_nil]
        rfl
      cases done with
      | false =>
          refine h.quiet ⟨_, _, hs.flush⟩ hinit hhdr ⟨_, hs.flush_trace, ?_⟩
          intro e he
          simp only [List.mem_cons, List.not_mem_nil, or_false] at he
          rcases he with rfl | rfl
          · exact keybEvent_quiet crc es
          · exact .sync
      | true =>
          refine h.covers ⟨_, _, hs.flush⟩ hinit hhdr ⟨_, hs.flush_trace, ?_⟩
          intro e he
          simp only [List.mem_cons, List.not_mem_nil, or_false] at he
          rcases he with rfl | rfl
          · exact keybEvent_covers crc es
          · exact .sync
  | markDone mark =>
      rw [Call.entries, List.append_nil]
      exact h.markDone mark
  | replay sync =>
      rw [Call.entries, List.append_nil]
      obtain ⟨hidle, hlead⟩ := rfsckReplay_stays crc sync s
      have hhdr := RedoPrivateData.hdr_of_idle hidle
      cases done with
      | false =>
          have hf : s.data.hdr.state ≠ e2redoStateFinished :=
            fun hz => absurd (h.done_iff.mp hz) Bool.false_ne_true
          obtain ⟨m, hm⟩ := hs.replay_of_not_finished hf sync
          refine h.quiet ⟨M, n, ?_⟩ hlead.1 hhdr ⟨[], ?_, fun e he => by simp at he⟩
          · rw [Call.run, hm]
            exact hs.congr rfl rfl
          · rw [Call.run, hm, List.append_nil]
            rfl
      | true =>
          have hf := h.done_iff.mpr rfl
          exact h.covers ⟨_, _, hs.replay hf sync⟩ hlead.1 hhdr (hs.replay_trace hf sync)

theorem Gate.run
    {cs : List Call} (h : Gate crc init es done s) (hcs : Gated done cs) :
    ∃ done', Gate crc init (es ++ entriesOf crc cs s) done' (runCalls crc cs s) ∧
      ∀ ds, Gated done (cs ++ ds) → Gated done' ds := by
  induction cs generalizing es done s with
  | nil =>
      exact ⟨done, by rw [entriesOf, List.append_nil]; exact h, fun ds hds => hds⟩
  | cons c cs ih =>
      obtain ⟨hc, hrest⟩ := hcs
      obtain ⟨_, hnext⟩ := h.step hc
      obtain ⟨done', hgate, hmore⟩ := ih hnext hrest
      rw [List.append_assoc] at hgate
      exact ⟨done', hgate, fun ds hds => hmore ds hds.2⟩

end Step

theorem FreshlyOpened.gate
    {w : World} {s : State} (h : FreshlyOpened crc w s) (hstart : w.trace = [])
    (hdisk : ¬ (diskHeader (w.init .redo)).Finished crc) :
    Gate crc (w.init .redo) [] false s := by
  obtain ⟨hs, _, hstate, hworld⟩ := h.session
  have htrace : s.world.trace = [] ++ [.pwrite .redo 0 s.data.hdr.encode] := by
    rw [hworld, World.push_trace, hstart]
  have hempty : ∀ g, CrashImage Fd.redo (w.init .redo) [] g → ¬ (diskHeader g).Finished crc := by
    intro g hg
    rw [(crashImage_nil _ _ _).mp hg]
    exact hdisk
  refine {
    session := ⟨[], 0, hs⟩
    init_eq := by rw [hworld]; rfl
    done_iff := ⟨fun hz => absurd hz hstate, fun hz => absurd hz Bool.false_ne_true⟩
    idle := ?_
    covered := fun hz => absurd hz Bool.false_ne_true }
  intro _
  rw [htrace]
  refine (safeDuring_of_quiet [] hempty ?_).2
  intro e he
  rw [List.mem_singleton.mp he]
  exact .header hstate

/-- `rfsck_open` leaves the devices alone unless the header that it reads says
FINISHED. -/
theorem rfsckOpen_dev_of_not_finished
    {p : Process} (hout : p.world.outcomes = []) (hnew : ¬ p.world.header.Finished crc)
    (redo : Option String) (devFd : Nat) (raw : RedoPrivateData) (fd : Nat) :
    (rfsckOpen crc redo devFd raw p).2.world.file (.dev fd) = p.world.file (.dev fd) := by
  cases redo with
  | none =>
      rw [rfsckOpen, if_pos rfl]
  | some redo =>
      by_cases hdev : devFd < 1
      · rw [rfsckOpen, if_neg (by simp), if_pos hdev]
      · have hopen := World.openRedo_of_outcomes_nil hout
        obtain ⟨m, hm⟩ := rfsckReplay_of_not_finished crc
          (s := openState crc devFd raw p p.world) hout hnew true
        rw [rfsckOpen_world crc redo (by omega) raw hopen hopen, firstOpen, writeInfo_dev, hm]
        rfl

theorem blankWorld_not_finished :
    ¬ (diskHeader (blankWorld.init .redo)).Finished crc32c := by
  have hstate : (diskHeader ByteFile.empty).state ≠ e2redoStateFinished := by
    decide +kernel
  exact fun hf => hstate hf.2

section Misbracketed

variable {s : State}

/-- The places of the begin tags, when the calls log from tag `i` on. -/
def beginsOf : Nat → List Call → List Nat
  | _, [] => []
  | i, .txnBegin :: cs => i :: beginsOf (i + 1) cs
  | i, .write _ :: cs => beginsOf (i + 1) cs
  | i, .txnEnd :: cs => beginsOf (i + 1) cs
  | i, _ :: cs => beginsOf i cs

/-- Two end tags without a begin tag, and a replay. -/
def endedTwice : List Call :=
  [.txnEnd, .txnEnd, .markDone true, .replay true]

theorem marks_walkLog_of_edges
    {a b : Entry} (ha : a.tag.IsEdge) (hnew : a.tag.offset ≠ txnReplayedCnst)
    (hb : b.tag.IsEdge) (k : Nat) (out : List Message) :
    (walkLog crc [a, b] [] (k + 1) out).marks = [0] := by
  have hsplit : keysPerBlock * (k + 1) = 2 + (keysPerBlock * k + 253) := by
    simp only [keysPerBlock_eq]
    omega
  have htail : ∀ g, 0 + 2 ≤ g → ¬ (tagOf [a, b] g).IsEdge := by
    intro g hg
    rw [tagOf_of_le _ (by simpa using hg)]
    decide
  have htag : tagOf [a, b] 0 = a.tag := by
    rfl
  have htag' : tagOf [a, b] 1 = b.tag := by
    rfl
  have hfirst : ((Walk.start out).enter (keybPos [a, b]) 0).step crc (tagOf [a, b]) 0 =
      ((Walk.start out).enter (keybPos [a, b]) 0).openTxn crc (tagOf [a, b]) 0 := by
    have hkind : tagKind 0 false (tagOf [a, b] 0) = .beginTag := by
      rw [htag, tagKind_edge ha, if_pos rfl]
      exact if_neg hnew
    rw [Walk.step, show ((Walk.start out).enter (keybPos [a, b]) 0).txnId = 0 from rfl,
      show ((Walk.start out).enter (keybPos [a, b]) 0).isReplayed = false from rfl, hkind]
  have hsecond : ∀ w : Walk, w.found = [] → w.txnId ≠ 0 → w.isReplayed = false → w.beginAt = 0 →
      ((w.enter (keybPos [a, b]) 1).step crc (tagOf [a, b]) 1).marks = [0] := by
    intro w hfound hid hnew hbegin
    rw [Walk.enter_of_ne _ (by decide), Walk.step, htag', tagKind_edge hb, if_neg hid, hnew,
      if_neg Bool.false_ne_true]
    rw [Walk.marks, Walk.closeTxn, hfound, List.nil_append, Walk.closing, hbegin]
    rfl
  have hmarks : (Walk.run crc (keybPos [a, b]) (tagOf [a, b]) 2 0 (Walk.start out)).marks =
      [0] := by
    rw [Walk.run, Walk.run, Walk.run, hfirst]
    exact hsecond _ rfl ha.2 rfl rfl
  rw [walkLog, markedTagOf_nil, hsplit, Walk.run_add, Walk.marks,
    Walk.found_run_of_not_isEdge (fun g hg _ => htail g hg)]
  exact hmarks

theorem Stored.mark_mem
    {es : List Entry} {M M' : List Nat} {n n' : Nat} {f : ByteFile}
    (h : Stored crc es M n f) (h' : Stored crc es M' n' f) {g : Nat}
    (hn : g / keysPerBlock < n) (hn' : g / keysPerBlock < n') (hg : g ∈ M)
    (hnew : (tagOf es g).offset ≠ txnReplayedCnst) : g ∈ M' := by
  by_contra hnot
  have hread := ByteFile.pread_of_holds (h.keyb_holds _ hn)
  have hread' := ByteFile.pread_of_holds (h'.keyb_holds _ hn')
  rw [RedoBlock.length_encode] at hread hread'
  have hslot : g % keysPerBlock < keysPerBlock := Nat.mod_lt _ (by decide)
  have hkeyb := congrArg (fun b => ((RedoBlock.decode b).tag (g % keysPerBlock)).offset)
    (hread.symm.trans hread')
  rw [RedoBlock.decode_encode, RedoBlock.decode_encode, RedoBlock.remark_tag _ _ _ hslot,
    RedoBlock.remark_tag _ _ _ hslot, Nat.div_add_mod, if_pos hg, if_neg hnot,
    keybOf_tag _ _ _ hslot, Nat.div_add_mod] at hkeyb
  exact hnew hkeyb.symm

theorem Session.replay_of_edges
    {a b : Entry} (h : Session crc [a, b] [] 1 [] s)
    (hf : s.data.hdr.state = e2redoStateFinished) (ha : a.tag.IsEdge)
    (hnew : a.tag.offset ≠ txnReplayedCnst) (hb : b.tag.IsEdge) :
    Session crc [a, b] [0] 1 [] (rfsckReplay crc true s).2 := by
  have hreplay := h.replay hf true
  obtain ⟨k, hk⟩ : ∃ k, s.data.hdr.visited = k + 1 :=
    Nat.exists_eq_succ_of_ne_zero (by rw [RedoHeader.visited, keybCountLimit]; omega)
  rw [hk, marks_walkLog_of_edges ha hnew hb] at hreplay
  exact hreplay

theorem FreshlyOpened.mark_in_end_tag
    {w : World} (h : FreshlyOpened crc w s)
    (hcsum : (s.data.endCsum crc).toUInt64 ≠ txnReplayedCnst) :
    (diskHeader ((runCalls crc endedTwice s).world.file .redo)).Finished crc ∧
      ∀ M n, Stored crc (entriesOf crc endedTwice s) M (n + 1)
        ((runCalls crc endedTwice s).world.file .redo) → 0 ∈ M := by
  obtain ⟨hs, hid, _, _⟩ := h.session
  have hid' : (rfsckTxnEnd crc s).2.data.txnId = 2 := by
    rw [rfsckTxnEnd_eq crc hs.outcomes_nil]
    refine (rollKeyb_txn _).1.trans ?_
    change s.data.txnId + 1 = 2
    rw [hid]
    rfl
  have hended := hs.txnEnd.txnEnd
  have hentries : entriesOf crc endedTwice s =
      [Entry.edge (s.data.endCsum crc).toUInt64 s.data.txnId,
        Entry.edge ((rfsckTxnEnd crc s).2.data.endCsum crc).toUInt64
          (rfsckTxnEnd crc s).2.data.txnId] := by
    rfl
  have hdone : Session crc [Entry.edge (s.data.endCsum crc).toUInt64 s.data.txnId,
        Entry.edge ((rfsckTxnEnd crc s).2.data.endCsum crc).toUInt64
          (rfsckTxnEnd crc s).2.data.txnId] [] 1 []
      (redoMarkDone crc true (rfsckTxnEnd crc (rfsckTxnEnd crc s).2).2).2 := by
    simpa [clearMarks, keysPerBlock_eq] using hended.markDone true
  have hf : (redoMarkDone crc true (rfsckTxnEnd crc (rfsckTxnEnd crc s).2).2).2.data.hdr.state =
      e2redoStateFinished := by
    rw [(redoMarkDone_hdr crc hended.outcomes_nil true).1]
    rfl
  have hreplay := hdone.replay_of_edges hf ⟨rfl, ne_of_eq_of_ne hid (by decide)⟩ hcsum
    ⟨rfl, ne_of_eq_of_ne hid' (by decide)⟩
  have hrun : runCalls crc endedTwice s = (rfsckReplay crc true
      (redoMarkDone crc true (rfsckTxnEnd crc (rfsckTxnEnd crc s).2).2).2).2 := by
    rfl
  rw [hrun, hentries]
  refine ⟨?_, ?_⟩
  · rw [diskHeader_of_holds hreplay.header_holds]
    refine ⟨hreplay.header_crc, ?_⟩
    rw [RedoPrivateData.hdr_of_idle (rfsckReplay_stays crc true _).1]
    exact hf
  · intro M n hstored
    exact hreplay.stored.mark_mem hstored (by decide) (by rw [Nat.zero_div]; omega) (by simp)
      hcsum

theorem blankState_txnCsum (crc : Bytes → UInt32) : (blankState crc).data.txnCsum = 0 := by
  obtain ⟨m, hm⟩ := rfsckReplay_of_not_finished crc
    (s := setupState crc 1 blankData blankWorld []) rfl
    (blankState_freshlyOpened crc).2.1 true
  rw [blankState, firstOpen, (writeInfo_cases _ _ _ _).2.2, hm]
  rfl

end Misbracketed

end Gate

end Redo
end Rfsck
