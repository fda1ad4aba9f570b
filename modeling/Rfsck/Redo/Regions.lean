import Rfsck.Redo.WriteAhead

/-!
# The regions of the log file

The log file consists of the header, the key blocks and the buffers of the writes.

* `Region`: a part of the file, with its place and its size.
* `LogLayout`: where `redo_data` points to, and that every write to the log stays in a region.
* `log_layout`: every session on a fresh log has this layout.
-/

namespace Rfsck
namespace Redo

open Storage

/-- A part of the log file. -/
inductive Region where
  | header
  | keyBlock (k : Nat)
  | buffer (i : Nat)
deriving DecidableEq

namespace Region

variable (es : List Entry)

/-- The first byte of a region in a log with the entries `es`. -/
def start : Region → Nat
  | header => 0
  | keyBlock k => keybPos es k
  | buffer i => dataPos es i

/-- The length of a region. -/
def size : Region → Nat
  | header => redoHeaderSize
  | keyBlock _ => redoLogBlockSize
  | buffer i => (tagOf es i).size.toNat

/-- The regions of a log: the header, the key blocks up to the current one, and the buffers. -/
def Used : Region → Prop
  | header => True
  | keyBlock k => k ≤ es.length / keysPerBlock
  | buffer i => i < es.length

/-- **Two regions are disjoint.** -/
theorem disjoint {r r' : Region} (h : r ≠ r') :
    r.start es + r.size es ≤ r'.start es ∨ r'.start es + r'.size es ≤ r.start es := by
  have hkeyb : redoHeaderSize ≤ keybPos es 0 := header_le_keybPos es 0
  cases r with
  | header =>
      left
      simp only [start, size, Nat.zero_add]
      cases r' with
      | header => exact absurd rfl h
      | keyBlock k => exact header_le_keybPos es k
      | buffer i => exact header_le_dataPos es i
  | keyBlock k =>
      cases r' with
      | header =>
          right
          simp only [start, size, Nat.zero_add]
          exact header_le_keybPos es k
      | keyBlock k' =>
          rcases Nat.lt_or_gt_of_ne (fun hk : k = k' => h (by rw [hk])) with hlt | hlt
          · exact .inl (keybPos_le_keybPos es hlt)
          · exact .inr (keybPos_le_keybPos es hlt)
      | buffer i => exact keybPos_disjoint_dataPos es k
  | buffer i =>
      cases r' with
      | header =>
          right
          simp only [start, size, Nat.zero_add]
          exact header_le_dataPos es i
      | keyBlock k => exact (keybPos_disjoint_dataPos es k).symm
      | buffer j =>
          rcases Nat.lt_or_gt_of_ne (fun hi : i = j => h (by rw [hi])) with hlt | hlt
          · exact .inl (dataPos_le_dataPos es hlt)
          · exact .inr (dataPos_le_dataPos es hlt)

variable {es}

theorem Used.append {r : Region} (h : r.Used es) (es' : List Entry) :
    r.Used (es ++ es') ∧ r.start (es ++ es') = r.start es ∧ r.size (es ++ es') = r.size es := by
  have hlen : es.length ≤ (es ++ es').length := by
    simp
  cases r with
  | header => exact ⟨trivial, rfl, rfl⟩
  | keyBlock k =>
      have hk : keysPerBlock * k ≤ es.length :=
        le_trans (Nat.mul_le_mul_left _ h) (Nat.mul_div_le _ _)
      exact ⟨le_trans h (Nat.div_le_div_right hlen), keybPos_append es es' hk, rfl⟩
  | buffer i =>
      have hi : i < es.length := h
      refine ⟨lt_of_lt_of_le hi hlen, dataPos_append es es' (le_of_lt hi), ?_⟩
      rw [size, size, tagOf_append_left es es' hi]

end Region

/-- A write to the log covers one region exactly; that of a buffer stores its data. -/
def InRegion (es : List Entry) : Event Fd → Prop
  | .pwrite .redo off buf =>
      ∃ r : Region, r.Used es ∧ off = r.start es ∧ buf.length = r.size es ∧
        ∀ i, r = .buffer i → es[i]?.map Entry.data = some buf
  | _ => True

/-- **The layout of the log** in the state `s` of a session that began in `s₀`, with the
entries `es`. -/
structure LogLayout (es : List Entry) (s₀ s : State) : Prop where
  tags_length : keysPerBlock * s.data.numKeys + s.data.keysInBlock = es.length
  keysInBlock_lt : s.data.keysInBlock < keysPerBlock
  redoBlockOffset_eq : s.data.redoBlockOffset =
    redoHeaderSize + redoLogBlockSize * s.data.numKeys +
      tagBytes ((es.map Entry.tag).take (keysPerBlock * s.data.numKeys))
  logOffset_eq : s.data.logOffset =
    s.data.redoBlockOffset + redoLogBlockSize +
      tagBytes ((es.map Entry.tag).drop (keysPerBlock * s.data.numKeys))
  fullBlocks : ∀ k, k < s.data.numKeys → ∃ kb : RedoBlock,
    (s.world.file .redo).Holds (keybPos es k) kb.encode ∧
      ∀ j, j < keysPerBlock → (kb.tag j).size = (tagOf es (keysPerBlock * k + j)).size
  currentBlock : ∀ j, j < s.data.keysInBlock →
    s.data.keyb.tag j = tagOf es (keysPerBlock * s.data.numKeys + j)
  buffers : ∀ i e, es[i]? = some e → (s.world.file .redo).Holds (dataPos es i) e.data
  disjoint : ∀ r r' : Region, r.Used es → r'.Used es → r ≠ r' →
    r.start es + r.size es ≤ r'.start es ∨ r'.start es + r'.size es ≤ r.start es
  writes : ∃ new, s.world.trace = s₀.world.trace ++ new ∧ ∀ e ∈ new, InRegion es e

def Succeed (crc : Bytes → UInt32) : List Call → State → Prop
  | [], _ => True
  | c :: cs, s => (c.run crc s).1 = 0 ∧ Succeed crc cs (c.run crc s).2

section Layout

variable {crc : Bytes → UInt32} {es : List Entry} {M : List Nat} {n : Nat} {s₀ s : State}

theorem InRegion.append {e : Event Fd} (h : InRegion es e) (es' : List Entry) :
    InRegion (es ++ es') e := by
  cases e with
  | fsync fd => trivial
  | pwrite fd off buf =>
      cases fd with
      | dev fd => trivial
      | redo =>
          obtain ⟨r, hused, hoff, hlen, hbuf⟩ := h
          obtain ⟨hused', hstart, hsize⟩ := hused.append es'
          refine ⟨r, hused', by rw [hstart, hoff], by rw [hsize, hlen], fun i hi => ?_⟩
          have hlt : i < es.length := by
            rw [hi] at hused
            exact hused
          rw [List.getElem?_append_left hlt]
          exact hbuf i hi

theorem inRegion_keyBlock {k : Nat} (h : k ≤ es.length / keysPerBlock) (kb : RedoBlock) :
    InRegion es (.pwrite .redo (keybPos es k) kb.encode) :=
  ⟨.keyBlock k, h, rfl, kb.length_encode, fun _ hi => by cases hi⟩

theorem inRegion_header (hdr : RedoHeader) : InRegion es (.pwrite .redo 0 hdr.encode) :=
  ⟨.header, trivial, rfl, hdr.length_encode, fun _ hi => by cases hi⟩

theorem inRegion_buffer (es : List Entry) (e : Entry) :
    InRegion (es ++ [e]) (.pwrite .redo (dataPos es es.length) e.data) := by
  have hget : (es ++ [e])[es.length]? = some e := by
    simp
  refine ⟨.buffer es.length, ?_, ?_, ?_, fun i hi => ?_⟩
  · change es.length < (es ++ [e]).length
    simp
  · exact (dataPos_append es [e] (le_refl _)).symm
  · change e.data.length = (tagOf (es ++ [e]) es.length).size.toNat
    rw [tagOf_of_getElem? hget, e.size_eq]
  · cases hi
    rw [hget]
    rfl

theorem Event.Covers.inRegion {e : Event Fd} (h : Event.Covers crc es e) : InRegion es e := by
  cases h with
  | keyb hk _ => exact inRegion_keyBlock hk _
  | header _ => exact inRegion_header _
  | dev => trivial
  | sync => trivial

theorem inRegion_nextTag (e : Entry) (kb : RedoBlock) :
    InRegion (es ++ [e]) (.pwrite .redo (keybPos es (es.length / keysPerBlock)) kb.encode) :=
  (inRegion_keyBlock (le_refl _) kb).append [e]

/-- A write that succeeds fits into one system call. -/
theorem whole_of_rfsckWrite {req : WriteReq} (h : s.world.outcomes = [])
    (hok : (rfsckWrite crc req s).1 = 0) : req.Whole := by
  by_contra hlong
  have hlt : maxRwCount < req.buf.length := Nat.lt_of_not_le hlong
  have hdata : ∀ s' : State, s'.world = s.world →
      (writeInfo .redo s.data.logOffset req.buf true s').1 = 1 := by
    intro s' hs'
    unfold writeInfo
    rw [hs', World.pwrite_of_outcomes_nil h, List.length_take, Nat.min_eq_left (le_of_lt hlt)]
    dsimp only
    rw [if_neg (by omega), if_pos (by omega)]
  unfold rfsckWrite at hok
  dsimp only at hok
  have hone := hdata { s.setTag (req.tag crc) with
    data.txnCsum := s.data.txnCsum ^^^ crc (req.tag crc).encode } rfl
  rw [if_pos (by
    intro hzero
    exact absurd (hone.symm.trans hzero) one_ne_zero)] at hok
  exact absurd (hone.symm.trans hok) one_ne_zero

theorem Session.step (h : Session crc es M n [] s) {c : Call} (hok : (c.run crc s).1 = 0) :
    ∃ M' n', Session crc (es ++ c.entries crc s) M' n' [] (c.run crc s).2 := by
  cases c with
  | txnBegin => exact ⟨_, _, h.txnBegin⟩
  | write req => exact ⟨_, _, h.write (whole_of_rfsckWrite h.outcomes_nil hok)⟩
  | txnEnd => exact ⟨_, _, h.txnEnd⟩
  | flush =>
      rw [Call.entries, List.append_nil]
      exact ⟨_, _, h.flush⟩
  | markDone done =>
      rw [Call.entries, List.append_nil]
      exact ⟨_, _, h.markDone done⟩
  | replay sync =>
      rw [Call.entries, List.append_nil]
      by_cases hf : s.data.hdr.state = e2redoStateFinished
      · exact ⟨_, _, h.replay hf sync⟩
      · obtain ⟨m, hm⟩ := h.replay_of_not_finished hf sync
        refine ⟨M, n, ?_⟩
        rw [Call.run, hm]
        exact h.congr rfl rfl

theorem Session.writes_inRegion (h : Session crc es M n [] s) {c : Call} (hok : (c.run crc s).1 = 0) :
    ∃ new, (c.run crc s).2.world.trace = s.world.trace ++ new ∧
      ∀ e ∈ new, InRegion (es ++ c.entries crc s) e := by
  have hkeyb := h.writer.redoBlockOffset_eq
  have hcurrent : ∀ es' : List Entry, InRegion es' (keybEvent crc es') :=
    fun es' => (keybEvent_covers crc es').inRegion
  cases c with
  | txnBegin =>
      rw [Call.run, rfsckTxnBegin_eq crc h.outcomes_nil, logTag_world, World.push_trace]
      refine ⟨_, rfl, fun e he => ?_⟩
      rw [List.mem_singleton.mp he, hkeyb]
      exact inRegion_nextTag _ _
  | write req =>
      have hlog : s.data.logOffset = dataPos es es.length := by
        rw [h.writer.logOffset_eq, List.length_nil, Nat.add_zero]
      rw [Call.run, rfsckWrite_eq crc h.outcomes_nil (whole_of_rfsckWrite h.outcomes_nil hok),
        logTag_world, World.push_trace, State.putData, World.push_trace, List.append_assoc]
      refine ⟨_, rfl, fun e he => ?_⟩
      rcases List.mem_append.mp he with he | he
      · rw [List.mem_singleton.mp he, hlog]
        exact inRegion_buffer es (req.entry crc)
      · rw [List.mem_singleton.mp he, hkeyb]
        exact inRegion_nextTag _ _
  | txnEnd =>
      have hstep : Session crc es M n
          (Entry.edge (s.data.endCsum crc).toUInt64 s.data.txnId).data
          { s with
            data.txnId := s.data.txnId + 1
            data.txnCsum := 0 } :=
        h.congr rfl rfl
      have hput := (hstep.logTag (Nat.zero_le _)).putKeyb_trace
      rw [Call.run, rfsckTxnEnd_eq crc h.outcomes_nil, State.syncRedo, World.push_trace,
        show s.data.endTag crc =
          (Entry.edge (s.data.endCsum crc).toUInt64 s.data.txnId).tag from rfl, hput, logTag_world,
        World.push_trace, List.append_assoc, List.append_assoc]
      refine ⟨_, rfl, fun e he => ?_⟩
      rcases List.mem_append.mp he with he | he
      · rw [List.mem_singleton.mp he, hkeyb]
        exact inRegion_nextTag _ _
      rcases List.mem_append.mp he with he | he
      · rw [List.mem_singleton.mp he]
        exact hcurrent _
      · rw [List.mem_singleton.mp he]
        trivial
  | flush =>
      rw [Call.entries, List.append_nil]
      refine ⟨_, h.flush_trace, fun e he => ?_⟩
      simp only [List.mem_cons, List.not_mem_nil, or_false] at he
      rcases he with rfl | rfl
      · exact hcurrent es
      · trivial
  | markDone done =>
      rw [Call.entries, List.append_nil]
      refine ⟨_, h.markDone_trace done, fun e he => ?_⟩
      simp only [List.cons_append, List.nil_append, List.mem_cons, List.not_mem_nil,
        or_false] at he
      rcases he with rfl | rfl | rfl | rfl | rfl | rfl
      · exact hcurrent es
      · exact hcurrent es
      · trivial
      · exact inRegion_header _
      · exact hcurrent es
      · trivial
  | replay sync =>
      rw [Call.entries, List.append_nil]
      by_cases hf : s.data.hdr.state = e2redoStateFinished
      · obtain ⟨new, htrace, hnew⟩ := h.replay_trace hf sync
        exact ⟨new, htrace, fun e he => (hnew e he).inRegion⟩
      · obtain ⟨m, hm⟩ := h.replay_of_not_finished hf sync
        refine ⟨[], ?_, fun e he => absurd he List.not_mem_nil⟩
        rw [Call.run, hm, List.append_nil]
        rfl

/-- **A session** keeps the session relation, and its system calls stay in the regions. -/
theorem Session.run (h : Session crc es M n [] s) {cs : List Call} (hok : Succeed crc cs s) :
    (∃ M' n', Session crc (es ++ entriesOf crc cs s) M' n' [] (runCalls crc cs s)) ∧
      ∃ new, (runCalls crc cs s).world.trace = s.world.trace ++ new ∧
        ∀ e ∈ new, InRegion (es ++ entriesOf crc cs s) e := by
  induction cs generalizing es M n s with
  | nil =>
      rw [entriesOf, List.append_nil]
      exact ⟨⟨M, n, h⟩, [], (List.append_nil _).symm, fun e he => absurd he List.not_mem_nil⟩
  | cons c cs ih =>
      obtain ⟨hc, hcs⟩ := hok
      obtain ⟨M', n', hstep⟩ := h.step hc
      obtain ⟨new, htrace, hnew⟩ := h.writes_inRegion hc
      obtain ⟨hend, new', htrace', hnew'⟩ := ih hstep hcs
      rw [entriesOf, ← List.append_assoc]
      refine ⟨hend, new ++ new', ?_, fun e he => ?_⟩
      · rw [runCalls_cons, htrace', htrace, List.append_assoc]
      · rcases List.mem_append.mp he with he | he
        · exact (hnew e he).append _
        · exact hnew' e he

theorem tagBytes_map_tag (es : List Entry) : tagBytes (es.map Entry.tag) = dataSize es := by
  induction es with
  | nil => rfl
  | cons e es ih =>
      rw [List.map_cons, tagBytes, dataSize] at *
      rw [List.map_cons, List.sum_cons, List.map_cons, List.sum_cons, e.size_eq, ih]

theorem Session.logLayout (h : Session crc es M n [] s)
    (hwrites : ∃ new, s.world.trace = s₀.world.trace ++ new ∧ ∀ e ∈ new, InRegion es e) :
    LogLayout es s₀ s := by
  have hw := h.writer
  have hdiv : keysPerBlock * s.data.numKeys + s.data.keysInBlock = es.length := by
    rw [hw.numKeys_eq, hw.keysInBlock_eq]
    exact Nat.div_add_mod _ _
  refine {
    tags_length := hdiv
    keysInBlock_lt := ?_
    redoBlockOffset_eq := ?_
    logOffset_eq := ?_
    fullBlocks := ?_
    currentBlock := ?_
    buffers := h.stored.data_holds
    disjoint := fun _ _ _ _ hne => Region.disjoint es hne
    writes := hwrites }
  · rw [hw.keysInBlock_eq]
    exact Nat.mod_lt _ (by decide)
  · rw [hw.redoBlockOffset_eq, hw.numKeys_eq, ← List.map_take, tagBytes_map_tag]
    rfl
  · have hsplit := congrArg dataSize (List.take_append_drop (keysPerBlock * s.data.numKeys) es)
    rw [dataSize_append] at hsplit
    rw [← List.map_drop, tagBytes_map_tag, hw.logOffset_eq, hw.redoBlockOffset_eq,
      ← hw.numKeys_eq, keybPos, dataPos, ← hw.numKeys_eq, List.take_length, Nat.mul_succ,
      List.length_nil]
    omega
  · intro k hk
    refine ⟨_, h.stored.keyb_holds k (lt_of_lt_of_le (by rw [← hw.numKeys_eq]; exact hk) h.le_n),
      fun j hj => ?_⟩
    rw [RedoBlock.remark_tag _ _ _ hj, keybOf_tag crc es k hj]
    split_ifs
    · exact RedoBlockTag.marked_size _
    · rfl
  · intro j hj
    have hlt : j < keysPerBlock := by
      rw [hw.keysInBlock_eq] at hj
      exact lt_trans hj (Nat.mod_lt _ (by decide))
    have hblock := @keybOf_tag crc es s.data.numKeys j hlt
    rw [RedoBlock.tag, keybOf_tags] at hblock
    rw [RedoBlock.tag, hw.keyb_tags, ← hw.numKeys_eq]
    exact hblock

end Layout

/-- **The layout of the log** after every session on a fresh log whose calls all succeed: the
header, the key blocks and the buffers have their own places, and nothing is written over
another of them. -/
theorem log_layout {crc : Bytes → UInt32} {w : World} {s₀ : State} (h : FreshlyOpened crc w s₀)
    {cs : List Call} (hok : Succeed crc cs s₀) :
    LogLayout (entriesOf crc cs s₀) s₀ (runCalls crc cs s₀) := by
  obtain ⟨⟨M, n, hsession⟩, hwrites⟩ := h.session.1.run hok
  rw [List.nil_append] at hsession hwrites
  exact hsession.logLayout hwrites

theorem succeed_of_logging {crc : Bytes → UInt32} {cs : List Call} (hcs : ∀ c ∈ cs, c.Logging)
    {s : State} (h : s.world.outcomes = []) : Succeed crc cs s := by
  induction cs generalizing s with
  | nil => trivial
  | cons c cs ih =>
      have hc : c.Logging := hcs c List.mem_cons_self
      refine ⟨?_, ih (fun c' hc' => hcs c' (List.mem_cons_of_mem c hc'))
        (hc.run_dev crc h 0).2.2⟩
      cases c with
      | txnBegin => rw [Call.run, rfsckTxnBegin_eq crc h]
      | write req => rw [Call.run, rfsckWrite_eq crc h hc]
      | txnEnd => rw [Call.run, rfsckTxnEnd_eq crc h]
      | flush => rw [Call.run, rfsckFlush_eq crc h]
      | markDone done => rw [Call.run, redoMarkDone_eq crc h]
      | replay sync => exact hc.elim

/-- A transaction with one write of one byte, and the marking of the log. -/
def oneByteTxn : List Call :=
  [.txnBegin, .write ⟨0, [7], by decide⟩, .txnEnd, .markDone true]

theorem log_layout_oneByteTxn :
    LogLayout (entriesOf crc32c oneByteTxn (blankState crc32c)) (blankState crc32c)
      (runCalls crc32c oneByteTxn (blankState crc32c)) := by
  refine log_layout (blankState_freshlyOpened crc32c) (succeed_of_logging ?_
    (blankState_freshlyOpened crc32c).session.1.outcomes_nil)
  intro c hc
  simp only [oneByteTxn, List.mem_cons, List.not_mem_nil, or_false] at hc
  rcases hc with rfl | rfl | rfl | rfl
  · trivial
  · exact show 1 ≤ maxRwCount by decide
  · trivial
  · trivial

end Redo
end Rfsck
