import Rfsck.Redo.FinishedLog

/-!
# A session of library calls

What the calls of the library do to the log when every system call succeeds.

* Each call is an equation: a few steps `putKeyb`, `logTag`, `putHeader` and
  `syncRedo` (`rfsckTxnBegin_eq`, ..., `redoMarkDone_eq`).
* `Session crc es M n s` relates the state to the log it has written: the entries
  `es`, the marks `M`, and the number `n` of key blocks that are in the file.
* Every call keeps the relation, with the entries it adds and the marks it sets or
  overwrites (`Session.txnBegin`, ..., `Session.replay`).
-/

namespace Rfsck
namespace Redo

open Storage

section Calls

variable (crc : Bytes → UInt32)

namespace State

/-- The current key block is stamped and written. -/
def putKeyb (s : State) : State :=
  { s with
    data.keyb := s.data.keyb.stamp crc
    world := s.world.push
      (.pwrite .redo s.data.redoBlockOffset (s.data.keyb.stamp crc).encode) }

/-- `fsync` of the log. -/
def syncRedo (s : State) : State :=
  { s with world := s.world.push (.fsync .redo) }

/-- A tag is put into the next slot, the key block is written, and a new one is
started when it is full. -/
def logTag (t : RedoBlockTag) (s : State) : State :=
  let keyb := { s.data.keyb.setTag s.data.keysInBlock t with reserved := 0 }.stamp crc
  rollKeyb { s with
    data.keyb := keyb
    data.keysInBlock := s.data.keysInBlock + 1
    world := s.world.push (.pwrite .redo s.data.redoBlockOffset keyb.encode) }

/-- The header that `redo_mark_done` writes. -/
def doneHeader (done : Bool) (s : State) : RedoHeader :=
  sealHeader crc { s.data.hdr with
    numKeys := UInt64.ofNat s.data.numKeys
    state := if done then e2redoStateFinished else 0 }

/-- The header is completed and written. -/
def putHeader (done : Bool) (s : State) : State :=
  { s with
    data.hdr := s.doneHeader crc done
    world := s.world.push (.pwrite .redo 0 (s.doneHeader crc done).encode) }

/-- The data of a write go to the end of the log. -/
def putData (buf : Bytes) (s : State) : State :=
  { s with
    data.logOffset := s.data.logOffset + buf.length
    world := s.world.push (.pwrite .redo s.data.logOffset buf) }

end State

namespace RedoPrivateData

/-- The begin tag of the next transaction. -/
def beginTag (d : RedoPrivateData) : RedoBlockTag where
  offset := 0
  size := 0
  blkCrc := d.txnId

def endCsum (d : RedoPrivateData) : UInt32 :=
  d.txnCsum ^^^ crc d.beginTag.encode

def endTag (d : RedoPrivateData) : RedoBlockTag :=
  { d.beginTag with offset := (d.endCsum crc).toUInt64 }

end RedoPrivateData

theorem length_encode_le_maxRwCount (kb : RedoBlock) : kb.encode.length ≤ maxRwCount := by
  rw [RedoBlock.length_encode]
  exact redoLogBlockSize_le_maxRwCount

theorem writeKeyb_eq
    {s : State} (h : s.world.outcomes = []) :
    writeKeyb s =
      (0, { s with
        world := s.world.push
          (.pwrite .redo s.data.redoBlockOffset s.data.keyb.encode) }) := by
  exact writeInfo_plain h .redo _ (length_encode_le_maxRwCount _)

theorem rollKeyb_world (s : State) : (rollKeyb s).world = s.world := by
  unfold rollKeyb
  split_ifs <;> rfl

theorem rollKeyb_hdr (s : State) : (rollKeyb s).data.hdr = s.data.hdr := by
  unfold rollKeyb
  split_ifs <;> rfl

theorem rollKeyb_devFd (s : State) : (rollKeyb s).data.devFd = s.data.devFd := by
  unfold rollKeyb
  split_ifs <;> rfl

theorem rollKeyb_txn (s : State) :
    (rollKeyb s).data.txnId = s.data.txnId ∧ (rollKeyb s).data.txnCsum = s.data.txnCsum := by
  unfold rollKeyb
  split_ifs <;> exact ⟨rfl, rfl⟩

theorem rollKeyb_txnCsum (s : State) (csum : UInt32) :
    { rollKeyb s with data.txnCsum := csum } =
      rollKeyb { s with data.txnCsum := csum } := by
  unfold rollKeyb
  dsimp only
  split_ifs <;> rfl

theorem rfsckFlush_eq
    {s : State} (h : s.world.outcomes = []) :
    rfsckFlush crc s = (0, (s.putKeyb crc).syncRedo) := by
  unfold rfsckFlush
  dsimp only
  rw [writeKeyb_eq]
  · dsimp only
    rw [World.fsync_of_outcomes_nil]
    · rfl
    · exact h
  · exact h

theorem rfsckTxnBegin_eq
    {s : State} (h : s.world.outcomes = []) :
    rfsckTxnBegin crc 0 s =
      (0, State.logTag crc s.data.beginTag
        { s with data.txnCsum := txnChksmCnst ^^^ crc s.data.beginTag.encode }) := by
  unfold rfsckTxnBegin
  dsimp only
  rw [writeKeyb_eq]
  · rfl
  · exact h

theorem rfsckWrite_eq
    {s : State} (h : s.world.outcomes = []) {req : WriteReq} (hreq : req.Whole) :
    rfsckWrite crc req s =
      (0, State.logTag crc (req.tag crc) (State.putData req.buf
        { s with data.txnCsum := s.data.txnCsum ^^^ crc (req.tag crc).encode })) := by
  unfold rfsckWrite
  dsimp only
  rw [writeInfo_counted _ _ _ hreq]
  · dsimp only
    rw [writeKeyb_eq]
    · rfl
    · exact h
  · exact h

theorem rfsckTxnEnd_eq
    {s : State} (h : s.world.outcomes = []) :
    rfsckTxnEnd crc s =
      (0, (State.putKeyb crc (State.logTag crc (s.data.endTag crc)
        { s with
          data.txnId := s.data.txnId + 1
          data.txnCsum := 0 })).syncRedo) := by
  unfold rfsckTxnEnd
  dsimp only
  rw [writeKeyb_eq]
  · dsimp only
    rw [rfsckFlush_eq]
    · rw [rollKeyb_txnCsum]
      rfl
    · rw [rollKeyb_txnCsum, rollKeyb_world]
      exact h
  · exact h

theorem redoMarkDone_eq
    {s : State} (h : s.world.outcomes = []) (done : Bool) :
    redoMarkDone crc done s =
      (0, (State.putKeyb crc (State.putHeader crc done
        (State.putKeyb crc (s.putKeyb crc)).syncRedo)).syncRedo) := by
  unfold redoMarkDone
  dsimp only
  rw [writeKeyb_eq]
  · dsimp only
    rw [rfsckFlush_eq]
    · dsimp only
      rw [writeInfo_plain]
      · dsimp only
        rw [rfsckFlush_eq]
        · rfl
        · exact h
      · exact h
      · rw [RedoHeader.length_encode]
        exact redoHeaderSize_le_maxRwCount
    · exact h
  · exact h

end Calls

section Frames

variable (crc : Bytes → UInt32)

theorem logTag_world (t : RedoBlockTag) (s : State) :
    (s.logTag crc t).world =
      s.world.push (.pwrite .redo s.data.redoBlockOffset
        (RedoBlock.stamp crc
          { s.data.keyb.setTag s.data.keysInBlock t with reserved := 0 }).encode) := by
  exact rollKeyb_world _

theorem file_dev_push_redo (w : World) (fd off : Nat) (buf : Bytes) :
    (w.push (.pwrite .redo off buf)).file (.dev fd) = w.file (.dev fd) := by
  rw [World.file_push, applyEvent_pwrite_other (by simp)]

@[simp] theorem logTag_dev (t : RedoBlockTag) (s : State) (fd : Nat) :
    (s.logTag crc t).world.file (.dev fd) = s.world.file (.dev fd) := by
  rw [logTag_world, file_dev_push_redo]

@[simp] theorem putKeyb_dev (s : State) (fd : Nat) :
    (s.putKeyb crc).world.file (.dev fd) = s.world.file (.dev fd) := by
  exact file_dev_push_redo _ _ _ _

@[simp] theorem putHeader_dev (done : Bool) (s : State) (fd : Nat) :
    (s.putHeader crc done).world.file (.dev fd) = s.world.file (.dev fd) := by
  exact file_dev_push_redo _ _ _ _

@[simp] theorem putData_dev (buf : Bytes) (s : State) (fd : Nat) :
    (s.putData buf).world.file (.dev fd) = s.world.file (.dev fd) := by
  exact file_dev_push_redo _ _ _ _

@[simp] theorem syncRedo_dev (s : State) (fd : Nat) :
    s.syncRedo.world.file (.dev fd) = s.world.file (.dev fd) := by
  rw [State.syncRedo, World.file_push, applyEvent_fsync]

/-- The calls that only write the log, with writes of one system call. -/
def Call.Logging : Call → Prop
  | .replay _ => False
  | .write req => req.Whole
  | _ => True

theorem Call.Logging.run_dev
    {c : Call} (hc : c.Logging) {s : State} (h : s.world.outcomes = []) (fd : Nat) :
    (c.run crc s).2.data.devFd = s.data.devFd ∧
      (c.run crc s).2.world.file (.dev fd) = s.world.file (.dev fd) ∧
      (c.run crc s).2.world.outcomes = [] := by
  cases c with
  | txnBegin =>
      rw [Call.run, rfsckTxnBegin_eq crc h]
      exact ⟨rollKeyb_devFd _, by rw [logTag_dev], by rw [logTag_world]; exact h⟩
  | write req =>
      rw [Call.run, rfsckWrite_eq crc h hc]
      exact ⟨rollKeyb_devFd _, by rw [logTag_dev, putData_dev], by rw [logTag_world]; exact h⟩
  | txnEnd =>
      rw [Call.run, rfsckTxnEnd_eq crc h]
      refine ⟨rollKeyb_devFd _, by rw [syncRedo_dev, putKeyb_dev, logTag_dev], ?_⟩
      rw [State.syncRedo, State.putKeyb]
      dsimp only [World.push]
      rw [logTag_world]
      exact h
  | flush =>
      rw [Call.run, rfsckFlush_eq crc h]
      exact ⟨rfl, by rw [syncRedo_dev, putKeyb_dev], h⟩
  | markDone done =>
      rw [Call.run, redoMarkDone_eq crc h]
      refine ⟨rfl, ?_, h⟩
      rw [syncRedo_dev, putKeyb_dev, putHeader_dev, syncRedo_dev, putKeyb_dev, putKeyb_dev]
  | replay sync =>
      exact hc.elim

theorem runCalls_dev
    {cs : List Call} (hcs : ∀ c ∈ cs, c.Logging) {s : State} (h : s.world.outcomes = [])
    (fd : Nat) :
    (runCalls crc cs s).data.devFd = s.data.devFd ∧
      (runCalls crc cs s).world.file (.dev fd) = s.world.file (.dev fd) := by
  induction cs generalizing s with
  | nil =>
      exact ⟨rfl, rfl⟩
  | cons c cs ih =>
      obtain ⟨h1, h2, h3⟩ := (hcs c (by simp)).run_dev crc h fd
      obtain ⟨h4, h5⟩ := ih (fun d hd => hcs d (List.mem_cons_of_mem c hd)) h3
      exact ⟨h4.trans h1, h5.trans h2⟩

theorem rfsckTxnBegin_txnId {s : State} (h : s.world.outcomes = []) :
    (rfsckTxnBegin crc 0 s).2.data.txnId = s.data.txnId := by
  rw [rfsckTxnBegin_eq crc h]
  exact (rollKeyb_txn _).1

theorem rfsckWrite_txnId {s : State} (h : s.world.outcomes = []) {req : WriteReq}
    (hreq : req.Whole) :
    (rfsckWrite crc req s).2.data.txnId = s.data.txnId := by
  rw [rfsckWrite_eq crc h hreq]
  exact (rollKeyb_txn _).1

theorem redoMarkDone_hdr {s : State} (h : s.world.outcomes = []) (done : Bool) :
    (redoMarkDone crc done s).2.data.hdr = s.doneHeader crc done ∧
      (redoMarkDone crc done s).2.data.txnId = s.data.txnId ∧
      (redoMarkDone crc done s).2.data.numKeys = s.data.numKeys := by
  rw [redoMarkDone_eq crc h]
  exact ⟨rfl, rfl, rfl⟩

end Frames

/-- The fields of `redo_data` after the entries `es`, when `pending` bytes of the
next one are in the log already. -/
structure WriterAt (es : List Entry) (pending : Nat) (d : RedoPrivateData) : Prop where
  numKeys_eq : d.numKeys = es.length / keysPerBlock
  keysInBlock_eq : d.keysInBlock = es.length % keysPerBlock
  redoBlockOffset_eq : d.redoBlockOffset = keybPos es (es.length / keysPerBlock)
  logOffset_eq : d.logOffset = dataPos es es.length + pending
  keyb_tags : d.keyb.tags =
    slice (tagOf es) (keysPerBlock * (es.length / keysPerBlock)) keysPerBlock
  keyb_reserved : d.keyb.reserved = 0

section Writer

variable {crc : Bytes → UInt32}

theorem WriterAt.congr
    {es : List Entry} {pending : Nat} {d d' : RedoPrivateData}
    (h : WriterAt es pending d) (hd : d'.idle = d.idle) :
    WriterAt es pending d' := by
  have hidle : WriterAt es pending d.idle := ⟨h.1, h.2, h.3, h.4, h.5, h.6⟩
  rw [← hd] at hidle
  exact ⟨hidle.1, hidle.2, hidle.3, hidle.4, hidle.5, hidle.6⟩

theorem WriterAt.stamp_keyb
    {es : List Entry} {pending : Nat} {d : RedoPrivateData}
    (h : WriterAt es pending d) :
    d.keyb.stamp crc = keybOf crc es (es.length / keysPerBlock) := by
  exact RedoBlock.stamp_congr crc h.keyb_tags h.keyb_reserved

theorem WriterAt.stamp_setTag
    {es : List Entry} {pending : Nat} {d : RedoPrivateData}
    (h : WriterAt es pending d) (e : Entry) :
    RedoBlock.stamp crc { d.keyb.setTag d.keysInBlock e.tag with reserved := 0 } =
      keybOf crc (es ++ [e]) (es.length / keysPerBlock) := by
  refine RedoBlock.stamp_congr crc ?_ rfl
  have hlen : keysPerBlock * (es.length / keysPerBlock) + es.length % keysPerBlock =
      es.length := Nat.div_add_mod _ _
  change d.keyb.tags.set d.keysInBlock e.tag = _
  rw [h.keyb_tags, h.keysInBlock_eq, slice_set, hlen, ← tagOf_snoc]
  rfl

theorem WriterAt.logTag
    {es : List Entry} {e : Entry} {s : State}
    (h : WriterAt es e.data.length s.data) :
    WriterAt (es ++ [e]) 0 (s.logTag crc e.tag).data := by
  have hlen : (es ++ [e]).length = es.length + 1 := by
    simp
  have hcur : keysPerBlock * (es.length / keysPerBlock) ≤ es.length := Nat.mul_div_le _ _
  unfold State.logTag rollKeyb
  dsimp only
  rw [h.stamp_setTag e, h.keysInBlock_eq, h.logOffset_eq, h.redoBlockOffset_eq, h.numKeys_eq]
  by_cases hroll : es.length % keysPerBlock + 1 = keysPerBlock
  · have hdiv : (es.length + 1) / keysPerBlock = es.length / keysPerBlock + 1 := by
      simp only [keysPerBlock_eq] at *
      omega
    have hmod : (es.length + 1) % keysPerBlock = 0 := by
      simp only [keysPerBlock_eq] at *
      omega
    have hfull : keysPerBlock * (es.length / keysPerBlock + 1) = es.length + 1 := by
      simp only [keysPerBlock_eq] at *
      omega
    have hgap : gap (es.length + 1) = redoLogBlockSize := by
      rw [gap, if_pos hmod]
    rw [if_pos hroll]
    refine {
      numKeys_eq := ?_
      keysInBlock_eq := ?_
      redoBlockOffset_eq := ?_
      logOffset_eq := ?_
      keyb_tags := ?_
      keyb_reserved := rfl }
    · rw [hlen, hdiv]
    · rw [hlen, hmod]
    · rw [hlen, hdiv, keybPos_snoc es e hfull]
    · rw [hlen, dataPos_snoc, hgap]
      exact (Nat.add_zero _).symm
    · rw [hlen, hdiv, hfull, slice_tagOf_of_le _ (by omega)]
      rfl
  · have hdiv : (es.length + 1) / keysPerBlock = es.length / keysPerBlock := by
      simp only [keysPerBlock_eq] at *
      omega
    have hmod : (es.length + 1) % keysPerBlock = es.length % keysPerBlock + 1 := by
      simp only [keysPerBlock_eq] at *
      omega
    have hgap : gap (es.length + 1) = 0 := by
      rw [gap, if_neg (by omega)]
    rw [if_neg hroll]
    refine {
      numKeys_eq := ?_
      keysInBlock_eq := ?_
      redoBlockOffset_eq := ?_
      logOffset_eq := ?_
      keyb_tags := ?_
      keyb_reserved := rfl }
    · rw [hlen, hdiv]
    · rw [hlen, hmod]
    · rw [hlen, hdiv, keybPos_append es [e] hcur]
    · rw [hlen, dataPos_snoc, hgap]
      exact (Nat.add_zero _).symm
    · rw [hlen, hdiv]
      rfl

end Writer

/-- **The session relation.**  The log of the state `s` has the entries `es`; its
file holds the first `n` key blocks with the marks `M`, and the data `pending` of
an entry that is not yet logged. -/
structure Session
    (crc : Bytes → UInt32) (es : List Entry) (M : List Nat) (n : Nat)
    (pending : Bytes) (s : State) : Prop where
  writer : WriterAt es pending.length s.data
  stored : Stored crc es M n (s.world.file .redo)
  pending_holds : (s.world.file .redo).Holds (dataPos es es.length) pending
  whole : ∀ e ∈ es, e.data.length ≤ maxRwCount
  le_n : es.length / keysPerBlock ≤ n
  n_le : n ≤ es.length / keysPerBlock + 1
  marks_edge : ∀ m ∈ M, (tagOf es m).IsEdge
  header_holds : (s.world.file .redo).Holds 0 s.data.hdr.encode
  header_crc : s.data.hdr.headerCrc = s.data.hdr.checksum crc
  header_keyOffset : s.data.hdr.keyOffset.toNat = redoHeaderSize
  header_covers : s.data.hdr.state = e2redoStateFinished → s.data.hdr.numKeys.toNat < n
  outcomes_nil : s.world.outcomes = []

section Steps

variable {crc : Bytes → UInt32}
variable {es : List Entry} {M : List Nat} {n : Nat} {pending : Bytes} {s : State}

theorem RedoBlockTag.IsEdge.lt_length
    {es : List Entry} {m : Nat} (h : (tagOf es m).IsEdge) : m < es.length := by
  by_contra hle
  rw [tagOf_of_le es (by omega)] at h
  exact h.2 rfl

theorem Session.congr
    (h : Session crc es M n pending s) {s' : State}
    (hd : s'.data.idle = s.data.idle) (hw : s'.world = s.world) :
    Session crc es M n pending s' := by
  have hhdr := RedoPrivateData.hdr_of_idle hd
  refine {
    writer := h.writer.congr hd
    stored := ?_
    pending_holds := ?_
    whole := h.whole
    le_n := h.le_n
    n_le := h.n_le
    marks_edge := h.marks_edge
    header_holds := ?_
    header_crc := ?_
    header_keyOffset := ?_
    header_covers := ?_
    outcomes_nil := ?_ }
  · rw [hw]
    exact h.stored
  · rw [hw]
    exact h.pending_holds
  · rw [hw, hhdr]
    exact h.header_holds
  · rw [hhdr]
    exact h.header_crc
  · rw [hhdr]
    exact h.header_keyOffset
  · rw [hhdr]
    exact h.header_covers
  · rw [hw]
    exact h.outcomes_nil

theorem Session.of_file
    (h : Session crc es M n pending s) {w : World}
    (hfile : w.file .redo = s.world.file .redo) (hout : w.outcomes = []) :
    Session crc es M n pending { s with world := w } := by
  refine { h with
    stored := ?_
    pending_holds := ?_
    header_holds := ?_
    outcomes_nil := hout }
  · rw [hfile]
    exact h.stored
  · rw [hfile]
    exact h.pending_holds
  · rw [hfile]
    exact h.header_holds

theorem Session.push_other
    (h : Session crc es M n pending s) {e : Event Fd}
    (he : ∀ f, applyEvent .redo f e = f) :
    Session crc es M n pending { s with world := s.world.push e } := by
  refine h.of_file ?_ h.outcomes_nil
  rw [World.file_push, he]

theorem Session.syncRedo (h : Session crc es M n pending s) :
    Session crc es M n pending s.syncRedo := by
  exact h.push_other (fun _ => rfl)

theorem Session.putKeyb (h : Session crc es M n [] s) :
    Session crc es (clearMarks (es.length / keysPerBlock) M)
      (es.length / keysPerBlock + 1) [] (s.putKeyb crc) := by
  have hfile : (s.putKeyb crc).world.file .redo =
      (s.world.file .redo).pwrite (keybPos es (es.length / keysPerBlock))
        ((keybOf crc es (es.length / keysPerBlock)).remark
          (es.length / keysPerBlock) []).encode := by
    rw [State.putKeyb, World.file_push, applyEvent_pwrite_self, h.writer.stamp_keyb,
      h.writer.redoBlockOffset_eq, RedoBlock.remark_nil]
  refine {
    writer := ?_
    stored := ?_
    pending_holds := ByteFile.holds_nil _ _
    whole := h.whole
    le_n := Nat.le_succ _
    n_le := le_refl _
    marks_edge := fun m hm => h.marks_edge m (mem_of_mem_clearMarks hm)
    header_holds := ?_
    header_crc := h.header_crc
    header_keyOffset := h.header_keyOffset
    header_covers := fun hf => lt_of_lt_of_le (h.header_covers hf) h.n_le
    outcomes_nil := h.outcomes_nil }
  · exact ⟨h.writer.1, h.writer.2, h.writer.3, h.writer.4, h.writer.5, h.writer.6⟩
  · rw [hfile]
    have hput := h.stored.pwrite_keyb h.le_n []
    rwa [max_eq_right h.n_le, overrideMarks_nil] at hput
  · rw [hfile]
    refine h.header_holds.pwrite_of_disjoint (Or.inl ?_)
    rw [RedoHeader.length_encode, Nat.zero_add]
    exact header_le_keybPos _ _

theorem Session.putHeader
    (h : Session crc es M (es.length / keysPerBlock + 1) [] s) (done : Bool) :
    Session crc es M (es.length / keysPerBlock + 1) [] (s.putHeader crc done) := by
  have hfile : (s.putHeader crc done).world.file .redo =
      (s.world.file .redo).pwrite 0 (s.doneHeader crc done).encode := by
    rw [State.putHeader, World.file_push, applyEvent_pwrite_self]
  refine {
    writer := ?_
    stored := ?_
    pending_holds := ByteFile.holds_nil _ _
    whole := h.whole
    le_n := h.le_n
    n_le := h.n_le
    marks_edge := h.marks_edge
    header_holds := ?_
    header_crc := rfl
    header_keyOffset := h.header_keyOffset
    header_covers := ?_
    outcomes_nil := h.outcomes_nil }
  · exact ⟨h.writer.1, h.writer.2, h.writer.3, h.writer.4, h.writer.5, h.writer.6⟩
  · rw [hfile]
    exact h.stored.pwrite_header (RedoHeader.length_encode _)
  · rw [hfile]
    exact (s.world.file .redo).holds_pwrite_self _ _
  · intro _
    have hkeys : (s.putHeader crc done).data.hdr.numKeys = UInt64.ofNat s.data.numKeys := rfl
    rw [hkeys, h.writer.numKeys_eq, UInt64.toNat_ofNat']
    exact Nat.lt_succ_of_le (Nat.mod_le _ _)

theorem Session.putData (h : Session crc es M n [] s) (buf : Bytes) :
    Session crc es M n buf (s.putData buf) := by
  have hoff := h.writer.logOffset_eq
  rw [List.length_nil, Nat.add_zero] at hoff
  have hfile : (s.putData buf).world.file .redo =
      (s.world.file .redo).pwrite (dataPos es es.length) buf := by
    rw [State.putData, World.file_push, applyEvent_pwrite_self, hoff]
  refine {
    writer := ?_
    stored := ?_
    pending_holds := ?_
    whole := h.whole
    le_n := h.le_n
    n_le := h.n_le
    marks_edge := h.marks_edge
    header_holds := ?_
    header_crc := h.header_crc
    header_keyOffset := h.header_keyOffset
    header_covers := h.header_covers
    outcomes_nil := h.outcomes_nil }
  · refine ⟨h.writer.1, h.writer.2, h.writer.3, ?_, h.writer.5, h.writer.6⟩
    simp only [State.putData, hoff]
  · rw [hfile]
    exact h.stored.pwrite_data h.n_le buf
  · rw [hfile]
    exact (s.world.file .redo).holds_pwrite_self _ _
  · rw [hfile]
    refine h.header_holds.pwrite_of_disjoint (Or.inl ?_)
    rw [RedoHeader.length_encode, Nat.zero_add]
    exact header_le_dataPos _ _

theorem Session.logTag
    {e : Entry} (h : Session crc es M n e.data s) (he : e.data.length ≤ maxRwCount) :
    Session crc (es ++ [e]) (clearMarks (es.length / keysPerBlock) M)
      (es.length / keysPerBlock + 1) [] (s.logTag crc e.tag) := by
  have hfile : (s.logTag crc e.tag).world.file .redo =
      (s.world.file .redo).pwrite (keybPos es (es.length / keysPerBlock))
        (keybOf crc (es ++ [e]) (es.length / keysPerBlock)).encode := by
    rw [State.logTag, rollKeyb_world, World.file_push, applyEvent_pwrite_self,
      h.writer.stamp_setTag e, h.writer.redoBlockOffset_eq]
  have hhdr : (s.logTag crc e.tag).data.hdr = s.data.hdr := rollKeyb_hdr _
  have hlen : (es ++ [e]).length = es.length + 1 := by
    simp
  refine {
    writer := h.writer.logTag
    stored := ?_
    pending_holds := ByteFile.holds_nil _ _
    whole := ?_
    le_n := ?_
    n_le := ?_
    marks_edge := ?_
    header_holds := ?_
    header_crc := ?_
    header_keyOffset := ?_
    header_covers := ?_
    outcomes_nil := ?_ }
  · rw [hfile]
    exact h.stored.append h.le_n h.pending_holds
  · intro e' he'
    rcases List.mem_append.mp he' with he' | he'
    · exact h.whole e' he'
    · rw [List.mem_singleton.mp he']
      exact he
  · rw [hlen]
    simp only [keysPerBlock_eq]
    omega
  · rw [hlen]
    simp only [keysPerBlock_eq]
    omega
  · intro m hm
    have hedge := h.marks_edge m (mem_of_mem_clearMarks hm)
    rw [tagOf_append_left es [e] hedge.lt_length]
    exact hedge
  · rw [hfile, hhdr]
    refine h.header_holds.pwrite_of_disjoint (Or.inl ?_)
    rw [RedoHeader.length_encode, Nat.zero_add]
    exact header_le_keybPos _ _
  · rw [hhdr]
    exact h.header_crc
  · rw [hhdr]
    exact h.header_keyOffset
  · rw [hhdr]
    exact fun hf => lt_of_lt_of_le (h.header_covers hf) h.n_le
  · rw [State.logTag, rollKeyb_world]
    exact h.outcomes_nil

/-- The entry of a write. -/
def WriteReq.entry (crc : Bytes → UInt32) (req : WriteReq) : Entry where
  tag := req.tag crc
  data := req.buf
  size_eq := UInt32.toNat_ofNat_of_lt' req.size_lt

theorem Session.txnBegin (h : Session crc es M n [] s) :
    Session crc (es ++ [Entry.edge 0 s.data.txnId])
      (clearMarks (es.length / keysPerBlock) M) (es.length / keysPerBlock + 1) []
      (rfsckTxnBegin crc 0 s).2 := by
  rw [rfsckTxnBegin_eq crc h.outcomes_nil]
  have hstep : Session crc es M n (Entry.edge 0 s.data.txnId).data
      { s with data.txnCsum := txnChksmCnst ^^^ crc s.data.beginTag.encode } :=
    h.congr rfl rfl
  exact hstep.logTag (Nat.zero_le _)

theorem Session.write (h : Session crc es M n [] s) {req : WriteReq} (hreq : req.Whole) :
    Session crc (es ++ [req.entry crc])
      (clearMarks (es.length / keysPerBlock) M) (es.length / keysPerBlock + 1) []
      (rfsckWrite crc req s).2 := by
  rw [rfsckWrite_eq crc h.outcomes_nil hreq]
  have hstep : Session crc es M n []
      { s with data.txnCsum := s.data.txnCsum ^^^ crc (req.tag crc).encode } :=
    h.congr rfl rfl
  have hdata : Session crc es M n (req.entry crc).data
      (State.putData req.buf
        { s with data.txnCsum := s.data.txnCsum ^^^ crc (req.tag crc).encode }) :=
    hstep.putData req.buf
  exact hdata.logTag hreq

theorem Session.txnEnd (h : Session crc es M n [] s) :
    Session crc (es ++ [Entry.edge (s.data.endCsum crc).toUInt64 s.data.txnId])
      (clearMarks ((es.length + 1) / keysPerBlock) (clearMarks (es.length / keysPerBlock) M))
      ((es.length + 1) / keysPerBlock + 1) []
      (rfsckTxnEnd crc s).2 := by
  rw [rfsckTxnEnd_eq crc h.outcomes_nil]
  have hstep : Session crc es M n
      (Entry.edge (s.data.endCsum crc).toUInt64 s.data.txnId).data
      { s with
        data.txnId := s.data.txnId + 1
        data.txnCsum := 0 } :=
    h.congr rfl rfl
  have hput := (hstep.logTag (Nat.zero_le _)).putKeyb.syncRedo
  rw [List.length_append, List.length_singleton] at hput
  exact hput

theorem Session.flush (h : Session crc es M n [] s) :
    Session crc es (clearMarks (es.length / keysPerBlock) M)
      (es.length / keysPerBlock + 1) [] (rfsckFlush crc s).2 := by
  rw [rfsckFlush_eq crc h.outcomes_nil]
  exact h.putKeyb.syncRedo

theorem clearMarks_clearMarks (k : Nat) (M : List Nat) :
    clearMarks k (clearMarks k M) = clearMarks k M := by
  simp [clearMarks, List.filter_filter]

theorem Session.markDone (h : Session crc es M n [] s) (done : Bool) :
    Session crc es (clearMarks (es.length / keysPerBlock) M)
      (es.length / keysPerBlock + 1) [] (redoMarkDone crc done s).2 := by
  rw [redoMarkDone_eq crc h.outcomes_nil]
  have hput := ((h.putKeyb.putKeyb.syncRedo).putHeader done).putKeyb.syncRedo
  rw [clearMarks_clearMarks, clearMarks_clearMarks] at hput
  exact hput

theorem Session.finishedLog
    (h : Session crc es M n pending s) (hf : s.data.hdr.state = e2redoStateFinished) :
    FinishedLog crc es M s.data.hdr (s.world.file .redo) := by
  exact {
    stored := h.stored.mono (h.header_covers hf)
    whole := h.whole
    header_holds := h.header_holds
    finished := ⟨h.header_crc, hf⟩
    keyOffset_eq := h.header_keyOffset }

theorem Session.header_eq (h : Session crc es M n pending s) :
    s.world.header = s.data.hdr := by
  exact World.header_of_holds h.header_holds

theorem Session.finished_iff (h : Session crc es M n pending s) :
    s.world.header.Finished crc ↔ s.data.hdr.state = e2redoStateFinished := by
  rw [h.header_eq]
  constructor
  · intro hf
    exact hf.2
  · intro hs
    exact ⟨h.header_crc, hs⟩

theorem Session.visited_le
    (h : Session crc es M n pending s) (hf : s.data.hdr.state = e2redoStateFinished) :
    s.data.hdr.visited ≤ n := by
  have hlt := h.header_covers hf
  rw [RedoHeader.visited]
  omega

end Steps

end Redo
end Rfsck
