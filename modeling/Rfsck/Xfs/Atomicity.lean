import Rfsck.Xfs.Repair

/-!
# Power failures in the transaction of `xfs_repair`

The key block is written again with every tag, in place, and the first flush of the log is
the one of `rfsck_txn_end`.  A failure before it may lose any of the writes: of data, of key
blocks, and of the header.

* `trace_txn` lists the system calls of a transaction.
* `FirstBlock` is what the medium of the log holds whenever the power fails: the header or
  zeros, and one version of the first key block or zeros.
* `repair_atomic`: the next `rfsck_open` applies all of the transaction or nothing, if the
  data are on the medium whenever the key block with the end tag is, and if memory that is
  not initialised does not look like a header or a key block.
* `repair_not_atomic`: otherwise the device gets bytes that nobody wrote.
-/

namespace Rfsck
namespace Xfs

open Storage
open Redo

section Traces

variable {crc : Bytes → UInt32} {es : List Entry} {n : Nat} {s : State}

/-- The system calls that log writes behind the entries `es`. -/
def writeEvents (crc : Bytes → UInt32) : List Entry → List Entry → List (Event Fd)
  | _, [] => []
  | es, e :: rest =>
      .pwrite .redo (dataPos es es.length) e.data :: tagEvent crc es e ::
        writeEvents crc (es ++ [e]) rest

/-- The system calls of a transaction behind the entries `es`. -/
def txnEvents (crc : Bytes → UInt32) (es : List Entry) (id : UInt32) (ws : Txn) :
    List (Event Fd) :=
  tagEvent crc es (Entry.edge 0 id) ::
    (writeEvents crc (es ++ [Entry.edge 0 id]) (ws.map (WriteReq.entry crc)) ++
      [tagEvent crc (es ++ openEntries crc id ws) (Entry.edge (txnCsum crc id ws).toUInt64 id),
        keybEvent crc (es ++ txnEntries crc id ws), .fsync .redo])

theorem trace_writes (h : Session crc es [] n [] s) {ws : Txn} (hws : ws.Proper) :
    (runCalls crc (ws.map Call.write) s).world.trace =
      s.world.trace ++ writeEvents crc es (ws.map (WriteReq.entry crc)) := by
  induction ws generalizing es n s with
  | nil =>
      exact (List.append_nil _).symm
  | cons req ws ih =>
      obtain ⟨_, hwhole⟩ := hws req (by simp)
      have hstep : Session crc es [] n []
          { s with data.txnCsum := s.data.txnCsum ^^^ crc (req.tag crc).encode } :=
        h.congr rfl rfl
      have hdata : Session crc es [] n (req.entry crc).data
          (State.putData req.buf
            { s with data.txnCsum := s.data.txnCsum ^^^ crc (req.tag crc).encode }) :=
        hstep.putData req.buf
      have htrace := hdata.logTag_trace
      have hoff := h.writer.logOffset_eq
      rw [List.length_nil, Nat.add_zero] at hoff
      rw [State.putData, World.push_trace] at htrace
      have hwrite : (rfsckWrite crc req s).2.world.trace = s.world.trace ++
          [.pwrite .redo (dataPos es es.length) req.buf] ++
            [tagEvent crc es (req.entry crc)] := by
        rw [rfsckWrite_eq crc h.outcomes_nil hwhole, ← hoff]
        exact htrace
      have hnext := h.write hwhole
      rw [clearMarks_nil] at hnext
      have hrest := ih hnext (fun r hr => hws r (List.mem_cons_of_mem req hr))
      rw [List.map_cons, runCalls_cons]
      refine hrest.trans ?_
      rw [hwrite, List.map_cons, writeEvents, List.append_assoc, List.append_assoc]
      rfl

/-- **The system calls of a transaction.** -/
theorem trace_txn (h : Session crc es [] n [] s) {ws : Txn} (hws : ws.Proper) :
    (runCalls crc (txnCalls ws) s).world.trace =
      s.world.trace ++ txnEvents crc es s.data.txnId ws := by
  have hstep : Session crc es [] n (Entry.edge 0 s.data.txnId).data
      { s with data.txnCsum := txnChksmCnst ^^^ crc s.data.beginTag.encode } :=
    h.congr rfl rfl
  have hbegin : (rfsckTxnBegin crc 0 s).2.world.trace =
      s.world.trace ++ [tagEvent crc es (Entry.edge 0 s.data.txnId)] := by
    rw [rfsckTxnBegin_eq crc h.outcomes_nil]
    exact hstep.logTag_trace
  have hopened := h.txnBegin
  rw [clearMarks_nil] at hopened
  have hwrites := trace_writes hopened hws
  obtain ⟨n', hs, hid, hsum⟩ := h.openTxn hws
  rw [runCalls_txnCalls, hs.txnEnd_events, hid, hsum, hwrites, hbegin, txnEvents, txnEntries,
    ← List.append_assoc es]
  simp

end Traces

section Media

variable {crc : Bytes → UInt32} {hdr : RedoHeader} {es : List Entry} {g : ByteFile}

/-- The write of a version of the first key block, of the header, or of something behind. -/
inductive Event.Logs (crc : Bytes → UInt32) (hdr : RedoHeader) (es : List Entry) :
    Event Fd → Prop
  | header : Event.Logs crc hdr es (.pwrite .redo 0 hdr.encode)
  | keyb {m : Nat} (h : m ≤ es.length) :
      Event.Logs crc hdr es (.pwrite .redo redoHeaderSize (keybOf crc (es.take m) 0).encode)
  | above {off : Nat} {buf : Bytes} (h : redoHeaderSize + redoLogBlockSize ≤ off) :
      Event.Logs crc hdr es (.pwrite .redo off buf)
  | sync : Event.Logs crc hdr es (.fsync .redo)

/-- What the medium of the log holds, up to the end of the first key block. -/
structure FirstBlock (crc : Bytes → UInt32) (hdr : RedoHeader) (es : List Entry)
    (g : ByteFile) : Prop where
  header : g.Holds 0 hdr.encode ∨ g.Zeros 0 redoHeaderSize
  keyb : (∃ m, m ≤ es.length ∧ g.Holds redoHeaderSize (keybOf crc (es.take m) 0).encode) ∨
    g.Zeros redoHeaderSize redoLogBlockSize
  size : g.size = 0 ∨ (g.size = redoHeaderSize ∧ g.Holds 0 hdr.encode) ∨
    redoHeaderSize + redoLogBlockSize ≤ g.size

theorem firstBlock_of_size_zero (h : g.size = 0) : FirstBlock crc hdr es g := by
  have hzero : ∀ off n, g.Zeros off n := fun off n i _ => g.byte_eq_zero _ (by omega)
  exact ⟨Or.inr (hzero _ _), Or.inr (hzero _ _), Or.inl h⟩

theorem FirstBlock.pwrite_of_ge (h : FirstBlock crc hdr es g) {off : Nat}
    (hoff : redoHeaderSize + redoLogBlockSize ≤ off) (buf : Bytes) :
    FirstBlock crc hdr es (g.pwrite off buf) := by
  have hlen : 0 + hdr.encode.length ≤ off := by
    rw [RedoHeader.length_encode]
    omega
  refine ⟨?_, ?_, ?_⟩
  · exact h.header.imp (fun hh => hh.pwrite_of_disjoint (Or.inl hlen))
      (fun hz => hz.pwrite_of_disjoint (Or.inl (by omega)))
  · refine h.keyb.imp ?_ (fun hz => hz.pwrite_of_disjoint (Or.inl hoff))
    rintro ⟨m, hm, hholds⟩
    refine ⟨m, hm, hholds.pwrite_of_disjoint (Or.inl ?_)⟩
    rw [RedoBlock.length_encode]
    exact hoff
  · by_cases hbuf : buf = []
    · rw [hbuf, ByteFile.pwrite_nil]
      exact h.size
    · refine Or.inr (Or.inr ?_)
      rw [ByteFile.size_pwrite, if_neg hbuf]
      omega

theorem FirstBlock.pwrite_header (h : FirstBlock crc hdr es g) :
    FirstBlock crc hdr es (g.pwrite 0 hdr.encode) := by
  have hlen : hdr.encode.length = redoHeaderSize := RedoHeader.length_encode _
  have hne : hdr.encode ≠ [] := by
    rw [← List.length_pos_iff_ne_nil, hlen]
    decide
  refine ⟨Or.inl (ByteFile.holds_pwrite_self _ _ _), ?_, ?_⟩
  · refine h.keyb.imp ?_ (fun hz => hz.pwrite_of_disjoint (Or.inr (by omega)))
    rintro ⟨m, hm, hholds⟩
    exact ⟨m, hm, hholds.pwrite_of_disjoint (Or.inr (by omega))⟩
  · have hself := ByteFile.holds_pwrite_self g 0 hdr.encode
    rw [ByteFile.size_pwrite, if_neg hne, hlen]
    rcases h.size with hsize | ⟨hsize, -⟩ | hsize
    · exact Or.inr (Or.inl ⟨by omega, hself⟩)
    · exact Or.inr (Or.inl ⟨by omega, hself⟩)
    · exact Or.inr (Or.inr (by omega))

theorem FirstBlock.pwrite_keyb (h : FirstBlock crc hdr es g) {m : Nat} (hm : m ≤ es.length) :
    FirstBlock crc hdr es (g.pwrite redoHeaderSize (keybOf crc (es.take m) 0).encode) := by
  have hlen : (keybOf crc (es.take m) 0).encode.length = redoLogBlockSize :=
    RedoBlock.length_encode _
  have hne : (keybOf crc (es.take m) 0).encode ≠ [] := by
    rw [← List.length_pos_iff_ne_nil, hlen]
    decide
  refine ⟨?_, Or.inl ⟨m, hm, ByteFile.holds_pwrite_self _ _ _⟩, Or.inr (Or.inr ?_)⟩
  · refine h.header.imp (fun hh => hh.pwrite_of_disjoint (Or.inl ?_))
      (fun hz => hz.pwrite_of_disjoint (Or.inl (by omega)))
    rw [RedoHeader.length_encode]
    omega
  · rw [ByteFile.size_pwrite, if_neg hne, hlen]
    omega

/-- **Every event keeps what the medium holds.** -/
theorem FirstBlock.applyEvent (h : FirstBlock crc hdr es g) {e : Event Fd}
    (he : Event.Logs crc hdr es e) : FirstBlock crc hdr es (applyEvent .redo g e) := by
  cases he with
  | header =>
      rw [applyEvent_pwrite_self]
      exact h.pwrite_header
  | keyb hm =>
      rw [applyEvent_pwrite_self]
      exact h.pwrite_keyb hm
  | above hoff =>
      rw [applyEvent_pwrite_self]
      exact h.pwrite_of_ge hoff _
  | sync =>
      exact h

end Media

section Events

variable {crc : Bytes → UInt32} {hdr : RedoHeader} {es : List Entry}

theorem tagEvent_of_lt {as : List Entry} (hlen : as.length < keysPerBlock) (e : Entry) :
    tagEvent crc as e = .pwrite .redo redoHeaderSize (keybOf crc (as ++ [e]) 0).encode := by
  rw [tagEvent, Nat.div_eq_of_lt hlen, keybPos_zero]

theorem logs_tagEvent {as : List Entry} {e : Entry} (hpre : as ++ [e] <+: es)
    (hlen : as.length < keysPerBlock) : Event.Logs crc hdr es (tagEvent crc as e) := by
  have htake : es.take (as ++ [e]).length = as ++ [e] := (List.prefix_iff_eq_take.mp hpre).symm
  rw [tagEvent_of_lt hlen, ← htake]
  exact .keyb hpre.length_le

theorem logs_keybEvent (hlen : es.length ≤ keysPerBlock) :
    Event.Logs crc hdr es (keybEvent crc es) := by
  rw [keybEvent, RedoBlock.remark_nil]
  by_cases hfull : es.length = keysPerBlock
  · refine .above ?_
    rw [hfull, Nat.div_self (by decide), keybPos]
    omega
  · have hlt : es.length < keysPerBlock := by omega
    have htake : es.take es.length = es := List.take_length
    rw [Nat.div_eq_of_lt hlt, keybPos_zero]
    nth_rewrite 2 [← htake]
    exact .keyb (le_refl _)

theorem logs_writeEvents (as rest : List Entry) (hpre : as ++ rest <+: es)
    (hlen : (as ++ rest).length ≤ keysPerBlock) :
    ∀ e ∈ writeEvents crc as rest, Event.Logs crc hdr es e := by
  induction rest generalizing as with
  | nil =>
      intro e he
      simp [writeEvents] at he
  | cons r rest ih =>
      have hassoc : as ++ r :: rest = as ++ [r] ++ rest := by simp
      have hshort : as.length < keysPerBlock := by
        rw [List.length_append, List.length_cons] at hlen
        omega
      rw [hassoc] at hpre hlen
      intro e he
      rw [writeEvents] at he
      rcases List.mem_cons.mp he with rfl | he
      · refine .above ?_
        rw [dataPos]
        simp only [redoLogBlockSize, keysPerBlock_eq]
        omega
      rcases List.mem_cons.mp he with rfl | he
      · exact logs_tagEvent ((List.prefix_append _ _).trans hpre) hshort
      · exact ih (as ++ [r]) hpre hlen e he

theorem logs_txnEvents {ws : Txn} (hfits : ws.length + 2 ≤ keysPerBlock) (id : UInt32) :
    ∀ e ∈ txnEvents crc [] id ws, Event.Logs crc hdr (txnEntries crc id ws) e := by
  have hlen : (txnEntries crc id ws).length = ws.length + 2 := length_txnEntries _ _ _
  have hopen : (openEntries crc id ws).length = ws.length + 1 := by
    simp [openEntries]
  have hsplit : [Entry.edge 0 id] ++ ws.map (WriteReq.entry crc) = openEntries crc id ws := rfl
  intro e he
  rw [txnEvents, List.nil_append, List.nil_append, List.nil_append] at he
  rcases List.mem_cons.mp he with rfl | he
  · refine logs_tagEvent ?_ (by decide)
    exact ⟨ws.map (WriteReq.entry crc) ++ [_], rfl⟩
  rcases List.mem_append.mp he with he | he
  · refine logs_writeEvents _ _ ?_ ?_ e he
    · rw [hsplit]
      exact List.prefix_append _ _
    · rw [hsplit, hopen]
      omega
  · simp only [List.mem_cons, List.not_mem_nil, or_false] at he
    rcases he with rfl | rfl | rfl
    · exact logs_tagEvent (List.prefix_refl _) (by omega)
    · exact logs_keybEvent (by omega)
    · exact .sync

end Events

section Recovery

variable {crc : Bytes → UInt32} {hdr : RedoHeader} {ws : Txn} {w : World}

/-- The header of zeros, which a hole in the log reads as. -/
def zeroHeader : RedoHeader :=
  RedoHeader.decode (List.replicate redoHeaderSize 0)

/-- Memory that is not initialised passes for no header, and has no begin or end tag where
the second and later tags of a key block are. -/
structure HeapClean (crc : Bytes → UInt32) (w : World) : Prop where
  header : (RedoHeader.decode (w.malloc .header redoHeaderSize)).headerCrc ≠
    (RedoHeader.decode (w.malloc .header redoHeaderSize)).checksum crc
  keyb : ∀ c, 1 ≤ c → c < keysPerBlock →
    ¬ ((RedoBlock.decode (w.malloc .keyBlock redoLogBlockSize)).tag c).IsEdge

theorem FirstBlock.header_cases {es : List Entry} (h : FirstBlock crc hdr es (w.file .redo)) :
    (w.file .redo).Holds 0 hdr.encode ∨ w.header = zeroHeader ∨
      w.header = RedoHeader.decode (w.malloc .header redoHeaderSize) := by
  rcases h.header with hholds | hzeros
  · exact Or.inl hholds
  rcases h.size with hsize | ⟨-, hholds⟩ | hsize
  · have hread : (w.file .redo).pread 0 redoHeaderSize = [] := by
      rw [← List.length_eq_zero_iff, ByteFile.length_pread]
      omega
    refine Or.inr (Or.inr ?_)
    rw [World.header, readHeader, hread, List.nil_append, List.length_nil, List.drop_zero]
  · exact Or.inl hholds
  · have hread := ByteFile.pread_of_holds (hzeros.holds
      (show 0 + redoHeaderSize ≤ (w.file .redo).size by omega))
    rw [List.length_replicate] at hread
    refine Or.inr (Or.inl ?_)
    rw [World.header, readHeader, hread, List.length_replicate, List.drop_eq_nil_of_le,
      List.append_nil, zeroHeader]
    rw [World.length_malloc]

theorem encodeTags_replicate_empty (n : Nat) :
    encodeTags (List.replicate n RedoBlockTag.empty) =
      List.replicate (redoBlockTagSize * n) 0 := by
  induction n with
  | zero =>
      rfl
  | succ n ih =>
      have hcons : encodeTags (List.replicate (n + 1) RedoBlockTag.empty) =
          RedoBlockTag.empty.encode ++ encodeTags (List.replicate n RedoBlockTag.empty) := by
        rfl
      have hempty : RedoBlockTag.empty.encode = List.replicate redoBlockTagSize 0 := by
        decide
      rw [hcons, ih, hempty, ← List.replicate_add, Nat.mul_succ, Nat.add_comm]

theorem encode_zero : RedoBlock.zero.encode = List.replicate redoLogBlockSize 0 := by
  have htags : encodeTags RedoBlock.zero.tags =
      List.replicate (redoBlockTagSize * keysPerBlock) 0 :=
    encodeTags_replicate_empty keysPerBlock
  have hfront : le32 RedoBlock.zero.magic ++ (le32 RedoBlock.zero.crc ++
      le64 RedoBlock.zero.reserved) = List.replicate 16 0 := by
    decide
  rw [RedoBlock.encode, htags, ← List.append_assoc (le32 RedoBlock.zero.crc), ← List.append_assoc,
    hfront, ← List.replicate_add]
  rfl

theorem not_isEdge_zero (c : Nat) : ¬ (RedoBlock.zero.tag c).IsEdge := by
  have hempty : RedoBlock.zero.tag c = RedoBlockTag.empty := by
    rw [RedoBlock.tag, RedoBlock.zero, List.getElem?_replicate]
    split_ifs <;> rfl
  rw [hempty]
  exact fun hedge => hedge.2 rfl

/-- The key block that the next process reads has no second begin or end tag, unless it is
the last version. -/
theorem FirstBlock.keyb_cases {s : State} (hws : ws.Proper)
    (h : FirstBlock crc hdr (txnEntries crc 1 ws) (s.world.file .redo))
    (hholds : (s.world.file .redo).Holds 0 hdr.encode)
    (hoffset : hdr.keyOffset.toNat = redoHeaderSize) (hheap : HeapClean crc s.world) :
    (s.world.file .redo).Holds redoHeaderSize (keybOf crc (txnEntries crc 1 ws) 0).encode ∨
      ∀ c, 1 ≤ c → c < keysPerBlock →
        ¬ (((startReplay s.world.header 0 s).toScan.load (s.world.file .redo)).keyb.tag
          c).IsEdge := by
  have hload : ∀ kb : RedoBlock, (s.world.file .redo).Holds redoHeaderSize kb.encode →
      ((startReplay s.world.header 0 s).toScan.load (s.world.file .redo)).keyb = kb := by
    intro kb hkb
    refine load_keyb_of_holds ?_
    rw [World.header_of_holds hholds]
    change (s.world.file .redo).Holds hdr.keyOffset.toNat _
    rw [hoffset]
    exact hkb
  rcases h.keyb with ⟨m, hm, hkeyb⟩ | hzeros
  · by_cases hlast : m = (txnEntries crc 1 ws).length
    · left
      rwa [hlast, List.take_length] at hkeyb
    · right
      intro c hc hlt
      rw [hload _ hkeyb, keybOf_tag _ _ _ hlt, Nat.mul_zero, Nat.zero_add, tagOf,
        List.getElem?_take]
      rw [length_txnEntries] at hm hlast
      split_ifs with hcm
      · exact not_isEdge_openEntries hws 1 _ hc (by omega)
      · exact fun hedge => hedge.2 rfl
  · right
    intro c hc hlt
    rcases h.size with hsize | ⟨hsize, -⟩ | hsize
    · have hlen := (hholds 0 _ (List.getElem?_eq_getElem (by
        rw [RedoHeader.length_encode]; decide))).1
      omega
    · have hplace : (startReplay s.world.header 0 s).toScan.logOffset = redoHeaderSize := by
        rw [World.header_of_holds hholds]
        exact hoffset
      have hread : (s.world.file .redo).pread redoHeaderSize redoLogBlockSize = [] := by
        rw [← List.length_eq_zero_iff, ByteFile.length_pread]
        omega
      have hkeep : ((startReplay s.world.header 0 s).toScan.load (s.world.file .redo)).keyb =
          RedoBlock.decode (s.world.malloc .keyBlock redoLogBlockSize) := by
        rw [Scan.load]
        dsimp only
        rw [hplace, hread, List.nil_append, List.length_nil, List.drop_zero,
          RedoBlock.decode_encode]
        rfl
      rw [hkeep]
      exact hheap.keyb c hc hlt
    · have hzero := hzeros.holds hsize
      rw [← encode_zero] at hzero
      rw [hload _ hzero]
      exact not_isEdge_zero c

/-- **Recovery** from a medium of this kind: all of the transaction, or nothing. -/
theorem rfsckOpen_of_firstBlock (hws : ws.Proper) (hfits : ws.length + 2 ≤ keysPerBlock)
    (h : FirstBlock crc hdr (txnEntries crc 1 ws) (w.file .redo)) (hout : w.outcomes = [])
    (hcrc : hdr.headerCrc = hdr.checksum crc) (hkeys : hdr.numKeys = 0)
    (hoffset : hdr.keyOffset.toNat = redoHeaderSize)
    (hzero : zeroHeader.headerCrc ≠ zeroHeader.checksum crc) (hheap : HeapClean crc w)
    (hdata : (w.file .redo).Holds redoHeaderSize (keybOf crc (txnEntries crc 1 ws) 0).encode →
      DataHolds (txnEntries crc 1 ws) (w.file .redo))
    (redo : String) {devFd : Nat} (hdev : 1 ≤ devFd) (raw : RedoPrivateData)
    (out : List Message) :
    (rfsckOpen crc (some redo) devFd raw { redoData := none, world := w, out := out }).2.world.file
        (.dev devFd) = w.file (.dev devFd) ∨
      (rfsckOpen crc (some redo) devFd raw { redoData := none, world := w, out := out }).2.world.file
        (.dev devFd) = applyPatches (w.file (.dev devFd)) (ws.map WriteReq.patch) := by
  rcases h.header_cases with hholds | hheader | hheader
  · rw [rfsckOpen_dev crc hout redo hdev raw out]
    have hworld : (setupState crc devFd raw w out).world = w := rfl
    have hfd : (setupState crc devFd raw w out).data.devFd = devFd := rfl
    generalize setupState crc devFd raw w out = s at *
    subst hworld
    subst hfd
    rcases h.keyb_cases hws hholds hoffset hheap with hkeyb | hone
    · right
      have hentries : Piece.entries crc 1 (txnThen ws []) = txnEntries crc 1 ws :=
        List.append_nil _
      have hnone : Txn.Proper [] := fun req hreq => by simp at hreq
      refine replay_txnThen_of_holds hws hnone hfits hout hholds hcrc hkeys hoffset ?_ ?_ true
      · rw [hentries]
        exact hkeyb
      · rw [hentries]
        exact hdata hkeyb
    · left
      have hheader := World.header_of_holds hholds
      have hplan : (planLog crc s).2 = [] :=
        planLog_of_one_edge (by rw [hheader]; exact hkeys) hone
      have hdevice := rfsckReplay_dev hout (by rw [hheader]; exact hcrc)
        (by rw [hplan]; simp) true
      rwa [hplan] at hdevice
  · left
    rw [rfsckOpen_eq crc hout (by rw [hheader]; exact hzero) redo hdev]
    exact file_dev_push_redo _ _ _ _
  · left
    rw [rfsckOpen_eq crc hout (by rw [hheader]; exact hheap.header) redo hdev]
    exact file_dev_push_redo _ _ _ _

end Recovery

section Failures

variable {crc : Bytes → UInt32} {w w' : World} {r : Repair}

/-- The next process after a power failure behind the system calls `tr`: every file is what
the medium may hold then. -/
structure Failed (w : World) (tr : List (Event Fd)) (w' : World) : Prop where
  images : ∀ fd, CrashImage fd (w.init fd) tr (w'.file fd)
  outcomes_nil : w'.outcomes = []

theorem crashImage_dev {hdr : RedoHeader} {es : List Entry} {tr : List (Event Fd)}
    (htr : ∀ e ∈ tr, Event.Logs crc hdr es e) (k : Nat) {fd : Nat} {f g : ByteFile}
    (h : CrashImage (.dev fd) f (tr.take k) g) : g = f := by
  refine forall_crashImage_start (P := fun g => g = f) rfl ?_ k g h
  intro e he g hg
  cases htr e he with
  | header | keyb | above =>
      exact (applyEvent_pwrite_other (by simp) _ _ _).trans hg
  | sync =>
      exact hg

theorem Repair.Single.trace_session (h : r.Single) (hbehind : r.behind = [])
    (hstart : w.trace = []) (hout : w.outcomes = []) :
    (r.session crc (r.start crc w)).redo.world.trace =
      .pwrite .redo 0 (redoSetup crc r.data.fd r.raw).hdr.encode ::
        txnEvents crc [] 1 (requests r.within) := by
  have hopen := openedState_session crc hout r.data.fd r.raw []
  have hcalls : Piece.calls (txnThen (requests r.within) (requests r.behind)) =
      txnCalls (requests r.within) := by
    rw [hbehind]
    exact List.append_nil _
  rw [(r.session_redo rfl).1, h.pieces_eq, hcalls]
  refine (trace_txn hopen (proper_requests h.within_proper)).trans ?_
  change (w.trace ++ _) ++ _ = _
  rw [hstart]
  rfl

/-- **The transaction of `xfs_repair` is atomic under power failures**, if the data are on the
medium whenever the key block with the end tag is. -/
theorem repair_atomic (h : r.Single) (hbehind : r.behind = [])
    (hfits : r.within.length + 2 ≤ keysPerBlock) (hstart : w.trace = []) (hout : w.outcomes = [])
    (hfresh : (w.init .redo).size = 0)
    (hzero : zeroHeader.headerCrc ≠ zeroHeader.checksum crc) (k : Nat)
    (hfail : Failed w ((r.session crc (r.start crc w)).redo.world.trace.take k) w')
    (hheap : HeapClean crc w')
    (hdata : (w'.file .redo).Holds redoHeaderSize
        (keybOf crc (txnEntries crc 1 (requests r.within)) 0).encode →
      DataHolds (txnEntries crc 1 (requests r.within)) (w'.file .redo))
    (redo : String) (raw : RedoPrivateData) (out : List Message) :
    (rfsckOpen crc (some redo) r.data.fd raw
        { redoData := none, world := w', out := out }).2.world.file (.dev r.data.fd) =
        w.file (.dev r.data.fd) ∨
      (rfsckOpen crc (some redo) r.data.fd raw
        { redoData := none, world := w', out := out }).2.world.file (.dev r.data.fd) =
        applyPatches (w.file (.dev r.data.fd)) (r.within.map DevWrite.patch) := by
  have hlen : (requests r.within).length + 2 ≤ keysPerBlock := by
    rw [requests, List.length_map]
    exact hfits
  have hevents : ∀ e ∈ (r.session crc (r.start crc w)).redo.world.trace,
      Event.Logs crc (redoSetup crc r.data.fd r.raw).hdr
        (txnEntries crc 1 (requests r.within)) e := by
    rw [h.trace_session hbehind hstart hout]
    intro e he
    rcases List.mem_cons.mp he with rfl | he
    · exact .header
    · exact logs_txnEvents hlen 1 e he
  have hblock : FirstBlock crc (redoSetup crc r.data.fd r.raw).hdr
      (txnEntries crc 1 (requests r.within)) (w'.file .redo) := by
    exact forall_crashImage_start (firstBlock_of_size_zero hfresh)
      (fun e he g hg => hg.applyEvent (hevents e he)) k _ (hfail.images .redo)
  have hdevice : w'.file (.dev r.data.fd) = w.file (.dev r.data.fd) := by
    rw [crashImage_dev hevents k (hfail.images (.dev r.data.fd)), World.file, hstart]
    rfl
  have hopen := rfsckOpen_of_firstBlock (proper_requests h.within_proper) hlen hblock
    hfail.outcomes_nil rfl rfl rfl hzero hheap hdata redo h.fd_pos raw out
  rwa [hdevice, patches_requests h.within_proper] at hopen

end Failures

section OneWrite

variable (crc : Bytes → UInt32)

/-- The write of `sevensRun`. -/
def sevenReq : WriteReq :=
  DevWrite.request ⟨1, 0, [7]⟩

/-- The first system calls of a run with this write: the header, the key block with the begin
tag, the data, and the key block with one more tag and with the end tag. -/
def oneWriteTrace : List (Event Fd) :=
  [.pwrite .redo 0 (redoSetup crc 1 blankData).hdr.encode,
    tagEvent crc [] (Entry.edge 0 1),
    .pwrite .redo (dataPos [Entry.edge 0 1] 1) [7],
    tagEvent crc [Entry.edge 0 1] (sevenReq.entry crc),
    tagEvent crc (openEntries crc 1 [sevenReq])
      (Entry.edge (txnCsum crc 1 [sevenReq]).toUInt64 1)]

/-- The medium of the log when these calls survive, the data only if `kept` says so. -/
def oneWriteMedium (kept : Bool) : ByteFile :=
  imageFrom .redo (fun i => i ≠ 2 || kept) 0 ByteFile.empty (oneWriteTrace crc)

theorem take_trace_sevensRun :
    ((sevensRun 1).session crc ((sevensRun 1).start crc blankWorld)).redo.world.trace.take 5 =
      oneWriteTrace crc := by
  rw [(sevensRun_single 1).trace_session rfl rfl rfl]
  rfl

theorem failed_oneWrite (kept : Bool) :
    Failed blankWorld
      (((sevensRun 1).session crc ((sevensRun 1).start crc blankWorld)).redo.world.trace.take 5)
      (mediumWorld (oneWriteMedium crc kept)) := by
  rw [take_trace_sevensRun]
  refine ⟨?_, rfl⟩
  intro fd
  cases fd with
  | redo =>
      refine ⟨fun i => i ≠ 2 || kept, ?_, mediumWorld_redo _⟩
      intro i j _ hj
      have hmem := List.mem_of_getElem? hj
      simp [oneWriteTrace, tagEvent] at hmem
  | dev fd =>
      have himage := crashImage_current (.dev fd) (blankWorld.init (.dev fd)) (oneWriteTrace crc)
      have hsame : applyEvents (.dev fd) (blankWorld.init (.dev fd)) (oneWriteTrace crc) =
          blankWorld.init (.dev fd) := by
        simp [oneWriteTrace, tagEvent, applyEvent_pwrite_other]
      rw [hsame] at himage
      exact himage

theorem oneWriteMedium_eq (kept : Bool) :
    ∃ kb kb' : RedoBlock, oneWriteMedium crc kept =
      (((if kept then
          ((ByteFile.empty.pwrite 0 (redoSetup crc 1 blankData).hdr.encode).pwrite redoHeaderSize
            kb.encode).pwrite (redoHeaderSize + redoLogBlockSize) [7]
        else
          (ByteFile.empty.pwrite 0 (redoSetup crc 1 blankData).hdr.encode).pwrite redoHeaderSize
            kb.encode).pwrite redoHeaderSize kb'.encode).pwrite redoHeaderSize
              (keybOf crc (txnEntries crc 1 [sevenReq]) 0).encode) := by
  have hdata : dataPos [Entry.edge 0 1] 1 = redoHeaderSize + redoLogBlockSize := by
    rfl
  refine ⟨keybOf crc [Entry.edge 0 1] 0, keybOf crc [Entry.edge 0 1, sevenReq.entry crc] 0, ?_⟩
  have hopen : (openEntries crc 1 [sevenReq]).length < keysPerBlock := by
    change 2 < keysPerBlock
    decide
  have hnone : ([] : List Entry).length < keysPerBlock := by
    decide
  have hone : [Entry.edge 0 1].length < keysPerBlock := by
    decide
  rw [oneWriteMedium, oneWriteTrace, tagEvent_of_lt hnone, tagEvent_of_lt hone,
    tagEvent_of_lt hopen, hdata]
  cases kept <;> rfl

theorem holds_oneWriteMedium (kept : Bool) :
    (oneWriteMedium crc kept).Holds 0 (redoSetup crc 1 blankData).hdr.encode ∧
      (oneWriteMedium crc kept).Holds redoHeaderSize
        (keybOf crc (txnEntries crc 1 [sevenReq]) 0).encode ∧
      (kept = true → (oneWriteMedium crc kept).Holds (redoHeaderSize + redoLogBlockSize) [7]) ∧
      (kept = false → (oneWriteMedium crc kept).size = redoHeaderSize + redoLogBlockSize) := by
  obtain ⟨kb, kb', heq⟩ := oneWriteMedium_eq crc kept
  have hhdr : (redoSetup crc 1 blankData).hdr.encode.length = redoHeaderSize :=
    RedoHeader.length_encode _
  have hkeep : ∀ (f : ByteFile) (off : Nat) (bs : Bytes) (b : RedoBlock), f.Holds off bs →
      off + bs.length ≤ redoHeaderSize ∨ redoHeaderSize + redoLogBlockSize ≤ off →
      (f.pwrite redoHeaderSize b.encode).Holds off bs := by
    intro f off bs b hf hoff
    refine hf.pwrite_of_disjoint ?_
    rw [RedoBlock.length_encode]
    omega
  rw [heq]
  have hfirst := ByteFile.holds_pwrite_self ByteFile.empty 0
    (redoSetup crc 1 blankData).hdr.encode
  refine ⟨?_, ByteFile.holds_pwrite_self _ _ _, ?_, ?_⟩
  · refine hkeep _ _ _ _ (hkeep _ _ _ _ ?_ (.inl ?_)) (.inl ?_)
    · split_ifs
      · refine (hkeep _ _ _ _ hfirst (.inl ?_)).pwrite_of_disjoint ?_ <;> omega
      · refine hkeep _ _ _ _ hfirst (.inl ?_)
        omega
    all_goals omega
  · rintro rfl
    exact hkeep _ _ _ _ (hkeep _ _ _ _ (ByteFile.holds_pwrite_self _ _ _) (.inr le_rfl))
      (.inr le_rfl)
  · rintro rfl
    simp only [Bool.false_eq_true, if_false, ByteFile.size_pwrite, RedoBlock.length_encode, hhdr]
    rfl

theorem planLog_oneWriteMedium (kept : Bool) (out : List Message) :
    ∃ o kb, (planLog crc (setupState crc 1 blankData
        (mediumWorld (oneWriteMedium crc kept)) out)).2 =
      [.copy (sevenReq.tag crc) (redoHeaderSize + redoLogBlockSize), .mark o kb] := by
  obtain ⟨hhdr, hkeyb, -, -⟩ := holds_oneWriteMedium crc kept
  have hproper : Txn.Proper [sevenReq] := proper_requests (sevensRun_single 1).within_proper
  have hnone : Txn.Proper [] := fun req hreq => by simp at hreq
  rw [← mediumWorld_redo (oneWriteMedium crc kept)] at hhdr hkeyb
  have hplan := planLog_of_firstKeyb (s := setupState crc 1 blankData
    (mediumWorld (oneWriteMedium crc kept)) out) hhdr rfl rfl hkeyb
  have hentries : Piece.entries crc 1 (txnThen [sevenReq] []) = txnEntries crc 1 [sevenReq] :=
    List.append_nil _
  have hfound := @found_txnThen crc [sevenReq] [] hproper hnone (by decide) out
  rw [hentries] at hfound
  exact ⟨_, _, hplan.trans ((congrArg _ hfound).trans rfl)⟩

theorem copyData_of_lost :
    copyData (mediumWorld (oneWriteMedium crc false)) (sevenReq.tag crc)
      (redoHeaderSize + redoLogBlockSize) = [0] := by
  have hread : (oneWriteMedium crc false).pread (redoHeaderSize + redoLogBlockSize)
      (min (sevenReq.tag crc).size.toNat maxRwCount) = [] := by
    rw [← List.length_eq_zero_iff, ByteFile.length_pread, (holds_oneWriteMedium crc false).2.2.2 rfl]
    omega
  rw [copyData, mediumWorld_redo, hread]
  rfl

theorem dev_of_lost (out : List Message) :
    (rfsckOpen crc (some "redo") 1 blankData
        { redoData := none, world := mediumWorld (oneWriteMedium crc false),
          out := out }).2.world.file (.dev 1) =
      ByteFile.empty.pwrite 0 [0] := by
  obtain ⟨o, kb, hplan⟩ := planLog_oneWriteMedium crc false out
  have hhdr := (holds_oneWriteMedium crc false).1
  rw [← mediumWorld_redo (oneWriteMedium crc false)] at hhdr
  have hheader := World.header_of_holds hhdr
  have hcopy := copyData_of_lost crc
  have hsize : (sevenReq.tag crc).size.toNat = 1 := (sevenReq.entry crc).size_eq
  rw [rfsckOpen_dev crc rfl "redo" (le_refl 1) blankData out]
  have hwhole : ∀ a ∈ (planLog crc (setupState crc 1 blankData
      (mediumWorld (oneWriteMedium crc false)) out)).2, a.Whole := by
    rw [hplan]
    simp only [List.mem_cons, List.not_mem_nil, or_false, forall_eq_or_imp, forall_eq]
    refine ⟨?_, trivial⟩
    rw [Action.Whole, hsize]
    decide
  have hvalid : (mediumWorld (oneWriteMedium crc false)).header.headerCrc =
      (mediumWorld (oneWriteMedium crc false)).header.checksum crc := by
    rw [hheader]
    rfl
  have hrun := rfsckReplay_of_whole (s := setupState crc 1 blankData
    (mediumWorld (oneWriteMedium crc false)) out) rfl hvalid hwhole true
  rw [hplan] at hrun
  rw [hrun]
  change (((perform 1 _ (mediumWorld _)).push _).file _) = _
  rw [World.file_push, perform_cons, perform_cons, perform_nil, Action.event, Action.event, hcopy,
    applyEvent_fsync, file_dev_push_redo, World.file_push]
  rfl

end OneWrite

theorem heapClean_mediumWorld (g : ByteFile) : HeapClean crc32c (mediumWorld g) := by
  have hheader : (RedoHeader.decode (blankWorld.malloc .header redoHeaderSize)).headerCrc ≠
      (RedoHeader.decode (blankWorld.malloc .header redoHeaderSize)).checksum crc32c := by
    decide +kernel
  have hblock : (mediumWorld g).malloc .keyBlock redoLogBlockSize =
      List.replicate redoLogBlockSize 0 := by
    have hconst : (mediumWorld g).malloc .keyBlock redoLogBlockSize =
        (List.range redoLogBlockSize).map (fun _ => 0) := by
      rw [World.malloc]
      rfl
    rw [hconst, List.map_const', List.length_range]
  refine ⟨hheader, ?_⟩
  intro c _ _
  rw [hblock, ← encode_zero, RedoBlock.decode_encode]
  exact not_isEdge_zero c

theorem dataHolds_oneWriteMedium (crc : Bytes → UInt32) :
    DataHolds (txnEntries crc 1 [sevenReq]) (oneWriteMedium crc true) := by
  have hdata := (holds_oneWriteMedium crc true).2.2.1 rfl
  intro i e he
  match i, he with
  | 0, he =>
      obtain rfl := Option.some.inj he
      exact ByteFile.holds_nil _ _
  | 1, he =>
      obtain rfl := Option.some.inj he
      exact hdata
  | 2, he =>
      obtain rfl := Option.some.inj he
      exact ByteFile.holds_nil _ _

theorem repair_atomic_of_kept_write :
    (rfsckOpen crc32c (some "redo") (sevensRun 1).data.fd blankData
        { redoData := none, world := mediumWorld (oneWriteMedium crc32c true),
          out := [] }).2.world.file (.dev (sevensRun 1).data.fd) =
        blankWorld.file (.dev (sevensRun 1).data.fd) ∨
      (rfsckOpen crc32c (some "redo") (sevensRun 1).data.fd blankData
        { redoData := none, world := mediumWorld (oneWriteMedium crc32c true),
          out := [] }).2.world.file (.dev (sevensRun 1).data.fd) =
        applyPatches (blankWorld.file (.dev (sevensRun 1).data.fd))
          ((sevensRun 1).within.map DevWrite.patch) := by
  have hzero : zeroHeader.headerCrc ≠ zeroHeader.checksum crc32c := by
    decide +kernel
  have hfits : (sevensRun 1).within.length + 2 ≤ keysPerBlock := by
    rw [length_sevensRun]
    decide
  have hdata : DataHolds (txnEntries crc32c 1 (requests (sevensRun 1).within))
      ((mediumWorld (oneWriteMedium crc32c true)).file .redo) := by
    rw [mediumWorld_redo]
    exact dataHolds_oneWriteMedium crc32c
  exact @repair_atomic crc32c blankWorld (mediumWorld (oneWriteMedium crc32c true))
    (sevensRun 1) (sevensRun_single 1) rfl hfits rfl rfl rfl hzero 5
    (failed_oneWrite crc32c true) (heapClean_mediumWorld _) (fun _ => hdata) "redo" blankData []

/-- **A power failure before the `fsync` may lose the data and keep the end tag.**  The replay
then writes memory that nobody has set. -/
theorem repair_not_atomic :
    Failed blankWorld
        (((sevensRun 1).session crc32c
          ((sevensRun 1).start crc32c blankWorld)).redo.world.trace.take 5)
        (mediumWorld (oneWriteMedium crc32c false)) ∧
      (rfsckOpen crc32c (some "redo") 1 blankData
        { redoData := none, world := mediumWorld (oneWriteMedium crc32c false),
          out := [] }).2.world.file (.dev 1) ≠ blankWorld.file (.dev 1) ∧
      (rfsckOpen crc32c (some "redo") 1 blankData
        { redoData := none, world := mediumWorld (oneWriteMedium crc32c false),
          out := [] }).2.world.file (.dev 1) ≠
        applyPatches (blankWorld.file (.dev 1)) ((sevensRun 1).within.map DevWrite.patch) := by
  refine ⟨failed_oneWrite crc32c false, ?_, ?_⟩
  · rw [dev_of_lost]
    intro h
    exact absurd (congrArg ByteFile.size h) (by decide)
  · rw [dev_of_lost]
    intro h
    have hbyte : (0 : UInt8) = 7 := congrArg (fun f => f.byte 0) h
    exact absurd hbyte (by decide)

end Xfs
end Rfsck
