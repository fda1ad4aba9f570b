import Rfsck.Redo.History

/-!
# The walk over the log of a history

The replayer tells the tags of a log apart by their field values only.  Over the
log of a history, of whose transactions some may carry the mark already, it

* opens a transaction at each begin tag without mark, adds the tags of the writes
  to its checksum, and closes it at the end tag (`run_txn`);
* passes a transaction with a mark, and does not advance the position of the data
  (`run_skip`);
* passes unused slots (`run_unused`).

`run_history` puts these together, and `historyFound` lists what is found.
-/

namespace Rfsck
namespace Redo

open Storage

/-- What is printed when the walk reaches index `i`. -/
def slotMessages (o : Nat → Nat) (i : Nat) : List Message :=
  if i % keysPerBlock = 0 then [.keyOffsets (i / keysPerBlock) (o (i / keysPerBlock))] else []

/-- What is printed for the slots of a range. -/
def rangeMessages (o : Nat → Nat) (i n : Nat) : List Message :=
  (List.range' i n).flatMap (slotMessages o)

theorem rangeMessages_succ (o : Nat → Nat) (i n : Nat) :
    rangeMessages o i (n + 1) = slotMessages o i ++ rangeMessages o (i + 1) n := by
  simp [rangeMessages, List.range'_succ]

theorem Walk.enter_eq (o : Nat → Nat) (i : Nat) (w : Walk) :
    w.enter o i = { w with out := w.out ++ slotMessages o i } := by
  unfold Walk.enter slotMessages
  split_ifs
  · rfl
  · simp

theorem tagKind_of_size_ne
    (txnId : UInt32) (isReplayed : Bool) {tag : RedoBlockTag} (h : tag.size ≠ 0) :
    tagKind txnId isReplayed tag = if isReplayed then .skippedData else .dataTag := by
  unfold tagKind
  rw [if_neg (fun hz => h hz.1), if_neg (fun hz => h hz.1)]

theorem tagKind_edge
    {txnId : UInt32} {isReplayed : Bool} {tag : RedoBlockTag} (h : tag.IsEdge) :
    tagKind txnId isReplayed tag =
      if txnId = 0 then
        if tag.offset = txnReplayedCnst then .markedBegin else .beginTag
      else
        if isReplayed then .skippedEnd else .endTag := by
  have hpos : 0 < tag.blkCrc := UInt32.pos_iff_ne_zero.mpr h.2
  unfold tagKind
  rw [if_neg (fun hz => h.2 hz.2.1), if_pos ⟨h.1, hpos⟩]

section Segments

variable (crc : Bytes → UInt32) (o : Nat → Nat) {T : Nat → RedoBlockTag}

theorem run_data
    {ts : List RedoBlockTag} (hsize : ∀ t ∈ ts, t.size ≠ 0) {i : Nat}
    (hT : slice T i ts.length = ts) {w : Walk} (hnew : w.isReplayed = false) :
    Walk.run crc o T ts.length i w =
      { w with
        txnCsum := ts.foldl (fun c t => c ^^^ crc t.encode) w.txnCsum
        out := w.out ++ rangeMessages o i ts.length } := by
  induction ts generalizing i w with
  | nil =>
      simp [Walk.run, rangeMessages]
  | cons t ts ih =>
      rw [List.length_cons, slice_succ] at hT
      obtain ⟨ht, hts⟩ := List.cons.inj hT
      have hkind := tagKind_of_size_ne w.txnId w.isReplayed (hsize t (by simp))
      rw [hnew] at hkind
      have hstep : (w.enter o i).step crc T i =
          { w with
            txnCsum := w.txnCsum ^^^ crc t.encode
            out := w.out ++ slotMessages o i } := by
        rw [Walk.enter_eq, Walk.step, ht]
        dsimp only
        rw [hnew, hkind]
        rfl
      have hrest := ih (fun u hu => hsize u (List.mem_cons_of_mem t hu)) hts
        (w := { w with
          txnCsum := w.txnCsum ^^^ crc t.encode
          out := w.out ++ slotMessages o i }) hnew
      rw [List.length_cons, Walk.run, hstep, hrest, rangeMessages_succ]
      simp

theorem run_skippedData
    {ts : List RedoBlockTag} (hsize : ∀ t ∈ ts, t.size ≠ 0) {i : Nat}
    (hT : slice T i ts.length = ts) {w : Walk} (hold : w.isReplayed = true) :
    Walk.run crc o T ts.length i w =
      { w with out := w.out ++ rangeMessages o i ts.length } := by
  induction ts generalizing i w with
  | nil =>
      simp [Walk.run, rangeMessages]
  | cons t ts ih =>
      rw [List.length_cons, slice_succ] at hT
      obtain ⟨ht, hts⟩ := List.cons.inj hT
      have hkind := tagKind_of_size_ne w.txnId w.isReplayed (hsize t (by simp))
      rw [hold] at hkind
      have hstep : (w.enter o i).step crc T i =
          { w with out := w.out ++ slotMessages o i } := by
        rw [Walk.enter_eq, Walk.step, ht]
        dsimp only
        rw [hold, hkind]
        rfl
      have hrest := ih (fun u hu => hsize u (List.mem_cons_of_mem t hu)) hts
        (w := { w with out := w.out ++ slotMessages o i }) hold
      rw [List.length_cons, Walk.run, hstep, hrest, rangeMessages_succ]
      simp

theorem run_unused
    (n : Nat) {i : Nat} (hT : slice T i n = List.replicate n RedoBlockTag.empty) (w : Walk) :
    Walk.run crc o T n i w = { w with out := w.out ++ rangeMessages o i n } := by
  induction n generalizing i w with
  | zero =>
      simp [Walk.run, rangeMessages]
  | succ n ih =>
      rw [slice_succ, List.replicate_succ] at hT
      obtain ⟨ht, hts⟩ := List.cons.inj hT
      have hstep : (w.enter o i).step crc T i =
          { w with out := w.out ++ slotMessages o i } := by
        rw [Walk.enter_eq, Walk.step, ht]
        rfl
      rw [Walk.run, hstep, ih hts, rangeMessages_succ]
      simp

end Segments

section Transactions

variable (crc : Bytes → UInt32)

def endTagOf (id : UInt32) (ws : Txn) : RedoBlockTag :=
  { edgeTag id with offset := (txnCsum crc id ws).toUInt64 }

def dataTags (ws : Txn) : List RedoBlockTag :=
  ws.map (WriteReq.tag crc)

/-- The tags of a transaction, with or without the mark. -/
def txnTags (marked : Bool) (id : UInt32) (ws : Txn) : List RedoBlockTag :=
  (if marked then (edgeTag id).marked else edgeTag id) ::
    (dataTags crc ws ++ [endTagOf crc id ws])

/-- What the walk finds of a transaction. -/
def txnFound (i : Nat) (id : UInt32) (ws : Txn) (pos : Nat) : Found where
  beginAt := i
  id := id
  tags := dataTags crc ws
  endTag := endTagOf crc id ws
  csum := txnCsum crc id ws
  pos := pos

/-- What the walk prints about a transaction. -/
def txnReport (o : Nat → Nat) (i : Nat) (id : UInt32) (ws : Txn) : List Message :=
  slotMessages o i ++
    [.txnBegin (i / keysPerBlock) (i % keysPerBlock) id
      (txnChksmCnst ^^^ crc (edgeTag id).encode)] ++
    rangeMessages o (i + 1) (ws.length + 1) ++
    [.txnEnd ((i + 1 + ws.length) / keysPerBlock) ((i + 1 + ws.length) % keysPerBlock) id
      (txnCsum crc id ws)]

/-- What it prints about a transaction that carries the mark. -/
def skipReport (o : Nat → Nat) (i : Nat) (id : UInt32) (ws : Txn) : List Message :=
  slotMessages o i ++ [.alreadyReplayed id] ++ rangeMessages o (i + 1) (ws.length + 1)

/-- The walk behind a transaction. -/
def Walk.afterTxn (o : Nat → Nat) (i : Nat) (id : UInt32) (ws : Txn) (w : Walk) : Walk :=
  { w with
    txnId := 0
    txnCsum := 0
    isReplayed := false
    beginAt := 0
    pos := (txnFound crc i id ws w.pos).copies.1
    out := w.out ++ txnReport crc o i id ws
    found := w.found ++ [txnFound crc i id ws w.pos] }

/-- The walk behind a transaction that carries the mark. -/
def Walk.afterSkip (o : Nat → Nat) (i : Nat) (id : UInt32) (ws : Txn) (w : Walk) : Walk :=
  { w with
    txnId := 0
    isReplayed := true
    out := w.out ++ skipReport o i id ws }

theorem size_dataTags
    {ws : Txn} (h : ws.Proper) : ∀ t ∈ dataTags crc ws, t.size ≠ 0 := by
  intro t ht
  obtain ⟨req, hreq, rfl⟩ := List.mem_map.mp ht
  obtain ⟨hne, _⟩ := h req hreq
  intro hz
  have hsize := (req.entry crc).size_eq
  have hz' : (req.entry crc).tag.size = 0 := hz
  rw [hz'] at hsize
  exact hne (List.length_eq_zero_iff.mp hsize.symm)

theorem foldl_dataTags (c : UInt32) (ws : Txn) :
    (dataTags crc ws).foldl (fun c t => c ^^^ crc t.encode) c =
      ws.foldl (fun c req => c ^^^ crc (req.tag crc).encode) c := by
  rw [dataTags, List.foldl_map]

theorem rangeMessages_add (o : Nat → Nat) (i m n : Nat) :
    rangeMessages o i (m + n) = rangeMessages o i m ++ rangeMessages o (i + m) n := by
  induction m generalizing i with
  | zero =>
      simp [rangeMessages]
  | succ m ih =>
      rw [show m + 1 + n = m + n + 1 by omega, rangeMessages_succ, ih, rangeMessages_succ,
        List.append_assoc, show i + 1 + m = i + (m + 1) by omega]

theorem edgeTag_isEdge {id : UInt32} (h : id ≠ 0) : (edgeTag id).IsEdge := by
  exact ⟨rfl, h⟩

theorem endTagOf_isEdge {id : UInt32} (h : id ≠ 0) (ws : Txn) :
    (endTagOf crc id ws).IsEdge := by
  exact ⟨rfl, h⟩

theorem slice_txnTags
    {T : Nat → RedoBlockTag} {i : Nat} {marked : Bool} {id : UInt32} {ws : Txn}
    (h : slice T i (ws.length + 2) = txnTags crc marked id ws) :
    T i = (if marked then (edgeTag id).marked else edgeTag id) ∧
      slice T (i + 1) ws.length = dataTags crc ws ∧
      T (i + 1 + ws.length) = endTagOf crc id ws := by
  rw [slice_succ, slice_append T (i + 1) ws.length 1, txnTags] at h
  obtain ⟨hbegin, hrest⟩ := List.cons.inj h
  have hlen : (slice T (i + 1) ws.length).length = (dataTags crc ws).length := by
    simp [dataTags]
  obtain ⟨hdata, hend⟩ := List.append_inj hrest hlen
  exact ⟨hbegin, hdata, (List.cons.inj hend).1⟩

/-- The walk behind the begin tag of a transaction without mark. -/
def Walk.opened (o : Nat → Nat) (i : Nat) (id : UInt32) (w : Walk) : Walk :=
  { w with
    txnId := id
    txnCsum := txnChksmCnst ^^^ crc (edgeTag id).encode
    isReplayed := false
    beginAt := i
    out := w.out ++ slotMessages o i ++
      [.txnBegin (i / keysPerBlock) (i % keysPerBlock) id
        (txnChksmCnst ^^^ crc (edgeTag id).encode)] }

theorem edgeTag_offset_ne (id : UInt32) : (edgeTag id).offset ≠ txnReplayedCnst := by
  have hzero : (0 : UInt64) ≠ txnReplayedCnst := by
    decide
  exact hzero

theorem step_opened
    (o : Nat → Nat) {T : Nat → RedoBlockTag} {i : Nat} {id : UInt32}
    (hid : id ≠ 0) (hbegin : T i = edgeTag id) {w : Walk} (hidle : w.txnId = 0) :
    (w.enter o i).step crc T i = w.opened crc o i id := by
  rw [Walk.enter_eq, Walk.step, hbegin]
  dsimp only
  rw [tagKind_edge (edgeTag_isEdge hid), if_pos hidle, if_neg (edgeTag_offset_ne id)]
  simp only [Walk.openTxn, hbegin]
  rfl

/-- The end tag of an open transaction whose checksum agrees. -/
theorem step_closed
    (o : Nat → Nat) {T : Nat → RedoBlockTag} {i : Nat} {id : UInt32} {ws : Txn}
    (hid : id ≠ 0)
    (hdata : slice T (i + 1) ws.length = dataTags crc ws)
    (hend : T (i + 1 + ws.length) = endTagOf crc id ws)
    {w : Walk} (hopen : w.txnId = id) (hnew : w.isReplayed = false)
    (hbegin : w.beginAt = i) (hcsum : w.txnCsum = openCsum crc id ws) :
    (w.enter o (i + 1 + ws.length)).step crc T (i + 1 + ws.length) =
      { w with
        txnId := 0
        txnCsum := 0
        beginAt := 0
        pos := (txnFound crc i id ws w.pos).copies.1
        out := w.out ++ slotMessages o (i + 1 + ws.length) ++
          [.txnEnd ((i + 1 + ws.length) / keysPerBlock)
            ((i + 1 + ws.length) % keysPerBlock) id (txnCsum crc id ws)]
        found := w.found ++ [txnFound crc i id ws w.pos] } := by
  have hclosing : (w.enter o (i + 1 + ws.length)).closing crc T (i + 1 + ws.length) =
      txnFound crc i id ws w.pos := by
    rw [Walk.enter_eq]
    simp only [Walk.closing, hend, hbegin, hopen, hcsum, Nat.add_sub_cancel_left, hdata]
    rfl
  have hmessages : Walk.endMessages (i + 1 + ws.length) (txnFound crc i id ws w.pos) =
      [.txnEnd ((i + 1 + ws.length) / keysPerBlock)
        ((i + 1 + ws.length) % keysPerBlock) id (txnCsum crc id ws)] := by
    have hsum : (endTagOf crc id ws).offset.toUInt32 = txnCsum crc id ws := by
      exact UInt32.toUInt32_toUInt64 _
    simp [Walk.endMessages, txnFound, hsum]
  have hkind : tagKind (w.enter o (i + 1 + ws.length)).txnId
      (w.enter o (i + 1 + ws.length)).isReplayed (T (i + 1 + ws.length)) = .endTag := by
    rw [Walk.enter_eq, hend]
    dsimp only
    rw [tagKind_edge (endTagOf_isEdge crc hid ws), hopen, if_neg hid, hnew]
    rfl
  rw [Walk.step, hkind]
  simp only [Walk.closeTxn, hclosing, hmessages]
  rw [Walk.enter_eq]

/-- **A transaction without mark** is found with its own tags, and the checksum
computed from them is the one of its end tag. -/
theorem run_txn
    (o : Nat → Nat) {T : Nat → RedoBlockTag} {i : Nat} {id : UInt32} {ws : Txn}
    (hid : id ≠ 0) (hws : ws.Proper)
    (hT : slice T i (ws.length + 2) = txnTags crc false id ws)
    {w : Walk} (hidle : w.txnId = 0) :
    Walk.run crc o T (ws.length + 2) i w = w.afterTxn crc o i id ws := by
  obtain ⟨hbegin, hdata, hend⟩ := slice_txnTags crc hT
  have hlen : (dataTags crc ws).length = ws.length := by
    simp [dataTags]
  have hbody := run_data crc o (size_dataTags crc hws) (i := i + 1) (by rw [hlen, hdata])
    (w := w.opened crc o i id) rfl
  rw [hlen, foldl_dataTags] at hbody
  have hclose := step_closed crc o hid hdata hend
    (w := { w.opened crc o i id with
      txnCsum := openCsum crc id ws
      out := (w.opened crc o i id).out ++ rangeMessages o (i + 1) ws.length }) rfl rfl rfl rfl
  rw [show ws.length + 2 = ws.length + 1 + 1 by rfl, Walk.run,
    step_opened crc o hid hbegin hidle, Walk.run_add crc o T ws.length 1, hbody]
  refine hclose.trans ?_
  rw [Walk.afterTxn, txnReport, rangeMessages_add]
  simp [Walk.opened, rangeMessages]

/-- **A transaction with the mark** is passed, and the position does not move. -/
theorem run_skip
    (o : Nat → Nat) {T : Nat → RedoBlockTag} {i : Nat} {id : UInt32} {ws : Txn}
    (hid : id ≠ 0) (hws : ws.Proper)
    (hT : slice T i (ws.length + 2) = txnTags crc true id ws)
    {w : Walk} (hidle : w.txnId = 0) :
    Walk.run crc o T (ws.length + 2) i w = w.afterSkip o i id ws := by
  obtain ⟨hbegin, hdata, hend⟩ := slice_txnTags crc hT
  have hlen : (dataTags crc ws).length = ws.length := by
    simp [dataTags]
  have hedge : ((edgeTag id).marked).IsEdge := ⟨rfl, hid⟩
  have hopen : (w.enter o i).step crc T i =
      { w with
        txnId := id
        isReplayed := true
        out := w.out ++ slotMessages o i ++ [.alreadyReplayed id] } := by
    rw [Walk.enter_eq, Walk.step, hbegin]
    dsimp only
    rw [if_pos rfl, tagKind_edge hedge, if_pos hidle, if_pos (RedoBlockTag.marked_offset _)]
    simp only [Walk.skipTxn, hbegin]
    rfl
  have hbody := run_skippedData crc o (size_dataTags crc hws) (i := i + 1)
    (by rw [hlen, hdata])
    (w := { w with
      txnId := id
      isReplayed := true
      out := w.out ++ slotMessages o i ++ [.alreadyReplayed id] }) rfl
  rw [hlen] at hbody
  rw [show ws.length + 2 = ws.length + 1 + 1 by rfl, Walk.run, hopen,
    Walk.run_add crc o T ws.length 1, hbody, Walk.run, Walk.run, Walk.enter_eq, Walk.step, hend]
  dsimp only
  rw [tagKind_edge (endTagOf_isEdge crc hid ws), if_neg hid, if_pos rfl]
  rw [Walk.afterSkip, skipReport, rangeMessages_add]
  simp [rangeMessages]

end Transactions

theorem add_one_add_ofNat (id : UInt32) (k : Nat) :
    id + 1 + UInt32.ofNat k = id + UInt32.ofNat (k + 1) := by
  rw [UInt32.ofNat_add, UInt32.add_assoc, UInt32.add_comm 1]
  rfl

theorem one_add_ofNat_ne_zero {k : Nat} (h : k + 1 < 2 ^ 32) : 1 + UInt32.ofNat k ≠ 0 := by
  intro hz
  have hnat := congrArg UInt32.toNat hz
  rw [UInt32.toNat_add, UInt32.toNat_ofNat'] at hnat
  have h1 : (1 : UInt32).toNat = 1 := by
    rfl
  have h0 : (0 : UInt32).toNat = 0 := by
    rfl
  rw [h1, h0] at hnat
  omega

def tagCount (H : List Txn) : Nat :=
  (H.map (fun ws => ws.length + 2)).sum

@[simp] theorem tagCount_cons (ws : Txn) (H : List Txn) :
    tagCount (ws :: H) = ws.length + 2 + tagCount H := by
  simp [tagCount]

@[simp] theorem tagCount_append (H H' : List Txn) :
    tagCount (H ++ H') = tagCount H + tagCount H' := by
  simp [tagCount]

/-- A history of which some transactions carry the mark. -/
abbrev MarkedHistory := List (Bool × Txn)

namespace MarkedHistory

def txns (H : MarkedHistory) : List Txn :=
  H.map Prod.snd

def unmarked (H : List Txn) : MarkedHistory :=
  H.map (fun ws => (false, ws))

@[simp] theorem txns_unmarked (H : List Txn) : txns (unmarked H) = H := by
  simp [txns, unmarked]

@[simp] theorem txns_cons (m : Bool) (ws : Txn) (H : MarkedHistory) :
    txns ((m, ws) :: H) = ws :: txns H := by
  rfl

@[simp] theorem txns_append (H H' : MarkedHistory) :
    txns (H ++ H') = txns H ++ txns H' := by
  simp [txns]

section Walk

variable (crc : Bytes → UInt32)

def tags : UInt32 → MarkedHistory → List RedoBlockTag
  | _, [] => []
  | id, (m, ws) :: H => txnTags crc m id ws ++ tags (id + 1) H

/-- What the walk finds: the transactions without mark. -/
def found : Nat → UInt32 → Nat → MarkedHistory → List Found
  | _, _, _, [] => []
  | i, id, pos, (true, ws) :: H => found (i + (ws.length + 2)) (id + 1) pos H
  | i, id, pos, (false, ws) :: H =>
      txnFound crc i id ws pos ::
        found (i + (ws.length + 2)) (id + 1) (txnFound crc i id ws pos).copies.1 H

/-- The position of the data behind the history. -/
def endPos : Nat → UInt32 → Nat → MarkedHistory → Nat
  | _, _, pos, [] => pos
  | i, id, pos, (true, ws) :: H => endPos (i + (ws.length + 2)) (id + 1) pos H
  | i, id, pos, (false, ws) :: H =>
      endPos (i + (ws.length + 2)) (id + 1) (txnFound crc i id ws pos).copies.1 H

/-- What the walk prints. -/
def report (o : Nat → Nat) : Nat → UInt32 → MarkedHistory → List Message
  | _, _, [] => []
  | i, id, (true, ws) :: H =>
      skipReport o i id ws ++ report o (i + (ws.length + 2)) (id + 1) H
  | i, id, (false, ws) :: H =>
      txnReport crc o i id ws ++ report o (i + (ws.length + 2)) (id + 1) H

theorem found_append (i : Nat) (id : UInt32) (pos : Nat) (H H' : MarkedHistory) :
    found crc i id pos (H ++ H') =
      found crc i id pos H ++
        found crc (i + tagCount H.txns) (id + UInt32.ofNat H.length)
          (endPos crc i id pos H) H' := by
  induction H generalizing i id pos with
  | nil =>
      simp [found, endPos, txns, tagCount]
  | cons x H ih =>
      obtain ⟨m, ws⟩ := x
      have hid := add_one_add_ofNat id H.length
      cases m with
      | true =>
          rw [List.cons_append, found, ih, found, endPos, txns_cons, tagCount_cons,
            List.length_cons, hid, Nat.add_assoc i]
      | false =>
          rw [List.cons_append, found, ih, found, endPos, txns_cons, tagCount_cons,
            List.length_cons, hid, Nat.add_assoc i, List.cons_append]

/-- **The walk over the log of a history.** -/
theorem run_tags
    (o : Nat → Nat) {T : Nat → RedoBlockTag} (H : MarkedHistory) {i : Nat} {id : UInt32}
    (hids : ∀ k, k < H.length → id + UInt32.ofNat k ≠ 0)
    (hH : ∀ ws ∈ H.txns, ws.Proper)
    (hT : slice T i (tagCount H.txns) = tags crc id H)
    {w : Redo.Walk} (hidle : w.txnId = 0) :
    (Walk.run crc o T (tagCount H.txns) i w).txnId = 0 ∧
      (Walk.run crc o T (tagCount H.txns) i w).pos = endPos crc i id w.pos H ∧
      (Walk.run crc o T (tagCount H.txns) i w).out = w.out ++ report crc o i id H ∧
      (Walk.run crc o T (tagCount H.txns) i w).found = w.found ++ found crc i id w.pos H := by
  induction H generalizing i id w with
  | nil =>
      exact ⟨hidle, rfl, (List.append_nil _).symm, (List.append_nil _).symm⟩
  | cons x H ih =>
      obtain ⟨m, ws⟩ := x
      have hws : ws.Proper := hH ws (by simp)
      have hid : id ≠ 0 := by
        have h0 := hids 0 (by simp)
        simpa using h0
      have hids' : ∀ k, k < H.length → id + 1 + UInt32.ofNat k ≠ 0 := by
        intro k hk
        rw [add_one_add_ofNat]
        exact hids (k + 1) (by simpa using hk)
      rw [txns_cons, tagCount_cons] at hT ⊢
      rw [slice_append, tags] at hT
      obtain ⟨hhere, hrest⟩ := List.append_inj hT (by simp [txnTags, dataTags])
      rw [Walk.run_add]
      cases m with
      | true =>
          rw [run_skip crc o hid hws hhere hidle]
          obtain ⟨h1, h2, h3, h4⟩ := ih (w := w.afterSkip o i id ws) hids'
            (fun us hus => hH us (by simp [hus])) hrest rfl
          refine ⟨h1, h2, h3.trans ?_, h4⟩
          rw [report, ← List.append_assoc]
          rfl
      | false =>
          rw [run_txn crc o hid hws hhere hidle]
          obtain ⟨h1, h2, h3, h4⟩ := ih (w := w.afterTxn crc o i id ws) hids'
            (fun us hus => hH us (by simp [hus])) hrest rfl
          refine ⟨h1, h2, h3.trans ?_, h4.trans ?_⟩
          · rw [report, ← List.append_assoc]
            rfl
          · rw [found, List.append_cons]
            rfl

end Walk

/-- The indices of the begin tags that carry the mark. -/
def marksAt : Nat → MarkedHistory → List Nat
  | _, [] => []
  | i, (true, ws) :: H => i :: marksAt (i + (ws.length + 2)) H
  | i, (false, ws) :: H => marksAt (i + (ws.length + 2)) H

theorem le_of_mem_marksAt {i m : Nat} {H : MarkedHistory} (h : m ∈ marksAt i H) : i ≤ m := by
  induction H generalizing i with
  | nil =>
      simp [marksAt] at h
  | cons x H ih =>
      obtain ⟨marked, ws⟩ := x
      cases marked with
      | true =>
          rcases List.mem_cons.mp h with rfl | h
          · exact le_refl _
          · have := ih h
            omega
      | false =>
          have := ih h
          omega

theorem lt_of_mem_marksAt {i m : Nat} {H : MarkedHistory} (h : m ∈ marksAt i H) :
    m < i + tagCount H.txns := by
  induction H generalizing i with
  | nil =>
      simp [marksAt] at h
  | cons x H ih =>
      obtain ⟨marked, ws⟩ := x
      rw [txns_cons, tagCount_cons]
      cases marked with
      | true =>
          rcases List.mem_cons.mp h with rfl | h
          · omega
          · have := ih h
            omega
      | false =>
          have := ih h
          omega

theorem marksAt_unmarked (i : Nat) (H : List Txn) : marksAt i (unmarked H) = [] := by
  induction H generalizing i with
  | nil =>
      rfl
  | cons ws H ih =>
      exact ih _

end MarkedHistory

theorem slice_tagOf_append (as bs cs : List Entry) :
    slice (tagOf (as ++ (bs ++ cs))) as.length bs.length = bs.map Entry.tag := by
  induction bs generalizing as with
  | nil =>
      rfl
  | cons b bs ih =>
      have hhead : tagOf (as ++ (b :: bs ++ cs)) as.length = b.tag := by
        refine tagOf_of_getElem? ?_
        rw [List.getElem?_append_right (le_refl _), Nat.sub_self]
        rfl
      have htail := ih (as ++ [b])
      rw [List.length_append, List.length_singleton, List.append_assoc,
        List.singleton_append] at htail
      rw [List.length_cons, slice_succ, hhead, List.map_cons]
      exact congrArg (List.cons b.tag) htail

@[simp] theorem length_txnEntries (crc : Bytes → UInt32) (id : UInt32) (ws : Txn) :
    (txnEntries crc id ws).length = ws.length + 2 := by
  simp [txnEntries, openEntries]

theorem length_historyEntries (crc : Bytes → UInt32) (id : UInt32) (H : List Txn) :
    (historyEntries crc id H).length = tagCount H := by
  induction H generalizing id with
  | nil =>
      rfl
  | cons ws H ih =>
      rw [historyEntries, List.length_append, length_txnEntries, ih, tagCount_cons]

theorem map_tag_txnEntries (crc : Bytes → UInt32) (id : UInt32) (ws : Txn) :
    (txnEntries crc id ws).map Entry.tag = txnTags crc false id ws := by
  simp only [txnEntries, openEntries, List.map_append, List.map_cons, List.map_map, txnTags,
    dataTags]
  rfl

theorem slice_markedTagOf_txn
    (crc : Bytes → UInt32) (as cs : List Entry) (id : UInt32) (ws : Txn)
    {M : List Nat} {marked : Bool}
    (hbegin : as.length ∈ M ↔ marked = true)
    (hrest : ∀ m ∈ M, as.length < m → as.length + (ws.length + 2) ≤ m) :
    slice (markedTagOf (as ++ (txnEntries crc id ws ++ cs)) M) as.length (ws.length + 2) =
      txnTags crc marked id ws := by
  have hplain := slice_tagOf_append as (txnEntries crc id ws) cs
  rw [length_txnEntries, map_tag_txnEntries, slice_succ, txnTags] at hplain
  obtain ⟨hhead, htail⟩ := List.cons.inj hplain
  have hcongr : slice (markedTagOf (as ++ (txnEntries crc id ws ++ cs)) M)
      (as.length + 1) (ws.length + 1) =
      slice (tagOf (as ++ (txnEntries crc id ws ++ cs))) (as.length + 1) (ws.length + 1) := by
    refine slice_congr ?_
    intro g h1 h2
    have hnot : g ∉ M := by
      intro hg
      have := hrest g hg (by omega)
      omega
    rw [markedTagOf, if_neg hnot]
  rw [slice_succ, hcongr, htail, markedTagOf, hhead, txnTags]
  cases marked with
  | true =>
      rw [if_pos (hbegin.mpr rfl)]
      rfl
  | false =>
      rw [if_neg (fun hm => absurd (hbegin.mp hm) (by simp))]

theorem slice_markedTagOf_history
    (crc : Bytes → UInt32) (H : MarkedHistory) (as cs : List Entry) (id : UInt32)
    {M : List Nat} (hM : ∀ m, as.length ≤ m → (m ∈ M ↔ m ∈ MarkedHistory.marksAt as.length H)) :
    slice (markedTagOf (as ++ (historyEntries crc id H.txns ++ cs)) M) as.length
        (tagCount H.txns) =
      MarkedHistory.tags crc id H := by
  induction H generalizing as id with
  | nil =>
      rfl
  | cons x H ih =>
      obtain ⟨marked, ws⟩ := x
      have hlater : ∀ m, m ∈ MarkedHistory.marksAt (as.length + (ws.length + 2)) H →
          as.length + (ws.length + 2) ≤ m := fun m hm => MarkedHistory.le_of_mem_marksAt hm
      have hbegin : as.length ∈ M ↔ marked = true := by
        rw [hM _ (le_refl _)]
        cases marked with
        | true =>
            simp [MarkedHistory.marksAt]
        | false =>
            constructor
            · intro hm
              have := hlater _ hm
              omega
            · simp
      have hnext : ∀ m ∈ M, as.length < m → as.length + (ws.length + 2) ≤ m := by
        intro m hm hlt
        rw [hM m (le_of_lt hlt)] at hm
        cases marked with
        | true =>
            rcases List.mem_cons.mp hm with rfl | hm
            · omega
            · exact hlater m hm
        | false =>
            exact hlater m hm
      have hhere := slice_markedTagOf_txn crc as
        (historyEntries crc (id + 1) (MarkedHistory.txns H) ++ cs) id ws hbegin hnext
      have hrest := ih (as ++ txnEntries crc id ws) (id + 1) (by
        intro m hm
        rw [List.length_append, length_txnEntries] at hm ⊢
        rw [hM m (by omega)]
        cases marked with
        | true =>
            rw [MarkedHistory.marksAt, List.mem_cons]
            constructor
            · rintro (rfl | h)
              · omega
              · exact h
            · exact Or.inr
        | false =>
            rfl)
      rw [List.length_append, length_txnEntries, List.append_assoc] at hrest
      rw [MarkedHistory.txns_cons, tagCount_cons, slice_append, historyEntries,
        List.append_assoc, hhere, hrest]
      rfl

section Logs

variable (crc : Bytes → UInt32) {H : MarkedHistory}
variable (hids : H.length < 2 ^ 32) (hH : ∀ ws ∈ H.txns, ws.Proper)
variable {k : Nat} (hk : tagCount H.txns ≤ keysPerBlock * k) (out : List Message)

include hids hH hk

/-- **The log of a history** of which some transactions carry the mark, followed by
tags that are neither begin nor end tags: the transactions without mark are found. -/
theorem found_walkLog_append {cs : List Entry} (hcs : ∀ e ∈ cs, ¬ e.tag.IsEdge) :
    (walkLog crc (historyEntries crc 1 H.txns ++ cs) (MarkedHistory.marksAt 0 H) k out).found =
      MarkedHistory.found crc 0 1 (redoHeaderSize + redoLogBlockSize) H := by
  have hT := slice_markedTagOf_history crc H [] cs 1 (fun m _ => Iff.rfl)
  obtain ⟨_, _, _, hfound⟩ := MarkedHistory.run_tags crc
    (keybPos (historyEntries crc 1 H.txns ++ cs)) H
    (fun k hk => one_add_ofNat_ne_zero (by omega)) hH hT (i := 0)
    (w := Walk.start out) rfl
  have htail : ∀ g, tagCount H.txns ≤ g →
      ¬ (markedTagOf (historyEntries crc 1 H.txns ++ cs) (MarkedHistory.marksAt 0 H) g).IsEdge := by
    intro g hg
    rw [RedoBlockTag.IsEdge, markedTagOf_size, markedTagOf_blkCrc,
      tagOf_append_right _ _ (by rw [length_historyEntries]; exact hg)]
    exact not_isEdge_tagOf hcs _
  rw [walkLog, ← Nat.add_sub_cancel' hk, Walk.run_add,
    Walk.found_run_of_not_isEdge (fun g hg _ => htail g (by omega))]
  exact hfound

theorem walkLog_history :
    (walkLog crc (historyEntries crc 1 H.txns) (MarkedHistory.marksAt 0 H) k out).found =
        MarkedHistory.found crc 0 1 (redoHeaderSize + redoLogBlockSize) H ∧
      (walkLog crc (historyEntries crc 1 H.txns) (MarkedHistory.marksAt 0 H) k out).out =
        out ++ MarkedHistory.report crc (keybPos (historyEntries crc 1 H.txns)) 0 1 H ++
          rangeMessages (keybPos (historyEntries crc 1 H.txns)) (tagCount H.txns)
            (keysPerBlock * k - tagCount H.txns) ∧
      (walkLog crc (historyEntries crc 1 H.txns) (MarkedHistory.marksAt 0 H) k out).txnId = 0 := by
  have hT := slice_markedTagOf_history crc H [] [] 1 (M := MarkedHistory.marksAt 0 H)
    (fun _ _ => Iff.rfl)
  rw [List.append_nil] at hT
  obtain ⟨hidle, _, hout, hfound⟩ := MarkedHistory.run_tags crc
    (keybPos (historyEntries crc 1 H.txns)) H
    (fun k hk => one_add_ofNat_ne_zero (by omega)) hH hT
    (w := Walk.start out) rfl
  have hlen : (historyEntries crc 1 H.txns).length = tagCount H.txns :=
    length_historyEntries crc 1 H.txns
  have htail : slice (markedTagOf (historyEntries crc 1 H.txns) (MarkedHistory.marksAt 0 H))
      (tagCount H.txns) (keysPerBlock * k - tagCount H.txns) =
      List.replicate (keysPerBlock * k - tagCount H.txns) RedoBlockTag.empty := by
    rw [← slice_tagOf_of_le (historyEntries crc 1 H.txns) (le_of_eq hlen)]
    refine slice_congr ?_
    intro g hg _
    have hnot : g ∉ MarkedHistory.marksAt 0 H := by
      intro hm
      have := MarkedHistory.lt_of_mem_marksAt hm
      omega
    rw [markedTagOf, if_neg hnot]
  have hsplit : keysPerBlock * k = tagCount H.txns + (keysPerBlock * k - tagCount H.txns) := by
    omega
  rw [walkLog, hsplit, Walk.run_add, Nat.zero_add,
    run_unused crc _ _ htail, Nat.add_sub_cancel_left]
  exact ⟨hfound, congrArg (fun l => l ++ _) hout, hidle⟩

end Logs

end Redo
end Rfsck
