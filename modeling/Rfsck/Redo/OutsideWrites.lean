import Rfsck.Redo.Restart

/-!
# Writes outside transactions

`rfsck_write` logs a tag and data whether or not a transaction is open.  The replayer
passes the tag of such a write, but its running position does not pass the data.

* A history with such writes is a list of `Piece`s.
* `run_pieces`: the walk finds the transactions, with positions that have moved over the
  data of transactions only.
* `InertFrom`: no transaction that has writes follows a write outside transactions (or a
  full key block, as for histories without such writes).
* `outside_writes_inert`: under this condition the device only depends on the
  transactions.
* `outside_write_changes_device`: a byte that is written before the first transaction
  gets to the place of the first write of that transaction.
-/

namespace Rfsck
namespace Redo

open Storage

/-- A transaction, or a write while no transaction is open. -/
inductive Piece where
  | txn (ws : Txn)
  | outside (req : WriteReq)

namespace Piece

/-- Writes have data and fit one system call. -/
def Proper : Piece → Prop
  | txn ws => Txn.Proper ws
  | outside req => Txn.Proper [req]

/-- The calls of a history with writes outside transactions. -/
def calls : List Piece → List Call
  | [] => []
  | txn ws :: xs => txnCalls ws ++ calls xs
  | outside req :: xs => .write req :: calls xs

/-- The transactions of such a history. -/
def txns : List Piece → List Txn
  | [] => []
  | txn ws :: xs => ws :: txns xs
  | outside _ :: xs => txns xs

/-- Its number of tags. -/
def tagCount : List Piece → Nat
  | [] => 0
  | txn ws :: xs => ws.length + 2 + tagCount xs
  | outside _ :: xs => 1 + tagCount xs

section Entries

variable (crc : Bytes → UInt32)

/-- The entries, when the first transaction has the given id. -/
def entries : UInt32 → List Piece → List Entry
  | _, [] => []
  | id, txn ws :: xs => txnEntries crc id ws ++ entries (id + 1) xs
  | id, outside req :: xs => req.entry crc :: entries id xs

/-- What the walk finds from tag `i` and position `pos` on. -/
def found : Nat → UInt32 → Nat → List Piece → List Found
  | _, _, _, [] => []
  | i, id, pos, txn ws :: xs =>
      txnFound crc i id ws pos ::
        found (i + (ws.length + 2)) (id + 1) (txnFound crc i id ws pos).copies.1 xs
  | i, id, pos, outside _ :: xs => found (i + 1) id pos xs

theorem length_entries (id : UInt32) (xs : List Piece) :
    (entries crc id xs).length = tagCount xs := by
  induction xs generalizing id with
  | nil =>
      rfl
  | cons x xs ih =>
      cases x with
      | txn ws =>
          rw [entries, List.length_append, length_txnEntries, ih, tagCount]
      | outside req =>
          rw [entries, List.length_cons, ih, tagCount, Nat.add_comm]

end Entries

/-- No transaction with writes stands behind a write outside transactions or behind a
full key block, when the first tag has index `i`. -/
def InertFrom : Nat → List Piece → Prop
  | _, [] => True
  | i, txn ws :: xs =>
      ((i + (ws.length + 2)) % keysPerBlock = 0 → ∀ us ∈ txns xs, us = []) ∧
        InertFrom (i + (ws.length + 2)) xs
  | i, outside _ :: xs => (∀ us ∈ txns xs, us = []) ∧ InertFrom (i + 1) xs

end Piece

section Writing

variable {crc : Bytes → UInt32}
variable {es : List Entry} {n : Nat} {s : State}

theorem Session.writes
    (h : Session crc es [] n [] s) {ws : Txn} (hws : ws.Proper) :
    ∃ n', Session crc (es ++ ws.map (WriteReq.entry crc)) [] n' []
        (runCalls crc (ws.map Call.write) s) ∧
      (runCalls crc (ws.map Call.write) s).data.txnId = s.data.txnId ∧
      (runCalls crc (ws.map Call.write) s).data.txnCsum =
        ws.foldl (fun c req => c ^^^ crc (req.tag crc).encode) s.data.txnCsum := by
  induction ws generalizing es n s with
  | nil =>
      exact ⟨n, by simpa using h, rfl, rfl⟩
  | cons req ws ih =>
      obtain ⟨_, hwhole⟩ := hws req (by simp)
      have hstep := h.write hwhole
      rw [clearMarks_nil] at hstep
      obtain ⟨n', hs, hid, hcsum⟩ := ih hstep (fun r hr => hws r (List.mem_cons_of_mem req hr))
      have hcsum' : (rfsckWrite crc req s).2.data.txnCsum =
          s.data.txnCsum ^^^ crc (req.tag crc).encode := by
        rw [rfsckWrite_eq crc h.outcomes_nil hwhole]
        exact (rollKeyb_txn _).2
      refine ⟨n', ?_, ?_, ?_⟩
      · rw [List.append_assoc] at hs
        exact hs
      · exact hid.trans (rfsckWrite_txnId crc h.outcomes_nil hwhole)
      · rw [List.foldl_cons, ← hcsum']
        exact hcsum

theorem Session.openTxn
    (h : Session crc es [] n [] s) {ws : Txn} (hws : ws.Proper) :
    ∃ n', Session crc (es ++ openEntries crc s.data.txnId ws) [] n' []
        (runCalls crc (ws.map Call.write) (rfsckTxnBegin crc 0 s).2) ∧
      (runCalls crc (ws.map Call.write) (rfsckTxnBegin crc 0 s).2).data.txnId = s.data.txnId ∧
      (runCalls crc (ws.map Call.write) (rfsckTxnBegin crc 0 s).2).data.endCsum crc =
        txnCsum crc s.data.txnId ws := by
  have hbegin := h.txnBegin
  rw [clearMarks_nil] at hbegin
  have hid := rfsckTxnBegin_txnId crc h.outcomes_nil
  have hcsum : (rfsckTxnBegin crc 0 s).2.data.txnCsum =
      txnChksmCnst ^^^ crc (edgeTag s.data.txnId).encode := by
    rw [rfsckTxnBegin_eq crc h.outcomes_nil]
    exact (rollKeyb_txn _).2
  obtain ⟨n', hs, hid', hcsum'⟩ := hbegin.writes hws
  rw [hid] at hid'
  rw [hcsum] at hcsum'
  rw [List.append_assoc] at hs
  refine ⟨n', hs, hid', ?_⟩
  rw [RedoPrivateData.endCsum, hcsum', RedoPrivateData.beginTag, hid']
  rfl

theorem runCalls_txnCalls (crc : Bytes → UInt32) (ws : Txn) (s : State) :
    runCalls crc (txnCalls ws) s =
      (rfsckTxnEnd crc (runCalls crc (ws.map Call.write) (rfsckTxnBegin crc 0 s).2)).2 := by
  rw [txnCalls, runCalls_cons, runCalls_append]
  rfl

theorem Session.txn
    (h : Session crc es [] n [] s) {ws : Txn} (hws : ws.Proper) :
    ∃ n', Session crc (es ++ txnEntries crc s.data.txnId ws) [] n' []
        (runCalls crc (txnCalls ws) s) ∧ 0 < n' ∧
      (runCalls crc (txnCalls ws) s).data.txnId = s.data.txnId + 1 := by
  obtain ⟨n', hs, hid, hsum⟩ := h.openTxn hws
  rw [runCalls_txnCalls]
  generalize runCalls crc (ws.map Call.write) (rfsckTxnBegin crc 0 s).2 = t at *
  have hend := hs.txnEnd
  rw [clearMarks_nil, clearMarks_nil, hsum, hid, List.append_assoc] at hend
  refine ⟨_, hend, Nat.succ_pos _, ?_⟩
  rw [rfsckTxnEnd_eq crc hs.outcomes_nil]
  refine (rollKeyb_txn _).1.trans ?_
  change t.data.txnId + 1 = _
  rw [hid]

/-- **The log of a history** with writes outside transactions. -/
theorem Session.pieces
    (h : Session crc es [] n [] s) {xs : List Piece} (hxs : ∀ x ∈ xs, x.Proper) :
    ∃ n', Session crc (es ++ Piece.entries crc s.data.txnId xs) [] n' []
        (runCalls crc (Piece.calls xs) s) ∧ (0 < n ∨ xs ≠ [] → 0 < n') := by
  induction xs generalizing es n s with
  | nil =>
      exact ⟨n, by simpa [Piece.entries, Piece.calls] using h, fun hn => by simpa using hn⟩
  | cons x xs ih =>
      have hx := hxs x (by simp)
      have hrest : ∀ y ∈ xs, y.Proper := fun y hy => hxs y (List.mem_cons_of_mem x hy)
      cases x with
      | txn ws =>
          obtain ⟨m, hs, hm, hid⟩ := h.txn hx
          obtain ⟨n', hs', hn'⟩ := ih hs hrest
          rw [hid, List.append_assoc] at hs'
          refine ⟨n', ?_, fun _ => hn' (Or.inl hm)⟩
          rw [Piece.calls, runCalls_append]
          exact hs'
      | outside req =>
          obtain ⟨_, hwhole⟩ := hx req (by simp)
          have hs := h.write hwhole
          rw [clearMarks_nil] at hs
          obtain ⟨n', hs', hn'⟩ := ih hs hrest
          have hid : (rfsckWrite crc req s).2.data.txnId = s.data.txnId :=
            rfsckWrite_txnId crc h.outcomes_nil hwhole
          rw [hid, List.append_assoc] at hs'
          exact ⟨n', hs', fun _ => hn' (Or.inl (Nat.succ_pos _))⟩

theorem Piece.logging_of_mem_calls
    {xs : List Piece} (hxs : ∀ x ∈ xs, x.Proper) {c : Call} (hc : c ∈ Piece.calls xs) :
    c.Logging := by
  induction xs with
  | nil =>
      simp [Piece.calls] at hc
  | cons x xs ih =>
      have hx := hxs x (by simp)
      have hrest : ∀ y ∈ xs, y.Proper := fun y hy => hxs y (List.mem_cons_of_mem x hy)
      cases x with
      | txn ws =>
          rw [Piece.calls] at hc
          rcases List.mem_append.mp hc with hc | hc
          · exact logging_of_mem_txnCalls hx hc
          · exact ih hrest hc
      | outside req =>
          rw [Piece.calls] at hc
          rcases List.mem_cons.mp hc with rfl | hc
          · exact (hx req (by simp)).2
          · exact ih hrest hc

end Writing

section Walking

variable (crc : Bytes → UInt32)

/-- **The walk over a history** with writes outside transactions. -/
theorem run_pieces
    (o : Nat → Nat) {T : Nat → RedoBlockTag} (xs : List Piece) {i : Nat} {id : UInt32}
    (hid : ∀ k, k < (Piece.txns xs).length → id + UInt32.ofNat k ≠ 0)
    (hxs : ∀ x ∈ xs, x.Proper)
    (hT : slice T i (Piece.tagCount xs) = (Piece.entries crc id xs).map Entry.tag)
    {w : Walk} (hidle : w.txnId = 0) (hnew : w.isReplayed = false) :
    (Walk.run crc o T (Piece.tagCount xs) i w).found =
      w.found ++ Piece.found crc i id w.pos xs := by
  induction xs generalizing i id w with
  | nil =>
      simp [Piece.tagCount, Piece.found, Walk.run]
  | cons x xs ih =>
      have hx := hxs x (by simp)
      have hrest : ∀ y ∈ xs, y.Proper := fun y hy => hxs y (List.mem_cons_of_mem x hy)
      cases x with
      | txn ws =>
          have hfirst : id ≠ 0 := by
            have hzero := hid 0 (Nat.succ_pos _)
            rwa [show id + UInt32.ofNat 0 = id from UInt32.add_zero id] at hzero
          rw [Piece.tagCount, slice_append, Piece.entries, List.map_append,
            map_tag_txnEntries] at hT
          obtain ⟨hhere, hthere⟩ := List.append_inj hT (by
            simp [txnTags, dataTags])
          have hids : ∀ k, k < (Piece.txns xs).length → id + 1 + UInt32.ofNat k ≠ 0 := by
            intro k hk
            rw [add_one_add_ofNat]
            exact hid (k + 1) (Nat.succ_lt_succ hk)
          have hnext := ih hids hrest hthere (w := w.afterTxn crc o i id ws) rfl rfl
          rw [Piece.tagCount, Walk.run_add, run_txn crc o hfirst hx hhere hidle, hnext,
            Piece.found, Walk.afterTxn]
          simp
      | outside req =>
          rw [Piece.tagCount, slice_append, Piece.entries, List.map_cons,
            ← List.singleton_append] at hT
          obtain ⟨hhere, hthere⟩ := List.append_inj hT (by simp)
          have hdata := run_data crc o (size_dataTags crc hx) hhere hnew
          have hnext := ih hid hrest hthere
            (w := { w with
              txnCsum := w.txnCsum ^^^ crc (req.tag crc).encode
              out := w.out ++ rangeMessages o i 1 }) hidle hnew
          rw [Piece.tagCount, Walk.run_add]
          refine (congrArg (fun v => (Walk.run crc o T (Piece.tagCount xs) (i + 1) v).found)
            hdata).trans ?_
          exact hnext

variable {crc}

theorem devPatches_pieces
    {es : List Entry} (B : Nat → RedoBlock) (xs : List Piece)
    {f : ByteFile} (h : DataHolds es f) (as : List Entry) {id : UInt32}
    (hes : es = as ++ Piece.entries crc id xs)
    {pos : Nat} (hpos : pos = dataPos es as.length ∨ ∀ ws ∈ Piece.txns xs, ws = [])
    (hinert : Piece.InertFrom as.length xs) (M : List Nat) :
    devPatches f (actionsOf (keybPos es) B M (Piece.found crc as.length id pos xs)) =
      historyPatches (Piece.txns xs) := by
  induction xs generalizing f as id pos M with
  | nil =>
      rfl
  | cons x xs ih =>
      cases x with
      | txn ws =>
          have hmark := h.pwrite_keyb (as.length / keysPerBlock)
            ((B (as.length / keysPerBlock)).clearReserved.remark (as.length / keysPerBlock)
              (M ++ [as.length]))
          rw [Piece.entries] at hes
          have hlen : (as ++ txnEntries crc id ws).length = as.length + (ws.length + 2) := by
            rw [List.length_append, length_txnEntries]
          have hposition : (txnFound crc as.length id ws pos).copies.1 =
              dataPos es (as.length + (ws.length + 2)) ∨ ∀ us ∈ Piece.txns xs, us = [] := by
            rcases hpos with rfl | hempty
            · by_cases hmod : (as.length + (ws.length + 2)) % keysPerBlock = 0
              · exact Or.inr (hinert.1 hmod)
              · exact Or.inl (copies_fst_of_not_full hes hmod)
            · exact Or.inr (fun us hus => hempty us (List.mem_cons_of_mem ws hus))
          have hrest := hinert.2
          rw [← hlen] at hposition hrest
          have hnext := ih hmark (as ++ txnEntries crc id ws)
            (by rw [hes, List.append_assoc]) hposition hrest (M ++ [as.length])
          rw [hlen] at hnext
          have hhere : devPatches f (txnFound crc as.length id ws pos).copies.2 =
              ws.map WriteReq.patch := by
            rcases hpos with rfl | hempty
            · exact devPatches_txn h hes
            · rw [hempty ws (by simp [Piece.txns])]
              rfl
          rw [Piece.found, devPatches_actions, hhere, Piece.txns, historyPatches_cons]
          exact congrArg _ hnext
      | outside req =>
          obtain ⟨hempty, hrest⟩ := hinert
          have hlen : (as ++ [req.entry crc]).length = as.length + 1 := by
            simp
          rw [← hlen] at hrest
          have hes' : es = as ++ [req.entry crc] ++ Piece.entries crc id xs := by
            rw [hes, Piece.entries, List.append_assoc, List.singleton_append]
          have hlate : pos = dataPos es (as ++ [req.entry crc]).length ∨
              ∀ ws ∈ Piece.txns xs, ws = [] := Or.inr hempty
          have hnext := ih h (as ++ [req.entry crc]) hes' hlate hrest M
          rw [hlen] at hnext
          rw [Piece.found, Piece.txns]
          exact hnext

theorem inside_pieces
    {es : List Entry} (B : Nat → RedoBlock) (xs : List Piece) (hxs : ∀ x ∈ xs, x.Proper)
    {f : ByteFile} (h : DataHolds es f) (as : List Entry) {id : UInt32}
    (hes : es = as ++ Piece.entries crc id xs)
    {pos : Nat} (hpos : pos ≤ dataPos es as.length) (M : List Nat) :
    ∀ a ∈ actionsOf (keybPos es) B M (Piece.found crc as.length id pos xs),
      a.Inside f.size := by
  induction xs generalizing as id pos M with
  | nil =>
      intro a ha
      simp [Piece.found, actionsOf] at ha
  | cons x xs ih =>
      have hx := hxs x (by simp)
      have hrest : ∀ y ∈ xs, y.Proper := fun y hy => hxs y (List.mem_cons_of_mem x hy)
      cases x with
      | txn ws =>
          rw [Piece.entries] at hes
          obtain ⟨hend, hcopies⟩ := inside_txn h hx hes hpos
          have hlen : (as ++ txnEntries crc id ws).length = as.length + (ws.length + 2) := by
            rw [List.length_append, length_txnEntries]
          rw [← hlen] at hend
          have hnext := ih hrest (as ++ txnEntries crc id ws)
            (by rw [hes, List.append_assoc]) hend (M ++ [as.length])
          rw [hlen] at hnext
          intro a ha
          rw [Piece.found, actionsOf, Found.actions] at ha
          rcases List.mem_append.mp ha with ha | ha
          · rcases List.mem_append.mp ha with ha | ha
            · exact hcopies a ha
            · rw [List.mem_singleton.mp ha]
              trivial
          · exact hnext a ha
      | outside req =>
          have hes' : es = as ++ [req.entry crc] ++ Piece.entries crc id xs := by
            rw [hes, Piece.entries, List.append_assoc, List.singleton_append]
          have hlen : (as ++ [req.entry crc]).length = as.length + 1 := by
            simp
          have hpos' : pos ≤ dataPos es (as ++ [req.entry crc]).length := by
            rw [hlen]
            exact le_trans hpos (dataPos_mono es (Nat.le_succ _))
          have hnext := ih hrest (as ++ [req.entry crc]) hes' hpos' M
          rw [hlen] at hnext
          rw [Piece.found]
          exact hnext

end Walking

section Device

variable {crc : Bytes → UInt32}
variable {w : World} {s : State} {xs ys : List Piece}

/-- Writes have data and fit one system call, ids do not wrap around, and neither does
the `int` that counts key blocks. -/
structure Piece.Bounded (xs : List Piece) : Prop where
  proper : ∀ x ∈ xs, x.Proper
  length_lt : (txns xs).length < 2 ^ 32
  blocks_lt : tagCount xs / keysPerBlock < 2 ^ 31

theorem FreshlyOpened.replay_pieces
    (h : FreshlyOpened crc w s) (hxs : Piece.Bounded xs) (sync : Bool) :
    ∃ f B, DataHolds (Piece.entries crc 1 xs) f ∧
      (runCalls crc (Piece.calls xs ++ [.markDone true, .replay sync]) s).world.file
          (.dev s.data.devFd) =
        applyPatches (w.file (.dev s.data.devFd))
          (devPatches f (actionsOf (keybPos (Piece.entries crc 1 xs)) B []
            (Piece.found crc 0 1 (redoHeaderSize + redoLogBlockSize) xs))) := by
  obtain ⟨hopen, hid, _, hworld⟩ := h.session
  obtain ⟨n, hs, -⟩ := hopen.pieces hxs.proper
  rw [hid, List.nil_append] at hs
  have hlogging : ∀ c ∈ Piece.calls xs ++ [.markDone true], c.Logging := by
    intro c hc
    rcases List.mem_append.mp hc with hc | hc
    · exact Piece.logging_of_mem_calls hxs.proper hc
    · rw [List.mem_singleton.mp hc]
      trivial
  obtain ⟨hfd, hdev⟩ := runCalls_dev crc hlogging hopen.outcomes_nil s.data.devFd
  rw [runCalls_append, runCalls_cons, runCalls_nil] at hfd hdev
  have hcalls : runCalls crc (Piece.calls xs ++ [.markDone true, .replay sync]) s =
      (rfsckReplay crc sync (redoMarkDone crc true (runCalls crc (Piece.calls xs) s)).2).2 := by
    rw [runCalls_append]
    rfl
  rw [hcalls]
  have hdone := hs.markDone true
  rw [clearMarks_nil] at hdone
  have hhdr := (redoMarkDone_hdr crc hs.outcomes_nil true).1
  have hkeys := hs.writer.numKeys_eq
  have hopened : s.world.file (.dev s.data.devFd) = w.file (.dev s.data.devFd) := by
    rw [hworld, file_dev_push_redo]
  generalize runCalls crc (Piece.calls xs) s = t at *
  have hfd' : (redoMarkDone crc true t).2.data.devFd = s.data.devFd := hfd
  have hdev' : (redoMarkDone crc true t).2.world.file (.dev s.data.devFd) =
      s.world.file (.dev s.data.devFd) := hdev
  have hvisited : (redoMarkDone crc true t).2.data.hdr.visited =
      Piece.tagCount xs / keysPerBlock + 1 := by
    refine visited_of_numKeys ?_ hxs.blocks_lt
    have hcount : (t.doneHeader crc true).numKeys = UInt64.ofNat t.data.numKeys := by
      rfl
    have hlt := hxs.blocks_lt
    rw [hhdr, hcount, hkeys, Piece.length_entries, UInt64.toNat_ofNat_of_lt']
    rw [show UInt64.size = 2 ^ 64 from rfl]
    omega
  have hfin : (redoMarkDone crc true t).2.data.hdr.state = e2redoStateFinished := by
    rw [hhdr]
    rfl
  generalize (redoMarkDone crc true t).2 = u at *
  have hfound : (walkLog crc (Piece.entries crc 1 xs) [] u.data.hdr.visited u.out).found =
      Piece.found crc 0 1 (redoHeaderSize + redoLogBlockSize) xs := by
    have hslice := slice_tagOf_append [] (Piece.entries crc 1 xs) []
    rw [List.nil_append, List.append_nil, Piece.length_entries] at hslice
    have hwalk := run_pieces crc (keybPos (Piece.entries crc 1 xs)) xs
      (fun k hk => one_add_ofNat_ne_zero (by have := hxs.length_lt; omega)) hxs.proper hslice
      (w := Walk.start u.out) rfl rfl
    have hle := le_keysPerBlock_mul (Piece.tagCount xs)
    rw [walkLog, markedTagOf_nil, hvisited, ← Nat.add_sub_cancel' hle, Walk.run_add,
      Walk.found_run_of_not_isEdge]
    · exact hwalk
    · intro g hg _
      rw [tagOf_of_le _ (by rw [Piece.length_entries]; omega)]
      decide
  have hacts := (hdone.finishedLog hfin).planLog_follows.acts_eq
  rw [hfound] at hacts
  have hdata : DataHolds (Piece.entries crc 1 xs) (u.world.file .redo) := hdone.stored.data_holds
  have hinside : ∀ a ∈ (planLog crc u).2, a.Inside (u.world.file .redo).size := by
    rw [hacts]
    exact inside_pieces _ xs hxs.proper hdata [] rfl (le_refl _) []
  have hreplay := (hdone.finishedLog hfin).replay_dev hdone.outcomes_nil hinside sync
  rw [hfd', hdev', hopened, hacts] at hreplay
  exact ⟨u.world.file .redo, _, hdata, hreplay⟩

/-- **Writes outside transactions are inert** when no transaction with writes comes
behind them: the device gets the writes of the transactions. -/
theorem FreshlyOpened.replay_of_inert
    (h : FreshlyOpened crc w s) (hxs : Piece.Bounded xs) (hinert : Piece.InertFrom 0 xs)
    (sync : Bool) :
    (runCalls crc (Piece.calls xs ++ [.markDone true, .replay sync]) s).world.file
        (.dev s.data.devFd) =
      applyPatches (w.file (.dev s.data.devFd)) (historyPatches (Piece.txns xs)) := by
  obtain ⟨f, B, hdata, hdev⟩ := h.replay_pieces hxs sync
  rw [hdev]
  exact congrArg _ (devPatches_pieces B xs hdata [] rfl (Or.inl rfl) hinert [])

/-- **Two histories with the same transactions**, which differ in writes outside
transactions, leave the same device, if in both no transaction with writes comes behind
such a write. -/
theorem outside_writes_inert
    (h : FreshlyOpened crc w s) (hxs : Piece.Bounded xs) (hys : Piece.Bounded ys)
    (htxns : Piece.txns xs = Piece.txns ys)
    (hinert : Piece.InertFrom 0 xs) (hinert' : Piece.InertFrom 0 ys) (sync : Bool) :
    (runCalls crc (Piece.calls xs ++ [.markDone true, .replay sync]) s).world.file
        (.dev s.data.devFd) =
      (runCalls crc (Piece.calls ys ++ [.markDone true, .replay sync]) s).world.file
        (.dev s.data.devFd) := by
  rw [h.replay_of_inert hxs hinert sync, h.replay_of_inert hys hinert' sync, htxns]

theorem bounded_of_byteWrites
    {xs : List Piece} (htxn : ∀ ws, .txn ws ∈ xs → ∀ req ∈ ws, req.buf.length = 1)
    (hout : ∀ req, .outside req ∈ xs → req.buf.length = 1)
    (hlen : (Piece.txns xs).length < 2 ^ 32) (hblocks : Piece.tagCount xs / keysPerBlock < 2 ^ 31) :
    Piece.Bounded xs := by
  refine ⟨?_, hlen, hblocks⟩
  intro x hx
  cases x with
  | txn ws =>
      exact proper_of_byteWrites (htxn ws hx)
  | outside req =>
      refine proper_of_byteWrites ?_
      intro r hr
      rw [List.mem_singleton.mp hr]
      exact hout req hx

/-- A write behind the last transaction. -/
theorem outside_writes_inert_behind_txn :
    (runCalls crc32c (Piece.calls [.txn [byteWrite 0 7], .outside (byteWrite 1 9)] ++
        [.markDone true, .replay true]) (blankState crc32c)).world.file
        (.dev (blankState crc32c).data.devFd) =
      (runCalls crc32c (Piece.calls [.txn [byteWrite 0 7]] ++
        [.markDone true, .replay true]) (blankState crc32c)).world.file
        (.dev (blankState crc32c).data.devFd) := by
  refine outside_writes_inert (blankState_freshlyOpened crc32c) ?_ ?_ ?_ ?_ ?_ true
  · exact bounded_of_byteWrites (by simp [byteWrite]) (by simp [byteWrite]) (by decide) (by decide)
  · exact bounded_of_byteWrites (by simp [byteWrite]) (by simp) (by decide) (by decide)
  · rfl
  · exact ⟨fun _ us hus => by simp [Piece.txns] at hus,
      fun us hus => by simp [Piece.txns] at hus, trivial⟩
  · exact ⟨fun _ us hus => by simp [Piece.txns] at hus, trivial⟩

theorem FreshlyOpened.replay_behind_outside
    (h : FreshlyOpened crc w s) :
    ((runCalls crc (Piece.calls [.outside (byteWrite 1 9), .txn [byteWrite 0 7]] ++
      [.markDone true, .replay true]) s).world.file (.dev s.data.devFd)).byte 0 = 9 := by
  have hbounded : Piece.Bounded [.outside (byteWrite 1 9), .txn [byteWrite 0 7]] :=
    bounded_of_byteWrites (by simp [byteWrite]) (by simp [byteWrite]) (by decide) (by decide)
  obtain ⟨f, B, hdata, hdev⟩ := h.replay_pieces hbounded true
  have hread := ByteFile.pread_of_holds (hdata 0 ((byteWrite 1 9).entry crc) rfl)
  rw [dataPos_zero] at hread
  have hfound : Piece.found crc 0 1 (redoHeaderSize + redoLogBlockSize)
      [.outside (byteWrite 1 9), .txn [byteWrite 0 7]] =
      [txnFound crc 1 1 [byteWrite 0 7] (redoHeaderSize + redoLogBlockSize)] := by
    rfl
  have hcopies : (txnFound crc 1 1 [byteWrite 0 7] (redoHeaderSize + redoLogBlockSize)).copies.2 =
      [.copy ((byteWrite 0 7).tag crc) (redoHeaderSize + redoLogBlockSize)] := by
    rfl
  have hpatches : devPatches f [.copy ((byteWrite 0 7).tag crc)
      (redoHeaderSize + redoLogBlockSize)] = [⟨0, [9]⟩] := by
    rw [devPatches, devPatches]
    exact congrArg (fun b => [(⟨0, b⟩ : Patch)]) hread
  rw [hdev, hfound, devPatches_actions, hcopies, hpatches, applyPatches_append]
  rfl

/-- **A write before the first transaction changes what the transaction writes.** -/
theorem outside_write_changes_device :
    (runCalls crc32c (Piece.calls [.outside (byteWrite 1 9), .txn [byteWrite 0 7]] ++
        [.markDone true, .replay true]) (blankState crc32c)).world.file
        (.dev (blankState crc32c).data.devFd) ≠
      (runCalls crc32c (Piece.calls [.txn [byteWrite 0 7]] ++
        [.markDone true, .replay true]) (blankState crc32c)).world.file
        (.dev (blankState crc32c).data.devFd) := by
  have hbyte := (blankState_freshlyOpened crc32c).replay_behind_outside
  have hbounded : Piece.Bounded [.txn [byteWrite 0 7]] :=
    bounded_of_byteWrites (by simp [byteWrite]) (by simp) (by decide) (by decide)
  have hinert := (blankState_freshlyOpened crc32c).replay_of_inert hbounded
    ⟨fun _ us hus => by simp [Piece.txns] at hus, trivial⟩ true
  intro heq
  rw [heq, hinert] at hbyte
  exact absurd hbyte (by decide)

end Device

end Redo
end Rfsck
