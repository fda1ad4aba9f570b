import Rfsck.Redo.HistoryScan

/-!
# The replay of a history

The device after a replay, compared with the writes applied in the order of the
calls.

The replayer does not store where the data of a tag are.  It keeps a running
position, to which it adds the sizes of the tags it copies and a key block at every
boundary it crosses *inside* a transaction.  A boundary between two transactions is
not crossed by any copy, so the position falls behind by one key block when an end
tag takes the last slot of a key block (`AlignedFrom`).

* `copyTags_slice`: from the right position, the copies of consecutive tags read
  the data of these tags and leave the right position behind.
* `devPatches_found`: the device writes of the replay of an aligned history are the
  writes of the history.
* `replay_eq_sequential`: the content of the device.
-/

namespace Rfsck
namespace Redo

open Storage

def WriteReq.patch (req : WriteReq) : Patch where
  offset := req.offset.toNat
  data := req.buf

def historyPatches (H : List Txn) : List Patch :=
  H.flatMap (fun ws => ws.map WriteReq.patch)

@[simp] theorem historyPatches_nil : historyPatches [] = [] := by
  rfl

@[simp] theorem historyPatches_cons (ws : Txn) (H : List Txn) :
    historyPatches (ws :: H) = ws.map WriteReq.patch ++ historyPatches H := by
  rfl

/-- No transaction behind a full key block has a write, when the first tag of the
history has index `i`. -/
def AlignedFrom : Nat → List Txn → Prop
  | _, [] => True
  | i, ws :: H =>
      ((i + (ws.length + 2)) % keysPerBlock = 0 → ∀ us ∈ H, us = []) ∧
        AlignedFrom (i + (ws.length + 2)) H

/-- All data of the log are in the file. -/
def DataHolds (es : List Entry) (f : ByteFile) : Prop :=
  ∀ i e, es[i]? = some e → f.Holds (dataPos es i) e.data

theorem DataHolds.pwrite_keyb
    {es : List Entry} {f : ByteFile} (h : DataHolds es f) (k : Nat) (kb : RedoBlock) :
    DataHolds es (f.pwrite (keybPos es k) kb.encode) := by
  intro i e he
  refine (h i e he).pwrite_of_disjoint ?_
  have hdisj := keybPos_disjoint_dataPos es k (i := i)
  rw [tagOf_of_getElem? he, e.size_eq] at hdisj
  rw [RedoBlock.length_encode]
  exact hdisj.symm

section Copies

theorem copyTags_slice (es : List Entry) (n i : Nat) :
    copyTags (slice (tagOf es) i n) i (dataPos es i) =
      (dataPos es (i + n),
        (List.range' i n).map (fun g => Action.copy (tagOf es g) (dataPos es g))) := by
  induction n generalizing i with
  | zero =>
      rfl
  | succ n ih =>
      rw [slice_succ, copyTags_cons, ← dataPos_succ, ih, List.range'_succ, List.map_cons,
        show i + 1 + n = i + (n + 1) by omega]

theorem devPatches_map_copy
    {es : List Entry} {f : ByteFile} (h : DataHolds es f) (as bs cs : List Entry)
    (hes : es = as ++ (bs ++ cs)) :
    devPatches f ((List.range' as.length bs.length).map
        (fun g => Action.copy (tagOf es g) (dataPos es g))) =
      bs.map (fun e => { offset := e.tag.offset.toNat, data := e.data : Patch }) := by
  induction bs generalizing as with
  | nil =>
      rfl
  | cons b bs ih =>
      have hb : es[as.length]? = some b := by
        rw [hes, List.getElem?_append_right (le_refl _), Nat.sub_self]
        rfl
      have hrest := ih (as ++ [b]) (by simp [hes])
      rw [List.length_append, List.length_singleton] at hrest
      rw [List.length_cons, List.range'_succ, List.map_cons, devPatches, hrest,
        tagOf_of_getElem? hb, b.size_eq, ByteFile.pread_of_holds (h _ _ hb)]
      rfl

theorem inside_of_le
    {es : List Entry} {f : ByteFile} (h : DataHolds es f) {g : Nat} {e : Entry}
    (he : es[g]? = some e) (hne : e.data ≠ []) (hwhole : e.data.length ≤ maxRwCount)
    {pos : Nat} (hpos : pos ≤ dataPos es g) :
    (Action.copy e.tag pos).Inside f.size := by
  have hlen : 0 < e.data.length := List.length_pos_iff.mpr hne
  obtain ⟨b, hb⟩ : ∃ b, e.data[e.data.length - 1]? = some b :=
    ⟨_, List.getElem?_eq_getElem (by omega)⟩
  obtain ⟨hlt, _⟩ := h g e he _ b hb
  refine ⟨?_, ?_⟩
  · rw [e.size_eq]
    exact hwhole
  · rw [e.size_eq]
    omega

theorem inside_copyTags
    {es : List Entry} {f : ByteFile} (h : DataHolds es f) {bs : List Entry}
    (hbs : ∀ e ∈ bs, e.data ≠ [] ∧ e.data.length ≤ maxRwCount)
    {as cs : List Entry} (hes : es = as ++ (bs ++ cs))
    {pos : Nat} (hpos : pos ≤ dataPos es as.length) :
    (copyTags (bs.map Entry.tag) as.length pos).1 ≤ dataPos es (as.length + bs.length) ∧
      ∀ a ∈ (copyTags (bs.map Entry.tag) as.length pos).2, a.Inside f.size := by
  induction bs generalizing as pos with
  | nil =>
      exact ⟨hpos, fun a ha => by simp [copyTags] at ha⟩
  | cons b bs ih =>
      have hb : es[as.length]? = some b := by
        rw [hes, List.getElem?_append_right (le_refl _), Nat.sub_self]
        rfl
      obtain ⟨hne, hwhole⟩ := hbs b (by simp)
      have hstep := dataPos_succ es as.length
      rw [tagOf_of_getElem? hb] at hstep
      have hes' : es = (as ++ [b]) ++ (bs ++ cs) := by
        simp [hes]
      have hpos' : pos + b.tag.size.toNat + gap (as.length + 1) ≤
          dataPos es (as ++ [b]).length := by
        rw [List.length_append, List.length_singleton, hstep]
        omega
      obtain ⟨hend, hrest⟩ := ih (fun e he => hbs e (List.mem_cons_of_mem b he)) hes' hpos'
      rw [List.length_append, List.length_singleton] at hend hrest
      rw [List.map_cons, copyTags_cons, List.length_cons,
        show as.length + (bs.length + 1) = as.length + 1 + bs.length by omega]
      refine ⟨hend, ?_⟩
      intro a ha
      rcases List.mem_cons.mp ha with rfl | ha
      · exact inside_of_le h hb hne hwhole hpos
      · exact hrest a ha

end Copies

section Found

variable {crc : Bytes → UInt32}

theorem split_txnEntries (crc : Bytes → UInt32) (id : UInt32) (ws : Txn) (as cs : List Entry) :
    as ++ (txnEntries crc id ws ++ cs) =
      (as ++ [Entry.edge 0 id]) ++ (ws.map (WriteReq.entry crc) ++
        (Entry.edge (txnCsum crc id ws).toUInt64 id :: cs)) := by
  simp [txnEntries, openEntries]

theorem size_begin (crc : Bytes → UInt32) (id : UInt32) (ws : Txn) (as cs : List Entry) :
    (tagOf (as ++ (txnEntries crc id ws ++ cs)) as.length).size = 0 := by
  have hbegin : (as ++ (txnEntries crc id ws ++ cs))[as.length]? =
      some (Entry.edge 0 id) := by
    rw [List.getElem?_append_right (le_refl _), Nat.sub_self]
    rfl
  rw [tagOf_of_getElem? hbegin]
  rfl

theorem size_end (crc : Bytes → UInt32) (id : UInt32) (ws : Txn) (as cs : List Entry) :
    (tagOf (as ++ (txnEntries crc id ws ++ cs)) (as.length + 1 + ws.length)).size = 0 := by
  have hend : (as ++ (txnEntries crc id ws ++ cs))[as.length + 1 + ws.length]? =
      some (Entry.edge (txnCsum crc id ws).toUInt64 id) := by
    have hlen : (as ++ [Entry.edge 0 id] ++ ws.map (WriteReq.entry crc)).length =
        as.length + 1 + ws.length := by
      simp only [List.length_append, List.length_singleton, List.length_map]
    rw [split_txnEntries, ← List.append_assoc,
      List.getElem?_append_right (le_of_eq hlen), hlen, Nat.sub_self]
    rfl
  rw [tagOf_of_getElem? hend]
  rfl

theorem copies_txn
    {es as cs : List Entry} {id : UInt32} {ws : Txn}
    (hes : es = as ++ (txnEntries crc id ws ++ cs)) :
    (txnFound crc as.length id ws (dataPos es as.length)).copies =
      (dataPos es (as.length + 1 + ws.length),
        (List.range' (as.length + 1) ws.length).map
          (fun g => Action.copy (tagOf es g) (dataPos es g))) := by
  have hbegin : (tagOf es as.length).size = 0 := by
    rw [hes, size_begin]
  rw [split_txnEntries] at hes
  have hslice := slice_tagOf_append (as ++ [Entry.edge 0 id]) (ws.map (WriteReq.entry crc))
    (Entry.edge (txnCsum crc id ws).toUInt64 id :: cs)
  rw [← hes, List.length_map, List.length_append, List.map_map] at hslice
  have htags : dataTags crc ws = slice (tagOf es) (as.length + 1) ws.length := hslice.symm
  rw [Found.copies, txnFound]
  dsimp only
  rw [← dataPos_succ_of_size_eq_zero hbegin, htags, copyTags_slice]

theorem devPatches_txn
    {es : List Entry} {f : ByteFile} (h : DataHolds es f)
    {as cs : List Entry} {id : UInt32} {ws : Txn}
    (hes : es = as ++ (txnEntries crc id ws ++ cs)) :
    devPatches f (txnFound crc as.length id ws (dataPos es as.length)).copies.2 =
      ws.map WriteReq.patch := by
  rw [copies_txn hes]
  rw [split_txnEntries] at hes
  have hdata := devPatches_map_copy h (as ++ [Entry.edge 0 id])
    (ws.map (WriteReq.entry crc)) (Entry.edge (txnCsum crc id ws).toUInt64 id :: cs) hes
  rw [List.length_append, List.length_singleton, List.length_map, List.map_map] at hdata
  exact hdata

theorem copies_fst_of_not_full
    {es as cs : List Entry} {id : UInt32} {ws : Txn}
    (hes : es = as ++ (txnEntries crc id ws ++ cs))
    (hmod : (as.length + (ws.length + 2)) % keysPerBlock ≠ 0) :
    (txnFound crc as.length id ws (dataPos es as.length)).copies.1 =
      dataPos es (as.length + (ws.length + 2)) := by
  have hend : (tagOf es (as.length + 1 + ws.length)).size = 0 := by
    rw [hes, size_end]
  have hindex : as.length + (ws.length + 2) = as.length + 1 + ws.length + 1 := by
    omega
  rw [hindex] at hmod ⊢
  rw [copies_txn hes, dataPos_succ_of_size_eq_zero hend, gap, if_neg hmod]
  omega

theorem copies_fst_of_aligned
    {es as : List Entry} {id : UInt32} {ws : Txn} {H : List Txn}
    (hes : es = as ++ historyEntries crc id (ws :: H)) {pos : Nat}
    (hpos : pos = dataPos es as.length ∨ ∀ us ∈ ws :: H, us = [])
    (halign : AlignedFrom as.length (ws :: H)) :
    (txnFound crc as.length id ws pos).copies.1 = dataPos es (as.length + (ws.length + 2)) ∨
      ∀ us ∈ H, us = [] := by
  rcases hpos with rfl | hempty
  · by_cases hmod : (as.length + (ws.length + 2)) % keysPerBlock = 0
    · exact Or.inr (halign.1 hmod)
    · exact Or.inl (copies_fst_of_not_full hes hmod)
  · exact Or.inr (fun us hus => hempty us (List.mem_cons_of_mem ws hus))

theorem devPatches_actions
    (o : Nat → Nat) (B : Nat → RedoBlock) (M : List Nat) (t : Found) (ts : List Found)
    (f : ByteFile) :
    devPatches f (actionsOf o B M (t :: ts)) =
      devPatches f t.copies.2 ++
        devPatches (f.pwrite (o t.beginBlk)
          ((B t.beginBlk).clearReserved.remark t.beginBlk (M ++ [t.beginAt])).encode)
          (actionsOf o B (M ++ [t.beginAt]) ts) := by
  rw [actionsOf, Found.actions, devPatches_append, devPatches_append, markPatches_append,
    Found.copies, markPatches_copyTags]
  simp [devPatches, markPatches]

/-- **The device writes of the replay of an aligned history** are the writes of the
history. -/
theorem devPatches_found
    {es : List Entry} (B : Nat → RedoBlock) (H : List Txn)
    {f : ByteFile} (h : DataHolds es f) (as : List Entry) {id : UInt32}
    (hes : es = as ++ historyEntries crc id H)
    {pos : Nat} (hpos : pos = dataPos es as.length ∨ ∀ ws ∈ H, ws = [])
    (halign : AlignedFrom as.length H) (M : List Nat) :
    devPatches f (actionsOf (keybPos es) B M
        (MarkedHistory.found crc as.length id pos (MarkedHistory.unmarked H))) =
      historyPatches H := by
  induction H generalizing f as id pos M with
  | nil =>
      rfl
  | cons ws H ih =>
      have hmark := h.pwrite_keyb (as.length / keysPerBlock)
        ((B (as.length / keysPerBlock)).clearReserved.remark (as.length / keysPerBlock)
          (M ++ [as.length]))
      have hposition := copies_fst_of_aligned hes hpos halign
      have hrest := halign.2
      rw [historyEntries] at hes
      have hlen : (as ++ txnEntries crc id ws).length = as.length + (ws.length + 2) := by
        rw [List.length_append, length_txnEntries]
      rw [← hlen] at hposition hrest
      have hnext := ih hmark (as ++ txnEntries crc id ws)
        (by rw [hes, List.append_assoc]) hposition hrest (M ++ [as.length])
      rw [hlen] at hnext
      have hhere : devPatches f (txnFound crc as.length id ws pos).copies.2 =
          ws.map WriteReq.patch := by
        rcases hpos with rfl | hempty
        · exact devPatches_txn h hes
        · rw [hempty ws (by simp)]
          rfl
      have hcons : MarkedHistory.found crc as.length id pos
          (MarkedHistory.unmarked (ws :: H)) =
          txnFound crc as.length id ws pos ::
            MarkedHistory.found crc (as.length + (ws.length + 2)) (id + 1)
              (txnFound crc as.length id ws pos).copies.1 (MarkedHistory.unmarked H) := by
        rfl
      rw [hcons, devPatches_actions, hhere, historyPatches_cons]
      exact congrArg _ hnext

theorem inside_txn
    {es : List Entry} {f : ByteFile} (h : DataHolds es f)
    {as cs : List Entry} {id : UInt32} {ws : Txn} (hws : ws.Proper)
    (hes : es = as ++ (txnEntries crc id ws ++ cs))
    {pos : Nat} (hpos : pos ≤ dataPos es as.length) :
    (txnFound crc as.length id ws pos).copies.1 ≤ dataPos es (as.length + (ws.length + 2)) ∧
      ∀ a ∈ (txnFound crc as.length id ws pos).copies.2, a.Inside f.size := by
  have hbegin : (tagOf es as.length).size = 0 := by
    rw [hes, size_begin]
  rw [split_txnEntries] at hes
  have hstep := dataPos_succ_of_size_eq_zero hbegin
  have hwrites : ∀ e ∈ ws.map (WriteReq.entry crc),
      e.data ≠ [] ∧ e.data.length ≤ maxRwCount := by
    intro e he
    obtain ⟨req, hreq, rfl⟩ := List.mem_map.mp he
    exact hws req hreq
  have hpos' : pos + gap (as.length + 1) ≤ dataPos es (as ++ [Entry.edge 0 id]).length := by
    rw [List.length_append, List.length_singleton, hstep]
    omega
  obtain ⟨hend, hcopies⟩ := inside_copyTags h hwrites hes hpos'
  simp only [List.length_append, List.length_singleton, List.length_map,
    List.map_map] at hend hcopies
  have hmono := dataPos_mono es (show as.length + 1 + ws.length ≤
    as.length + (ws.length + 2) by omega)
  exact ⟨le_trans hend hmono, hcopies⟩

theorem inside_found
    {es : List Entry} (B : Nat → RedoBlock) (H : MarkedHistory)
    (hH : ∀ ws ∈ H.txns, ws.Proper)
    {f : ByteFile} (h : DataHolds es f) (as : List Entry) {id : UInt32}
    (hes : es = as ++ historyEntries crc id H.txns)
    {pos : Nat} (hpos : pos ≤ dataPos es as.length) (M : List Nat) :
    ∀ a ∈ actionsOf (keybPos es) B M (MarkedHistory.found crc as.length id pos H),
      a.Inside f.size := by
  induction H generalizing as id pos M with
  | nil =>
      intro a ha
      simp [MarkedHistory.found, actionsOf] at ha
  | cons x H ih =>
      obtain ⟨marked, ws⟩ := x
      rw [MarkedHistory.txns_cons, historyEntries] at hes
      have hrest : es = as ++ txnEntries crc id ws ++
          historyEntries crc (id + 1) (MarkedHistory.txns H) := by
        rw [hes, List.append_assoc]
      have hlen : (as ++ txnEntries crc id ws).length = as.length + (ws.length + 2) := by
        rw [List.length_append, length_txnEntries]
      have hnext : ∀ p, p ≤ dataPos es (as.length + (ws.length + 2)) → ∀ M,
          ∀ a ∈ actionsOf (keybPos es) B M
            (MarkedHistory.found crc (as.length + (ws.length + 2)) (id + 1) p H),
            a.Inside f.size := by
        rw [← hlen]
        exact fun p hp => ih (fun us hus => hH us (by simp [hus])) _ hrest hp
      cases marked with
      | true =>
          exact hnext pos (le_trans hpos (dataPos_mono es (by omega))) M
      | false =>
          obtain ⟨hend, hcopies⟩ := inside_txn h (hH ws (by simp)) hes hpos
          intro a ha
          rw [MarkedHistory.found, actionsOf, Found.actions] at ha
          rcases List.mem_append.mp ha with ha | ha
          · rcases List.mem_append.mp ha with ha | ha
            · exact hcopies a ha
            · rw [List.mem_singleton.mp ha]
              trivial
          · exact hnext _ hend _ a ha

end Found

section Device

variable {crc : Bytes → UInt32}

theorem dataPos_zero (es : List Entry) : dataPos es 0 = redoHeaderSize + redoLogBlockSize := by
  rfl

theorem FinishedLog.replay_dev
    {es : List Entry} {M : List Nat} {hdr : RedoHeader} {s : State}
    (h : FinishedLog crc es M hdr (s.world.file .redo)) (hout : s.world.outcomes = [])
    (hinside : ∀ a ∈ (planLog crc s).2, a.Inside (s.world.file .redo).size) (sync : Bool) :
    (rfsckReplay crc sync s).2.world.file (.dev s.data.devFd) =
      applyPatches (s.world.file (.dev s.data.devFd))
        (devPatches (s.world.file .redo) (planLog crc s).2) := by
  rw [h.replay_eq hout sync]
  cases sync with
  | false =>
      exact perform_dev hinside
  | true =>
      exact (World.file_push _ _ _).trans (perform_dev hinside)

theorem SealedLog.replay_dev
    {H : MarkedHistory} {hdr : RedoHeader} {s : State}
    (h : SealedLog crc H hdr (s.world.file .redo)) (hout : s.world.outcomes = [])
    (sync : Bool) :
    (rfsckReplay crc sync s).2.world.file (.dev s.data.devFd) =
      applyPatches (s.world.file (.dev s.data.devFd))
        (devPatches (s.world.file .redo) (planLog crc s).2) := by
  have hinside : ∀ a ∈ (planLog crc s).2, a.Inside (s.world.file .redo).size := by
    rw [h.planLog_eq]
    exact inside_found _ H h.proper h.log.stored.data_holds [] rfl (le_refl _) []
  exact h.log.replay_dev hout hinside sync

/-- **Replay of an aligned history.** -/
theorem SealedLog.replay_dev_of_aligned
    {H : List Txn} {hdr : RedoHeader} {s : State}
    (h : SealedLog crc (MarkedHistory.unmarked H) hdr (s.world.file .redo))
    (hout : s.world.outcomes = []) (halign : AlignedFrom 0 H) (sync : Bool) :
    (rfsckReplay crc sync s).2.world.file (.dev s.data.devFd) =
      applyPatches (s.world.file (.dev s.data.devFd)) (historyPatches H) := by
  rw [h.replay_dev hout sync, h.planLog_eq]
  have hdata := h.log.stored.data_holds
  rw [MarkedHistory.txns_unmarked] at hdata ⊢
  exact congrArg _ (devPatches_found _ H hdata [] rfl (Or.inl rfl) halign [])

/-- Replay equals sequential application, whatever transactions were logged, with
whatever flushes and idle replays in between. -/
theorem PlainRun.replay_dev
    {cs : List Call} {H : List Txn} {done : Bool} (hrun : PlainRun cs ⟨H, none⟩ done)
    {w : World} {s : State} (h : FreshlyOpened crc w s) (hids : H.length < 2 ^ 32)
    (hblocks : tagCount H / keysPerBlock < 2 ^ 31) (halign : AlignedFrom 0 H)
    (sync : Bool) :
    (runCalls crc (cs ++ [.markDone true, .replay sync]) s).world.file (.dev s.data.devFd) =
      applyPatches (w.file (.dev s.data.devFd)) (historyPatches H) := by
  have hlogged := hrun.logged h.logged
  have hdone := hlogged.markDone true
  obtain ⟨n, hsession⟩ := hdone.session
  have hreplay := (hlogged.sealedLog hrun.proper.1 hids hblocks).replay_dev_of_aligned
    hsession.outcomes_nil halign sync
  rw [hdone.devFd_eq, hdone.dev_eq] at hreplay
  rw [runCalls_append]
  exact hreplay

/-- **Replay equals sequential application** for the histories in which no write
follows a full key block. -/
theorem replay_eq_sequential
    {w : World} {s : State} (h : FreshlyOpened crc w s)
    {H : List Txn} (hH : ∀ ws ∈ H, ws.Proper) (hids : H.length < 2 ^ 31)
    (hblocks : tagCount H / keysPerBlock < 2 ^ 31) (halign : AlignedFrom 0 H)
    (sync : Bool) :
    (runCalls crc (historyCalls H ++ [.markDone true, .replay sync]) s).world.file
        (.dev s.data.devFd) =
      applyPatches (w.file (.dev s.data.devFd)) (historyPatches H) := by
  have hrun : PlainRun (historyCalls H) ⟨H, none⟩ false := by
    simpa using PlainRun.nil.history hH
  exact hrun.replay_dev h (by omega) hblocks halign sync

theorem replay_eq_sequential_of_two_txns :
    (runCalls crc32c (historyCalls [[byteWrite 0 7, byteWrite 1 8], [byteWrite 1 9]] ++
        [.markDone true, .replay true]) (blankState crc32c)).world.file
        (.dev (blankState crc32c).data.devFd) =
      applyPatches (blankWorld.file (.dev (blankState crc32c).data.devFd))
        (historyPatches [[byteWrite 0 7, byteWrite 1 8], [byteWrite 1 9]]) := by
  refine replay_eq_sequential (blankState_freshlyOpened crc32c) ?_ (by decide) (by decide) ?_ true
  · intro ws hws
    refine proper_of_byteWrites ?_
    intro req hreq
    simp only [List.mem_cons, List.not_mem_nil, or_false] at hws
    rcases hws with rfl | rfl
    · simp only [List.mem_cons, List.not_mem_nil, or_false] at hreq
      rcases hreq with rfl | rfl <;> rfl
    · rw [List.mem_singleton.mp hreq]
      rfl
  · refine ⟨fun h => absurd h (by decide), fun h => absurd h (by decide), trivial⟩

theorem encode_keybOf_first
    (crc : Bytes → UInt32) (es : List Entry) (k : Nat) (M : List Nat) :
    ∃ bs, ((keybOf crc es k).remark k M).encode = [0xe8] ++ bs := by
  have hmagic : le32 ((keybOf crc es k).remark k M).magic = [0xe8] ++ [0xc6, 0x9f, 0xf6] := by
    change le32 (hash redoBlockMagicNumber) = _
    decide
  rw [RedoBlock.encode, hmagic, List.append_assoc]
  exact ⟨_, rfl⟩

/-- A one-byte write behind a transaction that fills the first key block reads the
first byte of the second key block. -/
theorem devPatches_behind_full_block
    {es : List Entry} {f : ByteFile} {n : Nat} (hstored : Stored crc es [] n f) (hn : 1 < n)
    (B : Nat → RedoBlock) {ws : Txn} (hws : ws.length = 253) (req : WriteReq)
    (hreq : req.buf.length = 1)
    (hes : es = historyEntries crc 1 [ws, [req]]) :
    devPatches f (actionsOf (keybPos es) B []
        (MarkedHistory.found crc 0 1 (redoHeaderSize + redoLogBlockSize)
          (MarkedHistory.unmarked [ws, [req]]))) =
      ws.map WriteReq.patch ++ [{ offset := req.offset.toNat, data := [0xe8] }] := by
  have hes' : es = [] ++ (txnEntries crc 1 ws ++ historyEntries crc (1 + 1) [[req]]) := by
    rw [hes]
    rfl
  have hpos := congrArg Prod.fst (copies_txn hes')
  have hhere := devPatches_txn hstored.data_holds hes'
  have hend := size_end crc 1 ws [] (historyEntries crc (1 + 1) [[req]])
  rw [← hes', List.length_nil, hws] at hend
  rw [List.length_nil, hws] at hpos
  rw [List.length_nil] at hhere
  have hplace : keybPos es 1 = dataPos es (0 + 1 + 253) := by
    rw [keybPos_succ_eq_dataPos es (k := 0) (i := 0 + 1 + 253) (by rfl), hend,
      UInt32.toNat_zero, Nat.add_zero]
  have hgap : gap (0 + (253 + 2) + 1) = 0 := by
    decide
  have hsize : (req.tag crc).size.toNat = 1 := by
    rw [← hreq]
    exact (req.entry crc).size_eq
  have hread : ∀ kb : RedoBlock,
      (f.pwrite (keybPos es 0) kb.encode).pread (keybPos es 1) 1 = [0xe8] := by
    intro kb
    have hbefore : keybPos es 0 + kb.encode.length ≤ keybPos es 1 := by
      rw [RedoBlock.length_encode]
      exact keybPos_le_keybPos es (by decide)
    have hkeyb := (hstored.keyb_holds 1 hn).pwrite_of_disjoint (Or.inr hbefore)
    obtain ⟨bs, hbs⟩ := encode_keybOf_first crc es 1 []
    rw [hbs, ByteFile.holds_append] at hkeyb
    exact ByteFile.pread_of_holds hkeyb.1
  have hfound : MarkedHistory.found crc 0 1 (redoHeaderSize + redoLogBlockSize)
      (MarkedHistory.unmarked [ws, [req]]) =
      [txnFound crc 0 1 ws (dataPos es 0),
        txnFound crc (0 + (ws.length + 2)) (1 + 1) [req]
          (txnFound crc 0 1 ws (dataPos es 0)).copies.1] := by
    rfl
  have hcopies : (txnFound crc (0 + (ws.length + 2)) (1 + 1) [req]
      (txnFound crc 0 1 ws (dataPos es 0)).copies.1).copies.2 =
      [Action.copy (req.tag crc) (keybPos es 1)] := by
    rw [hpos, hws, Found.copies, txnFound]
    dsimp only
    rw [hgap, Nat.add_zero, ← hplace]
    rfl
  have hblk : (txnFound crc 0 1 ws (dataPos es 0)).beginBlk = 0 := Nat.zero_div _
  rw [hfound, devPatches_actions, hhere, devPatches_actions, hcopies, hblk, devPatches, hsize,
    hread]
  rfl

/-- Replay does not equal sequential application when a write follows a transaction
that fills the first key block: a byte of the second key block gets to the device. -/
theorem replay_dev_behind_full_block
    {w : World} {s : State} (h : FreshlyOpened crc w s)
    {ws : Txn} (hws : ws.Proper) (hlen : ws.length = 253) :
    ((runCalls crc (historyCalls [ws, [byteWrite 1 9]] ++ [.markDone true, .replay true])
        s).world.file (.dev s.data.devFd)).byte 1 = 0xe8 := by
  have hproper : ∀ us ∈ [ws, [byteWrite 1 9]], Txn.Proper us := by
    intro us hus
    rcases List.mem_cons.mp hus with rfl | hus
    · exact hws
    · rw [List.mem_singleton.mp hus]
      exact proper_of_byteWrites (by decide)
  have hcount : tagCount [ws, [byteWrite 1 9]] = 258 := by
    rw [tagCount_cons, hlen]
    rfl
  have hblocks : tagCount [ws, [byteWrite 1 9]] / keysPerBlock < keybCountLimit := by
    rw [hcount]
    decide
  have hlogged := h.loggedHistory hproper
  have hdone := hlogged.markDone true
  obtain ⟨m, hsession⟩ := hdone.session
  have hsealed := hlogged.sealedLog hproper (by simp) hblocks
  have hdev := hsealed.replay_dev hsession.outcomes_nil true
  have hstored := hsealed.log.stored
  rw [hsealed.numKeys_eq, MarkedHistory.txns_unmarked, MarkedHistory.marksAt_unmarked, hcount]
    at hstored
  rw [hdone.devFd_eq, hdone.dev_eq, hsealed.planLog_eq, MarkedHistory.txns_unmarked,
    devPatches_behind_full_block hstored (by decide) _ hlen (byteWrite 1 9) rfl rfl] at hdev
  rw [runCalls_append]
  refine (congrArg (fun f : ByteFile => f.byte 1) hdev).trans ?_
  rw [applyPatches_append]
  rfl

/-- The first transaction has 253 writes, so its end tag is in the last slot. -/
theorem replay_ne_sequential_behind_full_block :
    (runCalls crc32c (historyCalls [List.replicate 253 (byteWrite 0 7), [byteWrite 1 9]] ++
        [.markDone true, .replay true]) (blankState crc32c)).world.file
        (.dev (blankState crc32c).data.devFd) ≠
      applyPatches (blankWorld.file (.dev (blankState crc32c).data.devFd))
        (historyPatches [List.replicate 253 (byteWrite 0 7), [byteWrite 1 9]]) := by
  have hws : Txn.Proper (List.replicate 253 (byteWrite 0 7)) := by
    refine proper_of_byteWrites ?_
    intro req hreq
    rw [List.eq_of_mem_replicate hreq]
    rfl
  have hbyte := replay_dev_behind_full_block (blankState_freshlyOpened crc32c) hws
    List.length_replicate
  intro heq
  rw [heq, historyPatches_cons, applyPatches_append] at hbyte
  exact absurd hbyte (by decide)

end Device

end Redo
end Rfsck
