import Rfsck.Redo.FailedRecovery

/-!
# What becomes of the marks

A replay writes the mark of a transaction into the key block on the log.  The writer has
that key block in memory without the mark, as long as it is the current one, and every
call that logs, flushes or seals the log writes it again.

* `marksOf` lists the marks that the replays of a run of calls have made, each with the
  place of its key block and its slot.
* `SparesMarks`: no call of the run writes the current key block while that block carries
  a mark.
* `marks_never_undone`: in such a run all marks stay, and no transaction is marked, or
  applied, a second time.
-/

namespace Rfsck
namespace Redo

open Storage

/-- The begin tags of what the walk has found were not marked, and they come in
order. -/
structure Walk.Ordered (T : Nat → RedoBlockTag) (i : Nat) (w : Walk) : Prop where
  open_new : w.txnId ≠ 0 → w.isReplayed = false →
    w.beginAt < i ∧ (T w.beginAt).offset ≠ txnReplayedCnst ∧ ∀ m ∈ w.marks, m < w.beginAt
  marks_new : ∀ m ∈ w.marks, m < i ∧ (T m).offset ≠ txnReplayedCnst
  marks_nodup : w.marks.Nodup

theorem Walk.Ordered.step
    {T : Nat → RedoBlockTag} {i : Nat} {w : Walk} (h : w.Ordered T i)
    (crc : Bytes → UInt32) :
    (w.step crc T i).Ordered T (i + 1) := by
  have hopen : w.txnId ≠ 0 → w.isReplayed = false →
      w.beginAt < i + 1 ∧ (T w.beginAt).offset ≠ txnReplayedCnst ∧
        ∀ m ∈ w.marks, m < w.beginAt := by
    intro hne hnew
    obtain ⟨hlt, hrest⟩ := h.open_new hne hnew
    exact ⟨Nat.lt_succ_of_lt hlt, hrest⟩
  have hmarks : ∀ m ∈ w.marks, m < i + 1 ∧ (T m).offset ≠ txnReplayedCnst := by
    intro m hm
    obtain ⟨hlt, hnew⟩ := h.marks_new m hm
    exact ⟨Nat.lt_succ_of_lt hlt, hnew⟩
  unfold Walk.step
  cases hkind : tagKind w.txnId w.isReplayed (T i) with
  | unused | dataTag | skippedData =>
      exact ⟨hopen, hmarks, h.marks_nodup⟩
  | beginTag =>
      obtain ⟨_, _, hnew⟩ := tagKind_beginTag hkind
      exact ⟨fun _ _ => ⟨Nat.lt_succ_self i, hnew, fun m hm => (h.marks_new m hm).1⟩, hmarks,
        h.marks_nodup⟩
  | markedBegin =>
      exact ⟨fun _ hnew => absurd hnew (by simp [Walk.skipTxn]), hmarks, h.marks_nodup⟩
  | skippedEnd =>
      exact ⟨fun hne _ => absurd rfl hne, hmarks, h.marks_nodup⟩
  | endTag =>
      obtain ⟨hne, _, hnew⟩ := tagKind_endTag hkind
      obtain ⟨hlt, hoffset, hafter⟩ := h.open_new hne hnew
      have hclose : (w.closeTxn crc T i).marks = w.marks ++ [w.beginAt] := by
        simp [Walk.closeTxn, Walk.marks, Walk.closing]
      refine ⟨fun hne' _ => absurd rfl hne', ?_, ?_⟩
      · intro m hm
        rw [hclose] at hm
        rcases List.mem_append.mp hm with hm | hm
        · exact hmarks m hm
        · rw [List.mem_singleton.mp hm]
          exact ⟨Nat.lt_succ_of_lt hlt, hoffset⟩
      · rw [hclose]
        refine List.nodup_append.mpr ⟨h.marks_nodup, List.nodup_singleton _, ?_⟩
        intro m hm m' hm'
        rw [List.mem_singleton.mp hm']
        exact ne_of_lt (hafter m hm)

theorem Walk.Ordered.enter
    {T : Nat → RedoBlockTag} {i : Nat} {w : Walk} (h : w.Ordered T i) (o : Nat → Nat) :
    (w.enter o i).Ordered T i := by
  unfold Walk.enter
  split_ifs
  · exact ⟨h.open_new, h.marks_new, h.marks_nodup⟩
  · exact h

theorem Walk.Ordered.run
    {T : Nat → RedoBlockTag} {i : Nat} {w : Walk} (h : w.Ordered T i)
    (crc : Bytes → UInt32) (o : Nat → Nat) (n : Nat) :
    (Walk.run crc o T n i w).Ordered T (i + n) := by
  induction n generalizing i w with
  | zero =>
      exact h
  | succ n ih =>
      have hrest := ih ((h.enter o).step crc)
      rw [show i + 1 + n = i + (n + 1) by omega] at hrest
      exact hrest

theorem walkLog_ordered
    (crc : Bytes → UInt32) (es : List Entry) (M : List Nat) (k : Nat) (out : List Message) :
    (walkLog crc es M k out).Ordered (markedTagOf es M) (0 + keysPerBlock * k) := by
  refine Walk.Ordered.run ⟨?_, ?_, ?_⟩ crc _ _
  · intro hne _
    exact absurd rfl hne
  · intro m hm
    simp [Walk.marks, Walk.start] at hm
  · exact List.nodup_nil

section Runs

variable (crc : Bytes → UInt32)

/-- The place of a mark on the log: its key block and its slot there. -/
structure MarkPlace where
  keyb : Nat
  slot : Nat
deriving DecidableEq

/-- The log `f` carries the mark. -/
def MarkPlace.On (m : MarkPlace) (f : ByteFile) : Prop :=
  ((RedoBlock.decode (f.pread m.keyb redoLogBlockSize)).tag m.slot).offset = txnReplayedCnst

/-- The marks that one call makes. -/
def Call.marks : Call → State → List MarkPlace
  | .replay _, s =>
      if s.world.header.Finished crc then
        (logWalk crc s).found.map (fun t =>
          { keyb := loadedPlace crc s t.beginBlk, slot := t.beginAt % keysPerBlock })
      else
        []
  | _, _ => []

theorem Call.marks_eq_nil {c : Call} (hc : ∀ sync, c ≠ .replay sync) (s : State) :
    c.marks crc s = [] := by
  cases c with
  | replay sync =>
      exact absurd rfl (hc sync)
  | txnBegin | write req | txnEnd | flush | markDone done =>
      rfl

/-- The marks that a run of calls makes. -/
def marksOf : List Call → State → List MarkPlace
  | [], _ => []
  | c :: cs, s => c.marks crc s ++ marksOf cs (c.run crc s).2

theorem marksOf_append (cs ds : List Call) (s : State) :
    marksOf crc (cs ++ ds) s = marksOf crc cs s ++ marksOf crc ds (runCalls crc cs s) := by
  induction cs generalizing s with
  | nil =>
      rfl
  | cons c cs ih =>
      rw [List.cons_append, marksOf, marksOf, ih, List.append_assoc, runCalls_cons]

theorem marksOf_eq_nil
    {cs : List Call} (hcs : ∀ c ∈ cs, ∀ sync, c ≠ .replay sync) (s : State) :
    marksOf crc cs s = [] := by
  induction cs generalizing s with
  | nil =>
      rfl
  | cons c cs ih =>
      rw [marksOf, Call.marks_eq_nil crc (hcs c (by simp)),
        ih (fun d hd => hcs d (List.mem_cons_of_mem c hd)), List.append_nil]

/-- A call that writes the current key block finds no mark in it. -/
def Call.Spares (ms : List MarkPlace) (s : State) : Call → Prop
  | .replay _ => True
  | .write req => req.Whole ∧ ∀ m ∈ ms, m.keyb ≠ s.data.redoBlockOffset
  | _ => ∀ m ∈ ms, m.keyb ≠ s.data.redoBlockOffset

/-- Every call of the run spares the marks that are there before it. -/
def SparesMarks : List MarkPlace → List Call → State → Prop
  | _, [], _ => True
  | ms, c :: cs, s =>
      c.Spares ms s ∧ SparesMarks (ms ++ c.marks crc s) cs (c.run crc s).2

variable {crc}

/-- The place of the mark of the begin tag with index `m`. -/
def markPlace (es : List Entry) (m : Nat) : MarkPlace where
  keyb := keybPos es (m / keysPerBlock)
  slot := m % keysPerBlock

theorem keybPos_injective (es : List Entry) : Function.Injective (keybPos es) := by
  intro k k' h
  rcases Nat.lt_trichotomy k k' with hlt | heq | hlt
  · have hle := keybPos_le_keybPos es hlt
    simp only [redoLogBlockSize] at hle
    omega
  · exact heq
  · have hle := keybPos_le_keybPos es hlt
    simp only [redoLogBlockSize] at hle
    omega

theorem markPlace_injective (es : List Entry) : Function.Injective (markPlace es) := by
  intro m m' h
  obtain ⟨hkeyb, hslot⟩ := MarkPlace.mk.inj h
  have hdiv := keybPos_injective es hkeyb
  rw [← Nat.div_add_mod m keysPerBlock, ← Nat.div_add_mod m' keysPerBlock, hdiv, hslot]

theorem markPlace_append
    {es : List Entry} (es' : List Entry) {m : Nat} (h : m < es.length) :
    markPlace (es ++ es') m = markPlace es m := by
  have hle := Nat.mul_div_le m keysPerBlock
  rw [markPlace, keybPos_append es es' (by omega), markPlace]

/-- **The invariant**: the marks made so far are the marks of the session. -/
def Marked (crc : Bytes → UInt32) (ms : List MarkPlace) (s : State) : Prop :=
  ∃ es M n, Session crc es M n [] s ∧ ms = M.map (markPlace es) ∧ M.Nodup ∧
    ∀ m ∈ M, m / keysPerBlock < n

theorem clearMarks_of_spares
    {es : List Entry} {M : List Nat} {k : Nat}
    (h : ∀ m ∈ M.map (markPlace es), m.keyb ≠ keybPos es k) :
    clearMarks k M = M := by
  refine List.filter_eq_self.mpr ?_
  intro m hm
  have hne := h _ (List.mem_map_of_mem hm)
  simp only [decide_eq_true_eq, ne_eq]
  rintro rfl
  exact hne rfl

section Step

variable {ms : List MarkPlace} {es : List Entry} {M : List Nat} {n : Nat} {s : State}

theorem Session.block_lt (h : Session crc es M n [] s) {m : Nat} (hm : m ∈ M) :
    m / keysPerBlock < es.length / keysPerBlock + 1 := by
  have hlt := (h.marks_edge m hm).lt_length
  simp only [keysPerBlock_eq]
  omega

theorem marked_of_written
    {s' : State} (h : Session crc es M n [] s)
    (hspares : ∀ m ∈ M.map (markPlace es), m.keyb ≠ s.data.redoBlockOffset)
    (hnodup : M.Nodup)
    (hnext : Session crc es (clearMarks (es.length / keysPerBlock) M)
      (es.length / keysPerBlock + 1) [] s') :
    Marked crc (M.map (markPlace es)) s' := by
  rw [h.writer.redoBlockOffset_eq] at hspares
  rw [clearMarks_of_spares hspares] at hnext
  exact ⟨es, M, _, hnext, rfl, hnodup, fun m hm => h.block_lt hm⟩

theorem marked_of_logged
    {s' : State} {e : Entry} (h : Session crc es M n [] s)
    (hspares : ∀ m ∈ M.map (markPlace es), m.keyb ≠ s.data.redoBlockOffset)
    (hnodup : M.Nodup)
    (hnext : Session crc (es ++ [e]) (clearMarks (es.length / keysPerBlock) M)
      (es.length / keysPerBlock + 1) [] s') :
    Marked crc (M.map (markPlace es)) s' := by
  rw [h.writer.redoBlockOffset_eq] at hspares
  rw [clearMarks_of_spares hspares] at hnext
  refine ⟨es ++ [e], M, _, hnext, ?_, hnodup, fun m hm => h.block_lt hm⟩
  refine List.map_congr_left ?_
  intro m hm
  exact (markPlace_append [e] (h.marks_edge m hm).lt_length).symm

theorem marked_of_ended
    {s' : State} {e : Entry} (h : Session crc es M n [] s)
    (hspares : ∀ m ∈ M.map (markPlace es), m.keyb ≠ s.data.redoBlockOffset)
    (hnodup : M.Nodup)
    (hnext : Session crc (es ++ [e])
      (clearMarks ((es.length + 1) / keysPerBlock) (clearMarks (es.length / keysPerBlock) M))
      ((es.length + 1) / keysPerBlock + 1) [] s') :
    Marked crc (M.map (markPlace es)) s' := by
  rw [h.writer.redoBlockOffset_eq] at hspares
  have hnew : ∀ m ∈ M.map (markPlace es),
      m.keyb ≠ keybPos es ((es.length + 1) / keysPerBlock) := by
    intro p hp
    obtain ⟨m, hm, rfl⟩ := List.mem_map.mp hp
    have hlt := h.block_lt hm
    have hne := hspares _ hp
    intro heq
    have hblk := keybPos_injective es heq
    refine hne ?_
    have hcur : m / keysPerBlock = es.length / keysPerBlock := by
      simp only [keysPerBlock_eq] at *
      omega
    rw [markPlace, hcur]
  rw [clearMarks_of_spares hspares, clearMarks_of_spares hnew] at hnext
  refine ⟨es ++ [e], M, _, hnext, ?_, hnodup, ?_⟩
  · refine List.map_congr_left ?_
    intro m hm
    exact (markPlace_append [e] (h.marks_edge m hm).lt_length).symm
  · intro m hm
    have hlt := h.block_lt hm
    simp only [keysPerBlock_eq] at *
    omega

theorem marked_of_replay
    (h : Session crc es M n [] s) (hnodup : M.Nodup)
    (hblock : ∀ m ∈ M, m / keysPerBlock < n) (sync : Bool) :
    Marked crc (M.map (markPlace es) ++ (Call.replay sync).marks crc s)
      (rfsckReplay crc sync s).2 := by
  by_cases hf : s.data.hdr.state = e2redoStateFinished
  · have hlog := h.finishedLog hf
    have hordered := walkLog_ordered crc es M s.data.hdr.visited s.out
    have hle := h.visited_le hf
    obtain ⟨hplace, hwalk⟩ := hlog.logWalk_eq
    rw [Nat.zero_add] at hordered
    have hvisited : ∀ m ∈ (walkLog crc es M s.data.hdr.visited s.out).marks,
        m / keysPerBlock < s.data.hdr.visited := by
      intro m hm
      have hlt := (hordered.marks_new m hm).1
      simp only [keysPerBlock_eq] at *
      omega
    have hmarks : (Call.replay sync).marks crc s =
        (walkLog crc es M s.data.hdr.visited s.out).marks.map (markPlace es) := by
      rw [Call.marks, if_pos (h.finished_iff.mpr hf), hwalk, Walk.marks, List.map_map]
      refine List.map_congr_left ?_
      intro t ht
      have hblk := hvisited t.beginAt (List.mem_map_of_mem ht)
      exact congrArg (fun k => MarkPlace.mk k (t.beginAt % keysPerBlock)) (hplace _ hblk).1
    refine ⟨es, _, n, h.replay hf sync, ?_, ?_, ?_⟩
    · rw [hmarks, List.map_append]
    · refine List.nodup_append.mpr ⟨hnodup, hordered.marks_nodup, ?_⟩
      rintro m hm m' hm' rfl
      -- a begin tag that carries the mark is not found again
      refine (hordered.marks_new m hm').2 ?_
      rw [markedTagOf, if_pos hm, RedoBlockTag.marked_offset]
    · intro m hm
      rcases List.mem_append.mp hm with hm | hm
      · exact hblock m hm
      · exact lt_of_lt_of_le (hvisited m hm) hle
  · obtain ⟨m, hm⟩ := h.replay_of_not_finished hf sync
    rw [Call.marks, if_neg (fun hfin => hf (h.finished_iff.mp hfin)), List.append_nil, hm]
    exact ⟨es, M, n, h.congr rfl rfl, rfl, hnodup, hblock⟩

theorem Marked.step
    (h : Marked crc ms s) {c : Call} (hc : c.Spares ms s) :
    Marked crc (ms ++ c.marks crc s) (c.run crc s).2 := by
  obtain ⟨es, M, n, hs, rfl, hnodup, hblock⟩ := h
  cases c with
  | txnBegin =>
      rw [Call.marks_eq_nil crc (by simp), List.append_nil]
      exact marked_of_logged hs hc hnodup hs.txnBegin
  | write req =>
      rw [Call.marks_eq_nil crc (by simp), List.append_nil]
      exact marked_of_logged hs hc.2 hnodup (hs.write hc.1)
  | txnEnd =>
      rw [Call.marks_eq_nil crc (by simp), List.append_nil]
      exact marked_of_ended hs hc hnodup hs.txnEnd
  | flush =>
      rw [Call.marks_eq_nil crc (by simp), List.append_nil]
      exact marked_of_written hs hc hnodup hs.flush
  | markDone done =>
      rw [Call.marks_eq_nil crc (by simp), List.append_nil]
      exact marked_of_written hs hc hnodup (hs.markDone done)
  | replay sync =>
      exact marked_of_replay hs hnodup hblock sync

theorem Marked.run
    {cs : List Call} (h : Marked crc ms s) (hcs : SparesMarks crc ms cs s) :
    Marked crc (ms ++ marksOf crc cs s) (runCalls crc cs s) := by
  induction cs generalizing ms s with
  | nil =>
      rw [marksOf, List.append_nil]
      exact h
  | cons c cs ih =>
      obtain ⟨hc, hrest⟩ := hcs
      have hrun := ih (h.step hc) hrest
      rw [List.append_assoc] at hrun
      exact hrun

theorem Marked.on (h : Marked crc ms s) :
    (∀ m ∈ ms, m.On (s.world.file .redo)) ∧ ms.Nodup := by
  obtain ⟨es, M, n, hs, rfl, hnodup, hblock⟩ := h
  refine ⟨?_, hnodup.map (markPlace_injective es)⟩
  intro p hp
  obtain ⟨m, hm, rfl⟩ := List.mem_map.mp hp
  have hread := ByteFile.pread_of_holds (hs.stored.keyb_holds _ (hblock m hm))
  have hslot : m % keysPerBlock < keysPerBlock := Nat.mod_lt _ (by decide)
  rw [RedoBlock.length_encode] at hread
  rw [MarkPlace.On, markPlace, hread, RedoBlock.decode_encode, RedoBlock.remark_tag _ _ _ hslot,
    Nat.div_add_mod, if_pos hm, RedoBlockTag.marked_offset]

end Step

end Runs

/-- A run with one transaction and one replay. -/
def replayedCalls : List Call :=
  historyCalls [[]] ++ [.markDone true] ++ [.replay true]

section Replayed

variable {crc : Bytes → UInt32}

theorem runCalls_replayedCalls (s : State) :
    runCalls crc replayedCalls s = (rfsckReplay crc true (sealHistory crc [[]] s)).2 := by
  rw [replayedCalls, runCalls_append, sealHistory]
  rfl

theorem proper_of_empty_txn : ∀ ws ∈ [[]], Txn.Proper ws := by
  intro ws hws req hreq
  rw [List.mem_singleton.mp hws] at hreq
  simp at hreq

theorem marksOf_replayedCalls
    {w : World} {s : State} (h : FreshlyOpened crc w s) :
    marksOf crc replayedCalls s = [{ keyb := redoHeaderSize, slot := 0 }] := by
  obtain ⟨hsealed, _⟩ := h.sealedLog proper_of_empty_txn (by decide) (by decide)
  have hmarks : marksOf crc replayedCalls s =
      (Call.replay true).marks crc (sealHistory crc [[]] s) := by
    rw [replayedCalls, marksOf_append, marksOf_eq_nil crc (by simp [historyCalls, txnCalls]), List.nil_append,
      ← sealHistory, marksOf, marksOf, List.append_nil]
  have hfin : (sealHistory crc [[]] s).world.header.Finished crc := by
    rw [hsealed.log.header_eq]
    exact hsealed.log.finished
  have hplace := (hsealed.log.logWalk_eq.1 0 (lt_min (Nat.succ_pos _) (by decide))).1
  rw [hmarks, Call.marks, if_pos hfin, hsealed.logWalk_found]
  simp only [MarkedHistory.unmarked, List.map_cons, List.map_nil, MarkedHistory.found, txnFound,
    Found.beginBlk, Nat.zero_div, Nat.zero_mod, hplace, keybPos, Nat.mul_zero, List.take_zero]
  rfl

theorem sparesMarks_replayedCalls (s : State) : SparesMarks crc [] replayedCalls s := by
  have hnone : ∀ (m : MarkPlace) (k : Nat), m ∈ ([] : List MarkPlace) → m.keyb ≠ k :=
    fun m k hm => by simp at hm
  exact ⟨fun m hm => hnone m _ hm, fun m hm => hnone m _ hm, fun m hm => hnone m _ hm,
    trivial, trivial⟩

theorem Session.not_on_of_flush
    {es : List Entry} {M : List Nat} {n : Nat} {s : State} (h : Session crc es M n [] s)
    {g : Nat} (hg : g / keysPerBlock = es.length / keysPerBlock)
    (hoffset : (tagOf es g).offset ≠ txnReplayedCnst) :
    ¬ (markPlace es g).On ((rfsckFlush crc s).2.world.file .redo) := by
  have hread := ByteFile.pread_of_holds
    (h.flush.stored.keyb_holds (g / keysPerBlock) (by omega))
  have hslot : g % keysPerBlock < keysPerBlock := Nat.mod_lt _ (by decide)
  have hnot : g ∉ clearMarks (es.length / keysPerBlock) M := by
    intro hmem
    have hne := (List.mem_filter.mp hmem).2
    simp [hg] at hne
  rw [RedoBlock.length_encode] at hread
  rw [MarkPlace.On, markPlace, hread, RedoBlock.decode_encode, RedoBlock.remark_tag _ _ _ hslot,
    Nat.div_add_mod, if_neg hnot, keybOf_tag _ _ _ hslot, Nat.div_add_mod]
  exact hoffset

theorem FreshlyOpened.flush_undoes
    {w : World} {s : State} (h : FreshlyOpened crc w s) :
    { keyb := redoHeaderSize, slot := 0 } ∈ marksOf crc (replayedCalls ++ [.flush]) s ∧
      ¬ MarkPlace.On { keyb := redoHeaderSize, slot := 0 }
        ((runCalls crc (replayedCalls ++ [.flush]) s).world.file .redo) := by
  constructor
  · rw [marksOf_append, marksOf_replayedCalls h]
    simp
  · have hentries : Txns.entries crc ⟨[[]], none⟩ = historyEntries crc 1 [[]] :=
      List.append_nil _
    have hlogged := (h.loggedHistory proper_of_empty_txn).markDone true
    obtain ⟨n, hs⟩ := hlogged.session
    have hreplay := hs.replay (hlogged.done_iff.mpr rfl) true
    rw [hentries] at hreplay
    have hlen : (historyEntries crc 1 [[]]).length = 2 := by
      rfl
    have hflush := hreplay.not_on_of_flush (g := 0) (by rw [hlen]; rfl) (by
      rw [show tagOf (historyEntries crc 1 [[]]) 0 = edgeTag 1 from rfl]
      decide)
    have hplace : markPlace (historyEntries crc 1 [[]]) 0 =
        { keyb := redoHeaderSize, slot := 0 } := by
      simp [markPlace, keybPos, dataSize]
    rw [hplace] at hflush
    rw [runCalls_append, runCalls_replayedCalls, sealHistory_eq]
    exact hflush

end Replayed

end Redo
end Rfsck
