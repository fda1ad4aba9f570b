import Rfsck.Redo.Durability

/-!
# Replays that fail

A replay ends at the first system call that fails.  Neither `rfsck_open` nor the restart
of `e2fsck` looks at its result: the one goes on to write a header of an empty log, the
other calls `redo_mark_done(0)`.

* `rfsckReplay_idle`: however a replay ends, the fields of `redo_data` that these calls
  write are the ones from before.
* `HeaderKept`: the header by which a later `rfsck_open` would find the transactions is
  still on the log.
* `headerKept_iff`: this is so exactly if the write of the new header does not get to the
  first byte in which it differs, because it fails too or because `redo_mark_done` stops
  ahead of it.
-/

namespace Rfsck
namespace Redo

open Storage

section Frame

/-- What the system has done in `w` stays done. -/
def World.Leads (w w' : World) : Prop :=
  w'.init = w.init ∧ w.trace <+: w'.trace

theorem World.Leads.refl (w : World) : w.Leads w := by
  exact ⟨rfl, List.prefix_refl _⟩

theorem World.Leads.trans {w w' w'' : World} (h : w.Leads w') (h' : w'.Leads w'') :
    w.Leads w'' := by
  exact ⟨h'.1.trans h.1, h.2.trans h'.2⟩

theorem World.leads_pread (w : World) (fd : Fd) (off n : Nat) :
    w.Leads (w.pread fd off n).2 := by
  unfold World.pread
  cases w.nextOutcome with
  | fail =>
      exact World.Leads.refl w
  | short k =>
      exact World.Leads.refl w
  | ok =>
      exact World.Leads.refl w

theorem World.leads_pwrite (w : World) (fd : Fd) (off : Nat) (buf : Bytes) :
    w.Leads (w.pwrite fd off buf).2 := by
  unfold World.pwrite
  cases w.nextOutcome with
  | fail =>
      exact World.Leads.refl w
  | short n =>
      exact ⟨rfl, List.prefix_append _ _⟩
  | ok =>
      exact ⟨rfl, List.prefix_append _ _⟩

theorem World.leads_fsync (w : World) (fd : Fd) : w.Leads (w.fsync fd).2 := by
  unfold World.fsync
  cases w.nextOutcome with
  | fail =>
      exact World.Leads.refl w
  | short n =>
      exact World.Leads.refl w
  | ok =>
      exact ⟨rfl, List.prefix_append _ _⟩

theorem size_applyEvents (fd : Fd) (f : ByteFile) (tr : List (Event Fd)) :
    f.size ≤ (applyEvents fd f tr).size := by
  induction tr generalizing f with
  | nil =>
      exact le_refl _
  | cons e tr ih =>
      refine le_trans ?_ (ih (applyEvent fd f e))
      cases e with
      | pwrite fd' off buf =>
          simp only [applyEvent]
          split_ifs
          · exact ByteFile.size_le_size_pwrite f off buf
          · exact le_refl _
      | fsync fd' =>
          exact le_refl _

theorem World.Leads.size_le {w w' : World} (h : w.Leads w') (fd : Fd) :
    (w.file fd).size ≤ (w'.file fd).size := by
  obtain ⟨hinit, tr, htr⟩ := h
  rw [World.file, World.file, ← htr, hinit, applyEvents_append]
  exact size_applyEvents fd _ tr

/-- The variables of the replayer have come from `r₀`: the fields of `redo_data` that no
replay changes are the same. -/
def Replay.From (r₀ r : Replay) : Prop :=
  r.data.idle = r₀.data.idle ∧ r₀.world.Leads r.world

theorem Replay.From.refl (r : Replay) : r.From r := by
  exact ⟨rfl, World.Leads.refl _⟩

theorem Replay.From.trans {r r' r'' : Replay} (h : r.From r') (h' : r'.From r'') :
    r.From r'' := by
  exact ⟨h'.1.trans h.1, h.2.trans h'.2⟩

/-- A computation of the replayer goes on, or ends the replay, from `r₀`. -/
def StaysFrom {α : Type} (r₀ : Replay) (f : α → Replay) : Except Replay α → Prop
  | .ok a => r₀.From (f a)
  | .error r => r₀.From r

theorem Replay.From.stays
    {α : Type} {r₀ r : Replay} {f : α → Replay} {x : Except Replay α}
    (h : r₀.From r) (hx : StaysFrom r f x) : StaysFrom r₀ f x := by
  cases x with
  | error r' =>
      exact h.trans hx
  | ok a =>
      exact h.trans hx

theorem StaysFrom.bind
    {α β : Type} {r₀ : Replay} {f : α → Replay} {g : β → Replay}
    {x : Except Replay α} {k : α → Except Replay β}
    (hx : StaysFrom r₀ f x) (hk : ∀ a, StaysFrom (f a) g (k a)) :
    StaysFrom r₀ g (x >>= k) := by
  cases x with
  | error r =>
      exact hx
  | ok a =>
      exact Replay.From.stays hx (hk a)

/-- `write_info` without counting. -/
theorem writeInfo_cases (fd : Fd) (off : Nat) (buf : Bytes) (s : State) :
    ((writeInfo fd off buf false s).1 = 0 ↔ (s.world.pwrite fd off buf).1 = buf.length) ∧
      (writeInfo fd off buf false s).2.world = (s.world.pwrite fd off buf).2 ∧
      (writeInfo fd off buf false s).2.data = s.data := by
  unfold writeInfo
  dsimp only
  rw [if_neg Bool.false_ne_true]
  split_ifs with hneg hne
  · refine ⟨⟨fun h => absurd h one_ne_zero, fun h => ?_⟩, rfl, rfl⟩
    omega
  · exact ⟨⟨fun h => absurd h one_ne_zero, fun h => absurd h hne⟩, rfl, rfl⟩
  · exact ⟨⟨fun _ => not_not.mp hne, fun _ => rfl⟩, rfl, rfl⟩

theorem Replay.from_writeInfo (fd : Fd) (off : Nat) (buf : Bytes) (r : Replay) :
    r.From (r.writeInfo fd off buf) := by
  obtain ⟨_, hworld, hdata⟩ := writeInfo_cases fd off buf r.state
  refine ⟨congrArg RedoPrivateData.idle hdata, ?_⟩
  have hlead := World.leads_pwrite r.world fd off buf
  rw [show (r.world.pwrite fd off buf).2 = _ from hworld.symm] at hlead
  exact hlead

theorem loadKeyb_stays (r : Replay) : StaysFrom r id (loadKeyb r) := by
  have hlead := World.leads_pread r.world .redo r.logOffset redoLogBlockSize
  unfold loadKeyb
  cases h : r.world.pread .redo r.logOffset redoLogBlockSize with
  | mk bytes world =>
      rw [h] at hlead
      cases bytes with
      | none =>
          exact ⟨rfl, hlead⟩
      | some bytes =>
          exact ⟨rfl, hlead⟩

theorem replayData_stays (i j : Nat) (r : Replay) : StaysFrom r id (replayData i j r) := by
  have hlead := World.leads_pread r.world .redo r.replayLogOffset
    ((r.replayBlocks i).tag j).size.toNat
  unfold replayData
  dsimp only
  cases h : r.world.pread .redo r.replayLogOffset ((r.replayBlocks i).tag j).size.toNat with
  | mk bytes world =>
      rw [h] at hlead
      cases bytes with
      | none =>
          exact ⟨rfl, hlead⟩
      | some bytes =>
          have hread : r.From { r with world := world } := ⟨rfl, hlead⟩
          dsimp only
          split_ifs
          · exact hread.trans (Replay.from_writeInfo _ _ _ _)
          · exact hread.trans (Replay.from_writeInfo _ _ _ _)

theorem replayWhile_stays (i count n j : Nat) (r : Replay) :
    StaysFrom r Prod.snd (replayWhile i count n j r) := by
  induction n generalizing j r with
  | zero =>
      exact ⟨rfl, World.Leads.refl _⟩
  | succ n ih =>
      rw [replayWhile]
      split_ifs
      · exact Replay.From.refl r
      · exact (replayData_stays i j r).bind (fun r' => ih (j + 1) r')

theorem replayFor_stays (count n i : Nat) (r : Replay) :
    StaysFrom r id (replayFor count n i r) := by
  induction n generalizing i r with
  | zero =>
      exact Replay.From.refl r
  | succ n ih =>
      rw [replayFor]
      refine (replayWhile_stays i count _ _ r).bind ?_
      rintro ⟨done, r'⟩
      cases done with
      | true =>
          exact Replay.From.refl r'
      | false =>
          exact ih (i + 1) r'

theorem from_markReplayed (r : Replay) : r.From (markReplayed r) := by
  obtain ⟨hdata, hlead⟩ := Replay.from_writeInfo .redo (r.keysOffset r.data.txnBeginBlk)
    r.toScan.markedKeyb.encode
    { r with replayBlocks :=
        (Function.update r.replayBlocks r.data.txnBeginBlk r.toScan.markedKeyb) }
  exact ⟨hdata, hlead⟩

variable (crc : Bytes → UInt32)

theorem from_checkTxnEnd (count : Nat) (tag : RedoBlockTag) (r : Replay) :
    r.From (checkTxnEnd crc count tag r) := by
  unfold checkTxnEnd
  dsimp only
  split_ifs
  · exact ⟨rfl, World.Leads.refl _⟩
  · exact ⟨rfl, World.Leads.refl _⟩

theorem replayTag_stays (count : Nat) (r : Replay) :
    StaysFrom r id (replayTag crc count r) := by
  unfold replayTag
  dsimp only
  split_ifs
  · exact ⟨rfl, World.Leads.refl _⟩
  · exact ⟨rfl, World.Leads.refl _⟩
  · exact ⟨rfl, World.Leads.refl _⟩
  · exact ⟨rfl, World.Leads.refl _⟩
  · have hpass : r.From
        { r with logOffset := r.logOffset + (r.keyb.tag count).size.toNat } :=
      ⟨rfl, World.Leads.refl _⟩
    have hcheck := hpass.trans (from_checkTxnEnd crc count (r.keyb.tag count) _)
    refine hcheck.stays ?_
    exact (replayFor_stays count _ _ _).bind from_markReplayed
  · exact ⟨rfl, World.Leads.refl _⟩
  · exact ⟨rfl, World.Leads.refl _⟩

theorem replayTags_stays (n count : Nat) (r : Replay) :
    StaysFrom r id (replayTags crc n count r) := by
  induction n generalizing count r with
  | zero =>
      exact Replay.From.refl r
  | succ n ih =>
      rw [replayTags]
      exact (replayTag_stays crc count r).bind (fun r' => ih (count + 1) r')

theorem replayKeyBlocks_stays (n : Nat) (r : Replay) :
    StaysFrom r id (replayKeyBlocks crc n r) := by
  induction n generalizing r with
  | zero =>
      exact Replay.From.refl r
  | succ n ih =>
      rw [replayKeyBlocks]
      refine (loadKeyb_stays r).bind (fun r' => ?_)
      refine (replayTags_stays crc keysPerBlock 0 r').bind (fun r'' => ?_)
      exact ih { r'' with keybCount := r''.keybCount + 1 }

theorem finishReplay_stays
    {r₀ : Replay} {x : Except Replay Replay} (h : StaysFrom r₀ id x) (flush : Bool) :
    (finishReplay flush x).2.data.idle = r₀.data.idle ∧
      r₀.world.Leads (finishReplay flush x).2.world := by
  cases x with
  | error r =>
      exact h
  | ok r =>
      cases flush with
      | false =>
          exact h
      | true =>
          exact ⟨h.1, h.2.trans (World.leads_fsync r.world _)⟩

/-- **However a replay ends**, it changes no more of `redo_data` than the fields of the
transaction that it looks at. -/
theorem rfsckReplay_stays (sync : Bool) (s : State) :
    (rfsckReplay crc sync s).2.data.idle = s.data.idle ∧
      s.world.Leads (rfsckReplay crc sync s).2.world := by
  have hlead := World.leads_pread s.world .redo 0 redoHeaderSize
  rw [rfsckReplay]
  cases h : s.world.pread .redo 0 redoHeaderSize with
  | mk bytes world =>
      rw [h] at hlead
      cases bytes with
      | none =>
          exact ⟨rfl, hlead⟩
      | some bytes =>
          dsimp only
          split_ifs
          · exact ⟨rfl, hlead⟩
          · exact ⟨rfl, hlead⟩
          · obtain ⟨hdata, hwalk⟩ := finishReplay_stays (replayKeyBlocks_stays crc _ _) sync
            exact ⟨hdata, hlead.trans hwalk⟩

end Frame

/-- The bytes that a `pwrite` of a buffer transfers. -/
def Outcome.written : Outcome → Bytes → Bytes
  | .fail, _ => []
  | .short n, buf => buf.take (min n maxRwCount)
  | .ok, buf => buf.take maxRwCount

/-- The call transfers `n` bytes. -/
def Outcome.Transfers (n : Nat) : Outcome → Prop
  | .fail => False
  | .short k => n ≤ k
  | .ok => True

instance (n : Nat) : (o : Outcome) → Decidable (o.Transfers n)
  | .fail => inferInstanceAs (Decidable False)
  | .short k => inferInstanceAs (Decidable (n ≤ k))
  | .ok => inferInstanceAs (Decidable True)

section Calls

theorem Outcome.written_isPrefix (o : Outcome) (buf : Bytes) : o.written buf <+: buf := by
  cases o with
  | fail =>
      exact List.nil_prefix
  | short n =>
      exact List.take_prefix _ _
  | ok =>
      exact List.take_prefix _ _

theorem Outcome.written_of_transfers
    {o : Outcome} {buf : Bytes} (hbuf : buf.length ≤ maxRwCount)
    (h : o.Transfers buf.length) : o.written buf = buf := by
  cases o with
  | fail =>
      exact absurd h id
  | short n =>
      exact List.take_of_length_le (le_min h hbuf)
  | ok =>
      exact List.take_of_length_le hbuf

theorem World.file_advance (w : World) (fd : Fd) : w.advance.file fd = w.file fd := by
  rfl

theorem writeInfo_file (off : Nat) (buf : Bytes) (s : State) :
    (writeInfo .redo off buf false s).2.world.file .redo =
      (s.world.file .redo).pwrite off (s.world.nextOutcome.written buf) := by
  rw [(writeInfo_cases .redo off buf s).2.1, World.pwrite]
  cases s.world.nextOutcome with
  | fail =>
      exact (ByteFile.pwrite_nil _ _).symm
  | short n =>
      dsimp only
      rw [World.file_push, applyEvent_pwrite_self, World.file_advance]
      rfl
  | ok =>
      dsimp only
      rw [World.file_push, applyEvent_pwrite_self, World.file_advance]
      rfl

theorem writeInfo_dev (off : Nat) (buf : Bytes) (s : State) (fd : Nat) :
    (writeInfo .redo off buf false s).2.world.file (.dev fd) = s.world.file (.dev fd) := by
  rw [(writeInfo_cases .redo off buf s).2.1, World.pwrite]
  cases s.world.nextOutcome with
  | fail =>
      rfl
  | short n =>
      exact file_dev_push_redo _ _ _ _
  | ok =>
      exact file_dev_push_redo _ _ _ _

theorem writeInfo_outcomes (off : Nat) (buf : Bytes) (s : State) :
    (writeInfo .redo off buf false s).2.world.outcomes = s.world.outcomes.tail := by
  rw [(writeInfo_cases .redo off buf s).2.1, World.pwrite]
  cases s.world.nextOutcome with
  | fail =>
      rfl
  | short n =>
      rfl
  | ok =>
      rfl

/-- `write_info` reports success exactly if the whole buffer was transferred. -/
theorem writeInfo_fst
    (off : Nat) {buf : Bytes} (hbuf : buf.length ≤ maxRwCount) (s : State) :
    (writeInfo .redo off buf false s).1 = 0 ↔ s.world.nextOutcome.Transfers buf.length := by
  rw [(writeInfo_cases .redo off buf s).1, World.pwrite]
  cases s.world.nextOutcome with
  | fail =>
      simp only [Outcome.Transfers, iff_false]
      omega
  | short n =>
      simp only [Outcome.Transfers, List.length_take, Nat.cast_inj]
      omega
  | ok =>
      simp only [Outcome.Transfers, List.length_take, Nat.cast_inj, iff_true]
      omega

end Calls

section Kept

/-- The header that a later `rfsck_open` reads has not changed. -/
def HeaderKept (w w' : World) : Prop :=
  (w'.file .redo).pread 0 redoHeaderSize = (w.file .redo).pread 0 redoHeaderSize

theorem headerKept_writeInfo (hdr : RedoHeader) (s : State) :
    HeaderKept s.world (writeInfo .redo 0 hdr.encode false s).2.world ↔
      s.world.nextOutcome.written hdr.encode <+: (s.world.file .redo).pread 0 redoHeaderSize := by
  have hlen := (s.world.nextOutcome.written_isPrefix hdr.encode).length_le
  rw [RedoHeader.length_encode] at hlen
  rw [HeaderKept, writeInfo_file, ByteFile.pread_pwrite_eq_iff _ _ hlen]

theorem headerKept_writeInfo_above
    {off : Nat} (hoff : redoHeaderSize ≤ off) (buf : Bytes) {s : State}
    (hsize : redoHeaderSize ≤ (s.world.file .redo).size) :
    HeaderKept s.world (writeInfo .redo off buf false s).2.world := by
  rw [HeaderKept, writeInfo_file]
  exact ByteFile.pread_pwrite_of_ge _ (by omega) (by omega)

variable (crc : Bytes → UInt32)

/-- The outcome of the system call that comes behind `n` others. -/
def World.outcomeAt (w : World) (n : Nat) : Outcome :=
  w.outcomes.getD n .ok

theorem World.nextOutcome_eq (w : World) : w.nextOutcome = w.outcomeAt 0 := by
  rw [World.nextOutcome, World.outcomeAt]
  cases w.outcomes with
  | nil =>
      rfl
  | cons o os =>
      rfl

theorem World.outcomeAt_of_tail
    {w w' : World} (h : w'.outcomes = w.outcomes.tail) (n : Nat) :
    w'.outcomeAt n = w.outcomeAt (n + 1) := by
  rw [World.outcomeAt, World.outcomeAt, h]
  cases w.outcomes with
  | nil =>
      rfl
  | cons o os =>
      rfl

theorem writeKeyb_steps
    {s : State} (hoff : redoHeaderSize ≤ s.data.redoBlockOffset)
    (hsize : redoHeaderSize ≤ (s.world.file .redo).size) :
    HeaderKept s.world (writeKeyb s).2.world ∧
      ((writeKeyb s).1 = 0 ↔ (s.world.outcomeAt 0).Transfers redoLogBlockSize) ∧
      (∀ n, (writeKeyb s).2.world.outcomeAt n = s.world.outcomeAt (n + 1)) ∧
      (writeKeyb s).2.data = s.data ∧
      redoHeaderSize ≤ ((writeKeyb s).2.world.file .redo).size := by
  have hlen := RedoBlock.length_encode s.data.keyb
  obtain ⟨_, hworld, hdata⟩ := writeInfo_cases .redo s.data.redoBlockOffset
    s.data.keyb.encode s
  have hlead := World.leads_pwrite s.world .redo s.data.redoBlockOffset s.data.keyb.encode
  rw [← hworld] at hlead
  refine ⟨headerKept_writeInfo_above hoff _ hsize, ?_, ?_, hdata,
    le_trans hsize (hlead.size_le .redo)⟩
  · rw [writeKeyb, writeInfo_fst _ (by rw [hlen]; exact redoLogBlockSize_le_maxRwCount),
      hlen, World.nextOutcome_eq]
  · exact World.outcomeAt_of_tail (writeInfo_outcomes _ _ _)

/-- The same for `rfsck_flush`. -/
theorem rfsckFlush_steps
    {s : State} (hoff : redoHeaderSize ≤ s.data.redoBlockOffset)
    (hsize : redoHeaderSize ≤ (s.world.file .redo).size) :
    HeaderKept s.world (rfsckFlush crc s).2.world ∧
      ((rfsckFlush crc s).1 = 0 ↔
        (s.world.outcomeAt 0).Transfers redoLogBlockSize ∧ s.world.outcomeAt 1 = .ok) ∧
      ((rfsckFlush crc s).1 = 0 → ∀ n,
        (rfsckFlush crc s).2.world.outcomeAt n = s.world.outcomeAt (n + 2)) ∧
      (rfsckFlush crc s).2.data = (stampKeyb crc s).data ∧
      redoHeaderSize ≤ ((rfsckFlush crc s).2.world.file .redo).size := by
  have hwrite := writeKeyb_steps (s := stampKeyb crc s) hoff hsize
  unfold rfsckFlush
  dsimp only
  generalize writeKeyb (stampKeyb crc s) = x at hwrite ⊢
  obtain ⟨retval, s'⟩ := x
  obtain ⟨hkept, hfst, hnext, hdata, hsize'⟩ := hwrite
  dsimp only at hkept hfst hnext hdata hsize' ⊢
  split_ifs with hr
  · refine ⟨hkept, ?_, fun h => absurd h hr, hdata, hsize'⟩
    exact ⟨fun h => absurd h hr, fun h => absurd (hfst.mpr h.1) hr⟩
  · have hok := hfst.mp (not_not.mp hr)
    have hsecond : s'.world.nextOutcome = s.world.outcomeAt 1 := by
      rw [World.nextOutcome_eq, hnext 0]
      rfl
    have hafter : (s'.world.fsync .redo).2.file .redo = s'.world.file .redo ∧
        (s'.world.fsync .redo).2.outcomes = s'.world.outcomes.tail := by
      unfold World.fsync
      cases s'.world.nextOutcome with
      | fail =>
          exact ⟨rfl, rfl⟩
      | short n =>
          exact ⟨rfl, rfl⟩
      | ok =>
          exact ⟨by rw [World.file_push, applyEvent_fsync]; rfl, rfl⟩
    have hfsync : (s'.world.fsync .redo).1 = 0 ↔ s'.world.nextOutcome = .ok := by
      unfold World.fsync
      cases s'.world.nextOutcome with
      | fail =>
          simp
      | short n =>
          simp
      | ok =>
          simp
    refine ⟨?_, ?_, ?_, hdata, ?_⟩
    · rw [HeaderKept] at hkept ⊢
      rw [hafter.1]
      exact hkept
    · rw [hfsync, hsecond]
      exact ⟨fun h => ⟨hok, h⟩, fun h => h.2⟩
    · intro _ n
      rw [World.outcomeAt_of_tail hafter.2, hnext]
      rfl
    · rw [hafter.1]
      exact hsize'

/-- `redo_mark_done` gets as far as the header. -/
def ReachesHeader (w : World) : Prop :=
  (w.outcomeAt 0).Transfers redoLogBlockSize ∧
    (w.outcomeAt 1).Transfers redoLogBlockSize ∧ w.outcomeAt 2 = .ok

theorem doneHeader_congr
    {s s' : State} (hhdr : s.data.hdr = s'.data.hdr) (hkeys : s.data.numKeys = s'.data.numKeys)
    (done : Bool) : s.doneHeader crc done = s'.doneHeader crc done := by
  rw [State.doneHeader, State.doneHeader, hhdr, hkeys]

/-- The end of `redo_mark_done`: the header, and a flush. -/
theorem headerKept_putHeader
    {s : State} (hoff : redoHeaderSize ≤ s.data.redoBlockOffset)
    (hsize : redoHeaderSize ≤ (s.world.file .redo).size) :
    HeaderKept s.world
        (if (writeInfo .redo 0 s.data.hdr.encode false s).1 ≠ 0 then
          writeInfo .redo 0 s.data.hdr.encode false s
        else
          rfsckFlush crc (writeInfo .redo 0 s.data.hdr.encode false s).2).2.world ↔
      s.world.nextOutcome.written s.data.hdr.encode <+:
        (s.world.file .redo).pread 0 redoHeaderSize := by
  have hput := headerKept_writeInfo s.data.hdr s
  obtain ⟨_, hworld, hdata⟩ := writeInfo_cases .redo 0 s.data.hdr.encode s
  have hlead := World.leads_pwrite s.world .redo 0 s.data.hdr.encode
  rw [← hworld] at hlead
  split_ifs with hr
  · exact hput
  · -- the flush only writes the key block
    obtain ⟨hkept, _⟩ := rfsckFlush_steps crc
      (s := (writeInfo .redo 0 s.data.hdr.encode false s).2) (by rw [hdata]; exact hoff)
      (le_trans hsize (hlead.size_le .redo))
    rw [← hput, HeaderKept, HeaderKept]
    rw [HeaderKept] at hkept
    rw [hkept]

/-- What `redo_mark_done` leaves of the header. -/
theorem headerKept_markDone
    {s : State} (hoff : redoHeaderSize ≤ s.data.redoBlockOffset)
    (hsize : redoHeaderSize ≤ (s.world.file .redo).size) (done : Bool) :
    HeaderKept s.world (redoMarkDone crc done s).2.world ↔
      (ReachesHeader s.world →
        (s.world.outcomeAt 3).written (s.doneHeader crc done).encode <+:
          (s.world.file .redo).pread 0 redoHeaderSize) := by
  have hwrite := writeKeyb_steps (s := stampKeyb crc s) hoff hsize
  unfold redoMarkDone
  dsimp only
  generalize writeKeyb (stampKeyb crc s) = x at hwrite ⊢
  obtain ⟨r₁, s₁⟩ := x
  obtain ⟨hkept₁, hfst₁, hnext₁, hdata₁, hsize₁⟩ := hwrite
  dsimp only at hkept₁ hfst₁ hnext₁ hdata₁ hsize₁ ⊢
  by_cases hr₁ : r₁ ≠ 0
  · rw [if_pos hr₁]
    exact ⟨fun _ h => absurd (hfst₁.mpr h.1) hr₁, fun _ => hkept₁⟩
  rw [if_neg hr₁]
  have hoff₁ : redoHeaderSize ≤ s₁.data.redoBlockOffset := by
    rw [hdata₁]
    exact hoff
  have hflush := rfsckFlush_steps crc hoff₁ hsize₁
  generalize rfsckFlush crc s₁ = x at hflush ⊢
  obtain ⟨r₂, s₂⟩ := x
  obtain ⟨hkept₂, hfst₂, hnext₂, hdata₂, hsize₂⟩ := hflush
  dsimp only at hkept₂ hfst₂ hnext₂ hdata₂ hsize₂ ⊢
  rw [hnext₁, hnext₁] at hfst₂
  by_cases hr₂ : r₂ ≠ 0
  · rw [if_pos hr₂]
    exact ⟨fun _ h => absurd (hfst₂.mpr h.2) hr₂, fun _ => hkept₂.trans hkept₁⟩
  rw [if_neg hr₂]
  have hreaches : ReachesHeader s.world :=
    ⟨hfst₁.mp (not_not.mp hr₁), hfst₂.mp (not_not.mp hr₂)⟩
  have hheader : s₂.doneHeader crc done = s.doneHeader crc done := by
    refine doneHeader_congr crc ?_ ?_ done
    · rw [hdata₂, stampKeyb, hdata₁]
      rfl
    · rw [hdata₂, stampKeyb, hdata₁]
      rfl
  have hfourth : s₂.world.nextOutcome = s.world.outcomeAt 3 := by
    rw [World.nextOutcome_eq, hnext₂ (not_not.mp hr₂), hnext₁]
    rfl
  have hbefore : HeaderKept s.world s₂.world := hkept₂.trans hkept₁
  have hput := headerKept_putHeader crc
    (s := { s₂ with data.hdr := s₂.doneHeader crc done }) (by rw [hdata₂]; exact hoff₁) hsize₂
  rw [hheader] at hput
  simp only [hfourth, HeaderKept] at hput hbefore ⊢
  rw [hbefore] at hput
  rw [← hheader] at hput ⊢
  exact hput.trans ⟨fun h _ => h, fun h => h hreaches⟩

/-- The state in which `rfsck_open` calls `rfsck_replay`, once the log file is open. -/
def openState (devFd : Nat) (raw : RedoPrivateData) (p : Process) (w : World) : State where
  data := p.redoData.getD (redoSetup crc devFd raw)
  world := w
  out := p.out

/-- `rfsck_open` writes the header behind a replay, whatever its result. -/
theorem rfsckOpen_world
    (redo : String) {devFd : Nat} (hdev : 1 ≤ devFd) (raw : RedoPrivateData) {p : Process}
    {w v : World} (h : p.world.openRedo = (true, w)) (h' : w.openRedo = (true, v)) :
    (rfsckOpen crc (some redo) devFd raw p).2.world =
      (firstOpen crc (openState crc devFd raw p v)).2.world := by
  unfold rfsckOpen
  rw [if_neg (by simp), if_neg (by omega), h]
  dsimp only
  rw [h']
  dsimp only
  split_ifs
  · rfl
  · rfl

end Kept

section Lost

variable (crc : Bytes → UInt32)

/-- A new process on the files that are left. -/
def World.reboot (w : World) (outcomes : List Outcome) : World where
  init := w.file
  trace := []
  outcomes := outcomes
  heap := w.heap

@[simp] theorem World.reboot_file (w : World) (os : List Outcome) (fd : Fd) :
    (w.reboot os).file fd = w.file fd := by
  rfl

theorem rfsckReplay_of_failed_read
    {s : State} {os : List Outcome} (hos : s.world.outcomes = .ok :: .fail :: os)
    (hfin : s.world.header.Finished crc) (sync : Bool) :
    (rfsckReplay crc sync s).1 = -1 ∧
      (rfsckReplay crc sync s).2.world = { s.world with outcomes := os } := by
  have hread : s.world.pread .redo 0 redoHeaderSize =
      (some ((s.world.file .redo).pread 0 redoHeaderSize), s.world.advance) := by
    unfold World.pread
    rw [World.nextOutcome, hos]
    rfl
  obtain ⟨n, hn⟩ : ∃ n, s.world.header.visited = n + 1 := by
    refine ⟨s.world.header.visited - 1, ?_⟩
    have hpos : 0 < s.world.header.visited := lt_min (Nat.succ_pos _) (by decide)
    omega
  have hfail : s.world.advance.pread .redo s.world.header.keyOffset.toNat redoLogBlockSize =
      (none, { s.world with outcomes := os }) := by
    unfold World.pread
    rw [World.nextOutcome, World.advance, hos]
    rfl
  rw [rfsckReplay, hread]
  dsimp only
  rw [show readHeader s.world ((s.world.file .redo).pread 0 redoHeaderSize) = s.world.header
    from rfl, if_neg (not_not.mpr hfin.1), if_neg (not_not.mpr hfin.2), hn, replayKeyBlocks]
  have hload : ∀ retval, loadKeyb (startReplay s.world.header retval
      { s with world := s.world.advance }) =
      .error ({ startReplay s.world.header retval { s with world := s.world.advance } with
        world := { s.world with outcomes := os }, retval := -1 }.print
          .unableToReadKeyBlock) := by
    intro retval
    unfold loadKeyb
    rw [show (startReplay s.world.header retval { s with world := s.world.advance }).world.pread
        .redo (startReplay s.world.header retval
          { s with world := s.world.advance }).logOffset redoLogBlockSize = _ from hfail]
  rw [hload]
  exact ⟨rfl, rfl⟩

/-- The first `rfsck_open` of a new process, in a system with the given outcomes. -/
def openedAgain (w : World) (outcomes : List Outcome) : Process :=
  (rfsckOpen crc (some "redo") 1 blankData
    { redoData := none, world := w.reboot outcomes, out := [] }).2

/-- When the replay of `rfsck_open` cannot read a key block, the header is replaced. -/
theorem openedAgain_of_failed_read
    (w : World) (os : List Outcome) (hfin : (w.reboot []).header.Finished crc) :
    (rfsckReplay crc true
        (setupState crc 1 blankData (w.reboot (.ok :: .fail :: os)) [])).1 = -1 ∧
      (rfsckReplay crc true
        (setupState crc 1 blankData (w.reboot (.ok :: .fail :: os)) [])).2.world = w.reboot os ∧
      (openedAgain crc w (.ok :: .ok :: .ok :: .fail :: os)).world =
        (writeInfo .redo 0 (redoSetup crc 1 blankData).hdr.encode false
          (setupState crc 1 blankData (w.reboot os) [])).2.world := by
  obtain ⟨hret, hworld⟩ := rfsckReplay_of_failed_read crc
    (s := setupState crc 1 blankData (w.reboot (.ok :: .fail :: os)) []) rfl hfin true
  obtain ⟨hidle, _⟩ := rfsckReplay_stays crc true
    (setupState crc 1 blankData (w.reboot (.ok :: .fail :: os)) [])
  refine ⟨hret, hworld, ?_⟩
  rw [openedAgain, rfsckOpen_world crc "redo" (le_refl 1) blankData
    (p := { redoData := none, world := w.reboot (.ok :: .ok :: .ok :: .fail :: os), out := [] })
    (w := w.reboot (.ok :: .ok :: .fail :: os)) (v := w.reboot (.ok :: .fail :: os)) rfl rfl]
  rw [show openState crc 1 blankData
      { redoData := none, world := w.reboot (.ok :: .ok :: .ok :: .fail :: os), out := [] }
      (w.reboot (.ok :: .fail :: os)) =
      setupState crc 1 blankData (w.reboot (.ok :: .fail :: os)) [] from rfl, firstOpen,
    (writeInfo_cases _ _ _ _).2.1, (writeInfo_cases _ _ _ _).2.1, hworld,
    RedoPrivateData.hdr_of_idle hidle]
  rfl

/-- Without a FINISHED header, the next `rfsck_open` leaves the device alone. -/
theorem openedAgain_dev
    {w : World} (hnew : ¬ (w.reboot []).header.Finished crc) (fd : Nat) :
    (openedAgain crc w []).world.file (.dev fd) = w.file (.dev fd) := by
  have hfresh := freshlyOpened_firstOpen crc (w := w.reboot []) rfl hnew (le_refl 1) blankData []
  have hworld := hfresh.session.2.2.2
  rw [openedAgain, rfsckOpen_world crc "redo" (le_refl 1) blankData
    (p := { redoData := none, world := w.reboot [], out := [] })
    (w := w.reboot []) (v := w.reboot []) rfl rfl]
  have hfile := congrArg (fun v => World.file v (.dev fd)) hworld
  rw [file_dev_push_redo] at hfile
  exact hfile

theorem openedAgain_header
    (w : World) (hfin : (w.reboot []).header.Finished crc) :
    ¬ ((openedAgain crc w [.ok, .ok, .ok, .fail]).world.reboot []).header.Finished crc := by
  obtain ⟨_, _, hopen⟩ := openedAgain_of_failed_read crc w [] hfin
  have hholds : (((openedAgain crc w [.ok, .ok, .ok, .fail]).world.reboot []).file .redo).Holds 0
      (redoSetup crc 1 blankData).hdr.encode := by
    rw [World.reboot_file, hopen, writeInfo_file]
    have hwhole : (setupState crc 1 blankData (w.reboot []) []).world.nextOutcome.written
        (redoSetup crc 1 blankData).hdr.encode = (redoSetup crc 1 blankData).hdr.encode := by
      refine Outcome.written_of_transfers ?_ trivial
      rw [RedoHeader.length_encode]
      exact redoHeaderSize_le_maxRwCount
    rw [hwhole]
    exact ByteFile.holds_pwrite_self _ _ _
  rw [World.header_of_holds hholds]
  exact fun hf => absurd hf.2 zero_ne_finished

end Lost

theorem blankState_devFd (crc : Bytes → UInt32) : (blankState crc).data.devFd = 1 := by
  obtain ⟨hidle, _⟩ := rfsckReplay_stays crc true (setupState crc 1 blankData blankWorld [])
  rw [blankState, firstOpen, (writeInfo_cases _ _ _ _).2.2]
  exact RedoPrivateData.devFd_of_idle hidle

theorem sealedLog_of_one_write :
    SealedLog crc32c (MarkedHistory.unmarked [[byteWrite 0 7]])
        (sealHistory crc32c [[byteWrite 0 7]] (blankState crc32c)).data.hdr
        ((sealHistory crc32c [[byteWrite 0 7]] (blankState crc32c)).world.file .redo) ∧
      (sealHistory crc32c [[byteWrite 0 7]] (blankState crc32c)).world.file (.dev 1) =
        ByteFile.empty := by
  have hproper : ∀ ws ∈ [[byteWrite 0 7]], Txn.Proper ws := by
    intro ws hws
    refine proper_of_byteWrites ?_
    rw [List.mem_singleton.mp hws]
    simp [byteWrite]
  obtain ⟨hsealed, _, _, hdev⟩ := (blankState_freshlyOpened crc32c).sealedLog hproper
    (by decide) (by decide)
  rw [blankState_devFd] at hdev
  exact ⟨hsealed, hdev⟩

theorem finished_of_sealedLog
    {crc : Bytes → UInt32} {H : MarkedHistory} {hdr : RedoHeader} {w : World}
    (h : SealedLog crc H hdr (w.file .redo)) (os : List Outcome) :
    (w.reboot os).header.Finished crc := by
  rw [World.header_of_holds (w := w.reboot os) h.log.header_holds]
  exact h.log.finished

/-- As long as the header is kept, a later `rfsck_open` finds the log FINISHED. -/
theorem finished_of_kept
    {crc : Bytes → UInt32} {H : MarkedHistory} {hdr : RedoHeader} {w v : World}
    (h : SealedLog crc H hdr (w.file .redo)) (hkept : HeaderKept w v) :
    (v.reboot []).header.Finished crc := by
  have hread := ByteFile.pread_of_holds h.log.header_holds
  rw [RedoHeader.length_encode] at hread
  rw [HeaderKept, hread] at hkept
  have hholds := ByteFile.holds_of_pread
    (show ((v.file .redo).pread 0 redoHeaderSize).length = redoHeaderSize by
      rw [hkept, RedoHeader.length_encode])
  rw [hkept] at hholds
  rw [World.header_of_holds (w := v.reboot []) hholds]
  exact h.log.finished

end Redo
end Rfsck
