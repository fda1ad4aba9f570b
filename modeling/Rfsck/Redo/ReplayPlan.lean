import Rfsck.Redo.Replay

/-!
# Replay as a plan and its execution

`rfsck_replay` interleaves reading tags, copying data and writing marks.  This
module separates the two concerns, for a system in which no call fails.

* The *plan* is a pure function of the log file as it was when the replay
  started: the list of the copies and marks that the walk over the tags asks for.
* *Execution* carries a plan out, one system call at a time, and stops at the
  first copy that does not fit one system call.

The separation is exact because a mark only overwrites a key block that lies
below everything the walk still has to read (`replayKeyBlocks_agrees`), and it is
what the statements about whole replays are proved from.
-/

namespace Rfsck
namespace Redo

open Storage

namespace World

theorem advance_of_outcomes_nil
    {w : World} (h : w.outcomes = []) : w.advance = w := by
  cases w with
  | mk init trace outcomes heap =>
      subst h
      rfl

theorem nextOutcome_of_outcomes_nil
    {w : World} (h : w.outcomes = []) : w.nextOutcome = .ok := by
  simp [nextOutcome, h]

@[simp] theorem push_outcomes (w : World) (e : Event Fd) :
    (w.push e).outcomes = w.outcomes := by
  rfl

@[simp] theorem push_trace (w : World) (e : Event Fd) :
    (w.push e).trace = w.trace ++ [e] := by
  rfl

@[simp] theorem push_init (w : World) (e : Event Fd) :
    (w.push e).init = w.init := by
  rfl

@[simp] theorem file_push (w : World) (fd : Fd) (e : Event Fd) :
    (w.push e).file fd = applyEvent fd (w.file fd) e := by
  simp [file]

theorem pread_of_outcomes_nil
    {w : World} (h : w.outcomes = []) (fd : Fd) (off n : Nat) :
    w.pread fd off n = (some ((w.file fd).pread off (min n maxRwCount)), w) := by
  simp [pread, nextOutcome_of_outcomes_nil h, advance_of_outcomes_nil h]

theorem pwrite_of_outcomes_nil
    {w : World} (h : w.outcomes = []) (fd : Fd) (off : Nat) (buf : Bytes) :
    w.pwrite fd off buf =
      (((buf.take maxRwCount).length : Int),
        w.push (.pwrite fd off (buf.take maxRwCount))) := by
  simp [pwrite, nextOutcome_of_outcomes_nil h, advance_of_outcomes_nil h]

theorem fsync_of_outcomes_nil
    {w : World} (h : w.outcomes = []) (fd : Fd) :
    w.fsync fd = (0, w.push (.fsync fd)) := by
  simp [fsync, nextOutcome_of_outcomes_nil h, advance_of_outcomes_nil h]

@[simp] theorem length_malloc (w : World) (site : Site) (n : Nat) :
    (w.malloc site n).length = n := by
  simp [malloc]

end World

theorem writeInfo_plain
    {s : State} (h : s.world.outcomes = [])
    (fd : Fd) (off : Nat) {buf : Bytes} (hbuf : buf.length ≤ maxRwCount) :
    writeInfo fd off buf false s =
      (0, { s with world := s.world.push (.pwrite fd off buf) }) := by
  have htake : buf.take maxRwCount = buf := List.take_of_length_le hbuf
  have hneg : ¬ ((buf.length : Int) < 0) := by
    omega
  unfold writeInfo
  rw [World.pwrite_of_outcomes_nil h, htake]
  simp [hneg]

theorem writeInfo_counted
    {s : State} (h : s.world.outcomes = [])
    (fd : Fd) (off : Nat) {buf : Bytes} (hbuf : buf.length ≤ maxRwCount) :
    writeInfo fd off buf true s =
      (0, { s with
        world := s.world.push (.pwrite fd off buf)
        data.logOffset := s.data.logOffset + buf.length }) := by
  have htake : buf.take maxRwCount = buf := List.take_of_length_le hbuf
  have hneg : ¬ ((buf.length : Int) < 0) := by
    omega
  unfold writeInfo
  rw [World.pwrite_of_outcomes_nil h, htake]
  simp [hneg]

theorem writeInfo_cut
    {s : State} (h : s.world.outcomes = [])
    (fd : Fd) (off : Nat) {buf : Bytes} (hbuf : maxRwCount < buf.length)
    (countOffset : Bool) :
    writeInfo fd off buf countOffset s =
      (1, { s with world :=
          s.world.push (.pwrite fd off (buf.take maxRwCount)) }.print
        (.unableToWriteRecord buf.length off)) := by
  have hlen : (buf.take maxRwCount).length = maxRwCount := by
    rw [List.length_take]
    omega
  have hneg : ¬ ((maxRwCount : Int) < 0) := by
    omega
  have hne : (maxRwCount : Int) ≠ (buf.length : Int) := by
    omega
  unfold writeInfo
  rw [World.pwrite_of_outcomes_nil h, hlen]
  simp [hneg, hne]

theorem redoLogBlockSize_le_maxRwCount : redoLogBlockSize ≤ maxRwCount := by
  decide

theorem redoHeaderSize_le_maxRwCount : redoHeaderSize ≤ maxRwCount := by
  decide

/-- What the walk takes a tag for. -/
inductive TagKind where
  | unused
  | beginTag
  | markedBegin
  | endTag
  | skippedEnd
  | dataTag
  | skippedData
deriving DecidableEq, Repr

/-- The case distinction of the loop over tags, from the variables it looks at. -/
def tagKind (txnId : UInt32) (isReplayed : Bool) (tag : RedoBlockTag) : TagKind :=
  if tag.size = 0 ∧ tag.blkCrc = 0 ∧ tag.offset = 0 then
    .unused
  else if tag.size = 0 ∧ 0 < tag.blkCrc then
    if txnId = 0 then
      if tag.offset = txnReplayedCnst then .markedBegin else .beginTag
    else
      if isReplayed then .skippedEnd else .endTag
  else
    if isReplayed then .skippedData else .dataTag

/-- One input or output of a replay. -/
inductive Action where
  | copy (tag : RedoBlockTag) (pos : Nat)
  | mark (offset : Nat) (kb : RedoBlock)

/-- The bytes that a copy hands to the device: what the log holds, filled up with
heap memory where the log is too short. -/
def copyData (w : World) (tag : RedoBlockTag) (pos : Nat) : Bytes :=
  let bytes := (w.file .redo).pread pos (min tag.size.toNat maxRwCount)
  bytes ++ (w.malloc .dataBlock tag.size.toNat).drop bytes.length

theorem length_copyData (w : World) (tag : RedoBlockTag) (pos : Nat) :
    (copyData w tag pos).length = tag.size.toNat := by
  have h := (w.file .redo).length_pread_le pos (min tag.size.toNat maxRwCount)
  simp only [copyData, List.length_append, List.length_drop, World.length_malloc]
  omega

/-- The system call of an action. -/
def Action.event (devFd : Nat) (w : World) : Action → Event Fd
  | .copy tag pos =>
      .pwrite (.dev devFd) tag.offset.toNat ((copyData w tag pos).take maxRwCount)
  | .mark offset kb => .pwrite .redo offset kb.encode

/-- The action does not end the replay. -/
def Action.Whole : Action → Prop
  | .copy tag _ => tag.size.toNat ≤ maxRwCount
  | .mark _ _ => True

instance : (a : Action) → Decidable a.Whole
  | .copy _ _ => inferInstanceAs (Decidable (_ ≤ _))
  | .mark _ _ => inferInstanceAs (Decidable True)

/-- Carry out a plan. -/
def execute (devFd : Nat) : List Action → World → Except World World
  | [], w => .ok w
  | a :: as, w =>
      if a.Whole then
        execute devFd as (w.push (a.event devFd w))
      else
        .error (w.push (a.event devFd w))

theorem execute_append (devFd : Nat) (as bs : List Action) (w : World) :
    execute devFd (as ++ bs) w =
      (execute devFd as w).bind (execute devFd bs) := by
  induction as generalizing w with
  | nil =>
      rfl
  | cons a as ih =>
      simp only [List.cons_append, execute]
      split_ifs with ha
      · exact ih _
      · rfl

theorem execute_outcomes
    (devFd : Nat) (as : List Action) (w : World) :
    match execute devFd as w with
    | .ok w' => w'.outcomes = w.outcomes
    | .error w' => w'.outcomes = w.outcomes := by
  induction as generalizing w with
  | nil =>
      rfl
  | cons a as ih =>
      simp only [execute]
      split_ifs with ha
      · exact ih _
      · rfl

theorem execute_ok_outcomes
    {devFd : Nat} {as : List Action} {w w' : World}
    (h : execute devFd as w = .ok w') :
    w'.outcomes = w.outcomes := by
  have hout := execute_outcomes devFd as w
  rwa [h] at hout

def perform (devFd : Nat) (acts : List Action) (w : World) : World :=
  acts.foldl (fun w a => w.push (a.event devFd w)) w

@[simp] theorem perform_nil (devFd : Nat) (w : World) : perform devFd [] w = w := by
  rfl

@[simp] theorem perform_cons (devFd : Nat) (a : Action) (as : List Action) (w : World) :
    perform devFd (a :: as) w = perform devFd as (w.push (a.event devFd w)) := by
  rfl

@[simp] theorem perform_append (devFd : Nat) (as bs : List Action) (w : World) :
    perform devFd (as ++ bs) w = perform devFd bs (perform devFd as w) := by
  simp [perform]

@[simp] theorem perform_outcomes (devFd : Nat) (as : List Action) (w : World) :
    (perform devFd as w).outcomes = w.outcomes := by
  induction as generalizing w with
  | nil =>
      rfl
  | cons a as ih =>
      rw [perform_cons, ih, World.push_outcomes]

theorem execute_of_whole
    {devFd : Nat} {as : List Action} (h : ∀ a ∈ as, a.Whole) (w : World) :
    execute devFd as w = .ok (perform devFd as w) := by
  induction as generalizing w with
  | nil =>
      rfl
  | cons a as ih =>
      rw [execute, if_pos (h a (by simp)), perform_cons]
      exact ih (fun b hb => h b (List.mem_cons_of_mem a hb)) _

/-- The copies of the tags `j`, `j + 1`, ... of key block `i`, of which the first
argument counts those left: whether the end tag was met, the position of the
next data, and the copies. -/
def planWhile
    (blocks : Nat → RedoBlock) (keybCount i count : Nat) :
    Nat → Nat → Nat → Bool × Nat × List Action
  | 0, _, pos => (false, pos + redoLogBlockSize, [])
  | n + 1, j, pos =>
      if i = keybCount ∧ j = count then
        (true, pos, [])
      else
        let tag := (blocks i).tag j
        let rest := planWhile blocks keybCount i count n (j + 1) (pos + tag.size.toNat)
        (rest.1, rest.2.1, .copy tag pos :: rest.2.2)

theorem planWhile_step
    (blocks : Nat → RedoBlock) {keybCount i count j : Nat}
    (h : ¬ (i = keybCount ∧ j = count)) (n pos : Nat) :
    planWhile blocks keybCount i count (n + 1) j pos =
      ((planWhile blocks keybCount i count n (j + 1)
          (pos + ((blocks i).tag j).size.toNat)).1,
        (planWhile blocks keybCount i count n (j + 1)
          (pos + ((blocks i).tag j).size.toNat)).2.1,
        .copy ((blocks i).tag j) pos ::
          (planWhile blocks keybCount i count n (j + 1)
            (pos + ((blocks i).tag j).size.toNat)).2.2) := by
  simp only [planWhile, h, if_false]

/-- The copies of a transaction, key block by key block. -/
def planFor
    (blocks : Nat → RedoBlock) (keybCount beginBlk beginIdx count : Nat) :
    Nat → Nat → Nat → Nat × List Action
  | 0, _, pos => (pos, [])
  | n + 1, i, pos =>
      let j := if i = beginBlk then beginIdx + 1 else 0
      let here := planWhile blocks keybCount i count (keysPerBlock - j) j pos
      if here.1 then
        (here.2.1, here.2.2)
      else
        let rest := planFor blocks keybCount beginBlk beginIdx count n (i + 1) here.2.1
        (rest.1, here.2.2 ++ rest.2)

namespace Scan

/-- The copies of the open transaction, which the tag `count` ends. -/
def copies (sc : Scan) (count : Nat) : Nat × List Action :=
  planFor sc.replayBlocks sc.keybCount sc.data.txnBeginBlk sc.data.txnBeginIdx count
    (sc.keybCount + 1 - sc.data.txnBeginBlk) sc.data.txnBeginBlk sc.replayLogOffset

/-- The key block of the begin tag with the mark set. -/
def markedKeyb (sc : Scan) : RedoBlock :=
  (sc.replayBlocks sc.data.txnBeginBlk).setTag sc.data.txnBeginIdx
    ((sc.replayBlocks sc.data.txnBeginBlk).tag sc.data.txnBeginIdx).marked

/-- The variables after the open transaction has been replayed. -/
def close (sc : Scan) (pos : Nat) : Scan :=
  { sc with
    replayLogOffset := pos
    replayBlocks :=
      Function.update sc.replayBlocks sc.data.txnBeginBlk sc.markedKeyb
    data.txnId := 0
    data.txnCsum := 0
    data.txnBeginBlk := 0
    data.txnBeginIdx := 0 }

/-- The mark that `close` sets, as an action. -/
def markAction (sc : Scan) : Action :=
  .mark (sc.keysOffset sc.data.txnBeginBlk) sc.markedKeyb

/-- Reading one key block of the file `f`. -/
def load (f : ByteFile) (sc : Scan) : Scan :=
  let bytes := f.pread sc.logOffset redoLogBlockSize
  let keyb := RedoBlock.decode (bytes ++ sc.keyb.encode.drop bytes.length)
  { sc with
    keyb := keyb
    keysOffset := Function.update sc.keysOffset sc.keybCount sc.logOffset
    out := sc.out ++ [.keyOffsets sc.keybCount sc.logOffset]
    replayBlocks := Function.update sc.replayBlocks sc.keybCount
      { keyb with reserved := (sc.replayBlocks sc.keybCount).reserved }
    logOffset := sc.logOffset + redoLogBlockSize }

/-- The walk passes a tag. -/
def pass (sc : Scan) (tag : RedoBlockTag) : Scan :=
  { sc with logOffset := sc.logOffset + tag.size.toNat }

section Plan

variable (crc : Bytes → UInt32)

/-- A begin tag that carries no mark. -/
def openTxn (sc : Scan) (count : Nat) (tag : RedoBlockTag) : Scan :=
  let csum := txnChksmCnst ^^^ crc tag.encode
  { sc with
    isReplayed := false
    out := sc.out ++ [.txnBegin sc.keybCount count tag.blkCrc csum]
    data.txnId := tag.blkCrc
    data.txnBeginBlk := sc.keybCount
    data.txnBeginIdx := count
    data.txnCsum := csum }

/-- A begin tag that carries the mark. -/
def skipTxn (sc : Scan) (tag : RedoBlockTag) : Scan :=
  { sc with
    isReplayed := true
    out := sc.out ++ [.alreadyReplayed tag.blkCrc]
    data.txnId := tag.blkCrc }

/-- The checksum test at an end tag, which only prints. -/
def checkEnd (sc : Scan) (count : Nat) (tag : RedoBlockTag) : Scan :=
  let tag' := { tag with offset := 0 }
  let csum := sc.data.txnCsum ^^^ crc tag'.encode
  { sc with
    keyb := sc.keyb.setTag count tag'
    out := if tag.offset.toUInt32 ≠ csum then
        sc.out ++ [.txnEnd sc.keybCount count sc.data.txnId csum] ++
          [.checksumMismatch sc.data.txnId]
      else
        sc.out ++ [.txnEnd sc.keybCount count sc.data.txnId csum]
    data.txnCsum := csum }

/-- A tag of a write adds to the checksum. -/
def addTag (sc : Scan) (tag : RedoBlockTag) : Scan :=
  { sc with data.txnCsum := sc.data.txnCsum ^^^ crc tag.encode }

/-- The plan of one tag. -/
def planTag (count : Nat) (sc : Scan) : Scan × List Action :=
  let tag := sc.keyb.tag count
  let sc := sc.pass tag
  match tagKind sc.data.txnId sc.isReplayed tag with
  | .unused => (sc, [])
  | .beginTag => (sc.openTxn crc count tag, [])
  | .markedBegin => (sc.skipTxn tag, [])
  | .endTag =>
      let sc := sc.checkEnd crc count tag
      (sc.close (sc.copies count).1, (sc.copies count).2 ++ [sc.markAction])
  | .skippedEnd => ({ sc with data.txnId := 0 }, [])
  | .dataTag => (sc.addTag crc tag, [])
  | .skippedData => (sc, [])

/-- The plan of the tags `count`, `count + 1`, ... of a key block. -/
def planTags : Nat → Nat → Scan → Scan × List Action
  | 0, _, sc => (sc, [])
  | n + 1, count, sc =>
      let here := planTag crc count sc
      let rest := planTags n (count + 1) here.1
      (rest.1, here.2 ++ rest.2)

/-- The variables when the walk turns to the next key block. -/
def nextKeyb (sc : Scan) : Scan :=
  { sc with keybCount := sc.keybCount + 1 }

/-- The plan of `n` key blocks. -/
def planKeyBlocks (f : ByteFile) : Nat → Scan → Scan × List Action
  | 0, sc => (sc, [])
  | n + 1, sc =>
      let here := planTags crc keysPerBlock 0 (sc.load f)
      let rest := planKeyBlocks f n here.1.nextKeyb
      (rest.1, here.2 ++ rest.2)

end Plan

end Scan

/-- A result of the replayer is the plan carried out: the planned variables if
every action is whole, and otherwise an error in the world where the execution
stopped. -/
def Agrees
    (devFd : Nat) (x : Except Replay Replay)
    (sc : Scan) (acts : List Action) (w : World) : Prop :=
  match execute devFd acts w with
  | .ok w' => ∃ ret, x = .ok { toScan := sc, world := w', retval := ret }
  | .error w' => ∃ r, x = .error r ∧ r.world = w'

theorem Agrees.bind
    {devFd : Nat} {x : Except Replay Replay} {k : Replay → Except Replay Replay}
    {sc sc' : Scan} {as bs : List Action} {w : World}
    (hx : Agrees devFd x sc as w)
    (hk : ∀ w' ret, execute devFd as w = .ok w' →
      Agrees devFd (k { toScan := sc, world := w', retval := ret }) sc' bs w') :
    Agrees devFd (x >>= k) sc' (as ++ bs) w := by
  unfold Agrees at hx ⊢
  rw [execute_append]
  cases has : execute devFd as w with
  | error w' =>
      rw [has] at hx
      obtain ⟨r, rfl, hr⟩ := hx
      exact ⟨r, rfl, hr⟩
  | ok w' =>
      rw [has] at hx
      obtain ⟨ret, rfl⟩ := hx
      exact hk w' ret has

theorem replayData_eq
    {r : Replay} (h : r.world.outcomes = []) (i j : Nat) :
    replayData i j r =
      (let r' := r.writeInfo (.dev r.data.devFd) ((r.replayBlocks i).tag j).offset.toNat
          (copyData r.world ((r.replayBlocks i).tag j) r.replayLogOffset)
      if r'.retval ≠ 0 then
        .error r'
      else
        .ok { r' with replayLogOffset :=
          r'.replayLogOffset + ((r.replayBlocks i).tag j).size.toNat }) := by
  simp only [replayData, World.pread_of_outcomes_nil h]
  rfl

/-- The variables after one copy. -/
def Replay.copied (i j : Nat) (r : Replay) : Replay :=
  { r with
    world := r.world.push
      ((Action.copy ((r.replayBlocks i).tag j) r.replayLogOffset).event
        r.data.devFd r.world)
    replayLogOffset := r.replayLogOffset + ((r.replayBlocks i).tag j).size.toNat
    retval := 0 }

theorem replayData_whole
    {r : Replay} (h : r.world.outcomes = []) (i j : Nat)
    (hsize : ((r.replayBlocks i).tag j).size.toNat ≤ maxRwCount) :
    replayData i j r = .ok (r.copied i j) := by
  have hlen := length_copyData r.world ((r.replayBlocks i).tag j) r.replayLogOffset
  have htake := List.take_of_length_le (le_of_eq_of_le hlen hsize)
  have hwrite := writeInfo_plain (s := r.state) h (.dev r.data.devFd)
    ((r.replayBlocks i).tag j).offset.toNat (le_of_eq_of_le hlen hsize)
  simp only [replayData_eq h, Replay.writeInfo, hwrite, Replay.copied, Action.event, htake]
  rfl

theorem replayData_cut
    {r : Replay} (h : r.world.outcomes = []) (i j : Nat)
    (hsize : maxRwCount < ((r.replayBlocks i).tag j).size.toNat) :
    ∃ r', replayData i j r = .error r' ∧
      r'.world = r.world.push
        ((Action.copy ((r.replayBlocks i).tag j) r.replayLogOffset).event
          r.data.devFd r.world) := by
  have hlen := length_copyData r.world ((r.replayBlocks i).tag j) r.replayLogOffset
  have hwrite := writeInfo_cut (s := r.state) h (.dev r.data.devFd)
    ((r.replayBlocks i).tag j).offset.toNat (lt_of_lt_of_eq hsize hlen.symm) false
  simp only [replayData_eq h, Replay.writeInfo, hwrite]
  exact ⟨_, rfl, rfl⟩

theorem replayWhile_agrees
    (i count : Nat) :
    ∀ (n j : Nat) (r : Replay), r.world.outcomes = [] →
      match execute r.data.devFd
          (planWhile r.replayBlocks r.keybCount i count n j r.replayLogOffset).2.2
          r.world with
      | .ok w' => ∃ ret, replayWhile i count n j r =
          .ok ((planWhile r.replayBlocks r.keybCount i count n j r.replayLogOffset).1,
            { r with
              world := w'
              replayLogOffset := (planWhile r.replayBlocks r.keybCount i count n j
                r.replayLogOffset).2.1
              retval := ret })
      | .error w' => ∃ r', replayWhile i count n j r = .error r' ∧ r'.world = w'
  | 0, j, r, _ => by
      exact ⟨r.retval, rfl⟩
  | n + 1, j, r, h => by
      by_cases hend : i = r.keybCount ∧ j = count
      · have hplan : planWhile r.replayBlocks r.keybCount i count (n + 1) j
            r.replayLogOffset = (true, r.replayLogOffset, []) := by
          simp [planWhile, hend]
        have hrun : replayWhile i count (n + 1) j r = .ok (true, r) := by
          simp [replayWhile, hend]
        rw [hplan, hrun]
        exact ⟨r.retval, rfl⟩
      · have hrun : replayWhile i count (n + 1) j r =
            (replayData i j r >>= fun r => replayWhile i count n (j + 1) r) := by
          simp only [replayWhile, hend, if_false]
        rw [planWhile_step _ hend, hrun]
        simp only [execute]
        by_cases hsize : ((r.replayBlocks i).tag j).size.toNat ≤ maxRwCount
        · rw [if_pos (show Action.Whole (.copy _ _) from hsize),
            replayData_whole h i j hsize]
          exact replayWhile_agrees i count n (j + 1) (r.copied i j) h
        · rw [if_neg (show ¬ Action.Whole (.copy _ _) from hsize)]
          obtain ⟨r', hr', hw⟩ := replayData_cut h i j (by omega)
          rw [hr']
          exact ⟨r', rfl, hw⟩

theorem replayFor_agrees
    (count : Nat) :
    ∀ (n i : Nat) (r : Replay), r.world.outcomes = [] →
      Agrees r.data.devFd (replayFor count n i r)
        { r.toScan with
          replayLogOffset := (planFor r.replayBlocks r.keybCount r.data.txnBeginBlk
            r.data.txnBeginIdx count n i r.replayLogOffset).1 }
        (planFor r.replayBlocks r.keybCount r.data.txnBeginBlk
            r.data.txnBeginIdx count n i r.replayLogOffset).2
        r.world
  | 0, i, r, _ => by
      exact ⟨r.retval, rfl⟩
  | n + 1, i, r, h => by
      have hhere := replayWhile_agrees i count
        (keysPerBlock - (if i = r.data.txnBeginBlk then r.data.txnBeginIdx + 1 else 0))
        (if i = r.data.txnBeginBlk then r.data.txnBeginIdx + 1 else 0) r h
      simp only [replayFor, planFor]
      generalize hp : planWhile r.replayBlocks r.keybCount i count
        (keysPerBlock - (if i = r.data.txnBeginBlk then r.data.txnBeginIdx + 1 else 0))
        (if i = r.data.txnBeginBlk then r.data.txnBeginIdx + 1 else 0)
        r.replayLogOffset = p at hhere
      obtain ⟨done, pos, acts⟩ := p
      simp only at hhere ⊢
      unfold Agrees
      cases hex : execute r.data.devFd acts r.world with
      | error w' =>
          rw [hex] at hhere
          obtain ⟨r', hr', hw⟩ := hhere
          rw [hr']
          cases done with
          | true =>
              simp only [if_true, hex]
              exact ⟨r', rfl, hw⟩
          | false =>
              simp only [Bool.false_eq_true, if_false, execute_append, hex]
              exact ⟨r', rfl, hw⟩
      | ok w' =>
          rw [hex] at hhere
          obtain ⟨ret, hr'⟩ := hhere
          rw [hr']
          cases done with
          | true =>
              simp only [if_true, hex]
              exact ⟨ret, rfl⟩
          | false =>
              simp only [Bool.false_eq_true, if_false, execute_append, hex]
              have hw : w'.outcomes = [] := by
                rw [execute_ok_outcomes hex, h]
              exact replayFor_agrees count n (i + 1)
                { r with world := w', replayLogOffset := pos, retval := ret } hw

theorem markReplayed_eq
    {r : Replay} (h : r.world.outcomes = []) :
    markReplayed r =
      { toScan := r.toScan.close r.replayLogOffset
        world := r.world.push (r.toScan.markAction.event r.data.devFd r.world)
        retval := 0 } := by
  have hlen : r.toScan.markedKeyb.encode.length ≤ maxRwCount := by
    rw [RedoBlock.length_encode]
    exact redoLogBlockSize_le_maxRwCount
  have hwrite := writeInfo_plain (s := r.state) h .redo
    (r.keysOffset r.data.txnBeginBlk) hlen
  unfold Scan.markedKeyb at hwrite
  simp only [Replay.state] at hwrite
  simp only [markReplayed, Replay.writeInfo, Replay.state, hwrite]
  rfl

section Agreement

variable (crc : Bytes → UInt32)

/-- The fields of `redo_data` that no replay changes. -/
def RedoPrivateData.idle (d : RedoPrivateData) : RedoPrivateData :=
  { d with
    txnId := 0
    txnCsum := 0
    txnBeginBlk := 0
    txnBeginIdx := 0 }

theorem planTag_idle (count : Nat) (sc : Scan) :
    (sc.planTag crc count).1.data.idle = sc.data.idle := by
  unfold Scan.planTag
  dsimp only
  split <;> rfl

theorem planTags_idle (n count : Nat) (sc : Scan) :
    (sc.planTags crc n count).1.data.idle = sc.data.idle := by
  induction n generalizing count sc with
  | zero =>
      rfl
  | succ n ih =>
      simp only [Scan.planTags]
      rw [ih, planTag_idle]

theorem RedoPrivateData.devFd_of_idle
    {d d' : RedoPrivateData} (h : d.idle = d'.idle) : d.devFd = d'.devFd := by
  have hdev : d.idle.devFd = d'.idle.devFd := by
    rw [h]
  exact hdev

theorem RedoPrivateData.hdr_of_idle
    {d d' : RedoPrivateData} (h : d.idle = d'.idle) : d.hdr = d'.hdr := by
  have hhdr : d.idle.hdr = d'.idle.hdr := by
    rw [h]
  exact hhdr

theorem checkTxnEnd_eq (count : Nat) (tag : RedoBlockTag) (r : Replay) :
    checkTxnEnd crc count tag r =
      { toScan := r.toScan.checkEnd crc count tag
        world := r.world
        retval := r.retval } := by
  by_cases h : tag.offset.toUInt32 =
      r.data.txnCsum ^^^ crc ({ tag with offset := 0 } : RedoBlockTag).encode
  · simp [checkTxnEnd, Scan.checkEnd, Replay.print, h]
  · simp [checkTxnEnd, Scan.checkEnd, Replay.print, h]

theorem replayEnd_agrees
    (count : Nat) (r : Replay) (h : r.world.outcomes = []) :
    Agrees r.data.devFd
      (replayFor count (r.keybCount + 1 - r.data.txnBeginBlk) r.data.txnBeginBlk r >>=
        fun r => .ok (markReplayed r))
      (r.toScan.close (r.toScan.copies count).1)
      ((r.toScan.copies count).2 ++ [r.toScan.markAction]) r.world := by
  refine Agrees.bind (replayFor_agrees count
    (r.keybCount + 1 - r.data.txnBeginBlk) r.data.txnBeginBlk r h) ?_
  intro w' ret hex
  have hw : w'.outcomes = [] := by
    rw [execute_ok_outcomes hex, h]
  rw [markReplayed_eq hw]
  exact ⟨0, rfl⟩

theorem replayTag_agrees
    (count : Nat) (r : Replay) (h : r.world.outcomes = []) :
    Agrees r.data.devFd (replayTag crc count r)
      (r.toScan.planTag crc count).1 (r.toScan.planTag crc count).2 r.world := by
  unfold replayTag Scan.planTag tagKind
  dsimp only
  by_cases hempty : (r.keyb.tag count).size = 0 ∧ (r.keyb.tag count).blkCrc = 0 ∧
      (r.keyb.tag count).offset = 0
  · rw [if_pos hempty, if_pos hempty]
    exact ⟨r.retval, rfl⟩
  · rw [if_neg hempty, if_neg hempty]
    by_cases hedge : (r.keyb.tag count).size = 0 ∧ 0 < (r.keyb.tag count).blkCrc
    · rw [if_pos hedge, if_pos hedge]
      by_cases hidle : r.data.txnId = 0
      · rw [if_pos hidle, if_pos (show (r.toScan.pass _).data.txnId = 0 from hidle)]
        split_ifs with hmark
        · exact ⟨r.retval, rfl⟩
        · exact ⟨r.retval, rfl⟩
      · rw [if_neg hidle, if_neg (show ¬ (r.toScan.pass _).data.txnId = 0 from hidle)]
        by_cases hskip : r.isReplayed = true
        · rw [if_pos hskip, if_pos (show (r.toScan.pass _).isReplayed = true from hskip)]
          exact ⟨r.retval, rfl⟩
        · rw [if_neg hskip, if_neg (show ¬ (r.toScan.pass _).isReplayed = true from hskip),
            checkTxnEnd_eq]
          exact replayEnd_agrees count
            { toScan := (r.toScan.pass (r.keyb.tag count)).checkEnd crc count
                (r.keyb.tag count)
              world := r.world
              retval := r.retval } h
    · rw [if_neg hedge, if_neg hedge]
      by_cases hskip : r.isReplayed = true
      · rw [if_pos hskip, if_pos (show (r.toScan.pass _).isReplayed = true from hskip)]
        exact ⟨r.retval, rfl⟩
      · rw [if_neg hskip, if_neg (show ¬ (r.toScan.pass _).isReplayed = true from hskip)]
        exact ⟨r.retval, rfl⟩

theorem replayTags_agrees
    (n count : Nat) (r : Replay) (h : r.world.outcomes = []) :
    Agrees r.data.devFd (replayTags crc n count r)
      (r.toScan.planTags crc n count).1 (r.toScan.planTags crc n count).2 r.world := by
  induction n generalizing count r with
  | zero =>
      exact ⟨r.retval, rfl⟩
  | succ n ih =>
      refine Agrees.bind (replayTag_agrees crc count r h) ?_
      intro w' ret hex
      have hw : w'.outcomes = [] := by
        rw [execute_ok_outcomes hex, h]
      have hrest := ih (count + 1)
        { toScan := (r.toScan.planTag crc count).1, world := w', retval := ret } hw
      have hdev := RedoPrivateData.devFd_of_idle (planTag_idle crc count r.toScan)
      rwa [hdev] at hrest

/-- The key blocks read so far lie below the walk, and the begin tag of the open
transaction is in one of them. -/
structure Scan.Placed (sc : Scan) : Prop where
  begin_le : sc.data.txnBeginBlk ≤ sc.keybCount
  below : ∀ b, b ≤ sc.keybCount → sc.keysOffset b + redoLogBlockSize ≤ sc.logOffset

/-- A mark stays below a position. -/
def Action.Below (o : Nat) : Action → Prop
  | .copy _ _ => True
  | .mark offset _ => offset + redoLogBlockSize ≤ o

theorem Action.Below.mono
    {a : Action} {o o' : Nat} (h : a.Below o) (ho : o ≤ o') : a.Below o' := by
  cases a with
  | copy tag pos =>
      trivial
  | mark offset kb =>
      simp only [Action.Below] at h ⊢
      omega

theorem planWhile_below
    (blocks : Nat → RedoBlock) (keybCount i count o : Nat) :
    ∀ (n j pos : Nat), ∀ a ∈ (planWhile blocks keybCount i count n j pos).2.2, a.Below o
  | 0, j, pos, a, ha => by
      simp [planWhile] at ha
  | n + 1, j, pos, a, ha => by
      unfold planWhile at ha
      split_ifs at ha with hend
      · simp at ha
      · rcases List.mem_cons.mp ha with rfl | ha
        · trivial
        · exact planWhile_below blocks keybCount i count o n (j + 1) _ a ha

theorem planFor_below
    (blocks : Nat → RedoBlock) (keybCount beginBlk beginIdx count o : Nat) :
    ∀ (n i pos : Nat),
      ∀ a ∈ (planFor blocks keybCount beginBlk beginIdx count n i pos).2, a.Below o
  | 0, i, pos, a, ha => by
      simp [planFor] at ha
  | n + 1, i, pos, a, ha => by
      unfold planFor at ha
      dsimp only at ha
      split_ifs at ha with _ hdone
      · exact planWhile_below blocks keybCount i count o _ _ _ a ha
      · rcases List.mem_append.mp ha with ha | ha
        · exact planWhile_below blocks keybCount i count o _ _ _ a ha
        · exact planFor_below blocks keybCount beginBlk beginIdx count o n _ _ a ha
      · exact planWhile_below blocks keybCount i count o _ _ _ a ha
      · rcases List.mem_append.mp ha with ha | ha
        · exact planWhile_below blocks keybCount i count o _ _ _ a ha
        · exact planFor_below blocks keybCount beginBlk beginIdx count o n _ _ a ha

theorem planTag_placed
    (count : Nat) {sc : Scan} (h : sc.Placed) :
    (sc.planTag crc count).1.Placed ∧
    sc.logOffset ≤ (sc.planTag crc count).1.logOffset ∧
    ∀ a ∈ (sc.planTag crc count).2, a.Below (sc.planTag crc count).1.logOffset := by
  have hmove : sc.logOffset ≤ sc.logOffset + (sc.keyb.tag count).size.toNat := by
    omega
  have hbelow : ∀ b, b ≤ sc.keybCount → sc.keysOffset b + redoLogBlockSize ≤
      sc.logOffset + (sc.keyb.tag count).size.toNat :=
    fun b hb => le_trans (h.below b hb) hmove
  unfold Scan.planTag
  dsimp only
  cases tagKind (sc.pass (sc.keyb.tag count)).data.txnId
      (sc.pass (sc.keyb.tag count)).isReplayed (sc.keyb.tag count) with
  | unused =>
      exact ⟨⟨h.begin_le, hbelow⟩, hmove, by simp⟩
  | beginTag =>
      exact ⟨⟨le_refl _, hbelow⟩, hmove, by simp⟩
  | markedBegin =>
      exact ⟨⟨h.begin_le, hbelow⟩, hmove, by simp⟩
  | endTag =>
      refine ⟨⟨Nat.zero_le _, hbelow⟩, hmove, ?_⟩
      intro a ha
      rcases List.mem_append.mp ha with ha | ha
      · exact planFor_below _ _ _ _ _ _ _ _ _ a ha
      · rw [List.mem_singleton.mp ha]
        exact hbelow _ h.begin_le
  | skippedEnd =>
      exact ⟨⟨h.begin_le, hbelow⟩, hmove, by simp⟩
  | dataTag =>
      exact ⟨⟨h.begin_le, hbelow⟩, hmove, by simp⟩
  | skippedData =>
      exact ⟨⟨h.begin_le, hbelow⟩, hmove, by simp⟩

theorem planTags_placed
    (n count : Nat) {sc : Scan} (h : sc.Placed) :
    (sc.planTags crc n count).1.Placed ∧
    sc.logOffset ≤ (sc.planTags crc n count).1.logOffset ∧
    ∀ a ∈ (sc.planTags crc n count).2, a.Below (sc.planTags crc n count).1.logOffset := by
  induction n generalizing count sc with
  | zero =>
      exact ⟨h, le_refl _, by simp [Scan.planTags]⟩
  | succ n ih =>
      obtain ⟨hp, hle, hacts⟩ := planTag_placed crc count h
      obtain ⟨hp', hle', hacts'⟩ := ih (count + 1) hp
      refine ⟨hp', le_trans hle hle', ?_⟩
      intro a ha
      rcases List.mem_append.mp ha with ha | ha
      · exact (hacts a ha).mono hle'
      · exact hacts' a ha

theorem planTag_keybCount (count : Nat) (sc : Scan) :
    (sc.planTag crc count).1.keybCount = sc.keybCount := by
  unfold Scan.planTag
  dsimp only
  split <;> rfl

theorem planTags_keybCount (n count : Nat) (sc : Scan) :
    (sc.planTags crc n count).1.keybCount = sc.keybCount := by
  induction n generalizing count sc with
  | zero =>
      rfl
  | succ n ih =>
      simp only [Scan.planTags]
      rw [ih, planTag_keybCount]

/-- From position `o` on the log reads as the file `f`. -/
def ReadsLike (f : ByteFile) (o : Nat) (w : World) : Prop :=
  ∀ o' n, o ≤ o' → (w.file .redo).pread o' n = f.pread o' n

theorem execute_readsLike
    {devFd : Nat} {f : ByteFile} {o : Nat} :
    ∀ {acts : List Action} {w w' : World},
      ReadsLike f o w → (∀ a ∈ acts, a.Below o) →
      execute devFd acts w = .ok w' → ReadsLike f o w'
  | [], w, w', h, _, hex => by
      cases hex
      exact h
  | a :: acts, w, w', h, hacts, hex => by
      simp only [execute] at hex
      split_ifs at hex with ha
      refine execute_readsLike ?_ (fun b hb => hacts b (List.mem_cons_of_mem _ hb)) hex
      intro o' n ho
      rw [World.file_push]
      cases a with
      | copy tag pos =>
          rw [Action.event, applyEvent_pwrite_other (by simp)]
          exact h o' n ho
      | mark offset kb =>
          have hoff : Action.Below o (.mark offset kb) := hacts _ (by simp)
          rw [Action.event, applyEvent_pwrite_self, ByteFile.pread_pwrite_of_le]
          · exact h o' n ho
          · rw [RedoBlock.length_encode]
            exact le_trans hoff ho

theorem loadKeyb_eq
    {r : Replay} (h : r.world.outcomes = []) {f : ByteFile}
    (hread : ReadsLike f r.logOffset r.world) :
    loadKeyb r = .ok
      { toScan := r.toScan.load f
        world := r.world
        retval := (f.pread r.logOffset redoLogBlockSize).length } := by
  have hmin : min redoLogBlockSize maxRwCount = redoLogBlockSize := by
    rfl
  unfold loadKeyb
  rw [World.pread_of_outcomes_nil h, hmin, hread _ _ (le_refl _)]
  rfl

/-- **The replayer agrees with its plan.**  The plan reads every key block from
the file as it was at the beginning. -/
theorem replayKeyBlocks_agrees
    (f : ByteFile) (n : Nat) (r : Replay)
    (h : r.world.outcomes = [])
    (hread : ReadsLike f r.logOffset r.world)
    (hbegin : r.data.txnBeginBlk ≤ r.keybCount)
    (hbelow : ∀ b, b < r.keybCount →
      r.keysOffset b + redoLogBlockSize ≤ r.logOffset) :
    Agrees r.data.devFd (replayKeyBlocks crc n r)
      (r.toScan.planKeyBlocks crc f n).1 (r.toScan.planKeyBlocks crc f n).2 r.world := by
  induction n generalizing r with
  | zero =>
      exact ⟨r.retval, rfl⟩
  | succ n ih =>
      have hplaced : (r.toScan.load f).Placed := by
        refine ⟨hbegin, ?_⟩
        intro b hb
        simp only [Scan.load, Function.update_apply] at hb ⊢
        split_ifs with hbk
        · exact le_refl _
        · have := hbelow b (by omega)
          omega
      have htags := replayTags_agrees crc keysPerBlock 0
        { toScan := r.toScan.load f
          world := r.world
          retval := (f.pread r.logOffset redoLogBlockSize).length } h
      have hmove := planTags_placed crc keysPerBlock 0 hplaced
      have hdev := RedoPrivateData.devFd_of_idle
        (planTags_idle crc keysPerBlock 0 (r.toScan.load f))
      have hrun : replayKeyBlocks crc (n + 1) r =
          (replayTags crc keysPerBlock 0
            { toScan := r.toScan.load f
              world := r.world
              retval := (f.pread r.logOffset redoLogBlockSize).length } >>=
            fun r => replayKeyBlocks crc n { r with keybCount := r.keybCount + 1 }) := by
        simp only [replayKeyBlocks, loadKeyb_eq h hread]
        rfl
      rw [hrun]
      simp only [Scan.planKeyBlocks]
      generalize (r.toScan.load f).planTags crc keysPerBlock 0 = p at htags hmove hdev
      obtain ⟨sc, acts⟩ := p
      obtain ⟨hp, hle, hacts⟩ := hmove
      refine Agrees.bind htags ?_
      intro w' ret hex
      have hw : w'.outcomes = [] := by
        rw [execute_ok_outcomes hex, h]
      have hread' : ReadsLike f sc.logOffset w' := by
        refine execute_readsLike (w := r.world) ?_ hacts hex
        intro o' m ho
        apply hread
        exact le_trans (Nat.le_add_right _ _) (le_trans hle ho)
      have hrest := ih { toScan := sc.nextKeyb, world := w', retval := ret } hw hread'
        (Nat.le_succ_of_le hp.begin_le) (fun b hb => hp.below b (Nat.lt_succ_iff.mp hb))
      have hdev' : sc.nextKeyb.data.devFd = r.data.devFd := hdev
      rwa [hdev'] at hrest

@[simp] theorem Scan.nextKeyb_data (sc : Scan) : sc.nextKeyb.data = sc.data := by
  rfl

@[simp] theorem Scan.load_data (f : ByteFile) (sc : Scan) : (sc.load f).data = sc.data := by
  rfl

theorem planKeyBlocks_idle (f : ByteFile) (n : Nat) (sc : Scan) :
    (sc.planKeyBlocks crc f n).1.data.idle = sc.data.idle := by
  induction n generalizing sc with
  | zero =>
      rfl
  | succ n ih =>
      simp only [Scan.planKeyBlocks]
      rw [ih, Scan.nextKeyb_data, planTags_idle, Scan.load_data]

/-- The header that a replay reads. -/
def World.header (w : World) : RedoHeader :=
  readHeader w ((w.file .redo).pread 0 redoHeaderSize)

def planLog (s : State) : Scan × List Action :=
  (startReplay s.world.header 0 s).toScan.planKeyBlocks crc (s.world.file .redo)
    s.world.header.visited

theorem planLog_idle (s : State) :
    (planLog crc s).1.data.idle = s.data.idle := by
  exact planKeyBlocks_idle crc _ _ _

theorem rfsckReplay_eq
    {s : State} (h : s.world.outcomes = []) (flush : Bool) :
    rfsckReplay crc flush s =
      if s.world.header.headerCrc ≠ s.world.header.checksum crc then
        (1, s.print .headerChecksumMismatch)
      else if s.world.header.state ≠ e2redoStateFinished then
        (1, s.print .redoLogIncomplete)
      else
        finishReplay flush (replayKeyBlocks crc s.world.header.visited
          (startReplay s.world.header
            ((s.world.file .redo).pread 0 redoHeaderSize).length s)) := by
  have hmin : min redoHeaderSize maxRwCount = redoHeaderSize := by
    rfl
  unfold rfsckReplay
  rw [World.pread_of_outcomes_nil h, hmin]
  rfl

theorem rfsckReplay_of_not_finished
    {s : State} (h : s.world.outcomes = [])
    (hf : ¬ s.world.header.Finished crc) (flush : Bool) :
    ∃ m, rfsckReplay crc flush s = (1, s.print m) := by
  rw [rfsckReplay_eq crc h]
  by_cases hcrc : s.world.header.headerCrc = s.world.header.checksum crc
  · have hstate : s.world.header.state ≠ e2redoStateFinished :=
      fun hs => hf ⟨hcrc, hs⟩
    rw [if_neg (not_not.mpr hcrc), if_pos hstate]
    exact ⟨_, rfl⟩
  · rw [if_pos hcrc]
    exact ⟨_, rfl⟩

/-- The walk over the log and the end of a replay carry out the plan. -/
theorem finishReplay_of_plan
    {s : State} (h : s.world.outcomes = []) (retval : Int) (flush : Bool) :
    match execute s.data.devFd (planLog crc s).2 s.world with
    | .ok w' => (finishReplay flush (replayKeyBlocks crc s.world.header.visited
          (startReplay s.world.header retval s))).2 =
        { data := (planLog crc s).1.data
          world := if flush then w'.push (.fsync (.dev s.data.devFd)) else w'
          out := (planLog crc s).1.out }
    | .error w' => (finishReplay flush (replayKeyBlocks crc s.world.header.visited
          (startReplay s.world.header retval s))).2.world = w' := by
  have hagree := replayKeyBlocks_agrees crc (s.world.file .redo) s.world.header.visited
    (startReplay s.world.header retval s) h
    (fun _ _ _ => rfl) (le_refl 0) (fun b hb => absurd hb (Nat.not_lt_zero b))
  have hdev : (planLog crc s).1.data.devFd = s.data.devFd :=
    RedoPrivateData.devFd_of_idle (planLog_idle crc s)
  generalize replayKeyBlocks crc s.world.header.visited
    (startReplay s.world.header retval s) = x at hagree
  change Agrees s.data.devFd x (planLog crc s).1 (planLog crc s).2 s.world at hagree
  generalize planLog crc s = p at hagree hdev
  obtain ⟨sc, acts⟩ := p
  unfold Agrees at hagree
  cases hex : execute s.data.devFd acts s.world with
  | error w' =>
      rw [hex] at hagree
      obtain ⟨r, rfl, hw⟩ := hagree
      exact hw
  | ok w' =>
      rw [hex] at hagree
      obtain ⟨ret, rfl⟩ := hagree
      have hw : w'.outcomes = [] := by
        rw [execute_ok_outcomes hex, h]
      cases flush with
      | false =>
          rfl
      | true =>
          simp only [finishReplay, if_true]
          rw [World.fsync_of_outcomes_nil hw, hdev]
          rfl

/-- The state behind a walk whose plan has whole actions only. -/
theorem finishReplay_of_whole
    {s : State} (h : s.world.outcomes = [])
    (hwhole : ∀ a ∈ (planLog crc s).2, a.Whole) (retval : Int) (flush : Bool) :
    (finishReplay flush (replayKeyBlocks crc s.world.header.visited
        (startReplay s.world.header retval s))).2 =
      { data := (planLog crc s).1.data
        world :=
          if flush then
            (perform s.data.devFd (planLog crc s).2 s.world).push (.fsync (.dev s.data.devFd))
          else
            perform s.data.devFd (planLog crc s).2 s.world
        out := (planLog crc s).1.out } := by
  have hrun := finishReplay_of_plan crc h retval flush
  rw [execute_of_whole hwhole] at hrun
  exact hrun

/-- With a valid FINISHED header a replay carries out its plan. -/
theorem rfsckReplay_of_finished
    {s : State} (h : s.world.outcomes = [])
    (hf : s.world.header.Finished crc) (flush : Bool) :
    match execute s.data.devFd (planLog crc s).2 s.world with
    | .ok w' => (rfsckReplay crc flush s).2 =
        { data := (planLog crc s).1.data
          world := if flush then w'.push (.fsync (.dev s.data.devFd)) else w'
          out := (planLog crc s).1.out }
    | .error w' => (rfsckReplay crc flush s).2.world = w' := by
  rw [rfsckReplay_eq crc h, if_neg (not_not.mpr hf.1), if_neg (not_not.mpr hf.2)]
  exact finishReplay_of_plan crc h _ flush

theorem rfsckReplay_outcomes {s : State} (h : s.world.outcomes = []) (flush : Bool) :
    (rfsckReplay crc flush s).2.world.outcomes = [] := by
  by_cases hf : s.world.header.Finished crc
  · have hrun := rfsckReplay_of_finished crc h hf flush
    have hout := execute_outcomes s.data.devFd (planLog crc s).2 s.world
    generalize execute s.data.devFd (planLog crc s).2 s.world = x at hrun hout
    cases x with
    | error w =>
        rw [hrun]
        exact hout.trans h
    | ok w =>
        rw [hrun]
        split_ifs <;> exact hout.trans h
  · obtain ⟨m, hm⟩ := rfsckReplay_of_not_finished crc h hf flush
    rw [hm]
    exact h

/-- The state after a replay whose plan has whole actions only. -/
theorem rfsckReplay_of_whole
    {s : State} (h : s.world.outcomes = [])
    (hf : s.world.header.Finished crc)
    (hwhole : ∀ a ∈ (planLog crc s).2, a.Whole) (flush : Bool) :
    (rfsckReplay crc flush s).2 =
      { data := (planLog crc s).1.data
        world :=
          if flush then
            (perform s.data.devFd (planLog crc s).2 s.world).push (.fsync (.dev s.data.devFd))
          else
            perform s.data.devFd (planLog crc s).2 s.world
        out := (planLog crc s).1.out } := by
  rw [rfsckReplay_eq crc h, if_neg (not_not.mpr hf.1), if_neg (not_not.mpr hf.2)]
  exact finishReplay_of_whole crc h hwhole _ flush

end Agreement

attribute [irreducible] planLog

end Redo
end Rfsck
