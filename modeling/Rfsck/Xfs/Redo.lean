import Rfsck.Redo.FailedRecovery
import Rfsck.Redo.OutsideWrites

/-!
# The redo library of `rfsck-xfs`

The copy of `redo.c` in `libxfs` differs from the one of the other tools in one place: the
test for a FINISHED header in `rfsck_replay` is commented out.  Nothing calls
`redo_mark_done`, so the header stays the one that `rfsck_open` has written, with
`num_keys` zero.

* `rfsckReplay` and `rfsckOpen` are the two functions that are affected.
* `openedState`: the state behind the first `rfsck_open` of a log without a valid header.
* `planLog_of_firstKeyb`: with such a header a replay walks the tags of the first key block.
* `found_of_one_edge`: it finds nothing there without a second begin or end tag.
-/

namespace Rfsck
namespace Xfs

open Storage
open Redo

section Library

variable (crc : Bytes → UInt32)

/-- `rfsck_replay`. -/
def rfsckReplay (flush : Bool) (s : State) : Int × State :=
  match s.world.pread .redo 0 redoHeaderSize with
  | (none, world) => (-1, { s with world := world }.print .unableToReadHeader)
  | (some bytes, world) =>
      let hdr := readHeader s.world bytes
      let s := { s with world := world }
      if hdr.headerCrc ≠ hdr.checksum crc then
        (1, s.print .headerChecksumMismatch)
      else
        finishReplay flush
          (replayKeyBlocks crc hdr.visited (startReplay hdr bytes.length s))

/-- `rfsck_open`. -/
def rfsckOpen
    (redo : Option String) (devFd : Nat) (raw : RedoPrivateData) (p : Process) :
    Int × Process :=
  if redo = none then
    (1, { p with out := p.out ++ [.redoFileNameEmpty] })
  else if devFd < 1 then
    (1, { p with out := p.out ++ [.fdOfDevFileEmpty] })
  else
    match p.world.openRedo with
    | (false, world) =>
        (1, { p with world := world, out := p.out ++ [.unableToOpenRedoFile] })
    | (true, world) =>
        match world.openRedo with
        | (false, world) =>
            (1, { p with world := world, out := p.out ++ [.unableToOpenRedoFile] })
        | (true, world) =>
            let s : State :=
              { data := p.redoData.getD (redoSetup crc devFd raw)
                world := world
                out := p.out }
            let (_, s) := rfsckReplay crc true s
            let (retval, s) := writeInfo .redo 0 s.data.hdr.encode false s
            if retval ≠ 0 then
              (retval, (s.print .unableToWriteRedoHeader).process)
            else
              (retval, s.process)

end Library

section Replays

variable {crc : Bytes → UInt32} {s : State}

theorem rfsckReplay_eq (h : s.world.outcomes = []) (flush : Bool) :
    rfsckReplay crc flush s =
      if s.world.header.headerCrc ≠ s.world.header.checksum crc then
        (1, s.print .headerChecksumMismatch)
      else
        finishReplay flush (replayKeyBlocks crc s.world.header.visited
          (startReplay s.world.header
            ((s.world.file .redo).pread 0 redoHeaderSize).length s)) := by
  have hmin : min redoHeaderSize maxRwCount = redoHeaderSize := by
    rfl
  unfold rfsckReplay
  rw [World.pread_of_outcomes_nil h, hmin]
  rfl

theorem rfsckReplay_of_mismatch (h : s.world.outcomes = [])
    (hcrc : s.world.header.headerCrc ≠ s.world.header.checksum crc) (flush : Bool) :
    rfsckReplay crc flush s = (1, s.print .headerChecksumMismatch) := by
  rw [rfsckReplay_eq h, if_pos hcrc]

/-- With a valid header a replay carries out its plan. -/
theorem rfsckReplay_of_whole (h : s.world.outcomes = [])
    (hcrc : s.world.header.headerCrc = s.world.header.checksum crc)
    (hwhole : ∀ a ∈ (planLog crc s).2, a.Whole) (flush : Bool) :
    (rfsckReplay crc flush s).2 =
      { data := (planLog crc s).1.data
        world :=
          if flush then
            (perform s.data.devFd (planLog crc s).2 s.world).push (.fsync (.dev s.data.devFd))
          else
            perform s.data.devFd (planLog crc s).2 s.world
        out := (planLog crc s).1.out } := by
  rw [rfsckReplay_eq h, if_neg (not_not.mpr hcrc)]
  exact finishReplay_of_whole crc h hwhole _ flush

theorem rfsckReplay_dev (h : s.world.outcomes = [])
    (hcrc : s.world.header.headerCrc = s.world.header.checksum crc)
    (hinside : ∀ a ∈ (planLog crc s).2, a.Inside (s.world.file .redo).size) (flush : Bool) :
    (rfsckReplay crc flush s).2.world.file (.dev s.data.devFd) =
      applyPatches (s.world.file (.dev s.data.devFd))
        (devPatches (s.world.file .redo) (planLog crc s).2) := by
  rw [rfsckReplay_of_whole h hcrc (fun a ha => (hinside a ha).whole)]
  cases flush with
  | false =>
      exact perform_dev hinside
  | true =>
      exact (World.file_push _ _ _).trans (perform_dev hinside)

end Replays

section Opening

variable (crc : Bytes → UInt32)

/-- The state behind a first `rfsck_open` that finds no valid header. -/
def openedState (devFd : Nat) (raw : RedoPrivateData) (w : World) (out : List Message) :
    State where
  data := redoSetup crc devFd raw
  world := w.push (.pwrite .redo 0 (redoSetup crc devFd raw).hdr.encode)
  out := out ++ [.headerChecksumMismatch]

/-- **The first open** of a log without a valid header. -/
theorem rfsckOpen_eq
    {w : World} (h : w.outcomes = []) (hcrc : w.header.headerCrc ≠ w.header.checksum crc)
    (redo : String) {devFd : Nat} (hdev : 1 ≤ devFd) (raw : RedoPrivateData)
    (out : List Message) :
    rfsckOpen crc (some redo) devFd raw { redoData := none, world := w, out := out } =
      (0, (openedState crc devFd raw w out).process) := by
  have hreplay := rfsckReplay_of_mismatch (s := setupState crc devFd raw w out) h hcrc true
  have hlen : ((setupState crc devFd raw w out).print
      .headerChecksumMismatch).data.hdr.encode.length ≤ maxRwCount := by
    rw [RedoHeader.length_encode]
    exact redoHeaderSize_le_maxRwCount
  have hwrite := writeInfo_plain (s := (setupState crc devFd raw w out).print
    .headerChecksumMismatch) h .redo 0 hlen
  unfold rfsckOpen
  rw [if_neg (by simp), if_neg (by omega)]
  dsimp only
  rw [World.openRedo_of_outcomes_nil h]
  dsimp only
  rw [World.openRedo_of_outcomes_nil h]
  have hsetup : ({ data := none.getD (redoSetup crc devFd raw), world := w, out := out } : State) =
      setupState crc devFd raw w out := rfl
  dsimp only
  rw [hsetup, hreplay]
  dsimp only
  rw [hwrite]
  rfl

theorem rfsckOpen_dev
    {w : World} (h : w.outcomes = []) (redo : String) {devFd : Nat} (hdev : 1 ≤ devFd)
    (raw : RedoPrivateData) (out : List Message) (fd : Nat) :
    (rfsckOpen crc (some redo) devFd raw
        { redoData := none, world := w, out := out }).2.world.file (.dev fd) =
      (rfsckReplay crc true (setupState crc devFd raw w out)).2.world.file (.dev fd) := by
  have hsetup : ({ data := none.getD (redoSetup crc devFd raw), world := w, out := out } : State) =
      setupState crc devFd raw w out := rfl
  unfold rfsckOpen
  rw [if_neg (by simp), if_neg (by omega)]
  dsimp only
  rw [World.openRedo_of_outcomes_nil h]
  dsimp only
  rw [World.openRedo_of_outcomes_nil h]
  dsimp only
  rw [hsetup]
  split_ifs <;> exact writeInfo_dev _ _ _ _

theorem openedState_session
    {w : World} (h : w.outcomes = []) (devFd : Nat) (raw : RedoPrivateData)
    (out : List Message) : Session crc [] [] 0 [] (openedState crc devFd raw w out) := by
  exact session_of_open crc (s := (setupState crc devFd raw w out).print
    .headerChecksumMismatch) rfl h

end Opening

section FirstBlock

variable {crc : Bytes → UInt32} {s : State}

theorem found_of_one_edge
    (o : Nat → Nat) {T : Nat → RedoBlockTag} (n : Nat) (out : List Message)
    (h : ∀ g, 1 ≤ g → g < n → ¬ (T g).IsEdge) :
    (Walk.run crc o T n 0 (Walk.start out)).found = [] := by
  cases n with
  | zero =>
      rfl
  | succ n =>
      have hfirst : (((Walk.start out).enter o 0).step crc T 0).found = [] := by
        rw [Walk.enter_eq]
        unfold Walk.step tagKind
        dsimp only [Walk.start]
        split_ifs with h1 h2 h3 <;> first | rfl | exact absurd rfl h3
      rw [Walk.run, Walk.found_run_of_not_isEdge, hfirst]
      intro g hg hlt
      exact h g (by omega) (by omega)

variable {hdr : RedoHeader}

theorem visited_of_numKeys_zero (h : hdr.numKeys = 0) : hdr.visited = 1 := by
  rw [RedoHeader.visited, h]
  rfl

/-- **The plan of a replay** whose header counts no full key block is the walk over the
first one. -/
theorem planLog_of_firstKeyb
    (hholds : (s.world.file .redo).Holds 0 hdr.encode) (hkeys : hdr.numKeys = 0)
    (hoffset : hdr.keyOffset.toNat = redoHeaderSize) {es : List Entry}
    (hkeyb : (s.world.file .redo).Holds redoHeaderSize (keybOf crc es 0).encode) :
    (planLog crc s).2 =
      actionsOf (keybPos es) (fun k => (keybOf crc es k).remark k []) []
        (walkLog crc es [] 1 s.out).found := by
  have hchain : KeyChain (s.world.file .redo) (keybPos es)
      (fun k => (keybOf crc es k).remark k []) (hdr.numKeys.toNat + 1) := by
    rw [hkeys]
    refine ⟨?_, fun k hk => absurd hk (by simp)⟩
    intro k hk
    obtain rfl : k = 0 := Nat.lt_one_iff.mp hk
    rw [RedoBlock.remark_nil, keybPos_zero]
    exact hkeyb
  have hfollows := planLog_follows crc (reads_of_keyChain hholds hoffset hchain)
  rw [World.header_of_holds hholds, visited_of_numKeys_zero hkeys, streamOf_remark] at hfollows
  exact hfollows.acts_eq

theorem planLog_of_one_edge (hkeys : s.world.header.numKeys = 0)
    (hedge : ∀ c, 1 ≤ c → c < keysPerBlock →
      ¬ ((((startReplay s.world.header 0 s).toScan.load (s.world.file .redo)).keyb).tag c).IsEdge) :
    (planLog crc s).2 = [] := by
  generalize hkb : ((startReplay s.world.header 0 s).toScan.load (s.world.file .redo)).keyb = kb
    at hedge
  have hreads : (startReplay s.world.header 0 s).toScan.Reads crc (s.world.file .redo)
      (fun _ => (startReplay s.world.header 0 s).logOffset) (fun _ => kb)
      s.world.header.visited := by
    rw [visited_of_numKeys_zero hkeys]
    exact ⟨rfl, hkb, trivial⟩
  have hacts := (planLog_follows crc hreads).acts_eq
  rw [visited_of_numKeys_zero hkeys, Nat.mul_one, found_of_one_edge] at hacts
  · exact hacts
  · intro g hg hlt
    rw [streamOf, Nat.mod_eq_of_lt hlt]
    exact hedge g hg hlt

end FirstBlock

end Xfs
end Rfsck
