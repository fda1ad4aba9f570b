import Rfsck.PowerFault.Recorder

/-!
# The split of the I/O log

`pfe_split_io_log` cuts every recorded write into pieces of `pfe_io_block_size` bytes and writes
the headers of the pieces to a log of its own, which refers to the same data log.

* `pfeSplitIoLog`: the two nested loops with the branch for the remainder; the split log is a file
  next to those of `System`, and takes the place of the header log when it is replayed.
* `parts`: the pieces of one record, in order.
* `cutPatches`: what a replay of the first pieces is to apply: the records before the cut in
  full, and of the one with the cut the blocks before it.
* `split_keeps_meaning`: the split log does that, as long as every record can be transferred by
  one system call.

`pfe_io_block_size * j` is a product of `int`s; it does not overflow for records below `2 ^ 31`
bytes, as it is less than the length of the record.
-/

namespace Rfsck
namespace PowerFault

open Storage
open Redo (maxRwCount fit)

/-- The state of `pfe_split_io_log`. -/
structure Splitter where
  sys : System
  log : ByteFile
  totSplittedIoCnt : Nat

namespace PfeIoHeader

/-- The piece of `n` bytes at `pos`. -/
def part (h : PfeIoHeader) (pos n : Nat) : PfeIoHeader :=
  { h with
    offset := h.offset + UInt64.ofNat pos
    length := n
    datalogOffset := (h.datalogOffset + pos) % 2 ^ 64 }

end PfeIoHeader

namespace Splitter

variable (t : Splitter)

/-- `pwrite` to the split log. -/
def pwrite (off : Nat) (buf : Bytes) : Int × Splitter :=
  match callSize t.sys.nextOutcome off buf.length with
  | none => (-1, { t with sys := t.sys.advance false })
  | some n =>
      (n, { t with
        sys := t.sys.advance (n = buf.length)
        log := t.log.pwrite off (buf.take n) })

def put (h : PfeIoHeader) : Splitter :=
  let id := t.totSplittedIoCnt + 1
  ({ t with totSplittedIoCnt := id }.pwrite (pfeIoHeaderSize * id) { h with id := id }.encode).2

/-- One record of the header log, in the outer loop. -/
def splitRecord (b : Nat) (h : PfeIoHeader) : Splitter :=
  if h.length > b then
    let nSplit := h.length / b
    let nSplitRemain := h.length % b
    let t := (List.range nSplit).foldl (fun t j => t.put (h.part (b * j) b)) t
    if nSplitRemain ≠ 0 then
      t.put (h.part (b * nSplit) nSplitRemain)
    else
      t
  else
    t.put h

end Splitter

/-- The outer loop; `mem` is the memory of `io_header_orig`. -/
def splitLoop (b : Nat) : List Nat → Bytes → Splitter → Splitter
  | [], _, t => t
  | i :: is, mem, t =>
      let got := t.sys.pread .header (pfeIoHeaderSize * i) pfeIoHeaderSize
      let mem := got.1.getD [] ++ mem.drop (got.1.getD []).length
      splitLoop b is mem ({ t with sys := got.2 }.splitRecord b (PfeIoHeader.decode mem))

/-- The super head of the split log; without memory for it the `pwrite` fails.  `old` is the
content of the file, which is not truncated. -/
def Splitter.init (old : ByteFile) (s : System) : Splitter :=
  let mem := s.malloc
  let t : Splitter := ⟨mem.2, old, 0⟩
  if mem.1 then (t.pwrite 0 (List.replicate pfeIoHeaderSize 0)).2
  else { t with sys := t.sys.advance false }

/-- `pfe_split_io_log` with the block size `b`. -/
def pfeSplitIoLog (b : Nat) (old : ByteFile) (s : System) : Int × Splitter :=
  let cnt := pfeGetIoCnt s
  let t := splitLoop b (List.range' 1 cnt.1) ((List.range pfeIoHeaderSize).map s.heap)
    (Splitter.init old cnt.2)
  t.pwrite 0 (le64 (UInt64.ofNat t.totSplittedIoCnt))

def System.withHeader (s : System) (f : ByteFile) : System :=
  { s with file := Function.update s.file .header f }

/-- Record `i` of a header log. -/
def slot (f : ByteFile) (i : Nat) : PfeIoHeader :=
  PfeIoHeader.decode (f.pread (pfeIoHeaderSize * i) pfeIoHeaderSize)

def records (f : ByteFile) : List PfeIoHeader :=
  (List.range' 1 (ioCnt f)).map (slot f)

namespace PfeIoHeader

/-- The first `n` bytes of the recorded write, as they stand in the data log. -/
def patch (d : ByteFile) (h : PfeIoHeader) (n : Nat) : Patch where
  offset := h.offset.toNat
  data := d.bytes h.datalogOffset n

/-- The ranges of the disk and of the data log are ranges of files. -/
def InRange (h : PfeIoHeader) : Prop :=
  h.offset.toNat + h.length < 2 ^ 63 ∧ h.datalogOffset + h.length < 2 ^ 63

/-- The pieces of a record. -/
def parts (b : Nat) (h : PfeIoHeader) : List PfeIoHeader :=
  if h.length > b then
    (List.range (h.length / b)).map (fun j => h.part (b * j) b) ++
      if h.length % b ≠ 0 then [h.part (b * (h.length / b)) (h.length % b)] else []
  else
    [h]

end PfeIoHeader

/-- What the first `c` pieces stand for: the records before the cut in full, and the blocks of
the next record that lie before the cut. -/
def cutPatches (b : Nat) (d : ByteFile) : List PfeIoHeader → Nat → List Patch
  | [], _ => []
  | h :: hs, c =>
      if c < (h.parts b).length then
        [h.patch d (b * c)]
      else
        h.patch d h.length :: cutPatches b d hs (c - (h.parts b).length)

/-- One record in `pfe_replay_simple`: its data are read and written to the disk. -/
def replayRecord (h : PfeIoHeader) (s : System) : Int × System :=
  let got := s.pread .data h.datalogOffset h.length
  got.2.pwrite .disk h.offset.toNat (fit h.length (got.1.getD []))

theorem replayLoop_stages (i : Nat) (is : List Nat) (mem : Bytes) (ret : Int) (s : System) :
    let got := s.pread .header (pfeIoHeaderSize * i) pfeIoHeaderSize
    let mem' := got.1.getD [] ++ mem.drop (got.1.getD []).length
    let alloc := got.2.malloc
    let done := replayRecord (PfeIoHeader.decode mem') alloc.2
    replayLoop (i :: is) mem ret s =
      if alloc.1 then replayLoop is mem' done.1 done.2 else (-1, alloc.2) := by
  dsimp only
  rw [replayLoop]
  dsimp only
  generalize (System.pread s File.header (pfeIoHeaderSize * i) pfeIoHeaderSize).2.malloc = alloc
  obtain ⟨ok, s'⟩ := alloc
  cases ok <;> rfl

section Replay

variable {s : System}

theorem advance_outcomes_nil (hs : s.outcomes = []) (whole : Bool) :
    (s.advance whole).outcomes = [] := by
  rw [System.advance, hs]
  rfl

theorem System.pread_eq (hs : s.outcomes = []) (fd : File) {off n : Nat} (hlt : off + n < 2 ^ 63) :
    s.pread fd off n =
      (some ((s.file fd).pread off (min n maxRwCount)), s.advance (min n maxRwCount = n)) := by
  have hsize : callSize s.nextOutcome off n = some (min n maxRwCount) := by
    unfold callSize System.nextOutcome
    rw [if_pos hlt, hs]
    rfl
  rw [System.pread, hsize]

theorem System.pwrite_disk (hs : s.outcomes = []) {off : Nat} {buf : Bytes}
    (hlt : off + buf.length < 2 ^ 63) :
    (s.pwrite .disk off buf).2.outcomes = [] ∧
      (s.pwrite .disk off buf).2.file = Function.update s.file .disk
        ((s.file .disk).pwrite off (buf.take (min buf.length maxRwCount))) := by
  have hsize : callSize s.nextOutcome off buf.length = some (min buf.length maxRwCount) := by
    unfold callSize System.nextOutcome
    rw [if_pos hlt, hs]
    rfl
  rw [System.pwrite, hsize]
  exact ⟨advance_outcomes_nil hs (min buf.length maxRwCount = buf.length), rfl⟩

theorem replayRecord_eq (hs : s.outcomes = []) {h : PfeIoHeader} (hrange : h.InRange) :
    (replayRecord h s).2.outcomes = [] ∧
      (replayRecord h s).2.file = Function.update s.file .disk
        (applyPatches (s.file .disk) [h.patch (s.file .data) (min h.length maxRwCount)]) := by
  obtain ⟨hdisk, hdata⟩ := hrange
  rw [replayRecord, System.pread_eq hs .data hdata]
  dsimp only
  rw [Option.getD_some]
  have hlen := Redo.length_fit h.length
    ((s.file .data).pread h.datalogOffset (min h.length maxRwCount))
  obtain ⟨hout, hfile⟩ := System.pwrite_disk
    (advance_outcomes_nil hs (min h.length maxRwCount = h.length))
    (show h.offset.toNat + (fit h.length
      ((s.file .data).pread h.datalogOffset (min h.length maxRwCount))).length < 2 ^ 63 by
        rw [hlen]
        exact hdisk)
  refine ⟨hout, hfile.trans ?_⟩
  rw [hlen, fit, List.take_take, Nat.min_eq_left (Nat.min_le_left _ _),
    ByteFile.pread_append_replicate _ _ (Nat.min_le_left _ _)]
  rfl

theorem pread_slot (hs : s.outcomes = []) {i : Nat} (hlt : pfeIoHeaderSize * (i + 1) < 2 ^ 63) :
    s.pread .header (pfeIoHeaderSize * i) pfeIoHeaderSize =
      (some ((s.file .header).pread (pfeIoHeaderSize * i) pfeIoHeaderSize), s.advance true) := by
  have hle : pfeIoHeaderSize ≤ maxRwCount := by
    decide
  rw [System.pread_eq hs .header (by rw [pfeIoHeaderSize] at *; omega), Nat.min_eq_left hle,
    decide_eq_true rfl]

theorem length_pread_slot {f : ByteFile} {i : Nat} (h : pfeIoHeaderSize * (i + 1) ≤ f.size) :
    (f.pread (pfeIoHeaderSize * i) pfeIoHeaderSize).length = pfeIoHeaderSize := by
  rw [ByteFile.length_pread]
  rw [pfeIoHeaderSize] at *
  omega

/-- **One iteration of `pfe_replay_simple`**, for a record that may be longer than one system
call can transfer. -/
theorem replayLoop_slot (hs : s.outcomes = []) {i : Nat}
    (hsize : pfeIoHeaderSize * (i + 1) ≤ (s.file .header).size)
    (hlt : pfeIoHeaderSize * (i + 1) < 2 ^ 63) (hrange : (slot (s.file .header) i).InRange)
    (is : List Nat) {mem : Bytes} (hmem : mem.length = pfeIoHeaderSize) (ret : Int) :
    ∃ mem' ret' s', replayLoop (i :: is) mem ret s = replayLoop is mem' ret' s' ∧
      mem'.length = pfeIoHeaderSize ∧ s'.outcomes = [] ∧
      s'.file = Function.update s.file .disk
        (applyPatches (s.file .disk) [(slot (s.file .header) i).patch (s.file .data)
          (min (slot (s.file .header) i).length maxRwCount)]) := by
  have hlen := length_pread_slot hsize
  have hs1 := advance_outcomes_nil hs true
  have hs2 := advance_outcomes_nil hs1 true
  obtain ⟨hout, hfile⟩ := replayRecord_eq hs2 hrange
  rw [replayLoop_stages, pread_slot hs hlt]
  dsimp only
  rw [Option.getD_some, hlen, List.drop_eq_nil_of_le hmem.le, List.append_nil,
    System.malloc_eq hs1, if_pos rfl]
  exact ⟨_, _, _, rfl, hlen, hout, hfile⟩

/-- **The loop**, over complete slots. -/
theorem replayLoop_slots {is : List Nat} (hs : s.outcomes = [])
    (hsize : ∀ i ∈ is, pfeIoHeaderSize * (i + 1) ≤ (s.file .header).size)
    (hlt : ∀ i ∈ is, pfeIoHeaderSize * (i + 1) < 2 ^ 63)
    (hrange : ∀ i ∈ is, (slot (s.file .header) i).InRange) {mem : Bytes}
    (hmem : mem.length = pfeIoHeaderSize) (ret : Int) :
    (replayLoop is mem ret s).2.file .disk =
      applyPatches (s.file .disk) (is.map fun i => (slot (s.file .header) i).patch (s.file .data)
        (min (slot (s.file .header) i).length maxRwCount)) := by
  induction is generalizing s mem ret with
  | nil =>
      rfl
  | cons i is ih =>
      obtain ⟨mem', ret', s', hloop, hmem', hs', hfile⟩ := replayLoop_slot hs
        (hsize i (by simp)) (hlt i (by simp)) (hrange i (by simp)) is hmem ret
      have hheader : s'.file .header = s.file .header := by
        rw [hfile, Function.update_of_ne (by decide)]
      have hdata : s'.file .data = s.file .data := by
        rw [hfile, Function.update_of_ne (by decide)]
      have hdisk : s'.file .disk = applyPatches (s.file .disk)
          [(slot (s.file .header) i).patch (s.file .data)
            (min (slot (s.file .header) i).length maxRwCount)] := by
        rw [hfile, Function.update_self]
      rw [hloop, ih hs' (fun j hj => ?_) (fun j hj => hlt j (by simp [hj])) (fun j hj => ?_) hmem',
        hheader, hdata, hdisk, List.map_cons]
      · rfl
      · rw [hheader]
        exact hsize j (by simp [hj])
      · rw [hheader]
        exact hrange j (by simp [hj])

/-- `pfe_replay_simple` over the first `n` records. -/
theorem pfeReplaySimple_slots {n : Nat} (hs : s.outcomes = [])
    (hsize : pfeIoHeaderSize * (n + 1) ≤ (s.file .header).size)
    (hlt : pfeIoHeaderSize * (n + 1) < 2 ^ 63)
    (hrange : ∀ i, 1 ≤ i → i ≤ n → (slot (s.file .header) i).InRange) :
    (pfeReplaySimple 1 n s).2.file .disk =
      applyPatches (s.file .disk) ((List.range' 1 n).map fun i =>
        (slot (s.file .header) i).patch (s.file .data)
          (min (slot (s.file .header) i).length maxRwCount)) := by
  have hhead : pfeIoHeaderSize ≤ (s.file .header).size := by
    rw [pfeIoHeaderSize] at *
    omega
  have hmem : ∀ i ∈ List.range' 1 n, 1 ≤ i ∧ i ≤ n := by
    intro i hi
    rw [List.mem_range'_1] at hi
    omega
  have hle : ∀ i ∈ List.range' 1 n, pfeIoHeaderSize * (i + 1) ≤ pfeIoHeaderSize * (n + 1) :=
    fun i hi => Nat.mul_le_mul_left _ (Nat.succ_le_succ (hmem i hi).2)
  rw [pfeReplaySimple, pfeGetIoCnt_eq hs hhead, Nat.add_sub_cancel]
  exact replayLoop_slots (advance_outcomes_nil hs true)
    (fun i hi => (hle i hi).trans hsize) (fun i hi => lt_of_le_of_lt (hle i hi) hlt)
    (fun i hi => hrange i (hmem i hi).1 (hmem i hi).2) (by simp) 0

end Replay

section Parts

variable {h : PfeIoHeader} {b : Nat} {d g : ByteFile}

theorem PfeIoHeader.places_part (hrange : h.InRange) {pos : Nat} (hpos : pos ≤ h.length)
    (n : Nat) :
    (h.part pos n).offset.toNat = h.offset.toNat + pos ∧
      (h.part pos n).datalogOffset = h.datalogOffset + pos := by
  obtain ⟨hdisk, hdata⟩ := hrange
  refine ⟨?_, Nat.mod_eq_of_lt (by omega)⟩
  have hfit : (UInt64.ofNat pos).toNat = pos :=
    UInt64.toNat_ofNat_of_lt' (by simp only [UInt64.size]; omega)
  rw [PfeIoHeader.part, UInt64.toNat_add, hfit]
  exact Nat.mod_eq_of_lt (by omega)

theorem PfeIoHeader.patch_part (hrange : h.InRange) {pos : Nat} (hpos : pos ≤ h.length)
    (d : ByteFile) (n : Nat) :
    (h.part pos n).patch d (h.part pos n).length =
      ⟨h.offset.toNat + pos, d.bytes (h.datalogOffset + pos) n⟩ := by
  obtain ⟨hoff, hlog⟩ := h.places_part hrange hpos n
  rw [PfeIoHeader.patch, hoff, hlog]
  rfl

theorem PfeIoHeader.inRange_part (hrange : h.InRange) {pos n : Nat} (hpos : pos + n ≤ h.length) :
    (h.part pos n).InRange := by
  have hplaces := h.places_part hrange (le_of_add_le_left hpos) n
  obtain ⟨hdisk, hdata⟩ := hrange
  have hlen : (h.part pos n).length = n := rfl
  rw [PfeIoHeader.InRange, hplaces.1, hplaces.2, hlen]
  omega

theorem PfeIoHeader.of_mem_parts (hrange : h.InRange) (hb : 0 < b) {p : PfeIoHeader}
    (hp : p ∈ h.parts b) : p.InRange ∧ p.length ≤ h.length ∧ p.length ≤ b := by
  rw [PfeIoHeader.parts] at hp
  have hdiv := Nat.div_add_mod h.length b
  split_ifs at hp with hlong hrem
  · rcases List.mem_append.mp hp with hp | hp
    · obtain ⟨j, hj, rfl⟩ := List.mem_map.mp hp
      have hle : b * j + b ≤ h.length := by
        rw [← Nat.mul_succ]
        exact (Nat.mul_le_mul_left b (List.mem_range.mp hj)).trans (Nat.mul_div_le _ _)
      exact ⟨h.inRange_part hrange hle, le_of_lt hlong, le_refl b⟩
    · rw [List.mem_singleton.mp hp]
      exact ⟨h.inRange_part hrange hdiv.le, Nat.mod_le _ _, (Nat.mod_lt _ hb).le⟩
  · rw [List.append_nil] at hp
    obtain ⟨j, hj, rfl⟩ := List.mem_map.mp hp
    have hle : b * j + b ≤ h.length := by
      rw [← Nat.mul_succ]
      exact (Nat.mul_le_mul_left b (List.mem_range.mp hj)).trans (Nat.mul_div_le _ _)
    exact ⟨h.inRange_part hrange hle, le_of_lt hlong, le_refl b⟩
  · rw [List.mem_singleton.mp hp]
    exact ⟨hrange, le_refl _, Nat.le_of_not_lt hlong⟩

theorem applyPatches_blocks (hrange : h.InRange) {j : Nat} (hj : b * j ≤ h.length) :
    applyPatches g (((List.range j).map fun k => h.part (b * k) b).map
        fun p => p.patch d p.length) =
      g.pwrite h.offset.toNat (d.bytes h.datalogOffset (b * j)) := by
  induction j with
  | zero =>
      simp [ByteFile.bytes]
  | succ j ih =>
      have hle : b * j ≤ h.length := (Nat.mul_le_mul_left b (Nat.le_succ j)).trans hj
      have hpatch := h.patch_part hrange hle d b
      rw [List.range_succ, List.map_append, List.map_append, applyPatches_append, ih hle,
        Nat.mul_succ, ByteFile.bytes_append, ByteFile.pwrite_append, ByteFile.length_bytes]
      rw [List.map_singleton, List.map_singleton, applyPatches_cons, applyPatches_nil, hpatch]

theorem PfeIoHeader.length_parts (b : Nat) (h : PfeIoHeader) :
    (h.parts b).length =
      if h.length > b then h.length / b + (if h.length % b ≠ 0 then 1 else 0) else 1 := by
  rw [PfeIoHeader.parts]
  split_ifs <;> simp

theorem PfeIoHeader.mul_le_of_lt_parts {c : Nat} (hc : c < (h.parts b).length) :
    b * c ≤ h.length := by
  rw [h.length_parts b] at hc
  split_ifs at hc with hlong hrem
  · exact (Nat.mul_le_mul_left b (Nat.lt_succ_iff.mp hc)).trans (Nat.mul_div_le _ _)
  · exact (Nat.mul_le_mul_left b hc.le).trans (Nat.mul_div_le _ _)
  · rw [Nat.lt_one_iff.mp hc, Nat.mul_zero]
    exact Nat.zero_le _

/-- **The pieces before a cut** write the blocks before the cut. -/
theorem applyPatches_take_parts (hrange : h.InRange) {c : Nat} (hc : c < (h.parts b).length) :
    applyPatches g (((h.parts b).take c).map fun p => p.patch d p.length) =
      applyPatches g [h.patch d (b * c)] := by
  have hle := h.mul_le_of_lt_parts hc
  rw [applyPatches_cons, applyPatches_nil]
  refine Eq.trans ?_ (applyPatches_blocks hrange hle)
  rw [h.length_parts b] at hc
  by_cases hlong : h.length > b
  · rw [if_pos hlong] at hc
    have hdiv : c ≤ h.length / b := by
      split_ifs at hc <;> omega
    rw [PfeIoHeader.parts, if_pos hlong, List.take_append_of_le_length (by simpa using hdiv),
      ← List.map_take, List.take_range, Nat.min_eq_left hdiv]
  · rw [if_neg hlong] at hc
    rw [Nat.lt_one_iff.mp hc, List.take_zero, List.range_zero]
    rfl

/-- **All pieces** write the record. -/
theorem applyPatches_parts (hrange : h.InRange) :
    applyPatches g ((h.parts b).map fun p => p.patch d p.length) =
      applyPatches g [h.patch d h.length] := by
  rw [PfeIoHeader.parts]
  by_cases hlong : h.length > b
  · have hdiv := Nat.div_add_mod h.length b
    have hle : b * (h.length / b) ≤ h.length := Nat.mul_div_le _ _
    rw [if_pos hlong, List.map_append, applyPatches_append, applyPatches_blocks hrange hle,
      applyPatches_cons, applyPatches_nil]
    by_cases hrem : h.length % b = 0
    · rw [if_neg (not_not.mpr hrem), List.map_nil, applyPatches_nil]
      rw [hrem, Nat.add_zero] at hdiv
      rw [hdiv]
      rfl
    · rw [if_pos hrem, List.map_singleton, applyPatches_cons, applyPatches_nil,
        h.patch_part hrange hle d (h.length % b)]
      have hwhole : (h.patch d h.length).data = d.bytes h.datalogOffset (b * (h.length / b)) ++
          d.bytes (h.datalogOffset + b * (h.length / b)) (h.length % b) := by
        rw [← ByteFile.bytes_append, hdiv]
        rfl
      rw [hwhole, ByteFile.pwrite_append, ByteFile.length_bytes]
      rfl
  · rw [if_neg hlong]
    rfl

/-- **A cut through the pieces of all records.** -/
theorem applyPatches_cut {hs : List PfeIoHeader} (hrange : ∀ h ∈ hs, h.InRange) (c : Nat) :
    applyPatches g (((hs.flatMap (PfeIoHeader.parts b)).take c).map fun p => p.patch d p.length) =
      applyPatches g (cutPatches b d hs c) := by
  induction hs generalizing g c with
  | nil =>
      simp [cutPatches]
  | cons h hs ih =>
      have hh := hrange h (by simp)
      have hhs : ∀ h' ∈ hs, h'.InRange := fun h' hm => hrange h' (by simp [hm])
      rw [List.flatMap_cons, List.take_append, List.map_append, applyPatches_append, cutPatches]
      split_ifs with hc
      · rw [applyPatches_take_parts hh hc, Nat.sub_eq_zero_of_le hc.le, List.take_zero,
          List.map_nil, applyPatches_nil]
      · rw [List.take_of_length_le (Nat.le_of_not_lt hc), applyPatches_parts hh, ih hhs,
          ← applyPatches_append, List.singleton_append]

theorem applyPatches_flatMap_parts {hs : List PfeIoHeader} (hrange : ∀ h ∈ hs, h.InRange) :
    applyPatches g ((hs.flatMap (PfeIoHeader.parts b)).map fun p => p.patch d p.length) =
      applyPatches g (hs.map fun h => h.patch d h.length) := by
  induction hs generalizing g with
  | nil =>
      rfl
  | cons h hs ih =>
      rw [List.flatMap_cons, List.map_append, applyPatches_append,
        applyPatches_parts (hrange h (by simp)), ih (fun h' hm => hrange h' (by simp [hm])),
        ← applyPatches_append, List.singleton_append, List.map_cons]

end Parts

section Log

variable {t : Splitter} {hs : List PfeIoHeader} {h : PfeIoHeader} {b : Nat}

/-- The split log has the records `hs`, and no file of `s` has changed. -/
structure SplitTo (s : System) (hs : List PfeIoHeader) (t : Splitter) : Prop where
  outcomes_nil : t.sys.outcomes = []
  file_eq : t.sys.file = s.file
  count_eq : t.totSplittedIoCnt = hs.length
  size_le : pfeIoHeaderSize * (hs.length + 1) ≤ t.log.size
  holds : ∀ i p, hs[i]? = some p →
    t.log.Holds (pfeIoHeaderSize * (i + 1)) { p with id := i + 1 }.encode

theorem Splitter.pwrite_eq (hs : t.sys.outcomes = []) (off : Nat) {buf : Bytes}
    (hle : buf.length ≤ maxRwCount) (hlt : off + buf.length < 2 ^ 63) :
    t.pwrite off buf =
      ((buf.length : Int), { t with
        sys := t.sys.advance true
        log := t.log.pwrite off buf }) := by
  rw [Splitter.pwrite, System.callSize_eq hs hle hlt]
  simp

theorem SplitTo.put {s : System} (ht : SplitTo s hs t)
    (hlt : pfeIoHeaderSize * (hs.length + 2) < 2 ^ 63) (h : PfeIoHeader) :
    SplitTo s (hs ++ [h]) (t.put h) := by
  have hlen : ({ h with id := hs.length + 1 } : PfeIoHeader).encode.length = pfeIoHeaderSize :=
    PfeIoHeader.length_encode _
  have hput : t.put h =
      { sys := t.sys.advance true
        log := t.log.pwrite (pfeIoHeaderSize * (hs.length + 1))
          { h with id := hs.length + 1 }.encode
        totSplittedIoCnt := hs.length + 1 } := by
    have hcount : { t with totSplittedIoCnt := hs.length + 1 }.sys.outcomes = [] :=
      ht.outcomes_nil
    rw [Splitter.put, ht.count_eq, Splitter.pwrite_eq hcount _ (by rw [hlen]; decide)
      (by rw [hlen]; rw [pfeIoHeaderSize] at *; omega)]
  have hsize := ByteFile.size_pwrite t.log (pfeIoHeaderSize * (hs.length + 1))
    { h with id := hs.length + 1 }.encode
  rw [if_neg (by rw [← List.length_eq_zero_iff, hlen]; decide), hlen] at hsize
  rw [hput]
  refine ⟨advance_outcomes_nil ht.outcomes_nil true, ht.file_eq, ?_, ?_, ?_⟩
  · rw [List.length_append]
    rfl
  · rw [hsize, List.length_append, List.length_singleton, Nat.mul_succ]
    exact Nat.le_max_right _ _
  · intro i p hp
    rw [List.getElem?_append] at hp
    split_ifs at hp with hi
    · refine (ht.holds i p hp).pwrite_of_disjoint ?_
      rw [PfeIoHeader.length_encode, hlen]
      rw [pfeIoHeaderSize]
      omega
    · have hi' : i = hs.length := by
        have hlt' := (List.getElem?_eq_some_iff.mp hp).1
        rw [List.length_singleton] at hlt'
        omega
      subst hi'
      rw [Nat.sub_self, List.getElem?_cons_zero] at hp
      rw [← Option.some.inj hp]
      exact ByteFile.holds_pwrite_self _ _ _

theorem SplitTo.putAll {s : System} (ht : SplitTo s hs t) (ps : List PfeIoHeader)
    (hlt : pfeIoHeaderSize * (hs.length + ps.length + 1) < 2 ^ 63) :
    SplitTo s (hs ++ ps) (ps.foldl Splitter.put t) := by
  induction ps generalizing hs t with
  | nil =>
      rw [List.append_nil]
      exact ht
  | cons p ps ih =>
      rw [List.length_cons] at hlt
      have hput := ht.put (by rw [pfeIoHeaderSize] at *; omega) p
      have hrest := ih hput (by
        rw [List.length_append, List.length_singleton]
        rw [pfeIoHeaderSize] at *
        omega)
      rw [List.append_assoc, List.singleton_append] at hrest
      exact hrest

theorem Splitter.splitRecord_eq (b : Nat) (h : PfeIoHeader) (t : Splitter) :
    t.splitRecord b h = (h.parts b).foldl Splitter.put t := by
  rw [Splitter.splitRecord, PfeIoHeader.parts]
  dsimp only
  split_ifs with hlong hrem
  · rw [List.foldl_append, List.foldl_map]
    rfl
  · rw [List.append_nil, List.foldl_map]
  · rfl

/-- **The loops** write the pieces of all records. -/
theorem SplitTo.splitLoop {s : System} (ht : SplitTo s hs t) (is : List Nat)
    (hsize : ∀ i ∈ is, pfeIoHeaderSize * (i + 1) ≤ (s.file .header).size)
    (hread : ∀ i ∈ is, pfeIoHeaderSize * (i + 1) < 2 ^ 63)
    (hlt : pfeIoHeaderSize * (hs.length +
      ((is.map (slot (s.file .header))).flatMap (PfeIoHeader.parts b)).length + 1) < 2 ^ 63)
    (mem : Bytes) (hmem : mem.length = pfeIoHeaderSize) :
    SplitTo s (hs ++ (is.map (slot (s.file .header))).flatMap (PfeIoHeader.parts b))
      (splitLoop b is mem t) := by
  induction is generalizing hs t mem with
  | nil =>
      rw [List.map_nil, List.flatMap_nil, List.append_nil]
      exact ht
  | cons i is ih =>
      have hlen := length_pread_slot (hsize i (by simp))
      rw [List.map_cons, List.flatMap_cons, List.length_append] at hlt
      have hnext : SplitTo s hs { t with sys := t.sys.advance true } :=
        ⟨advance_outcomes_nil ht.outcomes_nil true, ht.file_eq, ht.count_eq, ht.size_le, ht.holds⟩
      have hput := hnext.putAll ((slot (s.file .header) i).parts b)
        (by rw [pfeIoHeaderSize] at *; omega)
      have hrest := ih hput (fun j hj => hsize j (by simp [hj])) (fun j hj => hread j (by simp [hj]))
        (by
          rw [List.length_append]
          rw [pfeIoHeaderSize] at *
          omega) _ hlen
      rw [List.map_cons, List.flatMap_cons, ← List.append_assoc]
      rw [PowerFault.splitLoop, pread_slot ht.outcomes_nil (hread i (by simp))]
      dsimp only
      rw [Option.getD_some, ht.file_eq, hlen, List.drop_eq_nil_of_le hmem.le, List.append_nil,
        Splitter.splitRecord_eq]
      exact hrest

/-- The count goes into slot `0`. -/
theorem SplitTo.putCount {s : System} (ht : SplitTo s hs t)
    (hlt : pfeIoHeaderSize * (hs.length + 1) < 2 ^ 63) :
    SplitTo s hs (t.pwrite 0 (le64 (UInt64.ofNat t.totSplittedIoCnt))).2 ∧
      ioCnt (t.pwrite 0 (le64 (UInt64.ofNat t.totSplittedIoCnt))).2.log = hs.length := by
  have hlen := length_le64 (UInt64.ofNat t.totSplittedIoCnt)
  rw [Splitter.pwrite_eq ht.outcomes_nil 0 (by rw [hlen]; decide) (by rw [hlen]; decide)]
  refine ⟨⟨advance_outcomes_nil ht.outcomes_nil true, ht.file_eq, ht.count_eq,
    ht.size_le.trans (ByteFile.size_le_size_pwrite _ _ _), ?_⟩, ?_⟩
  · intro i p hp
    refine (ht.holds i p hp).pwrite_of_disjoint ?_
    rw [length_le64, pfeIoHeaderSize]
    omega
  · dsimp only
    rw [ht.count_eq]
    refine ioCnt_logCount ?_
    rw [pfeIoHeaderSize] at hlt
    omega

/-- **`pfe_split_io_log`** leaves the pieces of all records, counted. -/
theorem splitTo_pfeSplitIoLog {s : System} (hs : s.outcomes = [])
    (hsize : pfeIoHeaderSize * (ioCnt (s.file .header) + 1) ≤ (s.file .header).size)
    (hread : pfeIoHeaderSize * (ioCnt (s.file .header) + 1) < 2 ^ 63)
    (hlt : pfeIoHeaderSize * (((records (s.file .header)).flatMap
      (PfeIoHeader.parts b)).length + 1) < 2 ^ 63) (old : ByteFile) :
    SplitTo s ((records (s.file .header)).flatMap (PfeIoHeader.parts b))
        (pfeSplitIoLog b old s).2 ∧
      ioCnt (pfeSplitIoLog b old s).2.log =
        ((records (s.file .header)).flatMap (PfeIoHeader.parts b)).length := by
  have hs1 := advance_outcomes_nil hs true
  have hs2 := advance_outcomes_nil hs1 true
  have hhead : pfeIoHeaderSize ≤ (s.file .header).size := by
    rw [pfeIoHeaderSize] at *
    omega
  have hzeros : (List.replicate pfeIoHeaderSize (0 : UInt8)).length = pfeIoHeaderSize :=
    List.length_replicate
  have hstart : SplitTo s [] (Splitter.init old (s.advance true)) := by
    rw [Splitter.init, System.malloc_eq hs1, if_pos rfl, Splitter.pwrite_eq hs2 0 (by rw [hzeros]; decide) (by rw [hzeros]; decide)]
    refine ⟨advance_outcomes_nil hs2 true, rfl, rfl, ?_, fun i p hp => by simp at hp⟩
    dsimp only
    rw [ByteFile.size_pwrite, if_neg (by rw [← List.length_eq_zero_iff, hzeros]; decide), hzeros]
    exact Nat.le_max_right _ _
  have hle : ∀ i ∈ List.range' 1 (ioCnt (s.file .header)),
      pfeIoHeaderSize * (i + 1) ≤ pfeIoHeaderSize * (ioCnt (s.file .header) + 1) := by
    intro i hi
    rw [List.mem_range'_1] at hi
    exact Nat.mul_le_mul_left _ (by omega)
  have hloop := hstart.splitLoop (b := b) (List.range' 1 (ioCnt (s.file .header)))
    (fun i hi => (hle i hi).trans hsize) (fun i hi => lt_of_le_of_lt (hle i hi) hread)
    (by rw [List.length_nil, Nat.zero_add]; exact hlt)
    ((List.range pfeIoHeaderSize).map s.heap) (by simp)
  rw [List.nil_append] at hloop
  rw [pfeSplitIoLog, pfeGetIoCnt_eq hs hhead]
  exact hloop.putCount hlt

theorem slot_of_holds {f : ByteFile} {i : Nat} {p : PfeIoHeader} (hfits : p.Fits)
    (h : f.Holds (pfeIoHeaderSize * i) p.encode) : slot f i = p := by
  rw [slot, ByteFile.pread_of_holds_length h p.length_encode]
  simpa using PfeIoHeader.decode_encode hfits []

end Log

section Meaning

/-- The disk behind the split and a replay of the first `c` records of the split log. -/
def splitReplay (b c : Nat) (old : ByteFile) (s : System) : ByteFile :=
  let t := (pfeSplitIoLog b old s).2
  (pfeReplaySimple 1 c (t.sys.withHeader t.log)).2.file .disk

/-- The split log means the same as the header log. -/
structure KeepsMeaning (b : Nat) (old : ByteFile) (s : System) : Prop where
  numbered : ∀ i, 1 ≤ i → i ≤ ioCnt (pfeSplitIoLog b old s).2.log →
    pfeIoHeaderSize * (i + 1) ≤ (pfeSplitIoLog b old s).2.log.size ∧
      (slot (pfeSplitIoLog b old s).2.log i).id = i ∧
      (slot (pfeSplitIoLog b old s).2.log i).length ≤ b
  cut : ∀ c ≤ ioCnt (pfeSplitIoLog b old s).2.log,
    splitReplay b c old s =
      applyPatches (s.file .disk) (cutPatches b (s.file .data) (records (s.file .header)) c)
  whole : splitReplay b (ioCnt (pfeSplitIoLog b old s).2.log) old s =
    (pfeReplaySimple 1 (ioCnt (s.file .header)) s).2.file .disk

/-- All records are in the header log, and both header logs fit into a file. -/
structure Recording (b : Nat) (f : ByteFile) : Prop where
  size_le : pfeIoHeaderSize * (ioCnt f + 1) ≤ f.size
  read_lt : pfeIoHeaderSize * (ioCnt f + 1) < 2 ^ 63
  split_lt : pfeIoHeaderSize * (((records f).flatMap (PfeIoHeader.parts b)).length + 1) < 2 ^ 63
  inRange : ∀ h ∈ records f, h.InRange

variable {s : System} {b : Nat} {old : ByteFile}

theorem Recording.parts_inRange {f : ByteFile} (h : Recording b f) (hb : 0 < b)
    {p : PfeIoHeader} (hp : p ∈ (records f).flatMap (PfeIoHeader.parts b)) :
    p.InRange ∧ p.length ≤ b ∧ ∃ h ∈ records f, p.length ≤ h.length := by
  obtain ⟨h', hmem, hp⟩ := List.mem_flatMap.mp hp
  obtain ⟨hrange, hle, hblock⟩ := PfeIoHeader.of_mem_parts (h.inRange h' hmem) hb hp
  exact ⟨hrange, hblock, h', hmem, hle⟩

theorem slot_pfeSplitIoLog (hs : s.outcomes = []) (h : Recording b (s.file .header)) (hb : 0 < b)
    (old : ByteFile) {i : Nat} {p : PfeIoHeader}
    (hp : ((records (s.file .header)).flatMap (PfeIoHeader.parts b))[i]? = some p) :
    slot (pfeSplitIoLog b old s).2.log (i + 1) = { p with id := i + 1 } := by
  obtain ⟨hsplit, -⟩ := splitTo_pfeSplitIoLog hs h.size_le h.read_lt h.split_lt old
  obtain ⟨⟨hdisk, hdata⟩, -⟩ := h.parts_inRange hb (List.mem_of_getElem? hp)
  have hi := (List.getElem?_eq_some_iff.mp hp).1
  have hlt := h.split_lt
  rw [pfeIoHeaderSize] at hlt
  exact slot_of_holds ⟨by dsimp only; omega, by dsimp only; omega, by dsimp only; omega⟩
    (hsplit.holds i p hp)

/-- **Replay of the first pieces.** -/
theorem splitReplay_eq (hs : s.outcomes = []) (h : Recording b (s.file .header)) (hb : 0 < b)
    (old : ByteFile) {c : Nat}
    (hc : c ≤ ((records (s.file .header)).flatMap (PfeIoHeader.parts b)).length) :
    splitReplay b c old s = applyPatches (s.file .disk)
      ((((records (s.file .header)).flatMap (PfeIoHeader.parts b)).take c).map
        fun p => p.patch (s.file .data) (min p.length maxRwCount)) := by
  obtain ⟨hsplit, -⟩ := splitTo_pfeSplitIoLog hs h.size_le h.read_lt h.split_lt old
  have hslot := fun i p => @slot_pfeSplitIoLog s b hs h hb old i p
  have hparts := fun p => @Recording.parts_inRange b _ h hb p
  have hlt := h.split_lt
  generalize (records (s.file .header)).flatMap (PfeIoHeader.parts b) = ps at *
  rw [splitReplay]
  generalize (pfeSplitIoLog b old s).2 = t at *
  have hget : ∀ i, 1 ≤ i → i ≤ c → ∃ p, ps[i - 1]? = some p ∧ slot t.log i = { p with id := i } := by
    intro i h1 hi
    have hlen : i - 1 < ps.length := by omega
    obtain ⟨j, rfl⟩ := Nat.exists_eq_add_of_le' h1
    exact ⟨ps[j], List.getElem?_eq_getElem hlen, hslot j _ (List.getElem?_eq_getElem hlen)⟩
  have hreplay := pfeReplaySimple_slots (s := t.sys.withHeader t.log) (n := c) hsplit.outcomes_nil
    ((Nat.mul_le_mul_left _ (Nat.succ_le_succ hc)).trans hsplit.size_le)
    (lt_of_le_of_lt (Nat.mul_le_mul_left _ (Nat.succ_le_succ hc)) hlt) (by
      intro i h1 hi
      obtain ⟨p, hp, hslot⟩ := hget i h1 hi
      change (slot t.log i).InRange
      rw [hslot]
      exact (hparts p (List.mem_of_getElem? hp)).1)
  rw [hreplay]
  change applyPatches (t.sys.file .disk) ((List.range' 1 c).map fun i =>
    (slot t.log i).patch (t.sys.file .data) (min (slot t.log i).length maxRwCount)) = _
  rw [hsplit.file_eq]
  congr 1
  apply List.ext_getElem?
  intro i
  rw [List.getElem?_map, List.getElem?_map, List.getElem?_take]
  by_cases hi : i < c
  · obtain ⟨p, hp, hslot⟩ := hget (i + 1) (by omega) (by omega)
    rw [Nat.add_sub_cancel] at hp
    rw [if_pos hi, hp, List.getElem?_range' hi, Nat.one_mul, Nat.add_comm 1 i, Option.map_some,
      Option.map_some, hslot]
    rfl
  · rw [if_neg hi, List.getElem?_eq_none (by simpa using hi)]
    rfl

theorem pfeReplaySimple_records (hs : s.outcomes = []) (h : Recording b (s.file .header)) :
    (pfeReplaySimple 1 (ioCnt (s.file .header)) s).2.file .disk =
      applyPatches (s.file .disk) ((records (s.file .header)).map
        fun r => r.patch (s.file .data) (min r.length maxRwCount)) := by
  have hmem : ∀ i, 1 ≤ i → i ≤ ioCnt (s.file .header) →
      slot (s.file .header) i ∈ records (s.file .header) := by
    intro i h1 hi
    exact List.mem_map_of_mem (List.mem_range'_1.mpr ⟨h1, by omega⟩)
  rw [pfeReplaySimple_slots hs h.size_le h.read_lt (fun i h1 hi => h.inRange _ (hmem i h1 hi)),
    records, List.map_map]
  rfl

/-- **A log of transferable records** keeps its meaning. -/
theorem keepsMeaning_of_transferable (hs : s.outcomes = []) (h : Recording b (s.file .header))
    (hb : 0 < b) (hlen : ∀ r ∈ records (s.file .header), r.length ≤ maxRwCount) (old : ByteFile) :
    KeepsMeaning b old s := by
  obtain ⟨hsplit, hcount⟩ := splitTo_pfeSplitIoLog hs h.size_le h.read_lt h.split_lt old
  have hfull : ∀ c, (((records (s.file .header)).flatMap (PfeIoHeader.parts b)).take c).map
      (fun p => p.patch (s.file .data) (min p.length maxRwCount)) =
      (((records (s.file .header)).flatMap (PfeIoHeader.parts b)).take c).map
        fun p => p.patch (s.file .data) p.length := by
    intro c
    refine List.map_congr_left fun p hp => ?_
    obtain ⟨-, -, r, hr, hle⟩ := h.parts_inRange hb (List.mem_of_mem_take hp)
    rw [Nat.min_eq_left (hle.trans (hlen r hr))]
  refine ⟨?_, ?_, ?_⟩
  · intro i h1 hi
    rw [hcount] at hi
    obtain ⟨j, rfl⟩ := Nat.exists_eq_add_of_le' h1
    have hget := List.getElem?_eq_getElem (show j < _ from hi)
    refine ⟨(Nat.mul_le_mul_left _ (Nat.succ_le_succ hi)).trans hsplit.size_le, ?_⟩
    rw [slot_pfeSplitIoLog hs h hb old hget]
    exact ⟨rfl, (h.parts_inRange hb (List.mem_of_getElem? hget)).2.1⟩
  · intro c hc
    rw [hcount] at hc
    rw [splitReplay_eq hs h hb old hc, hfull, applyPatches_cut h.inRange]
  · rw [hcount, splitReplay_eq hs h hb old (le_refl _), hfull, List.take_length,
      applyPatches_flatMap_parts h.inRange, pfeReplaySimple_records hs h]
    congr 1
    refine List.map_congr_left fun r hr => ?_
    rw [Nat.min_eq_left (hlen r hr)]

/-- A single record that one system call cannot transfer: the replay of the header log stops in
the middle of it. -/
theorem not_keepsMeaning_of_long {h : PfeIoHeader} (hs : s.outcomes = [])
    (hrec : Recording b (s.file .header)) (hone : records (s.file .header) = [h])
    (hlong : maxRwCount < h.length) (hdisk : s.file .disk = ByteFile.empty) :
    ¬ KeepsMeaning b old s := by
  intro hkeeps
  obtain ⟨-, hcount⟩ := splitTo_pfeSplitIoLog hs hrec.size_le hrec.read_lt hrec.split_lt old
  have hcut := hkeeps.cut _ (le_refl _)
  have hpos : 0 < maxRwCount := by
    decide
  rw [hkeeps.whole, pfeReplaySimple_records hs hrec, hcount, hone, hdisk, List.flatMap_singleton,
    cutPatches, if_neg (lt_irrefl _), cutPatches, List.map_singleton,
    Nat.min_eq_right hlong.le] at hcut
  have hsize := congrArg ByteFile.size hcut
  simp only [applyPatches_cons, applyPatches_nil, PfeIoHeader.patch, ByteFile.size_pwrite,
    ByteFile.length_bytes, ByteFile.empty, ← List.length_eq_zero_iff] at hsize
  rw [if_neg (by omega), if_neg (by omega)] at hsize
  omega

end Meaning

section OneRecord

variable {h : PfeIoHeader} {b : Nat}

def oneRecordLog (h : PfeIoHeader) : ByteFile :=
  (ByteFile.empty.pwrite (pfeIoHeaderSize * 1) h.encode).pwrite 0 (le64 (UInt64.ofNat 1))

/-- An empty disk image, a header log and a data log. -/
def logSystem (f d : ByteFile) : System where
  file := fun
    | .disk => ByteFile.empty
    | .header => f
    | .data => d
  outcomes := []
  heap := fun _ => 0
  intact := true

theorem records_oneRecordLog (hfits : h.Fits) : records (oneRecordLog h) = [h] := by
  have hholds : (oneRecordLog h).Holds (pfeIoHeaderSize * 1) h.encode := by
    refine (ByteFile.holds_pwrite_self _ _ _).pwrite_of_disjoint ?_
    rw [length_le64, pfeIoHeaderSize]
    omega
  have hslot := slot_of_holds hfits hholds
  have hcount : ioCnt (oneRecordLog h) = 1 := ioCnt_logCount (by decide)
  rw [records, hcount, List.range'_one, List.map_singleton, hslot]

theorem recording_oneRecordLog (hfits : h.Fits) (hrange : h.InRange)
    (hparts : pfeIoHeaderSize * ((h.parts b).length + 1) < 2 ^ 63) :
    Recording b (oneRecordLog h) := by
  have hrecords := records_oneRecordLog hfits
  have hcount : ioCnt (oneRecordLog h) = 1 := ioCnt_logCount (by decide)
  have hlen := h.length_encode
  refine ⟨?_, ?_, ?_, ?_⟩
  · rw [hcount, oneRecordLog]
    refine le_trans ?_ (ByteFile.size_le_size_pwrite _ _ _)
    rw [ByteFile.size_pwrite, if_neg (by rw [← List.length_eq_zero_iff, hlen]; decide), hlen]
    exact Nat.le_max_right _ _
  · rw [hcount]
    decide
  · rw [hrecords, List.flatMap_singleton]
    exact hparts
  · rw [hrecords]
    intro r hr
    rw [List.mem_singleton.mp hr]
    exact hrange

end OneRecord

/-- **Splitting the I/O log preserves its meaning** if one system call can transfer every record;
for a log with one record this is exact. -/
theorem split_keeps_meaning (b : Nat) (old : ByteFile) (hb : 0 < b) :
    (∀ s : System, s.outcomes = [] → Recording b (s.file .header) →
      (∀ r ∈ records (s.file .header), r.length ≤ maxRwCount) → KeepsMeaning b old s) ∧
    ∀ (f : ByteFile) (r : PfeIoHeader), Recording b f → records f = [r] →
      ((∀ s : System, s.outcomes = [] → s.file .header = f → KeepsMeaning b old s) ↔
        r.length ≤ maxRwCount) := by
  refine ⟨fun s hs hrec hlen => keepsMeaning_of_transferable hs hrec hb hlen old, ?_⟩
  intro f r hrec hone
  constructor
  · intro hall
    by_contra hlong
    exact @not_keepsMeaning_of_long (logSystem f ByteFile.empty) b old r rfl hrec hone
      (Nat.lt_of_not_le hlong) rfl (hall _ rfl rfl)
  · rintro hlen s hs rfl
    refine keepsMeaning_of_transferable hs hrec hb (fun r' hr' => ?_) old
    rw [hone] at hr'
    rw [List.mem_singleton.mp hr']
    exact hlen

/-- A record of two bytes, split into single bytes. -/
theorem split_keeps_meaning_of_two_bytes :
    KeepsMeaning 1 ByteFile.empty
        (logSystem (oneRecordLog ⟨1, 0, 0, 2, 0, 0, 0, 0⟩) (ByteFile.empty.pwrite 0 [7, 8])) ∧
      ∀ s : System, s.outcomes = [] →
        s.file .header = oneRecordLog ⟨1, 0, 0, 2, 0, 0, 0, 0⟩ →
        KeepsMeaning 1 ByteFile.empty s := by
  have hfits : PfeIoHeader.Fits ⟨1, 0, 0, 2, 0, 0, 0, 0⟩ := by
    constructor <;> decide
  have hrec : Recording 1 (oneRecordLog ⟨1, 0, 0, 2, 0, 0, 0, 0⟩) :=
    recording_oneRecordLog hfits ⟨by decide, by decide⟩ (by decide)
  have hone := records_oneRecordLog hfits
  have hlen : ∀ r ∈ records (oneRecordLog ⟨1, 0, 0, 2, 0, 0, 0, 0⟩), r.length ≤ maxRwCount := by
    rw [hone]
    simp [maxRwCount]
  have hmeaning := split_keeps_meaning 1 ByteFile.empty Nat.one_pos
  exact ⟨hmeaning.1 _ rfl hrec hlen, (hmeaning.2 _ _ hrec hone).mpr (by decide)⟩

/-- A record of `2 ^ 31 - 1` bytes, split into blocks of 4096 bytes: `pfe_replay_simple` over the
header log applies the first `0x7ffff000` bytes only. -/
theorem split_changes_meaning :
    ∃ (b : Nat) (old : ByteFile) (s : System), 0 < b ∧ s.outcomes = [] ∧
      Recording b (s.file .header) ∧ (∀ r ∈ records (s.file .header), r.length < 2 ^ 31) ∧
      ¬ KeepsMeaning b old s := by
  have hfits : PfeIoHeader.Fits ⟨1, 0, 0, 2 ^ 31 - 1, 0, 0, 0, 0⟩ := by
    constructor <;> decide
  have hparts : pfeIoHeaderSize *
      ((PfeIoHeader.parts 4096 ⟨1, 0, 0, 2 ^ 31 - 1, 0, 0, 0, 0⟩).length + 1) < 2 ^ 63 := by
    rw [PfeIoHeader.length_parts]
    decide
  have hrec : Recording 4096 (oneRecordLog ⟨1, 0, 0, 2 ^ 31 - 1, 0, 0, 0, 0⟩) :=
    recording_oneRecordLog hfits ⟨by decide, by decide⟩ hparts
  have hone := records_oneRecordLog hfits
  refine ⟨4096, ByteFile.empty,
    logSystem (oneRecordLog ⟨1, 0, 0, 2 ^ 31 - 1, 0, 0, 0, 0⟩) ByteFile.empty, by decide, rfl,
    hrec, ?_, ?_⟩
  · change ∀ r ∈ records (oneRecordLog ⟨1, 0, 0, 2 ^ 31 - 1, 0, 0, 0, 0⟩), r.length < 2 ^ 31
    rw [hone]
    simp
  · exact not_keepsMeaning_of_long rfl hrec hone (by decide) rfl

end PowerFault
end Rfsck
