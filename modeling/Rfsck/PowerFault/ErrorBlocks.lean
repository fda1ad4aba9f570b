import Rfsck.PowerFault.Recorder
import Rfsck.Storage.Blocks

/-!
# Error blocks

`pfe_read` refuses a request that touches a block from a list of error blocks.  The list is
kept in memory as it stands in its file, a count and the block numbers behind it, and
`pfe_is_errblks` looks a request up in it.

The lookup takes the blocks from the one of the first byte up to the one before the block of
the byte *behind* the request.  If the request ends inside a block, that block is left out.
-/

namespace Rfsck
namespace PowerFault

open Storage
open Redo (maxRwCount fit fit_of_length)

/-- `struct pfe_errblks_cache`. -/
@[ext] structure ErrblksCache where
  buf : Bytes
  length : Nat
  nBlks : Nat

/-- The cache of a list of block numbers. -/
def ErrblksCache.ofList (blks : List UInt64) : ErrblksCache where
  buf := blks.flatMap le64
  length := 8 * blks.length
  nBlks := blks.length

/-- `pfe_build_errblks_cache`.  A short read is reported and otherwise ignored: what is not
read stays zero. -/
def pfeBuildErrblksCache (errBlk : ByteFile) : ErrblksCache :=
  let totBlkCnt := (get64 (fit 8 (errBlk.pread 0 8))).toNat
  let length := 8 * totBlkCnt % 2 ^ 64
  { buf := fit length (errBlk.pread 8 (min length maxRwCount))
    length := length
    nBlks := totBlkCnt }

def ErrblksCache.errBlkNum (cache : ErrblksCache) (i : Nat) : UInt64 :=
  get64 (cache.buf.drop (8 * i))

/-- `pfe_is_errblks`.  The index is an `int`: behind `INT_MAX` it is negative, which is not
below the unsigned count any more. -/
def pfeIsErrblks (cache : ErrblksCache) (pfeIoBlockSize offset length : Nat) : Bool :=
  let firstBlk := offset / pfeIoBlockSize
  let afterLastBlk := (offset + length) % 2 ^ 64 / pfeIoBlockSize
  (List.range (min cache.nBlks (2 ^ 31))).any fun i =>
    decide (firstBlk ≤ (cache.errBlkNum i).toNat) &&
      decide ((cache.errBlkNum i).toNat < afterLastBlk)

/-- `pfe_read`, over any `pread64`. -/
def pfeRead (pread64 : Nat → Nat → Int) (cache : ErrblksCache)
    (pfeIoBlockSize length offset : Nat) : Int :=
  if pfeIsErrblks cache pfeIoBlockSize offset length then -1 else pread64 length offset

theorem length_flatMap_le64 (blks : List UInt64) : (blks.flatMap le64).length = 8 * blks.length := by
  induction blks with
  | nil =>
      rfl
  | cons blk blks ih =>
      rw [List.flatMap_cons, List.length_append, ih, length_le64, List.length_cons]
      ring

theorem errBlkNum_ofList {blks : List UInt64} {i : Nat} (hi : i < blks.length) :
    (ErrblksCache.ofList blks).errBlkNum i = blks[i] := by
  induction blks generalizing i with
  | nil =>
      simp at hi
  | cons blk blks ih =>
      cases i with
      | zero =>
          simp [ErrblksCache.errBlkNum, ErrblksCache.ofList]
      | succ i =>
          have hnext := ih (Nat.lt_of_succ_lt_succ hi)
          rw [ErrblksCache.errBlkNum, ErrblksCache.ofList] at hnext ⊢
          rw [List.flatMap_cons, Nat.mul_succ, Nat.add_comm, ← List.drop_drop,
            List.drop_left' (length_le64 blk), hnext, List.getElem_cons_succ]

section Lookup

variable {blks : List UInt64} {pfeIoBlockSize offset length : Nat}

def Touches (blks : List UInt64) (pfeIoBlockSize offset length : Nat) : Prop :=
  ∃ blk ∈ blks, Meets pfeIoBlockSize offset length blk.toNat

theorem pfeIsErrblks_iff (hpos : 0 < pfeIoBlockSize) (hlen : 0 < length)
    (hlt : offset + length < 2 ^ 64) :
    pfeIsErrblks (.ofList blks) pfeIoBlockSize offset length = true ↔
      ∃ blk ∈ blks.take (2 ^ 31), Meets pfeIoBlockSize offset length blk.toNat ∧
        (blk.toNat + 1) * pfeIoBlockSize ≤ offset + length := by
  have hcond : ∀ e : Nat, (offset / pfeIoBlockSize ≤ e ∧ e < (offset + length) / pfeIoBlockSize) ↔
      Meets pfeIoBlockSize offset length e ∧ (e + 1) * pfeIoBlockSize ≤ offset + length := by
    intro e
    have hend : e < (offset + length) / pfeIoBlockSize ↔
        (e + 1) * pfeIoBlockSize ≤ offset + length :=
      Nat.le_div_iff_mul_le hpos
    rw [meets_iff hpos, hend]
    constructor
    · rintro ⟨hfirst, hreach⟩
      refine ⟨⟨hlen, hfirst, ?_⟩, hreach⟩
      have hblock : (e + 1) * pfeIoBlockSize = e * pfeIoBlockSize + pfeIoBlockSize := by
        ring
      exact (Nat.le_div_iff_mul_le hpos).mpr (by omega)
    · rintro ⟨⟨-, hfirst, -⟩, hreach⟩
      exact ⟨hfirst, hreach⟩
  rw [pfeIsErrblks, Nat.mod_eq_of_lt hlt]
  simp only [List.any_eq_true, List.mem_range, Bool.and_eq_true, decide_eq_true_eq, hcond]
  constructor
  · rintro ⟨i, hi, hmeets⟩
    have hi' : i < blks.length := lt_of_lt_of_le hi (Nat.min_le_left _ _)
    rw [errBlkNum_ofList hi'] at hmeets
    refine ⟨blks[i], ?_, hmeets⟩
    exact List.mem_take_iff_getElem.mpr ⟨i, by rw [Nat.min_comm] at hi; exact hi, rfl⟩
  · rintro ⟨blk, hmem, hmeets⟩
    obtain ⟨i, hi, rfl⟩ := List.mem_take_iff_getElem.mp hmem
    refine ⟨i, ?_, ?_⟩
    · rw [Nat.min_comm] at hi
      exact hi
    · rw [errBlkNum_ofList (lt_of_lt_of_le hi (Nat.min_le_right _ _))]
      exact hmeets

/-- The property of a lookup: it finds exactly the requests that touch a listed block, and a
read fails on its account exactly then. -/
def DetectsOverlap (blks : List UInt64) (pfeIoBlockSize offset length : Nat) : Prop :=
  (pfeIsErrblks (.ofList blks) pfeIoBlockSize offset length = true ↔
      Touches blks pfeIoBlockSize offset length) ∧
    ∀ pread64, (Touches blks pfeIoBlockSize offset length →
        pfeRead pread64 (.ofList blks) pfeIoBlockSize length offset = -1) ∧
      (¬ Touches blks pfeIoBlockSize offset length →
        pfeRead pread64 (.ofList blks) pfeIoBlockSize length offset = pread64 length offset)

/-- **When the lookup detects every overlap.** -/
theorem detects_overlap_iff (hpos : 0 < pfeIoBlockSize) (hlen : 0 < length)
    (hlt : offset + length < 2 ^ 64) :
    DetectsOverlap blks pfeIoBlockSize offset length ↔
      (Touches blks pfeIoBlockSize offset length →
        ∃ blk ∈ blks.take (2 ^ 31), Meets pfeIoBlockSize offset length blk.toNat ∧
          (blk.toNat + 1) * pfeIoBlockSize ≤ offset + length) := by
  have hfound := @pfeIsErrblks_iff blks pfeIoBlockSize offset length hpos hlen hlt
  constructor
  · rintro ⟨hdetects, -⟩ htouches
    exact hfound.mp (hdetects.mpr htouches)
  · intro hcond
    have hdetects : pfeIsErrblks (.ofList blks) pfeIoBlockSize offset length = true ↔
        Touches blks pfeIoBlockSize offset length := by
      rw [hfound]
      constructor
      · rintro ⟨blk, hmem, hmeets, -⟩
        exact ⟨blk, List.mem_of_mem_take hmem, hmeets⟩
      · exact hcond
    refine ⟨hdetects, fun pread64 => ⟨fun htouches => ?_, fun htouches => ?_⟩⟩
    · rw [pfeRead, if_pos (hdetects.mpr htouches)]
    · rw [pfeRead, if_neg (fun h => htouches (hdetects.mp h))]

end Lookup

/-- A request of two whole blocks, one of them an error block. -/
theorem detects_overlap_whole_blocks : DetectsOverlap [3] 4096 8192 8192 := by
  refine (detects_overlap_iff (by decide) (by decide) (by decide)).mpr fun _ => ?_
  refine ⟨3, List.mem_cons_self, ?_, by decide⟩
  exact (meets_iff (by decide) _ _ _).mpr (by decide)

/-- **A request of 512 bytes inside an error block is not detected.** -/
theorem misses_request_inside_block :
    Touches [3] 4096 12288 512 ∧ pfeIsErrblks (.ofList [3]) 4096 12288 512 = false ∧
      ¬ DetectsOverlap [3] 4096 12288 512 := by
  have htouches : Touches [3] 4096 12288 512 :=
    ⟨3, List.mem_cons_self, (meets_iff (by decide) _ _ _).mpr (by decide)⟩
  have hmissed : pfeIsErrblks (.ofList [3]) 4096 12288 512 = false := by
    decide
  refine ⟨htouches, hmissed, fun hdetects => ?_⟩
  rw [hdetects.1.mpr htouches] at hmissed
  simp at hmissed

end PowerFault
end Rfsck
