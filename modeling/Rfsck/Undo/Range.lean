import Rfsck.Storage.Blocks
import Rfsck.Undo.Format
import Rfsck.UnixIo.RawIo

/-!
# The undo blocks of a request

`undo_write_tdb` cuts the device into undo blocks of `tdb_data_size` bytes and walks over
those of a request with a `while` loop.  Where the walk begins and where it ends is computed
in machine integers:

* the byte size of the request is an `int`;
* the first byte is an `ext2_loff_t`;
* the last byte is the sum of both minus one, and the division makes it unsigned.

The walk is right for a request of at least one and at most `INT_MAX` bytes.  An empty
request at the beginning of the device sends it over all of the address space, an empty
request inside an undo block over that block, and a product that does not fit an `int` to a
wrong end.
-/

namespace Rfsck
namespace Undo

open Storage

/-- A value assigned to an `int`. -/
def toInt32 (n : Int) : Int :=
  n.bmod (2 ^ 32)

/-- A value assigned to an `ext2_loff_t`. -/
def toLoff (n : Int) : Int :=
  n.bmod (2 ^ 64)

/-- A value converted to an `unsigned long long`. -/
def toUnsigned (n : Int) : Nat :=
  (n % 2 ^ 64).toNat

/-- The `size` of a request in `undo_write_tdb`. -/
def tdbSize (blockSize : Nat) (count : Int) : Int :=
  if count = 1 then blockSize
  else if count < 0 then toInt32 (-count)
  else toInt32 (count * blockSize)

/-- The `offset` of a request: the position of its first byte on the device. -/
def tdbOffset (blockSize block offset : Nat) : Int :=
  toLoff (block * blockSize + offset)

/-- The first `block_num`. -/
def tdbBlockNum (tdbDataSize : Nat) (offset : Int) : Nat :=
  toUnsigned offset / tdbDataSize

/-- The `end_block`. -/
def tdbEndBlock (tdbDataSize : Nat) (offset size : Int) : Nat :=
  toUnsigned (offset + size - 1) / tdbDataSize

/-- How a round of the loop ends: the loop goes on, or the function returns. -/
inductive Round (α : Type) where
  | next (r : α)
  | done (r : α)

section Loop

variable {α : Type} (body : Nat → α → Round α)

/-- The loop `while (block_num <= end_block)`, for a number of rounds that may not be enough. -/
def whileBlocks : Nat → Nat → Nat → α → Option α
  | 0, _, _, _ => none
  | rounds + 1, blockNum, endBlock, r =>
      if endBlock < blockNum then
        some r
      else
        match body blockNum r with
        | .next r => whileBlocks rounds ((blockNum + 1) % 2 ^ 64) endBlock r
        | .done r => some r

variable {body}

theorem whileBlocks_rule {P : Nat → α → Prop} {endBlock : Nat} (hend : endBlock + 1 < 2 ^ 64)
    (hstep : ∀ n r, n ≤ endBlock → P n r → ∃ r', body n r = .next r' ∧ P (n + 1) r') :
    ∀ (k blockNum : Nat) (r : α), endBlock + 1 ≤ blockNum + k → P blockNum r →
      ∃ r' n, whileBlocks body (k + 1) blockNum endBlock r = some r' ∧ endBlock < n ∧ P n r' := by
  intro k
  induction k with
  | zero =>
      intro blockNum r hk hP
      rw [whileBlocks, if_pos (by omega)]
      exact ⟨r, blockNum, rfl, by omega, hP⟩
  | succ k ih =>
      intro blockNum r hk hP
      rw [whileBlocks]
      split_ifs with hlt
      · exact ⟨r, blockNum, rfl, hlt, hP⟩
      · obtain ⟨r', hbody, hP'⟩ := hstep blockNum r (by omega) hP
        rw [hbody]
        dsimp only
        rw [Nat.mod_eq_of_lt (by omega)]
        exact ih (blockNum + 1) r' (by omega) hP'

end Loop

/-- A body that notes the blocks it is called for. -/
def noteBlock (blockNum : Nat) (visited : List Nat) : Round (List Nat) :=
  .next (visited ++ [blockNum])

theorem whileBlocks_noteBlock {endBlock : Nat} (hend : endBlock + 1 < 2 ^ 64) :
    ∀ (n blockNum : Nat) (visited : List Nat), endBlock + 1 = blockNum + n →
      whileBlocks noteBlock (n + 1) blockNum endBlock visited =
        some (visited ++ List.range' blockNum n) := by
  intro n
  induction n with
  | zero =>
      intro blockNum visited h
      rw [whileBlocks, if_pos (by omega)]
      simp
  | succ n ih =>
      intro blockNum visited h
      rw [whileBlocks, if_neg (by omega)]
      show whileBlocks noteBlock (n + 1) ((blockNum + 1) % 2 ^ 64) endBlock
        (visited ++ [blockNum]) = _
      rw [Nat.mod_eq_of_lt (by omega), ih (blockNum + 1) _ (by omega)]
      simp [List.range'_succ]

theorem mem_of_whileBlocks_noteBlock {endBlock : Nat} (hend : endBlock + 1 < 2 ^ 64) :
    ∀ (rounds blockNum : Nat) (visited visited' : List Nat),
      whileBlocks noteBlock rounds blockNum endBlock visited = some visited' →
        ∀ b, b ∈ visited' ↔ b ∈ visited ∨ blockNum ≤ b ∧ b ≤ endBlock := by
  intro rounds
  induction rounds with
  | zero =>
      intro blockNum visited visited' h
      simp [whileBlocks] at h
  | succ rounds ih =>
      intro blockNum visited visited' h b
      rw [whileBlocks] at h
      split_ifs at h with hlt
      · obtain rfl := Option.some.inj h
        constructor
        · exact Or.inl
        · rintro (hb | ⟨hb, hb'⟩)
          · exact hb
          · omega
      · change whileBlocks noteBlock rounds ((blockNum + 1) % 2 ^ 64) endBlock
          (visited ++ [blockNum]) = _ at h
        rw [Nat.mod_eq_of_lt (by omega)] at h
        rw [ih _ _ _ h b, List.mem_append, List.mem_singleton]
        constructor
        · rintro ((hb | rfl) | ⟨hb, hb'⟩)
          · exact Or.inl hb
          · exact Or.inr ⟨le_refl _, by omega⟩
          · exact Or.inr ⟨by omega, hb'⟩
        · rintro (hb | ⟨hb, hb'⟩)
          · exact Or.inl (Or.inl hb)
          · rcases Nat.eq_or_lt_of_le hb with rfl | hb
            · exact Or.inl (Or.inr rfl)
            · exact Or.inr ⟨hb, hb'⟩

/-- The number of bytes that a count asks for, in exact integers. -/
def requestSize (blockSize : Nat) (count : Int) : Nat :=
  UnixIo.transferSize blockSize count

/-- The position of the first byte of a request, in exact integers. -/
def requestStart (blockSize block offset : Nat) : Nat :=
  block * blockSize + offset

/-- A request that the callers of `undo_write_tdb` let through, on a channel with sizes that
`undo_set_blksize` and `undo_set_option` accept, and whose end fits 63 bits. -/
structure Request (blockSize tdbDataSize block offset : Nat) (count : Int) : Prop where
  blockSize_ge : e2undoMinBlockSize ≤ blockSize
  blockSize_le : blockSize ≤ e2undoMaxBlockSize
  tdbDataSize_ge : e2undoMinBlockSize ≤ tdbDataSize
  tdbDataSize_le : tdbDataSize ≤ e2undoMaxBlockSize
  block_lt : block < 2 ^ 64
  count_ge : -2 ^ 31 ≤ count
  count_lt : count < 2 ^ 31
  end_lt : requestStart blockSize block offset + requestSize blockSize count < 2 ^ 63

section Request

variable {blockSize tdbDataSize block offset : Nat} {count : Int}

theorem Request.tdbDataSize_pos (h : Request blockSize tdbDataSize block offset count) :
    0 < tdbDataSize := by
  have := h.tdbDataSize_ge
  rw [e2undoMinBlockSize] at this
  omega

/-- The `int` is the exact size up to the width of the type. -/
theorem tdbSize_eq (hsize : blockSize ≤ e2undoMaxBlockSize) :
    tdbSize blockSize count = (requestSize blockSize count : Int).bmod (2 ^ 32) := by
  rw [e2undoMaxBlockSize] at hsize
  rw [tdbSize, requestSize, UnixIo.transferSize]
  by_cases hone : count = 1
  · have hexact : ((1 : Int).toNat * blockSize : Nat) = blockSize := by
      simp
    rw [if_pos hone, hone, if_neg (by decide), hexact,
      Int.bmod_eq_of_le (by omega) (by omega)]
  · rw [if_neg hone]
    by_cases hneg : count < 0
    · rw [if_pos hneg, if_pos hneg, toInt32, Int.toNat_of_nonneg (by omega)]
    · rw [if_neg hneg, if_neg hneg, toInt32, Nat.cast_mul, Int.toNat_of_nonneg (by omega)]

theorem Request.tdbOffset_eq (h : Request blockSize tdbDataSize block offset count) :
    tdbOffset blockSize block offset = requestStart blockSize block offset := by
  have hend := h.end_lt
  rw [tdbOffset, toLoff, requestStart]
  rw [requestStart] at hend
  push_cast
  have hcast : ((block * blockSize + offset : Nat) : Int) = block * blockSize + offset := by
    push_cast
    rfl
  rw [← hcast]
  exact Int.bmod_eq_of_le (by omega) (by omega)

theorem Request.tdbBlockNum_eq (h : Request blockSize tdbDataSize block offset count) :
    tdbBlockNum tdbDataSize (tdbOffset blockSize block offset) =
      requestStart blockSize block offset / tdbDataSize := by
  have hend := h.end_lt
  rw [tdbBlockNum, h.tdbOffset_eq, toUnsigned]
  congr 1
  omega

/-- The walk of a request: it ends, and it has visited exactly the given blocks. -/
def Visits (blockSize tdbDataSize block offset : Nat) (count : Int) (P : Nat → Prop) : Prop :=
  ∃ rounds visited,
    whileBlocks noteBlock rounds
        (tdbBlockNum tdbDataSize (tdbOffset blockSize block offset))
        (tdbEndBlock tdbDataSize (tdbOffset blockSize block offset) (tdbSize blockSize count))
        [] = some visited ∧
      ∀ b, b ∈ visited ↔ P b

theorem tdbEndBlock_lt (hge : e2undoMinBlockSize ≤ tdbDataSize) (offset size : Int) :
    tdbEndBlock tdbDataSize offset size + 1 < 2 ^ 64 := by
  rw [e2undoMinBlockSize] at hge
  have hlt : toUnsigned (offset + size - 1) < 2 ^ 64 := by
    rw [toUnsigned]
    omega
  have hdiv : tdbEndBlock tdbDataSize offset size ≤ toUnsigned (offset + size - 1) / 1024 :=
    Nat.div_le_div_left hge (by norm_num)
  omega

theorem visits_iff (hge : e2undoMinBlockSize ≤ tdbDataSize) (P : Nat → Prop) :
    Visits blockSize tdbDataSize block offset count P ↔
      ∀ b, (tdbBlockNum tdbDataSize (tdbOffset blockSize block offset) ≤ b ∧
        b ≤ tdbEndBlock tdbDataSize (tdbOffset blockSize block offset)
          (tdbSize blockSize count)) ↔ P b := by
  rw [Visits]
  generalize tdbOffset blockSize block offset = off
  have hend := tdbEndBlock_lt hge off (tdbSize blockSize count)
  generalize tdbEndBlock tdbDataSize off (tdbSize blockSize count) = endBlock at hend ⊢
  generalize tdbBlockNum tdbDataSize off = blockNum
  constructor
  · rintro ⟨rounds, visited, hrun, hvisited⟩ b
    rw [← hvisited b, mem_of_whileBlocks_noteBlock hend _ _ _ _ hrun b]
    simp
  · intro hP
    by_cases hle : blockNum ≤ endBlock + 1
    · have hrun := whileBlocks_noteBlock hend (endBlock + 1 - blockNum) blockNum [] (by omega)
      refine ⟨_, _, hrun, fun b => ?_⟩
      rw [mem_of_whileBlocks_noteBlock hend _ _ _ _ hrun b, ← hP b]
      simp
    · refine ⟨1, [], by rw [whileBlocks, if_pos (by omega)], fun b => ?_⟩
      rw [← hP b]
      simp only [List.not_mem_nil, false_iff]
      omega

theorem Request.toUnsigned_end (h : Request blockSize tdbDataSize block offset count)
    {size : Int} (hlow : -2 ^ 31 ≤ size) (hhigh : size < 2 ^ 31) :
    toUnsigned (tdbOffset blockSize block offset + size - 1) =
      if 0 < requestStart blockSize block offset + size then
        (requestStart blockSize block offset + size - 1).toNat
      else
        (2 ^ 64 + (requestStart blockSize block offset + size - 1)).toNat := by
  have hend := h.end_lt
  rw [h.tdbOffset_eq, toUnsigned]
  split_ifs with hpos
  · omega
  · omega

theorem Request.tdbSize_of_fits (h : Request blockSize tdbDataSize block offset count)
    (hfits : requestSize blockSize count < 2 ^ 31) :
    tdbSize blockSize count = requestSize blockSize count := by
  rw [tdbSize_eq h.blockSize_le]
  exact Int.bmod_eq_of_le (by omega) (by omega)

theorem Request.tdbEndBlock_eq (h : Request blockSize tdbDataSize block offset count)
    (hfits : requestSize blockSize count < 2 ^ 31)
    (hpos : 0 < requestStart blockSize block offset + requestSize blockSize count) :
    tdbEndBlock tdbDataSize (tdbOffset blockSize block offset) (tdbSize blockSize count) =
      (requestStart blockSize block offset + requestSize blockSize count - 1) / tdbDataSize := by
  rw [tdbEndBlock, h.tdbSize_of_fits hfits, h.toUnsigned_end (by omega) (by omega),
    if_pos (by omega)]
  congr 1
  omega

/-- A size that fits an `int` is kept. -/
theorem Request.visits_of_fits (h : Request blockSize tdbDataSize block offset count)
    (hpos : 0 < requestSize blockSize count) (hfits : requestSize blockSize count < 2 ^ 31) :
    Visits blockSize tdbDataSize block offset count
      (Meets tdbDataSize (requestStart blockSize block offset) (requestSize blockSize count)) := by
  rw [visits_iff h.tdbDataSize_ge]
  intro b
  rw [meets_iff h.tdbDataSize_pos, h.tdbBlockNum_eq, h.tdbEndBlock_eq hfits (by omega)]
  simp [hpos]

/-- Of an empty request the walk visits nothing exactly if it begins at a boundary behind the
first undo block. -/
theorem Request.visits_of_empty (h : Request blockSize tdbDataSize block offset count)
    (hempty : requestSize blockSize count = 0) :
    Visits blockSize tdbDataSize block offset count
        (Meets tdbDataSize (requestStart blockSize block offset) (requestSize blockSize count)) ↔
      0 < requestStart blockSize block offset ∧
        tdbDataSize ∣ requestStart blockSize block offset := by
  have hpos := h.tdbDataSize_pos
  have hge := h.tdbDataSize_ge
  rw [e2undoMinBlockSize] at hge
  have hsize : tdbSize blockSize count = 0 := by
    rw [tdbSize_eq h.blockSize_le, hempty]
    rfl
  rw [visits_iff h.tdbDataSize_ge, h.tdbBlockNum_eq, tdbEndBlock, hsize,
    h.toUnsigned_end (by norm_num) (by norm_num)]
  generalize requestStart blockSize block offset = lo
  have hnone : ∀ b, ¬ Meets tdbDataSize lo (requestSize blockSize count) b := by
    intro b hb
    rw [meets_iff hpos, hempty] at hb
    omega
  simp only [hnone, iff_false]
  constructor
  · intro hvisits
    have hlt := hvisits (lo / tdbDataSize)
    split_ifs at hlt with hlo
    · have hlo' : 0 < lo := by omega
      have hpred : ((lo : Int) + 0 - 1).toNat = lo - 1 := by omega
      rw [hpred] at hlt
      refine ⟨hlo', ?_⟩
      -- the byte before the request lies in an earlier undo block
      have hbefore : (lo - 1) / tdbDataSize < lo / tdbDataSize := by
        by_contra hcon
        exact hlt ⟨le_refl _, by omega⟩
      have hsucc := @Nat.succ_div (lo - 1) tdbDataSize
      rw [show lo - 1 + 1 = lo by omega] at hsucc
      split_ifs at hsucc with hdvd
      · exact hdvd
      · omega
    · have hzero : lo = 0 := by omega
      subst hzero
      exact absurd ⟨le_refl _, by simp⟩ hlt
  · rintro ⟨hlo, hdvd⟩ b
    obtain ⟨q, rfl⟩ := hdvd
    have hpred : (((tdbDataSize * q : Nat) : Int) + 0 - 1).toNat = tdbDataSize * q - 1 := by omega
    rw [if_pos (by omega), hpred, Nat.mul_div_cancel_left q hpos]
    have hbefore : (tdbDataSize * q - 1) / tdbDataSize < q := by
      rw [Nat.div_lt_iff_lt_mul hpos, Nat.mul_comm q]
      omega
    omega

/-- A size that does not fit an `int` leads to a wrong end. -/
theorem Request.not_visits_of_overflow (h : Request blockSize tdbDataSize block offset count)
    (hover : 2 ^ 31 ≤ requestSize blockSize count) :
    ¬ Visits blockSize tdbDataSize block offset count
      (Meets tdbDataSize (requestStart blockSize block offset)
        (requestSize blockSize count)) := by
  have hpos := h.tdbDataSize_pos
  have hend := h.end_lt
  have hle := h.tdbDataSize_le
  rw [e2undoMaxBlockSize] at hle
  intro hvisits
  rw [visits_iff h.tdbDataSize_ge, h.tdbBlockNum_eq, tdbEndBlock, tdbSize_eq h.blockSize_le] at hvisits
  generalize hlo : requestStart blockSize block offset = lo at hvisits hend
  generalize hn : requestSize blockSize count = n at hvisits hend hover
  have hlow : -2 ^ 31 ≤ (n : Int).bmod (2 ^ 32) := by
    have := Int.le_bmod (x := n) (m := 2 ^ 32) (by norm_num)
    omega
  have hhigh : (n : Int).bmod (2 ^ 32) < 2 ^ 31 := by
    have := Int.bmod_lt (x := n) (m := 2 ^ 32) (by norm_num)
    omega
  have hunsigned := h.toUnsigned_end hlow hhigh
  rw [hlo] at hunsigned
  rw [hunsigned] at hvisits
  have hcong : ((n : Int).bmod (2 ^ 32) - n) % 2 ^ 32 = 0 := by
    rw [Int.bmod_def]
    split_ifs <;> omega
  generalize (n : Int).bmod (2 ^ 32) = size at hlow hhigh hcong hvisits
  simp only [meets_iff hpos] at hvisits
  split_ifs at hvisits with hcase
  · -- the last undo block of the request is not reached
    obtain ⟨hfirst, hlast⟩ := (hvisits ((lo + n - 1) / tdbDataSize)).mpr
      ⟨by omega, Nat.div_le_div_right (by omega), le_refl _⟩
    have hgap : (lo + size - 1).toNat + tdbDataSize ≤ lo + n - 1 := by omega
    have hdiv := Nat.div_le_div_right (c := tdbDataSize) hgap
    rw [Nat.add_div_right _ hpos] at hdiv
    omega
  · -- the walk runs on to the end of the address space
    have hfar : lo + n - 1 + tdbDataSize ≤ (2 ^ 64 + (lo + size - 1)).toNat := by omega
    have hdiv := Nat.div_le_div_right (c := tdbDataSize) hfar
    rw [Nat.add_div_right _ hpos] at hdiv
    have hstart : lo / tdbDataSize ≤ (lo + n - 1) / tdbDataSize :=
      Nat.div_le_div_right (by omega)
    obtain ⟨-, -, hlast⟩ := (hvisits ((2 ^ 64 + (lo + size - 1)).toNat / tdbDataSize)).mp
      ⟨by omega, le_refl _⟩
    omega

/-- **When the save loop covers exactly the request.** -/
theorem save_loop_exact_iff (h : Request blockSize tdbDataSize block offset count) :
    Visits blockSize tdbDataSize block offset count
        (Meets tdbDataSize (requestStart blockSize block offset) (requestSize blockSize count)) ↔
      (0 < requestSize blockSize count ∧ requestSize blockSize count < 2 ^ 31) ∨
        (requestSize blockSize count = 0 ∧ 0 < requestStart blockSize block offset ∧
          tdbDataSize ∣ requestStart blockSize block offset) := by
  rcases Nat.eq_zero_or_pos (requestSize blockSize count) with hzero | hpos
  · rw [h.visits_of_empty hzero]
    constructor
    · intro hstart
      exact Or.inr ⟨hzero, hstart⟩
    · rintro (⟨hpos, -⟩ | ⟨-, hstart⟩)
      · omega
      · exact hstart
  · by_cases hfits : requestSize blockSize count < 2 ^ 31
    · constructor
      · intro _
        exact Or.inl ⟨hpos, hfits⟩
      · intro _
        exact h.visits_of_fits hpos hfits
    · constructor
      · intro hvisits
        exact absurd hvisits (h.not_visits_of_overflow (by omega))
      · rintro (⟨-, hlt⟩ | ⟨hzero, -⟩)
        · omega
        · omega

end Request

theorem request_two_blocks : Request 1024 1024 1 0 2 where
  blockSize_ge := by decide
  blockSize_le := by decide
  tdbDataSize_ge := by decide
  tdbDataSize_le := by decide
  block_lt := by decide
  count_ge := by decide
  count_lt := by decide
  end_lt := by decide

theorem save_loop_exact_two_blocks :
    Visits 1024 1024 1 0 2 (Meets 1024 (requestStart 1024 1 0) (requestSize 1024 2)) :=
  (save_loop_exact_iff request_two_blocks).mpr (Or.inl (by decide))

theorem request_empty : Request 1024 1024 0 0 0 where
  blockSize_ge := by decide
  blockSize_le := by decide
  tdbDataSize_ge := by decide
  tdbDataSize_le := by decide
  block_lt := by decide
  count_ge := by decide
  count_lt := by decide
  end_lt := by decide

/-- **An empty request at the beginning of the device visits undo blocks.** -/
theorem save_loop_visits_for_empty :
    ¬ Visits 1024 1024 0 0 0 (Meets 1024 (requestStart 1024 0 0) (requestSize 1024 0)) := by
  rw [request_empty.visits_of_empty (by decide)]
  rintro ⟨hpos, -⟩
  exact absurd hpos (by decide)

end Undo
end Rfsck
