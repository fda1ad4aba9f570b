import Rfsck.Redo.ReplayPlan

/-!
# The stream of tags

The tags of all key blocks form one stream: tag `c` of key block `k` has index
`keysPerBlock * k + c`.

* `copyTags` is the copying of consecutive tags of the stream.  The position in
  the log advances by the size of each tag, and by the size of a key block
  whenever the index reaches the first slot of a key block (`gap`).
* `copies_eq`: the nested loops that copy a transaction are one `copyTags`.
* `remark` is a key block with the mark set in a list of tags.
-/

namespace Rfsck
namespace Redo

open Storage

/-- The tags with the indices `i`, ..., `i + n - 1` of a stream. -/
def slice (T : Nat → RedoBlockTag) (i n : Nat) : List RedoBlockTag :=
  (List.range' i n).map T

@[simp] theorem slice_zero (T : Nat → RedoBlockTag) (i : Nat) : slice T i 0 = [] := by
  rfl

theorem slice_succ (T : Nat → RedoBlockTag) (i n : Nat) :
    slice T i (n + 1) = T i :: slice T (i + 1) n := by
  simp [slice, List.range'_succ]

@[simp] theorem length_slice (T : Nat → RedoBlockTag) (i n : Nat) :
    (slice T i n).length = n := by
  simp [slice]

theorem slice_append (T : Nat → RedoBlockTag) (i m n : Nat) :
    slice T i (m + n) = slice T i m ++ slice T (i + m) n := by
  induction m generalizing i with
  | zero =>
      simp
  | succ m ih =>
      rw [show m + 1 + n = m + n + 1 by omega, slice_succ, slice_succ, ih,
        List.cons_append, show i + 1 + m = i + (m + 1) by omega]

theorem slice_congr
    {T T' : Nat → RedoBlockTag} {i n : Nat}
    (h : ∀ g, i ≤ g → g < i + n → T g = T' g) :
    slice T i n = slice T' i n := by
  induction n generalizing i with
  | zero =>
      rfl
  | succ n ih =>
      rw [slice_succ, slice_succ, h i (le_refl i) (by omega),
        ih (fun g h1 h2 => h g (by omega) (by omega))]

theorem slice_set
    (T : Nat → RedoBlockTag) (i n c : Nat) (t : RedoBlockTag) :
    (slice T i n).set c t = slice (Function.update T (i + c) t) i n := by
  refine List.ext_getElem? ?_
  intro j
  by_cases hj : j < n
  · rw [List.getElem?_set]
    simp only [slice, List.getElem?_map, List.getElem?_range' hj, List.length_map,
      List.length_range', Option.map_some, Nat.one_mul]
    by_cases hcj : c = j
    · subst hcj
      simp [hj]
    · rw [if_neg hcj, Function.update_of_ne (by omega)]
  · rw [List.getElem?_eq_none (by rw [List.length_set, length_slice]; omega),
      List.getElem?_eq_none (by rw [length_slice]; omega)]

/-- What the first slot of a key block adds to the position in the log. -/
def gap (i : Nat) : Nat :=
  if i % keysPerBlock = 0 then redoLogBlockSize else 0

/-- Copying consecutive tags, the first of which has index `i` and its data at
`pos`: the position behind them, up to the tag that follows, and the copies. -/
def copyTags : List RedoBlockTag → Nat → Nat → Nat × List Action
  | [], _, pos => (pos, [])
  | t :: ts, i, pos =>
      let rest := copyTags ts (i + 1) (pos + t.size.toNat + gap (i + 1))
      (rest.1, .copy t pos :: rest.2)

theorem copyTags_cons (t : RedoBlockTag) (ts : List RedoBlockTag) (i pos : Nat) :
    copyTags (t :: ts) i pos =
      ((copyTags ts (i + 1) (pos + t.size.toNat + gap (i + 1))).1,
        .copy t pos :: (copyTags ts (i + 1) (pos + t.size.toNat + gap (i + 1))).2) := by
  rfl

theorem copyTags_append (ts us : List RedoBlockTag) (i pos : Nat) :
    copyTags (ts ++ us) i pos =
      ((copyTags us (i + ts.length) (copyTags ts i pos).1).1,
        (copyTags ts i pos).2 ++ (copyTags us (i + ts.length) (copyTags ts i pos).1).2) := by
  induction ts generalizing i pos with
  | nil =>
      rfl
  | cons t ts ih =>
      rw [List.cons_append, copyTags_cons, ih, copyTags_cons, List.length_cons,
        show i + 1 + ts.length = i + (ts.length + 1) by omega]
      rfl

/-- The stream of a family of key blocks. -/
def streamOf (blocks : Nat → RedoBlock) (g : Nat) : RedoBlockTag :=
  (blocks (g / keysPerBlock)).tag (g % keysPerBlock)

theorem streamOf_slot (blocks : Nat → RedoBlock) (k : Nat) {c : Nat} (h : c < keysPerBlock) :
    streamOf blocks (keysPerBlock * k + c) = (blocks k).tag c := by
  simp only [keysPerBlock_eq] at h
  have hdiv : (255 * k + c) / 255 = k := by omega
  have hmod : (255 * k + c) % 255 = c := by omega
  simp only [streamOf, keysPerBlock_eq, hdiv, hmod]

section Copies

variable (blocks : Nat → RedoBlock)

/-- In the key block of the end tag the loop over tags stops there. -/
theorem planWhile_last
    (k count : Nat) (hcount : count < keysPerBlock) :
    ∀ (m j pos : Nat), j + m = count →
      planWhile blocks k k count (keysPerBlock - j) j pos =
        (true, copyTags (slice (streamOf blocks) (keysPerBlock * k + j) m)
          (keysPerBlock * k + j) pos)
  | 0, j, pos, hj => by
      obtain ⟨n, hn⟩ : ∃ n, keysPerBlock - j = n + 1 := ⟨keysPerBlock - j - 1, by omega⟩
      rw [hn, planWhile, if_pos ⟨rfl, by omega⟩]
      rfl
  | m + 1, j, pos, hj => by
      obtain ⟨n, hn⟩ : ∃ n, keysPerBlock - j = n + 1 := ⟨keysPerBlock - j - 1, by omega⟩
      have hgap : gap (keysPerBlock * k + j + 1) = 0 := by
        simp only [gap, keysPerBlock_eq] at *
        rw [if_neg (by omega)]
      have hrest := planWhile_last k count hcount m (j + 1)
        (pos + ((blocks k).tag j).size.toNat) (by omega)
      rw [show keysPerBlock - (j + 1) = n by omega] at hrest
      rw [hn, planWhile_step blocks (by omega), hrest, slice_succ, copyTags_cons, hgap,
        streamOf_slot blocks k (by omega)]
      rfl

theorem planWhile_full
    (keybCount k count : Nat) (hk : k ≠ keybCount) :
    ∀ (m j pos : Nat), j + (m + 1) = keysPerBlock →
      planWhile blocks keybCount k count (m + 1) j pos =
        (false, copyTags (slice (streamOf blocks) (keysPerBlock * k + j) (m + 1))
          (keysPerBlock * k + j) pos)
  | 0, j, pos, hj => by
      have hgap : gap (keysPerBlock * k + j + 1) = redoLogBlockSize := by
        simp only [gap, keysPerBlock_eq] at *
        rw [if_pos (by omega)]
      rw [planWhile_step blocks (by tauto), slice_succ, copyTags_cons, hgap,
        streamOf_slot blocks k (by omega)]
      rfl
  | m + 1, j, pos, hj => by
      have hgap : gap (keysPerBlock * k + j + 1) = 0 := by
        simp only [gap, keysPerBlock_eq] at *
        rw [if_neg (by omega)]
      have hrest := planWhile_full keybCount k count hk m (j + 1)
        (pos + ((blocks k).tag j).size.toNat) (by omega)
      rw [planWhile_step blocks (by tauto), hrest, slice_succ _ _ (m + 1),
        copyTags_cons, hgap, streamOf_slot blocks k (by omega)]
      rfl

/-- The key blocks behind the one of the begin tag. -/
theorem planFor_later
    (keybCount beginBlk beginIdx count : Nat) (hcount : count < keysPerBlock) :
    ∀ (n i pos : Nat), beginBlk < i → i + n = keybCount →
      planFor blocks keybCount beginBlk beginIdx count (n + 1) i pos =
        copyTags (slice (streamOf blocks) (keysPerBlock * i) (keysPerBlock * n + count))
          (keysPerBlock * i) pos
  | 0, i, pos, hi, hn => by
      have hlast := planWhile_last blocks i count hcount count 0 pos (by omega)
      have hik : i = keybCount := by omega
      subst hik
      rw [planFor]
      simp only [if_neg (show ¬ i = beginBlk by omega), hlast]
      simp
  | n + 1, i, pos, hi, hn => by
      have hfull := planWhile_full blocks keybCount i count (by omega)
        (keysPerBlock - 1) 0 pos (by rfl)
      have hrest := planFor_later keybCount beginBlk beginIdx count hcount n (i + 1)
        (copyTags (slice (streamOf blocks) (keysPerBlock * i) keysPerBlock)
          (keysPerBlock * i) pos).1 (by omega) (by omega)
      have hsplit : keysPerBlock * (n + 1) + count =
          keysPerBlock + (keysPerBlock * n + count) := by
        ring
      have hnext : keysPerBlock * i + keysPerBlock = keysPerBlock * (i + 1) := by
        ring
      rw [planFor]
      simp only [if_neg (show ¬ i = beginBlk by omega), Nat.sub_zero]
      rw [show keysPerBlock = keysPerBlock - 1 + 1 by rfl, hfull,
        show keysPerBlock - 1 + 1 = keysPerBlock by rfl, hsplit, slice_append,
        copyTags_append, length_slice, Nat.add_zero, hnext]
      simp only [Bool.false_eq_true, if_false, hrest]

theorem planFor_within
    (b c count : Nat) (hcount : count < keysPerBlock) (hc : c < count) (n pos : Nat) :
    planFor blocks b b c count (n + 1) b pos =
      copyTags
        (slice (streamOf blocks) (keysPerBlock * b + c + 1) (count - (c + 1)))
        (keysPerBlock * b + c + 1) (pos + gap (keysPerBlock * b + c + 1)) := by
  have hend := planWhile_last blocks b count hcount (count - (c + 1)) (c + 1) pos (by omega)
  have hgap : gap (keysPerBlock * b + c + 1) = 0 := by
    simp only [gap, keysPerBlock_eq] at *
    rw [if_neg (by omega)]
  rw [planFor]
  simp only [if_true, hend, hgap]
  rfl

theorem planFor_across
    (b c count : Nat) (hcount : count < keysPerBlock) (hc : c < keysPerBlock)
    (n pos : Nat) :
    planFor blocks (b + 1 + n) b c count (n + 2) b pos =
      copyTags
        (slice (streamOf blocks) (keysPerBlock * b + c + 1)
          (keysPerBlock - (c + 1) + (keysPerBlock * n + count)))
        (keysPerBlock * b + c + 1) (pos + gap (keysPerBlock * b + c + 1)) := by
  have hlater := planFor_later blocks (b + 1 + n) b c count hcount n (b + 1)
  rw [planFor]
  simp only [if_true]
  by_cases hfull : c + 1 = keysPerBlock
  · have hgap : gap (keysPerBlock * b + c + 1) = redoLogBlockSize := by
      simp only [gap, keysPerBlock_eq] at *
      rw [if_pos (by omega)]
    have hnext : keysPerBlock * b + c + 1 = keysPerBlock * (b + 1) := by
      rw [Nat.add_assoc, hfull]
      ring
    rw [hfull, Nat.sub_self, planWhile, hgap, hnext, Nat.zero_add]
    simp only [Bool.false_eq_true, if_false, List.nil_append]
    exact hlater _ (by omega) rfl
  · obtain ⟨m, hm⟩ : ∃ m, keysPerBlock - (c + 1) = m + 1 :=
      ⟨keysPerBlock - (c + 1) - 1, by omega⟩
    have hgap : gap (keysPerBlock * b + c + 1) = 0 := by
      simp only [gap, keysPerBlock_eq] at *
      rw [if_neg (by omega)]
    have hnext : keysPerBlock * b + c + 1 + (m + 1) = keysPerBlock * (b + 1) := by
      simp only [keysPerBlock_eq] at *
      omega
    have hwhile := planWhile_full blocks (b + 1 + n) b count (by omega) m (c + 1)
      pos (by omega)
    rw [hm, hwhile, hgap, slice_append _ _ (m + 1) (keysPerBlock * n + count),
      copyTags_append, length_slice, hnext]
    simp only [Bool.false_eq_true, if_false]
    rw [hlater _ (by omega) rfl]
    rfl

/-- **Copying a transaction.**  The nested loops copy the tags between the begin
tag and the end tag, in order; the first position accounts for a begin tag in the
last slot of a key block. -/
theorem copies_eq
    (sc : Scan) (count : Nat) {beginAt : Nat}
    (hblk : sc.data.txnBeginBlk = beginAt / keysPerBlock)
    (hidx : sc.data.txnBeginIdx = beginAt % keysPerBlock)
    (hcount : count < keysPerBlock)
    (hlt : beginAt < keysPerBlock * sc.keybCount + count) :
    sc.copies count =
      copyTags
        (slice (streamOf sc.replayBlocks) (beginAt + 1)
          (keysPerBlock * sc.keybCount + count - (beginAt + 1)))
        (beginAt + 1) (sc.replayLogOffset + gap (beginAt + 1)) := by
  have hsplit : beginAt = keysPerBlock * (beginAt / keysPerBlock) +
      beginAt % keysPerBlock := (Nat.div_add_mod _ _).symm
  have hmod : beginAt % keysPerBlock < keysPerBlock := Nat.mod_lt _ (by decide)
  generalize beginAt / keysPerBlock = b at hblk hsplit
  generalize beginAt % keysPerBlock = c at hidx hsplit hmod
  subst hsplit
  rw [Scan.copies, hblk, hidx]
  generalize sc.keybCount = k at hlt ⊢
  by_cases hlast : b = k
  · subst hlast
    have hlen : keysPerBlock * b + count - (keysPerBlock * b + c + 1) = count - (c + 1) := by
      omega
    rw [hlen, show b + 1 - b = 0 + 1 by omega]
    exact planFor_within sc.replayBlocks b c count hcount (by omega) 0 _
  · obtain ⟨n, rfl⟩ : ∃ n, k = b + 1 + n := by
      refine ⟨k - (b + 1), ?_⟩
      simp only [keysPerBlock_eq] at *
      omega
    have hlen : keysPerBlock * (b + 1 + n) + count - (keysPerBlock * b + c + 1) =
        keysPerBlock - (c + 1) + (keysPerBlock * n + count) := by
      simp only [keysPerBlock_eq] at *
      omega
    rw [hlen, show b + 1 + n + 1 - b = n + 2 by omega]
    exact planFor_across sc.replayBlocks b c count hcount hmod n _

end Copies

namespace RedoBlock

/-- A key block as it stands in `replay_blocks`: the reserved field is not copied. -/
def clearReserved (kb : RedoBlock) : RedoBlock :=
  { kb with reserved := 0 }

theorem clearReserved_of_eq {kb : RedoBlock} (h : kb.reserved = 0) :
    kb.clearReserved = kb := by
  exact RedoBlock.ext rfl rfl h.symm rfl

/-- Key block number `k` with the mark in the tags whose index is in `M`. -/
def remark (kb : RedoBlock) (k : Nat) (M : List Nat) : RedoBlock :=
  { kb with
    tags := kb.tags.mapIdx (fun c t => if keysPerBlock * k + c ∈ M then t.marked else t)
    tags_length := by rw [List.length_mapIdx, kb.tags_length] }

theorem remark_tag
    (kb : RedoBlock) (k : Nat) (M : List Nat) {c : Nat} (h : c < keysPerBlock) :
    (kb.remark k M).tag c =
      if keysPerBlock * k + c ∈ M then (kb.tag c).marked else kb.tag c := by
  have hc := getElem?_tags kb h
  simp only [tag, remark, List.getElem?_mapIdx] at hc ⊢
  rw [hc]
  rfl

theorem remark_congr
    {kb kb' : RedoBlock} {k : Nat} {M M' : List Nat}
    (hkb : kb = kb')
    (h : ∀ c, c < keysPerBlock → (keysPerBlock * k + c ∈ M ↔ keysPerBlock * k + c ∈ M')) :
    kb.remark k M = kb'.remark k M' := by
  subst hkb
  refine ext_tag rfl rfl rfl ?_
  intro c hc
  simp only [remark_tag _ _ _ hc, h c hc]

@[simp] theorem remark_nil (kb : RedoBlock) (k : Nat) : kb.remark k [] = kb := by
  refine ext_tag rfl rfl rfl ?_
  intro c hc
  simp [remark_tag _ _ _ hc]

theorem remark_remark (kb : RedoBlock) (k : Nat) (M M' : List Nat) :
    (kb.remark k M).remark k M' = kb.remark k (M ++ M') := by
  refine ext_tag rfl rfl rfl ?_
  intro c hc
  simp only [remark_tag _ _ _ hc, List.mem_append]
  by_cases h : keysPerBlock * k + c ∈ M
  · by_cases h' : keysPerBlock * k + c ∈ M'
    · simp [h, h']
    · simp [h, h']
  · simp [h]

theorem remark_setTag
    (kb : RedoBlock) (k : Nat) (M : List Nat) {c : Nat} (h : c < keysPerBlock) :
    (kb.remark k M).setTag c ((kb.remark k M).tag c).marked =
      kb.remark k (M ++ [keysPerBlock * k + c]) := by
  refine ext_tag rfl rfl rfl ?_
  intro c' hc'
  by_cases hcc : c = c'
  · subst hcc
    rw [tag_setTag_self _ h, remark_tag _ _ _ h, remark_tag _ _ _ h]
    simp only [List.mem_append, List.mem_singleton, or_true, if_true]
    split_ifs
    · rw [RedoBlockTag.marked_marked]
    · rfl
  · rw [tag_setTag_of_ne _ hcc, remark_tag _ _ _ hc', remark_tag _ _ _ hc']
    simp [Ne.symm hcc]

end RedoBlock

def tagBytes (ts : List RedoBlockTag) : Nat :=
  (ts.map (fun t => t.size.toNat)).sum

theorem RedoBlock.tag_of_drop
    {kb kb' : RedoBlock} {c : Nat} (h : kb.tags.drop c = kb'.tags.drop c) :
    kb.tag c = kb'.tag c := by
  have h' := congrArg (fun l => l[0]?) h
  simp only [List.getElem?_drop, Nat.add_zero] at h'
  rw [RedoBlock.tag, RedoBlock.tag, h']

theorem RedoBlock.drop_tags (kb : RedoBlock) {c : Nat} (h : c < keysPerBlock) :
    kb.tags.drop c = kb.tag c :: kb.tags.drop (c + 1) := by
  have hlt : c < kb.tags.length := by
    rw [kb.tags_length]
    exact h
  rw [List.drop_eq_getElem_cons hlt, RedoBlock.tag, List.getElem?_eq_getElem hlt]
  rfl

end Redo
end Rfsck
