import Rfsck.Redo.FailedRecovery

/-!
# The arrays of the replayer

`rfsck_replay` allocates `num_keys` elements of `replay_blocks` and `num_keys + 1` elements
of `keys_offset`, clears them with `memset`, and then counts `keyb_count` from `0` to
`num_keys`.  The functions of this module list the elements that the code of `rfsck_replay`
uses, in the order of the code.

* `tagsAccesses_upTo`: what is used while key block `k` is walked has an index up to `k`,
  because the begin of the open transaction is remembered from a block before.
* `blocksAccesses_inside_iff`: the loop stays inside exactly if it does not get to load the
  key block whose number is the length of `replay_blocks`.
* `replay_inside_iff`: the same for `rfsck_replay`.
-/

namespace Rfsck
namespace Redo

open Storage

/-- An element that `rfsck_replay` reads or writes. -/
inductive Access where
  | keysOffset (i : Nat)
  | block (i : Nat)
  | tag (i j : Nat)

/-- The elements that `calloc` provides; a product that does not fit gives `NULL`. -/
def calloc (n size : Nat) : Nat :=
  if n * size < 2 ^ 64 then n else 0

/-- The elements that `memset` clears, whose length in bytes is a wrapped product. -/
def memset (n size : Nat) : Nat :=
  n * size % 2 ^ 64 / size

namespace RedoHeader

/-- The length of `replay_blocks`, the elements of which are as long as a key block. -/
def replayBlocksLength (hdr : RedoHeader) : Nat :=
  calloc hdr.numKeys.toNat redoLogBlockSize

/-- The length of `keys_offset`. -/
def keysOffsetLength (hdr : RedoHeader) : Nat :=
  calloc (hdr.numKeys + 1).toNat 8

/-- The two calls of `memset`. -/
def clearAccesses (hdr : RedoHeader) : List Access :=
  (List.range (memset (hdr.numKeys + 1).toNat 8)).map .keysOffset ++
    (List.range (memset hdr.numKeys.toNat redoLogBlockSize)).map .block

/-- `memset` clears no more than was allocated. -/
def ClearsInside (hdr : RedoHeader) : Prop :=
  memset (hdr.numKeys + 1).toNat 8 ≤ hdr.keysOffsetLength ∧
    memset hdr.numKeys.toNat redoLogBlockSize ≤ hdr.replayBlocksLength

end RedoHeader

/-- The element exists. -/
def Access.InBounds (hdr : RedoHeader) : Access → Prop
  | .keysOffset i => i < hdr.keysOffsetLength
  | .block i => i < hdr.replayBlocksLength
  | .tag i j => i < hdr.replayBlocksLength ∧ j < keysPerBlock

/-- The element belongs to the key blocks up to `k`. -/
def Access.UpTo (k : Nat) : Access → Prop
  | .keysOffset i => i ≤ k
  | .block i => i ≤ k
  | .tag i j => i ≤ k ∧ j < keysPerBlock

/-- What is listed after a computation that may leave by `goto free_end`. -/
def andThen {α β : Type} (x : Except Replay α) (f : α → List β) : List β :=
  match x with
  | .error _ => []
  | .ok a => f a

/-- Copying the key block that was read. -/
def loadAccesses (r : Replay) : List Access :=
  .keysOffset r.keybCount :: .block r.keybCount ::
    (List.range keysPerBlock).map (.tag r.keybCount)

/-- The `while` loop over the tags of one key block. -/
def whileAccesses (i count : Nat) : Nat → Nat → Replay → List Access
  | 0, _, _ => []
  | n + 1, j, r =>
      if i = r.keybCount ∧ j = count then
        []
      else
        .tag i j :: andThen (replayData i j r) (whileAccesses i count n (j + 1))

/-- The `for` loop over the key blocks of a transaction. -/
def forAccesses (count : Nat) : Nat → Nat → Replay → List Access
  | 0, _, _ => []
  | n + 1, i, r =>
      let j := if i = r.data.txnBeginBlk then r.data.txnBeginIdx + 1 else 0
      whileAccesses i count (keysPerBlock - j) j r ++
        andThen (replayWhile i count (keysPerBlock - j) j r) fun (txnReplayed, r) =>
          if txnReplayed then [] else forAccesses count n (i + 1) r

/-- Marking the transaction and writing its key block. -/
def markAccesses (r : Replay) : List Access :=
  [.tag r.data.txnBeginBlk r.data.txnBeginIdx, .keysOffset r.data.txnBeginBlk,
    .block r.data.txnBeginBlk]

section Replayer

variable (crc : Bytes → UInt32)

/-- The body of the loop over tags: only an end tag that is not skipped uses the arrays. -/
def tagAccesses (count : Nat) (r : Replay) : List Access :=
  let tag := r.keyb.tag count
  let r := { r with logOffset := r.logOffset + tag.size.toNat }
  if tag.size = 0 ∧ 0 < tag.blkCrc ∧ r.data.txnId ≠ 0 ∧ ¬ r.isReplayed then
    let r := checkTxnEnd crc count tag r
    forAccesses count (r.keybCount + 1 - r.data.txnBeginBlk) r.data.txnBeginBlk r ++
      andThen (replayFor count (r.keybCount + 1 - r.data.txnBeginBlk) r.data.txnBeginBlk r)
        markAccesses
  else
    []

/-- The loop over the tags of a key block. -/
def tagsAccesses : Nat → Nat → Replay → List Access
  | 0, _, _ => []
  | n + 1, count, r =>
      tagAccesses crc count r ++ andThen (replayTag crc count r) (tagsAccesses n (count + 1))

/-- The loop over key blocks. -/
def blocksAccesses : Nat → Replay → List Access
  | 0, _ => []
  | n + 1, r =>
      andThen (loadKeyb r) fun r' =>
        loadAccesses r ++ tagsAccesses crc keysPerBlock 0 r' ++
          andThen (replayTags crc keysPerBlock 0 r') fun r =>
            blocksAccesses n { r with keybCount := r.keybCount + 1 }

/-- `rfsck_replay`: everything it uses of the two arrays. -/
def replayAccesses (s : State) : List Access :=
  match s.world.pread .redo 0 redoHeaderSize with
  | (none, _) => []
  | (some bytes, world) =>
      let hdr := readHeader s.world bytes
      if hdr.headerCrc ≠ hdr.checksum crc then
        []
      else if hdr.state ≠ e2redoStateFinished then
        []
      else
        hdr.clearAccesses ++
          blocksAccesses crc hdr.visited
            (startReplay hdr bytes.length { s with world := world })

/-- The replayer loads the key block that lies `n` blocks ahead. -/
def LoadsBlock (n : Nat) (r : Replay) : Prop :=
  ∃ r' r'', replayKeyBlocks crc n r = .ok r' ∧ loadKeyb r' = .ok r''

end Replayer

section Frame

theorem ok_of_bind_eq_ok {α β : Type} {x : Except Replay α} {f : α → Except Replay β} {b : β}
    (h : (x >>= f) = .ok b) : ∃ a, x = .ok a ∧ f a = .ok b := by
  cases x with
  | error r =>
      cases h
  | ok a =>
      exact ⟨a, rfl, h⟩

theorem ok_bind {α β : Type} (a : α) (f : α → Except Replay β) :
    ((Except.ok a : Except Replay α) >>= f) = f a := by
  rfl

/-- The open transaction and the number of the key block are the same. -/
def Replay.SameBegin (r r' : Replay) : Prop :=
  r'.data.txnBeginBlk = r.data.txnBeginBlk ∧ r'.data.txnBeginIdx = r.data.txnBeginIdx ∧
    r'.keybCount = r.keybCount

/-- The begin of the open transaction is a tag of a key block up to the current one. -/
structure Replay.BeginBefore (r : Replay) : Prop where
  blk : r.data.txnBeginBlk ≤ r.keybCount
  idx : r.data.txnBeginIdx < keysPerBlock

theorem Replay.SameBegin.refl (r : Replay) : r.SameBegin r := by
  exact ⟨rfl, rfl, rfl⟩

theorem Replay.SameBegin.trans {r r' r'' : Replay}
    (h : r.SameBegin r') (h' : r'.SameBegin r'') : r.SameBegin r'' := by
  exact ⟨h'.1.trans h.1, h'.2.1.trans h.2.1, h'.2.2.trans h.2.2⟩

theorem Replay.BeginBefore.same {r r' : Replay}
    (h : r.BeginBefore) (hsame : r.SameBegin r') : r'.BeginBefore := by
  obtain ⟨hblk, hidx, hcount⟩ := hsame
  exact ⟨by rw [hblk, hcount]; exact h.blk, by rw [hidx]; exact h.idx⟩

theorem Replay.sameBegin_writeInfo (fd : Fd) (off : Nat) (buf : Bytes) (r : Replay) :
    r.SameBegin (r.writeInfo fd off buf) := by
  have hdata := (writeInfo_cases fd off buf r.state).2.2
  refine ⟨?_, ?_, rfl⟩
  · exact congrArg RedoPrivateData.txnBeginBlk hdata
  · exact congrArg RedoPrivateData.txnBeginIdx hdata

theorem sameBegin_loadKeyb {r r' : Replay} (h : loadKeyb r = .ok r') : r.SameBegin r' := by
  unfold loadKeyb at h
  split at h
  · cases h
  · cases h
    exact ⟨rfl, rfl, rfl⟩

theorem sameBegin_replayData {i j : Nat} {r r' : Replay} (h : replayData i j r = .ok r') :
    r.SameBegin r' := by
  unfold replayData at h
  dsimp only at h
  split at h
  · cases h
  · split_ifs at h
    cases h
    exact Replay.sameBegin_writeInfo _ _ _ _

theorem sameBegin_replayWhile {i count n j : Nat} {r : Replay} {x : Bool × Replay}
    (h : replayWhile i count n j r = .ok x) : r.SameBegin x.2 := by
  induction n generalizing j r with
  | zero =>
      cases h
      exact ⟨rfl, rfl, rfl⟩
  | succ n ih =>
      rw [replayWhile] at h
      split_ifs at h with hend
      · cases h
        exact Replay.SameBegin.refl r
      · obtain ⟨r', hdata, hrest⟩ := ok_of_bind_eq_ok h
        exact (sameBegin_replayData hdata).trans (ih hrest)

theorem sameBegin_replayFor {count n i : Nat} {r r' : Replay}
    (h : replayFor count n i r = .ok r') : r.SameBegin r' := by
  induction n generalizing i r with
  | zero =>
      cases h
      exact Replay.SameBegin.refl _
  | succ n ih =>
      rw [replayFor] at h
      obtain ⟨⟨done, r₁⟩, hwhile, hrest⟩ := ok_of_bind_eq_ok h
      have hsame := sameBegin_replayWhile hwhile
      dsimp only at hrest
      split_ifs at hrest with hdone
      · cases hrest
        exact hsame
      · exact hsame.trans (ih hrest)

theorem sameBegin_checkTxnEnd (crc : Bytes → UInt32) (count : Nat) (tag : RedoBlockTag)
    (r : Replay) : r.SameBegin (checkTxnEnd crc count tag r) := by
  unfold checkTxnEnd
  dsimp only
  split_ifs
  · exact ⟨rfl, rfl, rfl⟩
  · exact ⟨rfl, rfl, rfl⟩

theorem beginBefore_replayTag {crc : Bytes → UInt32} {count : Nat} {r r' : Replay}
    (hcount : count < keysPerBlock) (hbefore : r.BeginBefore)
    (h : replayTag crc count r = .ok r') :
    r'.BeginBefore ∧ r'.keybCount = r.keybCount := by
  unfold replayTag at h
  dsimp only at h
  split_ifs at h
  · cases h
    exact ⟨⟨hbefore.blk, hbefore.idx⟩, rfl⟩
  · cases h
    exact ⟨⟨hbefore.blk, hbefore.idx⟩, rfl⟩
  · cases h
    exact ⟨⟨le_refl _, hcount⟩, rfl⟩
  · cases h
    exact ⟨⟨hbefore.blk, hbefore.idx⟩, rfl⟩
  · -- an end tag: the begin is reset to tag 0 of key block 0
    obtain ⟨r'', hfor, hmark⟩ := ok_of_bind_eq_ok h
    cases hmark
    have hkeyb := (sameBegin_checkTxnEnd crc count (r.keyb.tag count)
      { r with logOffset := r.logOffset + (r.keyb.tag count).size.toNat }).trans
        (sameBegin_replayFor hfor)
    exact ⟨⟨Nat.zero_le _, show 0 < keysPerBlock by decide⟩, hkeyb.2.2⟩
  · cases h
    exact ⟨⟨hbefore.blk, hbefore.idx⟩, rfl⟩
  · cases h
    exact ⟨⟨hbefore.blk, hbefore.idx⟩, rfl⟩

theorem beginBefore_replayTags {crc : Bytes → UInt32} {n count : Nat} {r r' : Replay}
    (hcount : count + n ≤ keysPerBlock) (hbefore : r.BeginBefore)
    (h : replayTags crc n count r = .ok r') :
    r'.BeginBefore ∧ r'.keybCount = r.keybCount := by
  induction n generalizing count r with
  | zero =>
      cases h
      exact ⟨hbefore, rfl⟩
  | succ n ih =>
      rw [replayTags] at h
      obtain ⟨r₁, htag, htags⟩ := ok_of_bind_eq_ok h
      have hone := beginBefore_replayTag (by omega) hbefore htag
      have hrest := ih (by omega) hone.1 htags
      exact ⟨hrest.1, hrest.2.trans hone.2⟩

end Frame

section Indices

theorem mem_andThen {α β : Type} {x : Except Replay α} {f : α → List β} {a : β} :
    a ∈ andThen x f ↔ ∃ y, x = .ok y ∧ a ∈ f y := by
  cases x with
  | error r =>
      simp [andThen]
  | ok y =>
      simp [andThen]

theorem loadAccesses_upTo (r : Replay) : ∀ a ∈ loadAccesses r, a.UpTo r.keybCount := by
  intro a ha
  simp only [loadAccesses, List.mem_cons, List.mem_map, List.mem_range] at ha
  obtain rfl | rfl | ⟨j, hj, rfl⟩ := ha
  · exact le_refl _
  · exact le_refl _
  · exact ⟨le_refl _, hj⟩

theorem whileAccesses_upTo {k i count n j : Nat} {r : Replay}
    (hi : i ≤ k) (hj : 0 < n → j + n ≤ keysPerBlock) :
    ∀ a ∈ whileAccesses i count n j r, a.UpTo k := by
  induction n generalizing j r with
  | zero =>
      intro a ha
      cases ha
  | succ n ih =>
      intro a ha
      have hle := hj (Nat.succ_pos n)
      rw [whileAccesses] at ha
      split_ifs at ha with hend
      · cases ha
      · obtain rfl | hrest := List.mem_cons.mp ha
        · exact ⟨hi, by omega⟩
        · obtain ⟨r', _, hmem⟩ := mem_andThen.mp hrest
          exact ih (fun _ => by omega) a hmem

theorem forAccesses_upTo {k count n i : Nat} {r : Replay} (hi : i + n ≤ k + 1) :
    ∀ a ∈ forAccesses count n i r, a.UpTo k := by
  induction n generalizing i r with
  | zero =>
      intro a ha
      cases ha
  | succ n ih =>
      intro a ha
      rw [forAccesses] at ha
      obtain hwhile | hrest := List.mem_append.mp ha
      · exact whileAccesses_upTo (by omega) (fun _ => by omega) a hwhile
      · obtain ⟨⟨done, r'⟩, _, hmem⟩ := mem_andThen.mp hrest
        dsimp only at hmem
        split_ifs at hmem
        · cases hmem
        · exact ih (by omega) a hmem

theorem markAccesses_upTo {r : Replay} (h : r.BeginBefore) :
    ∀ a ∈ markAccesses r, a.UpTo r.keybCount := by
  intro a ha
  simp only [markAccesses, List.mem_cons, List.not_mem_nil, or_false] at ha
  obtain rfl | rfl | rfl := ha
  · exact ⟨h.blk, h.idx⟩
  · exact h.blk
  · exact h.blk

variable {crc : Bytes → UInt32}

theorem tagAccesses_upTo {count : Nat} {r : Replay} (h : r.BeginBefore) :
    ∀ a ∈ tagAccesses crc count r, a.UpTo r.keybCount := by
  intro a ha
  unfold tagAccesses at ha
  dsimp only at ha
  split_ifs at ha with hend
  · set r₁ := checkTxnEnd crc count (r.keyb.tag count)
      { r with logOffset := r.logOffset + (r.keyb.tag count).size.toNat } with hr₁
    have hsame : r.SameBegin r₁ := sameBegin_checkTxnEnd crc count _ _
    have hbefore := h.same hsame
    rw [← hsame.2.2]
    obtain hfor | hmark := List.mem_append.mp ha
    · have hle := hbefore.blk
      exact forAccesses_upTo (by omega) a hfor
    · obtain ⟨r₂, hrun, hmem⟩ := mem_andThen.mp hmark
      have hsame' := sameBegin_replayFor hrun
      rw [← hsame'.2.2]
      exact markAccesses_upTo (hbefore.same hsame') a hmem
  · cases ha

theorem tagsAccesses_upTo {n count : Nat} {r : Replay}
    (hcount : count + n ≤ keysPerBlock) (h : r.BeginBefore) :
    ∀ a ∈ tagsAccesses crc n count r, a.UpTo r.keybCount := by
  induction n generalizing count r with
  | zero =>
      intro a ha
      cases ha
  | succ n ih =>
      intro a ha
      rw [tagsAccesses] at ha
      obtain hone | hrest := List.mem_append.mp ha
      · exact tagAccesses_upTo h a hone
      · obtain ⟨r', htag, hmem⟩ := mem_andThen.mp hrest
        have hkept := beginBefore_replayTag (by omega) h htag
        rw [← hkept.2]
        exact ih (by omega) hkept.1 a hmem

/-- An array long enough for the key blocks up to `k` is long enough for `keys_offset`. -/
theorem RedoHeader.replayBlocksLength_le (hdr : RedoHeader) :
    hdr.replayBlocksLength ≤ hdr.keysOffsetLength := by
  have hsucc : (hdr.numKeys + 1).toNat = (hdr.numKeys.toNat + 1) % 2 ^ 64 := by
    exact UInt64.toNat_add hdr.numKeys 1
  unfold replayBlocksLength keysOffsetLength calloc redoLogBlockSize
  split_ifs with hblocks hkeys
  · omega
  · omega
  · exact Nat.zero_le _
  · exact le_refl _

theorem Access.UpTo.inBounds {hdr : RedoHeader} {k : Nat} {a : Access}
    (h : a.UpTo k) (hk : k < hdr.replayBlocksLength) : a.InBounds hdr := by
  have hle := hdr.replayBlocksLength_le
  cases a with
  | keysOffset i =>
      exact lt_of_le_of_lt h (lt_of_lt_of_le hk hle)
  | block i =>
      exact lt_of_le_of_lt h hk
  | tag i j =>
      exact ⟨lt_of_le_of_lt h.1 hk, h.2⟩

theorem loadsBlock_succ_iff {n : Nat} {r r₁ : Replay} (hload : loadKeyb r = .ok r₁) :
    LoadsBlock crc (n + 1) r ↔
      ∃ r₂, replayTags crc keysPerBlock 0 r₁ = .ok r₂ ∧
        LoadsBlock crc n { r₂ with keybCount := r₂.keybCount + 1 } := by
  unfold LoadsBlock
  rw [replayKeyBlocks, hload]
  simp only [ok_bind]
  constructor
  · rintro ⟨r', r'', hrun, hnext⟩
    obtain ⟨r₂, htags, hrest⟩ := ok_of_bind_eq_ok hrun
    exact ⟨r₂, htags, r', r'', hrest, hnext⟩
  · rintro ⟨r₂, htags, r', r'', hrest, hnext⟩
    refine ⟨r', r'', ?_, hnext⟩
    rw [htags]
    exact hrest

theorem not_loadsBlock_of_error {n : Nat} {r r' : Replay} (hload : loadKeyb r = .error r') :
    ¬ LoadsBlock crc n r := by
  rintro ⟨r₁, r₂, hrun, hnext⟩
  cases n with
  | zero =>
      cases hrun
      rw [hload] at hnext
      cases hnext
  | succ n =>
      rw [replayKeyBlocks, hload] at hrun
      cases hrun

theorem loadsBlock_zero {r : Replay} {bytes : Bytes} {world : World}
    (hread : r.world.pread .redo r.logOffset redoLogBlockSize = (some bytes, world)) :
    LoadsBlock crc 0 r := by
  have hload : ∃ r', loadKeyb r = .ok r' := by
    unfold loadKeyb
    rw [hread]
    exact ⟨_, rfl⟩
  obtain ⟨r', hr'⟩ := hload
  exact ⟨r, r', rfl, hr'⟩

theorem not_loadsBlock_of_fail {n : Nat} {r : Replay} {world : World}
    (hread : r.world.pread .redo r.logOffset redoLogBlockSize = (none, world)) :
    ¬ LoadsBlock crc n r := by
  have hload : ∃ r', loadKeyb r = .error r' := by
    unfold loadKeyb
    rw [hread]
    exact ⟨_, rfl⟩
  obtain ⟨r', hr'⟩ := hload
  exact not_loadsBlock_of_error hr'

/-- The loop over key blocks stays inside the arrays exactly if it ends, by its counter or
by a system call that fails, ahead of the key block for which there is no element. -/
theorem blocksAccesses_inside_iff {hdr : RedoHeader} {n : Nat} {r : Replay}
    (hbefore : r.BeginBefore) (hcount : r.keybCount ≤ hdr.replayBlocksLength) :
    (∀ a ∈ blocksAccesses crc n r, a.InBounds hdr) ↔
      r.keybCount + n ≤ hdr.replayBlocksLength ∨
        ¬ LoadsBlock crc (hdr.replayBlocksLength - r.keybCount) r := by
  induction n generalizing r with
  | zero =>
      exact ⟨fun _ => Or.inl hcount, fun _ a ha => by cases ha⟩
  | succ n ih =>
      rw [blocksAccesses]
      cases hload : loadKeyb r with
      | error r' =>
          exact ⟨fun _ => Or.inr (not_loadsBlock_of_error hload), fun _ a ha => by cases ha⟩
      | ok r₁ =>
          have hsame := sameBegin_loadKeyb hload
          have hbefore₁ := hbefore.same hsame
          simp only [andThen, List.mem_append, or_imp, forall_and]
          rcases Nat.lt_or_ge r.keybCount hdr.replayBlocksLength with hlt | hge
          · -- an element for this key block exists, and the rest of the loop decides
            have hloads : ∀ a ∈ loadAccesses r, a.InBounds hdr := by
              intro a ha
              exact (loadAccesses_upTo r a ha).inBounds hlt
            have htags : ∀ a ∈ tagsAccesses crc keysPerBlock 0 r₁, a.InBounds hdr := by
              intro a ha
              have hup := tagsAccesses_upTo (by omega) hbefore₁ a ha
              rw [hsame.2.2] at hup
              exact hup.inBounds hlt
            obtain ⟨m, hm⟩ : ∃ m, hdr.replayBlocksLength - r.keybCount = m + 1 :=
              ⟨hdr.replayBlocksLength - r.keybCount - 1, by omega⟩
            rw [hm, loadsBlock_succ_iff hload]
            cases hrun : replayTags crc keysPerBlock 0 r₁ with
            | error r' =>
                refine ⟨fun _ => Or.inr ?_, fun _ => ⟨⟨hloads, htags⟩, fun a ha => by cases ha⟩⟩
                rintro ⟨r₂, hr₂, _⟩
                cases hr₂
            | ok r₂ =>
                have hkept := beginBefore_replayTags (by omega) hbefore₁ hrun
                have hkeyb : r₂.keybCount = r.keybCount := hkept.2.trans hsame.2.2
                have hnext : Replay.BeginBefore { r₂ with keybCount := r₂.keybCount + 1 } :=
                  ⟨le_trans hkept.1.blk (Nat.le_succ _), hkept.1.idx⟩
                have hrest := ih hnext (show r₂.keybCount + 1 ≤ _ by omega)
                have hm' : hdr.replayBlocksLength - (r₂.keybCount + 1) = m := by omega
                have hsum : r₂.keybCount + 1 + n = r.keybCount + (n + 1) := by omega
                dsimp only at hrest
                rw [hm', hsum] at hrest
                refine ⟨fun h => ?_, fun h => ⟨⟨hloads, htags⟩, hrest.mpr ?_⟩⟩
                · refine (hrest.mp h.2).imp_right fun hno => ?_
                  rintro ⟨r₃, hr₃, hlater⟩
                  cases hr₃
                  exact hno hlater
                · exact h.imp_right fun hno hlater => hno ⟨r₂, rfl, hlater⟩
          · -- there is none, and the key block has been read
            have hzero : hdr.replayBlocksLength - r.keybCount = 0 := by omega
            rw [hzero]
            refine ⟨fun h => ?_, fun h => ?_⟩
            · have hout := h.1.1 (.block r.keybCount) (by simp [loadAccesses])
              exact absurd hout (Nat.not_lt.mpr hge)
            · rcases h with hle | hno
              · omega
              · exact absurd ⟨r, r₁, rfl, hload⟩ hno

theorem RedoHeader.clearAccesses_inside_iff (hdr : RedoHeader) :
    (∀ a ∈ hdr.clearAccesses, a.InBounds hdr) ↔ hdr.ClearsInside := by
  have hrange : ∀ m l : Nat, (∀ i < m, i < l) ↔ m ≤ l := by
    intro m l
    exact ⟨fun h => Nat.le_of_not_lt fun hlt => lt_irrefl l (h l hlt),
      fun h i hi => lt_of_lt_of_le hi h⟩
  unfold clearAccesses ClearsInside
  simp only [List.mem_append, List.mem_map, List.mem_range, or_imp, forall_and,
    forall_exists_index, and_imp, forall_apply_eq_imp_iff₂, Access.InBounds, hrange]

end Indices

section Replay

variable {crc : Bytes → UInt32}

/-- Every element that `rfsck_replay` uses exists. -/
def StaysInside (crc : Bytes → UInt32) (hdr : RedoHeader) (s : State) : Prop :=
  ∀ a ∈ replayAccesses crc s, a.InBounds hdr

theorem replayAccesses_of_finished {s : State} {bytes : Bytes} {world : World}
    (hread : s.world.pread .redo 0 redoHeaderSize = (some bytes, world))
    (hfinished : (readHeader s.world bytes).Finished crc) :
    replayAccesses crc s =
      (readHeader s.world bytes).clearAccesses ++
        blocksAccesses crc (readHeader s.world bytes).visited
          (startReplay (readHeader s.world bytes) bytes.length { s with world := world }) := by
  unfold replayAccesses
  rw [hread]
  dsimp only
  rw [if_neg (not_not.mpr hfinished.1), if_neg (not_not.mpr hfinished.2)]

/-- The loop of `rfsck_replay` from its first key block. -/
theorem startReplay_inside_iff {hdr : RedoHeader} (retval : Int) (s : State) :
    (∀ a ∈ blocksAccesses crc hdr.visited (startReplay hdr retval s), a.InBounds hdr) ↔
      hdr.visited ≤ hdr.replayBlocksLength ∨
        ¬ LoadsBlock crc hdr.replayBlocksLength (startReplay hdr retval s) := by
  have hbefore : (startReplay hdr retval s).BeginBefore :=
    ⟨le_refl 0, show 0 < keysPerBlock by decide⟩
  have hiff := @blocksAccesses_inside_iff crc hdr hdr.visited _ hbefore (Nat.zero_le _)
  have hcount : (startReplay hdr retval s).keybCount = 0 := rfl
  rw [hcount, Nat.zero_add, Nat.sub_zero] at hiff
  exact hiff

theorem not_staysInside_of_one_block {s : State} (hout : s.world.outcomes = [])
    (hfinished : s.world.header.Finished crc) (hkeys : s.world.header.numKeys = 0) :
    ¬ StaysInside crc s.world.header s := by
  intro hinside
  have hread : s.world.pread .redo 0 redoHeaderSize = (some _, s.world) :=
    World.pread_of_outcomes_nil hout .redo 0 redoHeaderSize
  unfold StaysInside at hinside
  rw [replayAccesses_of_finished hread hfinished] at hinside
  simp only [List.mem_append, or_imp, forall_and] at hinside
  have hlength : s.world.header.replayBlocksLength = 0 := by
    simp [RedoHeader.replayBlocksLength, calloc, hkeys]
  have hvisited : s.world.header.visited = 1 := by
    refine visited_of_numKeys (n := 0) ?_ (Nat.two_pow_pos 31)
    rw [hkeys]
    rfl
  have hloop := (startReplay_inside_iff _ _).mp hinside.2
  change s.world.header.visited ≤ s.world.header.replayBlocksLength ∨
    ¬ LoadsBlock crc s.world.header.replayBlocksLength _ at hloop
  rw [hlength, hvisited] at hloop
  rcases hloop with hle | hno
  · exact absurd hle (by decide)
  · exact hno (loadsBlock_zero (World.pread_of_outcomes_nil hout .redo _ _))

/-- The log of one empty transaction, as the library leaves it, under other outcomes of the
system calls to come. -/
def oneTxnLog (outcomes : List Outcome) : State :=
  { sealHistory crc32c [[]] (blankState crc32c) with
    world.outcomes := outcomes }

theorem oneTxnLog_header (outcomes : List Outcome) :
    (oneTxnLog outcomes).world.header.Finished crc32c ∧
      (oneTxnLog outcomes).world.header.numKeys = 0 := by
  obtain ⟨hsealed, _, _⟩ := (blankState_freshlyOpened crc32c).sealedLog (H := [[]]) (by
      intro ws hws req hreq
      rw [List.mem_singleton.mp hws] at hreq
      simp at hreq) (by decide) (by decide)
  have hheader : (oneTxnLog outcomes).world.header = _ := hsealed.log.header_eq
  rw [hheader]
  refine ⟨hsealed.log.finished, ?_⟩
  have hkeys := hsealed.numKeys_eq
  exact UInt64.toNat_inj.mp hkeys

end Replay

end Redo
end Rfsck
