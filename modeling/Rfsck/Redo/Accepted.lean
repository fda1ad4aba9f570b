import Rfsck.Redo.Session

/-!
# What an accepted write leaves in the log

`rfsck_write` may fail at any of its system calls, and so may the calls behind it.  A write
that was accepted is in the log nevertheless, and stays there:

* its data lie in a region of their own, below `log_offset` and outside the current key block;
* its tag is in a slot of an older key block, or in a slot of the current one that is in use.

A failed call may leave a part of its data behind `log_offset` and a stale tag in the next
slot, but neither is in the way of what is stored (`InLog.rfsckWrite`, `InLog.rfsckFlush`).
-/

namespace Rfsck
namespace Redo

open Storage

section Layout

/-- The place of a slot in a key block. -/
def slotPos (keyb j : Nat) : Nat :=
  keyb + redoBlockTagSize + redoBlockTagSize * j

theorem getElem?_encodeTags
    {ts : List RedoBlockTag} {j : Nat} {t : RedoBlockTag} (h : ts[j]? = some t) {i : Nat}
    (hi : i < redoBlockTagSize) :
    (encodeTags ts)[redoBlockTagSize * j + i]? = t.encode[i]? := by
  induction ts generalizing j with
  | nil =>
      simp at h
  | cons u ts ih =>
      have hcons : encodeTags (u :: ts) = u.encode ++ encodeTags ts := List.flatMap_cons
      rw [hcons]
      cases j with
      | zero =>
          cases h
          rw [Nat.mul_zero, Nat.zero_add, List.getElem?_append_left]
          rwa [RedoBlockTag.length_encode]
      | succ j =>
          rw [List.getElem?_append_right (by rw [RedoBlockTag.length_encode, Nat.mul_succ]; omega),
            RedoBlockTag.length_encode, ← ih h]
          congr 1
          rw [Nat.mul_succ]
          omega

theorem RedoBlock.getElem?_encode
    {kb : RedoBlock} {j : Nat} {t : RedoBlockTag} (h : kb.tags[j]? = some t) {i : Nat}
    (hi : i < redoBlockTagSize) :
    kb.encode[slotPos 0 j + i]? = t.encode[i]? := by
  have hhead : (le32 kb.magic ++ (le32 kb.crc ++ le64 kb.reserved)).length = redoBlockTagSize := by
    simp [redoBlockTagSize]
  have hencode : kb.encode =
      (le32 kb.magic ++ (le32 kb.crc ++ le64 kb.reserved)) ++ encodeTags kb.tags := by
    simp [RedoBlock.encode]
  rw [hencode, List.getElem?_append_right (by rw [hhead, slotPos]; omega), hhead,
    ← getElem?_encodeTags h hi]
  congr 1
  rw [slotPos]
  omega

theorem RedoBlock.agree
    {kb : RedoBlock} {j pos n : Nat} {t : RedoBlockTag} (h : kb.tags[j]? = some t) :
    ∀ i b c, t.encode[i]? = some b → pos ≤ slotPos pos j + i →
      (kb.encode.take n)[slotPos pos j + i - pos]? = some c → c = b := by
  intro i b c hb _ hc
  have hi : i < redoBlockTagSize := by
    rw [← RedoBlockTag.length_encode t]
    exact (List.getElem?_eq_some_iff.mp hb).1
  have hplace : slotPos pos j + i - pos = slotPos 0 j + i := by
    simp only [slotPos]
    omega
  rw [hplace, List.getElem?_take] at hc
  split_ifs at hc
  rw [RedoBlock.getElem?_encode h hi, hb] at hc
  cases hc
  rfl

theorem RedoBlock.holds_pwrite
    {kb : RedoBlock} {j : Nat} {t : RedoBlockTag} (h : kb.tags[j]? = some t) (f : ByteFile)
    (pos : Nat) : (f.pwrite pos kb.encode).Holds (slotPos pos j) t.encode := by
  intro i b hb
  have hi : i < redoBlockTagSize := by
    rw [← RedoBlockTag.length_encode t]
    exact (List.getElem?_eq_some_iff.mp hb).1
  have hat := RedoBlock.getElem?_encode h hi
  rw [hb] at hat
  have hplace : slotPos pos j + i = pos + (slotPos 0 j + i) := by
    simp only [slotPos]
    omega
  rw [hplace]
  exact ByteFile.holds_pwrite_self f pos kb.encode _ _ hat

end Layout

section World

/-- Whatever the outcome, a write puts a part of its buffer into the file, and the whole buffer
if it says so. -/
theorem World.pwrite_take (w : World) (fd : Fd) (off : Nat) (buf : Bytes) :
    ∃ n, (w.pwrite fd off buf).2.file fd = (w.file fd).pwrite off (buf.take n) ∧
      ((w.pwrite fd off buf).1 = buf.length → buf.take n = buf) := by
  unfold World.pwrite
  cases w.nextOutcome with
  | fail =>
      refine ⟨0, ?_, fun h => ?_⟩
      · rw [List.take_zero, ByteFile.pwrite_nil]
        rfl
      · dsimp only at h
        omega
  | short n =>
      refine ⟨min n maxRwCount, ?_, fun h => ?_⟩
      · rw [World.file_push, applyEvent_pwrite_self]
        rfl
      · exact List.take_of_length_le (by
          rw [← Int.ofNat_inj.mp h, List.length_take]
          exact Nat.min_le_left _ _)
  | ok =>
      refine ⟨maxRwCount, ?_, fun h => ?_⟩
      · rw [World.file_push, applyEvent_pwrite_self]
        rfl
      · exact List.take_of_length_le (by
          rw [← Int.ofNat_inj.mp h, List.length_take]
          exact Nat.min_le_left _ _)

end World

section InLog

variable {crc : Bytes → UInt32} {s : State} {req : WriteReq}

/-- The current key block lies below `log_offset`, and has a free slot. -/
structure State.Placed (s : State) : Prop where
  keyb_le : s.data.redoBlockOffset + redoLogBlockSize ≤ s.data.logOffset
  keysInBlock_lt : s.data.keysInBlock < keysPerBlock

/-- The log file holds the data of a write, and its tag in a slot of a key block. -/
def InLog (crc : Bytes → UInt32) (s : State) (req : WriteReq) : Prop :=
  (∃ pos, (s.world.file .redo).Holds pos req.buf ∧ pos + req.buf.length ≤ s.data.logOffset ∧
      (pos + req.buf.length ≤ s.data.redoBlockOffset ∨
        s.data.redoBlockOffset + redoLogBlockSize ≤ pos)) ∧
    ∃ keyb j, j < keysPerBlock ∧
      (s.world.file .redo).Holds (slotPos keyb j) (req.tag crc).encode ∧
      (keyb + redoLogBlockSize ≤ s.data.redoBlockOffset ∨
        keyb = s.data.redoBlockOffset ∧ j < s.data.keysInBlock ∧
          s.data.keyb.tags[j]? = some (req.tag crc))

theorem slotPos_lt {keyb j : Nat} (h : j < keysPerBlock) :
    slotPos keyb j + redoBlockTagSize ≤ keyb + redoLogBlockSize := by
  simp only [keysPerBlock_eq] at h
  simp only [slotPos, redoBlockTagSize, redoLogBlockSize]
  omega

theorem InLog.congr {s' : State} (h : InLog crc s req)
    (hfile : s'.world.file .redo = s.world.file .redo)
    (hkeyb : s'.data.redoBlockOffset = s.data.redoBlockOffset)
    (hlog : s.data.logOffset ≤ s'.data.logOffset)
    (hkeys : s.data.keysInBlock ≤ s'.data.keysInBlock)
    (htags : ∀ j, j < s.data.keysInBlock → s'.data.keyb.tags[j]? = s.data.keyb.tags[j]?) :
    InLog crc s' req := by
  obtain ⟨⟨pos, hholds, hle, hapart⟩, keyb, j, hj, htag, hplace⟩ := h
  refine ⟨⟨pos, ?_, le_trans hle hlog, ?_⟩, keyb, j, hj, ?_, ?_⟩
  · rwa [hfile]
  · rwa [hkeyb]
  · rwa [hfile]
  · rw [hkeyb]
    rcases hplace with hold | ⟨hcur, hlt, hat⟩
    · exact .inl hold
    · exact .inr ⟨hcur, lt_of_lt_of_le hlt hkeys, (htags j hlt).trans hat⟩

/-- Data behind `log_offset` are in nobody's way. -/
theorem InLog.pwrite_data (h : InLog crc s req) (hplaced : s.Placed) {w : World} {data : Bytes}
    (hw : w.file .redo = (s.world.file .redo).pwrite s.data.logOffset data) :
    InLog crc { s with world := w } req := by
  obtain ⟨⟨pos, hholds, hle, hapart⟩, keyb, j, hj, htag, hplace⟩ := h
  have hkeyb := hplaced.keyb_le
  have hslot := @slotPos_lt keyb j hj
  refine ⟨⟨pos, ?_, hle, hapart⟩, keyb, j, hj, ?_, hplace⟩
  · rw [hw]
    exact hholds.pwrite_of_disjoint (.inl hle)
  · rw [hw]
    apply htag.pwrite_of_disjoint
    left
    rw [RedoBlockTag.length_encode]
    rcases hplace with hold | ⟨hcur, -⟩
    · omega
    · omega

theorem InLog.pwrite_keyb (h : InLog crc s req) {w : World} {n : Nat}
    (hw : w.file .redo =
      (s.world.file .redo).pwrite s.data.redoBlockOffset (s.data.keyb.encode.take n)) :
    InLog crc { s with world := w } req := by
  obtain ⟨⟨pos, hholds, hle, hapart⟩, keyb, j, hj, htag, hplace⟩ := h
  have hlen : (s.data.keyb.encode.take n).length ≤ redoLogBlockSize := by
    rw [← RedoBlock.length_encode s.data.keyb]
    exact List.length_take_le' _ _
  have hslot := @slotPos_lt keyb j hj
  refine ⟨⟨pos, ?_, hle, hapart⟩, keyb, j, hj, ?_, hplace⟩
  · rw [hw]
    apply hholds.pwrite_of_disjoint
    omega
  · rw [hw]
    rcases hplace with hold | ⟨hcur, -, hat⟩
    · apply htag.pwrite_of_disjoint
      rw [RedoBlockTag.length_encode]
      omega
    · subst hcur
      exact htag.pwrite_of_agree (RedoBlock.agree hat)

theorem InLog.rollKeyb (h : InLog crc s req) (hplaced : s.data.redoBlockOffset + redoLogBlockSize ≤
    s.data.logOffset) : InLog crc (rollKeyb s) req := by
  unfold Redo.rollKeyb
  split_ifs with hfull
  · obtain ⟨⟨pos, hholds, hle, hapart⟩, keyb, j, hj, htag, hplace⟩ := h
    refine ⟨⟨pos, hholds, ?_, .inl hle⟩, keyb, j, hj, htag, .inl ?_⟩
    · dsimp only
      omega
    · dsimp only
      rcases hplace with hold | ⟨hcur, -⟩
      · omega
      · omega
  · exact h

theorem placed_rollKeyb {s : State} (hle : s.data.redoBlockOffset + redoLogBlockSize ≤
    s.data.logOffset) (hkeys : s.data.keysInBlock ≤ keysPerBlock) : (rollKeyb s).Placed := by
  unfold Redo.rollKeyb
  split_ifs with hfull
  · exact ⟨le_refl _, show 0 < keysPerBlock by decide⟩
  · exact ⟨hle, lt_of_le_of_ne hkeys hfull⟩

end InLog

section Calls

variable {crc : Bytes → UInt32} {s : State} {req : WriteReq}

/-- `write_info`, whatever the outcome. -/
theorem writeInfo_take (off : Nat) (buf : Bytes) (countOffset : Bool) (s : State) :
    ∃ n, (writeInfo .redo off buf countOffset s).2.world.file .redo =
        (s.world.file .redo).pwrite off (buf.take n) ∧
      ((writeInfo .redo off buf countOffset s).1 = 0 → buf.take n = buf ∧
        (writeInfo .redo off buf countOffset s).2.data =
          if countOffset then { s.data with logOffset := s.data.logOffset + buf.length }
          else s.data) ∧
      ((writeInfo .redo off buf countOffset s).1 ≠ 0 →
        (writeInfo .redo off buf countOffset s).2.data = s.data) := by
  obtain ⟨n, hfile, hwhole⟩ := World.pwrite_take s.world .redo off buf
  unfold writeInfo
  generalize s.world.pwrite .redo off buf = r at hfile hwhole ⊢
  obtain ⟨retval, w⟩ := r
  dsimp only at hfile hwhole ⊢
  refine ⟨n, ?_⟩
  by_cases hneg : retval < 0
  · rw [if_pos hneg]
    exact ⟨hfile, fun h => absurd h one_ne_zero, fun _ => rfl⟩
  rw [if_neg hneg]
  by_cases hne : retval ≠ buf.length
  · rw [if_pos hne]
    exact ⟨hfile, fun h => absurd h one_ne_zero, fun _ => rfl⟩
  rw [if_neg hne]
  cases countOffset with
  | true =>
      exact ⟨hfile, fun _ => ⟨hwhole (not_not.mp hne), rfl⟩, fun h => absurd rfl h⟩
  | false =>
      exact ⟨hfile, fun _ => ⟨hwhole (not_not.mp hne), rfl⟩, fun h => absurd rfl h⟩

/-- What one call keeps of the log. -/
structure KeepsLog (crc : Bytes → UInt32) (s s' : State) : Prop where
  placed : s.Placed → s'.Placed
  inLog : s.Placed → ∀ req, InLog crc s req → InLog crc s' req

theorem KeepsLog.trans {s' s'' : State} (h : KeepsLog crc s s') (h' : KeepsLog crc s' s'') :
    KeepsLog crc s s'' :=
  ⟨fun hs => h'.placed (h.placed hs), fun hs req hreq =>
    h'.inLog (h.placed hs) req (h.inLog hs req hreq)⟩

theorem keepsLog_of_fields {s' : State} (hworld : s'.world = s.world)
    (hkeyb : s'.data.redoBlockOffset = s.data.redoBlockOffset)
    (hlog : s'.data.logOffset = s.data.logOffset)
    (hkeys : s'.data.keysInBlock = s.data.keysInBlock)
    (htags : ∀ j, j < s.data.keysInBlock → s'.data.keyb.tags[j]? = s.data.keyb.tags[j]?) :
    KeepsLog crc s s' := by
  refine ⟨fun hs => ⟨?_, ?_⟩, fun _ req hreq => ?_⟩
  · rw [hkeyb, hlog]
    exact hs.keyb_le
  · rw [hkeys]
    exact hs.keysInBlock_lt
  · exact hreq.congr (by rw [hworld]) hkeyb (le_of_eq hlog.symm) (le_of_eq hkeys.symm) htags

theorem keepsLog_stampKeyb (s : State) : KeepsLog crc s (stampKeyb crc s) :=
  keepsLog_of_fields rfl rfl rfl rfl fun _ _ => rfl

theorem keepsLog_stampKeybReserved (s : State) : KeepsLog crc s (stampKeybReserved crc s) :=
  keepsLog_of_fields rfl rfl rfl rfl fun _ _ => rfl

theorem keepsLog_writeKeyb (s : State) : KeepsLog crc s (writeKeyb s).2 := by
  obtain ⟨n, hfile, hok, hfail⟩ := writeInfo_take s.data.redoBlockOffset s.data.keyb.encode false s
  have hdata : (writeKeyb s).2.data = s.data := by
    by_cases h : (writeKeyb s).1 = 0
    · exact (hok h).2
    · exact hfail h
  refine ⟨fun hs => ⟨by rw [hdata]; exact hs.keyb_le, by rw [hdata]; exact hs.keysInBlock_lt⟩,
    fun _ req hreq => ?_⟩
  refine (hreq.pwrite_keyb hfile).congr rfl ?_ ?_ ?_ ?_
  · rw [hdata]
  · rw [hdata]
  · rw [hdata]
  · intro j _
    rw [hdata]

theorem keepsLog_rfsckFlush (s : State) : KeepsLog crc s (rfsckFlush crc s).2 := by
  have hkeyb := (@keepsLog_stampKeyb crc s).trans (keepsLog_writeKeyb _)
  unfold rfsckFlush
  dsimp only
  split_ifs
  · exact hkeyb
  · refine hkeyb.trans ⟨fun hs => ⟨hs.keyb_le, hs.keysInBlock_lt⟩, fun _ req hreq => ?_⟩
    refine hreq.congr ?_ rfl (le_refl _) (le_refl _) fun _ _ => rfl
    unfold World.fsync
    split
    · rw [World.file_push, applyEvent_fsync]
      rfl
    · rfl

/-- The state of `rfsck_write` before its first system call. -/
def State.tagged (crc : Bytes → UInt32) (req : WriteReq) (s : State) : State :=
  { s.setTag (req.tag crc) with
    data.txnCsum := s.data.txnCsum ^^^ crc (req.tag crc).encode }

theorem keepsLog_tagged (req : WriteReq) (s : State) : KeepsLog crc s (s.tagged crc req) :=
  keepsLog_of_fields rfl rfl rfl rfl fun _ hj => List.getElem?_set_ne (Nat.ne_of_gt hj)

theorem tagged_tags (hs : s.Placed) :
    (s.tagged crc req).data.keyb.tags[s.data.keysInBlock]? = some (req.tag crc) := by
  have hlt : s.data.keysInBlock < s.data.keyb.tags.length := by
    rw [s.data.keyb.tags_length]
    exact hs.keysInBlock_lt
  exact List.getElem?_set_self hlt

theorem keepsLog_writeData (buf : Bytes) (s : State) :
    KeepsLog crc s (writeInfo .redo s.data.logOffset buf true s).2 := by
  obtain ⟨n, hfile, hok, hfail⟩ := writeInfo_take s.data.logOffset buf true s
  generalize writeInfo .redo s.data.logOffset buf true s = r at hfile hok hfail ⊢
  by_cases h : r.1 = 0
  · have hdata := (hok h).2
    rw [if_pos rfl] at hdata
    refine ⟨fun hs => ⟨?_, ?_⟩, fun hs req hreq => ?_⟩
    · have := hs.keyb_le
      rw [hdata]
      dsimp only
      omega
    · rw [hdata]
      exact hs.keysInBlock_lt
    · refine (hreq.pwrite_data hs hfile).congr rfl (by rw [hdata]) ?_ (by rw [hdata]) ?_
      · rw [hdata]
        exact Nat.le_add_right _ _
      · intro j _
        rw [hdata]
  · have hdata := hfail h
    refine ⟨fun hs => ⟨?_, ?_⟩, fun hs req hreq => ?_⟩
    · rw [hdata]
      exact hs.keyb_le
    · rw [hdata]
      exact hs.keysInBlock_lt
    · refine (hreq.pwrite_data hs hfile).congr rfl (by rw [hdata]) (by rw [hdata]) (by rw [hdata]) ?_
      intro j _
      rw [hdata]

theorem keepsLog_countTag (s : State) :
    KeepsLog crc s (rollKeyb { s with data.keysInBlock := s.data.keysInBlock + 1 }) := by
  refine ⟨fun hs => placed_rollKeyb hs.keyb_le hs.keysInBlock_lt, fun hs req hreq => ?_⟩
  refine InLog.rollKeyb ?_ hs.keyb_le
  exact hreq.congr rfl rfl (le_refl _) (Nat.le_succ _) fun _ _ => rfl

/-- The three stages of `rfsck_write`. -/
theorem rfsckWrite_stages (req : WriteReq) (s : State) :
    let r₁ := writeInfo .redo s.data.logOffset req.buf true (s.tagged crc req)
    let r₂ := writeKeyb (stampKeybReserved crc r₁.2)
    rfsckWrite crc req s =
      if r₁.1 ≠ 0 then r₁
      else if r₂.1 ≠ 0 then r₂
      else (0, rollKeyb { r₂.2 with data.keysInBlock := r₂.2.data.keysInBlock + 1 }) :=
  rfl

/-- **`rfsck_write`** keeps what is in the log, whatever fails. -/
theorem keepsLog_rfsckWrite (req : WriteReq) (s : State) :
    KeepsLog crc s (rfsckWrite crc req s).2 := by
  have hdata := (@keepsLog_tagged crc req s).trans
    (keepsLog_writeData req.buf (s.tagged crc req))
  have hkeyb := (hdata.trans (keepsLog_stampKeybReserved _)).trans (keepsLog_writeKeyb _)
  rw [rfsckWrite_stages]
  dsimp only
  split_ifs
  · exact hdata
  · exact hkeyb
  · exact hkeyb.trans (keepsLog_countTag _)

/-- **An accepted write is in the log.** -/
theorem inLog_rfsckWrite (hs : s.Placed) (hok : (rfsckWrite crc req s).1 = 0) :
    InLog crc (rfsckWrite crc req s).2 req := by
  rw [rfsckWrite_stages] at hok ⊢
  dsimp only at hok ⊢
  obtain ⟨n, hfile, hdata, -⟩ := writeInfo_take s.data.logOffset req.buf true (s.tagged crc req)
  generalize writeInfo .redo s.data.logOffset req.buf true (s.tagged crc req) = r₁
    at hok hfile hdata ⊢
  by_cases h₁ : r₁.1 ≠ 0
  · rw [if_pos h₁] at hok
    exact absurd hok h₁
  rw [if_neg h₁] at hok ⊢
  obtain ⟨htake, hdata⟩ := hdata (not_not.mp h₁)
  rw [htake] at hfile
  rw [if_pos rfl] at hdata
  generalize hs₃ : stampKeybReserved crc r₁.2 = s₃ at hok ⊢
  have hkeyb₃ : s₃.data.redoBlockOffset = s.data.redoBlockOffset := by
    rw [← hs₃, stampKeybReserved, hdata]
    rfl
  have hlog₃ : s₃.data.logOffset = s.data.logOffset + req.buf.length := by
    rw [← hs₃, stampKeybReserved, hdata]
    rfl
  have hkeys₃ : s₃.data.keysInBlock = s.data.keysInBlock := by
    rw [← hs₃, stampKeybReserved, hdata]
    rfl
  have htag₃ : s₃.data.keyb.tags[s.data.keysInBlock]? = some (req.tag crc) := by
    rw [← hs₃, stampKeybReserved, hdata]
    exact tagged_tags hs
  have hfile₃ : s₃.world.file .redo =
      (s.world.file .redo).pwrite s.data.logOffset req.buf := by
    rw [← hs₃]
    exact hfile
  obtain ⟨m, hfile₄, hdata₄, -⟩ := writeInfo_take s₃.data.redoBlockOffset s₃.data.keyb.encode false
    s₃
  by_cases h₂ : (writeKeyb s₃).1 ≠ 0
  · rw [if_pos h₂] at hok
    exact absurd hok h₂
  rw [if_neg h₂]
  obtain ⟨htake₄, hdata₄⟩ := hdata₄ (not_not.mp h₂)
  rw [htake₄, hfile₃] at hfile₄
  have hdata₄ : (writeKeyb s₃).2.data = s₃.data := hdata₄
  have hfile₄ : (writeKeyb s₃).2.world.file .redo =
      ((s.world.file .redo).pwrite s.data.logOffset req.buf).pwrite s₃.data.redoBlockOffset
        s₃.data.keyb.encode := hfile₄
  rw [hkeyb₃] at hfile₄
  generalize (writeKeyb s₃).2 = s₄ at hdata₄ hfile₄ ⊢
  have hplaced := hs.keyb_le
  have hlen := RedoBlock.length_encode s₃.data.keyb
  refine InLog.rollKeyb ⟨⟨s.data.logOffset, ?_, ?_, ?_⟩, s.data.redoBlockOffset,
    s.data.keysInBlock, hs.keysInBlock_lt, ?_, .inr ⟨?_, ?_, ?_⟩⟩ ?_
  · dsimp only
    rw [hfile₄]
    apply (ByteFile.holds_pwrite_self _ _ _).pwrite_of_disjoint
    omega
  · dsimp only
    rw [hdata₄]
    omega
  · dsimp only
    rw [hdata₄]
    omega
  · dsimp only
    rw [hfile₄]
    exact RedoBlock.holds_pwrite htag₃ _ _
  · dsimp only
    rw [hdata₄, hkeyb₃]
  · dsimp only
    rw [hdata₄]
    omega
  · dsimp only
    rw [hdata₄]
    exact htag₃
  · dsimp only
    rw [hdata₄]
    omega

end Calls

end Redo
end Rfsck
