import Rfsck.Undo.Session

/-!
# The undo manager keeps a ledger

The functions of the undo manager, without failing operations of their own, do what the steps
of the ledger allow.

* `Tracks` ties a state to a ledger: its extents are those in the undo file, and its marks are
  those of the bitmap.
* A round of `undo_write_tdb` is a `SaveStep`, the loop a sequence of them that marks every
  undo block of the walk, and a request changes the device afterwards at most.
* The operations that change the device may fail.
-/

namespace Rfsck
namespace Undo

open Storage
open Redo (fit length_fit fit_of_length Outcome maxRwCount)
open UnixIo (Errcode transferSize)

/-- The state of a session and its ledger. -/
structure Tracks (bs T off : Nat) (L : Ledger) (gs : List (List Extent)) (last : List Extent)
    (s : State Files) : Prop where
  session : Session bs T off gs last s
  extents : gs.flatten ++ last = L.extents
  device : s.sys.real.file = L.device
  marks : ∀ n, s.data.writtenBlockMap n = true ↔ L.Marked bs T off n
  described : L.extents ≠ [] → ∃ super, Described bs T off super s

section Backing

variable {bs T off n : Nat}

theorem toUnsigned_natCast {n : Nat} (h : n < 2 ^ 64) : toUnsigned n = n := by
  rw [toUnsigned]
  omega

theorem toLoff_natCast {n : Nat} (h : n < 2 ^ 63) : toLoff n = n :=
  Int.bmod_eq_of_le (by omega) (by omega)

theorem backingBlkNum_place (hs : Sizes bs T) (hoff : off / T ≤ n)
    (hlt : n * T + off % T < 2 ^ 63) :
    backingBlkNum bs T off n * bs + off = n * T + off % T := by
  obtain ⟨m, hm⟩ := hs.dvd
  obtain ⟨k, rfl⟩ := Nat.exists_eq_add_of_le hoff
  have hdiv := Nat.div_add_mod off T
  have hplace : (off / T + k) * T + off % T = k * T + off := by
    rw [Nat.add_mul, Nat.mul_comm (off / T)]
    omega
  rw [hplace] at hlt ⊢
  have hquot : k * T / bs = k * m := by
    rw [hm, Nat.mul_comm bs m, ← Nat.mul_assoc, Nat.mul_div_cancel _ hs.blockSize_pos]
  have hle : k * m ≤ k * T := by
    rw [← hquot]
    exact Nat.div_le_self _ _
  have hfits : k * m < 2 ^ 64 := by omega
  have hx : toLoff ((k * T + off : Nat) : Int) = (k * T + off : Nat) := toLoff_natCast hlt
  have ho : toLoff (off : Int) = off := toLoff_natCast (lt_of_le_of_lt (Nat.le_add_left _ _) hlt)
  have hsub : ((k * T + off : Nat) : Int) - off = (k * T : Nat) := by
    push_cast
    ring
  rw [backingBlkNum, hplace, hx, ho, hsub, ← Int.ofNat_tdiv, hquot,
    toUnsigned_natCast hfits, hm]
  ring

theorem transferCount_of_dvd (hs : Sizes bs T) : transferSize bs (transferCount bs T) = T := by
  rw [transferCount, if_pos (Nat.mod_eq_zero_of_dvd hs.dvd), transferSize,
    if_neg (not_lt.mpr (Int.natCast_nonneg _)), Int.toNat_natCast, Nat.div_mul_cancel hs.dvd]

end Backing

section Round

variable {bs T off n : Nat} {L : Ledger} {gs : List (List Extent)} {last : List Extent}
  {s : State Files}

theorem mark_writtenBlockMap (d : UndoPrivateData) (n m : Nat) :
    (d.mark n).writtenBlockMap m = true ↔ d.writtenBlockMap m = true ∨ m = n := by
  rw [UndoPrivateData.mark]
  by_cases hm : m = n
  · subst hm
    simp
  · simp [hm]

theorem Session.mark (h : Session bs T off gs last s) (n : Nat) :
    Session bs T off gs last { s with data := s.data.mark n } := by
  have hc := h.config
  have hw := h.stored
  exact ⟨h.sizes, ⟨hc.outcomes, hc.blockSize, hc.realBlockSize, hc.realOffset, hc.undoBlockSize,
    hc.undoOffset, hc.tdbWritten, hc.offset, hc.superBlkNum, hc.firstKeyBlk, hc.hdrBlockSize,
    hc.features⟩, ⟨⟨hw.tdbDataSize, hw.full, hw.room, hw.keyBlkNum, hw.undoBlkNum,
    hw.keysInBlock, hw.numKeys, hw.keyb, hw.length_keyb, hw.groups, hw.extents, hw.good⟩, hw.lt,
    hw.image⟩, h.hasSuper⟩

/-- The end of the device does not cut an undo block. -/
def Uncut (T off size n : Nat) : Prop :=
  n * T + off % T + T ≤ size ∨ size ≤ n * T + off % T ∧ n * T + off % T < 2 ^ 63

/-- **A round of the loop is a step of the ledger.** -/
theorem Tracks.saveBlock (h : Tracks bs T off L gs last s) (hoff : off / T ≤ n)
    (hsize : L.device.size < 2 ^ 63) (huncut : Uncut T off L.device.size n) (r : Errcode) :
    ∃ L' gs' last' r' s',
      saveBlock Files.realChannel Files.undoChannel n (r, s) = .next (r', s') ∧
      L.SaveStep bs T off n L' ∧ Tracks bs T off L' gs' last' s' ∧ Aside s s' ∧
      (n * T + off % T < L.device.size → r = .ok → r' = .ok) := by
  have hs := h.session.sizes
  have hc := h.session.config
  have hlt : n * T + off % T < 2 ^ 63 := by
    rcases huncut with hinside | ⟨-, hlt⟩
    · omega
    · exact hlt
  unfold Undo.saveBlock
  dsimp only
  split_ifs with hmap
  · exact ⟨L, gs, last, r, s, rfl, .known ((h.marks n).mp hmap), h, ⟨rfl, rfl⟩, fun _ hr => hr⟩
  have hfresh : ¬ L.Marked bs T off n := fun hm => hmap ((h.marks n).mpr hm)
  have hmarked := h.session.mark n
  have hquiet : s.sys.outcomes = [] := hc.outcomes
  have hplace : s.sys.real.place (backingBlkNum s.blockSize (s.data.mark n).tdbDataSize
      (s.data.mark n).offset n) = n * T + off % T := by
    rw [FileChannel.place, hc.realBlockSize, hc.realOffset, hc.blockSize,
      show (s.data.mark n).tdbDataSize = T from h.session.stored.tdbDataSize,
      show (s.data.mark n).offset = off from hc.offset]
    exact backingBlkNum_place hs hoff hlt
  have hcount : transferSize s.sys.real.blockSize
      (transferCount s.blockSize (s.data.mark n).tdbDataSize) = T := by
    rw [hc.realBlockSize, hc.blockSize,
      show (s.data.mark n).tdbDataSize = T from h.session.stored.tdbDataSize]
    exact transferCount_of_dvd hs
  generalize hbacking : backingBlkNum s.blockSize (s.data.mark n).tdbDataSize
    (s.data.mark n).offset n = backing at hplace
  have hread := Files.readReal_of_quiet hquiet backing
    (transferCount s.blockSize (s.data.mark n).tdbDataSize)
  rw [hread]
  rcases huncut with hinside | ⟨hbeyond, -⟩
  · have hbytes := @FileChannel.readUpTo_inside s.sys.real maxRwCount backing
      (transferCount s.blockSize (s.data.mark n).tdbDataSize)
      (by rw [hcount]; exact hs.le_maxRwCount)
      (by rw [hcount, hplace, h.device]; exact hinside)
    rw [hbytes, hcount, hplace]
    dsimp only
    have hlen : (s.sys.real.file.pread (n * T + off % T) T).length = T := by
      rw [h.device]
      exact length_pread_of_le hinside
    have hdev : backing * bs + off = n * T + off % T := by
      rw [← hplace, FileChannel.place, hc.realBlockSize, hc.realOffset]
    have hend : backing * bs + T < 2 ^ 63 := by omega
    obtain ⟨gs', last', s', hstore, hsaves, hsession, hdescribed, haside, hmap'⟩ :=
      hmarked.storeBlock hlen hend
    have hstep : L.SaveStep bs T off n { L with extents := gs'.flatten ++ last' } := by
      refine .save hfresh hinside hdev ?_
      rw [← h.extents, ← h.device]
      exact hsaves
    refine ⟨_, gs', last', .ok, s', hstore, hstep, ⟨hsession, rfl, ?_, ?_, fun _ => ⟨_, hdescribed⟩⟩,
      ⟨haside.real, haside.requests⟩, fun _ _ => rfl⟩
    · rw [haside.real]
      exact h.device
    · intro m
      rw [hmap', hstep.marked_iff hs.tdbDataSize_pos, ← h.marks]
      exact mark_writtenBlockMap s.data n m
  · have hbytes := @FileChannel.readUpTo_beyond s.sys.real maxRwCount backing
      (transferCount s.blockSize (s.data.mark n).tdbDataSize)
      (by rw [hcount]; exact hs.tdbDataSize_pos)
      (by rw [hplace, h.device]; exact hbeyond)
    rw [hbytes]
    have hstep : L.SaveStep bs T off n { L with skipped := insert n L.skipped } :=
      .skip hfresh hbeyond
    refine ⟨_, gs, last, .shortRead, _, rfl, hstep,
      ⟨hmarked, h.extents, h.device, ?_, fun hne => ?_⟩, ⟨rfl, rfl⟩, fun hlt _ => by omega⟩
    · intro m
      rw [hstep.marked_iff hs.tdbDataSize_pos, ← h.marks]
      exact mark_writtenBlockMap s.data n m
    · obtain ⟨super, hd⟩ := h.described hne
      exact ⟨super, hd.congr rfl rfl rfl⟩

/-- **The loop marks every block of its range.** -/
theorem Tracks.saveBlocks (h : Tracks bs T off L gs last s) {blockNum endBlock : Nat}
    (hend : endBlock + 1 < 2 ^ 64)
    (hoff : ∀ n, blockNum ≤ n → n ≤ endBlock → off / T ≤ n)
    (hsize : L.device.size < 2 ^ 63)
    (huncut : ∀ n, blockNum ≤ n → n ≤ endBlock → Uncut T off L.device.size n) (r : Errcode) :
    ∃ L' gs' last' r' s',
      saveBlocks Files.realChannel Files.undoChannel blockNum endBlock (r, s) = (r', s') ∧
      L.Saving bs T off L' ∧ Tracks bs T off L' gs' last' s' ∧ Aside s s' ∧
      (∀ n, L'.Marked bs T off n ↔ L.Marked bs T off n ∨ blockNum ≤ n ∧ n ≤ endBlock) ∧
      ((∀ n, blockNum ≤ n → n ≤ endBlock → n * T + off % T < L.device.size) →
        r = .ok → r' = .ok) := by
  have hpos := h.session.sizes.tdbDataSize_pos
  let P : Nat → Errcode × State Files → Prop := fun n q =>
    blockNum ≤ n ∧ (n ≤ endBlock + 1 ∨ n = blockNum) ∧
      ∃ L' gs' last', L.Saving bs T off L' ∧ Tracks bs T off L' gs' last' q.2 ∧ Aside s q.2 ∧
        (∀ m, L'.Marked bs T off m ↔ L.Marked bs T off m ∨ blockNum ≤ m ∧ m < n) ∧
        ((∀ n, blockNum ≤ n → n ≤ endBlock → n * T + off % T < L.device.size) →
          r = .ok → q.1 = .ok)
  have hstep : ∀ n r, n ≤ endBlock → P n r → ∃ r',
      Undo.saveBlock Files.realChannel Files.undoChannel n r = .next r' ∧ P (n + 1) r' := by
    rintro n ⟨r₁, s₁⟩ hn ⟨hle, -, L₁, gs₁, last₁, hsaving, htracks, haside, hmarked, hok⟩
    have hdev := hsaving.device_eq
    obtain ⟨L₂, gs₂, last₂, r₂, s₂, hround, hone, htracks₂, haside₂, hok₂⟩ :=
      htracks.saveBlock (hoff n hle hn) (by rw [hdev]; exact hsize)
        (by rw [hdev]; exact huncut n hle hn) r₁
    rw [hdev] at hok₂
    refine ⟨(r₂, s₂), hround, by omega, Or.inl (by omega), L₂, gs₂, last₂,
      hsaving.tail ⟨n, hone⟩, htracks₂,
      ⟨haside₂.real.trans haside.real, haside₂.requests.trans haside.requests⟩, ?_,
      fun hinside hr => hok₂ (hinside n hle hn) (hok hinside hr)⟩
    intro m
    rw [hone.marked_iff hpos, hmarked, or_assoc]
    refine or_congr Iff.rfl ?_
    omega
  have hrounds : endBlock + 2 - blockNum = 0 ∨
      ∃ k, endBlock + 2 - blockNum = k + 1 ∧ endBlock + 1 ≤ blockNum + k := by
    rcases Nat.eq_zero_or_pos (endBlock + 2 - blockNum) with hzero | hpos
    · exact Or.inl hzero
    · exact Or.inr ⟨endBlock + 1 - blockNum, by omega, by omega⟩
  have hnone : ∀ m, L.Marked bs T off m ↔
      L.Marked bs T off m ∨ blockNum ≤ m ∧ m < blockNum := by
    intro m
    rw [iff_self_or]
    omega
  unfold Undo.saveBlocks
  rcases hrounds with hzero | ⟨k, hk, hle⟩
  · rw [hzero]
    refine ⟨L, gs, last, r, s, rfl, .refl, h, ⟨rfl, rfl⟩, fun m => ?_, fun _ hr => hr⟩
    rw [iff_self_or]
    omega
  · obtain ⟨⟨r', s'⟩, n, hrun, hn, -, hlast, L', gs', last', hsaving, htracks, haside, hmarked,
      hok⟩ := whileBlocks_rule hend hstep k blockNum (r, s) hle
        ⟨le_refl _, Or.inr rfl, L, gs, last, .refl, h, ⟨rfl, rfl⟩, hnone, fun _ hr => hr⟩
    rw [hk, hrun]
    refine ⟨L', gs', last', r', s', rfl, hsaving, htracks, haside, fun m => ?_, hok⟩
    rw [hmarked m]
    refine or_congr Iff.rfl ?_
    omega

end Round

section Setup

variable {bs T off : Nat} {s : State Files}

/-- Another key block in memory and another content of the undo file. -/
def State.withKeyb (kb : UndoKeyBlock) (f : ByteFile) (s : State Files) : State Files :=
  { s with data.keyb := kb, sys.undoFile.file := f }

theorem setupBlock_of_quiet (h : s.sys.outcomes = [])
    (hsize : s.sys.undoFile.blockSize ≤ maxRwCount) (i : Nat) :
    ∃ kb f, setupBlock Files.undoChannel i s = (.ok, s.withKeyb kb f) := by
  have hput : ∀ block : Bytes, ∃ f, Files.undoChannel.writeBlk64 i 1 block s.sys =
      (.ok, (s.withKeyb (.decode block) f).sys) := by
    intro block
    rw [Files.writeUndo_of_quiet h _ _ (by rwa [transferSize_block])]
    exact ⟨_, rfl⟩
  have hflush : ∀ kb f, Files.undoChannel.flush (s.withKeyb kb f).sys =
      (.ok, (s.withKeyb kb f).sys) := fun kb f => Files.flushUndo_of_quiet h
  unfold setupBlock
  rw [Files.readUndo_of_quiet h]
  cases s.sys.undoFile.readUpTo maxRwCount i 1 with
  | ok bytes =>
      obtain ⟨f, hf⟩ := hput bytes
      refine ⟨.decode bytes, f, ?_⟩
      simp only [hf, hflush]
      rfl
  | error e =>
      obtain ⟨f, hf⟩ := hput (List.replicate s.data.tdbDataSize 0)
      refine ⟨.decode (List.replicate s.data.tdbDataSize 0), f, ?_⟩
      simp only [hf, hflush]
      rfl

theorem setupBlocks_of_quiet (is : List Nat) (h : s.sys.outcomes = [])
    (hsize : s.sys.undoFile.blockSize ≤ maxRwCount) :
    ∃ kb f, setupBlocks Files.undoChannel is s = (.ok, s.withKeyb kb f) := by
  induction is generalizing s with
  | nil =>
      exact ⟨s.data.keyb, s.sys.undoFile.file, rfl⟩
  | cons i is ih =>
      obtain ⟨kb, f, hone⟩ := setupBlock_of_quiet h hsize i
      obtain ⟨kb', f', hrest⟩ := @ih (s.withKeyb kb f) h hsize
      rw [setupBlocks, hone]
      exact ⟨kb', f', hrest⟩

/-- A channel on which nothing has been saved yet. -/
structure Fresh (bs T off : Nat) (s : State Files) : Prop where
  sizes : Sizes bs T
  outcomes : s.sys.outcomes = []
  blockSize : s.blockSize = bs
  realBlockSize : s.sys.real.blockSize = bs
  realOffset : s.sys.real.offset = off
  undoOffset : s.sys.undoFile.offset = 0
  data : ∃ w : Int, w ≠ 1 ∧
    s.data = { UndoPrivateData.init with tdbDataSize := T, tdbWritten := w, offset := off }
  hasSuper : s.sys.HasSuper

/-- The state before the loop of `undo_setup_tdb`. -/
def State.setUp (s : State Files) : State Files :=
  { s with
    data.tdbWritten := 1
    data.writtenBlockMap := fun _ => false
    data.keyBlkNum := s.data.firstKeyBlk
    data.hdr.blockSize := UInt32.ofNat s.data.tdbDataSize
    sys.undoFile.blockSize := s.data.tdbDataSize }

theorem undoSetupTdb_of_quiet (h : s.sys.outcomes = []) (hsize : s.data.tdbDataSize ≤ maxRwCount)
    (hnew : s.data.tdbWritten ≠ 1) :
    ∃ f, undoSetupTdb Files.undoChannel s =
      (.ok, s.setUp.withKeyb (.zero s.data.tdbDataSize) f) := by
  obtain ⟨kb, f, hblocks⟩ := @setupBlocks_of_quiet s.setUp [0, 1, 2] h hsize
  refine ⟨f, ?_⟩
  unfold undoSetupTdb
  rw [if_neg hnew]
  have hstate : ({ s with
      data.tdbWritten := 1
      data.writtenBlockMap := fun _ => false
      data.keyBlkNum := s.data.firstKeyBlk
      data.hdr.blockSize := UInt32.ofNat s.data.tdbDataSize
      sys := Files.undoChannel.setBlksize s.data.tdbDataSize s.sys } : State Files) = s.setUp :=
    rfl
  rw [hstate]
  dsimp only
  rw [hblocks]
  rfl

/-- **The undo file is set up.** -/
theorem Fresh.undoSetupTdb (h : Fresh bs T off s) :
    ∃ s', undoSetupTdb Files.undoChannel s = (.ok, s') ∧
      Tracks bs T off ⟨s.sys.real.file, [], ∅⟩ [] [] s' ∧ Aside s s' := by
  obtain ⟨w, hw, hdata⟩ := h.data
  have hT : s.data.tdbDataSize = T := by
    rw [hdata]
  have hge := h.sizes.tdbDataSize_ge
  rw [e2undoMinBlockSize] at hge
  obtain ⟨f, hsetup⟩ := undoSetupTdb_of_quiet h.outcomes (by rw [hT]; exact h.sizes.le_maxRwCount)
    (by rw [hdata]; exact hw)
  refine ⟨_, hsetup, ⟨⟨h.sizes, ?_, ?_, h.hasSuper⟩, rfl, rfl, ?_, fun hne => absurd rfl hne⟩,
    ⟨rfl, rfl⟩⟩
  · rw [State.setUp, hdata]
    exact ⟨h.outcomes, h.blockSize, h.realBlockSize, h.realOffset, rfl, h.undoOffset, rfl, rfl,
      rfl, rfl, rfl, ⟨rfl, rfl⟩⟩
  · rw [State.setUp, hdata]
    refine ⟨⟨rfl, ?_, Nat.zero_le _, rfl, rfl, rfl, rfl, UndoKeyBlock.starts_nil _, ?_, trivial,
      trivial, ?_⟩, keysPerBlock_pos h.sizes.tdbDataSize_le h.sizes.tdbDataSize_ge,
      fun hne => absurd rfl hne⟩
    · intro g hg
      simp at hg
    · show (UndoKeyBlock.zero T).keys.length + 16 = T
      rw [UndoKeyBlock.length_keys_zero]
      omega
    · intro e he
      simp at he
  · intro n
    have hfalse : (s.setUp.withKeyb (.zero s.data.tdbDataSize) f).data.writtenBlockMap n =
        false := rfl
    rw [hfalse]
    simp [Ledger.Marked]

theorem Session.undoSetupTdb {gs : List (List Extent)} {last : List Extent}
    (h : Session bs T off gs last s) : undoSetupTdb Files.undoChannel s = (.ok, s) := by
  unfold Undo.undoSetupTdb
  rw [if_pos h.config.tdbWritten]

/-- The ledger of a channel, from its preparation on. -/
def Ready (bs T off : Nat) (L : Ledger) (s : State Files) : Prop :=
  (Fresh bs T off s ∧ L = ⟨s.sys.real.file, [], ∅⟩) ∨ ∃ gs last, Tracks bs T off L gs last s

theorem Ready.undoSetupTdb {L : Ledger} (h : Ready bs T off L s) :
    ∃ gs last s', undoSetupTdb Files.undoChannel s = (.ok, s') ∧
      Tracks bs T off L gs last s' ∧ Aside s s' ∧ s'.blockSize = bs ∧ s.blockSize = bs := by
  rcases h with ⟨hfresh, rfl⟩ | ⟨gs, last, htracks⟩
  · obtain ⟨s', hsetup, htracks, haside⟩ := hfresh.undoSetupTdb
    exact ⟨[], [], s', hsetup, htracks, haside, htracks.session.config.blockSize,
      hfresh.blockSize⟩
  · exact ⟨gs, last, s, htracks.session.undoSetupTdb, htracks, ⟨rfl, rfl⟩,
      htracks.session.config.blockSize, htracks.session.config.blockSize⟩

/-- The channel that a caller prepares with its options. -/
def started (bs T off : Nat) (sys : Files) : State Files :=
  (undoSetOffset Files.realChannel off
    (undoSetBlksize Files.realChannel bs (undoSetTdbDataSize T (opened sys)).2).2).2

theorem fresh_started {sys : Files} (hs : Sizes bs T) (hbs : e2undoMinBlockSize ≤ bs)
    (houtcomes : sys.outcomes = []) (hundo : sys.undoFile.offset = 0)
    (hsuper : superblockOffset + off + superblockSize ≤ sys.real.file.size) :
    Fresh bs T off (started bs T off sys) ∧
      (started bs T off sys).sys.real.file = sys.real.file ∧
      (started bs T off sys).sys.requests = sys.requests := by
  have hle : bs ≤ e2undoMaxBlockSize :=
    le_trans (Nat.le_of_dvd hs.tdbDataSize_pos hs.dvd) hs.tdbDataSize_le
  have hsize : undoSetTdbDataSize T (opened sys) =
      (.ok, { opened sys with data.tdbWritten := -1, data.tdbDataSize := T }) := by
    unfold undoSetTdbDataSize
    rw [if_neg (by have := hs.tdbDataSize_ge; have := hs.tdbDataSize_le; omega), if_pos]
    exact Or.inl rfl
  have hblk : undoSetBlksize Files.realChannel bs (undoSetTdbDataSize T (opened sys)).2 =
      (.ok, { opened sys with
        blockSize := bs
        data.tdbWritten := -1
        data.tdbDataSize := T
        sys := Files.realChannel.setBlksize bs sys }) := by
    have hpos := hs.tdbDataSize_pos
    rw [hsize]
    unfold undoSetBlksize
    rw [if_neg (by omega)]
    dsimp only
    rw [if_neg (by simp; omega)]
    rfl
  have hstarted : started bs T off sys =
      { opened sys with
        blockSize := bs
        data.tdbWritten := -1
        data.tdbDataSize := T
        data.offset := off
        sys := Files.realChannel.setOffset off (Files.realChannel.setBlksize bs sys) } := by
    rw [started, hblk]
    rfl
  rw [hstarted]
  exact ⟨⟨hs, houtcomes, rfl, rfl, rfl, hundo, ⟨-1, by decide, rfl⟩, hsuper⟩, rfl, rfl⟩

end Setup

section Requests

/-- Where the bytes of a request are on the device: the first one, and how many. -/
def Call.target (bs off : Nat) : Call → Nat × Nat
  | .writeBlk64 block count _ => (block * bs + off, transferSize bs count)
  | .writeByte position buf => (position + off, buf.length)
  | .discard block count => (block * bs + off, count * bs)
  | .zeroout block count => (block * bs + off, count * bs)

/-- A file that has changed in a range only, and got longer at most. -/
structure Changes (lo len : Nat) (f g : ByteFile) : Prop where
  size_le : f.size ≤ g.size
  size_eq : lo + len ≤ f.size → g.size = f.size
  byte_eq : ∀ x, x < lo ∨ lo + len ≤ x → g.byte x = f.byte x

theorem changes_refl (lo len : Nat) (f : ByteFile) : Changes lo len f f :=
  ⟨le_refl _, fun _ => rfl, fun _ _ => rfl⟩

theorem changes_pwrite {lo len : Nat} {buf : Bytes} (hbuf : buf.length ≤ len) (f : ByteFile) :
    Changes lo len f (f.pwrite lo buf) := by
  refine ⟨f.size_le_size_pwrite _ _, ?_, ?_⟩
  · intro hle
    rw [ByteFile.size_pwrite]
    split_ifs
    · rfl
    · omega
  · intro x hx
    exact f.byte_pwrite_of_outside (by omega)

section Device

variable (outcome : Outcome) (c : FileChannel)

theorem FileChannel.changes_writeBlk64 (block : Nat) (count : Int) (buf : Bytes) :
    ∃ g, (c.writeBlk64 outcome block count buf).2 = { c with file := g } ∧
      Changes (c.place block) (transferSize c.blockSize count) c.file g := by
  unfold writeBlk64
  cases limit outcome with
  | none =>
      exact ⟨c.file, rfl, changes_refl _ _ _⟩
  | some n =>
      refine ⟨_, rfl, changes_pwrite ?_ _⟩
      rw [List.length_take, length_fit]
      exact Nat.min_le_right _ _

theorem FileChannel.changes_writeByte (position : Nat) (buf : Bytes) :
    ∃ g, (c.writeByte outcome position buf).2 = { c with file := g } ∧
      Changes (position + c.offset) buf.length c.file g := by
  unfold writeByte
  cases limit outcome with
  | none =>
      exact ⟨c.file, rfl, changes_refl _ _ _⟩
  | some n =>
      refine ⟨_, rfl, changes_pwrite ?_ _⟩
      rw [List.length_take]
      exact Nat.min_le_right _ _

theorem FileChannel.changes_discard (block count : Nat) :
    ∃ g, (c.discard outcome block count).2 = { c with file := g } ∧
      Changes (c.place block) (count * c.blockSize) c.file g := by
  cases outcome with
  | ok =>
      refine ⟨_, rfl, le_refl _, fun _ => rfl, ?_⟩
      intro x hx
      exact if_neg (by omega)
  | short n =>
      exact ⟨c.file, rfl, changes_refl _ _ _⟩
  | fail =>
      exact ⟨c.file, rfl, changes_refl _ _ _⟩

theorem FileChannel.changes_zeroout (block count : Nat) :
    ∃ g, (c.zeroout outcome block count).2 = { c with file := g } ∧
      Changes (c.place block) (count * c.blockSize) c.file g := by
  cases outcome with
  | ok =>
      exact ⟨_, rfl, changes_pwrite (by rw [List.length_replicate]) _⟩
  | short n =>
      exact ⟨c.file, rfl, changes_refl _ _ _⟩
  | fail =>
      exact ⟨c.file, rfl, changes_refl _ _ _⟩

end Device

variable {bs T off : Nat}

theorem changes_passOn (c : Call) {s : Files} (hbs : s.real.blockSize = bs)
    (hoff : s.real.offset = off) :
    ∃ g requests, (c.passOn Files.realChannel s).2 =
        { s with real.file := g, requests := requests } ∧
      Changes (c.target bs off).1 (c.target bs off).2 s.real.file g := by
  subst hbs hoff
  have honReal : ∀ (f : Outcome → FileChannel → Errcode × FileChannel) {g : ByteFile},
      (f (s.requests.headD .ok) s.real).2 = { s.real with file := g } →
      (s.onReal f).2 = { s with real.file := g, requests := s.requests.tail } := by
    intro f g hf
    show ({ s with real := (f (s.requests.headD .ok) s.real).2, requests := _ } : Files) = _
    rw [hf]
  cases c with
  | writeBlk64 block count buf =>
      obtain ⟨g, hg, hchanges⟩ := s.real.changes_writeBlk64 (s.requests.headD .ok) block count buf
      exact ⟨g, _, honReal (FileChannel.writeBlk64 · block count buf) hg, hchanges⟩
  | writeByte position buf =>
      obtain ⟨g, hg, hchanges⟩ := s.real.changes_writeByte (s.requests.headD .ok) position buf
      exact ⟨g, _, honReal (FileChannel.writeByte · position buf) hg, hchanges⟩
  | discard block count =>
      obtain ⟨g, hg, hchanges⟩ := s.real.changes_discard (s.requests.headD .ok) block count
      exact ⟨g, _, honReal (FileChannel.discard · block count) hg, hchanges⟩
  | zeroout block count =>
      obtain ⟨g, hg, hchanges⟩ := s.real.changes_zeroout (s.requests.headD .ok) block count
      exact ⟨g, _, honReal (FileChannel.zeroout · block count) hg, hchanges⟩

/-- The undo block is one of those that the walk of a request visits. -/
def Call.Walks (bs T off : Nat) (c : Call) (n : Nat) : Prop :=
  tdbBlockNum T (tdbOffset bs (c.handed bs off).1 off) ≤ n ∧
    n ≤ tdbEndBlock T (tdbOffset bs (c.handed bs off).1 off) (tdbSize bs (c.handed bs off).2)

/-- A request that comes to the walk, on a device of a given size that does not end inside an
undo block of it. -/
structure Call.Fits (bs T off size : Nat) (c : Call) : Prop where
  count_lt : (c.handed bs off).2 < 2 ^ 31
  offset_le : ∀ n, c.Walks bs T off n → off / T ≤ n
  uncut : ∀ n, c.Walks bs T off n → Uncut T off size n

variable {L : Ledger} {s : State Files} {c : Call}

/-- **`undo_write_tdb` enters every undo block of the request into the ledger.** -/
theorem Ready.undoWriteTdb (h : Ready bs T off L s) (hsize : L.device.size < 2 ^ 63)
    (hfits : c.Fits bs T off L.device.size) :
    ∃ L' gs last r s',
      undoWriteTdb Files.realChannel Files.undoChannel (c.handed bs off).1 (c.handed bs off).2 s =
        (r, s') ∧
      L.Saving bs T off L' ∧ Tracks bs T off L' gs last s' ∧ Aside s s' ∧
      (∀ n, L'.Marked bs T off n ↔ L.Marked bs T off n ∨ c.Walks bs T off n) ∧
      ((∀ n, c.Walks bs T off n → n * T + off % T < L.device.size) → r = .ok) := by
  obtain ⟨gs, last, s₁, hsetup, htracks, haside, hblk₁, hblk⟩ := h.undoSetupTdb
  have hsession := htracks.session
  have hend := tdbEndBlock_lt hsession.sizes.tdbDataSize_ge
    (tdbOffset bs (c.handed bs off).1 off) (tdbSize bs (c.handed bs off).2)
  obtain ⟨L', gs', last', r, s', hrun, hsaving, htracks', haside', hmarked, hok⟩ :=
    htracks.saveBlocks hend (fun n hn hn' => hfits.offset_le n ⟨hn, hn'⟩) hsize
      (fun n hn hn' => hfits.uncut n ⟨hn, hn'⟩) .ok
  refine ⟨L', gs', last', r, s', ?_, hsaving, htracks', ⟨haside'.real.trans haside.real,
    haside'.requests.trans haside.requests⟩, hmarked,
    fun hinside => hok (fun n hn hn' => hinside n ⟨hn, hn'⟩) rfl⟩
  unfold Undo.undoWriteTdb
  rw [hsetup]
  dsimp only
  rw [hblk₁, hblk, hsession.config.offset, hsession.stored.tdbDataSize]
  exact hrun

theorem Tracks.change {gs : List (List Extent)} {last : List Extent}
    (h : Tracks bs T off L gs last s) {g : ByteFile} (hsize : L.device.size ≤ g.size)
    (requests : List Outcome) :
    Tracks bs T off { L with device := g } gs last
      { s with sys.real.file := g, sys.requests := requests } := by
  have hs := h.session
  have hc := hs.config
  have hsuper := hs.hasSuper
  rw [Files.HasSuper, h.device] at hsuper
  refine ⟨⟨hs.sizes, ⟨hc.outcomes, hc.blockSize, hc.realBlockSize, hc.realOffset,
    hc.undoBlockSize, hc.undoOffset, hc.tdbWritten, hc.offset, hc.superBlkNum, hc.firstKeyBlk,
    hc.hdrBlockSize, hc.features⟩, hs.stored, le_trans hsuper hsize⟩, h.extents, rfl, h.marks,
    fun hne => ?_⟩
  obtain ⟨super, hd⟩ := h.described hne
  exact ⟨super, hd.congr rfl rfl rfl⟩

theorem Ready.settings (h : Ready bs T off L s) : s.blockSize = bs ∧ s.data.offset = off := by
  rcases h with ⟨hfresh, -⟩ | ⟨gs, last, htracks⟩
  · obtain ⟨w, -, hdata⟩ := hfresh.data
    exact ⟨hfresh.blockSize, by rw [hdata]⟩
  · exact ⟨htracks.session.config.blockSize, htracks.session.config.offset⟩

/-- **A request**: its undo blocks are entered into the ledger, and then the device changes
where the request says, if at all. -/
theorem Ready.run (h : Ready bs T off L s) (hsize : L.device.size < 2 ^ 63)
    (hfits : c.Fits bs T off L.device.size) :
    ∃ L' gs last, L.Saving bs T off { L' with device := L.device } ∧
      (∀ n, L'.Marked bs T off n ↔ L.Marked bs T off n ∨ c.Walks bs T off n) ∧
      Changes (c.target bs off).1 (c.target bs off).2 L.device L'.device ∧
      Tracks bs T off L' gs last (c.run Files.realChannel Files.undoChannel s).2 := by
  obtain ⟨L', gs, last, r, s', hsaved, hsaving, htracks, -, hmarked, -⟩ :=
    h.undoWriteTdb hsize hfits
  obtain ⟨hblk, hoff⟩ := h.settings
  have hdevice := hsaving.device_eq
  have hrun := c.run_eq Files.realChannel Files.undoChannel (s := s)
    (by rw [hblk, hoff]; exact hfits.count_lt)
  rw [hblk, hoff, saveThen, hsaved] at hrun
  rw [hrun]
  have hsame : L.Saving bs T off { L' with device := L.device } := by
    rw [← hdevice]
    exact hsaving
  cases r with
  | ok =>
      obtain ⟨g, requests, hpass, hchanges⟩ := changes_passOn c
        htracks.session.config.realBlockSize htracks.session.config.realOffset
      rw [htracks.device, hdevice] at hchanges
      refine ⟨{ L' with device := g }, gs, last, hsame, hmarked, hchanges, ?_⟩
      have hnext := htracks.change (g := g) (by rw [hdevice]; exact hchanges.size_le) requests
      dsimp only
      rw [hpass]
      exact hnext
  | _ =>
      refine ⟨L', gs, last, hsame, hmarked, ?_, htracks⟩
      rw [hdevice]
      exact changes_refl _ _ _

theorem Ready.run_inside (h : Ready bs T off L s) (hsize : L.device.size < 2 ^ 63)
    (hfits : c.Fits bs T off L.device.size)
    (hinside : ∀ n, c.Walks bs T off n → n * T + off % T < L.device.size) :
    ∃ s', Aside s s' ∧ s'.sys.real.blockSize = bs ∧ s'.sys.real.offset = off ∧
      c.run Files.realChannel Files.undoChannel s =
        ((c.passOn Files.realChannel s'.sys).1,
          { s' with sys := (c.passOn Files.realChannel s'.sys).2 }) := by
  obtain ⟨L', gs, last, r, s', hsaved, -, htracks, haside, -, hok⟩ := h.undoWriteTdb hsize hfits
  obtain rfl := hok hinside
  obtain ⟨hblk, hoff⟩ := h.settings
  have hrun := c.run_eq Files.realChannel Files.undoChannel (s := s)
    (by rw [hblk, hoff]; exact hfits.count_lt)
  rw [hblk, hoff, saveThen, hsaved] at hrun
  exact ⟨s', haside, htracks.session.config.realBlockSize, htracks.session.config.realOffset,
    hrun⟩

/-- The undo blocks of the walk contain the bytes that change. -/
def Call.Covered (bs T off : Nat) (c : Call) : Prop :=
  ∀ x, (c.target bs off).1 ≤ x → x < (c.target bs off).1 + (c.target bs off).2 →
    c.Walks bs T off (x / T)

/-- **A request keeps the original content in the ledger**, if the bytes that change are in undo
blocks of its walk or in marked ones. -/
theorem Ready.keeps_run_of_marked (h : Ready bs T off L s) (hsize : L.device.size < 2 ^ 63)
    (hfits : c.Fits bs T off L.device.size) {orig : ByteFile} (hkeeps : L.Keeps bs T off orig)
    (hpos : 0 < T) (hoff : T ∣ off)
    (hcovered : ∀ x, (c.target bs off).1 ≤ x → x < (c.target bs off).1 + (c.target bs off).2 →
      L.Marked bs T off (x / T) ∨ c.Walks bs T off (x / T)) :
    ∃ L' gs last, L.Saving bs T off { L' with device := L.device } ∧
      (∀ n, L'.Marked bs T off n ↔ L.Marked bs T off n ∨ c.Walks bs T off n) ∧
      Changes (c.target bs off).1 (c.target bs off).2 L.device L'.device ∧
      L'.Keeps bs T off orig ∧
      Tracks bs T off L' gs last (c.run Files.realChannel Files.undoChannel s).2 := by
  obtain ⟨L', gs, last, hsaving, hmarked, hchanges, htracks⟩ := h.run hsize hfits
  refine ⟨L', gs, last, hsaving, hmarked, hchanges, ?_, htracks⟩
  refine (hsaving.keeps hkeeps hpos hoff).change hchanges.size_le ?_
  intro x hne
  by_cases hx : (c.target bs off).1 ≤ x ∧ x < (c.target bs off).1 + (c.target bs off).2
  · exact (hmarked _).mpr (hcovered x hx.1 hx.2)
  · exact absurd (hchanges.byte_eq x (by omega)) hne

theorem Ready.keeps_run (h : Ready bs T off L s) (hsize : L.device.size < 2 ^ 63)
    (hfits : c.Fits bs T off L.device.size) {orig : ByteFile} (hkeeps : L.Keeps bs T off orig)
    (hpos : 0 < T) (hoff : T ∣ off) (hcovered : c.Covered bs T off) :
    ∃ L' gs last, L.Saving bs T off { L' with device := L.device } ∧
      (∀ n, L'.Marked bs T off n ↔ L.Marked bs T off n ∨ c.Walks bs T off n) ∧
      Changes (c.target bs off).1 (c.target bs off).2 L.device L'.device ∧
      L'.Keeps bs T off orig ∧
      Tracks bs T off L' gs last (c.run Files.realChannel Files.undoChannel s).2 :=
  h.keeps_run_of_marked hsize hfits hkeeps hpos hoff fun x hx hx' => Or.inr (hcovered x hx hx')

end Requests

end Undo
end Rfsck
