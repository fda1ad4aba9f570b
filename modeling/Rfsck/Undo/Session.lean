import Rfsck.Undo.Checks
import Rfsck.Undo.Ledger
import Rfsck.Undo.Writer

/-!
# Sessions of the undo manager

What the undo manager keeps true while it saves one undo block after the other, with a block
size that divides the undo block size and no failing operation.

* `Written` describes the key block in memory and the data in the undo file by lists of
  extents: full groups, and the group that is being filled.
* `Stored` adds that the key block of that group is in the file as well.
* A saved block makes the last extent longer or begins a new one (`Saves`); a full group is
  closed (`Rolled`).
-/

namespace Rfsck
namespace Undo

open Storage
open Redo (fit length_fit fit_of_length ext2fsCrc32cLe maxRwCount)
open UnixIo (Errcode transferSize)

section Quiet

def Files.putUndo (position : Nat) (data : Bytes) (s : Files) : Files :=
  { s with undoFile.file := s.undoFile.file.pwrite position data }

def Files.setRealBlksize (n : Nat) (s : Files) : Files :=
  { s with real.blockSize := n }

variable {s : Files}

theorem Files.next_of_quiet (h : s.outcomes = []) : s.next = .ok := by
  rw [Files.next, h]
  rfl

theorem Files.advance_of_quiet (h : s.outcomes = []) : s.advance = s := by
  obtain ⟨real, undoFile, outcomes, requests⟩ := s
  subst h
  rfl

theorem Files.readReal_of_quiet (h : s.outcomes = []) (block : Nat) (count : Int) :
    realChannel.readBlk64 block count s = (s.real.readUpTo maxRwCount block count, s) := by
  simp [realChannel, next_of_quiet h, advance_of_quiet h, FileChannel.readBlk64,
    FileChannel.limit]

theorem Files.readUndo_of_quiet (h : s.outcomes = []) (block : Nat) (count : Int) :
    undoChannel.readBlk64 block count s = (s.undoFile.readUpTo maxRwCount block count, s) := by
  simp [undoChannel, next_of_quiet h, advance_of_quiet h, FileChannel.readBlk64,
    FileChannel.limit]

theorem Files.writeUndo_of_quiet (h : s.outcomes = []) (block : Nat) {count : Int} (buf : Bytes)
    (hsize : transferSize s.undoFile.blockSize count ≤ maxRwCount) :
    undoChannel.writeBlk64 block count buf s =
      (.ok, s.putUndo (s.undoFile.place block)
        (fit (transferSize s.undoFile.blockSize count) buf)) := by
  have htake : (fit (transferSize s.undoFile.blockSize count) buf).take maxRwCount =
      fit (transferSize s.undoFile.blockSize count) buf :=
    List.take_of_length_le (by rwa [length_fit])
  simp [undoChannel, onUndoFile, next_of_quiet h, advance_of_quiet h, FileChannel.writeBlk64,
    FileChannel.limit, FileChannel.writeUpTo, htake, putUndo]

theorem Files.flushUndo_of_quiet (h : s.outcomes = []) : undoChannel.flush s = (.ok, s) := by
  simp [undoChannel, next_of_quiet h, advance_of_quiet h, FileChannel.flush]

variable {c : FileChannel} {limit block : Nat} {count : Int}

theorem FileChannel.readUpTo_inside (hlimit : transferSize c.blockSize count ≤ limit)
    (hfile : c.place block + transferSize c.blockSize count ≤ c.file.size) :
    c.readUpTo limit block count =
      .ok (c.file.pread (c.place block) (transferSize c.blockSize count)) := by
  unfold readUpTo
  dsimp only
  rw [Nat.min_eq_left hlimit, if_pos]
  rw [ByteFile.length_pread]
  omega

theorem FileChannel.readUpTo_beyond (hpos : 0 < transferSize c.blockSize count)
    (hfile : c.file.size ≤ c.place block) :
    c.readUpTo limit block count = .error ⟨.shortRead, 0, []⟩ := by
  have hnil : c.file.pread (c.place block) (min (transferSize c.blockSize count) limit) = [] := by
    apply List.eq_nil_of_length_eq_zero
    rw [ByteFile.length_pread]
    omega
  unfold readUpTo
  dsimp only
  rw [hnil, if_neg (by simp; omega)]
  simp

end Quiet

section Index

def Files.super (s : Files) : Bytes :=
  s.real.file.pread (superblockOffset + s.real.offset) superblockSize

/-- The superblock lies inside the device. -/
def Files.HasSuper (s : Files) : Prop :=
  superblockOffset + s.real.offset + superblockSize ≤ s.real.file.size

/-- The header that `write_undo_indexes` writes. -/
def State.nextHeader (s : State Files) : UndoHeader :=
  (s.data.fillHeader s.sys.real.blockSize s.sys.super).sealed

/-- The header and the copy of the superblock are written. -/
def State.withHeader (s : State Files) : State Files :=
  { s with
    data.hdr := s.nextHeader
    sys := (s.sys.putUndo (s.sys.undoFile.place 0) s.nextHeader.encode).putUndo
      (s.sys.undoFile.place s.data.superBlkNum) (invertMagic s.sys.super) }

/-- The key block is written, and the next one begun if it is full. -/
def State.withKeyBlock (s : State Files) : State Files :=
  { s with
    data := s.data.sealKeyb.rollKeyb
    sys := s.sys.putUndo (s.sys.undoFile.place s.data.keyBlkNum)
      (fit s.sys.undoFile.blockSize s.data.sealKeyb.keyb.encode) }

variable {s : State Files}

theorem transferSize_header (bs : Nat) : transferSize bs (-undoHeaderSize) = undoHeaderSize := by
  rw [transferSize, if_pos (by decide)]
  rfl

theorem transferSize_super (bs : Nat) : transferSize bs (-superblockSize) = superblockSize := by
  rw [transferSize, if_pos (by decide)]
  rfl

theorem transferSize_block (bs : Nat) : transferSize bs 1 = bs := by
  simp [transferSize]

theorem Files.length_super {s : Files} (h : s.HasSuper) : s.super.length = superblockSize := by
  rw [super, ByteFile.length_pread]
  rw [HasSuper] at h
  omega

theorem readSuper_of_quiet (h : s.sys.outcomes = []) (hsuper : s.sys.HasSuper) :
    Files.realChannel.readBlk64 1 (-superblockSize) (s.sys.setRealBlksize superblockOffset) =
      (.ok s.sys.super, s.sys.setRealBlksize superblockOffset) := by
  have hplace : (s.sys.setRealBlksize superblockOffset).real.place 1 =
      superblockOffset + s.sys.real.offset := by
    rw [FileChannel.place, Nat.one_mul]
    rfl
  have hquiet : (s.sys.setRealBlksize superblockOffset).outcomes = [] := h
  rw [Files.readReal_of_quiet hquiet, FileChannel.readUpTo_inside]
  · rw [hplace, transferSize_super]
    rfl
  · rw [transferSize_super]
    decide
  · rw [hplace, transferSize_super]
    exact hsuper

theorem writeHeader_of_quiet (h : s.sys.outcomes = []) (hsuper : s.sys.HasSuper) (flush : Bool) :
    writeHeader Files.realChannel Files.undoChannel flush s = (.ok, s.withHeader) := by
  have hlen : (invertMagic s.sys.super).length = superblockSize := by
    rw [length_invertMagic, Files.length_super hsuper]
  have hquiet : (s.sys.setRealBlksize superblockOffset).outcomes = [] := h
  have hset : Files.realChannel.setBlksize superblockOffset s.sys =
      s.sys.setRealBlksize superblockOffset := rfl
  unfold writeHeader
  dsimp only
  rw [hset, readSuper_of_quiet h hsuper]
  dsimp only
  rw [Files.writeUndo_of_quiet hquiet 0 _ (by rw [transferSize_header]; decide)]
  dsimp only
  generalize hput : (s.sys.setRealBlksize superblockOffset).putUndo _ _ = t
  have ht : t.outcomes = [] := by
    rw [← hput]
    exact hquiet
  rw [Files.writeUndo_of_quiet ht _ _ (by rw [transferSize_super]; decide)]
  dsimp only
  rw [transferSize_super, fit_of_length hlen]
  rw [transferSize_header, fit_of_length (UndoHeader.length_encode _)] at hput
  cases flush with
  | true =>
      have hflush := Files.flushUndo_of_quiet
        (s := t.putUndo (t.undoFile.place s.data.superBlkNum) (invertMagic s.sys.super)) ht
      rw [if_pos rfl, hflush, ← hput]
      rfl
  | false =>
      rw [if_neg Bool.false_ne_true, ← hput]
      rfl

theorem writeKeyBlock_of_quiet (h : s.sys.outcomes = [])
    (hsize : s.sys.undoFile.blockSize ≤ maxRwCount) (hkeys : s.data.keysInBlock ≠ 0) :
    writeKeyBlock Files.undoChannel s = (.ok, s.withKeyBlock) := by
  unfold writeKeyBlock
  rw [if_neg hkeys]
  dsimp only
  rw [Files.writeUndo_of_quiet h _ _ (by rwa [transferSize_block]), transferSize_block]
  rfl

end Index

section Keys

/-- What the sizes of a session have to be. -/
structure Sizes (bs T : Nat) : Prop where
  blockSize_pos : 0 < bs
  tdbDataSize_ge : e2undoMinBlockSize ≤ T
  tdbDataSize_le : T ≤ e2undoMaxBlockSize
  dvd : bs ∣ T

/-- An extent of whole undo blocks that the fields of a key can hold. -/
structure Extent.Good (bs T : Nat) (e : Extent) : Prop where
  whole : e.Whole T
  size_le : e.data.length ≤ e2undoMaxExtentBlocks * T
  end_lt : e.fsblk * bs + e.data.length < 2 ^ 63

/-- Keys and data, up to the key block of the last group, which is in memory only. -/
structure Written (bs T : Nat) (gs : List (List Extent)) (last : List Extent)
    (d : UndoPrivateData) (f : ByteFile) : Prop where
  tdbDataSize : d.tdbDataSize = T
  full : ∀ g ∈ gs, g.length = keysPerBlock T
  room : last.length ≤ keysPerBlock T
  keyBlkNum : d.keyBlkNum = 2 + groupsBlocks T gs
  undoBlkNum : d.undoBlkNum = d.keyBlkNum + 1 + extentsBlocks T last
  keysInBlock : d.keysInBlock = last.length
  numKeys : d.numKeys = (gs.map List.length).sum + last.length
  keyb : d.keyb.Starts (last.map Extent.key)
  length_keyb : d.keyb.keys.length + 16 = T
  groups : GroupsAt f T 2 gs
  extents : ExtentsAt f T (d.keyBlkNum + 1) last
  good : ∀ e ∈ gs.flatten ++ last, e.Good bs T

/-- The key block of the last group is in the file too, and it has room. -/
structure Stored (bs T : Nat) (gs : List (List Extent)) (last : List Extent)
    (d : UndoPrivateData) (f : ByteFile) : Prop extends Written bs T gs last d f where
  lt : last.length < keysPerBlock T
  image : last ≠ [] → f.Holds (d.keyBlkNum * T) (d.keyb.sealed T).encode

/-- A full group is closed. -/
inductive Rolled (T : Nat) (gs : List (List Extent)) (last : List Extent) :
    List (List Extent) → List Extent → Prop
  | stays (lt : last.length < keysPerBlock T) : Rolled T gs last gs last
  | closes (eq : last.length = keysPerBlock T) : Rolled T gs last (gs ++ [last]) []

theorem Rolled.flatten_eq {T : Nat} {gs gs' : List (List Extent)} {last last' : List Extent}
    (h : Rolled T gs last gs' last') : gs'.flatten ++ last' = gs.flatten ++ last := by
  cases h with
  | stays =>
      rfl
  | closes =>
      simp

variable {bs T : Nat} {gs : List (List Extent)} {last : List Extent} {d : UndoPrivateData}
  {f : ByteFile}

theorem Stored.keyBlock (h : Stored bs T gs last d f) (hne : last ≠ []) :
    GroupAt f T d.keyBlkNum last :=
  ⟨⟨d.keyb, h.keyb, h.length_keyb, h.image hne⟩, h.extents⟩

theorem Sizes.tdbDataSize_pos (h : Sizes bs T) : 0 < T := by
  have hge := h.tdbDataSize_ge
  rw [e2undoMinBlockSize] at hge
  omega

theorem Sizes.tdbDataSize_lt (h : Sizes bs T) : T ≤ 2 ^ 20 := by
  have hle := h.tdbDataSize_le
  rw [e2undoMaxBlockSize] at hle
  omega

theorem Sizes.le_maxRwCount (h : Sizes bs T) : T ≤ maxRwCount := by
  have hle := h.tdbDataSize_lt
  rw [maxRwCount]
  omega

theorem Extent.Good.fits {e : Extent} (h : e.Good bs T) (hs : Sizes bs T) : e.Fits T := by
  have hend := h.end_lt
  have hle : e.fsblk ≤ e.fsblk * bs := Nat.le_mul_of_pos_right _ hs.blockSize_pos
  exact ⟨by omega, h.size_le⟩

theorem Extent.Good.key_fsblk {e : Extent} (h : e.Good bs T) (hs : Sizes bs T) :
    e.key.fsblk.toNat = e.fsblk :=
  (h.fits hs).info_fsblk 0

theorem Extent.Good.key_size {e : Extent} (h : e.Good bs T) (hs : Sizes bs T) :
    e.key.size.toNat = e.data.length :=
  (h.fits hs).info_size hs.tdbDataSize_le 0

theorem Extent.Good.continues_iff {e : Extent} (h : e.Good bs T) (hs : Sizes bs T)
    (hT : d.tdbDataSize = T) (backing size : Nat) :
    d.continues bs backing size e.key = true ↔
      backing * bs = e.fsblk * bs + e.data.length ∧
        e.data.length + size < e2undoMaxExtentBlocks * T := by
  have hend := h.end_lt
  have hpos := hs.blockSize_pos
  have hbs : bs ≤ 2 ^ 20 := le_trans (Nat.le_of_dvd hs.tdbDataSize_pos hs.dvd) hs.tdbDataSize_lt
  obtain ⟨n, -, hn⟩ := h.whole
  obtain ⟨m, hm⟩ := hs.dvd
  have hdata : e.data.length = n * m * bs := by
    rw [hn, hm]
    ring
  have hdiv : (e.fsblk * bs + bs - 1 + e.data.length) / bs = e.fsblk + n * m := by
    rw [hdata, show e.fsblk * bs + bs - 1 + n * m * bs = (bs - 1) + (e.fsblk + n * m) * bs by
      rw [Nat.add_mul]; omega, Nat.add_mul_div_right _ _ hpos, Nat.div_eq_of_lt (by omega),
      Nat.zero_add]
  rw [UndoPrivateData.continues, h.key_fsblk hs, h.key_size hs, hT,
    Nat.mod_eq_of_lt (by omega), hdiv, decide_eq_true_iff]
  refine and_congr ?_ Iff.rfl
  rw [hdata, ← Nat.add_mul]
  constructor
  · rintro rfl
    rfl
  · intro heq
    exact (Nat.eq_of_mul_eq_mul_right hpos heq).symm

theorem Written.lastKey_eq {init : List Extent} {e : Extent}
    (h : Written bs T gs (init ++ [e]) d f) : d.lastKey = some e.key := by
  have hlen := h.keysInBlock
  rw [List.length_append, List.length_singleton] at hlen
  have hkey := h.keyb.key (i := init.length) (by simp)
  rw [UndoPrivateData.lastKey, if_neg (by omega), hlen, Nat.add_sub_cancel, hkey]
  simp

theorem Extent.key_append {fsblk : Nat} {data saved : Bytes}
    (hsize : (Extent.key ⟨fsblk, data⟩).size.toNat = data.length) :
    ({ Extent.key ⟨fsblk, data⟩ with
        blkCrc := ext2fsCrc32cLe (Extent.key ⟨fsblk, data⟩).blkCrc saved
        size := UInt32.ofNat ((Extent.key ⟨fsblk, data⟩).size.toNat + saved.length) } : UndoKey) =
      Extent.key ⟨fsblk, data ++ saved⟩ := by
  rw [hsize]
  apply UndoKey.ext
  · rfl
  · exact ext2fsCrc32cLe_append _ _ _
  · simp [Extent.key]

theorem Written.append_data (h : Written bs T gs last d f) (hs : Sizes bs T) (saved : Bytes) :
    GroupsAt (f.pwrite (d.undoBlkNum * T) saved) T 2 gs ∧
      ExtentsAt (f.pwrite (d.undoBlkNum * T) saved) T (d.keyBlkNum + 1) last ∧
      (f.pwrite (d.undoBlkNum * T) saved).Holds
        ((d.keyBlkNum + 1 + extentsBlocks T last) * T) saved := by
  have hle : (2 + groupsBlocks T gs) * T ≤ d.undoBlkNum * T := by
    rw [h.undoBlkNum, h.keyBlkNum]
    exact Nat.mul_le_mul_right _ (by omega)
  have hend : (d.keyBlkNum + 1 + extentsBlocks T last) * T = d.undoBlkNum * T := by
    rw [h.undoBlkNum]
  refine ⟨h.groups.pwrite hs.tdbDataSize_pos (Or.inr hle),
    h.extents.pwrite hs.tdbDataSize_pos (Or.inr hend.le), ?_⟩
  rw [hend]
  exact ByteFile.holds_pwrite_self _ _ _

theorem Written.addKey (h : Written bs T gs last d f) (hs : Sizes bs T)
    (hroom : last.length < keysPerBlock T) {backing : Nat} {saved : Bytes}
    (hgood : Extent.Good bs T ⟨backing, saved⟩) (hone : saved.length = T) :
    Written bs T gs (last ++ [⟨backing, saved⟩])
      { d.addKey backing saved with undoBlkNum := d.undoBlkNum + 1 }
      (f.pwrite (d.undoBlkNum * T) saved) := by
  obtain ⟨hgroups, hextents, hdata⟩ := h.append_data hs saved
  have hblocks : extentsBlocks T [⟨backing, saved⟩] = 1 := by
    have hmul := hgood.whole.blocks_mul hs.tdbDataSize_pos
    have hblocks : Extent.blocks T ⟨backing, saved⟩ = 1 :=
      Nat.eq_of_mul_eq_mul_right hs.tdbDataSize_pos (by rw [hmul, Nat.one_mul]; exact hone)
    simp [extentsBlocks, hblocks]
  have hkpb := @keysPerBlock_eq T
    (by have := hs.tdbDataSize_ge; rw [e2undoMinBlockSize] at this; omega)
    (by have := hs.tdbDataSize_lt; omega)
  have hfree : undoKeySize * d.keysInBlock + undoKeySize ≤ d.keyb.keys.length := by
    have hlen := h.length_keyb
    rw [h.keysInBlock, undoKeySize]
    rw [hkpb] at hroom
    omega
  constructor
  · exact h.tdbDataSize
  · exact h.full
  · rw [List.length_append, List.length_singleton]
    exact hroom
  · exact h.keyBlkNum
  · show d.undoBlkNum + 1 = d.keyBlkNum + 1 + extentsBlocks T (last ++ [⟨backing, saved⟩])
    rw [extentsBlocks_append, hblocks, h.undoBlkNum, Nat.add_assoc]
  · show d.keysInBlock + 1 = _
    rw [h.keysInBlock, List.length_append, List.length_singleton]
  · show d.numKeys + 1 = _
    rw [h.numKeys, List.length_append, List.length_singleton, Nat.add_assoc]
  · have hset := h.keyb.setKey (Extent.key ⟨backing, saved⟩)
    rw [List.length_map, ← h.keysInBlock] at hset
    rw [List.map_append]
    exact hset
  · show (d.keyb.setKey d.keysInBlock _).keys.length + 16 = T
    rw [UndoKeyBlock.length_keys_setKey _ hfree]
    exact h.length_keyb
  · exact hgroups
  · rw [extentsAt_append]
    exact ⟨hextents, hdata, trivial⟩
  · intro e he
    rw [← List.append_assoc] at he
    rcases List.mem_append.mp he with he | he
    · exact h.good e he
    · rw [List.mem_singleton.mp he]
      exact hgood

theorem Written.extendKey {init : List Extent} {fsblk : Nat} {data saved : Bytes}
    (h : Written bs T gs (init ++ [⟨fsblk, data⟩]) d f) (hs : Sizes bs T)
    (hsaved : saved.length = T) (hlt : data.length + saved.length < e2undoMaxExtentBlocks * T)
    (hend : fsblk * bs + data.length + saved.length < 2 ^ 63) :
    Written bs T gs (init ++ [⟨fsblk, data ++ saved⟩])
      { d.extendKey (Extent.key ⟨fsblk, data⟩) saved with undoBlkNum := d.undoBlkNum + 1 }
      (f.pwrite (d.undoBlkNum * T) saved) := by
  obtain ⟨hgroups, hextents, hdata⟩ := h.append_data hs saved
  have hpos := hs.tdbDataSize_pos
  have hgood : Extent.Good bs T ⟨fsblk, data⟩ := h.good _ (by simp)
  have hgood' : Extent.Good bs T ⟨fsblk, data ++ saved⟩ := by
    refine ⟨?_, ?_, ?_⟩
    · obtain ⟨n, -, hn⟩ := hgood.whole
      exact ⟨n + 1, Nat.succ_pos n, by
        rw [List.length_append, hsaved, Nat.succ_mul]; exact congrArg (· + T) hn⟩
    · rw [List.length_append]
      exact hlt.le
    · rw [List.length_append, ← Nat.add_assoc]
      exact hend
  have hblocks : Extent.blocks T ⟨fsblk, data ++ saved⟩ = Extent.blocks T ⟨fsblk, data⟩ + 1 := by
    have hmul := hgood.whole.blocks_mul hpos
    have hmul' := hgood'.whole.blocks_mul hpos
    apply Nat.eq_of_mul_eq_mul_right hpos
    rw [hmul', Nat.succ_mul, hmul, List.length_append, hsaved]
  have hcount : d.keysInBlock - 1 = init.length := by
    rw [h.keysInBlock, List.length_append, List.length_singleton, Nat.add_sub_cancel]
  have hlast : d.keyb.Starts (init.map Extent.key ++ [Extent.key ⟨fsblk, data⟩]) := by
    have hkeyb := h.keyb
    rwa [List.map_append] at hkeyb
  have hfree : undoKeySize * init.length + undoKeySize ≤ d.keyb.keys.length := by
    have hle := h.keyb.length_le
    rw [List.length_map, List.length_append, List.length_singleton, Nat.mul_add] at hle
    omega
  constructor
  · exact h.tdbDataSize
  · exact h.full
  · have hroom := h.room
    rw [List.length_append, List.length_singleton] at hroom ⊢
    exact hroom
  · exact h.keyBlkNum
  · show d.undoBlkNum + 1 = d.keyBlkNum + 1 + extentsBlocks T (init ++ [⟨fsblk, data ++ saved⟩])
    rw [h.undoBlkNum, extentsBlocks_append, extentsBlocks_append]
    simp [extentsBlocks, hblocks]
    omega
  · show d.keysInBlock = _
    rw [h.keysInBlock, List.length_append, List.length_append]
    rfl
  · show d.numKeys = _
    rw [h.numKeys, List.length_append, List.length_append]
    rfl
  · show (d.keyb.setKey (d.keysInBlock - 1) _).Starts _
    rw [Extent.key_append (hgood.key_size hs), hcount, List.map_append]
    have hset := hlast.setKey_last (Extent.key ⟨fsblk, data ++ saved⟩)
    rwa [List.length_map] at hset
  · show (d.keyb.setKey (d.keysInBlock - 1) _).keys.length + 16 = T
    rw [hcount, UndoKeyBlock.length_keys_setKey _ hfree]
    exact h.length_keyb
  · exact hgroups
  · exact hextents.longer hpos hgood.whole hdata
  · intro e he
    rw [← List.append_assoc] at he
    rcases List.mem_append.mp he with he | he
    · exact h.good e (by rw [← List.append_assoc]; exact List.mem_append_left _ he)
    · rw [List.mem_singleton.mp he]
      exact hgood'

/-- **A block is saved**: its data are appended, and its key is entered. -/
theorem Written.enterKey (h : Written bs T gs last d f) (hs : Sizes bs T)
    (hroom : last.length < keysPerBlock T) {backing : Nat} {saved : Bytes}
    (hsaved : saved.length = T) (hend : backing * bs + T < 2 ^ 63) :
    ∃ last', Saves bs last backing saved last' ∧
      Written bs T gs last' { d.enterKey bs backing saved with undoBlkNum := d.undoBlkNum + 1 }
        (f.pwrite (d.undoBlkNum * T) saved) := by
  have hgood : Extent.Good bs T ⟨backing, saved⟩ := by
    refine ⟨⟨1, Nat.one_pos, by rw [Nat.one_mul]; exact hsaved⟩, ?_, ?_⟩
    · show saved.length ≤ _
      rw [hsaved, e2undoMaxExtentBlocks]
      omega
    · show backing * bs + saved.length < _
      rw [hsaved]
      exact hend
  rcases List.eq_nil_or_concat last with rfl | ⟨init, ⟨fsblk, data⟩, hlast⟩
  · have hnone : d.lastKey = none := by
      rw [UndoPrivateData.lastKey, if_pos (show d.keysInBlock = 0 from h.keysInBlock)]
    rw [UndoPrivateData.enterKey, hnone]
    exact ⟨_, .new [] backing saved, h.addKey hs hroom hgood hsaved⟩
  · rw [List.concat_eq_append] at hlast
    subst hlast
    have hcontinues := (h.good ⟨fsblk, data⟩ (by simp)).continues_iff hs h.tdbDataSize backing
      saved.length
    rw [UndoPrivateData.enterKey, h.lastKey_eq]
    dsimp only
    split_ifs with hcase
    · obtain ⟨hbehind, hlt⟩ := hcontinues.mp hcase
      refine ⟨_, .longer init saved hbehind, h.extendKey hs hsaved hlt ?_⟩
      dsimp only at hbehind
      omega
    · exact ⟨_, .new _ backing saved, h.addKey hs hroom hgood hsaved⟩

theorem Written.length_encode_keyb (h : Written bs T gs last d f) :
    d.sealKeyb.keyb.encode.length = T := by
  have hlen := h.length_keyb
  rw [UndoPrivateData.sealKeyb, h.tdbDataSize, UndoKeyBlock.length_encode,
    UndoKeyBlock.sealed_keys]
  omega

theorem Written.keyBlockAt (h : Written bs T gs last d f) (hs : Sizes bs T) :
    GroupsAt (f.pwrite (d.keyBlkNum * T) d.sealKeyb.keyb.encode) T 2 gs ∧
      GroupAt (f.pwrite (d.keyBlkNum * T) d.sealKeyb.keyb.encode) T d.keyBlkNum last := by
  have hpos := hs.tdbDataSize_pos
  have hlen := h.length_encode_keyb
  refine ⟨h.groups.pwrite hpos (Or.inr (by rw [h.keyBlkNum])), ⟨d.keyb, h.keyb, h.length_keyb, ?_⟩,
    h.extents.pwrite hpos (Or.inl ?_)⟩
  · rw [UndoPrivateData.sealKeyb, h.tdbDataSize]
    exact ByteFile.holds_pwrite_self _ _ _
  · rw [hlen, Nat.succ_mul]

theorem Written.close (h : Written bs T gs last d f) (hs : Sizes bs T)
    (hfull : last.length = keysPerBlock T) (hgroup : GroupAt f T d.keyBlkNum last) :
    Stored bs T (gs ++ [last]) []
      { d with
        keyb := .zero d.tdbDataSize
        keysInBlock := 0
        keyBlkNum := d.undoBlkNum
        undoBlkNum := d.undoBlkNum + 1 } f := by
  have hblocks : d.undoBlkNum = 2 + groupsBlocks T (gs ++ [last]) := by
    rw [h.undoBlkNum, h.keyBlkNum, groupsBlocks_append]
    simp [groupsBlocks, groupBlocks]
    omega
  have hsize := UndoKeyBlock.length_keys_zero d.tdbDataSize
  have hge := hs.tdbDataSize_ge
  rw [e2undoMinBlockSize] at hge
  refine ⟨⟨h.tdbDataSize, ?_, Nat.zero_le _, hblocks, rfl, rfl, ?_, UndoKeyBlock.starts_nil _,
    ?_, ?_, trivial, ?_⟩, keysPerBlock_pos hs.tdbDataSize_le hs.tdbDataSize_ge,
    fun hne => absurd rfl hne⟩
  · intro g hg
    rcases List.mem_append.mp hg with hg | hg
    · exact h.full g hg
    · rw [List.mem_singleton.mp hg]
      exact hfull
  · show d.numKeys = _
    rw [h.numKeys]
    simp
  · show (UndoKeyBlock.zero d.tdbDataSize).keys.length + 16 = T
    rw [hsize, h.tdbDataSize]
    omega
  · rw [groupsAt_append]
    refine ⟨h.groups, ?_, trivial⟩
    rw [← h.keyBlkNum]
    exact hgroup
  · intro e he
    refine h.good e ?_
    simpa using he

/-- **The key block is written**, and the group closed if it is full. -/
theorem Written.keyBlock (h : Written bs T gs last d f) (hs : Sizes bs T) :
    ∃ gs' last', Rolled T gs last gs' last' ∧
      Stored bs T gs' last' d.sealKeyb.rollKeyb
        (f.pwrite (d.keyBlkNum * T) d.sealKeyb.keyb.encode) := by
  obtain ⟨hgroups, hgroup⟩ := h.keyBlockAt hs
  have hsealed : Written bs T gs last d.sealKeyb
      (f.pwrite (d.keyBlkNum * T) d.sealKeyb.keyb.encode) :=
    ⟨h.tdbDataSize, h.full, h.room, h.keyBlkNum, h.undoBlkNum, h.keysInBlock, h.numKeys, h.keyb,
      h.length_keyb, hgroups, hgroup.data, h.good⟩
  rw [UndoPrivateData.rollKeyb, hsealed.keysInBlock, hsealed.tdbDataSize]
  split_ifs with hfull
  · have hclosed := hsealed.close hs hfull hgroup
    rw [hsealed.tdbDataSize] at hclosed
    exact ⟨_, _, .closes hfull, hclosed⟩
  · have hlt := lt_of_le_of_ne h.room hfull
    refine ⟨gs, last, .stays hlt, hsealed, hlt, fun _ => ?_⟩
    rw [UndoPrivateData.sealKeyb, h.tdbDataSize, UndoKeyBlock.sealed_sealed]
    exact ByteFile.holds_pwrite_self _ _ _

theorem Stored.pwrite_before (h : Stored bs T gs last d f) (hs : Sizes bs T) {position : Nat}
    {data : Bytes} (hbefore : position + data.length ≤ 2 * T) :
    Stored bs T gs last d (f.pwrite position data) := by
  have hpos := hs.tdbDataSize_pos
  have hkey : 2 * T ≤ d.keyBlkNum * T := by
    rw [h.keyBlkNum]
    exact Nat.mul_le_mul_right _ (by omega)
  have hdata : d.keyBlkNum * T ≤ (d.keyBlkNum + 1) * T := Nat.mul_le_mul_right _ (by omega)
  exact ⟨⟨h.tdbDataSize, h.full, h.room, h.keyBlkNum, h.undoBlkNum, h.keysInBlock, h.numKeys,
    h.keyb, h.length_keyb, h.groups.pwrite hpos (Or.inl hbefore),
    h.extents.pwrite hpos (Or.inl (by omega)), h.good⟩, h.lt,
    fun hne => (h.image hne).pwrite_of_disjoint (Or.inr (by omega))⟩

end Keys

section Step

/-- The settings of a session, which saving does not change. -/
structure Configured (bs T off : Nat) (s : State Files) : Prop where
  outcomes : s.sys.outcomes = []
  blockSize : s.blockSize = bs
  realBlockSize : s.sys.real.blockSize = bs
  realOffset : s.sys.real.offset = off
  undoBlockSize : s.sys.undoFile.blockSize = T
  undoOffset : s.sys.undoFile.offset = 0
  tdbWritten : s.data.tdbWritten = 1
  offset : s.data.offset = off
  superBlkNum : s.data.superBlkNum = 1
  firstKeyBlk : s.data.firstKeyBlk = 2
  hdrBlockSize : s.data.hdr.blockSize = UInt32.ofNat T
  features : s.data.hdr.fIncompat = 0 ∧ s.data.hdr.fRocompat = 0

/-- **The invariant of a session** between two undo blocks. -/
structure Session (bs T off : Nat) (gs : List (List Extent)) (last : List Extent)
    (s : State Files) : Prop where
  sizes : Sizes bs T
  config : Configured bs T off s
  stored : Stored bs T gs last s.data s.sys.undoFile.file
  hasSuper : s.sys.HasSuper

/-- The header in the file describes the state, and `super` is the copy of the superblock. -/
structure Described (bs T off : Nat) (super : Bytes) (s : State Files) : Prop where
  header : s.sys.undoFile.file.Holds 0 s.data.hdr.encode
  copy : s.sys.undoFile.file.Holds T (invertMagic super)
  super_length : super.length = superblockSize
  sealed_eq : s.data.hdr.sealed = s.data.hdr
  magic : s.data.hdr.magic = e2undoMagic
  numKeys : s.data.hdr.numKeys = UInt64.ofNat s.data.numKeys
  superOffset : s.data.hdr.superOffset = 1
  keyOffset : s.data.hdr.keyOffset = 2
  fsBlockSize : s.data.hdr.fsBlockSize = UInt32.ofNat bs
  sbCrc : s.data.hdr.sbCrc = crc32c super
  fsOffset : s.data.hdr.fsOffset = UInt64.ofNat off
  hasOffset : s.data.hdr.hasFeatureFsOffset = decide (off ≠ 0)

variable {bs T off : Nat} {gs : List (List Extent)} {last : List Extent} {s : State Files}

theorem Described.congr {super : Bytes} {s' : State Files} (h : Described bs T off super s)
    (hfile : s'.sys.undoFile.file = s.sys.undoFile.file) (hhdr : s'.data.hdr = s.data.hdr)
    (hkeys : s'.data.numKeys = s.data.numKeys) : Described bs T off super s' := by
  refine ⟨?_, ?_, h.super_length, ?_, ?_, ?_, ?_, ?_, ?_, ?_, ?_, ?_⟩
  · rw [hfile, hhdr]
    exact h.header
  · rw [hfile]
    exact h.copy
  · rw [hhdr]
    exact h.sealed_eq
  · rw [hhdr]
    exact h.magic
  · rw [hhdr, hkeys]
    exact h.numKeys
  · rw [hhdr]
    exact h.superOffset
  · rw [hhdr]
    exact h.keyOffset
  · rw [hhdr]
    exact h.fsBlockSize
  · rw [hhdr]
    exact h.sbCrc
  · rw [hhdr]
    exact h.fsOffset
  · rw [hhdr]
    exact h.hasOffset

theorem Configured.place_undo (h : Configured bs T off s) (block : Nat) :
    s.sys.undoFile.place block = block * T := by
  rw [FileChannel.place, h.undoBlockSize, h.undoOffset, Nat.add_zero]

theorem hasFeatureFsOffset_fillHeader (d : UndoPrivateData) (fsBlockSize : Nat) (super : Bytes) :
    (d.fillHeader fsBlockSize super).hasFeatureFsOffset = decide (d.offset ≠ 0) := by
  unfold UndoHeader.hasFeatureFsOffset UndoPrivateData.fillHeader e2undoFeatureCompatFsOffset
  dsimp only
  generalize d.hdr.fCompat = x
  congr 1
  split_ifs with hoff
  · have hbit : (x ||| 1) &&& 1 ≠ 0 := by
      intro hzero
      have := congrArg UInt32.toBitVec hzero
      revert this
      simp only [UInt32.toBitVec_and, UInt32.toBitVec_or]
      generalize x.toBitVec = v
      intro h
      have hget := congrArg (fun b => b.getLsbD 0) h
      simp at hget
    simp [hbit, hoff]
  · have hbit : (x &&& ~~~1) &&& 1 = 0 := by
      apply UInt32.toBitVec_inj.mp
      simp only [UInt32.toBitVec_and, UInt32.toBitVec_not]
      generalize x.toBitVec = v
      rw [BitVec.and_assoc]
      have hzero : ~~~(UInt32.toBitVec 1) &&& UInt32.toBitVec 1 = 0 := by decide
      rw [hzero]
      simp
    simp [hbit, hoff]

theorem Session.withHeader (h : Session bs T off gs last s) :
    Session bs T off gs last s.withHeader ∧ Described bs T off s.sys.super s.withHeader := by
  have hc := h.config
  have hT := h.sizes.tdbDataSize_ge
  rw [e2undoMinBlockSize] at hT
  have hheader : s.nextHeader.encode.length = 512 := UndoHeader.length_encode _
  have hsuper : (invertMagic s.sys.super).length = 1024 := by
    rw [length_invertMagic, Files.length_super h.hasSuper]
    rfl
  have hfile : s.withHeader.sys.undoFile.file =
      (s.sys.undoFile.file.pwrite 0 s.nextHeader.encode).pwrite T
        (invertMagic s.sys.super) := by
    have hzero : s.sys.undoFile.place 0 = 0 := by
      rw [hc.place_undo, Nat.zero_mul]
    have hone : s.sys.undoFile.place s.data.superBlkNum = T := by
      rw [hc.superBlkNum, hc.place_undo, Nat.one_mul]
    rw [State.withHeader, hzero, hone]
    rfl
  constructor
  · refine ⟨h.sizes, ⟨hc.outcomes, hc.blockSize, hc.realBlockSize, hc.realOffset,
      hc.undoBlockSize, hc.undoOffset, hc.tdbWritten, hc.offset, hc.superBlkNum, hc.firstKeyBlk,
      hc.hdrBlockSize, hc.features⟩, ?_, h.hasSuper⟩
    have hfirst : Stored bs T gs last s.data
        (s.sys.undoFile.file.pwrite 0 s.nextHeader.encode) :=
      h.stored.pwrite_before h.sizes (by omega)
    have hstored : Stored bs T gs last s.data ((s.sys.undoFile.file.pwrite 0
        s.nextHeader.encode).pwrite T (invertMagic s.sys.super)) :=
      hfirst.pwrite_before h.sizes (by omega)
    rw [hfile]
    exact ⟨⟨hstored.tdbDataSize, hstored.full, hstored.room, hstored.keyBlkNum,
      hstored.undoBlkNum, hstored.keysInBlock, hstored.numKeys, hstored.keyb,
      hstored.length_keyb, hstored.groups, hstored.extents, hstored.good⟩, hstored.lt,
      hstored.image⟩
  · have hbit := hasFeatureFsOffset_fillHeader s.data s.sys.real.blockSize s.sys.super
    rw [hc.offset] at hbit
    refine ⟨?_, ?_, Files.length_super h.hasSuper, UndoHeader.sealed_sealed _, rfl, rfl, ?_, ?_,
      ?_, rfl, ?_, hbit⟩
    · rw [hfile]
      exact (ByteFile.holds_pwrite_self _ _ s.nextHeader.encode).pwrite_of_disjoint
        (Or.inl (by omega))
    · rw [hfile]
      exact ByteFile.holds_pwrite_self _ _ _
    · show UInt64.ofNat s.data.superBlkNum = 1
      rw [hc.superBlkNum]
      rfl
    · show UInt64.ofNat s.data.firstKeyBlk = 2
      rw [hc.firstKeyBlk]
      rfl
    · show UInt32.ofNat s.sys.real.blockSize = _
      rw [hc.realBlockSize]
    · show UInt64.ofNat s.data.offset = _
      rw [hc.offset]

/-- The fields that saving leaves alone. -/
structure UndoPrivateData.SameSettings (d d' : UndoPrivateData) : Prop where
  tdbWritten : d'.tdbWritten = d.tdbWritten
  offset : d'.offset = d.offset
  superBlkNum : d'.superBlkNum = d.superBlkNum
  firstKeyBlk : d'.firstKeyBlk = d.firstKeyBlk
  hdr : d'.hdr = d.hdr
  writtenBlockMap : d'.writtenBlockMap = d.writtenBlockMap

theorem UndoPrivateData.sameSettings_rollKeyb (d : UndoPrivateData) :
    d.SameSettings d.rollKeyb := by
  unfold rollKeyb
  split_ifs
  · exact ⟨rfl, rfl, rfl, rfl, rfl, rfl⟩
  · exact ⟨rfl, rfl, rfl, rfl, rfl, rfl⟩

theorem UndoPrivateData.sameSettings_enterKey (d : UndoPrivateData) (bs backing : Nat)
    (saved : Bytes) :
    d.SameSettings (d.enterKey bs backing saved) ∧
      (d.enterKey bs backing saved).undoBlkNum = d.undoBlkNum := by
  unfold enterKey
  cases d.lastKey with
  | none =>
      exact ⟨⟨rfl, rfl, rfl, rfl, rfl, rfl⟩, rfl⟩
  | some key =>
      dsimp only
      split_ifs
      · exact ⟨⟨rfl, rfl, rfl, rfl, rfl, rfl⟩, rfl⟩
      · exact ⟨⟨rfl, rfl, rfl, rfl, rfl, rfl⟩, rfl⟩

theorem Configured.of_sameSettings (h : Configured bs T off s) {d : UndoPrivateData}
    (hd : s.data.SameSettings d) (position : Nat) (data : Bytes) :
    Configured bs T off ⟨s.blockSize, d, s.sys.putUndo position data⟩ := by
  refine ⟨h.outcomes, h.blockSize, h.realBlockSize, h.realOffset, h.undoBlockSize, h.undoOffset,
    hd.tdbWritten.trans h.tdbWritten, hd.offset.trans h.offset,
    hd.superBlkNum.trans h.superBlkNum, hd.firstKeyBlk.trans h.firstKeyBlk, ?_, ?_⟩
  · show d.hdr.blockSize = _
    rw [hd.hdr]
    exact h.hdrBlockSize
  · show d.hdr.fIncompat = 0 ∧ d.hdr.fRocompat = 0
    rw [hd.hdr]
    exact h.features

theorem writeUndoIndexes_of_written (hs : Sizes bs T) (hc : Configured bs T off s)
    (hw : Written bs T gs last s.data s.sys.undoFile.file) (hne : last ≠ [])
    (hsuper : s.sys.HasSuper) (flush : Bool) :
    ∃ gs' last', Rolled T gs last gs' last' ∧
      writeUndoIndexes Files.realChannel Files.undoChannel flush s =
        (.ok, s.withKeyBlock.withHeader) ∧
      Session bs T off gs' last' s.withKeyBlock.withHeader ∧
      Described bs T off s.sys.super s.withKeyBlock.withHeader := by
  obtain ⟨gs', last', hrolled, hstored⟩ := hw.keyBlock hs
  have hkeys : s.data.keysInBlock ≠ 0 := by
    rw [hw.keysInBlock]
    exact fun hzero => hne (List.eq_nil_of_length_eq_zero hzero)
  have hwritten := writeKeyBlock_of_quiet hc.outcomes
    (by rw [hc.undoBlockSize]; exact hs.le_maxRwCount) hkeys
  have hsettings := s.data.sealKeyb.sameSettings_rollKeyb
  have hsession : Session bs T off gs' last' s.withKeyBlock := by
    refine ⟨hs, hc.of_sameSettings ⟨hsettings.tdbWritten, hsettings.offset,
      hsettings.superBlkNum, hsettings.firstKeyBlk, hsettings.hdr, hsettings.writtenBlockMap⟩ _ _,
      ?_, hsuper⟩
    have hfile : s.withKeyBlock.sys.undoFile.file =
        s.sys.undoFile.file.pwrite (s.data.keyBlkNum * T) s.data.sealKeyb.keyb.encode := by
      rw [State.withKeyBlock, hc.place_undo, hc.undoBlockSize,
        fit_of_length hw.length_encode_keyb]
      rfl
    rw [hfile]
    exact hstored
  obtain ⟨hsession', hdescribed⟩ := hsession.withHeader
  refine ⟨gs', last', hrolled, ?_, hsession', hdescribed⟩
  rw [writeUndoIndexes, hwritten]
  exact writeHeader_of_quiet hsession.config.outcomes hsession.hasSuper flush

/-- What saving leaves alone. -/
structure Aside (s s' : State Files) : Prop where
  real : s'.sys.real = s.sys.real
  requests : s'.sys.requests = s.sys.requests

/-- The data of a block are written behind the others, and their key is entered. -/
def State.withData (backing : Nat) (saved : Bytes) (s : State Files) : State Files :=
  { s with
    data :=
      { s.data.enterKey s.blockSize backing saved with undoBlkNum := s.data.undoBlkNum + 1 }
    sys := s.sys.putUndo (s.sys.undoFile.place s.data.undoBlkNum) saved }

theorem transferCount_self {n : Nat} (hpos : 0 < n) : transferCount n n = 1 := by
  rw [transferCount, if_pos (Nat.mod_self n), Nat.div_self hpos]
  rfl

/-- **A block of old content is stored.** -/
theorem Session.storeBlock (h : Session bs T off gs last s) {backing : Nat} {saved : Bytes}
    (hsaved : saved.length = T) (hend : backing * bs + T < 2 ^ 63) :
    ∃ gs' last' s',
      storeBlock Files.realChannel Files.undoChannel backing saved s = .next (.ok, s') ∧
      Saves bs (gs.flatten ++ last) backing saved (gs'.flatten ++ last') ∧
      Session bs T off gs' last' s' ∧ Described bs T off s'.sys.super s' ∧ Aside s s' ∧
      s'.data.writtenBlockMap = s.data.writtenBlockMap := by
  have hc := h.config
  have hpos := h.sizes.tdbDataSize_pos
  obtain ⟨last₁, hsaves, hw⟩ := h.stored.enterKey h.sizes h.stored.lt hsaved hend
  obtain ⟨hsettings, hundo⟩ := s.data.sameSettings_enterKey s.blockSize backing saved
  have hcount : transferCount (Files.undoChannel.blockSize s.sys) saved.length = 1 := by
    show transferCount s.sys.undoFile.blockSize saved.length = 1
    rw [hc.undoBlockSize, hsaved, transferCount_self hpos]
  have hwrite : Files.undoChannel.writeBlk64 s.data.undoBlkNum 1 saved s.sys =
      (.ok, (s.withData backing saved).sys) := by
    rw [Files.writeUndo_of_quiet hc.outcomes _ _ (by
      rw [transferSize_block, hc.undoBlockSize]; exact h.sizes.le_maxRwCount),
      transferSize_block, hc.undoBlockSize, fit_of_length hsaved]
    rfl
  have hw : Written bs T gs last₁ (s.withData backing saved).data
      (s.withData backing saved).sys.undoFile.file := by
    rw [State.withData, hc.blockSize, hc.place_undo]
    exact hw
  have hc₁ : Configured bs T off (s.withData backing saved) :=
    hc.of_sameSettings (d := (s.withData backing saved).data) ⟨hsettings.tdbWritten,
      hsettings.offset, hsettings.superBlkNum, hsettings.firstKeyBlk, hsettings.hdr,
      hsettings.writtenBlockMap⟩ _ _
  have hstate : ({ s with
      data :=
        { s.data.enterKey s.blockSize backing saved with undoBlkNum := s.data.undoBlkNum + 1 }
      sys := (s.withData backing saved).sys } : State Files) = s.withData backing saved := rfl
  obtain ⟨gs', last', hrolled, hindexes, hsession, hdescribed⟩ :=
    writeUndoIndexes_of_written h.sizes hc₁ hw hsaves.ne_nil h.hasSuper false
  refine ⟨gs', last', (s.withData backing saved).withKeyBlock.withHeader, ?_, ?_, hsession,
    hdescribed, ⟨rfl, rfl⟩, ?_⟩
  · unfold Undo.storeBlock
    rw [hcount]
    dsimp only
    rw [hundo, hwrite]
    dsimp only
    rw [hstate, hindexes]
  · rw [hrolled.flatten_eq]
    exact hsaves.append_left _
  · have hroll := (s.withData backing saved).data.sealKeyb.sameSettings_rollKeyb
    exact hroll.writtenBlockMap.trans hsettings.writtenBlockMap

end Step

end Undo
end Rfsck
