import Rfsck.Redo.Format

/-!
# The undo file format

The records that `undo_io.c` and `e2undo.c` share, and their byte images.

* The file is cut into blocks of `undo_header.block_size` bytes.  The first one holds the
  header, the second one a copy of the superblock.
* From the third block on a key block and the data blocks of its keys alternate.
* A key stands for a run of bytes of the device: the block where it begins, its length and
  its checksum.  Where its data lie in the file is not written anywhere; a reader adds up
  the lengths of the keys before it.

The memory of a key block is kept as its head and the bytes behind it, since its size is
only known from the header.
-/

namespace Rfsck
namespace Undo

open Storage
open Redo (ext2fsCrc32cLe crcByte fit length_fit fit_append fit_of_length)

/-- `E2UNDO_MAGIC`, the text `E2UNDO02`. -/
def e2undoMagic : Bytes :=
  [69, 50, 85, 78, 68, 79, 48, 50]

theorem length_e2undoMagic : e2undoMagic.length = 8 :=
  rfl

/-- `KEYBLOCK_MAGIC`. -/
def keyblockMagic : UInt32 := 0xCADECADE

/-- `E2UNDO_STATE_FINISHED`. -/
def e2undoStateFinished : UInt32 := 0x1

/-- `E2UNDO_MIN_BLOCK_SIZE`. -/
def e2undoMinBlockSize : Nat := 1024

/-- `E2UNDO_MAX_BLOCK_SIZE`. -/
def e2undoMaxBlockSize : Nat := 1048576

/-- `E2UNDO_MAX_EXTENT_BLOCKS`. -/
def e2undoMaxExtentBlocks : Nat := 512

/-- `E2UNDO_FEATURE_COMPAT_FS_OFFSET`. -/
def e2undoFeatureCompatFsOffset : UInt32 := 0x1

/-- `SUPERBLOCK_OFFSET`. -/
def superblockOffset : Nat := 1024

/-- `SUPERBLOCK_SIZE`. -/
def superblockSize : Nat := 1024

/-- `sizeof(struct undo_header)`. -/
def undoHeaderSize : Nat := 512

/-- `sizeof(struct undo_key)`. -/
def undoKeySize : Nat := 16

/-- `KEYS_PER_BLOCK`, computed in a `size_t`. -/
def keysPerBlock (blockSize : Nat) : Nat :=
  (blockSize / undoKeySize + (2 ^ 64 - 1)) % 2 ^ 64

theorem keysPerBlock_eq {blockSize : Nat} (hlow : 32 ≤ blockSize) (hhigh : blockSize < 2 ^ 32) :
    keysPerBlock blockSize = blockSize / 16 - 1 := by
  rw [keysPerBlock, undoKeySize]
  omega

/-- The checksum of the format: every call begins with the seed `~0`. -/
def crc32c (p : Bytes) : UInt32 :=
  ext2fsCrc32cLe 0xFFFFFFFF p

theorem ext2fsCrc32cLe_append (crc : UInt32) (p q : Bytes) :
    ext2fsCrc32cLe (ext2fsCrc32cLe crc p) q = ext2fsCrc32cLe crc (p ++ q) := by
  simp [ext2fsCrc32cLe]

/-- `struct undo_header`. -/
@[ext] structure UndoHeader where
  magic : Bytes
  numKeys : UInt64
  superOffset : UInt64
  keyOffset : UInt64
  blockSize : UInt32
  fsBlockSize : UInt32
  sbCrc : UInt32
  state : UInt32
  fCompat : UInt32
  fIncompat : UInt32
  fRocompat : UInt32
  pad32 : UInt32
  fsOffset : UInt64
  padding : Bytes
  headerCrc : UInt32
  magic_length : magic.length = 8
  padding_length : padding.length = 436

namespace UndoHeader

/-- The header of zero bytes. -/
def zero : UndoHeader where
  magic := List.replicate 8 0
  numKeys := 0
  superOffset := 0
  keyOffset := 0
  blockSize := 0
  fsBlockSize := 0
  sbCrc := 0
  state := 0
  fCompat := 0
  fIncompat := 0
  fRocompat := 0
  pad32 := 0
  fsOffset := 0
  padding := List.replicate 436 0
  headerCrc := 0
  magic_length := List.length_replicate
  padding_length := List.length_replicate

/-- The fields between the magic number and the padding. -/
def fields (h : UndoHeader) : Bytes :=
  le64 h.numKeys ++ (le64 h.superOffset ++ (le64 h.keyOffset ++ (le32 h.blockSize ++
    (le32 h.fsBlockSize ++ (le32 h.sbCrc ++ (le32 h.state ++ (le32 h.fCompat ++
      (le32 h.fIncompat ++ (le32 h.fRocompat ++ (le32 h.pad32 ++ le64 h.fsOffset))))))))))

/-- The bytes that the checksum of the header covers: all but the checksum itself. -/
def body (h : UndoHeader) : Bytes :=
  h.magic ++ (h.fields ++ h.padding)

def encode (h : UndoHeader) : Bytes :=
  h.body ++ le32 h.headerCrc

theorem length_magic (bs : Bytes) : (fit 8 bs).length = 8 :=
  length_fit 8 bs

/-- The header that 512 bytes of memory denote. -/
def decode (bs : Bytes) : UndoHeader where
  magic := fit 8 bs
  numKeys := get64 (bs.drop 8)
  superOffset := get64 (bs.drop 16)
  keyOffset := get64 (bs.drop 24)
  blockSize := get32 (bs.drop 32)
  fsBlockSize := get32 (bs.drop 36)
  sbCrc := get32 (bs.drop 40)
  state := get32 (bs.drop 44)
  fCompat := get32 (bs.drop 48)
  fIncompat := get32 (bs.drop 52)
  fRocompat := get32 (bs.drop 56)
  pad32 := get32 (bs.drop 60)
  fsOffset := get64 (bs.drop 64)
  padding := fit 436 (bs.drop 72)
  headerCrc := get32 (bs.drop 508)
  magic_length := length_magic bs
  padding_length := length_fit 436 (bs.drop 72)

@[simp] theorem length_fields (h : UndoHeader) : h.fields.length = 64 := by
  simp [fields]

@[simp] theorem length_body (h : UndoHeader) : h.body.length = 508 := by
  simp [body, h.magic_length, h.padding_length]

@[simp] theorem length_encode (h : UndoHeader) : h.encode.length = undoHeaderSize := by
  simp [encode, undoHeaderSize]

theorem drop_add_append {as bs cs : Bytes} {m n : Nat} (h : as.drop m = bs ++ cs)
    (hbs : bs.length = n) : as.drop (m + n) = cs := by
  rw [← List.drop_drop, h, List.drop_left' hbs]

@[simp] theorem decode_encode (h : UndoHeader) : decode h.encode = h := by
  have d8 : h.encode.drop 8 = h.fields ++ (h.padding ++ le32 h.headerCrc) := by
    rw [encode, body, List.append_assoc, List.drop_left' h.magic_length, List.append_assoc]
  have d72 : h.encode.drop 72 = h.padding ++ le32 h.headerCrc :=
    drop_add_append d8 h.length_fields
  have d508 : h.encode.drop 508 = le32 h.headerCrc :=
    drop_add_append d72 h.padding_length
  simp only [fields, List.append_assoc] at d8
  have d16 := drop_add_append d8 (length_le64 _)
  have d24 := drop_add_append d16 (length_le64 _)
  have d32 := drop_add_append d24 (length_le64 _)
  have d36 := drop_add_append d32 (length_le32 _)
  have d40 := drop_add_append d36 (length_le32 _)
  have d44 := drop_add_append d40 (length_le32 _)
  have d48 := drop_add_append d44 (length_le32 _)
  have d52 := drop_add_append d48 (length_le32 _)
  have d56 := drop_add_append d52 (length_le32 _)
  have d60 := drop_add_append d56 (length_le32 _)
  have d64 := drop_add_append d60 (length_le32 _)
  have hmagic : fit 8 h.encode = h.magic := by
    rw [encode, body, List.append_assoc]
    exact fit_append h.magic_length _
  have hpadding : fit 436 (h.encode.drop 72) = h.padding := by
    rw [d72]
    exact fit_append h.padding_length _
  apply UndoHeader.ext
  · exact hmagic
  · simp [decode, d8]
  · simp [decode, d16]
  · simp [decode, d24]
  · simp [decode, d32]
  · simp [decode, d36]
  · simp [decode, d40]
  · simp [decode, d44]
  · simp [decode, d48]
  · simp [decode, d52]
  · simp [decode, d56]
  · simp [decode, d60]
  · simp [decode, d64]
  · exact hpadding
  · simp [decode, d508]

/-- The checksum of a header. -/
def checksum (h : UndoHeader) : UInt32 :=
  crc32c h.body

/-- The header with its checksum, as it is written. -/
def sealed (h : UndoHeader) : UndoHeader :=
  { h with headerCrc := h.checksum }

@[simp] theorem checksum_sealed (h : UndoHeader) : h.sealed.checksum = h.checksum := by
  rfl

@[simp] theorem headerCrc_sealed (h : UndoHeader) : h.sealed.headerCrc = h.checksum := by
  rfl

@[simp] theorem sealed_sealed (h : UndoHeader) : h.sealed.sealed = h.sealed := by
  rw [sealed, checksum_sealed]
  rfl

/-- `e2undo_has_feature_fs_offset`. -/
def hasFeatureFsOffset (h : UndoHeader) : Bool :=
  h.fCompat &&& e2undoFeatureCompatFsOffset ≠ 0

end UndoHeader

/-- `struct undo_key`. -/
@[ext] structure UndoKey where
  fsblk : UInt64
  blkCrc : UInt32
  size : UInt32
deriving DecidableEq, Repr, Inhabited

namespace UndoKey

def encode (k : UndoKey) : Bytes :=
  le64 k.fsblk ++ (le32 k.blkCrc ++ le32 k.size)

/-- The key that 16 bytes of memory denote. -/
def decode (bs : Bytes) : UndoKey where
  fsblk := get64 bs
  blkCrc := get32 (bs.drop 8)
  size := get32 (bs.drop 12)

@[simp] theorem length_encode (k : UndoKey) : k.encode.length = undoKeySize := by
  simp [encode, undoKeySize]

@[simp] theorem decode_encode_append (k : UndoKey) (bs : Bytes) :
    decode (k.encode ++ bs) = k := by
  have d8 : (k.encode ++ bs).drop 8 = le32 k.blkCrc ++ (le32 k.size ++ bs) := by
    rw [encode, List.append_assoc, List.drop_left' (length_le64 _), List.append_assoc]
  have d12 : (k.encode ++ bs).drop 12 = le32 k.size ++ bs :=
    UndoHeader.drop_add_append d8 (length_le32 _)
  apply UndoKey.ext
  · simp [decode, encode]
  · simp [decode, d8]
  · simp [decode, d12]

end UndoKey

def encodeKeys (ks : List UndoKey) : Bytes :=
  ks.flatMap UndoKey.encode

@[simp] theorem encodeKeys_nil : encodeKeys [] = [] := by
  rfl

@[simp] theorem encodeKeys_cons (k : UndoKey) (ks : List UndoKey) :
    encodeKeys (k :: ks) = k.encode ++ encodeKeys ks := by
  rfl

@[simp] theorem encodeKeys_append (ks ks' : List UndoKey) :
    encodeKeys (ks ++ ks') = encodeKeys ks ++ encodeKeys ks' := by
  simp [encodeKeys]

@[simp] theorem length_encodeKeys (ks : List UndoKey) :
    (encodeKeys ks).length = undoKeySize * ks.length := by
  induction ks with
  | nil =>
      rfl
  | cons k ks ih =>
      rw [encodeKeys_cons, List.length_append, ih, UndoKey.length_encode, List.length_cons]
      ring

/-- `struct undo_key_block` in memory: its head and the bytes of its keys. -/
@[ext] structure UndoKeyBlock where
  magic : UInt32
  crc : UInt32
  reserved : UInt64
  keys : Bytes
deriving DecidableEq

namespace UndoKeyBlock

/-- `memset(keyb, 0, size)`. -/
def zero (size : Nat) : UndoKeyBlock where
  magic := 0
  crc := 0
  reserved := 0
  keys := List.replicate (size - 16) 0

theorem length_keys_zero (size : Nat) : (zero size).keys.length = size - 16 :=
  List.length_replicate

def encode (kb : UndoKeyBlock) : Bytes :=
  le32 kb.magic ++ (le32 kb.crc ++ (le64 kb.reserved ++ kb.keys))

/-- The key block that lies in memory. -/
def decode (bs : Bytes) : UndoKeyBlock where
  magic := get32 bs
  crc := get32 (bs.drop 4)
  reserved := get64 (bs.drop 8)
  keys := bs.drop 16

@[simp] theorem length_encode (kb : UndoKeyBlock) : kb.encode.length = 16 + kb.keys.length := by
  simp [encode]
  omega

@[simp] theorem decode_encode (kb : UndoKeyBlock) : decode kb.encode = kb := by
  have d4 : kb.encode.drop 4 = le32 kb.crc ++ (le64 kb.reserved ++ kb.keys) := by
    rw [encode, List.drop_left' (length_le32 _)]
  have d8 : kb.encode.drop 8 = le64 kb.reserved ++ kb.keys :=
    UndoHeader.drop_add_append d4 (length_le32 _)
  have d16 : kb.encode.drop 16 = kb.keys :=
    UndoHeader.drop_add_append d8 (length_le64 _)
  apply UndoKeyBlock.ext
  · simp [decode, encode]
  · simp [decode, d4]
  · simp [decode, d8]
  · simp [decode, d16]

/-- `keys[i]`. -/
def key (kb : UndoKeyBlock) (i : Nat) : UndoKey :=
  UndoKey.decode (kb.keys.drop (undoKeySize * i))

/-- Assignment to `keys[i]`. -/
def setKey (kb : UndoKeyBlock) (i : Nat) (k : UndoKey) : UndoKeyBlock :=
  { kb with
    keys := kb.keys.take (undoKeySize * i) ++ k.encode ++
      kb.keys.drop (undoKeySize * i + undoKeySize) }

/-- The checksum of a key block of the given size, taken with a cleared checksum field. -/
def checksum (size : Nat) (kb : UndoKeyBlock) : UInt32 :=
  crc32c ({ kb with crc := 0 }.encode.take size)

/-- The key block with its magic number and its checksum, as it is written. -/
def sealed (size : Nat) (kb : UndoKeyBlock) : UndoKeyBlock :=
  let kb := { kb with magic := keyblockMagic }
  { kb with crc := kb.checksum size }

@[simp] theorem sealed_keys (size : Nat) (kb : UndoKeyBlock) : (kb.sealed size).keys = kb.keys := by
  rfl

@[simp] theorem sealed_magic (size : Nat) (kb : UndoKeyBlock) :
    (kb.sealed size).magic = keyblockMagic := by
  rfl

@[simp] theorem sealed_sealed (size : Nat) (kb : UndoKeyBlock) :
    (kb.sealed size).sealed size = kb.sealed size := by
  rfl

@[simp] theorem sealed_crc (size : Nat) (kb : UndoKeyBlock) :
    (kb.sealed size).crc = (kb.sealed size).checksum size := by
  rfl

/-- The memory begins with these keys. -/
def Starts (kb : UndoKeyBlock) (ks : List UndoKey) : Prop :=
  ∃ rest, kb.keys = encodeKeys ks ++ rest

theorem starts_nil (kb : UndoKeyBlock) : kb.Starts [] :=
  ⟨kb.keys, rfl⟩

theorem Starts.key {kb : UndoKeyBlock} {ks : List UndoKey} (h : kb.Starts ks) {i : Nat}
    (hi : i < ks.length) : kb.key i = ks[i] := by
  obtain ⟨rest, hrest⟩ := h
  have hsplit : ks = ks.take i ++ (ks[i] :: ks.drop (i + 1)) := by
    rw [← List.drop_eq_getElem_cons hi, List.take_append_drop]
  have hdrop : kb.keys.drop (undoKeySize * i) =
      ks[i].encode ++ (encodeKeys (ks.drop (i + 1)) ++ rest) := by
    rw [hrest]
    conv_lhs => rw [hsplit]
    rw [encodeKeys_append, encodeKeys_cons, List.append_assoc, List.append_assoc,
      List.drop_left' (by rw [length_encodeKeys, List.length_take, min_eq_left hi.le])]
  rw [UndoKeyBlock.key, hdrop, UndoKey.decode_encode_append]

theorem Starts.map_key {kb : UndoKeyBlock} {ks : List UndoKey} (h : kb.Starts ks) :
    (List.range ks.length).map kb.key = ks := by
  apply List.ext_getElem
  · simp
  · intro i hi hi'
    rw [List.getElem_map, List.getElem_range, h.key hi']

theorem Starts.length_le {kb : UndoKeyBlock} {ks : List UndoKey} (h : kb.Starts ks) :
    undoKeySize * ks.length ≤ kb.keys.length := by
  obtain ⟨rest, hrest⟩ := h
  rw [hrest, List.length_append, length_encodeKeys]
  omega

theorem Starts.setKey {kb : UndoKeyBlock} {ks : List UndoKey} (h : kb.Starts ks) (k : UndoKey) :
    (kb.setKey ks.length k).Starts (ks ++ [k]) := by
  obtain ⟨rest, hrest⟩ := h
  refine ⟨rest.drop undoKeySize, ?_⟩
  have hlen : (encodeKeys ks).length = undoKeySize * ks.length := length_encodeKeys ks
  simp only [UndoKeyBlock.setKey]
  rw [hrest, ← hlen, List.take_left, ← List.drop_drop, List.drop_left]
  simp

theorem Starts.setKey_last {kb : UndoKeyBlock} {ks : List UndoKey} {k : UndoKey}
    (h : kb.Starts (ks ++ [k])) (k' : UndoKey) :
    (kb.setKey ks.length k').Starts (ks ++ [k']) := by
  obtain ⟨rest, hrest⟩ := h
  refine ⟨rest, ?_⟩
  have hlen : (encodeKeys ks).length = undoKeySize * ks.length := length_encodeKeys ks
  have hkey : k.encode.length = undoKeySize := k.length_encode
  simp only [UndoKeyBlock.setKey]
  rw [hrest, encodeKeys_append, List.append_assoc (encodeKeys ks), ← hlen, List.take_left,
    ← List.drop_drop, List.drop_left, encodeKeys_cons, encodeKeys_nil, List.append_nil,
    List.drop_left' hkey]
  simp

theorem length_keys_setKey {kb : UndoKeyBlock} {i : Nat} (k : UndoKey)
    (h : undoKeySize * i + undoKeySize ≤ kb.keys.length) :
    (kb.setKey i k).keys.length = kb.keys.length := by
  simp only [setKey, List.length_append, List.length_take, List.length_drop,
    UndoKey.length_encode]
  omega

end UndoKeyBlock

/-- `super.s_magic = ~super.s_magic` on the bytes of a superblock. -/
def invertMagic (sb : Bytes) : Bytes :=
  sb.take 56 ++ (((sb.drop 56).take 2).map (fun b => ~~~b) ++ sb.drop 58)

@[simp] theorem length_invertMagic (sb : Bytes) : (invertMagic sb).length = sb.length := by
  simp only [invertMagic, List.length_append, List.length_map, List.length_take,
    List.length_drop]
  omega

theorem invertMagic_invertMagic {sb : Bytes} (h : 58 ≤ sb.length) :
    invertMagic (invertMagic sb) = sb := by
  have hhead : (sb.take 56).length = 56 := by
    rw [List.length_take]
    omega
  have hmagic : (((sb.drop 56).take 2).map (fun b => ~~~b)).length = 2 := by
    rw [List.length_map, List.length_take, List.length_drop]
    omega
  have htake : (invertMagic sb).take 56 = sb.take 56 := by
    rw [invertMagic, List.take_left' hhead]
  have hdrop : (invertMagic sb).drop 56 =
      ((sb.drop 56).take 2).map (fun b => ~~~b) ++ sb.drop 58 := by
    rw [invertMagic, List.drop_left' hhead]
  have htail : (invertMagic sb).drop 58 = sb.drop 58 :=
    UndoHeader.drop_add_append hdrop hmagic
  have hback : ((sb.drop 56).take 2) ++ sb.drop 58 = sb.drop 56 := by
    have h := List.take_append_drop 2 (sb.drop 56)
    rwa [List.drop_drop] at h
  rw [invertMagic, htake, hdrop, htail, List.take_left' hmagic, List.map_map]
  have hid : ((fun b : UInt8 => ~~~b) ∘ fun b => ~~~b) = id := by
    funext b
    simp
  rw [hid, List.map_id, hback, List.take_append_drop]

end Undo
end Rfsck
