import Rfsck.Storage.LittleEndian

/-!
# The redo log format

The records of `redo.h` and their byte images.

* The log starts with a header of 512 bytes.
* Key blocks of 4096 bytes follow.  A key block has a 16-byte head and room for
  255 tags of 16 bytes; the data of the tags of a key block stand right behind
  it, in tag order, and the next key block behind them.
* A tag is a begin tag, an end tag, a data tag or an empty slot; which one it is
  can only be told from its field values and from the tags before it.

All fields are little endian, as the structures of the source are written to the
file as they lie in memory.  The checksum function is a parameter of the later
modules; `crc32c` is the one of the source.
-/

namespace Rfsck
namespace Redo

open Storage

/-- One byte of the bit-at-a-time branch of `crc32_le_generic`. -/
def crcByte (crc : UInt32) (b : UInt8) : UInt32 :=
  let bit (c : UInt32) : UInt32 :=
    (c >>> 1) ^^^ (if c &&& 1 = 1 then 0x82F63B78 else 0)
  bit (bit (bit (bit (bit (bit (bit (bit (crc ^^^ b.toUInt32))))))))

/-- `ext2fs_crc32c_le`. -/
def ext2fsCrc32cLe (crc : UInt32) (p : Bytes) : UInt32 :=
  p.foldl crcByte crc

/-- The checksum of the log: every call of the source passes the seed `~0`. -/
def crc32c (p : Bytes) : UInt32 :=
  ext2fsCrc32cLe 0xFFFFFFFF p

/-- `hash` over the bytes of a terminated string. -/
def hash (str : Bytes) : UInt32 :=
  str.foldl (fun h c => ((h <<< 5) + h) + c.toUInt32) 5381

/-- `REDO_HEADER_MAGIC_NUMBER`, the text `E2REDO01`. -/
def redoHeaderMagicNumber : Bytes :=
  [69, 50, 82, 69, 68, 79, 48, 49]

/-- `REDO_BLOCK_MAGIC_NUMBER`, the text `E2REDO02`. -/
def redoBlockMagicNumber : Bytes :=
  [69, 50, 82, 69, 68, 79, 48, 50]

/-- `E2REDO_STATE_FINISHED`. -/
def e2redoStateFinished : UInt32 := 0x1

/-- `TXN_CHKSM_CNST`. -/
def txnChksmCnst : UInt32 := 0x3F921710

/-- `TXN_REPLAYED_CNST`. -/
def txnReplayedCnst : UInt64 := 0x2FC8310A

/-- `REDO_LOG_BLOCK_SIZE`. -/
def redoLogBlockSize : Nat := 4096

/-- `sizeof(struct redo_header)`. -/
def redoHeaderSize : Nat := 512

/-- `sizeof(struct redo_block_tag)`. -/
def redoBlockTagSize : Nat := 16

/-- `KEYS_PER_BLOCK`; `redo_block_size` is `REDO_LOG_BLOCK_SIZE` throughout. -/
def keysPerBlock : Nat := redoLogBlockSize / redoBlockTagSize - 1

theorem keysPerBlock_eq : keysPerBlock = 255 := by
  rfl

/-- Cut or zero-fill a byte string to a given length. -/
def fit (n : Nat) (bs : Bytes) : Bytes :=
  (bs ++ List.replicate n 0).take n

@[simp] theorem length_fit (n : Nat) (bs : Bytes) : (fit n bs).length = n := by
  simp [fit]

theorem fit_append
    {as : Bytes} {n : Nat} (h : as.length = n) (bs : Bytes) :
    fit n (as ++ bs) = as := by
  subst h
  simp [fit]

theorem fit_of_length {as : Bytes} {n : Nat} (h : as.length = n) :
    fit n as = as := by
  have h' := fit_append h []
  rwa [List.append_nil] at h'

/-- `struct redo_header`. -/
@[ext] structure RedoHeader where
  magic : Bytes
  numKeys : UInt64
  superOffset : UInt64
  keyOffset : UInt64
  sbCrc : UInt32
  state : UInt32
  headerCrc : UInt32
  padding : Bytes
  magic_length : magic.length = 8
  padding_length : padding.length = 468

namespace RedoHeader

def encode (h : RedoHeader) : Bytes :=
  h.magic ++ (le64 h.numKeys ++ (le64 h.superOffset ++ (le64 h.keyOffset ++
    (le32 h.sbCrc ++ (le32 h.state ++ (le32 h.headerCrc ++ h.padding))))))

/-- The header that 512 bytes of memory denote. -/
def decode (bs : Bytes) : RedoHeader where
  magic := fit 8 bs
  numKeys := get64 (bs.drop 8)
  superOffset := get64 (bs.drop 16)
  keyOffset := get64 (bs.drop 24)
  sbCrc := get32 (bs.drop 32)
  state := get32 (bs.drop 36)
  headerCrc := get32 (bs.drop 40)
  padding := fit 468 (bs.drop 44)
  magic_length := length_fit 8 bs
  padding_length := length_fit 468 (bs.drop 44)

@[simp] theorem length_encode (h : RedoHeader) :
    h.encode.length = redoHeaderSize := by
  simp [encode, h.magic_length, h.padding_length, redoHeaderSize]

@[simp] theorem decode_encode (h : RedoHeader) : decode h.encode = h := by
  have d8 : h.encode.drop 8 = le64 h.numKeys ++ (le64 h.superOffset ++
      (le64 h.keyOffset ++ (le32 h.sbCrc ++ (le32 h.state ++
        (le32 h.headerCrc ++ h.padding))))) := by
    rw [encode, List.drop_left' h.magic_length]
  have d16 : h.encode.drop 16 = le64 h.superOffset ++
      (le64 h.keyOffset ++ (le32 h.sbCrc ++ (le32 h.state ++
        (le32 h.headerCrc ++ h.padding)))) := by
    rw [show 16 = 8 + 8 by rfl, ← List.drop_drop, d8, List.drop_left' (length_le64 _)]
  have d24 : h.encode.drop 24 = le64 h.keyOffset ++ (le32 h.sbCrc ++
      (le32 h.state ++ (le32 h.headerCrc ++ h.padding))) := by
    rw [show 24 = 16 + 8 by rfl, ← List.drop_drop, d16, List.drop_left' (length_le64 _)]
  have d32 : h.encode.drop 32 = le32 h.sbCrc ++
      (le32 h.state ++ (le32 h.headerCrc ++ h.padding)) := by
    rw [show 32 = 24 + 8 by rfl, ← List.drop_drop, d24, List.drop_left' (length_le64 _)]
  have d36 : h.encode.drop 36 = le32 h.state ++ (le32 h.headerCrc ++ h.padding) := by
    rw [show 36 = 32 + 4 by rfl, ← List.drop_drop, d32, List.drop_left' (length_le32 _)]
  have d40 : h.encode.drop 40 = le32 h.headerCrc ++ h.padding := by
    rw [show 40 = 36 + 4 by rfl, ← List.drop_drop, d36, List.drop_left' (length_le32 _)]
  have d44 : h.encode.drop 44 = h.padding := by
    rw [show 44 = 40 + 4 by rfl, ← List.drop_drop, d40, List.drop_left' (length_le32 _)]
  have hmagic : fit 8 h.encode = h.magic := fit_append h.magic_length _
  apply RedoHeader.ext
  · exact hmagic
  · simp [decode, d8]
  · simp [decode, d16]
  · simp [decode, d24]
  · simp [decode, d32]
  · simp [decode, d36]
  · simp [decode, d40]
  · simp [decode, d44, fit_of_length h.padding_length]

/-- The checksum of a header, computed with a cleared checksum field. -/
def checksum (crc : Bytes → UInt32) (h : RedoHeader) : UInt32 :=
  crc { h with headerCrc := 0 }.encode

/-- The header passes both tests of `rfsck_replay`. -/
def Finished (crc : Bytes → UInt32) (h : RedoHeader) : Prop :=
  h.headerCrc = h.checksum crc ∧ h.state = e2redoStateFinished

instance (crc : Bytes → UInt32) (h : RedoHeader) : Decidable (h.Finished crc) :=
  inferInstanceAs (Decidable (_ ∧ _))

end RedoHeader

/-- `struct redo_block_tag`. -/
@[ext] structure RedoBlockTag where
  offset : UInt64
  size : UInt32
  blkCrc : UInt32
deriving DecidableEq, Repr, Inhabited

namespace RedoBlockTag

/-- The tag of zero bytes, an unused slot. -/
def empty : RedoBlockTag where
  offset := 0
  size := 0
  blkCrc := 0

def encode (t : RedoBlockTag) : Bytes :=
  le64 t.offset ++ (le32 t.size ++ le32 t.blkCrc)

/-- The tag that 16 bytes of memory denote. -/
def decode (bs : Bytes) : RedoBlockTag where
  offset := get64 bs
  size := get32 (bs.drop 8)
  blkCrc := get32 (bs.drop 12)

@[simp] theorem length_encode (t : RedoBlockTag) :
    t.encode.length = redoBlockTagSize := by
  simp [encode, redoBlockTagSize]

@[simp] theorem decode_encode_append (t : RedoBlockTag) (bs : Bytes) :
    decode (t.encode ++ bs) = t := by
  have d8 : (t.encode ++ bs).drop 8 = le32 t.size ++ (le32 t.blkCrc ++ bs) := by
    rw [encode, List.append_assoc, List.drop_left' (length_le64 _), List.append_assoc]
  have d12 : (t.encode ++ bs).drop 12 = le32 t.blkCrc ++ bs := by
    rw [show 12 = 8 + 4 by rfl, ← List.drop_drop, d8, List.drop_left' (length_le32 _)]
  apply RedoBlockTag.ext
  · simp [decode, encode]
  · simp [decode, d8]
  · simp [decode, d12]

/-- The tag of a transaction that has been replayed. -/
def marked (t : RedoBlockTag) : RedoBlockTag :=
  { t with offset := txnReplayedCnst }

@[simp] theorem marked_size (t : RedoBlockTag) : t.marked.size = t.size := by
  rfl

@[simp] theorem marked_offset (t : RedoBlockTag) :
    t.marked.offset = txnReplayedCnst := by
  rfl

@[simp] theorem marked_marked (t : RedoBlockTag) : t.marked.marked = t.marked := by
  rfl

end RedoBlockTag

def encodeTags (ts : List RedoBlockTag) : Bytes :=
  ts.flatMap RedoBlockTag.encode

/-- Read `n` tags. -/
def decodeTags : Nat → Bytes → List RedoBlockTag
  | 0, _ => []
  | n + 1, bs => RedoBlockTag.decode bs :: decodeTags n (bs.drop redoBlockTagSize)

theorem length_encodeTags (ts : List RedoBlockTag) :
    (encodeTags ts).length = redoBlockTagSize * ts.length := by
  induction ts with
  | nil =>
      rfl
  | cons t ts ih =>
      simp only [encodeTags] at ih
      simp only [encodeTags, List.flatMap_cons, List.length_append, ih,
        RedoBlockTag.length_encode, List.length_cons]
      ring

@[simp] theorem length_decodeTags (n : Nat) (bs : Bytes) :
    (decodeTags n bs).length = n := by
  induction n generalizing bs with
  | zero =>
      rfl
  | succ n ih =>
      simp [decodeTags, ih]

theorem decodeTags_encodeTags (ts : List RedoBlockTag) :
    decodeTags ts.length (encodeTags ts) = ts := by
  induction ts with
  | nil =>
      rfl
  | cons t ts ih =>
      have hcons : encodeTags (t :: ts) = t.encode ++ encodeTags ts := by
        rfl
      rw [hcons, List.length_cons, decodeTags, RedoBlockTag.decode_encode_append,
        List.drop_left' (RedoBlockTag.length_encode t), ih]

/-- `struct redo_block` with the tags that fit a key block of the log. -/
@[ext] structure RedoBlock where
  magic : UInt32
  crc : UInt32
  reserved : UInt64
  tags : List RedoBlockTag
  tags_length : tags.length = keysPerBlock

namespace RedoBlock

/-- A key block of zero bytes, as `calloc` returns it. -/
def zero : RedoBlock where
  magic := 0
  crc := 0
  reserved := 0
  tags := List.replicate keysPerBlock RedoBlockTag.empty
  tags_length := by simp

/-- `tags[i]`. -/
def tag (kb : RedoBlock) (i : Nat) : RedoBlockTag :=
  kb.tags[i]?.getD RedoBlockTag.empty

/-- Assignment to `tags[i]`. -/
def setTag (kb : RedoBlock) (i : Nat) (t : RedoBlockTag) : RedoBlock :=
  { kb with
    tags := kb.tags.set i t
    tags_length := by rw [List.length_set, kb.tags_length] }

def encode (kb : RedoBlock) : Bytes :=
  le32 kb.magic ++ (le32 kb.crc ++ (le64 kb.reserved ++ encodeTags kb.tags))

/-- The key block that 4096 bytes of memory denote. -/
def decode (bs : Bytes) : RedoBlock where
  magic := get32 bs
  crc := get32 (bs.drop 4)
  reserved := get64 (bs.drop 8)
  tags := decodeTags keysPerBlock (bs.drop 16)
  tags_length := length_decodeTags keysPerBlock (bs.drop 16)

@[simp] theorem length_encode (kb : RedoBlock) :
    kb.encode.length = redoLogBlockSize := by
  simp [encode, length_encodeTags, kb.tags_length, keysPerBlock, redoLogBlockSize,
    redoBlockTagSize]

@[simp] theorem decode_encode (kb : RedoBlock) : decode kb.encode = kb := by
  have d4 : kb.encode.drop 4 =
      le32 kb.crc ++ (le64 kb.reserved ++ encodeTags kb.tags) := by
    rw [encode, List.drop_left' (length_le32 _)]
  have d8 : kb.encode.drop 8 = le64 kb.reserved ++ encodeTags kb.tags := by
    rw [show 8 = 4 + 4 by rfl, ← List.drop_drop, d4, List.drop_left' (length_le32 _)]
  have d16 : kb.encode.drop 16 = encodeTags kb.tags := by
    rw [show 16 = 8 + 8 by rfl, ← List.drop_drop, d8, List.drop_left' (length_le64 _)]
  apply RedoBlock.ext
  · simp [decode, encode]
  · simp [decode, d4]
  · simp [decode, d8]
  · have htags := decodeTags_encodeTags kb.tags
    rw [kb.tags_length] at htags
    simp [decode, d16, htags]

@[simp] theorem setTag_tags (kb : RedoBlock) (i : Nat) (t : RedoBlockTag) :
    (kb.setTag i t).tags = kb.tags.set i t := by
  rfl

theorem tag_setTag_self
    (kb : RedoBlock) {i : Nat} (h : i < keysPerBlock) (t : RedoBlockTag) :
    (kb.setTag i t).tag i = t := by
  simp [tag, kb.tags_length, h]

theorem tag_setTag_of_ne
    (kb : RedoBlock) {i j : Nat} (h : i ≠ j) (t : RedoBlockTag) :
    (kb.setTag i t).tag j = kb.tag j := by
  simp [tag, List.getElem?_set_ne h]

theorem getElem?_tags (kb : RedoBlock) {i : Nat} (h : i < keysPerBlock) :
    kb.tags[i]? = some (kb.tag i) := by
  have hlt : i < kb.tags.length := by
    rw [kb.tags_length]
    exact h
  simp [tag, List.getElem?_eq_getElem hlt]

theorem ext_tag
    {kb kb' : RedoBlock}
    (hmagic : kb.magic = kb'.magic)
    (hcrc : kb.crc = kb'.crc)
    (hreserved : kb.reserved = kb'.reserved)
    (htag : ∀ i, i < keysPerBlock → kb.tag i = kb'.tag i) :
    kb = kb' := by
  apply RedoBlock.ext hmagic hcrc hreserved
  apply List.ext_getElem?
  intro i
  by_cases hi : i < keysPerBlock
  · rw [getElem?_tags kb hi, getElem?_tags kb' hi, htag i hi]
  · rw [List.getElem?_eq_none (by rw [kb.tags_length]; omega),
      List.getElem?_eq_none (by rw [kb'.tags_length]; omega)]

/-- The magic number and the checksum that every write of a key block sets. -/
def stamp (crc : Bytes → UInt32) (kb : RedoBlock) : RedoBlock :=
  let kb := { kb with magic := hash redoBlockMagicNumber, crc := 0 }
  { kb with crc := crc kb.encode }

theorem stamp_congr
    (crc : Bytes → UInt32) {kb kb' : RedoBlock}
    (htags : kb.tags = kb'.tags) (hreserved : kb.reserved = kb'.reserved) :
    kb.stamp crc = kb'.stamp crc := by
  have h : ({ kb with magic := hash redoBlockMagicNumber, crc := 0 } : RedoBlock) =
      { kb' with magic := hash redoBlockMagicNumber, crc := 0 } :=
    RedoBlock.ext rfl rfl hreserved htags
  apply RedoBlock.ext
  · rfl
  · exact congrArg (fun b : RedoBlock => crc b.encode) h
  · exact hreserved
  · exact htags

end RedoBlock

end Redo
end Rfsck
