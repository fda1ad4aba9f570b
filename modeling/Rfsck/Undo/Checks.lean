import Rfsck.Undo.Layout

/-!
# What is checked before the replay

A run of `e2undo` without `-f` comes to its replay loop exactly if the header, the superblock
of the device, all key blocks and the data of all keys pass their checks; the replay then
writes the bytes that were checked.

Where it writes them is another matter.  The product of the block number of a key and the
block size of the header is not checked.  It is computed in signed 64-bit integers, and the
block size passes through an `int`, so that a key can denote one place and be written to
another one.
-/

namespace Rfsck
namespace Undo

open Storage
open Redo (fit length_fit fit_of_length)

/-- Everything that is checked before the replay. -/
structure Validated (opts : Options) (undo : Medium) (dev : ByteFile) (hdr : UndoHeader)
    (ikeys : List UndoKeyInfo) : Prop where
  header : ∃ bytes, undo.readBlk64 1024 0 (-undoHeaderSize) = some bytes ∧
    hdr = UndoHeader.decode bytes
  magic : hdr.magic = e2undoMagic
  headerChecksum : hdr.headerCrc = hdr.checksum
  blockSize_ge : e2undoMinBlockSize ≤ hdr.blockSize.toNat
  blockSize_le : hdr.blockSize.toNat ≤ e2undoMaxBlockSize
  fsBlockSize_ne : hdr.fsBlockSize ≠ 0
  features : hdr.fIncompat = 0 ∧ hdr.fRocompat = 0
  superblock : ∃ super copy, readSuper dev (fsOffset opts hdr) = some super ∧
    undo.readBlk64 hdr.blockSize.toNat hdr.superOffset.toNat (-superblockSize) = some copy ∧
    super = invertMagic copy ∧ hdr.sbCrc = crc32c super
  memory : undoKeyInfoSize * hdr.numKeys.toNat % 2 ^ 64 < 2 ^ 63
  keys : KeyBlocksAt undo hdr.blockSize.toNat hdr.numKeys.toNat hdr.keyOffset.toNat ikeys

section Run

variable {sort : Qsort} {memory : Nat → UndoKeyInfo} {opts : Options} {undo : Medium}
  {dev : ByteFile} {hdr : UndoHeader} {ikeys : List UndoKeyInfo}

theorem checkFilesystem_iff {offset : UInt64} :
    checkFilesystem hdr undo dev offset = true ↔
      ∃ super copy, readSuper dev offset = some super ∧
        undo.readBlk64 hdr.blockSize.toNat hdr.superOffset.toNat (-superblockSize) = some copy ∧
        super = invertMagic copy ∧ hdr.sbCrc = crc32c super := by
  simp only [checkFilesystem, Option.any_eq_true, decide_eq_true_eq]
  constructor
  · rintro ⟨super, hsuper, copy, hcopy, rfl, hcrc⟩
    exact ⟨_, copy, hsuper, hcopy, rfl, hcrc⟩
  · rintro ⟨super, copy, hsuper, hcopy, rfl, hcrc⟩
    exact ⟨_, hsuper, copy, hcopy, rfl, hcrc⟩

theorem readHeader_eq_ok_iff (hforce : opts.force = false) :
    readHeader opts undo = .ok hdr ↔
      (∃ bytes, undo.readBlk64 1024 0 (-undoHeaderSize) = some bytes ∧
        hdr = UndoHeader.decode bytes) ∧
      hdr.magic = e2undoMagic ∧ opts.dump = false ∧ hdr.headerCrc = hdr.checksum ∧
      hdr.fsBlockSize ≠ 0 ∧ e2undoMinBlockSize ≤ hdr.blockSize.toNat ∧
      hdr.blockSize.toNat ≤ e2undoMaxBlockSize ∧ hdr.fIncompat = 0 ∧ hdr.fRocompat = 0 := by
  have hpos : e2undoMinBlockSize ≤ hdr.blockSize.toNat → hdr.blockSize ≠ 0 := by
    rintro hge hzero
    rw [hzero, e2undoMinBlockSize] at hge
    simp at hge
  rw [readHeader]
  cases hread : undo.readBlk64 1024 0 (-undoHeaderSize) with
  | none =>
      simp
  | some bytes =>
      simp only [hforce, Option.some.injEq, exists_eq_left']
      constructor
      · intro h
        split_ifs at h with h1 h2 h3 h4 h5 h6 h7
        obtain rfl := Except.ok.inj h
        simp only [Bool.not_false, true_and, not_or, not_lt, not_not] at h1 h3 h4 h5 h6 h7
        exact ⟨rfl, h1, by simpa using h2, h3, h4.2, h6, h5, h7⟩
      · rintro ⟨rfl, hmagic, hdump, hcrc, hfs, hge, hle, hin, hro⟩
        have hne := hpos hge
        rw [if_neg (by simpa using hmagic), if_neg (by simp [hdump]),
          if_neg (by simpa using hcrc), if_neg (by simp [hne, hfs]),
          if_neg (by simpa using hle), if_neg (by simpa using hge),
          if_neg (by simp [hin, hro])]

theorem keysPerBlock_lt {blocksize : Nat} (hmin : e2undoMinBlockSize ≤ blocksize)
    (hmax : blocksize ≤ e2undoMaxBlockSize) : keysPerBlock blocksize < 65536 := by
  rw [e2undoMinBlockSize] at hmin
  rw [e2undoMaxBlockSize] at hmax
  rw [keysPerBlock_eq (by omega) (by omega)]
  omega

theorem numKeys_add_lt {n blocksize : Nat} (hmin : e2undoMinBlockSize ≤ blocksize)
    (hmax : blocksize ≤ e2undoMaxBlockSize) (hn : n < 2 ^ 64)
    (hmemory : undoKeyInfoSize * n % 2 ^ 64 < 2 ^ 63) :
    n + keysPerBlock blocksize < 2 ^ 64 := by
  have hkpb := keysPerBlock_lt hmin hmax
  rw [undoKeyInfoSize] at hmemory
  by_contra hcon
  -- the product lies right below a multiple of 2 ^ 64
  have hdiv : 24 * n / 2 ^ 64 = 23 := by
    omega
  omega

/-- **A run without `-f` comes to the replay exactly if everything passes its checks.** -/
theorem e2undo_eq_ok_iff (hforce : opts.force = false) (r : Replay) :
    (∃ rounds, e2undo sort memory opts undo dev rounds = some (.ok r)) ↔
      opts.dump = false ∧ ∃ hdr ikeys, Validated opts undo dev hdr ikeys ∧
        r = replay sort memory opts undo hdr ⟨ikeys, hdr.numKeys.toNat, ⟨false, false⟩⟩ := by
  constructor
  · rintro ⟨rounds, h⟩
    rw [e2undo] at h
    cases hheader : readHeader opts undo with
    | error e =>
        rw [hheader] at h
        simp at h
    | ok hdr =>
        rw [hheader] at h
        obtain ⟨hread, hmagic, hdump, hcrc, hfs, hge, hle, hin, hro⟩ :=
          (readHeader_eq_ok_iff hforce).mp hheader
        dsimp only at h
        split_ifs at h with hsuper hmemory
        · simp at h
        · simp at h
        rw [hforce] at h
        rw [hforce, Bool.not_false, eq_self, true_and, Bool.not_eq_true', Bool.not_eq_false] at hsuper
        have hsuper := checkFilesystem_iff.mp hsuper
        have hwrap := numKeys_add_lt hge hle hdr.numKeys.toNat_lt (not_le.mp hmemory)
        cases hload : loadLoop false undo hdr.blockSize.toNat hdr.numKeys.toNat rounds 0
            hdr.keyOffset.toNat [] ⟨false, false⟩ with
        | none =>
            rw [hload] at h
            simp at h
        | some result =>
            cases result with
            | error e =>
                rw [hload] at h
                simp at h
            | ok l =>
                obtain ⟨ikeys, hkeys, rfl⟩ := keyBlocksAt_of_loadLoop hle hwrap hload
                rw [hload] at h
                have hreplay := Except.ok.inj (Option.some.inj h)
                refine ⟨hdump, hdr, ikeys, ?_, hreplay.symm⟩
                exact ⟨hread, hmagic, hcrc, hge, hle, hfs, ⟨hin, hro⟩, hsuper,
                  not_le.mp hmemory, hkeys⟩
  · rintro ⟨hdump, hdr, ikeys, hv, rfl⟩
    have hheader : readHeader opts undo = .ok hdr :=
      (readHeader_eq_ok_iff hforce).mpr ⟨hv.header, hv.magic, hdump, hv.headerChecksum,
        hv.fsBlockSize_ne, hv.blockSize_ge, hv.blockSize_le, hv.features⟩
    have hwrap := numKeys_add_lt hv.blockSize_ge hv.blockSize_le hdr.numKeys.toNat_lt hv.memory
    obtain ⟨rounds, hload⟩ := hv.keys.loadLoop hv.blockSize_le hv.blockSize_ge hwrap
      (Nat.sub_zero _).symm false [] ⟨false, false⟩
    refine ⟨rounds, ?_⟩
    rw [e2undo, hheader]
    dsimp only
    rw [if_neg (by simp [checkFilesystem_iff.mpr hv.superblock]),
      if_neg (not_le.mpr hv.memory), hforce, hload]
    rfl

theorem keyArray_eq (h : ikeys.length = hdr.numKeys.toNat) (errors : Errors) :
    keyArray memory ⟨ikeys, hdr.numKeys.toNat, errors⟩ = ikeys := by
  apply List.ext_getElem
  · simp [keyArray, h]
  · intro i hi hi'
    simp [keyArray, List.getElem?_eq_getElem hi']

theorem writes_replay (h : ikeys.length = hdr.numKeys.toNat) (errors : Errors) :
    (replay sort memory opts undo hdr ⟨ikeys, hdr.numKeys.toNat, errors⟩).writes =
      (sort.apply ikeys).filterMap (keyWrite opts undo hdr) :=
  congrArg (fun keys => (sort.apply keys).filterMap (keyWrite opts undo hdr))
    (keyArray_eq h errors)

theorem KeysAt.fsblk_lt {ks : List UndoKey} {blocksize lblk lblk' : Nat}
    (h : KeysAt undo blocksize ks lblk ikeys lblk') : ∀ ikey ∈ ikeys, ikey.fsblk < 2 ^ 64 := by
  induction h with
  | nil lblk =>
      intro ikey hmem
      simp at hmem
  | cons intact rest ih =>
      intro ikey hmem
      rcases List.mem_cons.mp hmem with rfl | hmem
      · exact UInt64.toNat_lt _
      · exact ih ikey hmem

theorem KeyBlocksAt.fsblk_lt {n blocksize lblk : Nat}
    (h : KeyBlocksAt undo blocksize n lblk ikeys) : ∀ ikey ∈ ikeys, ikey.fsblk < 2 ^ 64 := by
  induction h with
  | done lblk =>
      intro ikey hmem
      simp at hmem
  | block pos read magic crc keys next ih =>
      intro ikey hmem
      rcases List.mem_append.mp hmem with hmem | hmem
      · exact keys.fsblk_lt ikey hmem
      · exact ih ikey hmem

/-- The place that a key denotes, in exact integers. -/
def keyPlace (opts : Options) (hdr : UndoHeader) (ikey : UndoKeyInfo) : Nat :=
  ikey.fsblk * hdr.fsBlockSize.toNat + (fsOffset opts hdr).toNat

/-- The bytes of a key at the place that it denotes. -/
def checkedPatch (opts : Options) (undo : Medium) (hdr : UndoHeader) (ikey : UndoKeyInfo) :
    Patch where
  offset := keyPlace opts hdr ikey
  data := (fetch undo hdr.blockSize.toNat ikey).getD []

/-- The position of a key can be computed in the types of the source. -/
def Reachable (opts : Options) (hdr : UndoHeader) (ikey : UndoKeyInfo) : Prop :=
  keyPlace opts hdr ikey < 2 ^ 63 ∧ (hdr.fsBlockSize.toNat < 2 ^ 31 ∨ ikey.fsblk = 0)

theorem toLoff_lt (n : Int) : toLoff n < 2 ^ 63 := by
  have h := @Int.bmod_lt n (2 ^ 64) (by norm_num)
  rw [toLoff]
  omega

/-- A multiple of the width of an `int` that leaves a 64-bit value unchanged. -/
theorem dvd_of_emod_eq {x off : Int} {b : Nat}
    (h : (x + off) % 2 ^ 64 = (x - b * 2 ^ 32 + off) % 2 ^ 64) : 2 ^ 32 ∣ b := by
  omega

theorem keyPosition_eq_iff {ikey : UndoKeyInfo} (hfs : hdr.fsBlockSize ≠ 0)
    (hblk : ikey.fsblk < 2 ^ 64) :
    keyPosition opts hdr ikey = keyPlace opts hdr ikey ↔ Reachable opts hdr ikey := by
  have hpos : 0 < hdr.fsBlockSize.toNat := by
    rcases Nat.eq_zero_or_pos hdr.fsBlockSize.toNat with hzero | hpos
    · exact absurd (UInt32.toNat_inj.mp hzero) hfs
    · exact hpos
  have hbs := hdr.fsBlockSize.toNat_lt
  have hoff := (fsOffset opts hdr).toNat_lt
  rw [Reachable, keyPlace, keyPosition]
  generalize hdr.fsBlockSize.toNat = bs at hpos hbs ⊢
  generalize (fsOffset opts hdr).toNat = off at hoff ⊢
  generalize ikey.fsblk = blk at hblk ⊢
  have hle : blk ≤ blk * bs := Nat.le_mul_of_pos_right blk hpos
  constructor
  · intro h
    have hlt : blk * bs + off < 2 ^ 63 := by
      have := toLoff_lt (toLoff blk * toInt32 bs + toLoff off)
      rw [← location, h] at this
      omega
    refine ⟨hlt, ?_⟩
    by_contra hcon
    obtain ⟨hbig, hblk0⟩ := not_or.mp hcon
    have hb : toInt32 bs = bs - 2 ^ 32 := by
      rw [toInt32, Int.bmod_def, Int.emod_eq_of_lt (by omega) (by omega), if_neg (by omega)]
      norm_num
    have hk : toLoff blk = blk := Int.bmod_eq_of_le (by omega) (by omega)
    have ho : toLoff off = off := Int.bmod_eq_of_le (by omega) (by omega)
    rw [location, hb, hk, ho, toLoff] at h
    have hmod := @Int.bmod_emod (blk * (bs - 2 ^ 32) + off) (2 ^ 64)
    rw [h] at hmod
    have hprod : (blk : Int) * (bs - 2 ^ 32) = (blk * bs : Nat) - blk * 2 ^ 32 := by
      push_cast
      ring
    have hlarge : blk * 2 ^ 31 ≤ blk * bs := Nat.mul_le_mul_left _ (by omega)
    rw [hprod, Nat.cast_add] at hmod
    have hdvd := dvd_of_emod_eq hmod
    have hblk1 : 2 ^ 32 ≤ blk := Nat.le_of_dvd (Nat.pos_of_ne_zero hblk0) hdvd
    omega
  · rintro ⟨hlt, hsmall⟩
    have ho : toLoff off = off := Int.bmod_eq_of_le (by omega) (by omega)
    rw [ho]
    rcases hsmall with hsmall | rfl
    · exact location_of_lt blk off hpos hsmall hlt
    · have hzero : location (toInt32 bs) (0 : Nat) off = off := by
        rw [location, show toLoff (0 : Nat) = 0 by rfl, Int.zero_mul, Int.zero_add]
        exact ho
      rw [hzero, Nat.zero_mul, Nat.zero_add]

theorem Intact.size_lt {blocksize : Nat} {ikey : UndoKeyInfo}
    (h : Intact undo blocksize ikey) (hmax : blocksize ≤ e2undoMaxBlockSize) :
    ikey.size < 2 ^ 31 := by
  have hle := h.1
  rw [e2undoMaxExtentBlocks] at hle
  rw [e2undoMaxBlockSize] at hmax
  omega

theorem keyWrite_eq {ikey : UndoKeyInfo} (h : Intact undo hdr.blockSize.toNat ikey)
    (hmax : hdr.blockSize.toNat ≤ e2undoMaxBlockSize) (hdry : opts.dryRun = false) :
    keyWrite opts undo hdr ikey =
      if ikey.size = 0 then
        none
      else if keyPosition opts hdr ikey < 0 then
        none
      else
        some ⟨(keyPosition opts hdr ikey).toNat, (checkedPatch opts undo hdr ikey).data⟩ := by
  have hsize := h.size_lt hmax
  obtain ⟨data, hdata, -⟩ := h.2
  have hfit : fit ikey.size data = data := fit_of_length (length_of_fetch hsize hdata)
  have hlength : keyLength hdr ikey = ikey.size := transferSize_neg hsize
  simp only [keyWrite, replayKey, hdata, hdry, hlength, checkedPatch, hfit, Bool.false_eq_true, false_or, Option.getD_some, Option.elim_some]
  split_ifs with hzero hneg
  · rfl
  · rfl
  · rfl

theorem keyWrite_eq_checkedPatch_iff {ikey : UndoKeyInfo}
    (h : Intact undo hdr.blockSize.toNat ikey)
    (hmax : hdr.blockSize.toNat ≤ e2undoMaxBlockSize) (hdry : opts.dryRun = false)
    (hfs : hdr.fsBlockSize ≠ 0) (hblk : ikey.fsblk < 2 ^ 64) (hsize : ikey.size ≠ 0) :
    keyWrite opts undo hdr ikey = some (checkedPatch opts undo hdr ikey) ↔
      Reachable opts hdr ikey := by
  rw [keyWrite_eq h hmax hdry, if_neg hsize, ← keyPosition_eq_iff hfs hblk]
  split_ifs with hneg
  · simp only [false_iff]
    omega
  · simp only [Option.some.injEq, checkedPatch, Patch.mk.injEq, and_true]
    omega

theorem filterMap_eq_map_filter_iff {α β : Type} {f : α → Option β} {p : α → Bool} {g : α → β}
    {l : List α} (hnone : ∀ a ∈ l, p a = false → f a = none) :
    l.filterMap f = (l.filter p).map g ↔ ∀ a ∈ l, p a = true → f a = some (g a) := by
  induction l with
  | nil =>
      simp
  | cons a l ih =>
      have ih := ih (fun b hb => hnone b (by simp [hb]))
      by_cases hp : p a = true
      · rw [List.filter_cons_of_pos hp, List.map_cons]
        cases hf : f a with
        | none =>
            rw [List.filterMap_cons_none hf]
            constructor
            · intro h
              -- one element of the right side has no partner on the left
              have hle : (l.filterMap f).length ≤ (l.filter p).length := by
                rw [← List.countP_eq_length_filter, List.length_filterMap_eq_countP]
                apply List.countP_mono_left
                intro b hb hsome
                by_contra hpb
                rw [hnone b (by simp [hb]) (by simpa using hpb)] at hsome
                simp at hsome
              rw [h] at hle
              simp at hle
            · intro h
              rw [h a (by simp) hp] at hf
              simp at hf
        | some b =>
            rw [List.filterMap_cons_some hf, List.cons.injEq, ih]
            simp [hp, hf]
      · rw [List.filter_cons_of_neg hp, List.filterMap_cons_none (hnone a (by simp) (by simpa using hp)),
          ih]
        simp [hp]

/-- The parts of an undo file that hold what a writer has to leave: the header with its
checksum, the copy of the superblock, and the groups. -/
structure Finished (f dev : ByteFile) (offset : Nat) (hdr : UndoHeader) (super : Bytes)
    (gs : List (List Extent)) : Prop where
  header : f.Holds 0 hdr.sealed.encode
  magic : hdr.magic = e2undoMagic
  blockSize_ge : e2undoMinBlockSize ≤ hdr.blockSize.toNat
  blockSize_le : hdr.blockSize.toNat ≤ e2undoMaxBlockSize
  fsBlockSize_ne : hdr.fsBlockSize ≠ 0
  features : hdr.fIncompat = 0 ∧ hdr.fRocompat = 0
  super_length : super.length = superblockSize
  sbCrc : hdr.sbCrc = crc32c super
  copy : f.Holds (hdr.superOffset.toNat * hdr.blockSize.toNat) (invertMagic super)
  superOffset_lt : hdr.superOffset.toNat * hdr.blockSize.toNat < 2 ^ 63
  device : dev.Holds (superblockOffset + offset) super
  offset_lt : superblockOffset + offset < 2 ^ 63
  groups : GroupsAt f hdr.blockSize.toNat hdr.keyOffset.toNat gs
  packed : Packed (keysPerBlock hdr.blockSize.toNat) gs
  fits : ∀ g ∈ gs, ∀ e ∈ g, e.Fits hdr.blockSize.toNat
  groups_lt : (hdr.keyOffset.toNat + groupsBlocks hdr.blockSize.toNat gs) *
    hdr.blockSize.toNat < 2 ^ 63
  numKeys : hdr.numKeys.toNat = (gs.map List.length).sum
  numKeys_lt : undoKeyInfoSize * hdr.numKeys.toNat < 2 ^ 63

theorem Finished.validated {f : ByteFile} {offset : Nat} {super : Bytes}
    {gs : List (List Extent)} (h : Finished f dev offset hdr super gs)
    (hoffset : (fsOffset opts hdr.sealed).toNat = offset) :
    Validated opts (.sound f) dev hdr.sealed
      (groupInfos hdr.blockSize.toNat hdr.keyOffset.toNat gs) := by
  have hmin := h.blockSize_ge
  have hmax := h.blockSize_le
  rw [e2undoMinBlockSize] at hmin
  rw [e2undoMaxBlockSize] at hmax
  have hoff := h.offset_lt
  have hread : (Medium.sound f).readBlk64 1024 0 (-undoHeaderSize) = some hdr.sealed.encode := by
    apply Medium.readBlk64_sound _ _ (by norm_num) (by norm_num) (by norm_num)
    · rw [Nat.zero_mul]
      exact h.header
    · rw [UndoHeader.length_encode]
      rfl
  have hcopy : (Medium.sound f).readBlk64 hdr.blockSize.toNat hdr.superOffset.toNat
      (-superblockSize) = some (invertMagic super) := by
    apply Medium.readBlk64_sound h.copy _ (by omega) (by omega) h.superOffset_lt
    rw [length_invertMagic, h.super_length, UnixIo.transferSize, if_pos (by decide)]
    rfl
  have hsuper : readSuper dev (fsOffset opts hdr.sealed) = some super := by
    have hloc : location superblockOffset (1 : Nat) (toLoff (fsOffset opts hdr.sealed).toNat) =
        (superblockOffset + offset : Nat) := by
      have ho : toLoff (fsOffset opts hdr.sealed).toNat = offset := by
        rw [hoffset]
        exact Int.bmod_eq_of_le (by omega) (by omega)
      have hsize : toInt32 superblockOffset = superblockOffset := by decide
      have hexact := @location_of_lt 1 offset superblockOffset (by decide) (by decide) (by omega)
      rwa [hsize, Nat.one_mul, ← ho] at hexact
    rw [readSuper, hloc]
    exact Medium.read_sound h.device h.super_length
  have hmagic : invertMagic (invertMagic super) = super :=
    invertMagic_invertMagic (by rw [h.super_length]; decide)
  refine ⟨⟨_, hread, (UndoHeader.decode_encode _).symm⟩, h.magic, rfl, h.blockSize_ge,
    h.blockSize_le, h.fsBlockSize_ne, h.features, ?_, ?_, ?_⟩
  · exact ⟨super, invertMagic super, hsuper, hcopy, hmagic.symm, h.sbCrc⟩
  · have hlt := h.numKeys_lt
    show undoKeyInfoSize * hdr.numKeys.toNat % 2 ^ 64 < 2 ^ 63
    rw [Nat.mod_eq_of_lt (by omega)]
    exact hlt
  · have hkeys := h.groups.keyBlocksAt h.blockSize_ge h.blockSize_le h.packed h.fits h.groups_lt
    rw [← h.numKeys] at hkeys
    exact hkeys

/-- The property of a run: what comes to the replay has passed all checks, and the bytes that
were checked are written where their keys say. -/
def ValidatesFirst (sort : Qsort) (memory : Nat → UndoKeyInfo) (opts : Options) (undo : Medium)
    (dev : ByteFile) : Prop :=
  ∀ rounds r, e2undo sort memory opts undo dev rounds = some (.ok r) →
    ∃ hdr ikeys, Validated opts undo dev hdr ikeys ∧ r.keys.Perm ikeys ∧
      (opts.dryRun = false →
        r.writes = (r.keys.filter (fun k => k.size ≠ 0)).map (checkedPatch opts undo hdr))

theorem Validated.hdr_unique {hdr' : UndoHeader} {ikeys' : List UndoKeyInfo}
    (h : Validated opts undo dev hdr ikeys) (h' : Validated opts undo dev hdr' ikeys') :
    hdr' = hdr := by
  obtain ⟨bytes, hread, rfl⟩ := h.header
  obtain ⟨bytes', hread', rfl⟩ := h'.header
  rw [hread] at hread'
  rw [Option.some.inj hread']

/-- The keys of a validated file are written as they were checked exactly if all their
positions can be computed. -/
theorem Validated.writes_iff (h : Validated opts undo dev hdr ikeys) (hdry : opts.dryRun = false)
    {keys : List UndoKeyInfo} (hperm : keys.Perm ikeys) :
    keys.filterMap (keyWrite opts undo hdr) =
        (keys.filter (fun k => k.size ≠ 0)).map (checkedPatch opts undo hdr) ↔
      ∀ ikey ∈ ikeys, ikey.size ≠ 0 → Reachable opts hdr ikey := by
  have hintact : ∀ ikey ∈ keys, Intact undo hdr.blockSize.toNat ikey := fun ikey hmem =>
    h.keys.intact ikey (hperm.mem_iff.mp hmem)
  rw [filterMap_eq_map_filter_iff]
  · constructor
    · intro hwrites ikey hmem hsize
      have hmem' := hperm.mem_iff.mpr hmem
      exact (keyWrite_eq_checkedPatch_iff (hintact ikey hmem') h.blockSize_le hdry
        h.fsBlockSize_ne (h.keys.fsblk_lt ikey hmem) hsize).mp
        (hwrites ikey hmem' (by simpa using hsize))
    · intro hreach ikey hmem hsize
      have hmem' := hperm.mem_iff.mp hmem
      have hsize : ikey.size ≠ 0 := by simpa using hsize
      exact (keyWrite_eq_checkedPatch_iff (hintact ikey hmem) h.blockSize_le hdry
        h.fsBlockSize_ne (h.keys.fsblk_lt ikey hmem') hsize).mpr (hreach ikey hmem' hsize)
  · intro ikey hmem hsize
    rw [keyWrite_eq (hintact ikey hmem) h.blockSize_le hdry, if_pos (by simpa using hsize)]

theorem Validated.replay_perm (h : Validated opts undo dev hdr ikeys) :
    (replay sort memory opts undo hdr ⟨ikeys, hdr.numKeys.toNat, ⟨false, false⟩⟩).keys.Perm
      ikeys := by
  have harray := @keyArray_eq memory hdr ikeys h.keys.length_eq ⟨false, false⟩
  have hkeys : (replay sort memory opts undo hdr
      ⟨ikeys, hdr.numKeys.toNat, ⟨false, false⟩⟩).keys = sort.apply ikeys :=
    congrArg sort.apply harray
  rw [hkeys]
  exact sort.perm ikeys

theorem ValidatesFirst.reachable (h : ValidatesFirst sort memory opts undo dev)
    (hforce : opts.force = false) (hdump : opts.dump = false) (hdry : opts.dryRun = false)
    (hv : Validated opts undo dev hdr ikeys) :
    ∀ ikey ∈ ikeys, ikey.size ≠ 0 → Reachable opts hdr ikey := by
  obtain ⟨rounds, hrun⟩ := (@e2undo_eq_ok_iff sort memory opts undo dev hforce _).mpr
    ⟨hdump, hdr, ikeys, hv, rfl⟩
  obtain ⟨hdr', ikeys', hv', hperm, hwrites⟩ := h rounds _ hrun
  obtain rfl := hv.hdr_unique hv'
  exact (hv.writes_iff hdry hv.replay_perm).mp (hwrites hdry)

/-- **When everything is validated before anything is written, at the place it denotes.** -/
theorem validates_first_iff (hforce : opts.force = false) :
    ValidatesFirst sort memory opts undo dev ↔
      opts.dump = true ∨ opts.dryRun = true ∨
        ∀ hdr ikeys, Validated opts undo dev hdr ikeys →
          ∀ ikey ∈ ikeys, ikey.size ≠ 0 → Reachable opts hdr ikey := by
  constructor
  · intro h
    by_cases hdump : opts.dump = true
    · exact Or.inl hdump
    by_cases hdry : opts.dryRun = true
    · exact Or.inr (Or.inl hdry)
    exact Or.inr (Or.inr fun hdr ikeys hv =>
      h.reachable hforce (by simpa using hdump) (by simpa using hdry) hv)
  · intro h rounds r hrun
    obtain ⟨hdump, hdr, ikeys, hv, rfl⟩ := (e2undo_eq_ok_iff hforce r).mp ⟨rounds, hrun⟩
    refine ⟨hdr, ikeys, hv, hv.replay_perm, fun hdry => ?_⟩
    rcases h with h | h | h
    · rw [hdump] at h
      simp at h
    · rw [hdry] at h
      simp at h
    · exact (hv.writes_iff hdry hv.replay_perm).mpr (h hdr ikeys hv)

end Run

/-- A `qsort` that keeps the order. -/
def Qsort.keep : Qsort where
  apply := id
  perm := fun _ => List.Perm.refl _

def blankSuper : Bytes :=
  List.replicate superblockSize 0

/-- The header of a file with one key, for a file system at offset 2048. -/
def oneKeyHeader : UndoHeader where
  magic := e2undoMagic
  numKeys := 1
  superOffset := 1
  keyOffset := 2
  blockSize := 1024
  fsBlockSize := 1024
  sbCrc := crc32c blankSuper
  state := e2undoStateFinished
  fCompat := e2undoFeatureCompatFsOffset
  fIncompat := 0
  fRocompat := 0
  pad32 := 0
  fsOffset := 2048
  padding := List.replicate 436 0
  headerCrc := 0
  magic_length := length_e2undoMagic
  padding_length := UndoHeader.zero.padding_length

def oneByte (fsblk : Nat) : Extent where
  fsblk := fsblk
  data := [7]

def oneKeyBlock (fsblk : Nat) : UndoKeyBlock :=
  (UndoKeyBlock.zero 1024).setKey 0 (oneByte fsblk).key

def oneKeyFile (fsblk : Nat) : ByteFile :=
  (((ByteFile.empty.pwrite 0 oneKeyHeader.sealed.encode).pwrite 1024
    (invertMagic blankSuper)).pwrite 2048 ((oneKeyBlock fsblk).sealed 1024).encode).pwrite 3072 [7]

/-- A device of 4096 zeros. -/
def blankDevice : ByteFile where
  size := 4096
  byte := fun _ => 0
  byte_eq_zero := fun _ _ => rfl

theorem length_oneKeyBlock (fsblk : Nat) : (oneKeyBlock fsblk).keys.length = 1008 := by
  have hzero : (UndoKeyBlock.zero 1024).keys.length = 1008 := UndoKeyBlock.length_keys_zero 1024
  rw [oneKeyBlock, UndoKeyBlock.length_keys_setKey _ (by rw [hzero, undoKeySize]; omega), hzero]

theorem finished_oneKeyFile {fsblk : Nat} (hlt : fsblk < 2 ^ 64) :
    Finished (oneKeyFile fsblk) blankDevice 2048 oneKeyHeader blankSuper [[oneByte fsblk]] := by
  have hhead : oneKeyHeader.sealed.encode.length = 512 := UndoHeader.length_encode _
  have hsuper : (invertMagic blankSuper).length = 1024 := by
    rw [length_invertMagic, blankSuper, List.length_replicate, superblockSize]
  have hkeyb : ((oneKeyBlock fsblk).sealed 1024).encode.length = 1024 := by
    rw [UndoKeyBlock.length_encode, UndoKeyBlock.sealed_keys, length_oneKeyBlock]
  have hstarts : (oneKeyBlock fsblk).Starts [(oneByte fsblk).key] :=
    (UndoKeyBlock.starts_nil _).setKey _
  have hbyte : ([7] : Bytes).length = 1 := rfl
  have hblocks : groupsBlocks 1024 [[oneByte fsblk]] = 2 := by
    simp [groupsBlocks, groupBlocks, extentsBlocks, Extent.blocks, UnixIo.blocksOf, oneByte]
  have hcrc : oneKeyHeader.sbCrc = crc32c blankSuper := by
    simp only [oneKeyHeader]
  refine ⟨?_, rfl, by decide, by decide, by decide, ⟨rfl, rfl⟩, List.length_replicate, hcrc, ?_,
    by decide, ?_, by decide, ⟨⟨⟨oneKeyBlock fsblk, hstarts, ?_, ?_⟩, ?_, trivial⟩, trivial⟩,
    ?_, ?_, ?_, rfl, by decide⟩
  · exact (((ByteFile.holds_pwrite_self _ _ _).pwrite_of_disjoint (by omega)).pwrite_of_disjoint
      (by omega)).pwrite_of_disjoint (by omega)
  · exact ((ByteFile.holds_pwrite_self _ _ _).pwrite_of_disjoint (by omega)).pwrite_of_disjoint
      (by omega)
  · intro i b hb
    obtain ⟨hi, rfl⟩ := List.getElem?_eq_some_iff.mp hb
    rw [blankSuper, List.length_replicate, superblockSize] at hi
    refine ⟨?_, ?_⟩
    · show 1024 + 2048 + i < 4096
      omega
    · exact (List.getElem_replicate _).symm
  · rw [length_oneKeyBlock]
    rfl
  · exact (ByteFile.holds_pwrite_self _ _ _).pwrite_of_disjoint (by omega)
  · exact ByteFile.holds_pwrite_self _ _ _
  · refine ⟨List.cons_ne_nil _ _, ?_⟩
    show 1 ≤ keysPerBlock 1024
    decide
  · intro g hg e he
    obtain rfl := List.mem_singleton.mp hg
    obtain rfl := List.mem_singleton.mp he
    refine ⟨hlt, ?_⟩
    show 1 ≤ e2undoMaxExtentBlocks * 1024
    decide
  · show (2 + groupsBlocks 1024 [[oneByte fsblk]]) * 1024 < 2 ^ 63
    rw [hblocks]
    norm_num

def oneKeyInfo (fsblk : Nat) : UndoKeyInfo :=
  (oneByte fsblk).key.info 3

theorem validated_oneKeyFile {fsblk : Nat} (hlt : fsblk < 2 ^ 64) :
    Validated Options.none (.sound (oneKeyFile fsblk)) blankDevice oneKeyHeader.sealed
      [oneKeyInfo fsblk] :=
  (finished_oneKeyFile hlt).validated rfl

/-- The key for block 5 is checked and written at its place. -/
theorem validates_first_block_five :
    ValidatesFirst Qsort.keep (fun _ => default) Options.none (.sound (oneKeyFile 5))
      blankDevice := by
  refine (validates_first_iff rfl).mpr (Or.inr (Or.inr fun hdr ikeys hv ikey hmem hsize => ?_))
  have hone := validated_oneKeyFile (show 5 < 2 ^ 64 by norm_num)
  obtain rfl := hone.hdr_unique hv
  obtain rfl := hone.keys.unique hv.keys
  obtain rfl := List.mem_singleton.mp hmem
  exact ⟨by decide, Or.inl (by decide)⟩

/-- **A key for block 2^64 - 1 is written into block 1 of the device.** -/
theorem validated_key_written_elsewhere :
    (∃ rounds r, e2undo Qsort.keep (fun _ => default) Options.none
        (.sound (oneKeyFile (2 ^ 64 - 1))) blankDevice rounds = some (.ok r) ∧
      r.writes = [⟨1024, [7]⟩]) ∧
    ¬ ValidatesFirst Qsort.keep (fun _ => default) Options.none
      (.sound (oneKeyFile (2 ^ 64 - 1))) blankDevice := by
  have hv := validated_oneKeyFile (show 2 ^ 64 - 1 < 2 ^ 64 by norm_num)
  have hintact := hv.keys.intact _ (List.mem_singleton_self _)
  refine ⟨?_, fun h => ?_⟩
  · obtain ⟨rounds, hrun⟩ := (@e2undo_eq_ok_iff Qsort.keep (fun _ => default) Options.none _
      blankDevice rfl _).mpr ⟨rfl, _, _, hv, rfl⟩
    refine ⟨rounds, _, hrun, ?_⟩
    have hfits : (oneByte (2 ^ 64 - 1)).Fits 1024 := ⟨by decide, by decide⟩
    have hfetch : fetch (.sound (oneKeyFile (2 ^ 64 - 1))) oneKeyHeader.sealed.blockSize.toNat
        (oneKeyInfo (2 ^ 64 - 1)) = some [7] := by
      have hsize : oneKeyHeader.sealed.blockSize.toNat = 1024 := rfl
      rw [hsize]
      exact hfits.fetch_eq (by decide) (by decide) (ByteFile.holds_pwrite_self _ _ _) (by decide)
    have hwrite : keyWrite Options.none (.sound (oneKeyFile (2 ^ 64 - 1))) oneKeyHeader.sealed
        (oneKeyInfo (2 ^ 64 - 1)) = some ⟨1024, [7]⟩ := by
      have hposition : keyPosition Options.none oneKeyHeader.sealed (oneKeyInfo (2 ^ 64 - 1)) =
          1024 := by
        decide
      rw [keyWrite_eq hintact (by decide) rfl, if_neg (by decide), hposition,
        if_neg (by decide), checkedPatch, hfetch]
      rfl
    rw [writes_replay rfl]
    exact @List.filterMap_cons_some _ _ _ _ [] _ hwrite
  · have hreach := h.reachable rfl rfl rfl hv _ (List.mem_singleton_self _) (by decide)
    exact absurd hreach.1 (by decide)

end Undo
end Rfsck
