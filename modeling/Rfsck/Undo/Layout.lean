import Rfsck.Undo.E2undo

/-!
# Where the keys and their data lie

Two descriptions of the keys of an undo file, and the step from one to the other.

* For the reader `KeyBlocksAt n lblk ikeys` says that a chain of key blocks with `n` keys
  begins at block `lblk`, that every key block and the data of every key pass the checks, and
  that `ikeys` are the entries.  A run without `-f` loads the keys exactly if this holds.
* For the writer the file is a list of groups of extents: each group is a key block and the
  data of its extents behind it.  A file that holds such groups, all of them full but the
  last one, gives the reader the chain of their keys.
-/

namespace Rfsck
namespace Undo

open Storage
open Redo (fit length_fit fit_of_length)
open UnixIo (transferSize blocksOf)

theorem location_of_lt (block offset : Nat) {blockSize : Nat} (hpos : 0 < blockSize)
    (hsize : blockSize < 2 ^ 31) (h : block * blockSize + offset < 2 ^ 63) :
    location (toInt32 blockSize) block offset = (block * blockSize + offset : Nat) := by
  have hle : block ≤ block * blockSize := Nat.le_mul_of_pos_right block hpos
  have hblock : toLoff block = block := Int.bmod_eq_of_le (by omega) (by omega)
  have hbs : toInt32 blockSize = blockSize := Int.bmod_eq_of_le (by omega) (by omega)
  rw [location, hblock, hbs, toLoff]
  have hcast : (block : Int) * blockSize + offset = (block * blockSize + offset : Nat) := by
    push_cast
    rfl
  rw [hcast]
  exact Int.bmod_eq_of_le (by omega) (by omega)

theorem Medium.read_sound {f : ByteFile} {off n : Nat} {bs : Bytes} (h : f.Holds off bs)
    (hlen : bs.length = n) : (Medium.sound f).read off n = some bs := by
  have hread : f.pread off n = bs := by
    exact ByteFile.pread_of_holds_length h hlen
  rw [Medium.read]
  by_cases hzero : n = 0
  · rw [if_pos hzero]
    rw [hzero] at hlen
    rw [List.eq_nil_of_length_eq_zero hlen]
  · rw [if_neg hzero, if_neg (by omega), if_pos, Int.toNat_natCast]
    · exact congrArg some hread
    · rw [Int.toNat_natCast]
      refine ⟨?_, ?_⟩
      · show (f.pread off n).length = n
        rw [hread, hlen]
      · simp [Medium.sound]

theorem Medium.read_of_short {m : Medium} {off n : Nat} (hpos : 0 < n)
    (h : m.file.size < off + n) : m.read off n = none := by
  have hlen : (m.file.pread off n).length ≠ n := by
    rw [ByteFile.length_pread]
    omega
  rw [Medium.read, if_neg (by omega), if_neg (by omega), if_neg]
  rw [Int.toNat_natCast]
  exact fun hread => hlen hread.1

theorem Medium.readBlk64_sound {f : ByteFile} {blockSize block : Nat} {count : Int} {bs : Bytes}
    (h : f.Holds (block * blockSize) bs) (hlen : bs.length = transferSize blockSize count)
    (hpos : 0 < blockSize) (hsize : blockSize < 2 ^ 31) (hlt : block * blockSize < 2 ^ 63) :
    (Medium.sound f).readBlk64 blockSize block count = some bs := by
  have hloc := location_of_lt block 0 hpos hsize (by omega)
  rw [Medium.readBlk64]
  rw [Nat.add_zero, Nat.cast_zero] at hloc
  rw [hloc]
  exact Medium.read_sound h hlen

section Reader

variable (undo : Medium) (blocksize : Nat)

/-- The data of an entry can be read, and they have the checksum of the key. -/
def Intact (ikey : UndoKeyInfo) : Prop :=
  ikey.size ≤ e2undoMaxExtentBlocks * blocksize ∧
    ∃ data, fetch undo blocksize ikey = some data ∧ crc32c data = ikey.blkCrc

/-- The keys of a key block, with their data from block `lblk` up to block `lblk'`. -/
inductive KeysAt : List UndoKey → Nat → List UndoKeyInfo → Nat → Prop
  | nil (lblk : Nat) : KeysAt [] lblk [] lblk
  | cons {k : UndoKey} {ks : List UndoKey} {lblk lblk' : Nat} {ikeys : List UndoKeyInfo}
      (intact : Intact undo blocksize (k.info lblk))
      (rest : KeysAt ks ((lblk + dataBlocks blocksize k.size.toNat) % 2 ^ 64) ikeys lblk') :
      KeysAt (k :: ks) lblk (k.info lblk :: ikeys) lblk'

/-- A chain of key blocks with `n` keys from block `lblk` on. -/
inductive KeyBlocksAt : Nat → Nat → List UndoKeyInfo → Prop
  | done (lblk : Nat) : KeyBlocksAt 0 lblk []
  | block {n lblk lblk' : Nat} {bytes : Bytes} {ikeys rest : List UndoKeyInfo} (pos : 0 < n)
      (read : undo.readBlk64 blocksize lblk 1 = some bytes)
      (magic : (UndoKeyBlock.decode bytes).magic = keyblockMagic)
      (crc : (UndoKeyBlock.decode bytes).crc = (UndoKeyBlock.decode bytes).checksum blocksize)
      (keys : KeysAt undo blocksize
        ((List.range (min n (keysPerBlock blocksize))).map (UndoKeyBlock.decode bytes).key)
        ((lblk + 1) % 2 ^ 64) ikeys lblk')
      (next : KeyBlocksAt (n - min n (keysPerBlock blocksize)) lblk' rest) :
      KeyBlocksAt n lblk (ikeys ++ rest)

variable {undo blocksize}

theorem KeysAt.length_eq {ks : List UndoKey} {lblk lblk' : Nat} {ikeys : List UndoKeyInfo}
    (h : KeysAt undo blocksize ks lblk ikeys lblk') : ikeys.length = ks.length := by
  induction h with
  | nil lblk =>
      rfl
  | cons intact rest ih =>
      rw [List.length_cons, List.length_cons, ih]

theorem KeysAt.intact {ks : List UndoKey} {lblk lblk' : Nat} {ikeys : List UndoKeyInfo}
    (h : KeysAt undo blocksize ks lblk ikeys lblk') :
    ∀ ikey ∈ ikeys, Intact undo blocksize ikey := by
  induction h with
  | nil lblk =>
      intro ikey hmem
      simp at hmem
  | cons intact rest ih =>
      intro ikey hmem
      rcases List.mem_cons.mp hmem with rfl | hmem
      · exact intact
      · exact ih ikey hmem

theorem KeyBlocksAt.exists_read {n lblk : Nat} {ikeys : List UndoKeyInfo}
    (h : KeyBlocksAt undo blocksize n lblk ikeys) (hpos : 0 < n) :
    ∃ bytes, undo.readBlk64 blocksize lblk 1 = some bytes := by
  cases h with
  | done =>
      omega
  | block pos read =>
      exact ⟨_, read⟩

theorem KeyBlocksAt.length_eq {n lblk : Nat} {ikeys : List UndoKeyInfo}
    (h : KeyBlocksAt undo blocksize n lblk ikeys) : ikeys.length = n := by
  induction h with
  | done lblk =>
      rfl
  | block pos read magic crc keys next ih =>
      rw [List.length_append, ih, keys.length_eq, List.length_map, List.length_range]
      omega

theorem KeyBlocksAt.intact {n lblk : Nat} {ikeys : List UndoKeyInfo}
    (h : KeyBlocksAt undo blocksize n lblk ikeys) :
    ∀ ikey ∈ ikeys, Intact undo blocksize ikey := by
  induction h with
  | done lblk =>
      intro ikey hmem
      simp at hmem
  | block pos read magic crc keys next ih =>
      intro ikey hmem
      rcases List.mem_append.mp hmem with hmem | hmem
      · exact keys.intact ikey hmem
      · exact ih ikey hmem

theorem KeysAt.unique {ks : List UndoKey} {lblk lblk₁ lblk₂ : Nat}
    {ikeys₁ ikeys₂ : List UndoKeyInfo} (h₁ : KeysAt undo blocksize ks lblk ikeys₁ lblk₁)
    (h₂ : KeysAt undo blocksize ks lblk ikeys₂ lblk₂) : ikeys₂ = ikeys₁ ∧ lblk₂ = lblk₁ := by
  induction h₁ generalizing ikeys₂ with
  | nil lblk =>
      cases h₂
      exact ⟨rfl, rfl⟩
  | cons intact rest ih =>
      cases h₂ with
      | cons intact₂ rest₂ =>
          obtain ⟨rfl, rfl⟩ := ih rest₂
          exact ⟨rfl, rfl⟩

theorem KeyBlocksAt.unique {n lblk : Nat} {ikeys₁ ikeys₂ : List UndoKeyInfo}
    (h₁ : KeyBlocksAt undo blocksize n lblk ikeys₁)
    (h₂ : KeyBlocksAt undo blocksize n lblk ikeys₂) : ikeys₂ = ikeys₁ := by
  induction h₁ generalizing ikeys₂ with
  | done lblk =>
      cases h₂ with
      | done =>
          rfl
      | block pos =>
          omega
  | block pos read magic crc keys next ih =>
      cases h₂ with
      | done =>
          omega
      | block pos₂ read₂ magic₂ crc₂ keys₂ next₂ =>
          rw [read] at read₂
          obtain rfl := Option.some.inj read₂
          obtain ⟨rfl, rfl⟩ := keys.unique keys₂
          rw [ih next₂]

/-- The count of a transfer of `size` bytes stands for `size` bytes. -/
theorem transferSize_neg {bs size : Nat} (h : size < 2 ^ 31) :
    transferSize bs (-toInt32 size) = size := by
  have hsize : toInt32 size = size := Int.bmod_eq_of_le (by omega) (by omega)
  rw [hsize, transferSize]
  split_ifs with hneg
  · omega
  · have hzero : size = 0 := by omega
    subst hzero
    simp

theorem length_of_fetch {ikey : UndoKeyInfo} {data : Bytes} (hsize : ikey.size < 2 ^ 31)
    (h : fetch undo blocksize ikey = some data) : data.length = ikey.size := by
  rw [fetch, Medium.readBlk64] at h
  have hlen := Medium.length_of_read h
  rwa [transferSize_neg hsize] at hlen

variable (hmax : blocksize ≤ e2undoMaxBlockSize)

include hmax

/-- Without `-f` a key passes its checks exactly if its data are intact. -/
theorem checkKey_eq_ok_iff (ikey : UndoKeyInfo) (errors errors' : Errors) :
    checkKey false undo blocksize ikey errors = .ok errors' ↔
      errors' = errors ∧ Intact undo blocksize ikey := by
  rw [e2undoMaxBlockSize] at hmax
  have hmod : e2undoMaxExtentBlocks * blocksize % 2 ^ 32 = e2undoMaxExtentBlocks * blocksize := by
    rw [e2undoMaxExtentBlocks]
    omega
  rw [checkKey, hmod, Intact]
  by_cases hlong : e2undoMaxExtentBlocks * blocksize < ikey.size
  · rw [if_pos hlong]
    simp [hlong]
  · rw [if_neg hlong]
    have hsize : ikey.size < 2 ^ 31 := by
      rw [e2undoMaxExtentBlocks] at hlong
      omega
    cases hfetch : fetch undo blocksize ikey with
    | none =>
        simp
    | some data =>
        have hfit : fit ikey.size data = data := fit_of_length (length_of_fetch hsize hfetch)
        by_cases hcrc : crc32c data = ikey.blkCrc
        · simp [hfit, hcrc, not_lt.mp hlong, eq_comm]
        · simp [hfit, hcrc]

theorem Intact.checkKey {ikey : UndoKeyInfo} (h : Intact undo blocksize ikey) (force : Bool)
    (errors : Errors) : checkKey force undo blocksize ikey errors = .ok errors := by
  obtain ⟨hle, data, hdata, hcrc⟩ := h
  rw [e2undoMaxExtentBlocks] at hle
  rw [e2undoMaxBlockSize] at hmax
  have hfit : fit ikey.size data = data := fit_of_length (length_of_fetch (by omega) hdata)
  rw [Undo.checkKey, e2undoMaxExtentBlocks, if_neg (by omega), hdata]
  dsimp only
  rw [hfit, if_pos hcrc]

theorem KeysAt.loadKeys {ks : List UndoKey} {lblk lblk' : Nat} {ikeys : List UndoKeyInfo}
    (h : KeysAt undo blocksize ks lblk ikeys lblk') (force : Bool) (errors : Errors) :
    loadKeys force undo blocksize ks lblk errors = .ok (ikeys, lblk', errors) := by
  induction h with
  | nil lblk =>
      rfl
  | cons intact rest ih =>
      rw [Undo.loadKeys, intact.checkKey hmax force errors]
      dsimp only
      rw [ih]

theorem keysAt_of_loadKeys {ks : List UndoKey} {lblk lblk' : Nat} {ikeys : List UndoKeyInfo}
    {errors errors' : Errors}
    (h : loadKeys false undo blocksize ks lblk errors = .ok (ikeys, lblk', errors')) :
    errors' = errors ∧ KeysAt undo blocksize ks lblk ikeys lblk' := by
  induction ks generalizing lblk ikeys errors with
  | nil =>
      rw [Undo.loadKeys] at h
      obtain ⟨rfl, rfl, rfl⟩ : [] = ikeys ∧ lblk = lblk' ∧ errors = errors' := by
        simpa using h
      exact ⟨rfl, .nil _⟩
  | cons k ks ih =>
      rw [Undo.loadKeys] at h
      cases hcheck : checkKey false undo blocksize (k.info lblk) errors with
      | error e =>
          simp [hcheck] at h
      | ok errors₁ =>
          obtain ⟨rfl, hintact⟩ := (checkKey_eq_ok_iff hmax _ _ _).mp hcheck
          rw [hcheck] at h
          dsimp only at h
          cases hload : Undo.loadKeys false undo blocksize ks
              ((lblk + dataBlocks blocksize k.size.toNat) % 2 ^ 64) errors₁ with
          | error e =>
              rw [hload] at h
              simp at h
          | ok r =>
              obtain ⟨ikeys₁, lblk₁, errors₂⟩ := r
              obtain ⟨rfl, rfl, rfl⟩ :
                  k.info lblk :: ikeys₁ = ikeys ∧ lblk₁ = lblk' ∧ errors₂ = errors' := by
                rw [hload] at h
                simpa using h
              obtain ⟨rfl, hkeys⟩ := ih hload
              exact ⟨rfl, .cons hintact hkeys⟩

variable (hmin : e2undoMinBlockSize ≤ blocksize)

include hmin

theorem keysPerBlock_pos : 0 < keysPerBlock blocksize := by
  rw [e2undoMinBlockSize] at hmin
  rw [e2undoMaxBlockSize] at hmax
  rw [keysPerBlock_eq (by omega) (by omega)]
  omega

variable {numKeys : Nat} (hkeys : numKeys + keysPerBlock blocksize < 2 ^ 64)

include hkeys

omit hmin in
/-- What is loaded without `-f` is a chain of key blocks. -/
theorem keyBlocksAt_of_loadLoop {rounds i lblk : Nat} {keys : List UndoKeyInfo} {errors : Errors}
    {l : Loaded}
    (h : loadLoop false undo blocksize numKeys rounds i lblk keys errors = some (.ok l)) :
    ∃ ikeys, KeyBlocksAt undo blocksize (numKeys - i) lblk ikeys ∧
      l = ⟨keys ++ ikeys, numKeys, errors⟩ := by
  induction rounds generalizing i lblk keys errors with
  | zero =>
      simp [loadLoop] at h
  | succ rounds ih =>
      rw [loadLoop] at h
      by_cases hi : numKeys ≤ i
      · rw [if_pos hi] at h
        have hzero : numKeys - i = 0 := by omega
        rw [hzero]
        refine ⟨[], .done lblk, ?_⟩
        simpa using h.symm
      · rw [if_neg hi] at h
        cases hread : undo.readBlk64 blocksize lblk 1 with
        | none =>
            simp [hread] at h
        | some bytes =>
            rw [hread] at h
            dsimp only at h
            rw [ite_eq_iff] at h
            obtain ⟨-, h⟩ | ⟨hmagic, h⟩ := h
            · simp at h
            rw [ite_eq_iff] at h
            obtain ⟨-, h⟩ | ⟨hcrc, h⟩ := h
            · simp at h
            cases hload : Undo.loadKeys false undo blocksize
                ((List.range (min (numKeys - i) (keysPerBlock blocksize))).map
                  (UndoKeyBlock.decode bytes).key) ((lblk + 1) % 2 ^ 64) errors with
            | error e =>
                rw [hload] at h
                simp at h
            | ok r =>
                obtain ⟨ikeys, lblk', errors'⟩ := r
                rw [hload] at h
                obtain ⟨rfl, hat⟩ := keysAt_of_loadKeys hmax hload
                have hnext : (i + keysPerBlock blocksize) % 2 ^ 64 =
                    i + keysPerBlock blocksize := Nat.mod_eq_of_lt (by omega)
                dsimp only at h
                rw [hnext] at h
                obtain ⟨rest, hrest, rfl⟩ := ih h
                have hleft : numKeys - i - min (numKeys - i) (keysPerBlock blocksize) =
                    numKeys - (i + keysPerBlock blocksize) := by
                  omega
                refine ⟨ikeys ++ rest, .block (by omega) hread (by simpa using hmagic)
                  (by simpa using hcrc) hat (by rwa [hleft]), ?_⟩
                rw [List.append_assoc]

theorem KeyBlocksAt.loadLoop {n lblk : Nat} {ikeys : List UndoKeyInfo}
    (h : KeyBlocksAt undo blocksize n lblk ikeys) {i : Nat} (hi : n = numKeys - i)
    (force : Bool) (keys : List UndoKeyInfo) (errors : Errors) :
    ∃ rounds, loadLoop force undo blocksize numKeys rounds i lblk keys errors =
      some (.ok ⟨keys ++ ikeys, numKeys, errors⟩) := by
  have hpos := keysPerBlock_pos hmax hmin
  induction h generalizing i keys with
  | done lblk =>
      refine ⟨1, ?_⟩
      rw [Undo.loadLoop, if_pos (by omega), List.append_nil]
  | @block n lblk lblk' bytes ikeys rest pos read magic crc hat next ih =>
      have hleft : n - min n (keysPerBlock blocksize) =
          numKeys - (i + keysPerBlock blocksize) := by
        omega
      obtain ⟨rounds, hrounds⟩ := ih hleft (keys ++ ikeys)
      refine ⟨rounds + 1, ?_⟩
      have hnext : (i + keysPerBlock blocksize) % 2 ^ 64 =
          i + keysPerBlock blocksize := Nat.mod_eq_of_lt (by omega)
      rw [Undo.loadLoop, if_neg (by omega), read]
      dsimp only
      rw [if_neg (by simp [magic]), if_neg (by simp [← crc]), ← hi, hat.loadKeys hmax force errors]
      dsimp only
      rw [hnext, hrounds, List.append_assoc]

end Reader

/-- A saved run of bytes: the block of the device where it begins, and its bytes. -/
structure Extent where
  fsblk : Nat
  data : Bytes

namespace Extent

/-- The key of an extent. -/
def key (e : Extent) : UndoKey where
  fsblk := UInt64.ofNat e.fsblk
  blkCrc := crc32c e.data
  size := UInt32.ofNat e.data.length

/-- The number of undo blocks that an extent takes. -/
def blocks (blocksize : Nat) (e : Extent) : Nat :=
  blocksOf blocksize e.data.length

/-- The fields of a key can hold the extent. -/
structure Fits (blocksize : Nat) (e : Extent) : Prop where
  fsblk_lt : e.fsblk < 2 ^ 64
  size_le : e.data.length ≤ e2undoMaxExtentBlocks * blocksize

end Extent

def extentsBlocks (blocksize : Nat) (es : List Extent) : Nat :=
  (es.map (Extent.blocks blocksize)).sum

/-- The file holds the data of extents one behind the other, from block `lblk` on. -/
def ExtentsAt (f : ByteFile) (blocksize : Nat) : Nat → List Extent → Prop
  | _, [] => True
  | lblk, e :: es =>
      f.Holds (lblk * blocksize) e.data ∧ ExtentsAt f blocksize (lblk + e.blocks blocksize) es

/-- The entries of extents whose data begin at block `lblk`. -/
def extentInfos (blocksize : Nat) : Nat → List Extent → List UndoKeyInfo
  | _, [] => []
  | lblk, e :: es => e.key.info lblk :: extentInfos blocksize (lblk + e.blocks blocksize) es

/-- The file holds a group at block `lblk`: a key block, and the data of its extents. -/
structure GroupAt (f : ByteFile) (blocksize lblk : Nat) (g : List Extent) : Prop where
  keyb : ∃ kb : UndoKeyBlock, kb.Starts (g.map Extent.key) ∧ kb.keys.length + 16 = blocksize ∧
    f.Holds (lblk * blocksize) (kb.sealed blocksize).encode
  data : ExtentsAt f blocksize (lblk + 1) g

def groupBlocks (blocksize : Nat) (g : List Extent) : Nat :=
  1 + extentsBlocks blocksize g

/-- The file holds groups one behind the other, from block `lblk` on. -/
def GroupsAt (f : ByteFile) (blocksize : Nat) : Nat → List (List Extent) → Prop
  | _, [] => True
  | lblk, g :: gs =>
      GroupAt f blocksize lblk g ∧ GroupsAt f blocksize (lblk + groupBlocks blocksize g) gs

def groupsBlocks (blocksize : Nat) (gs : List (List Extent)) : Nat :=
  (gs.map (groupBlocks blocksize)).sum

/-- The entries of groups that begin at block `lblk`. -/
def groupInfos (blocksize : Nat) : Nat → List (List Extent) → List UndoKeyInfo
  | _, [] => []
  | lblk, g :: gs =>
      extentInfos blocksize (lblk + 1) g ++ groupInfos blocksize (lblk + groupBlocks blocksize g) gs

/-- All groups are full, but the last one may have fewer keys. -/
def Packed (keys : Nat) : List (List Extent) → Prop
  | [] => True
  | [g] => g ≠ [] ∧ g.length ≤ keys
  | g :: gs => g.length = keys ∧ Packed keys gs

theorem Packed.cons {keys : Nat} {g : List Extent} {gs : List (List Extent)}
    (h : Packed keys (g :: gs)) (hpos : 0 < keys) :
    g ≠ [] ∧ g.length ≤ keys ∧ (gs = [] ∨ g.length = keys) ∧ Packed keys gs := by
  cases gs with
  | nil =>
      exact ⟨h.1, h.2, Or.inl rfl, trivial⟩
  | cons g' gs =>
      refine ⟨?_, h.1.le, Or.inr h.1, h.2⟩
      rintro rfl
      have := h.1
      rw [List.length_nil] at this
      omega

section Writer

variable {f : ByteFile} {blocksize : Nat}

@[simp] theorem extentsBlocks_cons (e : Extent) (es : List Extent) :
    extentsBlocks blocksize (e :: es) = e.blocks blocksize + extentsBlocks blocksize es := by
  simp [extentsBlocks]

@[simp] theorem groupsBlocks_cons (g : List Extent) (gs : List (List Extent)) :
    groupsBlocks blocksize (g :: gs) = groupBlocks blocksize g + groupsBlocks blocksize gs := by
  simp [groupsBlocks]

variable (hmin : e2undoMinBlockSize ≤ blocksize) (hmax : blocksize ≤ e2undoMaxBlockSize)

include hmax

theorem Extent.Fits.info_size {e : Extent} (h : e.Fits blocksize) (lblk : Nat) :
    (e.key.info lblk).size = e.data.length := by
  have hle := h.size_le
  rw [e2undoMaxExtentBlocks] at hle
  rw [e2undoMaxBlockSize] at hmax
  show (UInt32.ofNat e.data.length).toNat = e.data.length
  rw [UInt32.toNat_ofNat']
  omega

omit hmax in
theorem Extent.Fits.info_fsblk {e : Extent} (h : e.Fits blocksize) (lblk : Nat) :
    (e.key.info lblk).fsblk = e.fsblk := by
  show (UInt64.ofNat e.fsblk).toNat = e.fsblk
  rw [UInt64.toNat_ofNat']
  exact Nat.mod_eq_of_lt h.fsblk_lt

theorem Extent.Fits.dataBlocks_eq {e : Extent} (h : e.Fits blocksize) :
    dataBlocks blocksize e.key.size.toNat = e.blocks blocksize := by
  have hsize := h.info_size hmax 0
  have hle := h.size_le
  rw [e2undoMaxExtentBlocks] at hle
  rw [e2undoMaxBlockSize] at hmax
  change e.key.size.toNat = e.data.length at hsize
  rw [dataBlocks, hsize, Extent.blocks, blocksOf, Nat.mod_eq_of_lt (by omega)]

include hmin

theorem Extent.Fits.fetch_eq {e : Extent} (h : e.Fits blocksize) {lblk : Nat}
    (hholds : f.Holds (lblk * blocksize) e.data) (hlt : lblk * blocksize < 2 ^ 63) :
    fetch (.sound f) blocksize (e.key.info lblk) = some e.data := by
  have hle := h.size_le
  have hsize := h.info_size hmax lblk
  rw [e2undoMaxExtentBlocks] at hle
  rw [e2undoMinBlockSize] at hmin
  rw [e2undoMaxBlockSize] at hmax
  rw [fetch, hsize]
  exact Medium.readBlk64_sound hholds (transferSize_neg (by omega)).symm (by omega) (by omega) hlt

theorem Extent.Fits.intact {e : Extent} (h : e.Fits blocksize) {lblk : Nat}
    (hholds : f.Holds (lblk * blocksize) e.data) (hlt : lblk * blocksize < 2 ^ 63) :
    Intact (.sound f) blocksize (e.key.info lblk) := by
  refine ⟨?_, e.data, h.fetch_eq hmin hmax hholds hlt, rfl⟩
  rw [h.info_size hmax]
  exact h.size_le

theorem ExtentsAt.keysAt {lblk : Nat} {es : List Extent} (h : ExtentsAt f blocksize lblk es)
    (hfits : ∀ e ∈ es, e.Fits blocksize)
    (hlt : (lblk + extentsBlocks blocksize es) * blocksize < 2 ^ 63) :
    KeysAt (.sound f) blocksize (es.map Extent.key) lblk (extentInfos blocksize lblk es)
      (lblk + extentsBlocks blocksize es) := by
  have hpos : 0 < blocksize := by
    rw [e2undoMinBlockSize] at hmin
    omega
  induction es generalizing lblk with
  | nil =>
      exact .nil lblk
  | cons e es ih =>
      obtain ⟨hdata, hrest⟩ := h
      have he := hfits e (by simp)
      rw [extentsBlocks_cons, ← Nat.add_assoc] at hlt
      have hle : lblk * blocksize ≤
          (lblk + e.blocks blocksize + extentsBlocks blocksize es) * blocksize :=
        Nat.mul_le_mul_right _ (by omega)
      have hself : lblk + e.blocks blocksize ≤
          (lblk + e.blocks blocksize + extentsBlocks blocksize es) * blocksize :=
        (Nat.le_add_right _ _).trans (Nat.le_mul_of_pos_right _ hpos)
      have hrest := ih hrest (fun e' he' => hfits e' (by simp [he'])) hlt
      rw [List.map_cons, extentInfos, extentsBlocks_cons, ← Nat.add_assoc]
      refine .cons (he.intact hmin hmax hdata (by omega)) ?_
      rw [he.dataBlocks_eq hmax, Nat.mod_eq_of_lt (by omega)]
      exact hrest

theorem GroupsAt.keyBlocksAt {lblk : Nat} {gs : List (List Extent)}
    (h : GroupsAt f blocksize lblk gs) (hpacked : Packed (keysPerBlock blocksize) gs)
    (hfits : ∀ g ∈ gs, ∀ e ∈ g, e.Fits blocksize)
    (hlt : (lblk + groupsBlocks blocksize gs) * blocksize < 2 ^ 63) :
    KeyBlocksAt (.sound f) blocksize (gs.map List.length).sum lblk
      (groupInfos blocksize lblk gs) := by
  have hkpb := keysPerBlock_pos hmax hmin
  have hmin' := hmin
  have hmax' := hmax
  rw [e2undoMinBlockSize] at hmin'
  rw [e2undoMaxBlockSize] at hmax'
  induction gs generalizing lblk with
  | nil =>
      exact .done lblk
  | cons g gs ih =>
      obtain ⟨⟨⟨kb, hstarts, hkeys, hkb⟩, hdata⟩, hrest⟩ := h
      obtain ⟨hne, hle, hfull, hpacked⟩ := hpacked.cons hkpb
      have hlen : 0 < g.length := List.length_pos_iff.mpr hne
      rw [groupsBlocks_cons, ← Nat.add_assoc] at hlt
      have hbound : lblk + groupBlocks blocksize g ≤
          lblk + groupBlocks blocksize g + groupsBlocks blocksize gs := Nat.le_add_right _ _
      have hgroup : (lblk + groupBlocks blocksize g) * blocksize < 2 ^ 63 :=
        lt_of_le_of_lt (Nat.mul_le_mul_right _ hbound) hlt
      rw [groupBlocks, ← Nat.add_assoc] at hgroup
      have hplace : lblk * blocksize ≤
          (lblk + 1 + extentsBlocks blocksize g) * blocksize :=
        Nat.mul_le_mul_right _ (by omega)
      have hself : lblk + 1 ≤ (lblk + 1 + extentsBlocks blocksize g) * blocksize :=
        (Nat.le_add_right _ _).trans (Nat.le_mul_of_pos_right _ (by omega))
      have hread : (Medium.sound f).readBlk64 blocksize lblk 1 =
          some (kb.sealed blocksize).encode := by
        apply Medium.readBlk64_sound hkb _ (by omega) (by omega) (by omega)
        simp only [UndoKeyBlock.length_encode, UndoKeyBlock.sealed_keys, transferSize]
        simp
        omega
      have hcount : min ((g :: gs).map List.length).sum (keysPerBlock blocksize) = g.length := by
        rw [List.map_cons, List.sum_cons]
        rcases hfull with rfl | hfull
        · simpa using hle
        · omega
      have hstarts' : (kb.sealed blocksize).Starts (g.map Extent.key) := hstarts
      have hdata := hdata.keysAt hmin hmax (hfits g (by simp)) hgroup
      rw [Nat.add_assoc, ← groupBlocks] at hdata
      have hnext := ih hrest hpacked (fun g' hg' => hfits g' (by simp [hg'])) hlt
      have hsum : ((g :: gs).map List.length).sum = g.length + (gs.map List.length).sum := by
        rw [List.map_cons, List.sum_cons]
      have hkeysOf : (List.range g.length).map (kb.sealed blocksize).key = g.map Extent.key := by
        have hmap := hstarts'.map_key
        rwa [List.length_map] at hmap
      have hleft : ((g :: gs).map List.length).sum -
          min ((g :: gs).map List.length).sum (keysPerBlock blocksize) =
            (gs.map List.length).sum := by
        rw [hcount, hsum, Nat.add_sub_cancel_left]
      rw [← hleft] at hnext
      rw [groupInfos]
      refine .block (by omega) hread ?_ ?_ ?_ hnext
      · rw [UndoKeyBlock.decode_encode, UndoKeyBlock.sealed_magic]
      · rw [UndoKeyBlock.decode_encode, UndoKeyBlock.sealed_crc]
      · rw [hcount, UndoKeyBlock.decode_encode, Nat.mod_eq_of_lt (by omega), hkeysOf]
        exact hdata

end Writer

section Growth

variable {f : ByteFile} {blocksize : Nat}

@[simp] theorem extentsBlocks_append (es es' : List Extent) :
    extentsBlocks blocksize (es ++ es') =
      extentsBlocks blocksize es + extentsBlocks blocksize es' := by
  simp [extentsBlocks]

@[simp] theorem groupsBlocks_append (gs gs' : List (List Extent)) :
    groupsBlocks blocksize (gs ++ gs') =
      groupsBlocks blocksize gs + groupsBlocks blocksize gs' := by
  simp [groupsBlocks]

theorem extentsAt_append {lblk : Nat} {es es' : List Extent} :
    ExtentsAt f blocksize lblk (es ++ es') ↔
      ExtentsAt f blocksize lblk es ∧
        ExtentsAt f blocksize (lblk + extentsBlocks blocksize es) es' := by
  induction es generalizing lblk with
  | nil =>
      simp [ExtentsAt, extentsBlocks]
  | cons e es ih =>
      rw [List.cons_append, ExtentsAt, ExtentsAt, ih, extentsBlocks_cons, Nat.add_assoc, and_assoc]

theorem groupsAt_append {lblk : Nat} {gs gs' : List (List Extent)} :
    GroupsAt f blocksize lblk (gs ++ gs') ↔
      GroupsAt f blocksize lblk gs ∧
        GroupsAt f blocksize (lblk + groupsBlocks blocksize gs) gs' := by
  induction gs generalizing lblk with
  | nil =>
      simp [GroupsAt, groupsBlocks]
  | cons g gs ih =>
      rw [List.cons_append, GroupsAt, GroupsAt, ih, groupsBlocks_cons, Nat.add_assoc, and_assoc]

theorem Extent.length_le (hpos : 0 < blocksize) (e : Extent) :
    e.data.length ≤ e.blocks blocksize * blocksize := by
  have hdiv := Nat.div_add_mod (e.data.length + blocksize - 1) blocksize
  have hmod := Nat.mod_lt (e.data.length + blocksize - 1) hpos
  rw [Extent.blocks, blocksOf]
  rw [Nat.mul_comm] at hdiv
  omega

variable {off : Nat} {buf : Bytes}

theorem ExtentsAt.pwrite {lblk : Nat} {es : List Extent} (h : ExtentsAt f blocksize lblk es)
    (hpos : 0 < blocksize)
    (hd : off + buf.length ≤ lblk * blocksize ∨
      (lblk + extentsBlocks blocksize es) * blocksize ≤ off) :
    ExtentsAt (f.pwrite off buf) blocksize lblk es := by
  induction es generalizing lblk with
  | nil =>
      trivial
  | cons e es ih =>
      rw [extentsBlocks_cons, ← Nat.add_assoc] at hd
      have hle := e.length_le hpos
      have hend : (lblk + e.blocks blocksize) * blocksize ≤
          (lblk + e.blocks blocksize + extentsBlocks blocksize es) * blocksize :=
        Nat.mul_le_mul_right _ (Nat.le_add_right _ _)
      have hadd : (lblk + e.blocks blocksize) * blocksize =
          lblk * blocksize + e.blocks blocksize * blocksize := Nat.add_mul _ _ _
      refine ⟨h.1.pwrite_of_disjoint (by omega), ih h.2 ?_⟩
      omega

theorem GroupAt.pwrite {lblk : Nat} {g : List Extent} (h : GroupAt f blocksize lblk g)
    (hpos : 0 < blocksize)
    (hd : off + buf.length ≤ lblk * blocksize ∨
      (lblk + groupBlocks blocksize g) * blocksize ≤ off) :
    GroupAt (f.pwrite off buf) blocksize lblk g := by
  obtain ⟨⟨kb, hstarts, hlen, hholds⟩, hdata⟩ := h
  rw [groupBlocks, ← Nat.add_assoc] at hd
  have hsize : (kb.sealed blocksize).encode.length = blocksize := by
    rw [UndoKeyBlock.length_encode, UndoKeyBlock.sealed_keys]
    omega
  have hend : (lblk + 1) * blocksize ≤ (lblk + 1 + extentsBlocks blocksize g) * blocksize :=
    Nat.mul_le_mul_right _ (Nat.le_add_right _ _)
  have hadd : (lblk + 1) * blocksize = lblk * blocksize + blocksize := Nat.succ_mul _ _
  refine ⟨⟨kb, hstarts, hlen, hholds.pwrite_of_disjoint (by omega)⟩, hdata.pwrite hpos ?_⟩
  omega

theorem GroupsAt.pwrite {lblk : Nat} {gs : List (List Extent)} (h : GroupsAt f blocksize lblk gs)
    (hpos : 0 < blocksize)
    (hd : off + buf.length ≤ lblk * blocksize ∨
      (lblk + groupsBlocks blocksize gs) * blocksize ≤ off) :
    GroupsAt (f.pwrite off buf) blocksize lblk gs := by
  induction gs generalizing lblk with
  | nil =>
      trivial
  | cons g gs ih =>
      rw [groupsBlocks_cons, ← Nat.add_assoc] at hd
      have hend : (lblk + groupBlocks blocksize g) * blocksize ≤
          (lblk + groupBlocks blocksize g + groupsBlocks blocksize gs) * blocksize :=
        Nat.mul_le_mul_right _ (Nat.le_add_right _ _)
      have hstart : lblk * blocksize ≤ (lblk + groupBlocks blocksize g) * blocksize :=
        Nat.mul_le_mul_right _ (Nat.le_add_right _ _)
      refine ⟨h.1.pwrite hpos ?_, ih h.2 ?_⟩
      · omega
      · omega

/-- An extent of whole undo blocks. -/
def Extent.Whole (blocksize : Nat) (e : Extent) : Prop :=
  ∃ n, 0 < n ∧ e.data.length = n * blocksize

theorem Extent.Whole.data_ne_nil {e : Extent} (h : e.Whole blocksize) (hpos : 0 < blocksize) :
    e.data ≠ [] := by
  obtain ⟨n, hn, hlen⟩ := h
  apply List.ne_nil_of_length_pos
  rw [hlen]
  exact Nat.mul_pos hn hpos

theorem Extent.Whole.blocks_mul {e : Extent} (h : e.Whole blocksize) (hpos : 0 < blocksize) :
    e.blocks blocksize * blocksize = e.data.length := by
  obtain ⟨n, -, hn⟩ := h
  rw [Extent.blocks, blocksOf, hn, Nat.add_sub_assoc hpos, Nat.add_comm,
    Nat.add_mul_div_right _ _ hpos, Nat.div_eq_of_lt (by omega), Nat.zero_add]

theorem ExtentsAt.longer {lblk fsblk : Nat} {es : List Extent} {data saved : Bytes}
    (h : ExtentsAt f blocksize lblk (es ++ [⟨fsblk, data⟩])) (hpos : 0 < blocksize)
    (hwhole : Extent.Whole blocksize ⟨fsblk, data⟩)
    (hsaved : f.Holds ((lblk + extentsBlocks blocksize (es ++ [⟨fsblk, data⟩])) * blocksize)
      saved) :
    ExtentsAt f blocksize lblk (es ++ [⟨fsblk, data ++ saved⟩]) := by
  rw [extentsAt_append] at h ⊢
  refine ⟨h.1, ?_, trivial⟩
  have hmul := hwhole.blocks_mul hpos
  have hplace : (lblk + extentsBlocks blocksize (es ++ [⟨fsblk, data⟩])) * blocksize =
      (lblk + extentsBlocks blocksize es) * blocksize + data.length := by
    rw [← hmul, extentsBlocks_append, ← Nat.add_assoc, Nat.add_mul]
    simp [extentsBlocks]
  rw [ByteFile.holds_append, ← hplace]
  exact ⟨h.2.1, hsaved⟩

end Growth

end Undo
end Rfsck
