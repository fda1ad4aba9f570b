import Rfsck.Undo.Rerun
import Rfsck.Undo.SavedBytes

/-!
# Reopening an undo file

`undo_open` on an undo file that an earlier session has left: `try_reopen_undo_file` takes the
position of the writer and the marked blocks from the keys of the file.

* The functions are those of the source; a file without content is left alone.
* `reopenLoop_groups`: on the groups that a session leaves, the loop over the key blocks ends in
  the last one of them.
* `reopens_iff`: the state is the one that the writer had, exactly if the last key block is not
  full, the offset is less than an undo block, and the superblock is found without the offset.
-/

namespace Rfsck
namespace Undo

open Storage
open Redo (fit length_fit fit_of_length Outcome maxRwCount)
open UnixIo (Errcode transferSize blocksOf)

/-- What `undo_open` returns. -/
inductive OpenCode where
  | ok
  | undoFileCorrupt
  | undoFileWrong
  | failed (code : Errcode)
deriving DecidableEq, Repr

namespace UndoPrivateData

/-- `ext2fs_mark_block_bitmap_range2`. -/
def markRange (d : UndoPrivateData) (block num : Nat) : UndoPrivateData :=
  { d with writtenBlockMap := fun n =>
      d.writtenBlockMap n || (decide (block ≤ n) && decide (n < block + num)) }

/-- The loop over the keys of a key block, from the `j`-th one on: the block behind their data,
and what is known then. -/
def reopenKeys (fsBlocksize blocksize : Nat) :
    List UndoKey → Nat → Nat → UndoPrivateData → Nat × UndoPrivateData
  | [], _, lblk, d => (lblk, d)
  | k :: ks, j, lblk, d =>
      let blocks := (k.size.toNat + blocksize - 1) / blocksize
      let lblk := (lblk + blocks) % 2 ^ 64
      reopenKeys fsBlocksize blocksize ks (j + 1) lblk
        { d.markRange (k.fsblk.toNat * fsBlocksize % 2 ^ 64 / blocksize) blocks with
          undoBlkNum := lblk
          keysInBlock := j + 1 }

/-- The label `bad_key_replay`. -/
def badKeyReplay (d : UndoPrivateData) : UndoPrivateData :=
  { d with
    keyBlkNum := 0
    undoBlkNum := 0
    keysInBlock := 0
    keyb := .zero 0
    writtenBlockMap := fun _ => false
    tdbWritten := 0 }

end UndoPrivateData

section Manager

variable {σ : Type} (real undoFile : IoChannel σ)

/-- `check_filesystem` of `undo_io.c`. -/
def sameFilesystem (hdr : UndoHeader) (superBlock : Nat) (sys : σ) : Bool × σ :=
  match real.readBlk64 1 (-superblockSize) (real.setBlksize superblockOffset sys) with
  | (.error _, sys) => (false, sys)
  | (.ok super, sys) =>
      match undoFile.readBlk64 superBlock (-superblockSize) sys with
      | (.error _, sys) => (false, sys)
      | (.ok buf, sys) =>
          (decide (super = invertMagic buf ∧ hdr.sbCrc = crc32c (invertMagic buf)), sys)

/-- The loop over the key blocks, with at most the given number of rounds. -/
def reopenLoop (fsBlocksize blocksize numKeys : Nat) :
    Nat → Nat → Nat → State σ → Option (OpenCode × State σ)
  | 0, _, _, _ => none
  | rounds + 1, i, lblk, s =>
      if numKeys ≤ i then
        some (.ok, s)
      else
        match undoFile.readBlk64 lblk 1 s.sys with
        | (.error e, sys) =>
            some (.failed e.code, { s with data := s.data.badKeyReplay, sys := sys })
        | (.ok bytes, sys) =>
            let keyb := UndoKeyBlock.decode bytes
            if keyb.magic ≠ keyblockMagic ∨ keyb.crc ≠ keyb.checksum blocksize then
              some (.undoFileCorrupt, { s with data := s.data.badKeyReplay, sys := sys })
            else
              let keys := (List.range (min (numKeys - i) (keysPerBlock blocksize))).map keyb.key
              let (next, data) := UndoPrivateData.reopenKeys fsBlocksize blocksize keys 0
                ((lblk + 1) % 2 ^ 64)
                { s.data with keyBlkNum := lblk, keyb := { keyb with crc := 0 } }
              reopenLoop fsBlocksize blocksize numKeys rounds
                ((i + keysPerBlock blocksize) % 2 ^ 64) next { s with data := data, sys := sys }

/-- What is kept of the header when the keys are loaded. -/
def keepHeader (hdr : UndoHeader) : OpenCode × State σ → OpenCode × State σ
  | (.ok, s) => (.ok, { s with
      data.hdr.state := hdr.state &&& ~~~e2undoStateFinished
      data.hdr.fCompat := hdr.fCompat
      data.hdr.fIncompat := hdr.fIncompat
      data.hdr.fRocompat := hdr.fRocompat })
  | r => r

/-- `try_reopen_undo_file`, behind the checks of the header.  The loop has a round for every key
at most, unless the number of keys is close to the end of its type. -/
def reopenWith (hdr : UndoHeader) (s : State σ) : Option (OpenCode × State σ) :=
  let blocksize := hdr.blockSize.toNat
  let s := { s with sys := undoFile.setBlksize blocksize s.sys }
  if hdr.fIncompat ≠ 0 ∨ hdr.fRocompat ≠ 0 then
    some (.undoFileCorrupt, s)
  else
    match sameFilesystem real undoFile hdr hdr.superOffset.toNat s.sys with
    | (false, sys) => some (.undoFileWrong, { s with sys := sys })
    | (true, sys) =>
        match undoSetupTdb undoFile { s with data.tdbDataSize := blocksize, sys := sys } with
        | (.ok, s) =>
            let s := { s with
              data.numKeys := hdr.numKeys.toNat
              data.superBlkNum := hdr.superOffset.toNat
              data.firstKeyBlk := hdr.keyOffset.toNat }
            (reopenLoop undoFile hdr.fsBlockSize.toNat blocksize hdr.numKeys.toNat
              (hdr.numKeys.toNat + 1) 0 hdr.keyOffset.toNat s).map (keepHeader hdr)
        | (_, s) => some (.undoFileCorrupt, s)

/-- `try_reopen_undo_file`. -/
def tryReopenUndoFile (s : State σ) : Option (OpenCode × State σ) :=
  if undoFile.fileSize s.sys = 0 then
    some (.ok, s)
  else
    match undoFile.readBlk64 0 (-undoHeaderSize) s.sys with
    | (.error _, sys) => some (.undoFileCorrupt, { s with sys := sys })
    | (.ok bytes, sys) =>
        let hdr := UndoHeader.decode bytes
        let s := { s with sys := sys }
        if hdr.magic ≠ e2undoMagic ∨ hdr.headerCrc ≠ hdr.checksum ∨
            e2undoMaxBlockSize < hdr.blockSize.toNat ∨
            hdr.blockSize.toNat < e2undoMinBlockSize ∨ hdr.fsBlockSize = 0 then
          some (.undoFileCorrupt, s)
        else
          reopenWith real undoFile hdr s

/-- `undo_open`, from the channels of its backing manager on. -/
def undoOpen (sys : σ) : Option (OpenCode × State σ) :=
  tryReopenUndoFile real undoFile (opened sys)

end Manager

section Loop

variable {bs T : Nat}

/-- The undo block is one of those that a reopened file marks for an extent. -/
def Extent.Spans (bs T : Nat) (e : Extent) (n : Nat) : Prop :=
  e.fsblk * bs / T ≤ n ∧ n < e.fsblk * bs / T + e.blocks T

/-- The keys of a group: the blocks of its data are counted, and its extents marked. -/
theorem reopenKeys_eq (hs : Sizes bs T) {g : List Extent} (hgood : ∀ e ∈ g, e.Good bs T)
    (hne : g ≠ []) (j : Nat) {lblk : Nat} (d : UndoPrivateData)
    (hlt : lblk + extentsBlocks T g < 2 ^ 64) :
    ∃ map, UndoPrivateData.reopenKeys bs T (g.map Extent.key) j lblk d =
        (lblk + extentsBlocks T g, { d with
          writtenBlockMap := map
          undoBlkNum := lblk + extentsBlocks T g
          keysInBlock := j + g.length }) ∧
      ∀ n, map n = true ↔ d.writtenBlockMap n = true ∨ ∃ e ∈ g, e.Spans bs T n := by
  induction g generalizing j lblk d with
  | nil =>
      exact absurd rfl hne
  | cons e g ih =>
      have he := hgood e (by simp)
      have hend := he.end_lt
      have hsize : (e.key.size.toNat + T - 1) / T = e.blocks T := by
        rw [he.key_size hs]
        rfl
      have hplace : e.key.fsblk.toNat * bs % 2 ^ 64 / T = e.fsblk * bs / T := by
        rw [he.key_fsblk hs, Nat.mod_eq_of_lt (by omega)]
      have hmark : ∀ n, (d.markRange (e.fsblk * bs / T) (e.blocks T)).writtenBlockMap n = true ↔
          d.writtenBlockMap n = true ∨ e.Spans bs T n := by
        intro n
        simp only [UndoPrivateData.markRange, Bool.or_eq_true, Bool.and_eq_true,
          decide_eq_true_eq]
        rfl
      rw [extentsBlocks_cons] at hlt
      rw [List.map_cons, UndoPrivateData.reopenKeys]
      dsimp only
      rw [hsize, hplace, Nat.mod_eq_of_lt (by omega)]
      by_cases hg : g = []
      · subst hg
        refine ⟨(d.markRange (e.fsblk * bs / T) (e.blocks T)).writtenBlockMap, ?_, ?_⟩
        · simp [UndoPrivateData.reopenKeys, UndoPrivateData.markRange, extentsBlocks]
        · intro n
          rw [hmark]
          simp
      · obtain ⟨map, hrun, hmap⟩ := ih (fun e' he' => hgood e' (by simp [he'])) hg (j + 1)
          { d.markRange (e.fsblk * bs / T) (e.blocks T) with
            undoBlkNum := lblk + e.blocks T
            keysInBlock := j + 1 }
          (show lblk + e.blocks T + extentsBlocks T g < 2 ^ 64 by omega)
        refine ⟨map, ?_, ?_⟩
        · rw [hrun, extentsBlocks_cons, List.length_cons, Nat.add_assoc, Nat.add_assoc,
            Nat.add_comm 1]
          rfl
        · intro n
          rw [hmap, hmark, or_assoc]
          simp

/-- The key block at a block of the file, as it is kept in memory. -/
def keyImage (f : ByteFile) (T lblk : Nat) : UndoKeyBlock :=
  { UndoKeyBlock.decode (f.pread (lblk * T) T) with crc := 0 }

/-- What is known after groups, one after the other. -/
def reopenGroups (bs T : Nat) (f : ByteFile) :
    Nat → List (List Extent) → UndoPrivateData → UndoPrivateData
  | _, [], d => d
  | lblk, g :: gs, d =>
      reopenGroups bs T f (lblk + groupBlocks T g) gs
        (UndoPrivateData.reopenKeys bs T (g.map Extent.key) 0 (lblk + 1)
          { d with keyBlkNum := lblk, keyb := keyImage f T lblk }).2

/-- The last group decides, but for the marks. -/
theorem reopenGroups_concat (hs : Sizes bs T) (f : ByteFile) {gs : List (List Extent)}
    {g : List Extent} (hgood : ∀ e ∈ (gs ++ [g]).flatten, e.Good bs T)
    (hne : ∀ g' ∈ gs ++ [g], g' ≠ []) (lblk : Nat) (d : UndoPrivateData)
    (hlt : lblk + groupsBlocks T (gs ++ [g]) < 2 ^ 64) :
    ∃ map, reopenGroups bs T f lblk (gs ++ [g]) d = { d with
        writtenBlockMap := map
        keyBlkNum := lblk + groupsBlocks T gs
        keyb := keyImage f T (lblk + groupsBlocks T gs)
        undoBlkNum := lblk + groupsBlocks T gs + 1 + extentsBlocks T g
        keysInBlock := g.length } ∧
      ∀ n, map n = true ↔
        d.writtenBlockMap n = true ∨ ∃ e ∈ (gs ++ [g]).flatten, e.Spans bs T n := by
  induction gs generalizing lblk d with
  | nil =>
      rw [List.nil_append] at hgood hne hlt ⊢
      rw [groupsBlocks_cons, groupBlocks] at hlt
      obtain ⟨map, hrun, hmap⟩ := reopenKeys_eq hs (fun e he => hgood e (by simpa using he))
        (hne g (by simp)) 0 { d with keyBlkNum := lblk, keyb := keyImage f T lblk }
        (show lblk + 1 + extentsBlocks T g < 2 ^ 64 by omega)
      refine ⟨map, ?_, ?_⟩
      · rw [reopenGroups, reopenGroups, hrun]
        simp [groupsBlocks]
      · intro n
        rw [hmap]
        simp
  | cons g₀ gs ih =>
      rw [List.cons_append] at hgood hne hlt ⊢
      rw [groupsBlocks_cons, groupBlocks] at hlt
      rw [List.flatten_cons] at hgood
      obtain ⟨map₀, hrun₀, hmap₀⟩ := reopenKeys_eq hs
        (fun e he => hgood e (List.mem_append_left _ he)) (hne g₀ (by simp)) 0
        { d with keyBlkNum := lblk, keyb := keyImage f T lblk }
        (show lblk + 1 + extentsBlocks T g₀ < 2 ^ 64 by omega)
      rw [reopenGroups, hrun₀]
      obtain ⟨map, hrun, hmap⟩ := ih (fun e he => hgood e (List.mem_append_right _ he))
        (fun g' hg' => hne g' (by simp [hg'])) (lblk + groupBlocks T g₀)
        { d with
          writtenBlockMap := map₀
          keyBlkNum := lblk
          keyb := keyImage f T lblk
          undoBlkNum := lblk + 1 + extentsBlocks T g₀
          keysInBlock := 0 + g₀.length }
        (show lblk + groupBlocks T g₀ + groupsBlocks T (gs ++ [g]) < 2 ^ 64 by
          rw [groupBlocks]; omega)
      refine ⟨map, ?_, ?_⟩
      · rw [groupsBlocks_cons, ← Nat.add_assoc]
        exact hrun
      · intro n
        rw [hmap, hmap₀, List.flatten_cons, or_assoc]
        simp only [List.mem_append, or_and_right, exists_or]

/-- **The loop over the key blocks** of a file that holds groups. -/
theorem reopenLoop_groups (hs : Sizes bs T) {groups : List (List Extent)} {i lblk numKeys : Nat}
    {s : State Files} (hquiet : s.sys.outcomes = []) (hbs : s.sys.undoFile.blockSize = T)
    (hoff : s.sys.undoFile.offset = 0) (hgroups : GroupsAt s.sys.undoFile.file T lblk groups)
    (hpacked : Packed (keysPerBlock T) groups)
    (hgood : ∀ e ∈ groups.flatten, e.Good bs T)
    (hlt : lblk + groupsBlocks T groups < 2 ^ 64)
    (hkeys : numKeys = i + (groups.map List.length).sum)
    (hwrap : numKeys + keysPerBlock T < 2 ^ 64) (rounds : Nat) :
    reopenLoop Files.undoChannel bs T numKeys (groups.length + 1 + rounds) i lblk s =
      some (.ok, { s with data := reopenGroups bs T s.sys.undoFile.file lblk groups s.data }) := by
  have hkpb := keysPerBlock_pos hs.tdbDataSize_le hs.tdbDataSize_ge
  induction groups generalizing i lblk s with
  | nil =>
      rw [List.length_nil, Nat.zero_add, Nat.add_comm, reopenLoop, if_pos (by simp [hkeys])]
      rfl
  | cons g groups ih =>
      obtain ⟨⟨⟨kb, hstarts, hlen, hkb⟩, hdata⟩, hrest⟩ := hgroups
      obtain ⟨hne, hle, hfull, hpacked⟩ := hpacked.cons hkpb
      have hpos : 0 < g.length := List.length_pos_iff.mpr hne
      rw [groupsBlocks_cons, groupBlocks] at hlt
      rw [List.map_cons, List.sum_cons] at hkeys
      have hsize : (kb.sealed T).encode.length = T := by
        rw [UndoKeyBlock.length_encode, UndoKeyBlock.sealed_keys]
        omega
      have himage := ByteFile.pread_of_holds_length hkb hsize
      have hread : Files.undoChannel.readBlk64 lblk 1 s.sys =
          (.ok (kb.sealed T).encode, s.sys) := by
        have hplace : s.sys.undoFile.place lblk = lblk * T := by
          rw [FileChannel.place, hbs, hoff, Nat.add_zero]
        have hinside := hkb.le_size (List.ne_nil_of_length_pos (by
          rw [hsize]
          exact hs.tdbDataSize_pos))
        rw [Files.readUndo_of_quiet hquiet, FileChannel.readUpTo_inside]
        · rw [hplace, transferSize_block, hbs, himage]
        · rw [transferSize_block, hbs]
          exact hs.le_maxRwCount
        · rw [hplace, transferSize_block, hbs]
          rwa [hsize] at hinside
      have hcount : min (numKeys - i) (keysPerBlock T) = g.length := by
        rcases hfull with rfl | hfull
        · rw [List.map_nil, List.sum_nil] at hkeys
          omega
        · omega
      have hkeysOf : (List.range g.length).map (kb.sealed T).key = g.map Extent.key := by
        have hstarts' : (kb.sealed T).Starts (g.map Extent.key) := hstarts
        have hmap := hstarts'.map_key
        rwa [List.length_map] at hmap
      obtain ⟨map, hrun, -⟩ := reopenKeys_eq hs
        (fun e he => hgood e (List.mem_flatten.mpr ⟨g, by simp, he⟩)) hne 0
        { s.data with keyBlkNum := lblk, keyb := keyImage s.sys.undoFile.file T lblk }
        (show lblk + 1 + extentsBlocks T g < 2 ^ 64 by omega)
      have hnext : reopenLoop Files.undoChannel bs T numKeys (groups.length + 1 + rounds)
          (i + keysPerBlock T) (lblk + groupBlocks T g)
          { s with data := (UndoPrivateData.reopenKeys bs T (g.map Extent.key) 0 (lblk + 1)
            { s.data with keyBlkNum := lblk, keyb := keyImage s.sys.undoFile.file T lblk }).2 } =
          some (.ok, { s with
            data := reopenGroups bs T s.sys.undoFile.file lblk (g :: groups) s.data }) := by
        rcases hfull with rfl | hfull
        · rw [List.map_nil, List.sum_nil] at hkeys
          rw [List.length_nil, Nat.zero_add, Nat.add_comm 1, reopenLoop, if_pos (by omega)]
          rfl
        · exact ih hquiet hbs hoff hrest hpacked
            (fun e he => hgood e (by rw [List.flatten_cons]; exact List.mem_append_right _ he))
            (by rw [groupBlocks]; omega) (by omega)
      have hwrapped : (i + keysPerBlock T) % 2 ^ 64 = i + keysPerBlock T :=
        Nat.mod_eq_of_lt (by omega)
      have hlblk : (lblk + 1) % 2 ^ 64 = lblk + 1 := Nat.mod_eq_of_lt (by omega)
      have hmemory : ({ kb.sealed T with crc := 0 } : UndoKeyBlock) =
          keyImage s.sys.undoFile.file T lblk := by
        rw [keyImage, himage, UndoKeyBlock.decode_encode]
      rw [List.length_cons, Nat.add_right_comm _ 1 rounds, reopenLoop, if_neg (by omega), hread]
      dsimp only
      rw [UndoKeyBlock.decode_encode, if_neg (by simp), hcount, hkeysOf, hwrapped, hlblk, hmemory]
      rw [hrun] at hnext ⊢
      rw [groupBlocks, ← Nat.add_assoc] at hnext
      exact hnext

end Loop

section Setup

variable {s : State Files}

theorem setupBlock_of_inside (hquiet : s.sys.outcomes = [])
    (hsize : s.sys.undoFile.blockSize ≤ maxRwCount) {i : Nat}
    (hinside : s.sys.undoFile.place i + s.sys.undoFile.blockSize ≤ s.sys.undoFile.file.size) :
    ∃ kb, setupBlock Files.undoChannel i s = (.ok, s.withKeyb kb s.sys.undoFile.file) := by
  have hlen : (s.sys.undoFile.file.pread (s.sys.undoFile.place i)
      s.sys.undoFile.blockSize).length = s.sys.undoFile.blockSize := length_pread_of_le hinside
  have hread : Files.undoChannel.readBlk64 i 1 s.sys =
      (.ok (s.sys.undoFile.file.pread (s.sys.undoFile.place i) s.sys.undoFile.blockSize),
        s.sys) := by
    rw [Files.readUndo_of_quiet hquiet, FileChannel.readUpTo_inside]
    · rw [transferSize_block]
    · rwa [transferSize_block]
    · rwa [transferSize_block]
  have hwrite : Files.undoChannel.writeBlk64 i 1 (s.sys.undoFile.file.pread
      (s.sys.undoFile.place i) s.sys.undoFile.blockSize) s.sys = (.ok, s.sys) := by
    rw [Files.writeUndo_of_quiet hquiet _ _ (by rwa [transferSize_block]), transferSize_block,
      fit_of_length hlen, Files.putUndo, (ByteFile.holds_of_pread hlen).pwrite_eq]
  refine ⟨.decode (s.sys.undoFile.file.pread (s.sys.undoFile.place i)
    s.sys.undoFile.blockSize), ?_⟩
  unfold setupBlock
  rw [hread]
  simp only [hwrite, Files.flushUndo_of_quiet hquiet]
  rfl

theorem setupBlocks_of_inside (hquiet : s.sys.outcomes = [])
    (hsize : s.sys.undoFile.blockSize ≤ maxRwCount) {is : List Nat}
    (hinside : ∀ i ∈ is,
      s.sys.undoFile.place i + s.sys.undoFile.blockSize ≤ s.sys.undoFile.file.size) :
    ∃ kb, setupBlocks Files.undoChannel is s = (.ok, s.withKeyb kb s.sys.undoFile.file) := by
  induction is generalizing s with
  | nil =>
      exact ⟨s.data.keyb, rfl⟩
  | cons i is ih =>
      obtain ⟨kb, hone⟩ := setupBlock_of_inside hquiet hsize (hinside i (by simp))
      obtain ⟨kb', hrest⟩ := @ih (s.withKeyb kb s.sys.undoFile.file) hquiet hsize
        fun j hj => hinside j (by simp [hj])
      rw [setupBlocks, hone]
      exact ⟨kb', hrest⟩

theorem undoSetupTdb_of_inside (hquiet : s.sys.outcomes = [])
    (hsize : s.data.tdbDataSize ≤ maxRwCount) (hnew : s.data.tdbWritten ≠ 1)
    (hoffset : s.sys.undoFile.offset = 0)
    (hinside : 3 * s.data.tdbDataSize ≤ s.sys.undoFile.file.size) :
    undoSetupTdb Files.undoChannel s =
      (.ok, s.setUp.withKeyb (.zero s.data.tdbDataSize) s.sys.undoFile.file) := by
  obtain ⟨kb, hblocks⟩ := @setupBlocks_of_inside s.setUp hquiet hsize [0, 1, 2] (by
    intro i hi
    show i * s.data.tdbDataSize + s.sys.undoFile.offset + s.data.tdbDataSize ≤
      s.sys.undoFile.file.size
    simp only [List.mem_cons, List.not_mem_nil, or_false] at hi
    rcases hi with rfl | rfl | rfl
    · omega
    · omega
    · omega)
  have hstate : ({ s with
      data.tdbWritten := 1
      data.writtenBlockMap := fun _ => false
      data.keyBlkNum := s.data.firstKeyBlk
      data.hdr.blockSize := UInt32.ofNat s.data.tdbDataSize
      sys := Files.undoChannel.setBlksize s.data.tdbDataSize s.sys } : State Files) = s.setUp :=
    rfl
  unfold undoSetupTdb
  rw [if_neg hnew, hstate]
  dsimp only
  rw [hblocks]
  rfl

end Setup

section Open

/-- The undo file is set up for a channel that has just been opened. -/
theorem undoSetupTdb_opened {T : Nat} {sys : Files} (hquiet : sys.outcomes = [])
    (hsize : T ≤ maxRwCount) (hoffset : sys.undoFile.offset = 0)
    (hfile : 3 * T ≤ sys.undoFile.file.size) :
    undoSetupTdb Files.undoChannel { opened sys with data.tdbDataSize := T } =
      (.ok, { opened sys with
        data := { UndoPrivateData.init with
          keyBlkNum := 2
          keyb := .zero T
          tdbDataSize := T
          tdbWritten := 1
          hdr := { UndoHeader.zero with blockSize := UInt32.ofNat T } }
        sys.undoFile.blockSize := T }) := by
  have hnew : (0 : Int) ≠ 1 := by decide
  exact @undoSetupTdb_of_inside { opened sys with data.tdbDataSize := T } hquiet hsize hnew hoffset
    hfile

/-- The channels as the backing manager opens them. -/
def Files.atOpen (s : Files) : Files :=
  { s with
    real.blockSize := 1024
    real.offset := 0
    undoFile.blockSize := 1024
    undoFile.offset := 0 }

/-- The channels once the block size of the undo file is known. -/
def Files.reopening (T : Nat) (s : Files) : Files :=
  { s.atOpen with undoFile.blockSize := T }

/-- What is known from the header before the keys are read. -/
def reopenedData (T : Nat) (hdr : UndoHeader) : UndoPrivateData :=
  { UndoPrivateData.init with
    keyBlkNum := 2
    superBlkNum := hdr.superOffset.toNat
    firstKeyBlk := hdr.keyOffset.toNat
    keyb := .zero T
    numKeys := hdr.numKeys.toNat
    tdbDataSize := T
    tdbWritten := 1
    hdr := { UndoHeader.zero with blockSize := UInt32.ofNat T } }

/-- The channel of a reopened file that holds groups. -/
def State.reopened (bs T : Nat) (groups : List (List Extent)) (s : State Files) : State Files :=
  (keepHeader s.data.hdr (.ok,
    { blockSize := 1024
      data := reopenGroups bs T s.sys.undoFile.file 2 groups (reopenedData T s.data.hdr)
      sys := s.sys.reopening T })).2

variable {bs T off : Nat} {L : Ledger} {gs : List (List Extent)} {last : List Extent}
  {s : State Files} {super : Bytes}

theorem Tracks.three_mul_le (h : Tracks bs T off L gs last s) (hne : L.extents ≠ []) :
    3 * T ≤ s.sys.undoFile.file.size := by
  have hs := h.session.sizes
  have hw := h.session.stored
  have hge := hs.tdbDataSize_ge
  rw [e2undoMinBlockSize] at hge
  have hgroups := hw.closedGroupsAt
  have hflat : (closedGroups gs last).flatten ≠ [] := by
    rw [flatten_closedGroups, h.extents]
    exact hne
  cases hclosed : closedGroups gs last with
  | nil =>
      rw [hclosed] at hflat
      exact absurd rfl hflat
  | cons g rest =>
      rw [hclosed] at hgroups
      obtain ⟨⟨⟨kb, -, hkeys, hkb⟩, -⟩, -⟩ := hgroups
      have hlen : (kb.sealed T).encode.length = T := by
        rw [UndoKeyBlock.length_encode, UndoKeyBlock.sealed_keys]
        omega
      have hkey := hkb.le_size (List.ne_nil_of_length_pos (by omega))
      rw [hlen] at hkey
      omega

theorem Tracks.read_header (h : Tracks bs T off L gs last s) (hd : Described bs T off super s) :
    Files.undoChannel.readBlk64 0 (-undoHeaderSize) s.sys.atOpen =
      (.ok s.data.hdr.encode, s.sys.atOpen) := by
  have hquiet : s.sys.atOpen.outcomes = [] := h.session.config.outcomes
  have hlen : s.data.hdr.encode.length = undoHeaderSize := UndoHeader.length_encode _
  have hle := hd.header.le_size (List.ne_nil_of_length_pos (by rw [hlen]; decide))
  rw [hlen] at hle
  rw [Files.readUndo_of_quiet hquiet, FileChannel.readUpTo_inside]
  · rw [transferSize_header]
    show (Except.ok (s.sys.undoFile.file.pread (0 * 1024 + 0) undoHeaderSize), s.sys.atOpen) = _
    rw [Nat.zero_mul, Nat.add_zero, ByteFile.pread_of_holds_length hd.header hlen]
  · rw [transferSize_header]
    decide
  · rw [transferSize_header]
    show 0 * 1024 + 0 + undoHeaderSize ≤ s.sys.undoFile.file.size
    omega

theorem Tracks.sameFilesystem_eq (h : Tracks bs T off L gs last s)
    (hd : Described bs T off super s) :
    sameFilesystem Files.realChannel Files.undoChannel s.data.hdr 1
        (s.sys.reopening T) =
      (decide (superAt 0 s.sys.real.file = super), s.sys.reopening T) := by
  have hsuper := h.session.hasSuper
  rw [Files.HasSuper, superblockOffset, superblockSize] at hsuper
  have hquiet : (s.sys.reopening T).outcomes = [] := h.session.config.outcomes
  have hset : Files.realChannel.setBlksize superblockOffset (s.sys.reopening T) =
      s.sys.reopening T := rfl
  have hlen : (invertMagic super).length = superblockSize := by
    rw [length_invertMagic, hd.super_length]
  have hle := hd.copy.le_size (List.ne_nil_of_length_pos (by rw [hlen]; decide))
  rw [hlen] at hle
  have hreal : Files.realChannel.readBlk64 1 (-superblockSize) (s.sys.reopening T) =
      (.ok (superAt 0 s.sys.real.file), s.sys.reopening T) := by
    rw [Files.readReal_of_quiet hquiet, FileChannel.readUpTo_inside]
    · rw [transferSize_super]
      rfl
    · rw [transferSize_super]
      decide
    · rw [transferSize_super]
      show 1 * 1024 + 0 + superblockSize ≤ s.sys.real.file.size
      rw [superblockSize]
      omega
  have hundo : Files.undoChannel.readBlk64 1 (-superblockSize) (s.sys.reopening T) =
      (.ok (invertMagic super), s.sys.reopening T) := by
    rw [Files.readUndo_of_quiet hquiet, FileChannel.readUpTo_inside]
    · rw [transferSize_super]
      show (Except.ok (s.sys.undoFile.file.pread (1 * T + 0) superblockSize), _) = _
      rw [Nat.one_mul, Nat.add_zero, ByteFile.pread_of_holds_length hd.copy hlen]
    · rw [transferSize_super]
      decide
    · rw [transferSize_super]
      show 1 * T + 0 + superblockSize ≤ s.sys.undoFile.file.size
      omega
  have hmagic : invertMagic (invertMagic super) = super :=
    invertMagic_invertMagic (by rw [hd.super_length]; decide)
  unfold sameFilesystem
  rw [hset, hreal]
  dsimp only
  rw [hundo]
  dsimp only
  rw [hmagic, hd.sbCrc]
  simp

theorem Tracks.numKeys_eq (h : Tracks bs T off L gs last s) (hd : Described bs T off super s)
    (hlt : (2 + groupsBlocks T (closedGroups gs last)) * T < 2 ^ 63) :
    s.data.hdr.numKeys.toNat = s.data.numKeys ∧
      s.data.numKeys = ((closedGroups gs last).map List.length).sum ∧
      s.data.numKeys + keysPerBlock T < 2 ^ 64 := by
  have hs := h.session.sizes
  have hw := h.session.stored
  have hge := hs.tdbDataSize_ge
  rw [e2undoMinBlockSize] at hge
  have hkpb := keysPerBlock_lt hs.tdbDataSize_ge hs.tdbDataSize_le
  have hcount : s.data.numKeys = ((closedGroups gs last).map List.length).sum := by
    rw [hw.numKeys]
    unfold closedGroups
    split_ifs with hlast
    · rw [hlast, List.length_nil, Nat.add_zero]
    · simp
  have hwhole : ∀ e ∈ (closedGroups gs last).flatten, e.Whole T := by
    rw [flatten_closedGroups]
    exact fun e he => (hw.good e he).whole
  have hblocks := sum_length_le_groupsBlocks hwhole hs.tdbDataSize_pos
  have hbytes : groupsBlocks T (closedGroups gs last) * 1024 ≤
      groupsBlocks T (closedGroups gs last) * T := Nat.mul_le_mul_left _ hge
  rw [Nat.add_mul] at hlt
  refine ⟨?_, hcount, by omega⟩
  rw [hd.numKeys, UInt64.toNat_ofNat']
  omega

/-- **Reopening the file of a session**: it is refused if the superblock is not found, and
otherwise its groups are loaded. -/
theorem Tracks.undoOpen_eq (h : Tracks bs T off L gs last s) (hd : Described bs T off super s)
    (hne : L.extents ≠ []) (hlt : (2 + groupsBlocks T (closedGroups gs last)) * T < 2 ^ 63) :
    (superAt 0 s.sys.real.file ≠ super →
        (undoOpen Files.realChannel Files.undoChannel s.sys.atOpen).map Prod.fst =
          some .undoFileWrong) ∧
      (superAt 0 s.sys.real.file = super →
        undoOpen Files.realChannel Files.undoChannel s.sys.atOpen =
          some (.ok, s.reopened bs T (closedGroups gs last))) := by
  have hs := h.session.sizes
  have hc := h.session.config
  have hw := h.session.stored
  have hge := hs.tdbDataSize_ge
  have hle := hs.tdbDataSize_lt
  rw [e2undoMinBlockSize] at hge
  have hbs : bs ≤ T := Nat.le_of_dvd hs.tdbDataSize_pos hs.dvd
  have hbspos := hs.blockSize_pos
  have hT : s.data.hdr.blockSize.toNat = T := by
    rw [hc.hdrBlockSize, UInt32.toNat_ofNat']
    omega
  have hfs : s.data.hdr.fsBlockSize.toNat = bs := by
    rw [hd.fsBlockSize, UInt32.toNat_ofNat']
    omega
  have hfile := h.three_mul_le hne
  have hcrc : s.data.hdr.headerCrc = s.data.hdr.checksum := by
    have hsealed := congrArg UndoHeader.headerCrc hd.sealed_eq
    rw [UndoHeader.headerCrc_sealed] at hsealed
    exact hsealed.symm
  have hfsne : s.data.hdr.fsBlockSize ≠ 0 := by
    intro hzero
    rw [hzero] at hfs
    change 0 = bs at hfs
    omega
  -- the checks of the header pass
  have hopen : undoOpen Files.realChannel Files.undoChannel s.sys.atOpen =
      reopenWith Files.realChannel Files.undoChannel s.data.hdr (opened s.sys.atOpen) := by
    have hread := h.read_header hd
    unfold undoOpen tryReopenUndoFile
    have hsome : Files.undoChannel.fileSize (opened s.sys.atOpen).sys ≠ 0 := by
      show s.sys.undoFile.file.size ≠ 0
      omega
    rw [if_neg hsome, show (opened s.sys.atOpen).sys = s.sys.atOpen from rfl, hread]
    dsimp only
    rw [UndoHeader.decode_encode, if_neg]
    · rfl
    · rw [hT]
      rw [not_or, not_or, not_or, not_or, not_not, not_not]
      refine ⟨hd.magic, hcrc, not_lt.mpr hs.tdbDataSize_le, not_lt.mpr hs.tdbDataSize_ge, hfsne⟩
  have hsame := h.sameFilesystem_eq hd
  have hset : Files.undoChannel.setBlksize T s.sys.atOpen = s.sys.reopening T := rfl
  have hone : s.data.hdr.superOffset.toNat = 1 := by
    rw [hd.superOffset]
    rfl
  have htwo : s.data.hdr.keyOffset.toNat = 2 := by
    rw [hd.keyOffset]
    rfl
  constructor
  · intro hwrong
    rw [hopen]
    unfold reopenWith
    dsimp only
    rw [if_neg (by simp [hc.features.1, hc.features.2]), hT,
      show (opened s.sys.atOpen).sys = s.sys.atOpen from rfl, hset, hone, hsame,
      decide_eq_false hwrong]
    rfl
  · intro hright
    obtain ⟨hnum, hcount, hwrap⟩ := h.numKeys_eq hd hlt
    have hsetup := @undoSetupTdb_opened T (s.sys.reopening T) hc.outcomes hs.le_maxRwCount rfl hfile
    have hrounds : (closedGroups gs last).length ≤ s.data.numKeys := by
      rw [hcount]
      have := List.card_nsmul_le_sum ((closedGroups gs last).map List.length) 1 (by
        intro k hk
        obtain ⟨g, hg, rfl⟩ := List.mem_map.mp hk
        exact List.length_pos_iff.mpr (h.closedGroups_ne g hg))
      simpa using this
    have hloop := @reopenLoop_groups bs T hs (closedGroups gs last) 0 2 s.data.numKeys
      ⟨1024, reopenedData T s.data.hdr, s.sys.reopening T⟩
      hc.outcomes rfl rfl hw.closedGroupsAt
      (packed_closedGroups hw.full (keysPerBlock_pos hs.tdbDataSize_le hs.tdbDataSize_ge) hw.room)
      (by rw [flatten_closedGroups]; exact hw.good)
      (by
        have := Nat.le_mul_of_pos_right (2 + groupsBlocks T (closedGroups gs last))
          hs.tdbDataSize_pos
        omega)
      (by rw [hcount, Nat.zero_add]) hwrap (s.data.numKeys - (closedGroups gs last).length)
    rw [Nat.add_right_comm, Nat.add_sub_cancel' hrounds] at hloop
    rw [hopen]
    unfold reopenWith
    dsimp only
    rw [if_neg (by simp [hc.features.1, hc.features.2]), hT,
      show (opened s.sys.atOpen).sys = s.sys.atOpen from rfl, hset, hone, hsame,
      decide_eq_true hright]
    dsimp only
    have hstate : ({ opened s.sys.atOpen with
        data.tdbDataSize := T
        sys := s.sys.reopening T } : State Files) =
        { opened (s.sys.reopening T) with data.tdbDataSize := T } := rfl
    rw [hstate, hsetup]
    dsimp only
    have hdata : ({ opened (s.sys.reopening T) with
        data := { UndoPrivateData.init with
          keyBlkNum := 2
          superBlkNum := 1
          firstKeyBlk := 2
          keyb := .zero T
          numKeys := s.data.numKeys
          tdbDataSize := T
          tdbWritten := 1
          hdr := { UndoHeader.zero with blockSize := UInt32.ofNat T } }
        sys.undoFile.blockSize := T } : State Files) =
        ⟨1024, reopenedData T s.data.hdr, s.sys.reopening T⟩ := by
      rw [reopenedData, hone, htwo, hnum]
      rfl
    rw [htwo, hnum, hfs, hdata, hloop]
    rfl

end Open

section Seam

/-- The writer of a reopened file goes on where the one before has stopped: the keys and their
place, the next free block, and the marked blocks are the same, and there is room for a key. -/
structure SameWriter (s s' : State Files) : Prop where
  numKeys : s'.data.numKeys = s.data.numKeys
  keysInBlock : s'.data.keysInBlock = s.data.keysInBlock
  keyBlkNum : s'.data.keyBlkNum = s.data.keyBlkNum
  undoBlkNum : s'.data.undoBlkNum = s.data.undoBlkNum
  keys : s'.data.keyb.keys = s.data.keyb.keys
  marks : s'.data.writtenBlockMap = s.data.writtenBlockMap
  room : s'.data.keysInBlock < keysPerBlock s'.data.tdbDataSize

/-- The undo file can be reopened, and the writer is the one before. -/
def Reopens (s : State Files) : Prop :=
  ∃ s', undoOpen Files.realChannel Files.undoChannel s.sys.atOpen = some (.ok, s') ∧
    SameWriter s s'

variable {bs T off : Nat} {L : Ledger} {gs : List (List Extent)} {last : List Extent}
  {s : State Files} {super : Bytes}

theorem Tracks.spans_iff (h : Tracks bs T off L gs last s) (hregular : L.Regular bs T off)
    (n : Nat) :
    (∃ e ∈ L.extents, e.Spans bs T n) ↔ L.Marked bs T off (n + off / T) := by
  have hs := h.session.sizes
  have hpos := hs.tdbDataSize_pos
  have hdiv := Nat.div_add_mod off T
  have hone : ∀ e ∈ L.extents, e.Spans bs T n ↔ e.Has bs T off (n + off / T) := by
    intro e he
    obtain ⟨m, hm⟩ := hregular.based e he
    have hgood := h.session.stored.good e (by rw [h.extents]; exact he)
    have hmul := hgood.whole.blocks_mul hpos
    rw [Extent.place] at hm
    -- the extent begins `m - off / T` undo blocks behind the offset
    obtain ⟨k, rfl⟩ : ∃ k, m = k + off / T := by
      have hle : off / T ≤ m := by
        by_contra hcon
        have hnext : (m + 1) * T ≤ off / T * T := Nat.mul_le_mul_right T (by omega)
        rw [Nat.succ_mul] at hnext
        rw [Nat.mul_comm] at hdiv
        have := Nat.mod_lt off hpos
        omega
      exact ⟨m - off / T, by omega⟩
    have hstart : e.fsblk * bs = k * T := by
      rw [Nat.add_mul] at hm
      rw [Nat.mul_comm] at hdiv
      omega
    rw [Extent.Spans, Extent.Has, Extent.place, hm, hstart, Nat.mul_div_cancel _ hpos, ← hmul]
    constructor
    · rintro ⟨hle, hlt⟩
      have hle' : (k + off / T) * T ≤ (n + off / T) * T := Nat.mul_le_mul_right T (by omega)
      have hlt' : (n + off / T) * T < (k + off / T + e.blocks T) * T :=
        Nat.mul_lt_mul_of_pos_right (by omega) hpos
      rw [Nat.add_mul (k + off / T)] at hlt'
      omega
    · rintro ⟨hle, hlt⟩
      have hle' : (k + off / T) * T ≤ (n + off / T) * T := by omega
      have hlt' : (n + off / T) * T < (k + off / T + e.blocks T) * T := by
        rw [Nat.add_mul (k + off / T)]
        omega
      have hle'' := Nat.le_of_mul_le_mul_right hle' hpos
      have hlt'' := Nat.lt_of_mul_lt_mul_right hlt'
      omega
  have hmarked : L.Marked bs T off (n + off / T) ↔
      ∃ e ∈ L.extents, e.Has bs T off (n + off / T) := by
    rw [Ledger.Marked, hregular.skipped]
    simp
  rw [hmarked]
  constructor
  · rintro ⟨e, he, hspans⟩
    exact ⟨e, he, (hone e he).mp hspans⟩
  · rintro ⟨e, he, hhas⟩
    exact ⟨e, he, (hone e he).mpr hhas⟩

theorem Ledger.Regular.offset_lt (hregular : L.Regular bs T off) (hpos : 0 < T) {n : Nat}
    (hn : L.Marked bs T off n)
    (hshift : ∀ m, L.Marked bs T off m ↔ L.Marked bs T off (m + off / T)) : off < T := by
  by_contra hcon
  have hk : 0 < off / T := Nat.div_pos (by omega) hpos
  have hall : ∀ j, L.Marked bs T off (n + j * (off / T)) := by
    intro j
    induction j with
    | zero =>
        simpa using hn
    | succ j ih =>
        have hnext := (hshift _).mp ih
        rwa [Nat.add_assoc, ← Nat.succ_mul] at hnext
  have hlt := hregular.lt_of_marked (hall L.device.size)
  have hle : L.device.size ≤ (n + L.device.size * (off / T)) * T := by
    calc L.device.size ≤ L.device.size * (off / T) := Nat.le_mul_of_pos_right _ hk
      _ ≤ n + L.device.size * (off / T) := Nat.le_add_left _ _
      _ ≤ (n + L.device.size * (off / T)) * T := Nat.le_mul_of_pos_right _ hpos
  omega

theorem Tracks.keyImage_keys (h : Tracks bs T off L gs last s) (hlast : last ≠ []) :
    (keyImage s.sys.undoFile.file T (2 + groupsBlocks T gs)).keys = s.data.keyb.keys := by
  have hw := h.session.stored
  have hlen : (s.data.keyb.sealed T).encode.length = T := by
    have := hw.length_keyb
    rw [UndoKeyBlock.length_encode, UndoKeyBlock.sealed_keys]
    omega
  rw [keyImage, ← hw.keyBlkNum, ByteFile.pread_of_holds_length (hw.image hlast) hlen,
    UndoKeyBlock.decode_encode]
  rfl

theorem Tracks.last_ne_nil_iff (h : Tracks bs T off L gs last s) :
    last ≠ [] ↔ s.data.numKeys % keysPerBlock T ≠ 0 := by
  have hw := h.session.stored
  have hsum : (gs.map List.length).sum = gs.length * keysPerBlock T := by
    have hall : ∀ k ∈ gs.map List.length, k = keysPerBlock T := by
      intro k hk
      obtain ⟨g, hg, rfl⟩ := List.mem_map.mp hk
      exact hw.full g hg
    rw [List.sum_eq_card_nsmul _ _ hall, List.length_map, smul_eq_mul]
  rw [hw.numKeys, hsum, Nat.add_comm, Nat.add_mul_mod_self_right, Nat.mod_eq_of_lt hw.lt]
  exact not_congr List.length_eq_zero_iff.symm

/-- **A session that is reopened goes on as the same writer** exactly if its last key block is
not full, the offset is less than an undo block, and the superblock is found without it. -/
theorem Tracks.reopened_iff (h : Tracks bs T off L gs last s) (hd : Described bs T off super s)
    (hregular : L.Regular bs T off) (hne : L.extents ≠ [])
    (hlt : (2 + groupsBlocks T (closedGroups gs last)) * T < 2 ^ 63) :
    Reopens s ↔
      off < T ∧ superAt 0 s.sys.real.file = super ∧ s.data.numKeys % keysPerBlock T ≠ 0 := by
  have hs := h.session.sizes
  have hw := h.session.stored
  have hpos := hs.tdbDataSize_pos
  have hkpb := keysPerBlock_pos hs.tdbDataSize_le hs.tdbDataSize_ge
  have hgroups := h.closedGroups_ne
  have hgood : ∀ e ∈ (closedGroups gs last).flatten, e.Good bs T := by
    rw [flatten_closedGroups]
    exact hw.good
  have hblocks : 2 + groupsBlocks T (closedGroups gs last) < 2 ^ 64 := by
    have := Nat.le_mul_of_pos_right (2 + groupsBlocks T (closedGroups gs last)) hpos
    omega
  obtain ⟨hwrong, hright⟩ := h.undoOpen_eq hd hne hlt
  rw [← h.last_ne_nil_iff]
  by_cases hsuper : superAt 0 s.sys.real.file = super
  · have hwriter : Reopens s ↔ SameWriter s (s.reopened bs T (closedGroups gs last)) := by
      rw [Reopens, hright hsuper]
      simp
    rw [hwriter]
    by_cases hlast : last = []
    · -- the reader stops in the full key block, the writer has begun the next one
      have hclosed : closedGroups gs last = gs := by
        rw [closedGroups, if_pos hlast]
      rw [hclosed] at hgood hgroups hblocks ⊢
      have hgs : gs ≠ [] := by
        rintro rfl
        rw [← h.extents, hlast] at hne
        exact hne rfl
      obtain ⟨init, g, rfl⟩ : ∃ init g, gs = init ++ [g] :=
        ⟨gs.dropLast, gs.getLast hgs, (List.dropLast_append_getLast hgs).symm⟩
      obtain ⟨map, hload, -⟩ := reopenGroups_concat hs s.sys.undoFile.file hgood hgroups 2
        (reopenedData T s.data.hdr) hblocks
      constructor
      · intro hsame
        have hkeys' := hsame.keysInBlock
        rw [State.reopened, hload, hw.keysInBlock, hlast] at hkeys'
        have hfull := hw.full g (by simp)
        change g.length = 0 at hkeys'
        omega
      · rintro ⟨-, -, hcon⟩
        exact absurd hlast hcon
    · have hclosed : closedGroups gs last = gs ++ [last] := by
        rw [closedGroups, if_neg hlast]
      have hflat : (gs ++ [last]).flatten = L.extents := by
        rw [← hclosed, flatten_closedGroups, h.extents]
      rw [hclosed] at hgood hgroups hblocks ⊢
      obtain ⟨map, hload, hmap⟩ := reopenGroups_concat hs s.sys.undoFile.file hgood hgroups 2
        (reopenedData T s.data.hdr) hblocks
      obtain ⟨hnum, -, -⟩ := h.numKeys_eq hd hlt
      have hmarks : ∀ n, map n = true ↔ L.Marked bs T off (n + off / T) := by
        intro n
        rw [hmap, hflat, h.spans_iff hregular]
        simp [reopenedData, UndoPrivateData.init]
      constructor
      · intro hsame
        refine ⟨?_, hsuper, hlast⟩
        have hsame := hsame.marks
        rw [State.reopened, hload] at hsame
        change map = s.data.writtenBlockMap at hsame
        obtain ⟨e, he⟩ := List.exists_mem_of_ne_nil _ hne
        obtain ⟨m, hm⟩ := hregular.based e he
        have hlen := List.length_pos_iff.mpr
          ((hw.good e (by rw [h.extents]; exact he)).whole.data_ne_nil hpos)
        have hmarked : L.Marked bs T off m := Or.inl ⟨e, he, by omega, by omega⟩
        refine hregular.offset_lt hpos hmarked fun n => ?_
        rw [← hmarks, ← h.marks, hsame]
      · rintro ⟨hofflt, -, -⟩
        rw [State.reopened, hload]
        refine ⟨hnum, hw.keysInBlock.symm, hw.keyBlkNum.symm, ?_, h.keyImage_keys hlast, ?_, hw.lt⟩
        · rw [hw.undoBlkNum, hw.keyBlkNum]
          rfl
        · funext n
          rw [Bool.eq_iff_iff, h.marks]
          show map n = true ↔ _
          rw [hmarks, Nat.div_eq_of_lt hofflt, Nat.add_zero]
  · constructor
    · rintro ⟨s', hopen, -⟩
      have hcode := hwrong hsuper
      rw [hopen] at hcode
      simp at hcode
    · rintro ⟨-, hcon, -⟩
      exact absurd hcon hsuper

end Seam

section Runs

variable {bs T off : Nat} {sys : Files} {cs : List Call}

/-- A request that is saved without an error: its undo blocks begin inside the device, and its
end does not cut them. -/
structure Call.Whole (bs T off : Nat) (dev : ByteFile) (c : Call) : Prop where
  size_lt : dev.size < 2 ^ 63
  fits : c.Fits bs T off dev.size
  inside : ∀ n, c.Walks bs T off n → n * T + off % T < dev.size

/-- A session without an error of the undo manager, at any offset. -/
structure Unbroken (bs T off : Nat) (sys : Files) (cs : List Call) : Prop where
  sizes : Sizes bs T
  blockSize_ge : e2undoMinBlockSize ≤ bs
  hasSuper : superblockOffset + off + superblockSize ≤ sys.real.file.size
  undoOffset : sys.undoFile.offset = 0
  quiet : sys.outcomes = []
  calls : ∀ pre c post, cs = pre ++ c :: post →
    c.Whole bs T off (after bs T off sys pre).sys.real.file

theorem Unbroken.left {cs' : List Call} (h : Unbroken bs T off sys (cs ++ cs')) :
    Unbroken bs T off sys cs := by
  refine ⟨h.sizes, h.blockSize_ge, h.hasSuper, h.undoOffset, h.quiet, ?_⟩
  intro pre c post heq
  refine h.calls pre c (post ++ cs') ?_
  rw [heq, List.append_assoc, List.cons_append]

/-- **The ledger of such a session is regular**, by induction over its requests. -/
theorem Unbroken.ready (h : Unbroken bs T off sys cs) :
    ∃ L, Ready bs T off L (after bs T off sys cs) ∧ L.Regular bs T off ∧
      (∀ n, L.Marked bs T off n ↔ ∃ c ∈ cs, c.Walks bs T off n) ∧
      (cs ≠ [] → ∃ gs last, Tracks bs T off L gs last (after bs T off sys cs)) := by
  induction cs using List.reverseRecOn with
  | nil =>
      obtain ⟨hfresh, -, -⟩ := fresh_started h.sizes h.blockSize_ge h.quiet h.undoOffset h.hasSuper
      refine ⟨_, Or.inl ⟨hfresh, rfl⟩, Ledger.regular_nil bs T off _, ?_, fun hne => absurd rfl hne⟩
      intro n
      simp [Ledger.Marked]
  | append_singleton cs c ih =>
      obtain ⟨L, hready, hregular, hmarks, -⟩ := ih h.left
      have hwhole := h.calls cs c [] rfl
      rw [hready.device_eq] at hwhole
      obtain ⟨L', gs, last, hsaving, hmarked, hchanges, htracks⟩ :=
        hready.run hwhole.size_lt hwhole.fits
      rw [after_concat]
      refine ⟨L', Or.inr ⟨gs, last, htracks⟩, ?_, ?_, fun _ => ⟨gs, last, htracks⟩⟩
      · have hsaved := hsaving.regular h.sizes.tdbDataSize_pos (fun n hn hfresh =>
          hwhole.inside n (((hmarked n).mp hn).resolve_left hfresh)) hregular
        exact hsaved.change hchanges.size_le
      · intro n
        rw [hmarked, hmarks]
        simp only [List.mem_append, List.mem_singleton, or_and_right, exists_or, exists_eq_left]

def closedState (bs T off : Nat) (sys : Files) (unfinished : Bool) (cs : List Call) :
    State Files :=
  (undoClose Files.realChannel Files.undoChannel unfinished (after bs T off sys cs)).2

theorem Unbroken.closed (h : Unbroken bs T off sys cs)
    (hsaved : ∃ c ∈ cs, ∃ n, c.Walks bs T off n) (unfinished : Bool) :
    ∃ L gs last, Tracks bs T off L gs last (closedState bs T off sys unfinished cs) ∧
      Described bs T off (superAt off (closedState bs T off sys unfinished cs).sys.real.file)
        (closedState bs T off sys unfinished cs) ∧
      L.Regular bs T off ∧ L.extents ≠ [] := by
  obtain ⟨c, hc, n, hn⟩ := hsaved
  obtain ⟨L, -, hregular, hmarks, htracks⟩ := h.ready
  obtain ⟨gs, last, htracks⟩ := htracks (List.ne_nil_of_mem hc)
  have hne : L.extents ≠ [] := by
    intro hnil
    rcases (hmarks n).mpr ⟨c, hc, hn⟩ with ⟨e, he, -⟩ | hskip
    · rw [hnil] at he
      exact absurd he List.not_mem_nil
    · rw [hregular.skipped] at hskip
      exact hskip
  obtain ⟨s', hclose, htracks', hdescribed, -, -⟩ := htracks.undoClose unfinished
  have hstate : closedState bs T off sys unfinished cs = s' := by
    rw [closedState, hclose]
  have hsuper : s'.sys.super = superAt off s'.sys.real.file := by
    rw [Files.super, superAt, htracks'.session.config.realOffset]
  rw [hstate]
  rw [hsuper] at hdescribed
  exact ⟨L, gs, last, htracks', hdescribed, hregular, hne⟩

theorem walks_sevens_shifted (n : Nat) : (sevens 3).Walks 1024 1024 2048 n ↔ n = 5 := by
  have hends : tdbBlockNum 1024 (tdbOffset 1024 3 2048) = 5 ∧
      tdbEndBlock 1024 (tdbOffset 1024 3 2048) (tdbSize 1024 1) = 5 := by
    decide
  show tdbBlockNum 1024 (tdbOffset 1024 3 2048) ≤ n ∧
    n ≤ tdbEndBlock 1024 (tdbOffset 1024 3 2048) (tdbSize 1024 1) ↔ n = 5
  rw [hends.1, hends.2]
  omega

theorem unbroken_sevens {off n size : Nat} (hwalks : ∀ m, (sevens 3).Walks 1024 1024 off m ↔ m = n)
    (hn : off / 1024 ≤ n) (hplace : n * 1024 + off % 1024 + 1024 ≤ size) (hsize : size < 2 ^ 63)
    (hsuper : superblockOffset + off + superblockSize ≤ size) :
    Unbroken 1024 1024 off (zeroFiles size) [sevens 3] := by
  have hs : Sizes 1024 1024 := ⟨by norm_num, by decide, by decide, dvd_refl _⟩
  obtain ⟨-, hreal, -⟩ := @fresh_started 1024 1024 off (zeroFiles size) hs (by decide) rfl rfl hsuper
  refine ⟨hs, by decide, hsuper, rfl, rfl, ?_⟩
  intro pre c post heq
  obtain ⟨rfl, heq⟩ : pre = [] ∧ [sevens 3] = c :: post := by
    cases pre with
    | nil =>
        exact ⟨rfl, heq⟩
    | cons c' pre =>
        simp at heq
  obtain rfl := (List.cons.inj heq).1
  have hdevice : (after 1024 1024 off (zeroFiles size) []).sys.real.file = zeroDevice size := hreal
  rw [hdevice]
  refine ⟨hsize, ⟨?_, ?_, ?_⟩, ?_⟩
  · show 1 < 2 ^ 31
    norm_num
  · intro m hm
    rw [(hwalks m).mp hm]
    exact hn
  · intro m hm
    rw [(hwalks m).mp hm]
    exact Or.inl hplace
  · intro m hm
    rw [(hwalks m).mp hm]
    show n * 1024 + off % 1024 < size
    omega

/-- **Reopening gives the state of the writer** exactly if its last key block is not full, the
offset is less than an undo block, and the superblock is found without the offset. -/
theorem reopens_iff (h : Unbroken bs T off sys cs) (hsaved : ∃ c ∈ cs, ∃ n, c.Walks bs T off n)
    (unfinished : Bool)
    (hfile : (closedState bs T off sys unfinished cs).sys.undoFile.file.size < 2 ^ 63) :
    Reopens (closedState bs T off sys unfinished cs) ↔
      off < T ∧
      superAt 0 (closedState bs T off sys unfinished cs).sys.real.file =
        superAt off (closedState bs T off sys unfinished cs).sys.real.file ∧
      (closedState bs T off sys unfinished cs).data.numKeys % keysPerBlock T ≠ 0 := by
  obtain ⟨L, gs, last, htracks, hdescribed, hregular, hne⟩ := h.closed hsaved unfinished
  exact htracks.reopened_iff hdescribed hregular hne (htracks.groups_lt hfile)

theorem reopens_sevens :
    Reopens (closedState 1024 1024 0 (zeroFiles 4096) false [sevens 3]) := by
  have hwalks := @walks_sevens 3 (by norm_num)
  have h : Unbroken 1024 1024 0 (zeroFiles 4096) [sevens 3] :=
    unbroken_sevens hwalks (by norm_num) (by norm_num) (by norm_num) (by decide)
  have hsaved : ∃ c ∈ [sevens 3], ∃ n, c.Walks 1024 1024 0 n :=
    ⟨_, List.mem_cons_self, 3, (hwalks 3).mpr rfl⟩
  have hstate : (closedState 1024 1024 0 (zeroFiles 4096) false
        [sevens 3]).sys.undoFile.file.size < 2 ^ 63 ∧
      (closedState 1024 1024 0 (zeroFiles 4096) false [sevens 3]).data.numKeys %
        keysPerBlock 1024 ≠ 0 := by
    decide +kernel
  exact (reopens_iff h hsaved false hstate.1).mpr ⟨by norm_num, rfl, hstate.2⟩

/-- **The marks of a reopened file lose the offset**: the block that has been saved is marked two
blocks before its place. -/
theorem shifted_marks_not_reopened :
    ¬ Reopens (closedState 1024 1024 2048 (zeroFiles 8192) false [sevens 3]) := by
  intro hreopens
  have h : Unbroken 1024 1024 2048 (zeroFiles 8192) [sevens 3] :=
    unbroken_sevens walks_sevens_shifted (by norm_num) (by norm_num) (by norm_num) (by decide)
  have hsaved : ∃ c ∈ [sevens 3], ∃ n, c.Walks 1024 1024 2048 n :=
    ⟨_, List.mem_cons_self, 5, (walks_sevens_shifted 5).mpr rfl⟩
  obtain ⟨L, gs, last, htracks, hdescribed, hregular, hne⟩ := h.closed hsaved false
  have hfile : (closedState 1024 1024 2048 (zeroFiles 8192) false
      [sevens 3]).sys.undoFile.file.size < 2 ^ 63 := by
    decide +kernel
  have hoff := ((htracks.reopened_iff hdescribed hregular hne (htracks.groups_lt hfile)).mp
    hreopens).1
  omega

end Runs

end Undo
end Rfsck
