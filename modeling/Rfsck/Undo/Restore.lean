import Rfsck.Undo.Saving

/-!
# What a session leaves, and what e2undo makes of it

`undo_close` leaves a file that has all parts that `e2undo` asks for, and the replay writes
exactly the extents of the ledger.

* `Finished.replays`: a run on a finished file passes all checks and writes its extents.
* `Tracks.undoClose`, `Tracks.finished`: a session that is closed leaves a finished file.
* `undo_restores`: sessions with one block size and no offset are undone, as long as the byte
  count of every request fits the `int` of `undo_write_tdb`.
-/

namespace Rfsck
namespace Undo

open Storage
open Redo (fit length_fit fit_of_length Outcome maxRwCount)
open UnixIo (Errcode transferSize)

section Reader

variable {f dev : ByteFile} {off : Nat} {hdr : UndoHeader} {super : Bytes}
  {gs : List (List Extent)} {opts : Options}

theorem Extent.Fits.checkedPatch_eq {e : Extent} (h : e.Fits hdr.blockSize.toNat)
    (hmin : e2undoMinBlockSize ≤ hdr.blockSize.toNat)
    (hmax : hdr.blockSize.toNat ≤ e2undoMaxBlockSize)
    (hoffset : (fsOffset opts hdr).toNat = off) {lblk : Nat}
    (hholds : f.Holds (lblk * hdr.blockSize.toNat) e.data)
    (hlt : lblk * hdr.blockSize.toNat < 2 ^ 63) :
    checkedPatch opts (.sound f) hdr (e.key.info lblk) = e.patch hdr.fsBlockSize.toNat off := by
  rw [checkedPatch, keyPlace, h.info_fsblk, h.fetch_eq hmin hmax hholds hlt, hoffset]
  rfl

theorem ExtentsAt.map_checkedPatch {lblk : Nat} {es : List Extent}
    (h : ExtentsAt f hdr.blockSize.toNat lblk es)
    (hmin : e2undoMinBlockSize ≤ hdr.blockSize.toNat)
    (hmax : hdr.blockSize.toNat ≤ e2undoMaxBlockSize)
    (hoffset : (fsOffset opts hdr).toNat = off)
    (hfits : ∀ e ∈ es, e.Fits hdr.blockSize.toNat)
    (hlt : (lblk + extentsBlocks hdr.blockSize.toNat es) * hdr.blockSize.toNat < 2 ^ 63) :
    (extentInfos hdr.blockSize.toNat lblk es).map (checkedPatch opts (.sound f) hdr) =
      es.map (Extent.patch hdr.fsBlockSize.toNat off) := by
  induction es generalizing lblk with
  | nil =>
      rfl
  | cons e es ih =>
      obtain ⟨hdata, hrest⟩ := h
      rw [extentsBlocks_cons, ← Nat.add_assoc] at hlt
      have hle : lblk * hdr.blockSize.toNat ≤ (lblk + e.blocks hdr.blockSize.toNat +
          extentsBlocks hdr.blockSize.toNat es) * hdr.blockSize.toNat :=
        Nat.mul_le_mul_right _ (by omega)
      rw [extentInfos, List.map_cons, List.map_cons,
        (hfits e (by simp)).checkedPatch_eq hmin hmax hoffset hdata (by omega),
        ih hrest (fun e' he' => hfits e' (by simp [he'])) hlt]

theorem GroupsAt.map_checkedPatch {lblk : Nat} (h : GroupsAt f hdr.blockSize.toNat lblk gs)
    (hmin : e2undoMinBlockSize ≤ hdr.blockSize.toNat)
    (hmax : hdr.blockSize.toNat ≤ e2undoMaxBlockSize)
    (hoffset : (fsOffset opts hdr).toNat = off)
    (hfits : ∀ g ∈ gs, ∀ e ∈ g, e.Fits hdr.blockSize.toNat)
    (hlt : (lblk + groupsBlocks hdr.blockSize.toNat gs) * hdr.blockSize.toNat < 2 ^ 63) :
    (groupInfos hdr.blockSize.toNat lblk gs).map (checkedPatch opts (.sound f) hdr) =
      gs.flatten.map (Extent.patch hdr.fsBlockSize.toNat off) := by
  induction gs generalizing lblk with
  | nil =>
      rfl
  | cons g gs ih =>
      obtain ⟨hgroup, hrest⟩ := h
      rw [groupsBlocks_cons, ← Nat.add_assoc] at hlt
      have hle : (lblk + 1 + extentsBlocks hdr.blockSize.toNat g) * hdr.blockSize.toNat ≤
          (lblk + groupBlocks hdr.blockSize.toNat g +
            groupsBlocks hdr.blockSize.toNat gs) * hdr.blockSize.toNat :=
        Nat.mul_le_mul_right _ (by rw [groupBlocks]; omega)
      rw [groupInfos, List.map_append, List.flatten_cons, List.map_append,
        hgroup.data.map_checkedPatch hmin hmax hoffset (hfits g (by simp)) (by omega),
        ih hrest (fun g' hg' => hfits g' (by simp [hg'])) hlt]

theorem mem_extentInfos {blocksize lblk : Nat} {es : List Extent} {ikey : UndoKeyInfo}
    (h : ikey ∈ extentInfos blocksize lblk es) : ∃ e ∈ es, ∃ l, ikey = e.key.info l := by
  induction es generalizing lblk with
  | nil =>
      simp [extentInfos] at h
  | cons e es ih =>
      rcases List.mem_cons.mp h with rfl | h
      · exact ⟨e, by simp, lblk, rfl⟩
      · obtain ⟨e', he', hikey⟩ := ih h
        exact ⟨e', by simp [he'], hikey⟩

theorem mem_groupInfos {blocksize lblk : Nat} {ikey : UndoKeyInfo}
    (h : ikey ∈ groupInfos blocksize lblk gs) : ∃ e ∈ gs.flatten, ∃ l, ikey = e.key.info l := by
  induction gs generalizing lblk with
  | nil =>
      simp [groupInfos] at h
  | cons g gs ih =>
      rw [groupInfos] at h
      rw [List.flatten_cons]
      rcases List.mem_append.mp h with h | h
      · obtain ⟨e, he, hikey⟩ := mem_extentInfos h
        exact ⟨e, List.mem_append_left _ he, hikey⟩
      · obtain ⟨e, he, hikey⟩ := ih h
        exact ⟨e, List.mem_append_right _ he, hikey⟩

/-- The replay of a finished file. -/
def finishedReplay (sort : Qsort) (memory : Nat → UndoKeyInfo) (opts : Options) (f : ByteFile)
    (hdr : UndoHeader) (gs : List (List Extent)) : Replay :=
  replay sort memory opts (.sound f) hdr.sealed
    ⟨groupInfos hdr.blockSize.toNat hdr.keyOffset.toNat gs, hdr.numKeys.toNat, ⟨false, false⟩⟩

variable (sort : Qsort) (memory : Nat → UndoKeyInfo)

theorem Finished.run (h : Finished f dev off hdr super gs) (hforce : opts.force = false)
    (hdump : opts.dump = false) (hoffset : (fsOffset opts hdr.sealed).toNat = off) :
    ∃ rounds, e2undo sort memory opts (.sound f) dev rounds =
      some (.ok (finishedReplay sort memory opts f hdr gs)) :=
  (e2undo_eq_ok_iff hforce _).mpr ⟨hdump, _, _, h.validated hoffset, rfl⟩

theorem Finished.eq_replay {sort : Qsort} {memory : Nat → UndoKeyInfo} {rounds : Nat} {r : Replay}
    (h : Finished f dev off hdr super gs) (hforce : opts.force = false)
    (hoffset : (fsOffset opts hdr.sealed).toNat = off)
    (hrun : e2undo sort memory opts (.sound f) dev rounds = some (.ok r)) :
    r = finishedReplay sort memory opts f hdr gs := by
  have hv := h.validated hoffset
  obtain ⟨-, hdr', ikeys', hv', rfl⟩ := (e2undo_eq_ok_iff hforce r).mp ⟨rounds, hrun⟩
  obtain rfl := hv.hdr_unique hv'
  obtain rfl := hv.keys.unique hv'.keys
  rfl

variable {sort memory} in
theorem Finished.reachable (h : Finished f dev off hdr super gs)
    (hoffset : (fsOffset opts hdr.sealed).toNat = off) (hfs : hdr.fsBlockSize.toNat < 2 ^ 31)
    (hdata : ∀ e ∈ gs.flatten, e.data ≠ [])
    (hplace : ∀ e ∈ gs.flatten, e.place hdr.fsBlockSize.toNat off < 2 ^ 63) :
    ∀ ikey ∈ groupInfos hdr.blockSize.toNat hdr.keyOffset.toNat gs,
      ikey.size ≠ 0 ∧ Reachable opts hdr.sealed ikey := by
  intro ikey hmem
  obtain ⟨e, he, l, rfl⟩ := mem_groupInfos hmem
  obtain ⟨g, hg, he'⟩ := List.mem_flatten.mp he
  have hfits := h.fits g hg e he'
  refine ⟨?_, ?_, Or.inl hfs⟩
  · rw [hfits.info_size h.blockSize_le]
    exact fun hzero => hdata e he (List.eq_nil_of_length_eq_zero hzero)
  · rw [keyPlace, hfits.info_fsblk, hoffset]
    exact hplace e he

/-- **The replay of a finished file makes exactly the writes of its extents**, in the order that
`qsort` gives their keys. -/
theorem Finished.replays (h : Finished f dev off hdr super gs) (hdry : opts.dryRun = false)
    (hoffset : (fsOffset opts hdr.sealed).toNat = off) (hfs : hdr.fsBlockSize.toNat < 2 ^ 31)
    (hdata : ∀ e ∈ gs.flatten, e.data ≠ [])
    (hplace : ∀ e ∈ gs.flatten, e.place hdr.fsBlockSize.toNat off < 2 ^ 63) :
    (finishedReplay sort memory opts f hdr gs).writes =
        (sort.apply (groupInfos hdr.blockSize.toNat hdr.keyOffset.toNat gs)).map
          (checkedPatch opts (.sound f) hdr.sealed) ∧
      (finishedReplay sort memory opts f hdr gs).errors = ⟨false, false⟩ := by
  have hv := h.validated hoffset
  have hkeys := h.reachable hoffset hfs hdata hplace
  have hperm := sort.perm (groupInfos hdr.blockSize.toNat hdr.keyOffset.toNat gs)
  have hall : (sort.apply (groupInfos hdr.blockSize.toNat hdr.keyOffset.toNat gs)).filter
      (fun k => k.size ≠ 0) = sort.apply (groupInfos hdr.blockSize.toNat hdr.keyOffset.toNat gs) := by
    apply List.filter_eq_self.mpr
    intro ikey hmem
    simpa using (hkeys ikey (hperm.mem_iff.mp hmem)).1
  have harray := @keyArray_eq memory hdr.sealed _ hv.keys.length_eq ⟨false, false⟩
  refine ⟨?_, ?_⟩
  · rw [finishedReplay, show hdr.numKeys.toNat = hdr.sealed.numKeys.toNat from rfl,
      writes_replay hv.keys.length_eq,
      (hv.writes_iff hdry hperm).mpr fun ikey hmem _ => (hkeys ikey hmem).2, hall]
  · have hfailed : (sort.apply (keyArray memory
        ⟨groupInfos hdr.blockSize.toNat hdr.keyOffset.toNat gs, hdr.numKeys.toNat,
          ⟨false, false⟩⟩)).any
        (fun ikey => (replayKey opts (.sound f) hdr.sealed ikey).toOption.isNone) = false := by
      rw [show hdr.numKeys.toNat = hdr.sealed.numKeys.toNat from rfl, harray, List.any_eq_false]
      intro ikey hmem
      have hmem := hperm.mem_iff.mp hmem
      have hwrite := (keyWrite_eq_checkedPatch_iff (hv.keys.intact ikey hmem) hv.blockSize_le
        hdry hv.fsBlockSize_ne (hv.keys.fsblk_lt ikey hmem) (hkeys ikey hmem).1).mpr
        (hkeys ikey hmem).2
      rw [keyWrite] at hwrite
      cases hkey : (replayKey opts (.sound f) hdr.sealed ikey).toOption with
      | none =>
          rw [hkey] at hwrite
          simp at hwrite
      | some p =>
          exact Bool.false_ne_true
    rw [finishedReplay, replay]
    dsimp only
    rw [hfailed]
    rfl

theorem Finished.map_checkedPatch (h : Finished f dev off hdr super gs)
    (hoffset : (fsOffset opts hdr.sealed).toNat = off) :
    (groupInfos hdr.blockSize.toNat hdr.keyOffset.toNat gs).map
        (checkedPatch opts (.sound f) hdr.sealed) =
      gs.flatten.map (Extent.patch hdr.fsBlockSize.toNat off) := by
  have hgroups : GroupsAt f hdr.sealed.blockSize.toNat hdr.keyOffset.toNat gs := h.groups
  exact hgroups.map_checkedPatch h.blockSize_ge h.blockSize_le hoffset h.fits h.groups_lt

end Reader

section Close

/-- The groups of a session: the full ones, and the last one if it has keys. -/
def closedGroups (gs : List (List Extent)) (last : List Extent) : List (List Extent) :=
  if last = [] then gs else gs ++ [last]

theorem flatten_closedGroups (gs : List (List Extent)) (last : List Extent) :
    (closedGroups gs last).flatten = gs.flatten ++ last := by
  unfold closedGroups
  split_ifs with hlast
  · rw [hlast, List.append_nil]
  · simp

theorem packed_closedGroups {keys : Nat} {gs : List (List Extent)} {last : List Extent}
    (hfull : ∀ g ∈ gs, g.length = keys) (hpos : 0 < keys) (hlast : last.length ≤ keys) :
    Packed keys (closedGroups gs last) := by
  have hone : ∀ g ∈ gs, g ≠ [] := by
    rintro g hg rfl
    have := hfull _ hg
    rw [List.length_nil] at this
    omega
  induction gs with
  | nil =>
      unfold closedGroups
      split_ifs with hnil
      · trivial
      · exact ⟨hnil, hlast⟩
  | cons g gs ih =>
      have ih := ih (fun g' hg' => hfull g' (by simp [hg'])) (fun g' hg' => hone g' (by simp [hg']))
      have hg := hfull g (by simp)
      have hcons : closedGroups (g :: gs) last = g :: closedGroups gs last := by
        unfold closedGroups
        split_ifs
        · rfl
        · rfl
      rw [hcons]
      cases hrest : closedGroups gs last with
      | nil =>
          exact ⟨hone g (by simp), hg.le⟩
      | cons g' gs' =>
          rw [hrest] at ih
          exact ⟨hg, ih⟩

variable {f : ByteFile} {T : Nat}

theorem Extent.Whole.blocks_pos {e : Extent} (h : e.Whole T) (hpos : 0 < T) :
    0 < e.blocks T := by
  obtain ⟨n, hn, hlen⟩ := h
  have hmul := Extent.Whole.blocks_mul ⟨n, hn, hlen⟩ hpos
  rw [hlen] at hmul
  rw [Nat.eq_of_mul_eq_mul_right hpos hmul]
  exact hn

theorem length_le_extentsBlocks {es : List Extent} (hwhole : ∀ e ∈ es, e.Whole T)
    (hpos : 0 < T) : es.length ≤ extentsBlocks T es := by
  induction es with
  | nil =>
      exact Nat.zero_le _
  | cons e es ih =>
      have hone := (hwhole e (by simp)).blocks_pos hpos
      have ih := ih (fun e' he' => hwhole e' (by simp [he']))
      rw [List.length_cons, extentsBlocks_cons]
      omega

theorem sum_length_le_groupsBlocks {gs : List (List Extent)}
    (hwhole : ∀ e ∈ gs.flatten, e.Whole T) (hpos : 0 < T) :
    (gs.map List.length).sum ≤ groupsBlocks T gs := by
  induction gs with
  | nil =>
      exact Nat.zero_le _
  | cons g gs ih =>
      rw [List.flatten_cons] at hwhole
      have hone := length_le_extentsBlocks (fun e he => hwhole e (List.mem_append_left _ he)) hpos
      have ih := ih (fun e he => hwhole e (List.mem_append_right _ he))
      rw [List.map_cons, List.sum_cons, groupsBlocks_cons, groupBlocks]
      omega

theorem groupsBlocks_le_two_mul {gs : List (List Extent)} (hne : ∀ g ∈ gs, g ≠ [])
    (hwhole : ∀ e ∈ gs.flatten, e.Whole T) (hpos : 0 < T) :
    groupsBlocks T gs ≤ 2 * extentsBlocks T gs.flatten := by
  induction gs with
  | nil =>
      exact Nat.zero_le _
  | cons g gs ih =>
      rw [List.flatten_cons] at hwhole
      have hone := length_le_extentsBlocks (fun e he => hwhole e (List.mem_append_left _ he)) hpos
      have hlen := List.length_pos_iff.mpr (hne g (by simp))
      have ih := ih (fun g' hg' => hne g' (by simp [hg']))
        (fun e he => hwhole e (List.mem_append_right _ he))
      rw [groupsBlocks_cons, groupBlocks, List.flatten_cons, extentsBlocks_append]
      omega

theorem ExtentsAt.le_size {lblk : Nat} {es : List Extent} (h : ExtentsAt f T lblk es)
    (hwhole : ∀ e ∈ es, e.Whole T) (hpos : 0 < T) (hle : lblk * T ≤ f.size) :
    (lblk + extentsBlocks T es) * T ≤ f.size := by
  induction es generalizing lblk with
  | nil =>
      exact hle
  | cons e es ih =>
      obtain ⟨hdata, hrest⟩ := h
      have he := hwhole e (by simp)
      have hlen := he.blocks_mul hpos
      have hne : e.data ≠ [] := by
        intro hnil
        have hblocks := Nat.mul_pos (he.blocks_pos hpos) hpos
        rw [hlen, hnil, List.length_nil] at hblocks
        omega
      have hsize := hdata.le_size hne
      rw [extentsBlocks_cons, ← Nat.add_assoc]
      refine ih hrest (fun e' he' => hwhole e' (by simp [he'])) ?_
      rw [Nat.add_mul, hlen]
      exact hsize

theorem GroupsAt.le_size {lblk : Nat} {gs : List (List Extent)} (h : GroupsAt f T lblk gs)
    (hwhole : ∀ e ∈ gs.flatten, e.Whole T) (hpos : 16 ≤ T) (hle : lblk * T ≤ f.size) :
    (lblk + groupsBlocks T gs) * T ≤ f.size := by
  induction gs generalizing lblk with
  | nil =>
      exact hle
  | cons g gs ih =>
      obtain ⟨⟨⟨kb, -, hkeys, hkb⟩, hdata⟩, hrest⟩ := h
      rw [List.flatten_cons] at hwhole
      have hlen : (kb.sealed T).encode.length = T := by
        rw [UndoKeyBlock.length_encode, UndoKeyBlock.sealed_keys]
        omega
      have hkey := hkb.le_size (by
        intro hnil
        rw [hnil, List.length_nil] at hlen
        omega)
      rw [hlen, ← Nat.succ_mul] at hkey
      have hgroup := hdata.le_size (fun e he => hwhole e (List.mem_append_left _ he)) (by omega)
        hkey
      rw [groupsBlocks_cons, ← Nat.add_assoc]
      refine ih hrest (fun e he => hwhole e (List.mem_append_right _ he)) ?_
      rw [groupBlocks, ← Nat.add_assoc]
      exact hgroup

variable {bs off : Nat} {L : Ledger} {gs : List (List Extent)} {last : List Extent}
  {s : State Files}

theorem Stored.closedGroupsAt {d : UndoPrivateData} (h : Stored bs T gs last d f) :
    GroupsAt f T 2 (closedGroups gs last) := by
  unfold closedGroups
  split_ifs with hlast
  · exact h.groups
  · rw [groupsAt_append]
    refine ⟨h.groups, ?_, trivial⟩
    rw [← h.keyBlkNum]
    exact h.keyBlock hlast

theorem Session.withHdrState (h : Session bs T off gs last s) (state : UInt32) :
    Session bs T off gs last { s with data.hdr.state := state } := by
  have hc := h.config
  have hw := h.stored
  exact ⟨h.sizes, ⟨hc.outcomes, hc.blockSize, hc.realBlockSize, hc.realOffset, hc.undoBlockSize,
    hc.undoOffset, hc.tdbWritten, hc.offset, hc.superBlkNum, hc.firstKeyBlk, hc.hdrBlockSize,
    hc.features⟩, ⟨⟨hw.tdbDataSize, hw.full, hw.room, hw.keyBlkNum, hw.undoBlkNum,
    hw.keysInBlock, hw.numKeys, hw.keyb, hw.length_keyb, hw.groups, hw.extents, hw.good⟩, hw.lt,
    hw.image⟩, h.hasSuper⟩

theorem Session.writeUndoIndexes (h : Session bs T off gs last s) (flush : Bool) :
    ∃ s', writeUndoIndexes Files.realChannel Files.undoChannel flush s = (.ok, s') ∧
      Session bs T off gs last s' ∧ Described bs T off s.sys.super s' ∧ Aside s s' ∧
      s'.data.writtenBlockMap = s.data.writtenBlockMap ∧
      s'.data.hdr.state = s.data.hdr.state := by
  by_cases hlast : last = []
  · subst hlast
    have hkeys : s.data.keysInBlock = 0 := h.stored.keysInBlock
    obtain ⟨hsession, hdescribed⟩ := h.withHeader
    refine ⟨s.withHeader, ?_, hsession, hdescribed, ⟨rfl, rfl⟩, rfl, rfl⟩
    have hnone : writeKeyBlock Files.undoChannel s = (.ok, s) := by
      rw [writeKeyBlock, if_pos hkeys]
    rw [Undo.writeUndoIndexes, hnone]
    exact writeHeader_of_quiet h.config.outcomes h.hasSuper flush
  · obtain ⟨gs', last', hrolled, hrun, hsession, hdescribed⟩ :=
      writeUndoIndexes_of_written h.sizes h.config h.stored.toWritten hlast h.hasSuper flush
    have hroll := s.data.sealKeyb.sameSettings_rollKeyb
    cases hrolled with
    | stays =>
        refine ⟨_, hrun, hsession, hdescribed, ⟨rfl, rfl⟩, hroll.writtenBlockMap, ?_⟩
        show s.data.sealKeyb.rollKeyb.hdr.state = _
        rw [hroll.hdr]
        rfl
    | closes eq =>
        have hlt := h.stored.lt
        omega

/-- **A session is closed.** -/
theorem Tracks.undoClose (h : Tracks bs T off L gs last s) (unfinished : Bool) :
    ∃ s', undoClose Files.realChannel Files.undoChannel unfinished s = (.ok, s') ∧
      Tracks bs T off L gs last s' ∧ Described bs T off s'.sys.super s' ∧ Aside s s' ∧
      (unfinished = false → s'.data.hdr.state = e2undoStateFinished) := by
  obtain ⟨s', hrun, hsession, hdescribed, haside, hmap, hstate⟩ :=
    (h.session.withHdrState
      (if unfinished then s.data.hdr.state else e2undoStateFinished)).writeUndoIndexes true
  have hsuper : s'.sys.super = s.sys.super := by
    rw [Files.super, haside.real]
    rfl
  refine ⟨s', hrun, ⟨hsession, h.extents, ?_, ?_, fun _ => ⟨_, hdescribed⟩⟩, ?_,
    ⟨haside.real, haside.requests⟩, ?_⟩
  · rw [haside.real]
    exact h.device
  · intro n
    rw [hmap]
    exact h.marks n
  · rw [hsuper]
    exact hdescribed
  · rintro rfl
    exact hstate

/-- **The file of a session is a finished one**, for a device with the superblock of its copy. -/
theorem Tracks.finished_of_super (h : Tracks bs T off L gs last s) {super : Bytes}
    (hd : Described bs T off super s) {dev : ByteFile}
    (hdev : dev.Holds (superblockOffset + off) super) (hsize : L.device.size < 2 ^ 63)
    (hlt : (2 + groupsBlocks T (closedGroups gs last)) * T < 2 ^ 63) :
    Finished s.sys.undoFile.file dev off s.data.hdr super (closedGroups gs last) := by
  have hs := h.session.sizes
  have hc := h.session.config
  have hw := h.session.stored
  have hpos := hs.tdbDataSize_pos
  have hge := hs.tdbDataSize_ge
  have hle := hs.tdbDataSize_lt
  rw [e2undoMinBlockSize] at hge
  have hbs : bs ≤ T := Nat.le_of_dvd hpos hs.dvd
  have hT : s.data.hdr.blockSize.toNat = T := by
    rw [hc.hdrBlockSize, UInt32.toNat_ofNat']
    omega
  have hsuper := h.session.hasSuper
  rw [Files.HasSuper, hc.realOffset, h.device, superblockOffset, superblockSize] at hsuper
  have hgood : ∀ e ∈ (closedGroups gs last).flatten, e.Good bs T := by
    rw [flatten_closedGroups]
    exact hw.good
  have hcount : s.data.numKeys = ((closedGroups gs last).map List.length).sum := by
    rw [hw.numKeys]
    unfold closedGroups
    split_ifs with hlast
    · rw [hlast, List.length_nil, Nat.add_zero]
    · simp
  have hblocks := sum_length_le_groupsBlocks (fun e he => (hgood e he).whole) hpos
  have hbytes : groupsBlocks T (closedGroups gs last) * 1024 ≤
      groupsBlocks T (closedGroups gs last) * T := Nat.mul_le_mul_left _ hge
  rw [Nat.add_mul] at hlt
  have hkeys : s.data.hdr.numKeys.toNat = s.data.numKeys := by
    rw [hd.numKeys, UInt64.toNat_ofNat']
    omega
  refine ⟨?_, hd.magic, ?_, ?_, ?_, hc.features, hd.super_length, hd.sbCrc, ?_, ?_, ?_, ?_, ?_,
    ?_, ?_, ?_, ?_, ?_⟩
  · rw [hd.sealed_eq]
    exact hd.header
  · rw [hT]
    exact hs.tdbDataSize_ge
  · rw [hT]
    exact hs.tdbDataSize_le
  · rw [hd.fsBlockSize]
    intro hzero
    have hnat := congrArg UInt32.toNat hzero
    rw [UInt32.toNat_ofNat'] at hnat
    have hpos := hs.blockSize_pos
    change bs % 2 ^ 32 = 0 at hnat
    omega
  · rw [hd.superOffset, hT, show (1 : UInt64).toNat = 1 from rfl, Nat.one_mul]
    exact hd.copy
  · rw [hd.superOffset, hT, show (1 : UInt64).toNat = 1 from rfl]
    omega
  · exact hdev
  · rw [superblockOffset]
    omega
  · rw [hT, hd.keyOffset]
    exact hw.closedGroupsAt
  · rw [hT]
    exact packed_closedGroups hw.full
      (keysPerBlock_pos hs.tdbDataSize_le hs.tdbDataSize_ge) hw.room
  · intro g hg e he
    rw [hT]
    exact (hgood e (List.mem_flatten.mpr ⟨g, hg, he⟩)).fits hs
  · rw [hT, hd.keyOffset, show (2 : UInt64).toNat = 2 from rfl, Nat.add_mul]
    exact hlt
  · rw [hkeys, hcount]
  · rw [hkeys, hcount, undoKeyInfoSize]
    omega

theorem Tracks.finished (h : Tracks bs T off L gs last s)
    (hd : Described bs T off s.sys.super s) (hsize : L.device.size < 2 ^ 63)
    (hlt : (2 + groupsBlocks T (closedGroups gs last)) * T < 2 ^ 63) :
    Finished s.sys.undoFile.file s.sys.real.file off s.data.hdr s.sys.super
      (closedGroups gs last) := by
  refine h.finished_of_super hd ?_ hsize hlt
  rw [← h.session.config.realOffset]
  exact ByteFile.holds_of_pread (Files.length_super h.session.hasSuper)

end Close

section Sessions

variable {bs T off : Nat} {L : Ledger} {s : State Files} {orig : ByteFile}

/-- What a request has to be for a session on a device of a given size. -/
structure Call.Admitted (bs T off size : Nat) (c : Call) : Prop where
  fits : c.Fits bs T off size
  covered : c.Covered bs T off
  inside : (c.target bs off).1 + (c.target bs off).2 ≤ size

theorem Ready.admitted_run (h : Ready bs T off L s) (hkeeps : L.Keeps bs T off orig)
    (hpos : 0 < T) (hoff : T ∣ off) (hsize : L.device.size = orig.size)
    (hlt : orig.size < 2 ^ 63) {c : Call} (hc : c.Admitted bs T off orig.size) :
    ∃ L' gs last, Tracks bs T off L' gs last (c.run Files.realChannel Files.undoChannel s).2 ∧
      L'.Keeps bs T off orig ∧ L'.device.size = orig.size := by
  obtain ⟨L', gs, last, -, -, hchanges, hkeeps', htracks⟩ := h.keeps_run (by rw [hsize]; exact hlt)
    (by rw [hsize]; exact hc.fits) hkeeps hpos hoff hc.covered
  refine ⟨L', gs, last, htracks, hkeeps', ?_⟩
  rw [hchanges.size_eq (by rw [hsize]; exact hc.inside), hsize]

/-- **A sequence of requests keeps the original content in the ledger.** -/
theorem Ready.runCalls (h : Ready bs T off L s) (hkeeps : L.Keeps bs T off orig) (hpos : 0 < T)
    (hoff : T ∣ off) (hsize : L.device.size = orig.size) (hlt : orig.size < 2 ^ 63)
    {cs : List Call} (hne : cs ≠ []) (hcs : ∀ c ∈ cs, c.Admitted bs T off orig.size) :
    ∃ L' gs last,
      Tracks bs T off L' gs last (runCalls Files.realChannel Files.undoChannel cs s) ∧
      L'.Keeps bs T off orig ∧ L'.device.size = orig.size := by
  induction cs generalizing L s with
  | nil =>
      exact absurd rfl hne
  | cons c cs ih =>
      obtain ⟨L₁, gs₁, last₁, htracks, hkeeps₁, hsize₁⟩ :=
        h.admitted_run hkeeps hpos hoff hsize hlt (hcs c (by simp))
      by_cases hcs' : cs = []
      · subst hcs'
        exact ⟨L₁, gs₁, last₁, htracks, hkeeps₁, hsize₁⟩
      · exact ih (Or.inr ⟨gs₁, last₁, htracks⟩) hkeeps₁ hsize₁ hcs'
          fun c' hc' => hcs c' (by simp [hc'])

/-- A run that replays, without `-f`, and with the offset of the session if it is given one. -/
structure Options.Plain (off : Nat) (opts : Options) : Prop where
  force : opts.force = false
  dump : opts.dump = false
  dryRun : opts.dryRun = false
  offset : ∀ o, opts.offset = some o → o.toNat = off

theorem Options.plain_none (off : Nat) : Options.none.Plain off := by
  refine ⟨rfl, rfl, rfl, fun o ho => ?_⟩
  simp [Options.none] at ho

theorem Options.Plain.fsOffset_eq {opts : Options} (h : opts.Plain off) {super : Bytes}
    (hd : Described bs T off super s) (hlt : off < 2 ^ 64) :
    (fsOffset opts s.data.hdr.sealed).toNat = off := by
  rw [hd.sealed_eq, fsOffset]
  cases hoffset : opts.offset with
  | some o =>
      exact h.offset o hoffset
  | none =>
      dsimp only
      rw [hd.hasOffset, hd.fsOffset]
      by_cases hzero : off = 0
      · subst hzero
        rfl
      · rw [if_pos (by simpa using hzero), UInt64.toNat_ofNat']
        exact Nat.mod_eq_of_lt hlt

theorem Tracks.groups_lt {gs : List (List Extent)} {last : List Extent}
    (h : Tracks bs T off L gs last s) (hfile : s.sys.undoFile.file.size < 2 ^ 63) :
    (2 + groupsBlocks T (closedGroups gs last)) * T < 2 ^ 63 := by
  have hs := h.session.sizes
  have hw := h.session.stored
  have hge := hs.tdbDataSize_ge
  have hle := hs.tdbDataSize_lt
  rw [e2undoMinBlockSize] at hge
  have hwhole : ∀ e ∈ (closedGroups gs last).flatten, e.Whole T := by
    rw [flatten_closedGroups]
    exact fun e he => (hw.good e he).whole
  have hgroups := hw.closedGroupsAt
  cases hclosed : closedGroups gs last with
  | nil =>
      rw [show groupsBlocks T [] = 0 from rfl]
      omega
  | cons g rest =>
      rw [hclosed] at hgroups hwhole
      have hsize := hgroups.le_size hwhole (by omega) ?_
      · omega
      · obtain ⟨⟨⟨kb, -, hkeys, hkb⟩, -⟩, -⟩ := hgroups
        have hlen : (kb.sealed T).encode.length = T := by
          rw [UndoKeyBlock.length_encode, UndoKeyBlock.sealed_keys]
          omega
        have hkey := hkb.le_size (by
          intro hnil
          rw [hnil, List.length_nil] at hlen
          omega)
        omega

/-- A closed session: what `e2undo` finds on the device and in the undo file. -/
structure Closed (bs T off : Nat) (orig : ByteFile) (L : Ledger) (gs : List (List Extent))
    (last : List Extent) (s : State Files) : Prop where
  tracks : Tracks bs T off L gs last s
  described : Described bs T off s.sys.super s
  state : s.data.hdr.state = e2undoStateFinished
  keeps : L.Keeps bs T off orig
  size_eq : L.device.size = orig.size
  size_lt : orig.size < 2 ^ 63
  offset_dvd : T ∣ off
  groups_lt : (2 + groupsBlocks T (closedGroups gs last)) * T < 2 ^ 63

section Closed

variable {gs : List (List Extent)} {last : List Extent}

theorem Closed.finished (h : Closed bs T off orig L gs last s) :
    Finished s.sys.undoFile.file s.sys.real.file off s.data.hdr s.sys.super
      (closedGroups gs last) :=
  h.tracks.finished h.described (by rw [h.size_eq]; exact h.size_lt) h.groups_lt

theorem Closed.fsOffset_eq (h : Closed bs T off orig L gs last s) {opts : Options}
    (hopts : opts.Plain off) : (fsOffset opts s.data.hdr.sealed).toNat = off := by
  have hoff := h.finished.offset_lt
  exact hopts.fsOffset_eq h.described (by omega)

variable (sort : Qsort) (memory : Nat → UndoKeyInfo) {opts : Options} (hopts : opts.Plain off)

/-- What a run of `e2undo` on a closed session does. -/
def Closed.replay (_h : Closed bs T off orig L gs last s) (opts : Options) : Replay :=
  finishedReplay sort memory opts s.sys.undoFile.file s.data.hdr (closedGroups gs last)

include hopts

omit hopts in
theorem Closed.fsBlockSize_eq (h : Closed bs T off orig L gs last s) :
    s.data.hdr.fsBlockSize.toNat = bs := by
  have hs := h.tracks.session.sizes
  have hle := hs.tdbDataSize_lt
  have hbs : bs ≤ T := Nat.le_of_dvd hs.tdbDataSize_pos hs.dvd
  rw [h.described.fsBlockSize, UInt32.toNat_ofNat']
  omega

omit hopts in
theorem Closed.flatten_eq (h : Closed bs T off orig L gs last s) :
    (closedGroups gs last).flatten = L.extents := by
  rw [flatten_closedGroups, h.tracks.extents]

/-- The replay makes the writes of the extents in the order of `qsort`, and no transfer
fails. -/
theorem Closed.writes_eq (h : Closed bs T off orig L gs last s) :
    (h.replay sort memory opts).writes =
        (sort.apply (groupInfos s.data.hdr.blockSize.toNat s.data.hdr.keyOffset.toNat
          (closedGroups gs last))).map
          (checkedPatch opts (.sound s.sys.undoFile.file) s.data.hdr.sealed) ∧
      (h.replay sort memory opts).errors = ⟨false, false⟩ := by
  have hs := h.tracks.session.sizes
  have hw := h.tracks.session.stored
  have hle := hs.tdbDataSize_lt
  have hbs : bs ≤ T := Nat.le_of_dvd hs.tdbDataSize_pos hs.dvd
  have hfs := h.fsBlockSize_eq
  refine h.finished.replays sort memory hopts.dryRun (h.fsOffset_eq hopts) (by omega) ?_ ?_
  · rw [flatten_closedGroups]
    intro e he hnil
    have hpos := (hw.good e he).whole.blocks_pos hs.tdbDataSize_pos
    have hmul := (hw.good e he).whole.blocks_mul hs.tdbDataSize_pos
    rw [hnil, List.length_nil] at hmul
    have := Nat.mul_pos hpos hs.tdbDataSize_pos
    omega
  · rw [h.flatten_eq, hfs]
    intro e he
    have hinside := h.keeps.inside e he
    rw [h.size_eq] at hinside
    have := h.size_lt
    omega

theorem Closed.map_checkedPatch (h : Closed bs T off orig L gs last s) :
    (groupInfos s.data.hdr.blockSize.toNat s.data.hdr.keyOffset.toNat
        (closedGroups gs last)).map
        (checkedPatch opts (.sound s.sys.undoFile.file) s.data.hdr.sealed) =
      L.extents.map (Extent.patch bs off) := by
  rw [h.finished.map_checkedPatch (h.fsOffset_eq hopts), h.flatten_eq, h.fsBlockSize_eq]

theorem Closed.replays (h : Closed bs T off orig L gs last s) :
    (h.replay sort memory opts).writes.Perm (L.extents.map (Extent.patch bs off)) ∧
      (h.replay sort memory opts).errors = ⟨false, false⟩ := by
  obtain ⟨hwrites, herrors⟩ := h.writes_eq sort memory hopts
  refine ⟨?_, herrors⟩
  rw [hwrites, ← h.map_checkedPatch hopts]
  exact (sort.perm _).map _

theorem Closed.marked_eq (h : Closed bs T off orig L gs last s) :
    (h.replay sort memory opts).marked = false := by
  have herrors := (h.replays sort memory hopts).2
  have hmarked : (h.replay sort memory opts).marked = (!opts.dryRun &&
      (opts.force || (h.replay sort memory opts).errors.csum ||
        (h.replay sort memory opts).errors.io ||
        decide (s.data.hdr.state &&& e2undoStateFinished = 0))) := rfl
  rw [hmarked, herrors, h.state, hopts.force]
  simp only [Bool.false_or, Bool.and_eq_false_imp]
  intro _
  decide

/-- **The replay restores the original content**, also behind a part of its writes. -/
theorem Closed.restores (h : Closed bs T off orig L gs last s) {done : List Patch}
    (hdone : done <+: (h.replay sort memory opts).writes) :
    (h.replay sort memory opts).device (applyPatches s.sys.real.file done) = orig := by
  have hpos := h.tracks.session.sizes.tdbDataSize_pos
  rw [Replay.device, applyPatches_prefix_absorb hdone, h.tracks.device]
  refine h.keeps.restores hpos h.offset_dvd h.size_eq fun p => ?_
  rw [(h.replays sort memory hopts).1.mem_iff, List.mem_map]

end Closed

/-- **A session that is closed.** -/
theorem Tracks.closed {gs : List (List Extent)} {last : List Extent}
    (h : Tracks bs T off L gs last s) (hkeeps : L.Keeps bs T off orig)
    (hsize : L.device.size = orig.size) (hlt : orig.size < 2 ^ 63) (hoff : T ∣ off)
    (hgroups : (2 + groupsBlocks T (closedGroups gs last)) * T < 2 ^ 63) :
    (Undo.undoClose Files.realChannel Files.undoChannel false s).1 = .ok ∧
      Closed bs T off orig L gs last
        (Undo.undoClose Files.realChannel Files.undoChannel false s).2 := by
  obtain ⟨s', hrun, htracks, hdescribed, -, hstate⟩ := h.undoClose false
  rw [hrun]
  exact ⟨rfl, htracks, hdescribed, hstate rfl, hkeeps, hsize, hlt, hoff, hgroups⟩

theorem Tracks.groups_lt_of_closed {gs : List (List Extent)} {last : List Extent}
    (h : Tracks bs T off L gs last s)
    (hfile : (Undo.undoClose Files.realChannel Files.undoChannel false
      s).2.sys.undoFile.file.size < 2 ^ 63) :
    (2 + groupsBlocks T (closedGroups gs last)) * T < 2 ^ 63 := by
  obtain ⟨s', hrun, htracks, -⟩ := h.undoClose false
  rw [hrun] at hfile
  exact htracks.groups_lt hfile

theorem Tracks.closedGroups_ne {gs : List (List Extent)} {last : List Extent}
    (h : Tracks bs T off L gs last s) :
    ∀ g ∈ closedGroups gs last, g ≠ [] := by
  have hs := h.session.sizes
  have hkpb := keysPerBlock_pos hs.tdbDataSize_le hs.tdbDataSize_ge
  intro g hg hnil
  subst hnil
  unfold closedGroups at hg
  split_ifs at hg with hlast
  · have hfull := h.session.stored.full _ hg
    rw [List.length_nil] at hfull
    omega
  · rcases List.mem_append.mp hg with hg | hg
    · have hfull := h.session.stored.full _ hg
      rw [List.length_nil] at hfull
      omega
    · exact hlast (List.mem_singleton.mp hg).symm

theorem Tracks.groupsBlocks_le {gs : List (List Extent)} {last : List Extent}
    (h : Tracks bs T off L gs last s) :
    groupsBlocks T (closedGroups gs last) ≤ 2 * extentsBlocks T L.extents := by
  have hs := h.session.sizes
  have hw := h.session.stored
  have hne := h.closedGroups_ne
  have hwhole : ∀ e ∈ (closedGroups gs last).flatten, e.Whole T := by
    rw [flatten_closedGroups]
    exact fun e he => (hw.good e he).whole
  rw [← h.extents, ← flatten_closedGroups]
  exact groupsBlocks_le_two_mul hne hwhole hs.tdbDataSize_pos

end Sessions

section Undone

/-- The request lies inside a device of a given size, and it has fewer than 2^31 bytes. -/
structure Call.Inside (bs off size : Nat) (c : Call) : Prop where
  end_le : (c.target bs off).1 + (c.target bs off).2 ≤ size
  size_lt : (c.target bs off).2 < 2 ^ 31

/-- The byte count of `undo_write_tdb` fits an `int`, and the request is not an empty one at the
first byte. -/
def Call.Exact (bs off : Nat) (c : Call) : Prop :=
  requestSize bs (c.handed bs off).2 < 2 ^ 31 ∧
    0 < requestStart bs (c.handed bs off).1 off + requestSize bs (c.handed bs off).2

/-- `undo_write_byte` adds the offset once more than the device does. -/
def Call.Unshifted (off : Nat) : Call → Prop
  | .writeByte _ _ => off = 0
  | _ => True

variable {bs T off size : Nat} {c : Call}

theorem byteBlocks_range (hpos : 0 < bs) (hdvd : bs ∣ size) {position len : Nat}
    (hend : position + len ≤ size) :
    position / bs * bs ≤ position ∧
      position + len ≤
        position / bs * bs + (len + position % bs + bs - 1) / bs * bs ∧
      position / bs * bs + (len + position % bs + bs - 1) / bs * bs ≤ size := by
  have hmod := Nat.div_add_mod position bs
  have hlt := Nat.mod_lt position hpos
  have hquot := Nat.div_add_mod (len + position % bs + bs - 1) bs
  have hrest := Nat.mod_lt (len + position % bs + bs - 1) hpos
  rw [Nat.mul_comm] at hmod hquot
  refine ⟨by omega, by omega, ?_⟩
  obtain ⟨k, rfl⟩ := hdvd
  rw [← Nat.add_mul, Nat.mul_comm bs k]
  apply Nat.mul_le_mul_right
  by_contra hcon
  have hnext : (k + 1) * bs ≤
      (position / bs + (len + position % bs + bs - 1) / bs) * bs :=
    Nat.mul_le_mul_right _ (by omega)
  rw [Nat.add_mul, Nat.add_mul, Nat.mul_comm k] at hnext
  omega

theorem toInt32_natCast {n : Nat} (h : n < 2 ^ 31) : toInt32 n = n :=
  Int.bmod_eq_of_le (by omega) (by omega)

theorem requestSize_natCast (bs count : Nat) : requestSize bs (count : Int) = count * bs := by
  rw [requestSize, transferSize, if_neg (not_lt.mpr (Int.natCast_nonneg _)), Int.toNat_natCast]

/-- A request inside the device: the walk begins at its bytes or before, ends at them or behind,
and stays inside the device. -/
theorem Call.Inside.walk (h : c.Inside bs off size) (hbs : e2undoMinBlockSize ≤ bs)
    (hle : bs ≤ e2undoMaxBlockSize) (hdvd : bs ∣ size) (hc : c.Unshifted off) :
    requestStart bs (c.handed bs off).1 off ≤ (c.target bs off).1 ∧
      (c.target bs off).1 + (c.target bs off).2 ≤
        requestStart bs (c.handed bs off).1 off + requestSize bs (c.handed bs off).2 ∧
      requestStart bs (c.handed bs off).1 off + requestSize bs (c.handed bs off).2 ≤ size ∧
      -2 ^ 31 ≤ (c.handed bs off).2 ∧ (c.handed bs off).2 < 2 ^ 31 := by
  have hend := h.end_le
  have hlt := h.size_lt
  rw [e2undoMinBlockSize] at hbs
  rw [e2undoMaxBlockSize] at hle
  have hcount : ∀ n : Nat, n ≤ n * bs := fun n => Nat.le_mul_of_pos_right n (by omega)
  cases c with
  | writeBlk64 block count buf =>
      simp only [Call.target, Call.handed] at hend hlt ⊢
      refine ⟨le_refl _, le_refl _, hend, ?_⟩
      rw [transferSize] at hlt
      split_ifs at hlt with hneg
      · omega
      · have := hcount count.toNat
        omega
  | writeByte position buf =>
      obtain rfl : off = 0 := hc
      simp only [Call.target, Call.handed, byteBlocks, Nat.add_zero] at hend hlt ⊢
      have hsmall : (buf.length + position % bs + bs - 1) / bs < 2 ^ 31 := by
        have hmod := Nat.mod_lt position (show 0 < bs by omega)
        have hdiv : (buf.length + position % bs + bs - 1) / bs ≤
            (buf.length + position % bs + bs - 1) / 1024 := Nat.div_le_div_left hbs (by omega)
        omega
      obtain ⟨hfirst, hlast, hsize⟩ := byteBlocks_range (by omega) hdvd hend
      generalize (buf.length + position % bs + bs - 1) / bs = count at hsmall hlast hsize ⊢
      rw [toInt32_natCast hsmall, requestSize_natCast, requestStart, Nat.add_zero]
      exact ⟨hfirst, hlast, hsize, by omega, by omega⟩
  | discard block count =>
      simp only [Call.target, Call.handed] at hend hlt ⊢
      have := hcount count
      rw [requestSize_natCast]
      exact ⟨le_refl _, le_refl _, hend, by omega, by omega⟩
  | zeroout block count =>
      simp only [Call.target, Call.handed] at hend hlt ⊢
      have := hcount count
      rw [requestSize_natCast]
      exact ⟨le_refl _, le_refl _, hend, by omega, by omega⟩

theorem Call.Inside.admitted (h : c.Inside bs off size) (hs : Sizes bs T)
    (hbs : e2undoMinBlockSize ≤ bs) (hsize : T ∣ size) (hlt : size < 2 ^ 63) (hoff : T ∣ off)
    (hc : c.Unshifted off) (hexact : c.Exact bs off) : c.Admitted bs T off size := by
  have hpos := hs.tdbDataSize_pos
  have hle : bs ≤ e2undoMaxBlockSize :=
    le_trans (Nat.le_of_dvd hpos hs.dvd) hs.tdbDataSize_le
  obtain ⟨hfirst, hlast, hend, hge, hcount⟩ := h.walk hbs hle (hs.dvd.trans hsize) hc
  obtain ⟨hfits, hsome⟩ := hexact
  have hblock : (c.handed bs off).1 ≤ requestStart bs (c.handed bs off).1 off :=
    (Nat.le_mul_of_pos_right _ hs.blockSize_pos).trans (Nat.le_add_right _ _)
  have hrequest : Request bs T (c.handed bs off).1 off (c.handed bs off).2 :=
    ⟨hbs, hle, hs.tdbDataSize_ge, hs.tdbDataSize_le, by omega, hge, hcount, by omega⟩
  have hzero : off % T = 0 := Nat.mod_eq_zero_of_dvd hoff
  have hwalk : ∀ n, c.Walks bs T off n ↔
      requestStart bs (c.handed bs off).1 off / T ≤ n ∧
        n ≤ (requestStart bs (c.handed bs off).1 off +
          requestSize bs (c.handed bs off).2 - 1) / T := by
    intro n
    rw [Call.Walks, hrequest.tdbBlockNum_eq, hrequest.tdbEndBlock_eq hfits hsome]
  refine ⟨⟨hcount, ?_, ?_⟩, ?_, h.end_le⟩
  · intro n hn
    exact le_trans (Nat.div_le_div_right (Nat.le_add_left _ _)) ((hwalk n).mp hn).1
  · intro n hn
    have hle := Nat.mul_le_of_le_div _ _ _ ((hwalk n).mp hn).2
    obtain ⟨k, rfl⟩ := hsize
    left
    rw [hzero, Nat.add_zero, ← Nat.succ_mul, Nat.mul_comm T k]
    apply Nat.mul_le_mul_right
    have hnk : n * T < k * T := by
      rw [Nat.mul_comm k T]
      omega
    exact Nat.lt_of_mul_lt_mul_right hnk
  · intro x hx hx'
    refine (hwalk _).mpr ⟨Nat.div_le_div_right (by omega), Nat.div_le_div_right (by omega)⟩

/-- A run of `e2undo` passes its checks, has no failing transfer, does not mark the file system,
and leaves the given content. -/
def Restores (sort : Qsort) (memory : Nat → UndoKeyInfo) (opts : Options)
    (undo dev orig : ByteFile) : Prop :=
  ∃ rounds r, e2undo sort memory opts (.sound undo) dev rounds = some (.ok r) ∧
    r.errors = ⟨false, false⟩ ∧ r.marked = false ∧ r.device dev = orig

/-- The session that is in the state is closed without an error, and then a run of `e2undo`
without options restores the given content. -/
def Undone (sort : Qsort) (memory : Nat → UndoKeyInfo) (orig : ByteFile) (s : State Files) :
    Prop :=
  (undoClose Files.realChannel Files.undoChannel false s).1 = .ok ∧
    Restores sort memory Options.none
      (undoClose Files.realChannel Files.undoChannel false s).2.sys.undoFile.file
      (undoClose Files.realChannel Files.undoChannel false s).2.sys.real.file orig

/-- The sessions that can be undone: the block size divides the undo block size, which divides
the size of the device and the offset, and every request is one that is saved as it is. -/
structure Undoable (bs T off : Nat) (sys : Files) (cs : List Call) : Prop where
  sizes : Sizes bs T
  blockSize_ge : e2undoMinBlockSize ≤ bs
  offset_dvd : T ∣ off
  whole : T ∣ sys.real.file.size
  hasSuper : superblockOffset + off + superblockSize ≤ sys.real.file.size
  size_lt : sys.real.file.size < 2 ^ 63
  undoOffset : sys.undoFile.offset = 0
  quiet : sys.outcomes = []
  calls : cs ≠ []
  inside : ∀ c ∈ cs, c.Inside bs off sys.real.file.size
  unshifted : ∀ c ∈ cs, c.Unshifted off
  exact : ∀ c ∈ cs, c.Exact bs off

/-- The state of the files once a session is closed. -/
def closedFiles (bs T off : Nat) (sys : Files) (cs : List Call) : Files :=
  (undoClose Files.realChannel Files.undoChannel false
    (runCalls Files.realChannel Files.undoChannel cs (started bs T off sys))).2.sys

/-- **Sessions that can be undone are closed with a complete ledger.** -/
theorem Undoable.closed {sys : Files} {cs : List Call} (h : Undoable bs T off sys cs)
    (hfile : (closedFiles bs T off sys cs).undoFile.file.size < 2 ^ 63) :
    (undoClose Files.realChannel Files.undoChannel false
        (runCalls Files.realChannel Files.undoChannel cs (started bs T off sys))).1 = .ok ∧
      ∃ L gs last, Closed bs T off sys.real.file L gs last
        (undoClose Files.realChannel Files.undoChannel false
          (runCalls Files.realChannel Files.undoChannel cs (started bs T off sys))).2 := by
  have hpos := h.sizes.tdbDataSize_pos
  obtain ⟨hfresh, hreal, -⟩ := fresh_started h.sizes h.blockSize_ge h.quiet h.undoOffset h.hasSuper
  obtain ⟨L, gs, last, htracks, hkeeps, hkept⟩ := Ready.runCalls (Or.inl ⟨hfresh, rfl⟩)
    (by rw [hreal]; exact Ledger.keeps_nil bs T off sys.real.file) hpos h.offset_dvd
    (by rw [hreal]) h.size_lt h.calls fun c hc =>
      (h.inside c hc).admitted h.sizes h.blockSize_ge h.whole h.size_lt h.offset_dvd
        (h.unshifted c hc) (h.exact c hc)
  obtain ⟨hok, hclosed⟩ := htracks.closed hkeeps hkept h.size_lt h.offset_dvd
    (htracks.groups_lt_of_closed hfile)
  exact ⟨hok, L, gs, last, hclosed⟩

theorem Undoable.restores {sys : Files} {cs : List Call} {opts : Options} (sort : Qsort)
    (memory : Nat → UndoKeyInfo) (h : Undoable bs T off sys cs)
    (hfile : (closedFiles bs T off sys cs).undoFile.file.size < 2 ^ 63)
    (hopts : opts.Plain off) :
    Restores sort memory opts (closedFiles bs T off sys cs).undoFile.file
      (closedFiles bs T off sys cs).real.file sys.real.file := by
  obtain ⟨-, L, gs, last, hclosed⟩ := h.closed hfile
  obtain ⟨rounds, hrun⟩ := hclosed.finished.run sort memory hopts.force hopts.dump
    (hclosed.fsOffset_eq hopts)
  exact ⟨rounds, _, hrun, (hclosed.replays sort memory hopts).2,
    hclosed.marked_eq sort memory hopts, hclosed.restores sort memory hopts List.nil_prefix⟩

/-- **`e2undo` restores the original file system.** -/
theorem undo_restores {B : Nat} {sys : Files} {cs : List Call} (sort : Qsort)
    (memory : Nat → UndoKeyInfo) (hmin : e2undoMinBlockSize ≤ B) (hmax : B ≤ e2undoMaxBlockSize)
    (hwhole : B ∣ sys.real.file.size) (hsize : 2048 ≤ sys.real.file.size)
    (hdevice : sys.real.file.size < 2 ^ 63) (hundo : sys.undoFile.offset = 0)
    (hquiet : sys.outcomes = []) (hinside : ∀ c ∈ cs, c.Inside B 0 sys.real.file.size)
    (hwrite : ∃ c ∈ cs, 0 < (c.target B 0).2) (hexact : ∀ c ∈ cs, c.Exact B 0)
    (hfile : (closedFiles B B 0 sys cs).undoFile.file.size < 2 ^ 63) :
    Undone sort memory sys.real.file
      (runCalls Files.realChannel Files.undoChannel cs (started B B 0 sys)) := by
  have hpos : 0 < B := by
    rw [e2undoMinBlockSize] at hmin
    omega
  obtain ⟨c, hc, -⟩ := hwrite
  have hundoable : Undoable B B 0 sys cs :=
    ⟨⟨hpos, hmin, hmax, dvd_refl B⟩, hmin, dvd_zero B, hwhole, hsize, hdevice, hundo, hquiet,
      List.ne_nil_of_mem hc, hinside, fun c _ => by cases c <;> trivial, hexact⟩
  exact ⟨(hundoable.closed hfile).1,
    hundoable.restores sort memory hfile (Options.plain_none 0)⟩

def zeroDevice (size : Nat) : ByteFile where
  size := size
  byte := fun _ => 0
  byte_eq_zero := fun _ _ => rfl

/-- A device of zeros and an empty undo file. -/
def zeroFiles (size : Nat) : Files where
  real := ⟨zeroDevice size, 1024, 0⟩
  undoFile := ⟨.empty, 1024, 0⟩
  outcomes := []
  requests := []

def sevens (block : Nat) : Call :=
  .writeBlk64 block 1 (List.replicate 1024 7)

theorem undoable_sevens {blocks : List Nat} (hne : blocks ≠ []) (hlt : ∀ b ∈ blocks, b < 4) :
    Undoable 1024 1024 0 (zeroFiles 4096) (blocks.map sevens) := by
  have hall : ∀ {P : Call → Prop}, (∀ b, b < 4 → P (sevens b)) → ∀ c ∈ blocks.map sevens, P c := by
    intro P hP c hc
    obtain ⟨b, hb, rfl⟩ := List.mem_map.mp hc
    exact hP b (hlt b hb)
  refine ⟨⟨by norm_num, by decide, by decide, dvd_refl _⟩, by decide, dvd_zero _, by decide,
    by decide, by decide, rfl, rfl, by simpa using hne, hall ?_, hall ?_, hall ?_⟩
  · intro b hb
    refine ⟨?_, ?_⟩
    · show b * 1024 + 0 + 1 * 1024 ≤ 4096
      omega
    · show 1 * 1024 < 2 ^ 31
      norm_num
  · intro b hb
    trivial
  · intro b hb
    refine ⟨?_, ?_⟩
    · show 1 * 1024 < 2 ^ 31
      norm_num
    · show 0 < b * 1024 + 0 + 1 * 1024
      omega

theorem size_closedFiles_sevens :
    (closedFiles 1024 1024 0 (zeroFiles 4096) [sevens 3]).undoFile.file.size < 2 ^ 63 := by
  decide +kernel

/-- The last block of a device of four blocks is written and restored. -/
theorem undo_restores_one_block :
    Undone Qsort.keep (fun _ => default) (zeroDevice 4096)
      (runCalls Files.realChannel Files.undoChannel [sevens 3]
        (started 1024 1024 0 (zeroFiles 4096))) := by
  have h := @undoable_sevens [3] (by decide) (by decide)
  exact undo_restores Qsort.keep (fun _ => default) h.blockSize_ge (by decide) h.whole (by decide)
    h.size_lt rfl rfl h.inside ⟨_, List.mem_singleton_self _, by decide⟩ h.exact
    size_closedFiles_sevens

/-- Bytes whose number is less than 2^31, but not if they are counted in blocks around them. -/
def wideBytes : Bytes :=
  List.replicate (2 ^ 31 - 4096) 1

theorem length_wideBytes : wideBytes.length = 2 ^ 31 - 4096 :=
  List.length_replicate

def wideWrite : Call :=
  .writeByte (2 ^ 31 + 4097) wideBytes

theorem handed_wideWrite : wideWrite.handed 4096 0 = (524289, 524288) := by
  rw [wideWrite, Call.handed, length_wideBytes]
  decide

theorem target_wideWrite : wideWrite.target 4096 0 = (2 ^ 31 + 4097, 2 ^ 31 - 4096) := by
  rw [wideWrite, Call.target, length_wideBytes]

theorem undoWriteTdb_wideWrite {s s' : State Files} (hblk : s.blockSize = 4096)
    (hsetup : undoSetupTdb Files.undoChannel s = (.ok, s')) (hblk' : s'.blockSize = 4096)
    (hoff : s'.data.offset = 0) (hT : s'.data.tdbDataSize = 4096) :
    undoWriteTdb Files.realChannel Files.undoChannel 524289 524288 s = (.ok, s') := by
  have hfirst : tdbBlockNum 4096 (tdbOffset 4096 524289 0) = 524289 := by decide
  have hlast : tdbEndBlock 4096 (tdbOffset 4096 524289 0) (tdbSize 4096 524288) = 0 := by decide
  unfold undoWriteTdb
  rw [hsetup]
  dsimp only
  rw [hblk, hblk', hoff, hT, hfirst, hlast]
  rfl

theorem passOn_wideWrite {s : Files} (hoff : s.real.offset = 0) (hrequests : s.requests = []) :
    wideWrite.passOn Files.realChannel s =
      (.ok, { s with
        real.file := s.real.file.pwrite (2 ^ 31 + 4097) wideBytes
        requests := [] }) := by
  have htake : wideBytes.take maxRwCount = wideBytes :=
    List.take_of_length_le (by rw [length_wideBytes]; decide)
  have hlimit : FileChannel.limit (s.requests.headD .ok) = some maxRwCount := by
    rw [hrequests]
    rfl
  show s.onReal (FileChannel.writeByte · (2 ^ 31 + 4097) wideBytes) = _
  unfold Files.onReal FileChannel.writeByte
  dsimp only
  rw [hlimit]
  dsimp only
  unfold FileChannel.writeUpTo
  dsimp only
  rw [htake, if_pos rfl, hoff, hrequests, Nat.add_zero]
  rfl

/-- **A write of 2^31 - 4096 bytes to a device of 2^33 is passed on without saving anything**,
and `e2undo` restores nothing. -/
theorem wide_write_not_restored :
    wideWrite.Inside 4096 0 (2 ^ 33) ∧ 0 < (wideWrite.target 4096 0).2 ∧
      ¬ wideWrite.Exact 4096 0 ∧
      ¬ Undone Qsort.keep (fun _ => default) (zeroDevice (2 ^ 33))
        (runCalls Files.realChannel Files.undoChannel [wideWrite]
          (started 4096 4096 0 (zeroFiles (2 ^ 33)))) := by
  refine ⟨⟨?_, ?_⟩, ?_, ?_, ?_⟩
  · rw [target_wideWrite]
    norm_num
  · rw [target_wideWrite]
    norm_num
  · rw [target_wideWrite]
    norm_num
  · rw [Call.Exact, handed_wideWrite]
    decide
  rintro ⟨-, rounds, r, hrun, -, -, hdevice⟩
  have hs : Sizes 4096 4096 := ⟨by norm_num, by decide, by decide, dvd_refl _⟩
  obtain ⟨hfresh, hreal, hrequests⟩ := @fresh_started 4096 4096 0 (zeroFiles (2 ^ 33)) hs
    (by decide) rfl rfl (by decide)
  obtain ⟨s₁, hsetup, htracks, haside⟩ := hfresh.undoSetupTdb
  have hc := htracks.session.config
  have hsaved := undoWriteTdb_wideWrite hfresh.blockSize hsetup hc.blockSize hc.offset
    htracks.session.stored.tdbDataSize
  have hpass := passOn_wideWrite hc.realOffset (haside.requests.trans hrequests)
  have hsettings : wideWrite.handed (started 4096 4096 0 (zeroFiles (2 ^ 33))).blockSize
      (started 4096 4096 0 (zeroFiles (2 ^ 33))).data.offset = (524289, 524288) := by
    have hoff := (Ready.settings (Or.inl ⟨hfresh, rfl⟩)).2
    rw [hfresh.blockSize, hoff, handed_wideWrite]
  have hstate := wideWrite.run_eq Files.realChannel Files.undoChannel
    (s := started 4096 4096 0 (zeroFiles (2 ^ 33))) (by rw [hsettings]; decide)
  rw [hsettings] at hstate
  dsimp only at hstate
  rw [saveThen, hsaved] at hstate
  dsimp only at hstate
  rw [hpass] at hstate
  have hdev : s₁.sys.real.file = zeroDevice (2 ^ 33) := htracks.device.trans hreal
  have hchanges : Changes (2 ^ 31 + 4097) (2 ^ 31 - 4096) (zeroDevice (2 ^ 33))
      ((zeroDevice (2 ^ 33)).pwrite (2 ^ 31 + 4097) wideBytes) :=
    changes_pwrite (le_of_eq length_wideBytes) _
  have hkept : ((zeroDevice (2 ^ 33)).pwrite (2 ^ 31 + 4097) wideBytes).size = 2 ^ 33 :=
    hchanges.size_eq (by show 2 ^ 31 + 4097 + (2 ^ 31 - 4096) ≤ 2 ^ 33; norm_num)
  have htracks₂ := htracks.change
    (g := (zeroDevice (2 ^ 33)).pwrite (2 ^ 31 + 4097) wideBytes)
    (by rw [← htracks.device, hdev]; exact hchanges.size_le) []
  obtain ⟨s₃, hclose, htracks₃, hdescribed, -, -⟩ := htracks₂.undoClose false
  have hfinal : undoClose Files.realChannel Files.undoChannel false
      (runCalls Files.realChannel Files.undoChannel [wideWrite]
        (started 4096 4096 0 (zeroFiles (2 ^ 33)))) = (.ok, s₃) := by
    rw [← hclose, runCalls, List.foldl_cons, List.foldl_nil, hstate, hdev]
  rw [hfinal] at hrun hdevice
  have hfinished := htracks₃.finished hdescribed
    (by show ((zeroDevice (2 ^ 33)).pwrite _ _).size < _; rw [hkept]; norm_num) (by decide)
  have hoffset := (Options.plain_none 0).fsOffset_eq hdescribed (by norm_num)
  have hreplay := hfinished.eq_replay rfl hoffset hrun
  have hwrites : r.writes = [] := by
    have hnone := (hfinished.replays Qsort.keep (fun _ => default) rfl hoffset ?_ ?_ ?_).1
    · rw [← hreplay] at hnone
      exact hnone
    · rw [hdescribed.fsBlockSize]
      decide
    · intro e he
      simp [closedGroups] at he
    · intro e he
      simp [closedGroups] at he
  rw [Replay.device, hwrites, applyPatches_nil, htracks₃.device] at hdevice
  have hbyte := (ByteFile.holds_pwrite_self (zeroDevice (2 ^ 33)) (2 ^ 31 + 4097) wideBytes 0 1
    (by rw [wideBytes, List.getElem?_replicate, if_pos (by norm_num)])).2
  change (zeroDevice (2 ^ 33)).pwrite (2 ^ 31 + 4097) wideBytes = _ at hdevice
  rw [hdevice] at hbyte
  exact absurd hbyte (by decide)

end Undone

end Undo
end Rfsck
