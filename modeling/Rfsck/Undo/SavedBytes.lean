import Rfsck.Undo.Restore

/-!
# The bytes that an undo file has

What `e2undo` would write from the undo file of a session that is still going on.

* `SavedByte` reads a byte off an undo file the way `e2undo` does: through its header, its key
  blocks and the data of a key.
* `Tracks.savedByte_iff`: in a session these are the bytes of the extents of its ledger.
* `overwritten_bytes_saved`: a request whose bytes lie in undo blocks of its own walk, or of the
  walks before it, finds them saved before it changes the device.
* `marked_blocks_saved`: without a failing operation of its own, the manager has the original
  content of every block that it has marked, whatever becomes of the requests themselves.
-/

namespace Rfsck
namespace Undo

open Storage
open Redo (Outcome)
open UnixIo (Errcode)

/-- The header and the keys that `e2undo` finds in an undo file. -/
structure Decodes (f : ByteFile) (hdr : UndoHeader) (ikeys : List UndoKeyInfo) : Prop where
  header : readHeader Options.none (.sound f) = .ok hdr
  memory : undoKeyInfoSize * hdr.numKeys.toNat % 2 ^ 64 < 2 ^ 63
  keys : ∃ rounds, loadLoop false (.sound f) hdr.blockSize.toNat hdr.numKeys.toNat rounds 0
    hdr.keyOffset.toNat [] ⟨false, false⟩ = some (.ok ⟨ikeys, hdr.numKeys.toNat, ⟨false, false⟩⟩)

/-- The write of some key puts the value `v` at the position `x` of the device. -/
def SavedByte (f : ByteFile) (x : Nat) (v : UInt8) : Prop :=
  ∃ hdr ikeys, Decodes f hdr ikeys ∧ ∃ ikey ∈ ikeys, ∃ p,
    keyWrite Options.none (.sound f) hdr ikey = some p ∧ p.offset ≤ x ∧
      p.data[x - p.offset]? = some v

section Reader

variable {f dev : ByteFile} {off : Nat} {hdr : UndoHeader} {super : Bytes}
  {gs : List (List Extent)}

theorem Decodes.unique {hdr' : UndoHeader} {ikeys ikeys' : List UndoKeyInfo}
    (h : Decodes f hdr ikeys) (h' : Decodes f hdr' ikeys') : hdr' = hdr ∧ ikeys' = ikeys := by
  have hhdr := h.header
  rw [h'.header] at hhdr
  obtain rfl := Except.ok.inj hhdr
  refine ⟨rfl, ?_⟩
  obtain ⟨-, -, -, -, -, hge, hle, -⟩ := (readHeader_eq_ok_iff rfl).mp h.header
  have hwrap := numKeys_add_lt hge hle hdr'.numKeys.toNat_lt h.memory
  obtain ⟨rounds, hload⟩ := h.keys
  obtain ⟨rounds', hload'⟩ := h'.keys
  obtain ⟨keys, hkeys, heq⟩ := keyBlocksAt_of_loadLoop hle hwrap hload
  obtain ⟨keys', hkeys', heq'⟩ := keyBlocksAt_of_loadLoop hle hwrap hload'
  obtain rfl := hkeys.unique hkeys'
  rw [Loaded.mk.injEq] at heq heq'
  rw [heq.1, heq'.1]

theorem Finished.decodes (h : Finished f dev off hdr super gs)
    (hoffset : (fsOffset Options.none hdr.sealed).toNat = off) :
    Decodes f hdr.sealed (groupInfos hdr.blockSize.toNat hdr.keyOffset.toNat gs) := by
  have hv := h.validated hoffset
  refine ⟨?_, hv.memory, ?_⟩
  · exact (readHeader_eq_ok_iff rfl).mpr ⟨hv.header, hv.magic, rfl, hv.headerChecksum,
      hv.fsBlockSize_ne, hv.blockSize_ge, hv.blockSize_le, hv.features⟩
  · have hwrap := numKeys_add_lt hv.blockSize_ge hv.blockSize_le hdr.numKeys.toNat_lt hv.memory
    exact hv.keys.loadLoop hv.blockSize_le hv.blockSize_ge hwrap (Nat.sub_zero _).symm false []
      ⟨false, false⟩

theorem Finished.keyWrite_eq (h : Finished f dev off hdr super gs)
    (hoffset : (fsOffset Options.none hdr.sealed).toNat = off)
    (hfs : hdr.fsBlockSize.toNat < 2 ^ 31) (hdata : ∀ e ∈ gs.flatten, e.data ≠ [])
    (hplace : ∀ e ∈ gs.flatten, e.place hdr.fsBlockSize.toNat off < 2 ^ 63) :
    (groupInfos hdr.blockSize.toNat hdr.keyOffset.toNat gs).map
        (keyWrite Options.none (.sound f) hdr.sealed) =
      gs.flatten.map (fun e => some (e.patch hdr.fsBlockSize.toNat off)) := by
  have hv := h.validated hoffset
  have hkeys := h.reachable hoffset hfs hdata hplace
  have hchecked := congrArg (List.map some) (h.map_checkedPatch hoffset)
  rw [List.map_map, List.map_map] at hchecked
  rw [show (fun e : Extent => some (e.patch hdr.fsBlockSize.toNat off)) =
    some ∘ Extent.patch hdr.fsBlockSize.toNat off from rfl, ← hchecked]
  apply List.map_congr_left
  intro ikey hmem
  exact (keyWrite_eq_checkedPatch_iff (hv.keys.intact ikey hmem) hv.blockSize_le rfl
    hv.fsBlockSize_ne (hv.keys.fsblk_lt ikey hmem) (hkeys ikey hmem).1).mpr (hkeys ikey hmem).2

theorem Finished.savedByte_iff (h : Finished f dev off hdr super gs)
    (hoffset : (fsOffset Options.none hdr.sealed).toNat = off)
    (hfs : hdr.fsBlockSize.toNat < 2 ^ 31) (hdata : ∀ e ∈ gs.flatten, e.data ≠ [])
    (hplace : ∀ e ∈ gs.flatten, e.place hdr.fsBlockSize.toNat off < 2 ^ 63)
    {x : Nat} {v : UInt8} :
    SavedByte f x v ↔ ∃ e ∈ gs.flatten, e.place hdr.fsBlockSize.toNat off ≤ x ∧
      e.data[x - e.place hdr.fsBlockSize.toNat off]? = some v := by
  have hdecodes := h.decodes hoffset
  have hwrites := h.keyWrite_eq hoffset hfs hdata hplace
  constructor
  · rintro ⟨hdr', ikeys', hdecodes', ikey, hmem, p, hp, hle, hv⟩
    obtain ⟨rfl, rfl⟩ := hdecodes.unique hdecodes'
    have hwrite := List.mem_map_of_mem (f := keyWrite Options.none (.sound f) hdr.sealed) hmem
    rw [hwrites, hp] at hwrite
    obtain ⟨e, he, heq⟩ := List.mem_map.mp hwrite
    obtain rfl := Option.some.inj heq
    exact ⟨e, he, hle, hv⟩
  · rintro ⟨e, he, hle, hv⟩
    have hwrite := List.mem_map_of_mem (f := fun e => some (e.patch hdr.fsBlockSize.toNat off)) he
    rw [← hwrites] at hwrite
    obtain ⟨ikey, hmem, hp⟩ := List.mem_map.mp hwrite
    exact ⟨_, _, hdecodes, ikey, hmem, _, hp, hle, hv⟩

end Reader

section Ledgers

variable {bs T off : Nat} {orig : ByteFile} {L : Ledger} {gs : List (List Extent)}
  {last : List Extent} {s : State Files}

/-- **The saved bytes of a session are those of its extents.** -/
theorem Tracks.savedByte_iff (h : Tracks bs T off L gs last s) (hkeeps : L.Keeps bs T off orig)
    (hsize : L.device.size < 2 ^ 63) (hfile : s.sys.undoFile.file.size < 2 ^ 63)
    (hne : L.extents ≠ []) {x : Nat} {v : UInt8} :
    SavedByte s.sys.undoFile.file x v ↔
      ∃ e ∈ L.extents, e.place bs off ≤ x ∧ e.data[x - e.place bs off]? = some v := by
  have hs := h.session.sizes
  have hw := h.session.stored
  have hpos := hs.tdbDataSize_pos
  have hle := hs.tdbDataSize_lt
  have hbs : bs ≤ T := Nat.le_of_dvd hpos hs.dvd
  obtain ⟨super, hd⟩ := h.described hne
  have hfinished := h.finished_of_super hd
    (ByteFile.holds_pwrite_self .empty (superblockOffset + off) super) hsize (h.groups_lt hfile)
  have hoff : (fsOffset Options.none s.data.hdr.sealed).toNat = off :=
    (Options.plain_none off).fsOffset_eq hd (by have := hfinished.offset_lt; omega)
  have hfs : s.data.hdr.fsBlockSize.toNat = bs := by
    rw [hd.fsBlockSize, UInt32.toNat_ofNat']
    omega
  have hflatten : (closedGroups gs last).flatten = L.extents := by
    rw [flatten_closedGroups, h.extents]
  have hiff := @Finished.savedByte_iff _ _ _ _ _ _ hfinished hoff (by omega) (by
    rw [hflatten, ← h.extents]
    intro e he
    exact (hw.good e he).whole.data_ne_nil hpos) (by
    rw [hflatten, hfs]
    intro e he
    have hinside := hkeeps.inside e he
    omega) x v
  rwa [hflatten, hfs] at hiff

theorem Tracks.savedByte_of_marked (h : Tracks bs T off L gs last s)
    (hkeeps : L.Keeps bs T off orig) (hoff : T ∣ off) (hsize : L.device.size < 2 ^ 63)
    (hfile : s.sys.undoFile.file.size < 2 ^ 63) {x : Nat} (hx : x < orig.size)
    (hmarked : L.Marked bs T off (x / T)) :
    SavedByte s.sys.undoFile.file x (orig.byte x) := by
  obtain ⟨e, he, hle, hlt⟩ := hkeeps.saved h.session.sizes.tdbDataSize_pos hoff hx hmarked
  refine (h.savedByte_iff hkeeps hsize hfile (List.ne_nil_of_mem he)).mpr ⟨e, he, hle, ?_⟩
  have hget : e.data[x - e.place bs off]? = some (e.data.get ⟨x - e.place bs off, by omega⟩) :=
    List.getElem?_eq_getElem (by omega)
  rw [hget, hkeeps.content e he _ _ hget, Nat.add_sub_cancel' hle]

theorem Tracks.marked_of_savedByte (h : Tracks bs T off L gs last s)
    (hkeeps : L.Keeps bs T off orig) (hoff : T ∣ off) (hsize : L.device.size < 2 ^ 63)
    (hfile : s.sys.undoFile.file.size < 2 ^ 63) (hne : L.extents ≠ []) {x : Nat} {v : UInt8}
    (hsaved : SavedByte s.sys.undoFile.file x v) : L.Marked bs T off (x / T) := by
  obtain ⟨e, he, hle, hv⟩ := (h.savedByte_iff hkeeps hsize hfile hne).mp hsaved
  have hlt := (List.getElem?_eq_some_iff.mp hv).1
  exact Or.inl ⟨e, he, hkeeps.has_of_covers hoff he hle (by omega)⟩

end Ledgers

section Runs

variable {bs T off : Nat} {sys : Files} {cs : List Call}

/-- The bytes of a request lie in undo blocks of its walk or of the walks before it. -/
def Call.Sheltered (bs T off : Nat) (earlier : List Call) (c : Call) : Prop :=
  ∀ x, (c.target bs off).1 ≤ x → x < (c.target bs off).1 + (c.target bs off).2 →
    ∃ c' ∈ earlier ++ [c], c'.Walks bs T off (x / T)

def after (bs T off : Nat) (sys : Files) (cs : List Call) : State Files :=
  runCalls Files.realChannel Files.undoChannel cs (started bs T off sys)

theorem after_concat (bs T off : Nat) (sys : Files) (cs : List Call) (c : Call) :
    after bs T off sys (cs ++ [c]) =
      (c.run Files.realChannel Files.undoChannel (after bs T off sys cs)).2 := by
  rw [after, runCalls, List.foldl_append]
  rfl

/-- What the settings of a session have to be for its keys to say where the bytes belong. -/
structure Aligned (bs T off : Nat) (sys : Files) : Prop where
  sizes : Sizes bs T
  blockSize_ge : e2undoMinBlockSize ≤ bs
  offset_dvd : T ∣ off
  hasSuper : superblockOffset + off + superblockSize ≤ sys.real.file.size
  undoOffset : sys.undoFile.offset = 0
  quiet : sys.outcomes = []

/-- A request that may come next: its undo blocks are not cut by the end of the device, and its
bytes are sheltered. -/
structure Call.Next (bs T off : Nat) (sys : Files) (earlier : List Call) (c : Call) : Prop where
  size_lt : (after bs T off sys earlier).sys.real.file.size < 2 ^ 63
  fits : c.Fits bs T off (after bs T off sys earlier).sys.real.file.size
  sheltered : c.Sheltered bs T off earlier

/-- Every request of a session is one that may come next. -/
def Orderly (bs T off : Nat) (sys : Files) (cs : List Call) : Prop :=
  ∀ pre c post, cs = pre ++ c :: post → c.Next bs T off sys pre

theorem Orderly.left {cs cs' : List Call} (h : Orderly bs T off sys (cs ++ cs')) :
    Orderly bs T off sys cs := by
  intro pre c post heq
  refine h pre c (post ++ cs') ?_
  rw [heq, List.append_assoc, List.cons_append]

/-- The ledger of a session: it has the original content, and its marks are the walks. -/
structure Ledger.OfRun (bs T off : Nat) (orig : ByteFile) (cs : List Call) (L : Ledger) : Prop where
  keeps : L.Keeps bs T off orig
  marked : ∀ n, L.Marked bs T off n ↔ ∃ c ∈ cs, c.Walks bs T off n

theorem Ready.device_eq {L : Ledger} {s : State Files} (h : Ready bs T off L s) :
    s.sys.real.file = L.device := by
  rcases h with ⟨-, rfl⟩ | ⟨gs, last, htracks⟩
  · rfl
  · exact htracks.device

/-- **The invariant of a session**, by induction over its requests. -/
theorem Aligned.ready (h : Aligned bs T off sys) (hcs : Orderly bs T off sys cs) :
    ∃ L, Ready bs T off L (after bs T off sys cs) ∧
      L.OfRun bs T off sys.real.file cs := by
  induction cs using List.reverseRecOn with
  | nil =>
      obtain ⟨hfresh, hreal, -⟩ := fresh_started h.sizes h.blockSize_ge h.quiet h.undoOffset
        h.hasSuper
      refine ⟨_, Or.inl ⟨hfresh, rfl⟩, ?_, ?_⟩
      · show Ledger.Keeps bs T off sys.real.file ⟨(started bs T off sys).sys.real.file, [], ∅⟩
        rw [hreal]
        exact Ledger.keeps_nil bs T off sys.real.file
      · intro n
        simp [Ledger.Marked]
  | append_singleton cs c ih =>
      obtain ⟨L, hready, hrun⟩ := ih hcs.left
      have hnext := hcs cs c [] rfl
      have hdevice := hready.device_eq
      have hsize := hnext.size_lt
      have hfits := hnext.fits
      rw [hdevice] at hsize hfits
      obtain ⟨L', gs, last, -, hmarked, -, hkeeps, htracks⟩ :=
        hready.keeps_run_of_marked hsize hfits hrun.keeps h.sizes.tdbDataSize_pos h.offset_dvd (by
          intro x hx hx'
          obtain ⟨c', hc', hwalks⟩ := hnext.sheltered x hx hx'
          rcases List.mem_append.mp hc' with hc' | hc'
          · exact Or.inl ((hrun.marked _).mpr ⟨c', hc', hwalks⟩)
          · rw [List.mem_singleton.mp hc'] at hwalks
            exact Or.inr hwalks)
      rw [after_concat]
      refine ⟨L', Or.inr ⟨gs, last, htracks⟩, hkeeps, ?_⟩
      intro n
      rw [hmarked, hrun.marked]
      simp only [List.mem_append, List.mem_singleton, or_and_right, exists_or, exists_eq_left]

theorem Aligned.undoWriteTdb (h : Aligned bs T off sys) (hcs : Orderly bs T off sys cs) {c : Call}
    (hnext : c.Next bs T off sys cs) :
    ∃ L gs last r s',
      undoWriteTdb Files.realChannel Files.undoChannel (c.handed bs off).1 (c.handed bs off).2
          (after bs T off sys cs) = (r, s') ∧
      Tracks bs T off L gs last s' ∧ L.device.size < 2 ^ 63 ∧
      L.OfRun bs T off sys.real.file (cs ++ [c]) := by
  obtain ⟨L, hready, hrun⟩ := h.ready hcs
  have hdevice := hready.device_eq
  have hsize := hnext.size_lt
  have hfits := hnext.fits
  rw [hdevice] at hsize hfits
  obtain ⟨L', gs, last, r, s', hsaved, hsaving, htracks, -, hmarked, -⟩ :=
    hready.undoWriteTdb hsize hfits
  refine ⟨L', gs, last, r, s', hsaved, htracks, ?_,
    hsaving.keeps hrun.keeps h.sizes.tdbDataSize_pos h.offset_dvd, ?_⟩
  · rw [hsaving.device_eq]
    exact hsize
  · intro n
    rw [hmarked, hrun.marked]
    simp only [List.mem_append, List.mem_singleton, or_and_right, exists_or, exists_eq_left]

/-- When the blocks of a request have been walked over without an error, and so the request is
passed on to the device, every byte that it overwrites is saved with its original value. -/
def SavedBefore (bs T off : Nat) (sys : Files) (earlier : List Call) (c : Call) : Prop :=
  ∀ s', undoWriteTdb Files.realChannel Files.undoChannel (c.handed bs off).1 (c.handed bs off).2
      (after bs T off sys earlier) = (.ok, s') → s'.sys.undoFile.file.size < 2 ^ 63 →
    ∀ x, (c.target bs off).1 ≤ x → x < (c.target bs off).1 + (c.target bs off).2 →
      x < sys.real.file.size → SavedByte s'.sys.undoFile.file x (sys.real.file.byte x)

/-- Without a failing operation of its own, a session has the original content of every block
that it has marked. -/
def MarksSaved (T : Nat) (orig : ByteFile) (s : State Files) : Prop :=
  ∀ x, s.data.writtenBlockMap (x / T) = true → x < orig.size →
    SavedByte s.sys.undoFile.file x (orig.byte x)

end Runs

section Examples

theorem Aligned.real_after_nil {bs T off : Nat} {sys : Files} (h : Aligned bs T off sys) :
    (after bs T off sys []).sys.real.file = sys.real.file :=
  (fresh_started h.sizes h.blockSize_ge h.quiet h.undoOffset h.hasSuper).2.1

/-- A session of one write to a block of a small device. -/
theorem orderly_sevens :
    Aligned 1024 1024 0 (zeroFiles 4096) ∧ Orderly 1024 1024 0 (zeroFiles 4096) [sevens 3] := by
  have h := @undoable_sevens [3] (by decide) (by decide)
  have hadmitted := (h.inside (sevens 3) (by simp)).admitted h.sizes h.blockSize_ge h.whole
    h.size_lt h.offset_dvd trivial (h.exact (sevens 3) (by simp))
  have haligned : Aligned 1024 1024 0 (zeroFiles 4096) :=
    ⟨h.sizes, h.blockSize_ge, h.offset_dvd, h.hasSuper, h.undoOffset, h.quiet⟩
  refine ⟨haligned, ?_⟩
  intro pre c post heq
  obtain ⟨rfl, heq⟩ : pre = [] ∧ [sevens 3] = c :: post := by
    cases pre with
    | nil =>
        exact ⟨rfl, heq⟩
    | cons c' pre =>
        simp at heq
  obtain rfl := (List.cons.inj heq).1
  refine ⟨?_, ?_, ?_⟩
  · rw [haligned.real_after_nil]
    exact h.size_lt
  · rw [haligned.real_after_nil]
    exact hadmitted.fits
  · intro x hx hx'
    exact ⟨sevens 3, by simp, hadmitted.covered x hx hx'⟩

def firstByte : Call :=
  .writeByte 0 [7]

theorem walks_firstByte (n : Nat) : firstByte.Walks 1024 1024 2048 n ↔ n = 4 := by
  have hends : tdbBlockNum 1024 (tdbOffset 1024 (firstByte.handed 1024 2048).1 2048) = 4 ∧
      tdbEndBlock 1024 (tdbOffset 1024 (firstByte.handed 1024 2048).1 2048)
        (tdbSize 1024 (firstByte.handed 1024 2048).2) = 4 := by
    decide
  rw [Call.Walks, hends.1, hends.2]
  omega

theorem undoWriteTdb_firstByte :
    (undoWriteTdb Files.realChannel Files.undoChannel (firstByte.handed 1024 2048).1
        (firstByte.handed 1024 2048).2 (after 1024 1024 2048 (zeroFiles 8192) [])).1 = .ok ∧
      (undoWriteTdb Files.realChannel Files.undoChannel (firstByte.handed 1024 2048).1
        (firstByte.handed 1024 2048).2
        (after 1024 1024 2048 (zeroFiles 8192) [])).2.sys.undoFile.file.size = 4096 := by
  decide +kernel

/-- Files whose first read of old content fails; the nine operations before it prepare the undo
file. -/
def unreadableFiles : Files :=
  { zeroFiles 4096 with outcomes := List.replicate 9 .ok ++ [.fail] }

theorem run_unreadableFiles :
    ((sevens 3).run Files.realChannel Files.undoChannel
        (after 1024 1024 0 unreadableFiles [])).1 = .errno ∧
      ((sevens 3).run Files.realChannel Files.undoChannel
        (after 1024 1024 0 unreadableFiles [sevens 3])).1 = .ok ∧
      (after 1024 1024 0 unreadableFiles [sevens 3, sevens 3]).sys.real.file.byte 3072 = 7 ∧
      (after 1024 1024 0 unreadableFiles [sevens 3, sevens 3]).data.writtenBlockMap
        (3072 / 1024) = true ∧
      (readHeader Options.none (.sound (after 1024 1024 0 unreadableFiles
        [sevens 3, sevens 3]).sys.undoFile.file)).toOption.isNone = true := by
  decide +kernel

end Examples

section Results

variable {bs T off : Nat} {sys : Files} {cs : List Call}

/-- **Every byte that a session overwrites is saved before, where `e2undo` restores it.** -/
theorem overwritten_bytes_saved (h : Aligned bs T off sys) (hcs : Orderly bs T off sys cs) :
    ∀ pre c post, cs = pre ++ c :: post → SavedBefore bs T off sys pre c := by
  intro pre c post heq s' hsaved hfile x hx hx' hlt
  have hnext := hcs pre c post heq
  rw [heq] at hcs
  obtain ⟨L, gs, last, r, s'', hrun, htracks, hsize, hledger⟩ := h.undoWriteTdb hcs.left hnext
  rw [hsaved, Prod.mk.injEq] at hrun
  obtain rfl := hrun.2
  exact htracks.savedByte_of_marked hledger.keeps h.offset_dvd hsize hfile hlt
    ((hledger.marked _).mpr (hnext.sheltered x hx hx'))

/-- The session of one write. -/
theorem overwritten_block_saved :
    SavedBefore 1024 1024 0 (zeroFiles 4096) [] (sevens 3) :=
  overwritten_bytes_saved orderly_sevens.1 orderly_sevens.2 [] (sevens 3) [] rfl

/-- **`undo_write_byte` adds the offset twice**: the first byte of a file system at 2048 is
overwritten, but the block at 4096 is saved. -/
theorem shifted_byte_not_saved : ¬ SavedBefore 1024 1024 2048 (zeroFiles 8192) [] firstByte := by
  intro h
  have hs : Sizes 1024 1024 := ⟨by norm_num, by decide, by decide, dvd_refl _⟩
  have haligned : Aligned 1024 1024 2048 (zeroFiles 8192) :=
    ⟨hs, by decide, by decide, by decide, rfl, rfl⟩
  have hpos := hs.tdbDataSize_pos
  have hnone : Orderly 1024 1024 2048 (zeroFiles 8192) [] := by
    intro pre c post heq
    simp at heq
  obtain ⟨L, hready, hrun⟩ := haligned.ready hnone
  have hdevice : L.device = zeroDevice 8192 := by
    rw [← hready.device_eq, haligned.real_after_nil]
    rfl
  have hsize : L.device.size < 2 ^ 63 := by
    rw [hdevice]
    decide
  have hfits : firstByte.Fits 1024 1024 2048 L.device.size := by
    rw [hdevice]
    refine ⟨by decide, fun n hn => ?_, fun n hn => ?_⟩
    · rw [(walks_firstByte n).mp hn]
      decide
    · rw [(walks_firstByte n).mp hn]
      exact Or.inl (by decide)
  obtain ⟨L', gs, last, r, s', hsaved, hsaving, htracks, -, hmarked, -⟩ :=
    hready.undoWriteTdb hsize hfits
  have hkeeps := hsaving.keeps hrun.keeps hpos haligned.offset_dvd
  obtain ⟨hok, hfile⟩ := undoWriteTdb_firstByte
  rw [hsaved] at hok hfile
  dsimp only at hok hfile
  subst hok
  have hlt : s'.sys.undoFile.file.size < 2 ^ 63 := by
    rw [hfile]
    norm_num
  have hbyte := h s' hsaved hlt 2048 (by decide) (by decide) (by decide)
  have hne : L'.extents ≠ [] := by
    intro hnil
    rcases (hmarked 4).mpr (Or.inr ((walks_firstByte 4).mpr rfl)) with ⟨e, he, -⟩ | hskip
    · rw [hnil] at he
      simp at he
    · exact absurd (hkeeps.skipped 4 hskip) (by decide)
  have hblock := htracks.marked_of_savedByte hkeeps haligned.offset_dvd
    (by rw [hsaving.device_eq]; exact hsize) hlt hne hbyte
  rw [hmarked, hrun.marked, walks_firstByte] at hblock
  simp at hblock

/-- **The blocks that the bitmap marks are saved, in every state of a session.** -/
theorem marked_blocks_saved (h : Aligned bs T off sys) (hcs : Orderly bs T off sys cs)
    (hsize : (after bs T off sys cs).sys.real.file.size < 2 ^ 63)
    (hfile : (after bs T off sys cs).sys.undoFile.file.size < 2 ^ 63) :
    MarksSaved T sys.real.file (after bs T off sys cs) := by
  intro x hmap hx
  obtain ⟨L, hready, hrun⟩ := h.ready hcs
  rcases hready with ⟨hfresh, -⟩ | ⟨gs, last, htracks⟩
  · obtain ⟨w, -, hdata⟩ := hfresh.data
    rw [hdata] at hmap
    exact absurd hmap (by simp [UndoPrivateData.init])
  · rw [htracks.device] at hsize
    exact htracks.savedByte_of_marked hrun.keeps h.offset_dvd hsize hfile hx
      ((htracks.marks _).mp hmap)

/-- The session of one write. -/
theorem marked_block_saved :
    MarksSaved 1024 (zeroDevice 4096) (after 1024 1024 0 (zeroFiles 4096) [sevens 3]) :=
  marked_blocks_saved orderly_sevens.1 orderly_sevens.2 (by decide +kernel) (by decide +kernel)

/-- **A block whose old content could not be read is not read again**: the second write reports
success and overwrites it, and the undo file has nothing. -/
theorem unread_block_overwritten :
    ((sevens 3).run Files.realChannel Files.undoChannel
        (after 1024 1024 0 unreadableFiles [])).1 = .errno ∧
      ((sevens 3).run Files.realChannel Files.undoChannel
        (after 1024 1024 0 unreadableFiles [sevens 3])).1 = .ok ∧
      (after 1024 1024 0 unreadableFiles [sevens 3, sevens 3]).sys.real.file.byte 3072 = 7 ∧
      ¬ MarksSaved 1024 (zeroDevice 4096)
        (after 1024 1024 0 unreadableFiles [sevens 3, sevens 3]) := by
  obtain ⟨hfirst, hsecond, hbyte, hmap, hnone⟩ := run_unreadableFiles
  refine ⟨hfirst, hsecond, hbyte, ?_⟩
  intro h
  obtain ⟨hdr, ikeys, hdecodes, -⟩ := h 3072 hmap (by decide)
  rw [hdecodes.header] at hnone
  simp [Except.toOption] at hnone

end Results

end Undo
end Rfsck
