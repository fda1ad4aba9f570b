import Rfsck.Undo.Restore

/-!
# An interrupted replay

`e2undo` may be stopped behind any part of its writes and run again.  The second run begins with
`check_filesystem` like the first one: it compares the superblock of the device with the copy
that the undo file has from the end of the session.  Once the replay has restored a superblock
that the session had changed, the comparison fails.
-/

namespace Rfsck
namespace Undo

open Storage
open Redo (fit fit_of_length maxRwCount)
open UnixIo (Errcode transferSize)

/-- The superblock of a file system at an offset. -/
def superAt (off : Nat) (dev : ByteFile) : Bytes :=
  dev.pread (superblockOffset + off) superblockSize

section Accepted

variable {bs T off : Nat} {orig : ByteFile} {L : Ledger} {gs : List (List Extent)}
  {last : List Extent} {s : State Files} {opts : Options}

theorem readSuper_eq_some {dev : ByteFile} {offset : UInt64} {super : Bytes}
    (hlt : superblockOffset + offset.toNat < 2 ^ 63) (h : readSuper dev offset = some super) :
    superAt offset.toNat dev = super := by
  have hloc : location superblockOffset (1 : Nat) (toLoff offset.toNat) =
      (superblockOffset + offset.toNat : Nat) := by
    have ho : toLoff offset.toNat = offset.toNat := toLoff_natCast (by omega)
    have hsize : toInt32 superblockOffset = superblockOffset := by decide
    have hexact := @location_of_lt 1 offset.toNat superblockOffset (by decide) (by decide)
      (by omega)
    rwa [hsize, Nat.one_mul, ← ho] at hexact
  rw [readSuper, hloc, Medium.read, if_neg (by decide), if_neg (by omega)] at h
  split_ifs at h
  exact Option.some.inj h

theorem Closed.super_eq (h : Closed bs T off orig L gs last s) :
    s.sys.super = superAt off s.sys.real.file := by
  rw [superAt, Files.super, h.tracks.session.config.realOffset]

theorem Closed.finished_of_super (h : Closed bs T off orig L gs last s) {dev : ByteFile}
    (hsuper : superAt off dev = s.sys.super) :
    Finished s.sys.undoFile.file dev off s.data.hdr s.sys.super (closedGroups gs last) := by
  have hlen : (superAt off dev).length = superblockSize := by
    rw [hsuper]
    exact Files.length_super h.tracks.session.hasSuper
  have hholds : dev.Holds (superblockOffset + off) (superAt off dev) :=
    ByteFile.holds_of_pread hlen
  rw [hsuper] at hholds
  exact { h.finished with device := hholds }

/-- **A run on a closed session is accepted exactly if the superblock of the device is the one
that it had at the end of the session.** -/
theorem Closed.accepted_iff (h : Closed bs T off orig L gs last s) (sort : Qsort)
    (memory : Nat → UndoKeyInfo) (hopts : opts.Plain off) (dev : ByteFile) :
    (∃ rounds r, e2undo sort memory opts (.sound s.sys.undoFile.file) dev rounds =
        some (.ok r)) ↔
      superAt off dev = s.sys.super := by
  have hfinished := h.finished
  have hoffset := h.fsOffset_eq hopts
  constructor
  · rintro ⟨rounds, r, hrun⟩
    obtain ⟨-, hdr, ikeys, hv, -⟩ := (e2undo_eq_ok_iff hopts.force r).mp ⟨rounds, hrun⟩
    have hv₀ := hfinished.validated hoffset
    obtain ⟨bytes, hread, hhdr⟩ := hv.header
    obtain ⟨bytes₀, hread₀, hhdr₀⟩ := hv₀.header
    have hsame : hdr = s.data.hdr.sealed := by
      rw [hread] at hread₀
      rw [hhdr, hhdr₀, Option.some.inj hread₀]
    subst hsame
    obtain ⟨super, copy, hsuper, hcopy, hinvert, -⟩ := hv.superblock
    obtain ⟨super₀, copy₀, hsuper₀, hcopy₀, hinvert₀, -⟩ := hv₀.superblock
    have hlt : superblockOffset + (fsOffset opts s.data.hdr.sealed).toNat < 2 ^ 63 := by
      rw [hoffset]
      exact hfinished.offset_lt
    have hdev := readSuper_eq_some hlt hsuper
    have hdev₀ := readSuper_eq_some hlt hsuper₀
    rw [hoffset] at hdev hdev₀
    rw [hcopy] at hcopy₀
    rw [hdev, hinvert, Option.some.inj hcopy₀, ← hinvert₀, ← hdev₀, h.super_eq, superAt]
  · intro hsuper
    obtain ⟨rounds, hrun⟩ := (h.finished_of_super hsuper).run sort memory hopts.force hopts.dump
      hoffset
    exact ⟨rounds, _, hrun⟩

theorem Closed.eq_replay (h : Closed bs T off orig L gs last s) {sort : Qsort}
    {memory : Nat → UndoKeyInfo} (hopts : opts.Plain off) {dev : ByteFile} {rounds : Nat}
    {r : Replay}
    (hrun : e2undo sort memory opts (.sound s.sys.undoFile.file) dev rounds = some (.ok r)) :
    r = h.replay sort memory opts := by
  have hsuper := (h.accepted_iff sort memory hopts dev).mp ⟨rounds, r, hrun⟩
  exact (h.finished_of_super hsuper).eq_replay hopts.force (h.fsOffset_eq hopts) hrun

end Accepted

section Rerun

variable {bs T off : Nat} {sys : Files} {cs : List Call} {opts : Options}

end Rerun

theorem walks_sevens {b : Nat} (hb : b < 4) (n : Nat) :
    (sevens b).Walks 1024 1024 0 n ↔ n = b := by
  have hends : ∀ b < 4, tdbBlockNum 1024 (tdbOffset 1024 b 0) = b ∧
      tdbEndBlock 1024 (tdbOffset 1024 b 0) (tdbSize 1024 1) = b := by
    decide
  obtain ⟨hfirst, hlast⟩ := hends b hb
  show tdbBlockNum 1024 (tdbOffset 1024 b 0) ≤ n ∧
    n ≤ tdbEndBlock 1024 (tdbOffset 1024 b 0) (tdbSize 1024 1) ↔ n = b
  rw [hfirst, hlast]
  omega

theorem Ledger.Keeps.data_eq {bs T off size : Nat} {L : Ledger}
    (h : L.Keeps bs T off (zeroDevice size))
    {e : Extent} (he : e ∈ L.extents) : e.data = List.replicate e.data.length 0 := by
  rw [List.eq_replicate_iff]
  refine ⟨rfl, fun v hv => ?_⟩
  obtain ⟨k, hk⟩ := List.mem_iff_getElem?.mp hv
  exact h.content e he k v hk

def zeroBlock : Bytes :=
  List.replicate 1024 0

theorem length_zeroBlock : zeroBlock.length = 1024 :=
  List.length_replicate

theorem passOn_sevens {s : Files} (b : Nat) (hbs : s.real.blockSize = 1024)
    (hoff : s.real.offset = 0) (hrequests : s.requests = []) :
    (sevens b).passOn Files.realChannel s =
      (.ok, { s with
        real.file := s.real.file.pwrite (b * 1024) (List.replicate 1024 7)
        requests := [] }) := by
  have hfit : fit (transferSize s.real.blockSize 1) (List.replicate 1024 7) =
      List.replicate 1024 (7 : UInt8) :=
    fit_of_length (by rw [hbs, transferSize_block, List.length_replicate])
  have htake : (List.replicate 1024 (7 : UInt8)).take maxRwCount = List.replicate 1024 7 :=
    List.take_of_length_le (by rw [List.length_replicate]; decide)
  have hlimit : FileChannel.limit (s.requests.headD .ok) = some maxRwCount := by
    rw [hrequests]
    rfl
  show s.onReal (FileChannel.writeBlk64 · b 1 (List.replicate 1024 7)) = _
  unfold Files.onReal FileChannel.writeBlk64
  dsimp only
  rw [hlimit]
  dsimp only
  unfold FileChannel.writeUpTo FileChannel.place
  dsimp only
  rw [hfit, htake, if_pos rfl, hbs, hoff, hrequests, Nat.add_zero]
  rfl

/-- A write to a block that is new: the ledger has one extent more, if the block does not follow
another one. -/
theorem keeps_sevens {L : Ledger} {s : State Files} {b : Nat} (hb : b < 4)
    (h : Ready 1024 1024 0 L s) (hrequests : s.sys.requests = [])
    (hdevice : s.sys.real.file = L.device)
    (hkeeps : L.Keeps 1024 1024 0 (zeroDevice 4096)) (hsize : L.device.size = 4096)
    (hfresh : ¬ L.Marked 1024 1024 0 b)
    (hapart : ∀ e ∈ L.extents, b * 1024 ≠ e.fsblk * 1024 + e.data.length) :
    ∃ L' gs last, L'.Keeps 1024 1024 0 (zeroDevice 4096) ∧ L'.device.size = 4096 ∧
      L'.device = L.device.pwrite (b * 1024) (List.replicate 1024 7) ∧
      L'.extents = L.extents ++ [⟨b, zeroBlock⟩] ∧
      (∀ n, L'.Marked 1024 1024 0 n ↔ L.Marked 1024 1024 0 n ∨ n = b) ∧
      Tracks 1024 1024 0 L' gs last
        ((sevens b).run Files.realChannel Files.undoChannel s).2 ∧
      ((sevens b).run Files.realChannel Files.undoChannel s).2.sys.requests = [] := by
  have hundoable := @undoable_sevens [b] (by simp) (by simpa using hb)
  have hadmitted := (hundoable.inside (sevens b) (by simp)).admitted hundoable.sizes
    hundoable.blockSize_ge hundoable.whole hundoable.size_lt hundoable.offset_dvd trivial
    (hundoable.exact (sevens b) (by simp))
  have hlt : L.device.size < 2 ^ 63 := by
    rw [hsize]
    norm_num
  have hfits : (sevens b).Fits 1024 1024 0 L.device.size := by
    rw [hsize]
    exact hadmitted.fits
  obtain ⟨L', gs, last, hsaving, hmarked, hchanges, hkeeps', htracks⟩ :=
    h.keeps_run hlt hfits hkeeps (by norm_num) (dvd_zero _) hadmitted.covered
  obtain ⟨s', haside, hbs, hoff, hrun⟩ := h.run_inside hlt hfits (by
    intro n hn
    rw [(walks_sevens hb n).mp hn, hsize]
    omega)
  rw [passOn_sevens b hbs hoff (haside.requests.trans hrequests)] at hrun
  simp only [walks_sevens hb] at hmarked
  obtain ⟨backing, hplace, hsaves⟩ := (hsaving.one (by norm_num) hfresh hmarked).saves
    (by norm_num) hfresh (by rw [hsize]; omega)
  rw [Nat.zero_mod, Nat.add_zero, Nat.add_zero] at hplace
  rw [Nat.zero_mod, Nat.add_zero] at hsaves
  obtain rfl : backing = b := Nat.eq_of_mul_eq_mul_right (by norm_num) hplace
  have hextents := hsaves.eq_new hapart
  have hdata := hkeeps'.data_eq (e := ⟨backing, L.device.pread (backing * 1024) 1024⟩)
    (by rw [hextents]; simp)
  dsimp only at hdata
  rw [length_pread_of_le (by rw [hsize]; omega)] at hdata
  rw [hdata] at hextents
  refine ⟨L', gs, last, hkeeps', ?_, ?_, hextents, hmarked, htracks, by rw [hrun]⟩
  · rw [hchanges.size_eq (by rw [hsize]; exact hadmitted.inside), hsize]
  · rw [← htracks.device, hrun, ← hdevice, ← haside.real]

theorem extentsBlocks_eq_length {es : List Extent} (h : ∀ e ∈ es, e.data.length = 1024) :
    extentsBlocks 1024 es = es.length := by
  have hone : ∀ k ∈ es.map (Extent.blocks 1024), k = 1 := by
    intro k hk
    obtain ⟨e, he, rfl⟩ := List.mem_map.mp hk
    rw [Extent.blocks, h e he]
    rfl
  rw [extentsBlocks, List.sum_eq_card_nsmul _ 1 hone, List.length_map, smul_eq_mul, Nat.mul_one]

theorem Tracks.groups_lt_of_extents {L : Ledger} {gs : List (List Extent)} {last : List Extent}
    {s : State Files} (h : Tracks 1024 1024 0 L gs last s)
    (hone : ∀ e ∈ L.extents, e.data.length = 1024) (hfew : L.extents.length ≤ 2) :
    (2 + groupsBlocks 1024 (closedGroups gs last)) * 1024 < 2 ^ 63 := by
  have hle := h.groupsBlocks_le
  rw [extentsBlocks_eq_length hone] at hle
  omega

section Examples

theorem ready_zeroFiles :
    Ready 1024 1024 0 ⟨zeroDevice 4096, [], ∅⟩ (started 1024 1024 0 (zeroFiles 4096)) ∧
      (started 1024 1024 0 (zeroFiles 4096)).sys.requests = [] ∧
      (started 1024 1024 0 (zeroFiles 4096)).sys.real.file = zeroDevice 4096 ∧
      ∀ n, ¬ Ledger.Marked 1024 1024 0 ⟨zeroDevice 4096, [], ∅⟩ n := by
  have hundoable := @undoable_sevens [3] (by simp) (by decide)
  obtain ⟨hfresh, hreal, hrequests⟩ := fresh_started hundoable.sizes hundoable.blockSize_ge
    hundoable.quiet hundoable.undoOffset hundoable.hasSuper
  refine ⟨Or.inl ⟨hfresh, by rw [hreal]; rfl⟩, hrequests, hreal, fun n => ?_⟩
  simp [Ledger.Marked]

theorem closed_one_three :
    ∃ s L gs last, s.sys = closedFiles 1024 1024 0 (zeroFiles 4096) [sevens 1, sevens 3] ∧
      L.extents = [⟨1, zeroBlock⟩, ⟨3, zeroBlock⟩] ∧
      L.device = ((zeroDevice 4096).pwrite 1024 (List.replicate 1024 7)).pwrite 3072
        (List.replicate 1024 7) ∧
      Closed 1024 1024 0 (zeroDevice 4096) L gs last s := by
  obtain ⟨hready, hrequests, hreal, hnone⟩ := ready_zeroFiles
  obtain ⟨L₁, gs₁, last₁, hkeeps₁, hsize₁, hdevice₁, hextents₁, hmarked₁, htracks₁, hrequests₁⟩ :=
    keeps_sevens (b := 1) (by norm_num) hready hrequests hreal
      (Ledger.keeps_nil 1024 1024 0 (zeroDevice 4096)) rfl (hnone 1) (by simp)
  have hfresh₁ : ¬ L₁.Marked 1024 1024 0 3 := by
    rw [hmarked₁]
    exact not_or.mpr ⟨hnone 3, by norm_num⟩
  obtain ⟨L₂, gs₂, last₂, hkeeps₂, hsize₂, hdevice₂, hextents₂, -, htracks₂, -⟩ :=
    keeps_sevens (b := 3) (by norm_num) (Or.inr ⟨gs₁, last₁, htracks₁⟩) hrequests₁ htracks₁.device
      hkeeps₁ hsize₁ hfresh₁ (by
      intro e he
      rw [hextents₁] at he
      rw [List.mem_singleton.mp he, length_zeroBlock]
      norm_num)
  rw [hextents₁] at hextents₂
  rw [hdevice₁] at hdevice₂
  obtain ⟨-, hclosed⟩ := htracks₂.closed hkeeps₂ hsize₂ (by decide) (dvd_zero _)
    (htracks₂.groups_lt_of_extents (by simp [hextents₂, length_zeroBlock])
      (by simp [hextents₂]))
  exact ⟨_, L₂, gs₂, last₂, rfl, hextents₂, hdevice₂, hclosed⟩

end Examples

end Undo
end Rfsck
