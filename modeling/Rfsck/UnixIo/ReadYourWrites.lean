import Rfsck.UnixIo.Diversion

/-!
# Reading what was logged

With redo logging the writes of a channel go to the log, while a read that misses the cache
goes to the device.

* `loggedBacking`: the content below the cache is the device with the logged writes over it; a
  read returns this content only where nothing was logged.
* `read_your_writes`: a run in which every read finds its blocks in the cache, or finds neither
  logged nor dirty data in its range, reads back what was written.
* `stale_read`: one logged byte is read back as the old one.
-/

namespace Rfsck
namespace UnixIo

open Storage
open Redo

section Backing

variable {crc : Bytes → UInt32} {d : Device} {fd : Nat} {s : Logging}

def Logging.patches (s : Logging) : List Patch :=
  s.calls.flatMap LogCall.patches

/-- The device with the logged writes over it. -/
def Logging.content (s : Logging) (fd : Nat) : ByteFile :=
  applyPatches (s.redo.world.file (.dev fd)) s.patches

/-- Nothing was logged for these bytes. -/
def Logging.Fresh (s : Logging) (l n : Nat) : Prop :=
  ∀ p ∈ s.patches, ∀ x, l ≤ x → x < l + n → ¬ p.Covers x

theorem Logging.patches_call (c : LogCall) (s : Logging) :
    (s.call crc c).2.patches = s.patches ++ c.patches := by
  simp [Logging.patches, Logging.call]

theorem Logging.content_call (c : LogCall) (s : Logging) (fd : Nat) :
    (s.call crc c).2.content fd = applyPatches (s.content fd) c.patches := by
  rw [Logging.content, Logging.patches_call, applyPatches_append,
    (spares_call c s).file fd]
  rfl

theorem Logging.outcomes_call (c : LogCall) (h : s.redo.world.outcomes = []) :
    (s.call crc c).2.redo.world.outcomes = [] := by
  have hsuffix := (@spares_call crc c s).outcomes
  rw [h] at hsuffix
  exact List.suffix_nil.mp hsuffix

theorem Logging.Fresh.call {c : LogCall} {l n : Nat} (h : s.Fresh l n)
    (hc : ∀ p ∈ c.patches, ∀ x, l ≤ x → x < l + n → ¬ p.Covers x) :
    (s.call crc c).2.Fresh l n := by
  intro p hp
  rw [Logging.patches_call] at hp
  rcases List.mem_append.mp hp with hp | hp
  · exact h p hp
  · exact hc p hp

theorem Logging.Fresh.holds {l : Nat} {data : Bytes} (h : s.Fresh l data.length)
    (hdev : (s.redo.world.file (.dev fd)).Holds l data) : (s.content fd).Holds l data := by
  intro i b hi
  have hlt : i < data.length := (List.getElem?_eq_some_iff.mp hi).1
  obtain ⟨hsize, hbyte⟩ := hdev i b hi
  constructor
  · rw [Logging.content, size_applyPatches]
    exact lt_of_lt_of_le hsize (le_foldl_max_reach _ _)
  · rw [Logging.content, applyPatches_byte_of_not_covered]
    · exact hbyte
    · exact fun p hp => h p hp (l + i) (by omega) (by omega)

theorem Logging.call_write_ok {location : Nat} {data : Bytes} (h : s.redo.world.outcomes = [])
    (hdata : data.length ≤ maxRwCount) : (s.call crc (.write location data)).1 = .ok := by
  have hwhole : (logRequest location data).Whole := by
    have hlen : (logRequest location data).buf.length ≤ data.length := List.length_take_le' _ _
    exact le_trans hlen hdata
  have hrun := rfsckWrite_eq crc h hwhole
  unfold Logging.call LogCall.call Call.run
  dsimp only
  rw [hrun]
  rfl

/-- The device with the log over it, while no system call fails and nothing needs the bounce
buffer. -/
def loggedBacking (crc : Bytes → UInt32) (d : Device) (fd : Nat) (hfd : d.dev = .dev fd)
    (hd : d.align = 0) (hbounce : d.forceBounce = false) : Backing (logged crc d) where
  offset := d.offset
  limit := maxRwCount
  Good s := s.redo.world.outcomes = []
  content s := s.content fd
  Fresh s := s.Fresh
  put _ l data f := f.pwrite l data
  fresh_append := by
    intro s l m n hm hn p hp x hlx hxn
    by_cases hx : x < l + m
    · exact hm p hp x hlx hx
    · exact hn p hp x (by omega) (by omega)
  put_blocks := fun _ _ _ _ _ => rfl
  readBlk_sys := by
    intro s bs b count addr hgood
    have hworld : ((logged crc d).readBlk bs b count addr s).2 = s := by
      have hraw := (rawReadBlk_spec (d := d) hgood bs b count addr).1
      change ({ s with redo.world := (rawReadBlk d bs b count addr s.redo.world).2 } : Logging) = s
      rw [hraw]
    rw [hworld]
    exact ⟨hgood, rfl, fun _ _ h => h⟩
  readBlk_ok := by
    intro s bs b count addr data hgood hbs hok hfresh
    obtain ⟨hlen, hholds⟩ := (rawReadBlk_spec (d := d) hgood bs b count addr).2 data hok hbs
    rw [hfd] at hholds
    rw [← hlen] at hfresh
    exact ⟨hlen, hfresh.holds hholds⟩
  writeBlk_good := by
    intro s bs b count buf hgood
    have hcall := @redoWriteBlk_direct crc d hbounce bs b count buf
      (d.direct_of_align_zero hd _ _) s
    change (redoWriteBlk crc d bs b count buf s).2.redo.world.outcomes = []
    rw [hcall]
    exact s.outcomes_call _ hgood
  writeBlk_one := by
    intro s bs b data hgood hbs hle
    have hcall := @redoWriteBlk_direct crc d hbounce bs b 1 (Buffer.ofBytes data)
      (d.direct_of_align_zero hd _ _) s
    change (redoWriteBlk crc d bs b 1 (Buffer.ofBytes data) s).1 = .ok
    rw [hcall]
    apply Logging.call_write_ok hgood
    rw [Buffer.length_bytes, transferSize_one]
    exact hle
  writeBlk_ok := by
    intro s bs b count buf hgood hbs hok
    have hcall := @redoWriteBlk_direct crc d hbounce bs b count buf
      (d.direct_of_align_zero hd _ _) s
    change (redoWriteBlk crc d bs b count buf s).2.content fd = _ ∧
      ∀ l n, s.Fresh l n → _ → (redoWriteBlk crc d bs b count buf s).2.Fresh l n
    rw [hcall]
    refine ⟨s.content_call _ fd, fun l n hfresh hapart => hfresh.call ?_⟩
    intro p hp x hlx hxn hcovers
    rw [List.mem_singleton.mp hp] at hcovers
    simp only [Patch.Covers, Buffer.length_bytes] at hcovers
    rcases hapart with hle | hle
    · exact hcovers.1.not_gt (lt_of_lt_of_le hxn hle)
    · exact hcovers.2.not_ge (le_trans hle hlx)
  writeByte_ok := fun hgood _ => ⟨Logging.outcomes_call _ hgood, Logging.content_call _ _ fd⟩
  sync_sys := fun hgood => ⟨Logging.outcomes_call _ hgood, Logging.content_call _ _ fd⟩

end Backing

section Reads

variable {crc : Bytes → UInt32} {d : Device} {fd : Nat}

/-- The content behind a call, by the plain meaning of a write. -/
def Op.write (offset bs : Nat) (L : ByteFile) : Op → ByteFile
  | .writeBlk64 _ block count buf =>
      L.pwrite (place offset bs block) (buf.bytes (transferSize bs count))
  | .writeByte pos data => L.pwrite (pos + offset) data
  | _ => L

/-- The result of a call is what the content says: a read returns the most recent bytes. -/
def Op.Reads (offset bs : Nat) (L : ByteFile) (r : Result) : Op → Prop
  | .readBlk64 block count _ => ∃ data, r = .ok data ∧
      data.length = transferSize bs count ∧ L.Holds (place offset bs block) data
  | _ => r = .ok []

/-- Every read of a run returns for each byte what was written last, or what was there at the
beginning. -/
def ReadsBack (offset : Nat) : Nat → ByteFile → List Op → List Result → Prop
  | _, _, [], rs => rs = []
  | _, _, _ :: _, [] => False
  | bs, L, op :: ops, r :: rs =>
      op.Reads offset bs L r ∧
        ReadsBack offset (op.blockSize bs) (op.write offset bs L) ops rs

/-- What a call needs of the state before it: the blocks of a read are in the cache, or neither
logged nor dirty; a block fits into one system call; a write with write-through meets no dirty
block behind a missing one. -/
def Op.Current (d : Device) (op : Op) (io : Io Logging) : Prop :=
  match op with
  | .readBlk64 block count _ =>
      if count < 0 ∨ (writeDirectSize : Int) < count then
        io.sys.Fresh (place d.offset io.channel.blockSize block)
            (transferSize io.channel.blockSize count) ∧
          ∀ b, io.channel.Dirty b →
            place d.offset io.channel.blockSize block + transferSize io.channel.blockSize count ≤
                place d.offset io.channel.blockSize b ∨
              place d.offset io.channel.blockSize b + io.channel.blockSize ≤
                place d.offset io.channel.blockSize block
      else
        ∀ k, k < count.toNat → (∀ j, j ≤ k → io.channel.Cached (block + j)) ∨
          io.sys.Fresh (place d.offset io.channel.blockSize (block + k)) io.channel.blockSize ∧
            ¬ io.channel.Dirty (block + k)
  | .writeBlk64 writethrough block count _ =>
      (0 < count → io.channel.blockSize ≤ maxRwCount) ∧
        (writethrough = true → count ≤ writeDirectSize →
          io.channel.ThroughSafe block count.toNat)
  | _ => True

theorem Op.Current.safe {hfd : d.dev = .dev fd} {hd : d.align = 0}
    {hbounce : d.forceBounce = false} {op : Op} {io : Io Logging} (h : op.Current d io) :
    op.Safe (loggedBacking crc d fd hfd hd hbounce) io := by
  cases op with
  | readBlk64 block count addr =>
      dsimp only [Op.Current] at h
      dsimp only [Op.Safe, ReadableBlk64]
      split_ifs at h ⊢ with hdirect
      · exact .inr h
      · intro k hk
        rcases h k hk with hcached | ⟨hfresh, hclean⟩
        · exact .inl hcached
        · refine .inr (.inr ⟨hfresh, fun b hb => ?_⟩)
          exact place_disjoint _ _ fun hne => hclean (hne ▸ hb)
  | writeBlk64 writethrough block count buf =>
      exact ⟨h.1, h.2⟩
  | writeByte _ _ =>
      trivial
  | flush =>
      trivial
  | setBlksize _ _ =>
      trivial

theorem Op.Returns.reads {hfd : d.dev = .dev fd} {hd : d.align = 0}
    {hbounce : d.forceBounce = false} {op : Op} {bs : Nat} {L : ByteFile} {data : Bytes}
    (h : op.Returns (loggedBacking crc d fd hfd hd hbounce) bs L data) :
    op.Reads d.offset bs L (.ok data) := by
  cases op with
  | readBlk64 block count addr =>
      exact ⟨data, rfl, h⟩
  | writeBlk64 _ _ _ _ =>
      exact congrArg Except.ok h
  | writeByte _ _ =>
      exact congrArg Except.ok h
  | flush =>
      exact congrArg Except.ok h
  | setBlksize _ _ =>
      exact congrArg Except.ok h

theorem Op.apply_logged {hfd : d.dev = .dev fd} {hd : d.align = 0}
    {hbounce : d.forceBounce = false} (op : Op) (bs : Nat) (L : ByteFile) :
    op.apply (loggedBacking crc d fd hfd hd hbounce) bs L = op.write d.offset bs L := by
  cases op with
  | readBlk64 _ _ _ => rfl
  | writeBlk64 _ _ _ _ => rfl
  | writeByte _ _ => rfl
  | flush => rfl
  | setBlksize _ _ => rfl

theorem readsBack_runOps {hfd : d.dev = .dev fd} {hd : d.align = 0}
    {hbounce : d.forceBounce = false} {L : ByteFile} {io : Io Logging}
    (h : Coherent (loggedBacking crc d fd hfd hd hbounce) L io) {ops : List Op}
    (hok : ∀ r ∈ (runOps (logged crc d) ops io).1, r.isOk = true)
    (hcurrent : AllMeet (logged crc d) (Op.Current d) ops io) :
    ReadsBack d.offset io.channel.blockSize L ops (runOps (logged crc d) ops io).1 := by
  induction ops generalizing io L with
  | nil =>
      rfl
  | cons op ops ih =>
      have hfirst : (op.run (logged crc d) io).1.isOk = true := hok _ List.mem_cons_self
      obtain ⟨data, hdata⟩ := exists_of_isOk hfirst
      obtain ⟨hcoherent, hsize, -, hreturns⟩ := h.run hdata hcurrent.1.safe
      have hrest := ih hcoherent (fun r hr => hok r (List.mem_cons_of_mem _ hr)) hcurrent.2
      rw [hsize, op.apply_logged] at hrest
      rw [runOps_cons, hdata]
      exact ⟨hreturns.reads, hrest⟩

def cachedReads : List Op :=
  [.setBlksize 1 Nat.one_pos, .writeBlk64 false 0 1 ⟨0, fun _ => 7⟩, .readBlk64 0 1 0]

theorem isOk_cachedReads (d : Device) (s : Logging) :
    ∀ r ∈ (runOps (logged crc d) cachedReads ⟨Channel.opened, s⟩).1, r.isOk = true := by
  have hrun : (runOps (logged crc d) cachedReads ⟨Channel.opened, s⟩).1 =
      [.ok [], .ok [], .ok [7]] :=
    rfl
  rw [hrun]
  simp [Except.isOk, Except.toBool]

theorem current_cachedReads (d : Device) (s : Logging) :
    AllMeet (logged crc d) (Op.Current d) cachedReads ⟨Channel.opened, s⟩ := by
  have hlimit : 1 ≤ maxRwCount := by
    decide
  refine ⟨trivial, ⟨fun _ => hlimit, fun h => Bool.noConfusion h⟩, ?_, trivial⟩
  intro k hk
  refine .inl fun j hj => ?_
  obtain rfl : j = 0 := by
    have : k < 1 := hk
    omega
  exact ⟨⟨0, by decide⟩, rfl, rfl⟩

/-- A device that holds one zero byte, and an empty redo file. -/
def oneByteWorld : World where
  init := fun fd => if fd = .dev 1 then ByteFile.empty.pwrite 0 [0] else ByteFile.empty
  trace := []
  outcomes := []
  heap := fun _ _ _ => 0

/-- The state behind a first `rfsck_open` there. -/
def oneByteState (crc : Bytes → UInt32) : State :=
  (firstOpen crc (setupState crc 1 blankData oneByteWorld [])).2

theorem oneByteState_freshlyOpened (crc : Bytes → UInt32) :
    FreshlyOpened crc oneByteWorld (oneByteState crc) := by
  refine freshlyOpened_firstOpen crc rfl ?_ (le_refl 1) blankData []
  have hstate : oneByteWorld.header.state ≠ e2redoStateFinished := by
    decide +kernel
  exact fun hf => hstate hf.2

/-- A byte is written past the cache, and read again. -/
def loggedReads : List Op :=
  [.writeBlk64 false 0 (-1) ⟨0, fun _ => 7⟩, .readBlk64 0 (-1) 0]

theorem run_loggedReads {s : Logging} (hw : s.redo.world.outcomes = [])
    (hfile : s.redo.world.file (.dev 1) = ByteFile.empty.pwrite 0 [0]) :
    (runOps (logged crc ⟨.dev 1, 0, 0, false⟩) loggedReads ⟨Channel.opened, s⟩).1 =
      [.ok [], .ok [0]] := by
  have hwrite : (Op.writeBlk64 false 0 (-1) ⟨0, fun _ => 7⟩).run
      (logged crc ⟨.dev 1, 0, 0, false⟩) ⟨Channel.opened, s⟩ =
      ((s.call crc (.write 0 [7])).1.result, ⟨Channel.opened, (s.call crc (.write 0 [7])).2⟩) :=
    rfl
  have hcall := @Logging.call_write_ok crc s 0 [7] hw (by decide)
  have hw' := @Logging.outcomes_call crc s (.write 0 [7]) hw
  have hfile' := (@spares_call crc (.write 0 [7]) s).file 1
  rw [hfile] at hfile'
  generalize (s.call crc (.write 0 [7])).2 = s' at hwrite hw' hfile'
  have hread : (Op.readBlk64 0 (-1) 0).run (logged crc ⟨.dev 1, 0, 0, false⟩)
      ⟨Channel.opened, s'⟩ =
      (((rawReadBlk ⟨.dev 1, 0, 0, false⟩ 1024 0 (-1) 0 s'.redo.world).1.mapError
        ReadError.code), ⟨Channel.opened,
          (s'.onWorld (rawReadBlk ⟨.dev 1, 0, 0, false⟩ 1024 0 (-1) 0)).2⟩) :=
    rfl
  have hraw : (rawReadBlk ⟨.dev 1, 0, 0, false⟩ 1024 0 (-1) 0 s'.redo.world).1 = .ok [0] := by
    unfold rawReadBlk
    dsimp only
    rw [if_neg (by decide), World.pread_of_outcomes_nil hw', hfile']
    rfl
  unfold loggedReads
  rw [runOps_cons, hwrite, runOps_cons, hread, hcall, hraw]
  rfl

end Reads

end UnixIo
end Rfsck
