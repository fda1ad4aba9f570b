import Rfsck.Redo.Accepted
import Rfsck.UnixIo.ReadYourWrites
import Rfsck.UnixIo.Sink

/-!
# No accepted write is lost

The two sinks of a channel that never needs the bounce buffer.

* `plainSink`: without redo logging a byte is stored when the device holds it.
* `loggedSink`: with redo logging a byte is stored when the last accepted `rfsck_write` that
  covers it has it, and the log holds the tag and the data of that write.

`unix_flush` returns the result of `rfsck_flush` when logging is on, so that it drops the
result of the write-backs; otherwise an error of a write-back is returned.
-/

namespace Rfsck
namespace UnixIo

open Storage
open Redo

section Plain

variable {d : Device}

/-- The file that a write at `l` leaves, whatever fails: parts of the data were written there,
and at last the whole of it if the write succeeded. -/
def Lands (l : Nat) (data : Bytes) (ok : Prop) (f f' : ByteFile) : Prop :=
  ∃ m n, f' = (f.pwrite l (data.take m)).pwrite l (data.take n) ∧ (ok → data.take n = data)

theorem file_llseek (w : World) (fd : Fd) : (llseek w).2.file fd = w.file fd := by
  unfold llseek
  split <;> rfl

theorem seekWrite_take (d : Device) (l : Nat) (data : Bytes) (w : World) :
    ∃ n, (seekWrite d l data w).2.file d.dev = (w.file d.dev).pwrite l (data.take n) ∧
      ((seekWrite d l data w).1 = .ok → data.take n = data) := by
  have hseek := file_llseek w d.dev
  unfold seekWrite
  generalize llseek w = r at hseek ⊢
  obtain ⟨b, w'⟩ := r
  dsimp only at hseek
  cases b with
  | false =>
      refine ⟨0, ?_, fun h => by cases h⟩
      rw [List.take_zero, ByteFile.pwrite_nil]
      exact hseek
  | true =>
      obtain ⟨n, hfile, hwhole⟩ := World.pwrite_take w' d.dev l data
      rw [hseek] at hfile
      dsimp only
      generalize w'.pwrite d.dev l data = r at hfile hwhole ⊢
      refine ⟨n, ?_, fun h => hwhole ?_⟩
      · split_ifs <;> exact hfile
      · by_contra hne
        split_ifs at h

theorem lands_seekWrite (d : Device) (l : Nat) (data : Bytes) (w : World) :
    Lands l data ((seekWrite d l data w).1 = .ok) (w.file d.dev)
      ((seekWrite d l data w).2.file d.dev) := by
  obtain ⟨n, hfile, hwhole⟩ := seekWrite_take d l data w
  refine ⟨0, n, ?_, hwhole⟩
  rw [List.take_zero, ByteFile.pwrite_nil]
  exact hfile

theorem lands_rawWriteBlk (hd : d.align = 0) (hbounce : d.forceBounce = false)
    (bs b : Nat) (count : Int) (buf : Buffer) (w : World) :
    Lands (place d.offset bs b) (buf.bytes (transferSize bs count))
      ((rawWriteBlk d bs b count buf w).1 = .ok) (w.file d.dev)
      ((rawWriteBlk d bs b count buf w).2.file d.dev) := by
  have hdirect := d.direct_of_align_zero hd buf.addr (transferSize bs count)
  unfold rawWriteBlk place
  dsimp only
  rw [if_neg (by simp [hbounce, hdirect])]
  obtain ⟨m, hfile, hwhole⟩ := World.pwrite_take w d.dev (b * bs + d.offset)
    (buf.bytes (transferSize bs count))
  generalize w.pwrite d.dev (b * bs + d.offset) (buf.bytes (transferSize bs count)) = r
    at hfile hwhole ⊢
  obtain ⟨actual, w'⟩ := r
  dsimp only at hfile hwhole ⊢
  by_cases hactual : actual = transferSize bs count
  · rw [if_pos hactual]
    refine ⟨0, m, ?_, fun _ => hwhole (by rw [hactual, Buffer.length_bytes])⟩
    rw [List.take_zero, ByteFile.pwrite_nil]
    exact hfile
  · rw [if_neg hactual]
    obtain ⟨n, hfile', hwhole'⟩ := seekWrite_take d (b * bs + d.offset)
      (buf.bytes (transferSize bs count)) w'
    rw [hfile] at hfile'
    exact ⟨m, n, hfile', hwhole'⟩

/-- The file holds a byte. -/
def ByteAt (f : ByteFile) (x : Nat) (v : UInt8) : Prop :=
  x < f.size ∧ f.byte x = v

instance ByteAt.decidable (f : ByteFile) (x : Nat) (v : UInt8) : Decidable (ByteAt f x v) :=
  inferInstanceAs (Decidable (x < f.size ∧ f.byte x = v))

theorem ByteAt.pwrite {f : ByteFile} {x : Nat} {v : UInt8} (h : ByteAt f x v) {l : Nat}
    {data : Bytes} {n : Nat} (hx : x < l ∨ l + data.length ≤ x) :
    ByteAt (f.pwrite l (data.take n)) x v := by
  have hlen := List.length_take_le n data
  have hlen' : (data.take n).length ≤ data.length := List.length_take_le' n data
  refine ⟨lt_of_lt_of_le h.1 (ByteFile.size_le_size_pwrite _ _ _), ?_⟩
  rw [ByteFile.byte_pwrite_of_outside _ (by omega)]
  exact h.2

theorem Lands.byteAt_of_outside {l x : Nat} {data : Bytes} {ok : Prop} {f f' : ByteFile}
    (h : Lands l data ok f f') {v : UInt8} (hbyte : ByteAt f x v)
    (hx : x < l ∨ l + data.length ≤ x) : ByteAt f' x v := by
  obtain ⟨m, n, rfl, -⟩ := h
  exact (hbyte.pwrite hx).pwrite hx

theorem Lands.byteAt_of_inside {l i : Nat} {data : Bytes} {ok : Prop} {f f' : ByteFile}
    (h : Lands l data ok f f') (hok : ok) {v : UInt8} (hv : data[i]? = some v) :
    ByteAt f' (l + i) v := by
  obtain ⟨m, n, rfl, hwhole⟩ := h
  rw [hwhole hok]
  exact ByteFile.holds_pwrite_self _ _ _ i v hv

theorem Buffer.getElem?_bytes (buf : Buffer) {n i : Nat} (hi : i < n) :
    (buf.bytes n)[i]? = some (buf.byte i) := by
  simp [Buffer.bytes, List.getElem?_range hi]

theorem rawSync_ok {retval : Errcode} {w : World} (h : (rawSync d retval w).1 = .ok) :
    retval = .ok := by
  unfold rawSync at h
  by_contra hne
  rw [if_pos hne] at h
  exact hne h

theorem file_rawSync (d : Device) (retval : Errcode) (w : World) (fd : Fd) :
    (rawSync d retval w).2.file fd = w.file fd := by
  unfold rawSync
  split_ifs
  · rfl
  · unfold World.fsync
    dsimp only
    cases w.nextOutcome with
    | ok => exact World.file_push _ _ _
    | fail => rfl
    | short n => rfl

theorem file_of_quiet {w w' : World} (h : Quiet w w') (fd : Fd) : w'.file fd = w.file fd := by
  obtain ⟨o, -, rfl⟩ := h
  rfl

/-- Without redo logging: the device. -/
def plainSink (d : Device) (hd : d.align = 0) (hbounce : d.forceBounce = false) :
    Sink (plain d) where
  offset := d.offset
  limit := maxRwCount
  masks := false
  arm os w := { w with outcomes := os }
  Good _ := True
  Calm w := w.outcomes = []
  Has s x v := ByteAt (s.sys.file d.dev) x v
  Reach _ := True
  Fits _ := True
  arm_good := fun h => h
  arm_calm := rfl
  arm_has := fun h => h
  readBlk_good := fun _ _ _ _ _ _ => trivial
  readBlk_calm := fun bs b count addr w h => by
    rw [show ((plain d).readBlk bs b count addr w).2 = w from
      (rawReadBlk_spec h bs b count addr).1]
    exact h
  readBlk_has := by
    intro bs b count addr s x v h
    change ByteAt ((rawReadBlk d bs b count addr s.sys).2.file d.dev) x v
    rw [file_of_quiet (quiet_rawReadBlk bs b count addr s.sys)]
    exact h
  writeBlk_good := fun _ _ _ _ _ _ => trivial
  writeBlk_calm := fun bs b count buf w h => (rawWriteBlk_spec h hd bs b count buf).1
  writeBlk_one := fun b data w h hle =>
    (rawWriteBlk_spec h hd _ b 1 (Buffer.ofBytes data)).2.1 rfl hle
  writeBlk_has := by
    intro bs b count buf s x v _ h hx
    refine (lands_rawWriteBlk hd hbounce bs b count buf s.sys).byteAt_of_outside h ?_
    rw [Buffer.length_bytes]
    exact hx
  writeBlk_ok := by
    intro bs b count buf s x _ hok _ _ hlo hhi
    have hbyte := (lands_rawWriteBlk hd hbounce bs b count buf s.sys).byteAt_of_inside hok
      (buf.getElem?_bytes (show x - place d.offset bs b < transferSize bs count by omega))
    rw [Nat.add_sub_cancel' hlo] at hbyte
    exact hbyte
  writeByte_good := fun _ _ _ _ => trivial
  writeByte_has := fun pos data s _ _ _ h hx =>
    (lands_seekWrite d (pos + d.offset) data s.sys).byteAt_of_outside h hx
  sync_good := fun _ _ _ => trivial
  sync_has := by
    intro e s x v _ h
    change ByteAt ((rawSync d e s.sys).2.file d.dev) x v
    rw [file_rawSync]
    exact h
  sync_ok := fun _ _ _ h => rawSync_ok h

end Plain

section Logged

variable {crc : Bytes → UInt32} {d : Device}

/-- The last accepted raw write that covers a byte has it, and is in the log. -/
def LoggedAt (crc : Bytes → UInt32) (s : Recorded Logging) (x : Nat) (v : UInt8) : Prop :=
  ∃ pre r post, s.writes = pre ++ r :: post ∧ r.retval = .ok ∧ r.Covers x ∧
    r.data[x - r.location]? = some v ∧ (∀ r' ∈ post, r'.retval = .ok → ¬ r'.Covers x) ∧
    ∃ req : WriteReq, req.offset.toNat = r.location ∧ req.buf = r.data ∧ InLog crc s.sys.redo req

theorem LoggedAt.keep {s s' : Recorded Logging} {x : Nat} {v : UInt8} (h : LoggedAt crc s x v)
    (hkeeps : ∀ req, InLog crc s.sys.redo req → InLog crc s'.sys.redo req)
    {rs : List RawWrite} (hwrites : s'.writes = s.writes ++ rs)
    (hrs : ∀ r ∈ rs, r.retval = .ok → ¬ r.Covers x) : LoggedAt crc s' x v := by
  obtain ⟨pre, r, post, hs, hok, hcovers, hv, hpost, req, hoffset, hbuf, hlog⟩ := h
  refine ⟨pre, r, post ++ rs, ?_, hok, hcovers, hv, ?_, req, hoffset, hbuf,
    hkeeps req hlog⟩
  · rw [hwrites, hs]
    simp
  · intro r' hr'
    rcases List.mem_append.mp hr' with hr' | hr'
    · exact hpost r' hr'
    · exact hrs r' hr'

theorem keepsLog_call (c : LogCall) (s : Logging) :
    KeepsLog crc s.redo (s.call crc c).2.redo := by
  cases c with
  | write location data => exact keepsLog_rfsckWrite (logRequest location data) s.redo
  | flush => exact keepsLog_rfsckFlush s.redo

theorem inLog_call {location : Nat} {data : Bytes} {s : Logging} (hs : s.redo.Placed)
    (hok : (s.call crc (.write location data)).1 = .ok) :
    InLog crc (s.call crc (.write location data)).2.redo (logRequest location data) := by
  refine inLog_rfsckWrite hs ?_
  by_contra hne
  have hcode : (s.call crc (.write location data)).1 =
      .redo (rfsckWrite crc (logRequest location data) s.redo).1 := if_neg hne
  rw [hcode] at hok
  cases hok

/-- The arguments of `rfsck_write` are those of the raw write where they fit its types. -/
theorem logRequest_spec {location : Nat} {data : Bytes} (hlocation : location < 2 ^ 64)
    (hdata : data.length < 2 ^ 32) :
    (logRequest location data).offset.toNat = location ∧
      (logRequest location data).buf = data := by
  constructor
  · exact UInt64.toNat_ofNat_of_lt' hlocation
  · change data.take (data.length % 2 ^ 32) = data
    rw [Nat.mod_eq_of_lt hdata, List.take_length]

theorem redoWriteBlk_eq (hd : d.align = 0) (hbounce : d.forceBounce = false) (bs b : Nat)
    (count : Int) (buf : Buffer) (s : Logging) :
    (logged crc d).writeBlk bs b count buf s =
      s.call crc (.write (place d.offset bs b) (buf.bytes (transferSize bs count))) :=
  @redoWriteBlk_direct crc d hbounce bs b count buf (d.direct_of_align_zero hd _ _) s

/-- With redo logging: the log. -/
def loggedSink (crc : Bytes → UInt32) (d : Device) (hd : d.align = 0)
    (hbounce : d.forceBounce = false) : Sink (logged crc d) where
  offset := d.offset
  limit := maxRwCount
  masks := true
  arm os s := { s with redo.world.outcomes := os }
  Good s := s.redo.Placed
  Calm s := s.redo.world.outcomes = []
  Has := LoggedAt crc
  Reach x := x < 2 ^ 64
  Fits n := n < 2 ^ 32
  arm_good := fun h => ⟨h.keyb_le, h.keysInBlock_lt⟩
  arm_calm := rfl
  arm_has := fun h => h
  readBlk_good := fun _ _ _ _ _ h => ⟨h.keyb_le, h.keysInBlock_lt⟩
  readBlk_calm := fun bs b count addr s h => by
    change (rawReadBlk d bs b count addr s.redo.world).2.outcomes = []
    rw [(rawReadBlk_spec h bs b count addr).1]
    exact h
  readBlk_has := by
    intro bs b count addr s x v h
    refine h.keep (fun req hreq => ?_) (List.append_nil _).symm
      (fun _ hr => absurd hr List.not_mem_nil)
    exact hreq.congr (file_of_quiet (quiet_rawReadBlk bs b count addr s.sys.redo.world) .redo) rfl
      (le_refl _) (le_refl _) fun _ _ => rfl
  writeBlk_good := by
    intro bs b count buf s h
    rw [redoWriteBlk_eq hd hbounce]
    exact (keepsLog_call _ s).placed h
  writeBlk_calm := by
    intro bs b count buf s h
    rw [redoWriteBlk_eq hd hbounce]
    exact s.outcomes_call _ h
  writeBlk_one := by
    intro bs b data s h hle
    rw [redoWriteBlk_eq hd hbounce]
    refine Logging.call_write_ok h ?_
    rw [Buffer.length_bytes, transferSize_one]
    exact hle
  writeBlk_has := by
    intro bs b count buf s x v hgood h hx
    refine h.keep (fun req hreq => ?_) rfl (fun r hr _ hcovers => ?_)
    · change InLog crc ((logged crc d).writeBlk bs b count buf s.sys).2.redo req
      rw [redoWriteBlk_eq hd hbounce]
      exact (keepsLog_call _ s.sys).inLog hgood req hreq
    · obtain rfl := List.mem_singleton.mp hr
      rw [RawWrite.Covers, Buffer.length_bytes] at hcovers
      dsimp only at hcovers
      omega
  writeBlk_ok := by
    intro bs b count buf s x hgood hok hreach hfits hlo hhi
    change ((logged crc d).writeBlk bs b count buf s.sys).1 = .ok at hok
    refine ⟨s.writes, ⟨place d.offset bs b, buf.bytes (transferSize bs count), _⟩, [], rfl, hok, ?_,
      ?_, fun _ hr => absurd hr List.not_mem_nil, logRequest (place d.offset bs b)
        (buf.bytes (transferSize bs count)), ?_⟩
    · rw [RawWrite.Covers, Buffer.length_bytes]
      exact ⟨hlo, hhi⟩
    · exact buf.getElem?_bytes (show x - place d.offset bs b < transferSize bs count by omega)
    · rw [redoWriteBlk_eq hd hbounce] at hok
      obtain ⟨hoffset, hbuf⟩ := @logRequest_spec (place d.offset bs b)
        (buf.bytes (transferSize bs count)) (lt_of_le_of_lt hlo hreach)
        (by rw [Buffer.length_bytes]; exact hfits)
      refine ⟨hoffset, hbuf, ?_⟩
      change InLog crc ((logged crc d).writeBlk bs b count buf s.sys).2.redo _
      rw [redoWriteBlk_eq hd hbounce]
      exact inLog_call hgood hok
  writeByte_good := fun pos data s h => (keepsLog_call _ s).placed h
  writeByte_has := by
    intro pos data s x v hgood h hx
    refine h.keep (keepsLog_call (.write (pos + d.offset) data) s.sys |>.inLog hgood) rfl
      (fun r hr _ hcovers => ?_)
    obtain rfl := List.mem_singleton.mp hr
    rw [RawWrite.Covers] at hcovers
    dsimp only at hcovers
    omega
  sync_good := fun _ s h => (keepsLog_call .flush s).placed h
  sync_has := fun _ s x v hgood h =>
    h.keep ((keepsLog_call .flush s.sys).inLog hgood) (List.append_nil _).symm
      (fun _ hr => absurd hr List.not_mem_nil)
  sync_ok := fun h => Bool.noConfusion h

end Logged

/-- The state behind a first `rfsck_open` has room for a tag and data behind its key block. -/
theorem placed_of_freshlyOpened {crc : Bytes → UInt32} {w : World} {s : State}
    (h : FreshlyOpened crc w s) : s.Placed := by
  have hwriter := h.session.1.writer
  constructor
  · rw [hwriter.redoBlockOffset_eq, hwriter.logOffset_eq]
    decide
  · rw [hwriter.keysInBlock_eq]
    decide

def keptWrites : List Step :=
  [⟨.setBlksize 1 Nat.one_pos, []⟩, ⟨.writeBlk64 false 0 1 ⟨0, fun _ => 7⟩, []⟩, ⟨.flush, []⟩]

theorem guards_keptWrites {σ : Type} {raw : Raw σ} (S : Sink raw) (s : Recorded σ)
    (hfits : S.Fits 1) (hlimit : 1 ≤ S.limit) :
    S.EachStep S.Guards keptWrites ⟨Channel.opened, s⟩ := by
  refine ⟨hfits, ⟨hfits, fun hdirect => ?_, fun _ _ _ => .inr ⟨rfl, hlimit⟩,
    fun _ _ h => Bool.noConfusion h⟩, fun _ => .inr ⟨rfl, hlimit⟩, trivial⟩
  exact absurd hdirect (by decide)

/-- Nine blocks are written, and the write-back of the first fails when the ninth takes its
slot. -/
def lostWrites : List Step :=
  [⟨.setBlksize 1 Nat.one_pos, []⟩, ⟨.writeBlk64 false 0 4 ⟨0, fun _ => 7⟩, []⟩,
    ⟨.writeBlk64 false 4 4 ⟨0, fun _ => 7⟩, []⟩,
    ⟨.writeBlk64 false 8 1 ⟨0, fun _ => 7⟩, [.fail, .fail]⟩, ⟨.flush, []⟩]

end UnixIo
end Rfsck
