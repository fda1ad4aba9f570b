import Rfsck.Redo.Opening
import Rfsck.UnixIo.WriteThrough

/-!
# The cache is transparent

Without redo logging a channel is compared with the same functions compiled with
`NO_IO_CACHE`, call by call.

* `plainBacking`: what the raw functions do to the device while no system call fails.
* `cache_transparent`: both builds return the same, as long as no write with write-through
  meets a dirty block behind one that is not in the cache.
-/

namespace Rfsck
namespace UnixIo

open Storage
open Redo

section Raw

variable {w : World} {d : Device}

theorem llseek_of_outcomes_nil (h : w.outcomes = []) : llseek w = (true, w) := by
  simp [llseek, World.nextOutcome_of_outcomes_nil h, World.advance_of_outcomes_nil h]

theorem holds_of_full {f : ByteFile} {l n m : Nat} (h : (f.pread l (min n m)).length = n) :
    f.Holds l (f.pread l (min n m)) := by
  have hle := ByteFile.length_pread_le f l (min n m)
  exact ByteFile.holds_of_pread (by omega)

theorem bounceRead_spec
    (h : w.outcomes = []) (bs n l size reallyRead : Nat) :
    (bounceRead d bs n l size reallyRead w).2 = w ∧
      ∀ data, (bounceRead d bs n l size reallyRead w).1 = .ok data → size ≤ n * bs →
        data.length = size ∧ (w.file d.dev).Holds l data := by
  induction n generalizing l size reallyRead with
  | zero =>
      refine ⟨rfl, fun data hd hsize => ?_⟩
      cases hd
      exact ⟨by simp; omega, ByteFile.holds_nil _ _⟩
  | succ n ih =>
      unfold bounceRead
      rw [World.pread_of_outcomes_nil h]
      dsimp only
      by_cases hshort : ((w.file d.dev).pread l (min bs maxRwCount)).length ≠ bs
      · rw [if_pos hshort]
        exact ⟨rfl, fun data hd => by cases hd⟩
      rw [if_neg hshort]
      rw [not_not] at hshort
      have hblock := holds_of_full hshort
      generalize (w.file d.dev).pread l (min bs maxRwCount) = block at hshort hblock ⊢
      obtain ⟨hworld, hrest⟩ := ih (l + bs) (size - bs) (reallyRead + (block.take size).length)
      generalize bounceRead d bs n (l + bs) (size - bs) (reallyRead + (block.take size).length)
        w = r at hworld hrest ⊢
      obtain ⟨rest, w'⟩ := r
      refine ⟨hworld, fun data hd hsize => ?_⟩
      cases rest with
      | error e =>
          cases hd
      | ok tail =>
          cases hd
          rw [Nat.succ_mul] at hsize
          obtain ⟨hlen, hholds⟩ := hrest tail rfl (by omega)
          have htake : (block.take size).length = min size bs := by
            rw [List.length_take, hshort]
          rw [← List.take_append_drop size block, ByteFile.holds_append] at hblock
          constructor
          · rw [List.length_append, htake, hlen]
            omega
          · rw [ByteFile.holds_append, htake]
            refine ⟨hblock.1, ?_⟩
            by_cases hlast : size ≤ bs
            · have hnil : tail = [] := List.eq_nil_of_length_eq_zero (by omega)
              rw [hnil]
              exact ByteFile.holds_nil _ _
            · rw [show min size bs = bs by omega]
              exact hholds

theorem le_blocksOf_mul {bs : Nat} (hbs : 0 < bs) (size : Nat) :
    size ≤ blocksOf bs size * bs := by
  have hdiv := Nat.div_add_mod (size + bs - 1) bs
  have hmod := Nat.mod_lt (size + bs - 1) hbs
  unfold blocksOf
  rw [Nat.mul_comm] at hdiv
  omega

/-- The attempt with `read` cannot do better, but it may do as well. -/
theorem seekRead_spec (h : w.outcomes = []) (l size : Nat) :
    (seekRead d l size w).2 = w ∧
      ∀ data, (seekRead d l size w).1 = .ok data →
        data.length = size ∧ (w.file d.dev).Holds l data := by
  unfold seekRead
  rw [llseek_of_outcomes_nil h]
  dsimp only
  rw [World.pread_of_outcomes_nil h]
  dsimp only
  by_cases hshort : ((w.file d.dev).pread l (min size maxRwCount)).length ≠ size
  · rw [if_pos hshort]
    exact ⟨rfl, fun data hd => by cases hd⟩
  · rw [if_neg hshort]
    rw [not_not] at hshort
    refine ⟨rfl, fun data hd => ?_⟩
    cases hd
    exact ⟨hshort, holds_of_full hshort⟩

/-- **`raw_read_blk`** returns bytes of the device. -/
theorem rawReadBlk_spec
    (h : w.outcomes = []) (bs b : Nat) (count : Int) (addr : Nat) :
    (rawReadBlk d bs b count addr w).2 = w ∧
      ∀ data, (rawReadBlk d bs b count addr w).1 = .ok data → 0 < bs →
        data.length = transferSize bs count ∧
          (w.file d.dev).Holds (place d.offset bs b) data := by
  unfold rawReadBlk
  dsimp only
  by_cases hbounce : (d.forceBounce || !d.direct addr (transferSize bs count)) = true
  · rw [if_pos hbounce, llseek_of_outcomes_nil h]
    obtain ⟨hworld, hdata⟩ := bounceRead_spec (d := d) h bs
      (blocksOf bs (transferSize bs count)) (place d.offset bs b) (transferSize bs count) 0
    exact ⟨hworld, fun data hd hbs => hdata data hd (le_blocksOf_mul hbs _)⟩
  · rw [if_neg hbounce, World.pread_of_outcomes_nil h]
    dsimp only
    by_cases hfull : ((w.file d.dev).pread (b * bs + d.offset)
        (min (transferSize bs count) maxRwCount)).length = transferSize bs count
    · rw [if_pos hfull]
      refine ⟨rfl, fun data hd _ => ?_⟩
      cases hd
      exact ⟨hfull, holds_of_full hfull⟩
    · rw [if_neg hfull]
      obtain ⟨hworld, hdata⟩ := seekRead_spec (d := d) h (b * bs + d.offset)
        (transferSize bs count)
      exact ⟨hworld, fun data hd _ => hdata data hd⟩

/-- The content of the bounce buffer. -/
def bounced (bs l : Nat) (data : Bytes) (f : ByteFile) : Bytes :=
  if data.length < bs then
    data ++ (fit bs (f.pread l bs)).drop data.length
  else
    data.take bs

/-- The effect of a write through the bounce buffer. -/
def bouncePut (bs : Nat) : Nat → Nat → Bytes → ByteFile → ByteFile
  | 0, _, _, f => f
  | n + 1, l, data, f =>
      bouncePut bs n (l + bs) (data.drop bs) (f.pwrite l (bounced bs l data f))

theorem blocksOf_mul {bs : Nat} (hbs : 0 < bs) (n : Nat) : blocksOf bs (n * bs) = n := by
  unfold blocksOf
  rw [Nat.add_sub_assoc hbs, Nat.add_comm, Nat.add_mul_div_right _ _ hbs,
    Nat.div_eq_of_lt (by omega), Nat.zero_add]

theorem bouncePut_blocks {bs : Nat} (n l : Nat) {data : Bytes} (hdata : data.length = n * bs)
    (f : ByteFile) : bouncePut bs n l data f = f.pwrite l data := by
  induction n generalizing l data f with
  | zero =>
      have hnil : data = [] := List.eq_nil_of_length_eq_zero (by omega)
      rw [hnil, ByteFile.pwrite_nil]
      rfl
  | succ n ih =>
      rw [Nat.succ_mul] at hdata
      have hblock : bounced bs l data f = data.take bs := if_neg (by omega)
      have htake : (data.take bs).length = bs := by
        rw [List.length_take]
        omega
      rw [bouncePut, hblock, ih (l + bs) (by rw [List.length_drop]; omega)]
      conv_rhs => rw [← List.take_append_drop bs data, ByteFile.pwrite_append, htake]

theorem length_bounced (bs l : Nat) (data : Bytes) (f : ByteFile) :
    (bounced bs l data f).length = bs := by
  unfold bounced
  split_ifs with h
  · rw [List.length_append, List.length_drop, length_fit]
    omega
  · rw [List.length_take]
    omega

theorem bounceBlock_eq (h : w.outcomes = []) {bs : Nat} (hbs : bs ≤ maxRwCount) (l : Nat)
    (data : Bytes) :
    bounceBlock d bs l data w = (some (bounced bs l data (w.file d.dev)), w) := by
  unfold bounceBlock bounced
  split_ifs
  · rw [World.pread_of_outcomes_nil h, Nat.min_eq_left hbs]
  · rfl

theorem bounceBlock_length (h : w.outcomes = []) (bs l : Nat) (data : Bytes) :
    ∃ block, bounceBlock d bs l data w = (some block, w) ∧ block.length = bs := by
  unfold bounceBlock
  split_ifs with hlt
  · rw [World.pread_of_outcomes_nil h]
    refine ⟨_, rfl, ?_⟩
    rw [List.length_append, List.length_drop, length_fit]
    omega
  · refine ⟨_, rfl, ?_⟩
    rw [List.length_take]
    omega

theorem pwrite_whole (h : w.outcomes = []) (fd : Fd) (l : Nat) {data : Bytes}
    (hdata : data.length ≤ maxRwCount) :
    w.pwrite fd l data = ((data.length : Int), w.push (.pwrite fd l data)) := by
  rw [World.pwrite_of_outcomes_nil h, List.take_of_length_le hdata]

theorem pwrite_cut (h : w.outcomes = []) (fd : Fd) (l : Nat) {data : Bytes}
    (hdata : maxRwCount < data.length) :
    w.pwrite fd l data = ((maxRwCount : Int), w.push (.pwrite fd l (data.take maxRwCount))) := by
  rw [World.pwrite_of_outcomes_nil h, List.length_take, Nat.min_eq_left (le_of_lt hdata)]

theorem bounceWrite_spec (h : w.outcomes = []) (bs n l : Nat) (data : Bytes) :
    (bounceWrite d bs n l data w).2.outcomes = [] ∧
      (bs ≤ maxRwCount → (bounceWrite d bs n l data w).1 = .ok) ∧
      ((bounceWrite d bs n l data w).1 = .ok →
        (bounceWrite d bs n l data w).2.file d.dev = bouncePut bs n l data (w.file d.dev) ∧
          (0 < n → bs ≤ maxRwCount)) := by
  induction n generalizing w l data with
  | zero =>
      exact ⟨h, fun _ => rfl, fun _ => ⟨rfl, fun hn => absurd hn (Nat.lt_irrefl 0)⟩⟩
  | succ n ih =>
      unfold bounceWrite
      by_cases hbs : bs ≤ maxRwCount
      · have hlen := length_bounced bs l data (w.file d.dev)
        rw [bounceBlock_eq h hbs]
        dsimp only
        rw [llseek_of_outcomes_nil h]
        dsimp only
        rw [pwrite_whole h _ _ (by omega), hlen]
        dsimp only
        rw [if_neg (by omega), if_neg (by simp)]
        have hrest := ih (w := w.push (.pwrite d.dev l (bounced bs l data (w.file d.dev)))) h
          (l + bs) (data.drop bs)
        rw [World.file_push, applyEvent_pwrite_self] at hrest
        exact ⟨hrest.1, hrest.2.1, fun hok => ⟨(hrest.2.2 hok).1, fun _ => hbs⟩⟩
      · obtain ⟨block, hblock, hlen⟩ := bounceBlock_length (d := d) h bs l data
        rw [hblock]
        dsimp only
        rw [llseek_of_outcomes_nil h]
        dsimp only
        rw [pwrite_cut h _ _ (by omega)]
        dsimp only
        rw [if_neg (by omega), if_pos (by omega)]
        exact ⟨h, fun hle => absurd hle hbs, fun hok => by cases hok⟩

/-- The attempt with `write`. -/
theorem seekWrite_spec (h : w.outcomes = []) (l : Nat) (data : Bytes) :
    (seekWrite d l data w).2.outcomes = [] ∧
      ((seekWrite d l data w).1 = .ok →
        (seekWrite d l data w).2.file d.dev = (w.file d.dev).pwrite l data ∧
          data.length ≤ maxRwCount) := by
  unfold seekWrite
  rw [llseek_of_outcomes_nil h]
  dsimp only
  by_cases hdata : data.length ≤ maxRwCount
  · rw [pwrite_whole h _ _ hdata]
    dsimp only
    rw [if_neg (by omega), if_neg (by simp)]
    refine ⟨h, fun _ => ⟨?_, hdata⟩⟩
    rw [World.file_push, applyEvent_pwrite_self]
  · rw [pwrite_cut h _ _ (by omega)]
    dsimp only
    rw [if_neg (by omega), if_pos (by omega)]
    exact ⟨h, fun hok => by cases hok⟩

/-- The effect of `raw_write_blk` on a device without alignment. -/
def rawPut (d : Device) (bs l : Nat) (data : Bytes) (f : ByteFile) : ByteFile :=
  if d.forceBounce then
    bouncePut bs (blocksOf bs data.length) l data f
  else
    f.pwrite l data

/-- **`raw_write_blk`** on a device without alignment. -/
theorem rawWriteBlk_spec
    (h : w.outcomes = []) (hd : d.align = 0) (bs b : Nat) (count : Int) (buf : Buffer) :
    (rawWriteBlk d bs b count buf w).2.outcomes = [] ∧
      (count = 1 → bs ≤ maxRwCount → (rawWriteBlk d bs b count buf w).1 = .ok) ∧
      ((rawWriteBlk d bs b count buf w).1 = .ok →
        (rawWriteBlk d bs b count buf w).2.file d.dev =
            rawPut d bs (place d.offset bs b) (buf.bytes (transferSize bs count))
              (w.file d.dev) ∧
          (0 < bs → 0 < count → bs ≤ maxRwCount)) := by
  have hdirect : d.direct buf.addr (transferSize bs count) = true := by
    simp [Device.direct, hd]
  have hle : 0 < count → bs ≤ transferSize bs count := by
    intro hcount
    rw [transferSize, if_neg (by omega)]
    exact Nat.le_mul_of_pos_left bs (by omega)
  unfold rawWriteBlk rawPut
  dsimp only
  rw [hdirect, Bool.not_true, Bool.or_false]
  cases hbounce : d.forceBounce with
  | true =>
      rw [if_pos rfl, if_pos rfl, rawBounceWrite, llseek_of_outcomes_nil h]
      obtain ⟨hout, hok, hput⟩ := bounceWrite_spec (d := d) h bs
        (blocksOf bs (buf.bytes (transferSize bs count)).length) (place d.offset bs b)
        (buf.bytes (transferSize bs count))
      refine ⟨hout, fun _ => hok, fun hr => ⟨(hput hr).1, fun hbs hcount => (hput hr).2 ?_⟩⟩
      have hmul := le_blocksOf_mul hbs (transferSize bs count)
      rw [Buffer.length_bytes]
      by_contra hzero
      rw [Nat.eq_zero_of_not_pos hzero] at hmul
      have := hle hcount
      omega
  | false =>
      rw [if_neg Bool.false_ne_true, if_neg Bool.false_ne_true]
      by_cases hsize : transferSize bs count ≤ maxRwCount
      · rw [pwrite_whole h _ _ (by rwa [Buffer.length_bytes])]
        dsimp only
        rw [Buffer.length_bytes, if_pos rfl]
        refine ⟨h, fun _ _ => rfl, fun _ => ⟨?_, fun _ hcount => le_trans (hle hcount) hsize⟩⟩
        rw [World.file_push, applyEvent_pwrite_self]
        rfl
      · rw [pwrite_cut h _ _ (by rw [Buffer.length_bytes]; omega)]
        dsimp only
        rw [if_neg (by omega)]
        have hseek := seekWrite_spec (d := d)
          (w := w.push (.pwrite d.dev (b * bs + d.offset)
            ((buf.bytes (transferSize bs count)).take maxRwCount))) h (b * bs + d.offset)
          (buf.bytes (transferSize bs count))
        refine ⟨hseek.1, fun hone hle' => ?_, fun hok => ?_⟩
        · rw [hone, transferSize_one] at hsize
          exact absurd hle' hsize
        · have hlen := (hseek.2 hok).2
          rw [Buffer.length_bytes] at hlen
          exact absurd hlen hsize

end Raw

section Backing

/-- A device without redo logging and without alignment, while no system call fails. -/
def plainBacking (d : Device) (hd : d.align = 0) : Backing (plain d) where
  offset := d.offset
  limit := maxRwCount
  Good w := w.outcomes = []
  content w := w.file d.dev
  Fresh _ _ _ := True
  put := rawPut d
  fresh_append := fun _ _ => trivial
  put_blocks := by
    intro bs l data f hbs hdvd
    unfold rawPut
    split_ifs
    · obtain ⟨n, hn⟩ := hdvd
      rw [Nat.mul_comm] at hn
      rw [hn, blocksOf_mul hbs, bouncePut_blocks n l hn]
    · rfl
  readBlk_sys := by
    intro s bs b count addr hgood
    have hworld : ((plain d).readBlk bs b count addr s).2 = s :=
      (rawReadBlk_spec hgood bs b count addr).1
    rw [hworld]
    exact ⟨hgood, rfl, fun _ _ _ => trivial⟩
  readBlk_ok := fun hgood hbs hok _ => (rawReadBlk_spec hgood _ _ _ _).2 _ hok hbs
  writeBlk_good := fun bs b count buf hgood => (rawWriteBlk_spec hgood hd bs b count buf).1
  writeBlk_one := fun b data hgood _ hle =>
    (rawWriteBlk_spec hgood hd _ b 1 (Buffer.ofBytes data)).2.1 rfl hle
  writeBlk_ok := by
    intro s bs b count buf hgood hbs hok
    exact ⟨((rawWriteBlk_spec hgood hd bs b count buf).2.2 hok).1, fun _ _ _ _ => trivial⟩
  writeByte_ok := by
    intro s off data hgood hok
    obtain ⟨hout, hput⟩ := seekWrite_spec (d := d) hgood (off + d.offset) data
    exact ⟨hout, (hput hok).1⟩
  sync_sys := by
    intro s hgood
    have hsync : ((plain d).sync .ok s).2 = s.push (.fsync d.dev) := by
      simp [plain, rawSync, World.fsync_of_outcomes_nil hgood]
    rw [hsync]
    exact ⟨hgood, by rw [World.file_push, applyEvent_fsync]⟩

end Backing

section Uncached

variable {σ : Type} {raw : Raw σ} {B : Backing raw} {io : Io σ} {u : Uncached σ}

/-- A backing that does not divert its writes, and that takes no block above its limit. -/
structure Backing.Immediate (B : Backing raw) : Prop where
  lasting : B.Lasting
  limit : ∀ {s : σ} {bs b : Nat} {count : Int} {buf : Buffer}, B.Good s → 0 < bs →
    (raw.writeBlk bs b count buf s).1 = .ok → 0 < count → bs ≤ B.limit

theorem plainBacking_immediate (d : Device) (hd : d.align = 0) :
    (plainBacking d hd).Immediate :=
  ⟨fun _ _ _ => trivial,
    fun hgood hbs hok => ((rawWriteBlk_spec hgood hd _ _ _ _).2.2 hok).2 hbs⟩

/-- What a write with write-through needs of the state before it. -/
def Op.ThroughSafe : Op → Io σ → Prop
  | .writeBlk64 writethrough block count _, io =>
      writethrough = true → count ≤ writeDirectSize → io.channel.ThroughSafe block count.toNat
  | _, _ => True

instance Op.ThroughSafe.decidable : ∀ (op : Op) (io : Io σ), Decidable (op.ThroughSafe io)
  | .writeBlk64 writethrough block count _, io =>
      inferInstanceAs (Decidable (writethrough = true → count ≤ writeDirectSize →
        io.channel.ThroughSafe block count.toNat))
  | .readBlk64 _ _ _, _ => inferInstanceAs (Decidable True)
  | .writeByte _ _, _ => inferInstanceAs (Decidable True)
  | .flush, _ => inferInstanceAs (Decidable True)
  | .setBlksize _ _, _ => inferInstanceAs (Decidable True)

/-- The cached channel presents what the device without a cache holds. -/
structure Follows (B : Backing raw) (u : Uncached σ) (io : Io σ) : Prop where
  blockSize : u.blockSize = io.channel.blockSize
  good : B.Good u.sys
  coherent : Coherent B (B.content u.sys) io

theorem readableBlk64_of_lasting (hlast : B.Lasting) (block : Nat) (count : Int) :
    ReadableBlk64 B io block count := by
  unfold ReadableBlk64
  split_ifs
  · exact .inl hlast
  · exact fun _ _ => .inr (.inl hlast)

theorem mapError_eq_ok {ε ε' α : Type} {f : ε → ε'} {r : Except ε α} {a : α}
    (h : r.mapError f = .ok a) : r = .ok a := by
  cases r with
  | error e =>
      cases h
  | ok b =>
      cases h
      rfl

theorem exists_of_isOk {ε α : Type} {r : Except ε α} (h : r.isOk = true) : ∃ a, r = .ok a := by
  cases r with
  | error e =>
      cases h
  | ok a =>
      exact ⟨a, rfl⟩

/-- **A call on both channels**: they return the same, and the cached one goes on to present
what the other device holds. -/
theorem Follows.run
    (hB : B.Immediate) (h : Follows B u io) {op : Op} {data data' : Bytes}
    (hok : (op.run raw io).1 = .ok data) (hok' : (op.runUncached raw u).1 = .ok data')
    (hsafe : op.ThroughSafe io) :
    data = data' ∧ Follows B (op.runUncached raw u).2 (op.run raw io).2 ∧
      (op.run raw io).2.channel.refcount = io.channel.refcount := by
  have hpos : 0 < u.blockSize := by
    rw [h.blockSize]
    exact io.channel.blockSize_pos
  cases op with
  | readBlk64 block count addr =>
      obtain ⟨hcoherent, hsize, hrefs, hlen, hdata⟩ :=
        h.coherent.run hok (readableBlk64_of_lasting hB.lasting block count)
      obtain ⟨hlen', hdata'⟩ := B.readBlk_ok h.good hpos (mapError_eq_ok hok')
        (hB.lasting _ _ _)
      obtain ⟨hgood, hcontent, -⟩ := B.readBlk_sys u.blockSize block count addr h.good
      rw [h.blockSize] at hlen' hdata'
      refine ⟨hdata.unique hdata' (hlen.trans hlen'.symm), ⟨?_, hgood, ?_⟩, hrefs⟩
      · exact h.blockSize.trans hsize.symm
      · rw [← hcontent] at hcoherent
        exact hcoherent
  | writeBlk64 writethrough block count buf =>
      obtain ⟨hraw, rfl⟩ := Errcode.result_eq_ok hok'
      obtain ⟨hcontent, -⟩ := B.writeBlk_ok h.good hpos hraw
      have hlimit := hB.limit h.good hpos hraw
      have hgood := B.writeBlk_good u.blockSize block count buf h.good
      rw [h.blockSize] at hlimit
      obtain ⟨hcoherent, hsize, hrefs, hdata⟩ := h.coherent.run hok ⟨hlimit, hsafe⟩
      refine ⟨hdata, ⟨h.blockSize.trans hsize.symm, hgood, ?_⟩, hrefs⟩
      rw [Op.apply, ← h.blockSize, ← hcontent] at hcoherent
      exact hcoherent
  | writeByte offset bytes =>
      obtain ⟨hcoherent, hsize, hrefs, hdata⟩ := h.coherent.run hok trivial
      dsimp only [Op.runUncached] at hok' ⊢
      by_cases halign : raw.align ≠ 0
      · rw [if_pos halign] at hok'
        cases hok'
      · rw [if_neg halign] at hok' ⊢
        obtain ⟨hraw, rfl⟩ := Errcode.result_eq_ok hok'
        obtain ⟨hgood, hcontent⟩ := B.writeByte_ok h.good hraw
        refine ⟨hdata, ⟨h.blockSize.trans hsize.symm, hgood, ?_⟩, hrefs⟩
        rw [Op.apply, ← hcontent] at hcoherent
        exact hcoherent
  | flush =>
      obtain ⟨-, rfl⟩ := Errcode.result_eq_ok hok'
      obtain ⟨hgood, hcontent⟩ := B.sync_sys h.good
      obtain ⟨hcoherent, hsize, hrefs, hdata⟩ := h.coherent.run hok trivial
      refine ⟨hdata, ⟨h.blockSize.trans hsize.symm, hgood, ?_⟩, hrefs⟩
      rw [Op.apply, ← hcontent] at hcoherent
      exact hcoherent
  | setBlksize blksize pos =>
      obtain ⟨hcoherent, hsize, hrefs, hdata⟩ := h.coherent.run hok trivial
      cases hok'
      exact ⟨hdata, ⟨hsize.symm, h.good, hcoherent⟩, hrefs⟩

theorem Follows.runOps
    (hB : B.Immediate) (h : Follows B u io) {ops : List Op}
    (hok : ∀ r ∈ (runOps raw ops io).1, r.isOk = true)
    (hok' : ∀ r ∈ (runUncached raw ops u).1, r.isOk = true)
    (hsafe : AllMeet raw Op.ThroughSafe ops io) :
    (runOps raw ops io).1 = (runUncached raw ops u).1 ∧
      Follows B (runUncached raw ops u).2 (runOps raw ops io).2 ∧
      (runOps raw ops io).2.channel.refcount = io.channel.refcount := by
  induction ops generalizing io u with
  | nil =>
      exact ⟨rfl, h, rfl⟩
  | cons op ops ih =>
      have hfirst : (op.run raw io).1.isOk = true := hok _ List.mem_cons_self
      have hfirst' : (op.runUncached raw u).1.isOk = true := hok' _ List.mem_cons_self
      obtain ⟨data, hdata⟩ := exists_of_isOk hfirst
      obtain ⟨data', hdata'⟩ := exists_of_isOk hfirst'
      obtain ⟨hsame, hfollows, hrefs⟩ := h.run hB hdata hdata' hsafe.1
      obtain ⟨hrest, hend, hrefs'⟩ := ih hfollows
        (fun r hr => hok r (List.mem_cons_of_mem _ hr))
        (fun r hr => hok' r (List.mem_cons_of_mem _ hr)) hsafe.2
      refine ⟨?_, hend, hrefs'.trans hrefs⟩
      calc (UnixIo.runOps raw (op :: ops) io).1
          = (op.run raw io).1 :: (UnixIo.runOps raw ops (op.run raw io).2).1 := rfl
        _ = (op.runUncached raw u).1 :: (runUncached raw ops (op.runUncached raw u).2).1 := by
            rw [hdata, hdata', hsame, hrest]

end Uncached

section Transparent

/-- **The cache is transparent** without redo logging: as long as no write with write-through
meets a dirty block behind a missing one, all calls return what they return without the cache,
no block is in two slots, and the device holds the same once the cache is written out. -/
theorem cache_transparent
    {d : Device} (hd : d.align = 0) {w : World} (hw : w.outcomes = []) (ops : List Op)
    (hok : ∀ r ∈ (runOps (plain d) ops ⟨Channel.opened, w⟩).1, r.isOk = true)
    (hok' : ∀ r ∈ (runUncached (plain d) ops ⟨1024, w⟩).1, r.isOk = true)
    (hsafe : AllMeet (plain d) Op.ThroughSafe ops ⟨Channel.opened, w⟩) :
    let io := (runOps (plain d) ops ⟨Channel.opened, w⟩).2
    let u := (runUncached (plain d) ops ⟨1024, w⟩).2
    (runOps (plain d) ops ⟨Channel.opened, w⟩).1 = (runUncached (plain d) ops ⟨1024, w⟩).1 ∧
      io.channel.Unique ∧
      (unixFlush (plain d) io).2.sys.file d.dev = u.sys.file d.dev ∧
      (∀ blksize pos, io.channel.blockSize ≠ blksize →
        (unixSetBlksize (plain d) blksize pos io).2.sys.file d.dev = u.sys.file d.dev) ∧
      (unixClose (plain d) io).2.sys.file d.dev = u.sys.file d.dev := by
  have hopen : Follows (plainBacking d hd) ⟨1024, w⟩ ⟨Channel.opened, w⟩ :=
    ⟨rfl, hw, coherent_of_unused hw fun _ => rfl⟩
  obtain ⟨hresults, hfollows, hrefs⟩ := hopen.runOps (plainBacking_immediate d hd) hok hok' hsafe
  have hcoherent := hfollows.coherent
  refine ⟨hresults, hcoherent.unique, hcoherent.unixFlush.2, fun blksize pos => ?_, ?_⟩
  · exact (hcoherent.unixSetBlksize blksize pos).2.2.2
  · exact hcoherent.unixClose (le_of_eq hrefs)

def throughWrites : List Op :=
  [.setBlksize 1 (by decide), .writeBlk64 false 0 1 ⟨0, fun _ => 7⟩,
    .writeBlk64 true 0 2 ⟨0, fun _ => 9⟩, .readBlk64 0 2 0]

theorem cache_transparent_throughWrites :
    (runOps (plain ⟨.dev 1, 0, 0, false⟩) throughWrites ⟨Channel.opened, blankWorld⟩).1 =
      (runUncached (plain ⟨.dev 1, 0, 0, false⟩) throughWrites ⟨1024, blankWorld⟩).1 :=
  (cache_transparent (d := ⟨.dev 1, 0, 0, false⟩) rfl (w := blankWorld) rfl throughWrites
    (by decide +kernel) (by decide +kernel) (by decide +kernel)).1

/-- Blocks `1` to `8` are written and fill the cache; blocks `0` and `1` are written through;
then the first two bytes are read from the device. -/
def staleWrites : List Op :=
  [.setBlksize 1 (by decide), .writeBlk64 false 1 4 ⟨0, fun _ => 7⟩,
    .writeBlk64 false 5 4 ⟨0, fun _ => 7⟩, .writeBlk64 true 0 2 ⟨0, fun _ => 9⟩, .flush,
    .setBlksize 2 (by decide), .readBlk64 0 1 0]

/-- Block `0` takes the slot of block `1`, whose old content is written back over the new. -/
theorem cache_not_transparent_staleWrites :
    (∀ r ∈ (runOps (plain ⟨.dev 1, 0, 0, false⟩) staleWrites
        ⟨Channel.opened, blankWorld⟩).1, r.isOk = true) ∧
      (∀ r ∈ (runUncached (plain ⟨.dev 1, 0, 0, false⟩) staleWrites
        ⟨1024, blankWorld⟩).1, r.isOk = true) ∧
      (runOps (plain ⟨.dev 1, 0, 0, false⟩) staleWrites
        ⟨Channel.opened, blankWorld⟩).1.getLast?.map Except.toOption = some (some [9, 7]) ∧
      (runUncached (plain ⟨.dev 1, 0, 0, false⟩) staleWrites
        ⟨1024, blankWorld⟩).1.getLast?.map Except.toOption = some (some [9, 9]) := by
  decide +kernel

end Transparent

end UnixIo
end Rfsck
