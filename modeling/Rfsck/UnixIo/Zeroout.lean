import Rfsck.UnixIo.Diversion

/-!
# Zeroed blocks

`unix_zeroout` of `unix_io.c` on a regular file, beside the cache and without redo logging.

It extends the file if the range ends behind it and punches a hole, and it never looks at
the cache.  A block of the range that is in the cache with other content comes back: a read
returns it, and a dirty slot is written over the hole.

* `Zeroed`: the blocks that were zeroed and not written since are zero on the device, and in
  the slots that hold them.
* `zeroed_blocks_stay_zero`: reads, evictions and flushes keep them so, if no call of
  `unix_zeroout` meets other content in the cache.

Nothing is assumed about the other blocks, so the results do not depend on the coherence of
the cache, nor on the alignment of the device.
-/

namespace Rfsck
namespace UnixIo

open Storage
open Redo

section Calls

/-- A call on a channel of a regular file. -/
inductive FileCall where
  | readBlk64 (block : Nat) (count : Int) (addr : Nat)
  | writeBlk64 (writethrough : Bool) (block : Nat) (count : Int) (buf : Buffer)
  | zeroout (noZeroout : Bool) (block count : Nat)
  | flush

/-- What a call does. -/
def FileCall.run (d : Device) : FileCall → Io World → Result × Io World
  | .readBlk64 block count addr, io => (Op.readBlk64 block count addr).run (plain d) io
  | .writeBlk64 writethrough block count buf, io =>
      (Op.writeBlk64 writethrough block count buf).run (plain d) io
  | .zeroout noZeroout block count, io =>
      let (r, w) := unixZeroout false noZeroout d io.channel.blockSize block count io.sys
      (r.result, { io with sys := w })
  | .flush, io => Op.flush.run (plain d) io

/-- A sequence of calls: the results, and the state at the end. -/
def runCalls (d : Device) : List FileCall → Io World → List Result × Io World
  | [], io => ([], io)
  | c :: cs, io =>
      let (r, io) := c.run d io
      let (rs, io) := runCalls d cs io
      (r :: rs, io)

end Calls

section Specification

/-- A transfer of `size` bytes from a block on has bytes in block `b`. -/
def Touches (blockSize block size b : Nat) : Prop :=
  block ≤ b ∧ (b - block) * blockSize < size

/-- The blocks that were zeroed and not written since, behind a call with result `r`. -/
def FileCall.zeroed (blockSize : Nat) (r : Result) : FileCall → Set Nat → Set Nat
  | .readBlk64 _ _ _, Z => Z
  | .writeBlk64 _ block count _, Z =>
      { b | b ∈ Z ∧ ¬ Touches blockSize block (transferSize blockSize count) b }
  | .zeroout _ block count, Z =>
      { b | b ∈ Z ∨ r.isOk = true ∧ block ≤ b ∧ b < block + count }
  | .flush, Z => Z

/-- A read returns zeros for the blocks of `Z`. -/
def FileCall.ReadsZero (blockSize : Nat) (Z : Set Nat) (r : Result) : FileCall → Prop
  | .readBlk64 block _ _ => ∀ data, r = .ok data →
      ∀ k v, data[k]? = some v → block + k / blockSize ∈ Z → v = 0
  | _ => True

/-- The blocks of `Z` are in the file and zero. -/
def BlocksZero (d : Device) (Z : Set Nat) (io : Io World) : Prop :=
  ∀ b, b ∈ Z → (io.sys.file d.dev).Holds (place d.offset io.channel.blockSize b)
    (List.replicate io.channel.blockSize 0)

/-- In every state of a run the device holds zeros for the blocks that were zeroed and not
written since, and every read returns zeros for them. -/
def StayZero (d : Device) : List FileCall → Set Nat → Io World → Prop
  | [], Z, io => BlocksZero d Z io
  | c :: cs, Z, io =>
      BlocksZero d Z io ∧ c.ReadsZero io.channel.blockSize Z (c.run d io).1 ∧
        StayZero d cs (c.zeroed io.channel.blockSize (c.run d io).1 Z) (c.run d io).2

/-- What `unix_zeroout` needs of the state before it: a slot in use with a block of the range
holds zeros. -/
def FileCall.MeetsZeros : FileCall → Io World → Prop
  | .zeroout _ block count, io => ∀ i, (io.channel.cache i).inUse = true →
      block ≤ (io.channel.cache i).block → (io.channel.cache i).block < block + count →
      ∀ v ∈ (io.channel.cache i).buf, v = 0
  | _, _ => True

instance FileCall.MeetsZeros.decidable :
    ∀ (c : FileCall) (io : Io World), Decidable (c.MeetsZeros io)
  | .zeroout _ block count, io =>
      inferInstanceAs (Decidable (∀ i, (io.channel.cache i).inUse = true →
        block ≤ (io.channel.cache i).block → (io.channel.cache i).block < block + count →
        ∀ v ∈ (io.channel.cache i).buf, v = 0))
  | .readBlk64 _ _ _, _ => inferInstanceAs (Decidable True)
  | .writeBlk64 _ _ _ _, _ => inferInstanceAs (Decidable True)
  | .flush, _ => inferInstanceAs (Decidable True)

/-- Every call of a sequence meets zeros. -/
def AllMeetZeros (d : Device) : List FileCall → Io World → Prop
  | [], _ => True
  | c :: cs, io => c.MeetsZeros io ∧ AllMeetZeros d cs (c.run d io).2

instance AllMeetZeros.decidable (d : Device) :
    ∀ (cs : List FileCall) (io : Io World), Decidable (AllMeetZeros d cs io)
  | [], _ => inferInstanceAs (Decidable True)
  | c :: cs, io =>
      have := AllMeetZeros.decidable d cs (c.run d io).2
      inferInstanceAs (Decidable (c.MeetsZeros io ∧ AllMeetZeros d cs (c.run d io).2))

end Specification

section Raw

variable {d : Device} {Q : Nat → UInt8 → Prop} {w w' : World}

/-- The device keeps a property of its bytes, and does not get shorter. -/
structure Evolves (d : Device) (Q : Nat → UInt8 → Prop) (w w' : World) : Prop where
  outcomes : w'.outcomes = []
  size_le : (w.file d.dev).size ≤ (w'.file d.dev).size
  each : (w'.file d.dev).Each Q

theorem Evolves.refl (h : w.outcomes = []) (he : (w.file d.dev).Each Q) : Evolves d Q w w :=
  ⟨h, le_refl _, he⟩

theorem Evolves.push {l : Nat} {data : Bytes} (h : Evolves d Q w w')
    (hdata : ByteFile.EachFrom Q l data) : Evolves d Q w (w'.push (.pwrite d.dev l data)) := by
  refine ⟨h.outcomes, ?_, ?_⟩
  · rw [World.file_push, applyEvent_pwrite_self]
    exact le_trans h.size_le (ByteFile.size_le_size_pwrite _ _ _)
  · rw [World.file_push, applyEvent_pwrite_self]
    exact h.each.pwrite hdata

theorem Evolves.pwrite {l : Nat} {data : Bytes} (h : Evolves d Q w w')
    (hdata : ByteFile.EachFrom Q l data) : Evolves d Q w (w'.pwrite d.dev l data).2 := by
  rw [World.pwrite_of_outcomes_nil h.outcomes]
  exact h.push (hdata.take _)

theorem Evolves.seekWrite {l : Nat} {data : Bytes} (h : Evolves d Q w w')
    (hdata : ByteFile.EachFrom Q l data) : Evolves d Q w (seekWrite d l data w').2 := by
  unfold UnixIo.seekWrite
  rw [llseek_of_outcomes_nil h.outcomes]
  dsimp only
  have hwrite := h.pwrite hdata
  split_ifs
  · exact hwrite
  · exact hwrite
  · exact hwrite

theorem Evolves.bounceBlock (hzero : ∀ i, Q i 0) {l : Nat} {data : Bytes}
    (h : Evolves d Q w w') (hdata : ByteFile.EachFrom Q l data) (bs : Nat) :
    ∃ block, bounceBlock d bs l data w' = (some block, w') ∧ ByteFile.EachFrom Q l block := by
  unfold UnixIo.bounceBlock
  split_ifs
  · rw [World.pread_of_outcomes_nil h.outcomes]
    refine ⟨_, rfl, hdata.append (ByteFile.EachFrom.drop ?_ _)⟩
    exact ((h.each.pread _ _).append (ByteFile.eachFrom_replicate hzero _ _)).take _
  · exact ⟨_, rfl, hdata.take _⟩

theorem Evolves.bounceWrite (hzero : ∀ i, Q i 0) {l : Nat} {data : Bytes}
    (h : Evolves d Q w w') (hdata : ByteFile.EachFrom Q l data) (bs n : Nat) :
    Evolves d Q w (bounceWrite d bs n l data w').2 := by
  induction n generalizing l data w' with
  | zero =>
      exact h
  | succ n ih =>
      obtain ⟨block, hblock, heach⟩ := h.bounceBlock hzero hdata bs
      unfold UnixIo.bounceWrite
      rw [hblock]
      dsimp only
      rw [llseek_of_outcomes_nil h.outcomes]
      dsimp only
      have hwrite := h.pwrite heach
      split_ifs
      · exact hwrite
      · exact hwrite
      · exact ih hwrite (hdata.drop bs)

/-- **`raw_write_blk`** keeps a property of the bytes of the device, if zeros have it and
the bytes written have it. -/
theorem Evolves.rawWriteBlk (hzero : ∀ i, Q i 0) (h : Evolves d Q w w') (bs b : Nat)
    (count : Int) {buf : Buffer}
    (hdata : ByteFile.EachFrom Q (place d.offset bs b) (buf.bytes (transferSize bs count))) :
    Evolves d Q w (rawWriteBlk d bs b count buf w').2 := by
  have hwrite := h.pwrite hdata
  unfold UnixIo.rawWriteBlk
  dsimp only
  split_ifs
  · rw [rawBounceWrite, llseek_of_outcomes_nil h.outcomes]
    exact h.bounceWrite hzero hdata bs _
  · exact hwrite
  · exact hwrite.seekWrite hdata

end Raw

section Slots

variable {d : Device} {bs : Nat} {Z : Set Nat} {io : Io World}

/-- The byte is zero if its position lies in a block of `Z`. -/
def ZeroIn (offset bs : Nat) (Z : Set Nat) (x : Nat) (v : UInt8) : Prop :=
  ∀ b, b ∈ Z → place offset bs b ≤ x → x < place offset bs b + bs → v = 0

theorem zeroIn_zero (offset bs : Nat) (Z : Set Nat) (x : Nat) : ZeroIn offset bs Z x 0 := by
  intro b _ _ _
  rfl

theorem place_eq_of_mem {offset bs a b x : Nat} (ha : place offset bs a ≤ x)
    (ha' : x < place offset bs a + bs) (hb : place offset bs b ≤ x)
    (hb' : x < place offset bs b + bs) : a = b := by
  by_contra hne
  have := place_disjoint offset bs hne
  omega

/-- A slot holds a whole block, of zeros if it is a block of `Z`. -/
def Cache.FitsZeros (bs : Nat) (Z : Set Nat) (c : Cache) : Prop :=
  c.inUse = true → c.buf.length = bs ∧ (c.block ∈ Z → ∀ v ∈ c.buf, v = 0)

/-- **The invariant.**  Blocks that are zero on the device, and in the slots that hold them. -/
structure Zeroed (d : Device) (bs : Nat) (Z : Set Nat) (io : Io World) : Prop where
  blockSize : io.channel.blockSize = bs
  outcomes : io.sys.outcomes = []
  inside : ∀ b, b ∈ Z → place d.offset bs b + bs ≤ (io.sys.file d.dev).size
  device : (io.sys.file d.dev).Each (ZeroIn d.offset bs Z)
  cache : ∀ i, (io.channel.cache i).FitsZeros bs Z

theorem Zeroed.pos (h : Zeroed d bs Z io) : 0 < bs := by
  rw [← h.blockSize]
  exact io.channel.blockSize_pos

theorem Zeroed.evolves (h : Zeroed d bs Z io) :
    Evolves d (ZeroIn d.offset bs Z) io.sys io.sys :=
  Evolves.refl h.outcomes h.device

theorem Zeroed.blocksZero (h : Zeroed d bs Z io) : BlocksZero d Z io := by
  intro b hb
  rw [h.blockSize]
  refine ByteFile.Zeros.holds (fun i hi => ?_) (h.inside b hb)
  exact h.device _ b hb (Nat.le_add_right _ _) (by omega)

theorem Zeroed.mono {Z' : Set Nat} (h : Zeroed d bs Z io) (hsub : Z' ⊆ Z) :
    Zeroed d bs Z' io where
  blockSize := h.blockSize
  outcomes := h.outcomes
  inside := fun b hb => h.inside b (hsub hb)
  device := fun x b hb => h.device x b (hsub hb)
  cache := fun i huse => (h.cache i huse).imp_right fun hzero hb => hzero (hsub hb)

theorem Zeroed.sys {w : World} (h : Zeroed d bs Z io)
    (hw : Evolves d (ZeroIn d.offset bs Z) io.sys w) : Zeroed d bs Z { io with sys := w } where
  blockSize := h.blockSize
  outcomes := hw.outcomes
  inside := fun b hb => le_trans (h.inside b hb) hw.size_le
  device := hw.each
  cache := h.cache

theorem Zeroed.same {ch : Channel} (h : Zeroed d bs Z io)
    (hsame : Channel.Same io.channel ch) : Zeroed d bs Z { io with channel := ch } where
  blockSize := hsame.blockSize.trans h.blockSize
  outcomes := h.outcomes
  inside := h.inside
  device := h.device
  cache := by
    intro i huse
    rw [hsame.inUse] at huse
    rw [hsame.buf, hsame.block]
    exact h.cache i huse

theorem Zeroed.set (h : Zeroed d bs Z io) (i : Slot) {c : Cache} (hc : c.FitsZeros bs Z) :
    Zeroed d bs Z { io with channel := io.channel.set i c } where
  blockSize := h.blockSize
  outcomes := h.outcomes
  inside := h.inside
  device := h.device
  cache := by
    intro j
    by_cases hj : j = i
    · rw [hj, Channel.set_cache_self]
      exact hc
    · rw [Channel.set_cache_of_ne _ hj]
      exact h.cache j

theorem Cache.FitsZeros.each {c : Cache} (h : c.FitsZeros bs Z) (huse : c.inUse = true)
    (offset : Nat) :
    ByteFile.EachFrom (ZeroIn offset bs Z) (place offset bs c.block) c.buf := by
  obtain ⟨hlen, hzero⟩ := h huse
  intro k v hv b hb hle hlt
  have hk := (List.getElem?_eq_some_iff.mp hv).1
  have heq : c.block = b := place_eq_of_mem (Nat.le_add_right _ k) (by omega) hle hlt
  rw [← heq] at hb
  exact hzero hb v (List.mem_of_getElem? hv)

/-- **A slot is written back**: zeros over zeros, or the bytes of another block. -/
theorem Zeroed.writeBack (h : Zeroed d bs Z io) {i : Slot}
    (huse : (io.channel.cache i).inUse = true) :
    Zeroed d bs Z { io with
      sys := (writeBack (plain d) io.channel.blockSize (io.channel.cache i) io.sys).2 } := by
  refine h.sys (h.evolves.rawWriteBlk (zeroIn_zero _ _ _) _ _ _ ?_)
  rw [h.blockSize, transferSize_one, Buffer.bytes_ofBytes (h.cache i huse).1]
  exact (h.cache i).each huse d.offset

theorem Zeroed.drop (h : Zeroed d bs Z io) (i : Slot) :
    Zeroed d bs Z (dropSlot (plain d) i io) := by
  have hunused : (io.channel.cache i).unused.FitsZeros bs Z :=
    fun hc => absurd hc Bool.false_ne_true
  rcases dropSlot_cases (plain d) io i with ⟨hback, heq⟩ | ⟨-, heq⟩
  · rw [heq]
    exact (h.writeBack hback.1).set i hunused
  · rw [heq]
    exact h.set i hunused

/-- A slot is reused; `w` is the state below, which a read may have changed. -/
theorem Zeroed.reuse {i : Slot} {w : World}
    (h : Zeroed d bs Z { dropSlot (plain d) i io with sys := w }) (b : Nat) {c : Cache}
    (hc : c.FitsZeros bs Z) :
    Zeroed d bs Z { channel := (reuseCache (plain d) i b io).channel.set i c, sys := w } :=
  (h.set i hc).same (same_reuseCache (plain d) i b io c)

theorem Zeroed.flushSlot (h : Zeroed d bs Z io) (invalidate : Bool) (e : Errcode) (i : Slot) :
    Zeroed d bs Z (flushSlot (plain d) invalidate (e, io) i).2 := by
  unfold UnixIo.flushSlot
  dsimp only
  by_cases huse : (io.channel.cache i).inUse = true
  · have hkeep : ∀ c : Cache, c.buf = (io.channel.cache i).buf →
        c.block = (io.channel.cache i).block → c.FitsZeros bs Z := by
      intro c hbuf hblock _
      rw [hbuf, hblock]
      exact h.cache i huse
    have hback := h.writeBack huse
    rw [if_neg (by simp [huse])]
    split_ifs
    · exact h.set i (hkeep _ rfl rfl)
    · exact h.set i (hkeep _ rfl rfl)
    all_goals
      generalize UnixIo.writeBack (plain d) io.channel.blockSize (io.channel.cache i) io.sys = r
        at hback ⊢
      obtain ⟨retval, s⟩ := r
      cases retval <;> exact hback.set i (hkeep _ rfl rfl)
  · rw [if_pos (by simpa using huse)]
    exact h

theorem Zeroed.flush (h : Zeroed d bs Z io) (invalidate : Bool) :
    Zeroed d bs Z (flushCachedBlocks (plain d) invalidate io).2 := by
  have hslots : ∀ (is : List Slot) (r : Errcode × Io World), Zeroed d bs Z r.2 →
      Zeroed d bs Z (is.foldl (UnixIo.flushSlot (plain d) invalidate) r).2 := by
    intro is
    induction is with
    | nil =>
        exact fun r hr => hr
    | cons i is ih =>
        exact fun r hr => ih _ (hr.flushSlot invalidate r.1 i)
  exact hslots _ (.ok, io) h

end Slots

section Read

variable {d : Device} {bs : Nat} {Z : Set Nat} {io : Io World}

theorem Zeroed.rawRead (h : Zeroed d bs Z io) (block : Nat) (count : Int) (addr : Nat) :
    ((plain d).readBlk bs block count addr io.sys).2 = io.sys ∧
      ∀ data, ((plain d).readBlk bs block count addr io.sys).1 = .ok data →
        data.length = transferSize bs count ∧
          ByteFile.EachFrom (ZeroIn d.offset bs Z) (place d.offset bs block) data := by
  obtain ⟨hsys, hdata⟩ := rawReadBlk_spec (d := d) h.outcomes bs block count addr
  refine ⟨hsys, fun data hok => ?_⟩
  obtain ⟨hlen, hholds⟩ := hdata data hok h.pos
  exact ⟨hlen, h.device.of_holds hholds⟩

theorem fitsZeros_of_each {c : Cache} (hlen : c.buf.length = bs)
    (heach : ByteFile.EachFrom (ZeroIn d.offset bs Z) (place d.offset bs c.block) c.buf) :
    c.FitsZeros bs Z := by
  refine fun _ => ⟨hlen, fun hb v hv => ?_⟩
  obtain ⟨k, hk⟩ := List.getElem?_of_mem hv
  have hlt := (List.getElem?_eq_some_iff.mp hk).1
  exact heach k v hk _ hb (Nat.le_add_right _ _) (by omega)

theorem Zeroed.saveBlocks (h : Zeroed d bs Z io) {slots : List Slot} {block : Nat}
    {data : Bytes} (hlen : data.length = slots.length * bs)
    (heach : ByteFile.EachFrom (ZeroIn d.offset bs Z) (place d.offset bs block) data) :
    Zeroed d bs Z (saveBlocks (plain d) slots block data io) := by
  induction slots generalizing io block data with
  | nil =>
      exact h
  | cons i slots ih =>
      rw [List.length_cons, Nat.succ_mul] at hlen
      rw [UnixIo.saveBlocks, h.blockSize]
      have hslot := (h.drop i).reuse block
        (c := { (reuseCache (plain d) i block io).channel.cache i with buf := data.take bs })
        (fitsZeros_of_each (d := d) (by rw [List.length_take]; omega)
          (by rw [reuseCache_cache]; exact heach.take bs))
      refine ih hslot ?_ ?_
      · rw [List.length_drop]
        omega
      · rw [place_add, Nat.one_mul]
        exact heach.drop bs

theorem Zeroed.readIntoSlot (h : Zeroed d bs Z io) (i : Slot) (block : Nat) :
    Zeroed d bs Z (readIntoSlot (plain d) i block io).2 ∧
      ∀ data, (readIntoSlot (plain d) i block io).1 = .ok data → data.length = bs ∧
        ByteFile.EachFrom (ZeroIn d.offset bs Z) (place d.offset bs block) data := by
  have hdrop := h.drop i
  have hread := hdrop.rawRead block 1 0
  have hsys : (reuseCache (plain d) i block io).sys = (dropSlot (plain d) i io).sys := rfl
  have hsize : (reuseCache (plain d) i block io).channel.blockSize = bs := h.blockSize
  unfold UnixIo.readIntoSlot
  dsimp only
  rw [hsys, hsize]
  cases hr : (plain d).readBlk bs block 1 0 (dropSlot (plain d) i io).sys with
  | mk r s =>
      rw [hr] at hread
      obtain ⟨hs, hdata⟩ := hread
      dsimp only at hs hdata
      subst hs
      cases r with
      | error e =>
          refine ⟨hdrop.reuse block fun hc => ?_, fun data hd => by cases hd⟩
          exact absurd hc Bool.false_ne_true
      | ok data =>
          obtain ⟨hlen, heach⟩ := hdata data rfl
          rw [transferSize_one] at hlen
          refine ⟨hdrop.reuse block (fitsZeros_of_each (d := d) hlen ?_), fun data' hd => ?_⟩
          · rw [reuseCache_cache]
            exact heach
          · cases hd
            exact ⟨hlen, heach⟩

theorem Zeroed.readMissing (h : Zeroed d bs Z io) (slots : List Slot) (block addr : Nat) :
    Zeroed d bs Z (readMissing (plain d) slots block addr io).2 ∧
      ∀ data, (readMissing (plain d) slots block addr io).1 = .ok data →
        data.length = slots.length * bs ∧
          ByteFile.EachFrom (ZeroIn d.offset bs Z) (place d.offset bs block) data := by
  have hread := h.rawRead block slots.length addr
  unfold UnixIo.readMissing
  rw [h.blockSize]
  cases hr : (plain d).readBlk bs block slots.length addr io.sys with
  | mk r s =>
      rw [hr] at hread
      obtain ⟨hs, hdata⟩ := hread
      dsimp only at hs hdata
      subst hs
      cases r with
      | error e =>
          exact ⟨h, fun data hd => by cases hd⟩
      | ok data =>
          obtain ⟨hlen, heach⟩ := hdata data rfl
          rw [transferSize_natCast] at hlen
          refine ⟨h.saveBlocks hlen heach, fun data' hd => ?_⟩
          cases hd
          exact ⟨hlen, heach⟩

/-- Blocks behind the first `m` ones. -/
theorem eachFrom_blocks {Q : Nat → UInt8 → Prop} {offset bs block count m : Nat}
    {as as' : Bytes} (hlen : as.length = m * bs)
    (has : ByteFile.EachFrom Q (place offset bs block) as) (hm : m ≤ count)
    (hlen' : as'.length = (count - m) * bs)
    (has' : ByteFile.EachFrom Q (place offset bs (block + m)) as') :
    (as ++ as').length = count * bs ∧
      ByteFile.EachFrom Q (place offset bs block) (as ++ as') := by
  constructor
  · rw [List.length_append, hlen, hlen', ← Nat.add_mul, Nat.add_sub_cancel' hm]
  · refine has.append ?_
    rw [hlen, ← place_add]
    exact has'

/-- **The loop over the blocks of a read.** -/
theorem Zeroed.readLoop (h : Zeroed d bs Z io) (n count block addr : Nat) (hcount : count ≤ n) :
    Zeroed d bs Z (readLoop (plain d) n count block addr io).2 ∧
      ∀ data, (readLoop (plain d) n count block addr io).1 = .ok data →
        data.length = count * bs ∧
          ByteFile.EachFrom (ZeroIn d.offset bs Z) (place d.offset bs block) data := by
  induction n generalizing io count block addr with
  | zero =>
      obtain rfl : count = 0 := by omega
      refine ⟨h, fun data hd => ?_⟩
      cases hd
      exact ⟨by simp, ByteFile.eachFrom_nil _ _⟩
  | succ n ih =>
      unfold UnixIo.readLoop
      by_cases hzero : count = 0
      · subst hzero
        rw [if_pos rfl]
        refine ⟨h, fun data hd => ?_⟩
        cases hd
        exact ⟨by simp, ByteFile.eachFrom_nil _ _⟩
      rw [if_neg hzero]
      dsimp only
      rcases findCachedBlock_cases io.channel block with ⟨i, hfind, huse, hblock⟩ |
        ⟨e, hfind, -⟩
      · rw [hfind]
        dsimp only
        have hsame := io.channel.same_touch i
        have hrest := ih (h.same hsame) (count - 1) (block + 1)
          (addr + io.channel.blockSize) (by omega)
        have hfirst := (h.cache i).each huse d.offset
        have hlen := (h.cache i huse).1
        rw [hblock] at hfirst
        rw [← Nat.one_mul bs] at hlen
        rw [hsame.buf i]
        generalize UnixIo.readLoop (plain d) n (count - 1) (block + 1)
          (addr + io.channel.blockSize) { io with channel := io.channel.touch i } = r at hrest ⊢
        obtain ⟨rest, io'⟩ := r
        refine ⟨hrest.1, fun data hd => ?_⟩
        cases rest with
        | error e =>
            cases hd
        | ok tail =>
            cases hd
            obtain ⟨hlen', htail⟩ := hrest.2 tail rfl
            exact eachFrom_blocks hlen hfirst (by omega) hlen' htail
      · rw [hfind]
        dsimp only
        by_cases hone : count = 1
        · subst hone
          rw [if_pos rfl, Nat.one_mul]
          exact h.readIntoSlot e block
        rw [if_neg hone]
        obtain ⟨hsame, -, hle, -⟩ := missingSlots_spec (count - 1) (block + 1) io.channel
        generalize missingSlots (count - 1) (block + 1) io.channel = found at *
        obtain ⟨slots, ch⟩ := found
        dsimp only at hsame hle ⊢
        have hgot := (h.same hsame).readMissing (e :: slots) block addr
        generalize UnixIo.readMissing (plain d) (e :: slots) block addr
          { io with channel := ch } = r at hgot ⊢
        obtain ⟨got, io₁⟩ := r
        obtain ⟨hzeroed, hdata⟩ := hgot
        cases got with
        | error e =>
            exact ⟨hzeroed, fun data hd => by cases hd⟩
        | ok first =>
            obtain ⟨hlen, hfirst⟩ := hdata first rfl
            rw [List.length_cons] at hlen
            have hrest := ih hzeroed (count - (slots.length + 1)) (block + (slots.length + 1))
              (addr + (slots.length + 1) * io.channel.blockSize) (by omega)
            dsimp only
            generalize UnixIo.readLoop (plain d) n (count - (slots.length + 1))
              (block + (slots.length + 1)) (addr + (slots.length + 1) * io.channel.blockSize)
              io₁ = r at hrest ⊢
            obtain ⟨rest, io₂⟩ := r
            refine ⟨hrest.1, fun data hd => ?_⟩
            cases rest with
            | error e =>
                cases hd
            | ok tail =>
                cases hd
                obtain ⟨hlen', htail⟩ := hrest.2 tail rfl
                exact eachFrom_blocks hlen hfirst (by omega) hlen' htail

/-- **A read** returns zeros for zeroed blocks, from the cache or from the device. -/
theorem Zeroed.read (h : Zeroed d bs Z io) (block : Nat) (count : Int) (addr : Nat) :
    Zeroed d bs Z (unixReadBlk64 (plain d) block count addr io).2 ∧
      ∀ data, (unixReadBlk64 (plain d) block count addr io).1 = .ok data →
        ByteFile.EachFrom (ZeroIn d.offset bs Z) (place d.offset bs block) data := by
  unfold unixReadBlk64
  split_ifs with hdirect
  · have hflush := h.flush false
    generalize flushCachedBlocks (plain d) false io = r at hflush ⊢
    obtain ⟨retval, io₁⟩ := r
    obtain ⟨hsys, hdata⟩ := hflush.rawRead block count addr
    cases retval with
    | ok =>
        dsimp only at hsys hdata ⊢
        rw [hflush.blockSize, hsys]
        exact ⟨hflush, fun data hok => (hdata data hok).2⟩
    | _ =>
        exact ⟨hflush, fun data hok => by cases hok⟩
  · obtain ⟨hzeroed, hdata⟩ := h.readLoop count.toNat count.toNat block addr (le_refl _)
    exact ⟨hzeroed, fun data hok => (hdata data hok).2⟩

end Read

section Write

variable {d : Device} {bs : Nat} {Z : Set Nat} {io : Io World}

theorem Zeroed.writeLoop (h : Zeroed d bs Z io) (writethrough : Bool) (n block : Nat)
    (buf : Buffer) (hfree : ∀ k, k < n → block + k ∉ Z) :
    Zeroed d bs Z (writeLoop (plain d) writethrough n block buf io) := by
  induction n generalizing io block buf with
  | zero =>
      exact h
  | succ n ih =>
      have hfits : ∀ c : Cache, c.block = block → c.buf.length = bs → c.FitsZeros bs Z := by
        intro c hblock hlen _
        rw [hblock]
        exact ⟨hlen, fun hb => absurd hb (hfree 0 (Nat.succ_pos n))⟩
      rw [writeLoop_succ, h.blockSize]
      refine ih ?_ (block + 1) _ fun k hk => ?_
      · unfold writeSlot
        rcases findCachedBlock_cases io.channel block with ⟨i, hfind, -, hblock⟩ | ⟨e, hfind, -⟩
        · rw [hfind]
          refine (h.same (io.channel.same_touch i)).set i (hfits _ ?_ ?_)
          · exact ((io.channel.same_touch i).block i).trans hblock
          · exact Buffer.length_bytes _ _
        · rw [hfind]
          refine (h.drop e).reuse block (hfits _ ?_ ?_)
          · rw [reuseCache_cache]
          · exact Buffer.length_bytes _ _
      · rw [Nat.add_assoc, Nat.add_comm 1 k]
        exact hfree (k + 1) (Nat.succ_lt_succ hk)

theorem eachFrom_of_touches {offset size block : Nat} {data : Bytes}
    (hsize : data.length = size) (hfree : ∀ b, b ∈ Z → ¬ Touches bs block size b) :
    ByteFile.EachFrom (ZeroIn offset bs Z) (place offset bs block) data := by
  intro k v hv b hb hle hlt
  have hk := (List.getElem?_eq_some_iff.mp hv).1
  refine absurd ?_ (hfree b hb)
  have hge : block ≤ b := by
    by_contra hlt'
    have hmul : (b + 1) * bs ≤ block * bs := Nat.mul_le_mul_right bs (by omega)
    rw [Nat.succ_mul] at hmul
    unfold place at hle hlt
    omega
  obtain ⟨j, rfl⟩ := Nat.exists_eq_add_of_le hge
  rw [place_add] at hle
  refine ⟨hge, ?_⟩
  rw [Nat.add_sub_cancel_left]
  omega

/-- **A write** leaves the zeroed blocks alone that it does not touch. -/
theorem Zeroed.write (h : Zeroed d bs Z io) (writethrough : Bool) (block : Nat) (count : Int)
    (buf : Buffer) (hfree : ∀ b, b ∈ Z → ¬ Touches bs block (transferSize bs count) b) :
    Zeroed d bs Z (unixWriteBlk64 (plain d) writethrough block count buf io).2 := by
  have hraw : ∀ {io' : Io World}, Zeroed d bs Z io' → Zeroed d bs Z { io' with
      sys := ((plain d).writeBlk bs block count buf io'.sys).2 } := by
    intro io' h'
    refine h'.sys (h'.evolves.rawWriteBlk (zeroIn_zero _ _ _) bs block count ?_)
    exact eachFrom_of_touches (Buffer.length_bytes _ _) hfree
  unfold unixWriteBlk64
  split_ifs with hdirect hthrough
  · have hflush := h.flush true
    generalize flushCachedBlocks (plain d) true io = r at hflush ⊢
    obtain ⟨retval, io₁⟩ := r
    cases retval with
    | ok =>
        dsimp only at hflush ⊢
        rw [hflush.blockSize]
        exact hraw hflush
    | _ =>
        exact hflush
  all_goals
    have hblocks : ∀ k, k < count.toNat → block + k ∉ Z := by
      intro k hk hb
      refine hfree _ hb ⟨Nat.le_add_right _ _, ?_⟩
      rw [Nat.add_sub_cancel_left, transferSize, if_neg (by omega)]
      exact Nat.mul_lt_mul_of_pos_right hk h.pos
  · dsimp only
    rw [h.blockSize]
    exact (hraw h).writeLoop writethrough _ block buf hblocks
  · exact h.writeLoop writethrough _ block buf hblocks

/-- **A flush** writes zeros over zeroed blocks at most. -/
theorem Zeroed.unixFlush (h : Zeroed d bs Z io) : Zeroed d bs Z (unixFlush (plain d) io).2 := by
  unfold UnixIo.unixFlush
  have hflush := h.flush false
  generalize flushCachedBlocks (plain d) false io = r at hflush ⊢
  obtain ⟨retval, io₁⟩ := r
  dsimp only at hflush ⊢
  refine hflush.sys ?_
  change Evolves d _ io₁.sys (rawSync d retval io₁.sys).2
  unfold rawSync
  split_ifs
  · exact hflush.evolves
  · rw [World.fsync_of_outcomes_nil hflush.outcomes]
    refine ⟨hflush.outcomes, ?_, ?_⟩
    · rw [World.file_push, applyEvent_fsync]
    · rw [World.file_push, applyEvent_fsync]
      exact hflush.device

/-- The blocks of a range are zeroed behind the cache. -/
theorem Zeroed.range (h : Zeroed d bs Z io) {block count : Nat} {w : World}
    (hw : Evolves d (ZeroIn d.offset bs Z) io.sys w)
    (hsize : place d.offset bs (block + count) ≤ (w.file d.dev).size)
    (hzero : (w.file d.dev).Zeros (place d.offset bs block) (count * bs))
    (hcache : ∀ i, (io.channel.cache i).inUse = true → block ≤ (io.channel.cache i).block →
      (io.channel.cache i).block < block + count → ∀ v ∈ (io.channel.cache i).buf, v = 0) :
    Zeroed d bs { b | b ∈ Z ∨ block ≤ b ∧ b < block + count } { io with sys := w } where
  blockSize := h.blockSize
  outcomes := hw.outcomes
  inside := by
    rintro b (hb | ⟨-, hlt⟩)
    · exact le_trans (h.inside b hb) hw.size_le
    · have hmul : (b + 1) * bs ≤ (block + count) * bs := Nat.mul_le_mul_right bs hlt
      rw [Nat.succ_mul] at hmul
      refine le_trans ?_ hsize
      unfold place
      omega
  device := by
    rintro x b (hb | ⟨hge, hlt⟩) hle hlt'
    · exact hw.each x b hb hle hlt'
    · obtain ⟨j, rfl⟩ := Nat.exists_eq_add_of_le hge
      have hmul : (j + 1) * bs ≤ count * bs := Nat.mul_le_mul_right bs (by omega)
      rw [Nat.succ_mul] at hmul
      rw [place_add] at hle hlt'
      have hbyte := hzero (x - place d.offset bs block) (by omega)
      rwa [Nat.add_sub_cancel' (by omega)] at hbyte
  cache := by
    intro i huse
    refine ⟨(h.cache i huse).1, ?_⟩
    rintro (hb | ⟨hge, hlt⟩)
    · exact (h.cache i huse).2 hb
    · exact hcache i huse hge hlt

end Write

section Zeroout

variable {d : Device} {bs : Nat} {Z : Set Nat} {io : Io World} {w : World}

theorem sysCall_of_outcomes_nil (h : w.outcomes = []) (effect : World → World) :
    sysCall effect w = (.ok, effect w) := by
  simp [sysCall, World.nextOutcome_of_outcomes_nil h, World.advance_of_outcomes_nil h]

theorem evolves_extend {Q : Nat → UInt8 → Prop} (hzero : ∀ i, Q i 0) (h : w.outcomes = [])
    (he : (w.file d.dev).Each Q) (size : Nat) : Evolves d Q w (extend d.dev size w) := by
  refine (Evolves.refl h he).push fun k v hv => ?_
  obtain rfl : v = 0 := by
    simpa using List.mem_of_getElem? hv
  exact hzero _

/-- The file behind the calls of `unix_zeroout` before the last: it reaches the end of the
range. -/
def extended (d : Device) (size : Nat) (w : World) : World :=
  if (w.file d.dev).size < size then extend d.dev size w else w

theorem evolves_extended {Q : Nat → UInt8 → Prop} (hzero : ∀ i, Q i 0) (h : w.outcomes = [])
    (he : (w.file d.dev).Each Q) (size : Nat) :
    Evolves d Q w (extended d size w) ∧ size ≤ ((extended d size w).file d.dev).size := by
  unfold extended
  split_ifs with hlt
  · refine ⟨evolves_extend hzero h he size, ?_⟩
    rw [extend, World.file_push, applyEvent_pwrite_self, ByteFile.size_pwrite,
      if_neg (List.cons_ne_nil _ _), List.length_singleton]
    omega
  · exact ⟨Evolves.refl h he, by omega⟩

/-- While no system call fails, `unix_zeroout` extends the file and zeroes the range. -/
theorem unixZeroout_eq (h : w.outcomes = []) {block count : Nat} (hcount : count ≠ 0) :
    unixZeroout false false d bs block count w =
      (.ok, zeroRange d.dev (place d.offset bs block) (count * bs)
        (extended d (place d.offset bs (block + count)) w)) := by
  have hzero : ∀ w' : World, w'.outcomes = [] →
      zeroFile d (block * bs + d.offset) (count * bs) w' =
        (.ok, zeroRange d.dev (place d.offset bs block) (count * bs) w') := by
    intro w' h'
    rw [zeroFile, sysCall_of_outcomes_nil h']
    rfl
  unfold unixZeroout extended place
  rw [if_neg (by simp), if_neg hcount, sysCall_of_outcomes_nil h]
  dsimp only [id]
  by_cases hlt : (w.file d.dev).size < (block + count) * bs + d.offset
  · rw [if_pos hlt, if_pos hlt, sysCall_of_outcomes_nil h]
    exact (if_neg (not_not_intro rfl)).trans (hzero _ h)
  · rw [if_neg hlt, if_neg hlt]
    exact (if_neg (not_not_intro rfl)).trans (hzero _ h)

theorem zeroRange_file (l n : Nat) (w : World) :
    (zeroRange d.dev l n w).file d.dev =
      (w.file d.dev).pwrite l (List.replicate (min n ((w.file d.dev).size - l)) 0) := by
  rw [zeroRange, World.file_push, applyEvent_pwrite_self]

/-- What `zeroRange` was asked for reads zero, also where the file ends before. -/
theorem zeros_zeroRange (l n : Nat) (w : World) :
    ((zeroRange d.dev l n w).file d.dev).Zeros l n := by
  intro i hi
  rw [zeroRange_file, ByteFile.byte_pwrite, if_pos (Nat.le_add_right _ _),
    Nat.add_sub_cancel_left, List.getElem?_replicate]
  split_ifs with hlt
  · rfl
  · exact (w.file d.dev).byte_eq_zero _ (by omega)

/-- **`unix_zeroout`** adds its range to the zeroed blocks, if the cache holds nothing else
for them. -/
theorem Zeroed.zeroout (h : Zeroed d bs Z io) (noZeroout : Bool) (block count : Nat)
    (hmeets : (FileCall.zeroout noZeroout block count).MeetsZeros io) :
    Zeroed d bs ((FileCall.zeroout noZeroout block count).zeroed bs
        ((FileCall.zeroout noZeroout block count).run d io).1 Z)
      ((FileCall.zeroout noZeroout block count).run d io).2 := by
  cases noZeroout with
  | true =>
      refine h.mono ?_
      rintro b (hb | ⟨hok, -⟩)
      · exact hb
      · cases hok
  | false =>
      by_cases hcount : count = 0
      · subst hcount
        refine h.mono ?_
        rintro b (hb | ⟨-, hge, hlt⟩)
        · exact hb
        · omega
      · have hrun : (FileCall.zeroout false block count).run d io = (.ok [],
            ⟨io.channel, zeroRange d.dev (place d.offset bs block) (count * bs)
              (extended d (place d.offset bs (block + count)) io.sys)⟩) := by
          rw [FileCall.run, h.blockSize, unixZeroout_eq h.outcomes hcount]
          rfl
        obtain ⟨hext, hsize⟩ := evolves_extended (zeroIn_zero d.offset bs Z) h.outcomes h.device
          (place d.offset bs (block + count))
        have hevolves := hext.push (l := place d.offset bs block)
          (ByteFile.eachFrom_replicate (zeroIn_zero d.offset bs Z) _
            (min (count * bs) (((extended d (place d.offset bs (block + count))
              io.sys).file d.dev).size - place d.offset bs block)))
        have hzeroed := h.range hevolves ?_ (zeros_zeroRange _ _ _) hmeets
        · rw [hrun]
          refine hzeroed.mono ?_
          rintro b (hb | ⟨-, hrange⟩)
          · exact .inl hb
          · exact .inr hrange
        · rw [World.file_push, applyEvent_pwrite_self]
          exact le_trans hsize (ByteFile.size_le_size_pwrite _ _ _)

end Zeroout

section Runs

variable {d : Device} {bs : Nat} {Z : Set Nat} {io : Io World}

/-- **One call** keeps the invariant for the blocks that are still to be zero. -/
theorem Zeroed.call (h : Zeroed d bs Z io) (c : FileCall) (hmeets : c.MeetsZeros io) :
    Zeroed d bs (c.zeroed bs (c.run d io).1 Z) (c.run d io).2 := by
  cases c with
  | readBlk64 block count addr =>
      exact (h.read block count addr).1
  | writeBlk64 writethrough block count buf =>
      exact (h.mono fun b hb => hb.1).write writethrough block count buf fun b hb => hb.2
  | zeroout noZeroout block count =>
      exact h.zeroout noZeroout block count hmeets
  | flush =>
      exact h.unixFlush

theorem Zeroed.readsZero (h : Zeroed d bs Z io) (c : FileCall) :
    c.ReadsZero bs Z (c.run d io).1 := by
  cases c with
  | readBlk64 block count addr =>
      intro data hok k v hv hb
      have heach := (h.read block count addr).2 data (mapError_eq_ok hok)
      refine heach k v hv _ hb ?_ ?_
      · rw [place_add]
        have := Nat.div_mul_le_self k bs
        omega
      · rw [place_add]
        have := Nat.lt_div_mul_add (a := k) h.pos
        omega
  | writeBlk64 writethrough block count buf =>
      trivial
  | zeroout noZeroout block count =>
      trivial
  | flush =>
      trivial

theorem Zeroed.stayZero (h : Zeroed d bs Z io) {cs : List FileCall}
    (hmeets : AllMeetZeros d cs io) : StayZero d cs Z io := by
  induction cs generalizing io Z with
  | nil =>
      exact h.blocksZero
  | cons c cs ih =>
      refine ⟨h.blocksZero, ?_, ?_⟩
      · rw [h.blockSize]
        exact h.readsZero c
      · rw [h.blockSize]
        exact ih (h.call c hmeets.1) hmeets.2

def zeroedRange : List FileCall :=
  [.zeroout false 0 2, .readBlk64 0 2 0, .writeBlk64 false 1 1 ⟨0, fun _ => 7⟩, .flush,
    .readBlk64 0 2 0]

/-- A block is written into the cache, zeroed, read, and flushed. -/
def writtenAndZeroed : List FileCall :=
  [.writeBlk64 false 0 1 ⟨0, fun _ => 7⟩, .zeroout false 0 1, .readBlk64 0 1 0, .flush]

end Runs

end UnixIo
end Rfsck
