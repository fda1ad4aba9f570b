import Rfsck.UnixIo.CacheOps

/-!
# Write-through, and the calls on a channel

With write-through the device is written first and the cache is brought up to date
afterwards, block by block.  In between, the slots of the blocks still to come hold old
content: they are *hidden*, and the channel is coherent without them.

The module ends with one lemma for each call on a channel, and with runs of calls.
-/

namespace Rfsck
namespace UnixIo

open Storage

namespace Channel

/-- The channel without the blocks from `lo` up to `hi`. -/
def hide (ch : Channel) (lo hi : Nat) : Channel :=
  { ch with
    cache := fun i =>
      if lo ≤ (ch.cache i).block ∧ (ch.cache i).block < hi then
        (ch.cache i).unused
      else
        ch.cache i }

theorem hide_cache_of_in {ch : Channel} {lo hi : Nat} {i : Slot}
    (h : lo ≤ (ch.cache i).block ∧ (ch.cache i).block < hi) :
    (ch.hide lo hi).cache i = (ch.cache i).unused :=
  if_pos h

theorem hide_cache_of_out {ch : Channel} {lo hi : Nat} {i : Slot}
    (h : ¬ (lo ≤ (ch.cache i).block ∧ (ch.cache i).block < hi)) :
    (ch.hide lo hi).cache i = ch.cache i :=
  if_neg h

theorem hide_inUse {ch : Channel} {lo hi : Nat} {i : Slot}
    (h : ((ch.hide lo hi).cache i).inUse = true) :
    ¬ (lo ≤ (ch.cache i).block ∧ (ch.cache i).block < hi) ∧
      (ch.hide lo hi).cache i = ch.cache i := by
  by_cases hin : lo ≤ (ch.cache i).block ∧ (ch.cache i).block < hi
  · rw [hide_cache_of_in hin] at h
    cases h
  · exact ⟨hin, hide_cache_of_out hin⟩

theorem Dirty.of_hide {ch : Channel} {lo hi b : Nat} (h : (ch.hide lo hi).Dirty b) :
    ch.Dirty b := by
  obtain ⟨i, huse, hrest⟩ := h
  have hi := (hide_inUse huse).2
  rw [hi] at huse hrest
  exact ⟨i, huse, hrest⟩

theorem Dirty.hide {ch : Channel} {b : Nat} (h : ch.Dirty b) {lo hi : Nat}
    (hout : ¬ (lo ≤ b ∧ b < hi)) : (ch.hide lo hi).Dirty b := by
  obtain ⟨i, huse, hdirty, rfl⟩ := h
  refine ⟨i, ?_⟩
  rw [hide_cache_of_out hout]
  exact ⟨huse, hdirty, rfl⟩

theorem same_hide_set {ch : Channel} {block n : Nat} {i : Slot} {c : Cache}
    (hblock : c.block = block)
    (hother : ∀ j, j ≠ i → (ch.cache j).inUse = true → (ch.cache j).block ≠ block) :
    Same ((ch.hide block (block + (n + 1))).set i c)
      ((ch.set i c).hide (block + 1) (block + 1 + n)) := by
  have hself : ((ch.set i c).hide (block + 1) (block + 1 + n)).cache i = c := by
    rw [hide_cache_of_out (by rw [set_cache_self]; omega), set_cache_self]
  have hcache : ∀ j, ((ch.set i c).hide (block + 1) (block + 1 + n)).cache j =
      ((ch.hide block (block + (n + 1))).set i c).cache j := by
    intro j
    by_cases hji : j = i
    · rw [hji, hself, set_cache_self]
    · rw [set_cache_of_ne _ hji]
      have hj : (ch.set i c).cache j = ch.cache j := set_cache_of_ne _ hji c
      by_cases hin : block ≤ (ch.cache j).block ∧ (ch.cache j).block < block + (n + 1)
      · rw [hide_cache_of_in hin]
        by_cases hfirst : (ch.cache j).block = block
        · have huse : (ch.cache j).inUse = false := by
            by_contra huse
            exact hother j hji (by simpa using huse) hfirst
          rw [hide_cache_of_out (by rw [hj]; omega), hj, Cache.unused, ← huse]
        · rw [hide_cache_of_in (by rw [hj]; omega), hj]
      · rw [hide_cache_of_out hin, hide_cache_of_out (by rw [hj]; omega), hj]
  exact ⟨rfl, fun j => by rw [hcache], fun j => by rw [hcache], fun j => by rw [hcache],
    fun j => by rw [hcache]⟩

theorem Same.hide {ch ch' : Channel} (h : Same ch ch') (lo hi : Nat) :
    Same (ch.hide lo hi) (ch'.hide lo hi) := by
  constructor
  · exact h.blockSize
  all_goals
    intro i
    by_cases hin : lo ≤ (ch.cache i).block ∧ (ch.cache i).block < hi
    · rw [hide_cache_of_in hin, hide_cache_of_in (by rw [h.block]; exact hin)]
      simp only [Cache.unused, h.buf, h.block, h.dirty]
    · rw [hide_cache_of_out hin, hide_cache_of_out (by rw [h.block]; exact hin)]
      simp only [h.buf, h.block, h.dirty, h.inUse]

/-- No dirty block of a write stands behind one that is not in the cache. -/
def ThroughSafe (ch : Channel) (block n : Nat) : Prop :=
  ∀ k, k < n → ch.Dirty (block + k) → ∀ j, j < k → ch.Cached (block + j)

instance ThroughSafe.decidable (ch : Channel) (block n : Nat) :
    Decidable (ch.ThroughSafe block n) :=
  inferInstanceAs (Decidable (∀ k, k < n → (∃ i, (ch.cache i).inUse = true ∧
    (ch.cache i).dirty = true ∧ (ch.cache i).block = block + k) →
    ∀ j, j < k → ∃ i, (ch.cache i).inUse = true ∧ (ch.cache i).block = block + j))

end Channel

section Through

variable {σ : Type} {raw : Raw σ} {B : Backing raw} {L : ByteFile} {io : Io σ}

theorem Coherent.hide
    (h : Coherent B L io) {block n : Nat} {s : σ} {data : Bytes} (hgood : B.Good s)
    (hlen : data.length = n * io.channel.blockSize)
    (hcontent : B.content s =
      (B.content io.sys).pwrite (place B.offset io.channel.blockSize block) data) :
    Coherent B (L.pwrite (place B.offset io.channel.blockSize block) data)
      { channel := io.channel.hide block (block + n), sys := s } := by
  have hapart : ∀ b, ¬ (block ≤ b ∧ b < block + n) →
      place B.offset io.channel.blockSize block + data.length ≤
          place B.offset io.channel.blockSize b ∨
        place B.offset io.channel.blockSize b + io.channel.blockSize ≤
          place B.offset io.channel.blockSize block := by
    intro b hb
    rw [hlen]
    exact place_apart _ _ fun k hk hbk => hb (by omega)
  have hinside : ∀ b, block ≤ b ∧ b < block + n →
      place B.offset io.channel.blockSize block ≤ place B.offset io.channel.blockSize b ∧
        place B.offset io.channel.blockSize b + io.channel.blockSize ≤
          place B.offset io.channel.blockSize block + data.length := by
    intro b hb
    obtain ⟨k, rfl⟩ := Nat.exists_eq_add_of_le hb.1
    have hk : k + 1 ≤ n := by omega
    have hle := Nat.mul_le_mul_right io.channel.blockSize hk
    rw [Nat.succ_mul] at hle
    rw [place_add, hlen]
    omega
  constructor
  · exact hgood
  · intro i j hi hj hij
    have hi' := (Channel.hide_inUse hi).2
    have hj' := (Channel.hide_inUse hj).2
    rw [hi'] at hi hij
    rw [hj'] at hj hij
    exact h.unique i j hi hj hij
  · intro i hi
    have hi' := (Channel.hide_inUse hi).2
    rw [hi'] at hi ⊢
    exact h.length_buf i hi
  · exact fun b hb => h.limit b hb.of_hide
  · intro i hi
    obtain ⟨hout, hi'⟩ := Channel.hide_inUse hi
    rw [hi'] at hi ⊢
    apply (h.holds i hi).pwrite_of_disjoint
    rw [h.length_buf i hi]
    exact (hapart _ hout).symm
  · intro x hx
    rw [hcontent]
    by_cases hin : place B.offset io.channel.blockSize block ≤ x ∧
        x < place B.offset io.channel.blockSize block + data.length
    · exact ByteFile.byte_pwrite_of_inside _ _ hin.1 hin.2
    · rw [ByteFile.byte_pwrite_of_outside _ (by omega),
        ByteFile.byte_pwrite_of_outside _ (by omega)]
      apply h.settled
      intro b hb
      by_cases hout : block ≤ b ∧ b < block + n
      · have := hinside b hout
        omega
      · exact hx b (hb.hide hout)
  · rw [hcontent, ByteFile.size_pwrite, ByteFile.size_pwrite]
    have := h.size_le
    split_ifs <;> omega
  · intro m hm hends
    rw [hcontent, ByteFile.size_pwrite] at hm
    have hreach : data ≠ [] →
        place B.offset io.channel.blockSize block + data.length ≤ m := by
      intro hne
      rw [if_neg hne] at hm
      omega
    have hL : L.size ≤ m := by
      apply h.size_ge m (by split_ifs at hm <;> omega)
      intro b hb
      by_cases hout : block ≤ b ∧ b < block + n
      · have hne : data ≠ [] := by
          rintro rfl
          have hpos := io.channel.blockSize_pos
          have := hinside b hout
          simp only [List.length_nil] at this
          omega
        have := hreach hne
        have := hinside b hout
        omega
      · exact hends b (hb.hide hout)
    rw [ByteFile.size_pwrite]
    split_ifs with hne
    · exact hL
    · exact max_le hL (hreach hne)

/-- What the loop over the blocks of a write with write-through keeps: the blocks still to
come are hidden. -/
structure Through (B : Backing raw) (L : ByteFile) (io : Io σ) (block n : Nat) : Prop where
  unique : io.channel.Unique
  coherent : Coherent B L { io with channel := io.channel.hide block (block + n) }
  safe : io.channel.ThroughSafe block n

/-- A slot that holds the block, or is unused, gets the content that was written. -/
theorem Through.set
    {block n : Nat} (h : Through B L io block (n + 1)) {i : Slot} {c : Cache} {s : σ}
    (hdrop : Coherent B L
      { channel := (io.channel.hide block (block + (n + 1))).set i
          ((io.channel.hide block (block + (n + 1))).cache i).unused
        sys := s })
    (hother : ∀ j, j ≠ i → (io.channel.cache j).inUse = true → (io.channel.cache j).block ≠ block)
    (hblock : c.block = block) (hdirty : c.dirty = false)
    (hlen : c.buf.length = io.channel.blockSize)
    (hholds : L.Holds (place B.offset io.channel.blockSize block) c.buf)
    (hsafe : ∀ k, k < n → io.channel.DirtyBut i (block + 1 + k) →
      ∀ j, j < k → (io.channel.set i c).Cached (block + 1 + j)) :
    Through B L { channel := io.channel.set i c, sys := s } (block + 1) n := by
  refine ⟨?_, ?_, ?_⟩
  · exact h.unique.set fun j hj hjuse _ => by rw [hblock]; exact hother j hj hjuse
  · have hfree : ¬ ((io.channel.hide block (block + (n + 1))).set i
        ((io.channel.hide block (block + (n + 1))).cache i).unused).Cached c.block := by
      rintro ⟨j, hj, hjb⟩
      by_cases hji : j = i
      · rw [hji, Channel.set_cache_self] at hj
        cases hj
      · rw [Channel.set_cache_of_ne _ hji] at hj hjb
        have hj' := (Channel.hide_inUse hj).2
        rw [hj'] at hj hjb
        exact hother j hji hj (hjb.trans hblock)
    have hinstall := hdrop.install (i := i) (c := c) (by simp [Cache.unused]) hdirty hfree hlen
      (by rw [hblock]; exact hholds)
    rw [Channel.set_set] at hinstall
    exact hinstall.same (Channel.same_hide_set hblock hother)
  · intro k hk hd
    rcases (Channel.dirty_set _ i c _).mp hd with hd | ⟨⟨-, hc⟩, -⟩
    · exact hsafe k hk hd
    · simp [hdirty] at hc

theorem Through.same {block n : Nat} (h : Through B L io block n) {ch : Channel}
    (hch : Channel.Same io.channel ch) : Through B L { io with channel := ch } block n := by
  refine ⟨?_, h.coherent.same (hch.hide block (block + n)), ?_⟩
  · intro i j hi hj hij
    rw [hch.inUse] at hi hj
    rw [hch.block, hch.block] at hij
    exact h.unique i j hi hj hij
  · intro k hk hd j hj
    rw [Channel.Dirty.same hch] at hd
    rw [Channel.Cached.same hch]
    exact h.safe k hk hd j hj

theorem Through.dropSlot_sys {block n : Nat} (h : Through B L io block n)
    (hfree : ¬ io.channel.Cached block) (e : Slot) :
    (dropSlot raw e { io with channel := io.channel.hide block (block + n) }).sys =
      (dropSlot raw e io).sys := by
  by_cases hin : block ≤ (io.channel.cache e).block ∧ (io.channel.cache e).block < block + n
  · have hsaved : ¬ (io.channel.cache e).Unsaved := by
      intro he
      obtain ⟨k, hk⟩ := Nat.exists_eq_add_of_le hin.1
      by_cases hzero : k = 0
      · exact hfree ⟨e, he.1, by omega⟩
      · exact hfree (h.safe k (by omega) ⟨e, he.1, he.2, hk⟩ 0 (by omega))
    rcases dropSlot_cases raw io e with ⟨he, -⟩ | ⟨-, heq⟩
    · exact absurd he hsaved
    rcases dropSlot_cases raw { io with channel := io.channel.hide block (block + n) } e with
      ⟨he, -⟩ | ⟨-, heq'⟩
    · have huse := he.1
      dsimp only at huse
      rw [Channel.hide_cache_of_in hin] at huse
      cases huse
    rw [heq, heq']
  · unfold dropSlot
    dsimp only
    rw [Channel.hide_cache_of_out hin]
    rfl

/-- **One block of a write with write-through.** -/
theorem Through.step
    {block n : Nat} (h : Through B L io block (n + 1)) {data : Bytes}
    (hlen : data.length = io.channel.blockSize)
    (hholds : L.Holds (place B.offset io.channel.blockSize block) data) :
    Through B L
      { (writeSlot raw block io).2 with
        channel := (writeSlot raw block io).2.channel.set (writeSlot raw block io).1
          { (writeSlot raw block io).2.channel.cache (writeSlot raw block io).1 with
            buf := data
            dirty := false } } (block + 1) n := by
  have hshift : ∀ k, block + 1 + k = block + (k + 1) := fun k => by omega
  unfold writeSlot
  rcases findCachedBlock_cases io.channel block with ⟨i, hfind, huse, hblock⟩ | ⟨e, hfind, hfree⟩
  · rw [hfind]
    have hsame := io.channel.same_touch i
    have htouch := h.same hsame
    have huse' : ((io.channel.touch i).cache i).inUse = true := (hsame.inUse i).trans huse
    have hblock' : ((io.channel.touch i).cache i).block = block := (hsame.block i).trans hblock
    have hin : block ≤ ((io.channel.touch i).cache i).block ∧
        ((io.channel.touch i).cache i).block < block + (n + 1) := by
      omega
    refine htouch.set ?_ ?_ hblock' rfl hlen hholds ?_
    · exact htouch.coherent.set_unused (by dsimp only; rw [Channel.hide_cache_of_in hin]; rfl) rfl
    · exact fun j hj hjuse hjb => hj (htouch.unique j i hjuse huse' (hjb.trans hblock'.symm))
    · intro k hk hd j hj
      rw [hshift] at hd ⊢
      obtain ⟨m, hm, hmb⟩ := htouch.safe (k + 1) (by omega)
        ((Channel.dirty_iff _ i _).mpr (.inl hd)) (j + 1) (by omega)
      refine ⟨m, ?_⟩
      by_cases hmi : m = i
      · subst hmi
        dsimp only at hmb
        omega
      · rw [Channel.set_cache_of_ne _ hmi]
        exact ⟨hm, hmb⟩
  · rw [hfind]
    have hcache := reuseCache_cache raw e block io
    have hdrop := h.coherent.drop e
    have hsys := h.dropSlot_sys hfree e
    have hset : Through B L
        { channel := io.channel.set e
            { (reuseCache raw e block io).channel.cache e with buf := data, dirty := false }
          sys := (dropSlot raw e io).sys } (block + 1) n := by
      refine h.set ?_ ?_ (by rw [hcache]) rfl hlen hholds ?_
      · rw [← hsys]
        exact hdrop
      · exact fun j _ hjuse hjb => hfree ⟨j, hjuse, hjb⟩
      · intro k hk hd
        rw [hshift] at hd
        exact absurd (h.safe (k + 1) (by omega) ((Channel.dirty_iff _ e _).mpr (.inl hd)) 0
          (by omega)) hfree
    refine hset.same ?_
    have hsame := same_reuseCache raw e block io
      { (reuseCache raw e block io).channel.cache e with buf := data, dirty := false }
    rw [show (dropSlot raw e io).channel = io.channel.set e (io.channel.cache e).unused from rfl,
      Channel.set_set] at hsame
    exact hsame

theorem writeSlot_sizes (raw : Raw σ) (block : Nat) (io : Io σ) (c : Cache) :
    ({ (writeSlot raw block io).2 with
        channel := (writeSlot raw block io).2.channel.set (writeSlot raw block io).1 c } :
        Io σ).channel.blockSize = io.channel.blockSize ∧
      ({ (writeSlot raw block io).2 with
        channel := (writeSlot raw block io).2.channel.set (writeSlot raw block io).1 c } :
        Io σ).channel.refcount = io.channel.refcount := by
  unfold writeSlot
  rcases findCachedBlock_cases io.channel block with ⟨i, hfind, -⟩ | ⟨e, hfind, -⟩
  · rw [hfind]
    exact ⟨rfl, rfl⟩
  · rw [hfind]
    exact ⟨rfl, rfl⟩

/-- **The loop over the blocks of a write with write-through.** -/
theorem Through.writeLoop
    {n block : Nat} (h : Through B L io block n) (buf : Buffer)
    (hholds : L.Holds (place B.offset io.channel.blockSize block)
      (buf.bytes (n * io.channel.blockSize))) :
    Becomes B L io (writeLoop raw true n block buf io) := by
  induction n generalizing io block buf with
  | zero =>
      refine ⟨?_, rfl, rfl⟩
      rw [UnixIo.writeLoop]
      have hcache : ∀ i, (io.channel.hide block (block + 0)).cache i = io.channel.cache i :=
        fun i => Channel.hide_cache_of_out (by omega)
      exact h.coherent.same ⟨rfl, fun i => by rw [hcache], fun i => by rw [hcache],
        fun i => by rw [hcache], fun i => by rw [hcache]⟩
  | succ n ih =>
      rw [writeLoop_succ, Bool.not_true]
      rw [Nat.succ_mul, Nat.add_comm, Buffer.bytes_add, ByteFile.holds_append,
        Buffer.length_bytes] at hholds
      have hstep := h.step (Buffer.length_bytes buf io.channel.blockSize) hholds.1
      have hsizes := writeSlot_sizes raw block io
        { (writeSlot raw block io).2.channel.cache (writeSlot raw block io).1 with
          buf := buf.bytes io.channel.blockSize
          dirty := false }
      generalize ({ (writeSlot raw block io).2 with
        channel := (writeSlot raw block io).2.channel.set (writeSlot raw block io).1
          { (writeSlot raw block io).2.channel.cache (writeSlot raw block io).1 with
            buf := buf.bytes io.channel.blockSize
            dirty := false } } : Io σ) = io₁ at hstep hsizes ⊢
      obtain ⟨hsize, hrefs⟩ := hsizes
      have hrest := ih hstep (buf.advance io.channel.blockSize) (by
        rw [hsize, place_add, Nat.one_mul]
        exact hholds.2)
      exact ⟨hrest.coherent, hrest.blockSize.trans hsize, hrest.refcount.trans hrefs⟩

end Through

section Calls

variable {σ : Type} {raw : Raw σ} {B : Backing raw} {L : ByteFile} {io : Io σ}

/-- What a write needs: the device takes a block in one call, and with write-through no
dirty block stands behind a missing one. -/
structure Writable (B : Backing raw) (io : Io σ) (writethrough : Bool) (block : Nat)
    (count : Int) : Prop where
  limit : 0 < count → io.channel.blockSize ≤ B.limit
  safe : writethrough = true → count ≤ writeDirectSize →
    io.channel.ThroughSafe block count.toNat

/-- **A write** changes the logical content as the raw device would. -/
theorem Coherent.write
    (h : Coherent B L io) {writethrough : Bool} {block : Nat} {count : Int} {buf : Buffer}
    (hok : (unixWriteBlk64 raw writethrough block count buf io).1 = .ok)
    (hwritable : Writable B io writethrough block count) :
    Becomes B (B.put io.channel.blockSize (place B.offset io.channel.blockSize block)
      (buf.bytes (transferSize io.channel.blockSize count)) L) io
      (unixWriteBlk64 raw writethrough block count buf io).2 := by
  have hpos := io.channel.blockSize_pos
  unfold unixWriteBlk64 at hok ⊢
  by_cases hdirect : count < 0 ∨ (writeDirectSize : Int) < count
  · rw [if_pos hdirect] at hok ⊢
    obtain ⟨io₁, hflush, hkeeps, hcontent, hunused⟩ := h.flush true
    rw [hflush] at hok ⊢
    dsimp only at hok ⊢
    rw [hkeeps.blockSize] at hok ⊢
    obtain ⟨hwritten, -⟩ := B.writeBlk_ok hkeeps.coherent.good hpos hok
    have hgood := B.writeBlk_good io.channel.blockSize block count buf hkeeps.coherent.good
    rw [hcontent] at hwritten
    refine ⟨?_, hkeeps.blockSize, hkeeps.refcount⟩
    rw [← hwritten]
    exact coherent_of_unused hgood (hunused rfl)
  · rw [if_neg hdirect] at hok ⊢
    obtain ⟨n, rfl⟩ := Int.eq_ofNat_of_zero_le (show 0 ≤ count by omega)
    rw [transferSize_natCast, B.put_blocks _ _ hpos (by simp), Int.toNat_natCast]
    cases writethrough with
    | false =>
        exact h.writeLoop_back n block buf fun hn => hwritable.limit (by omega)
    | true =>
        dsimp only [if_true] at hok ⊢
        obtain ⟨hwritten, -⟩ := B.writeBlk_ok h.good hpos hok
        rw [transferSize_natCast, B.put_blocks _ _ hpos (by simp)] at hwritten
        have hgood := B.writeBlk_good io.channel.blockSize block (n : Int) buf h.good
        have hthrough : Through B (L.pwrite (place B.offset io.channel.blockSize block)
            (buf.bytes (n * io.channel.blockSize)))
            { io with sys := (raw.writeBlk io.channel.blockSize block n buf io.sys).2 } block n :=
          { unique := h.unique
            coherent := h.hide hgood (Buffer.length_bytes _ _) hwritten
            safe := by
              have hsafe := hwritable.safe rfl (by omega)
              rwa [Int.toNat_natCast] at hsafe }
        have hloop := hthrough.writeLoop buf (ByteFile.holds_pwrite_self _ _ _)
        exact ⟨hloop.coherent, hloop.blockSize, hloop.refcount⟩

theorem Coherent.writeByte
    (h : Coherent B L io) {offset : Nat} {data : Bytes}
    (hok : (unixWriteByte raw offset data io).1 = .ok) :
    Becomes B (L.pwrite (offset + B.offset) data) io (unixWriteByte raw offset data io).2 := by
  unfold unixWriteByte at hok ⊢
  by_cases halign : raw.align ≠ 0
  · rw [if_pos halign] at hok
    cases hok
  rw [if_neg halign] at hok ⊢
  obtain ⟨io₁, hflush, hkeeps, hcontent, hunused⟩ := h.flush true
  rw [hflush] at hok ⊢
  dsimp only at hok ⊢
  obtain ⟨hgood, hwritten⟩ := B.writeByte_ok hkeeps.coherent.good hok
  rw [hcontent] at hwritten
  refine ⟨?_, hkeeps.blockSize, hkeeps.refcount⟩
  rw [← hwritten]
  exact coherent_of_unused hgood (hunused rfl)

/-- `unix_flush` writes the logical content out. -/
theorem Coherent.unixFlush (h : Coherent B L io) :
    Becomes B L io (unixFlush raw io).2 ∧ B.content (unixFlush raw io).2.sys = L := by
  obtain ⟨io₁, hflush, hkeeps, hcontent, -⟩ := h.flush false
  unfold UnixIo.unixFlush
  rw [hflush]
  dsimp only
  obtain ⟨hgood, hsame⟩ := B.sync_sys hkeeps.coherent.good
  refine ⟨⟨?_, hkeeps.blockSize, hkeeps.refcount⟩, hsame.trans hcontent⟩
  have hc := hkeeps.coherent
  exact {
    good := hgood
    unique := hc.unique
    length_buf := hc.length_buf
    limit := hc.limit
    holds := hc.holds
    settled := by
      rw [hsame]
      exact hc.settled
    size_le := by
      rw [hsame]
      exact hc.size_le
    size_ge := by
      rw [hsame]
      exact hc.size_ge }

/-- `unix_set_blksize` keeps the logical content, and a change of the block size writes it
out. -/
theorem Coherent.unixSetBlksize (h : Coherent B L io) (blksize : Nat) (pos : 0 < blksize) :
    Coherent B L (unixSetBlksize raw blksize pos io).2 ∧
      (unixSetBlksize raw blksize pos io).2.channel.blockSize = blksize ∧
      (unixSetBlksize raw blksize pos io).2.channel.refcount = io.channel.refcount ∧
      (io.channel.blockSize ≠ blksize →
        B.content (unixSetBlksize raw blksize pos io).2.sys = L) := by
  unfold UnixIo.unixSetBlksize
  by_cases hsame : io.channel.blockSize = blksize
  · rw [if_pos hsame]
    exact ⟨h, hsame, rfl, fun hne => absurd hsame hne⟩
  · rw [if_neg hsame]
    obtain ⟨io₁, hflush, hkeeps, hcontent, -⟩ := h.flush false
    rw [hflush]
    dsimp only
    refine ⟨?_, rfl, hkeeps.refcount, fun _ => hcontent⟩
    rw [← hcontent]
    exact coherent_of_unused hkeeps.coherent.good fun _ => rfl

/-- The last `unix_close` writes the logical content out. -/
theorem Coherent.unixClose (h : Coherent B L io) (hrefs : io.channel.refcount ≤ 1) :
    B.content (unixClose raw io).2.sys = L := by
  have hcoherent : Coherent B L
      { io with channel := { io.channel with refcount := io.channel.refcount - 1 } } :=
    h.same ⟨rfl, fun _ => rfl, fun _ => rfl, fun _ => rfl, fun _ => rfl⟩
  obtain ⟨io₁, hflush, -, hcontent, -⟩ := hcoherent.flush false
  unfold UnixIo.unixClose
  dsimp only
  rw [if_neg (by omega), hflush]
  exact hcontent

end Calls

section Runs

variable {σ : Type} {raw : Raw σ} {B : Backing raw} {L : ByteFile} {io : Io σ}

/-- The effect of a call on the logical content, at a block size. -/
def Op.apply (B : Backing raw) (bs : Nat) (L : ByteFile) : Op → ByteFile
  | .readBlk64 _ _ _ => L
  | .writeBlk64 _ block count buf =>
      B.put bs (place B.offset bs block) (buf.bytes (transferSize bs count)) L
  | .writeByte offset data => L.pwrite (offset + B.offset) data
  | .flush => L
  | .setBlksize _ _ => L

/-- The block size behind a call. -/
def Op.blockSize (bs : Nat) : Op → Nat
  | .setBlksize blksize _ => blksize
  | _ => bs

/-- What a call returns if the content is `L`. -/
def Op.Returns (B : Backing raw) (bs : Nat) (L : ByteFile) (data : Bytes) : Op → Prop
  | .readBlk64 block count _ =>
      data.length = transferSize bs count ∧ L.Holds (place B.offset bs block) data
  | _ => data = []

/-- What a call needs of the state before it. -/
def Op.Safe (B : Backing raw) (io : Io σ) : Op → Prop
  | .readBlk64 block count _ => ReadableBlk64 B io block count
  | .writeBlk64 writethrough block count _ => Writable B io writethrough block count
  | _ => True

theorem Errcode.result_eq_ok {e : Errcode} {data : Bytes} (h : e.result = .ok data) :
    e = .ok ∧ data = [] := by
  cases e with
  | ok =>
      cases h
      exact ⟨rfl, rfl⟩
  | errno =>
      cases h
  | shortRead =>
      cases h
  | shortWrite =>
      cases h
  | unimplemented =>
      cases h
  | redo code =>
      cases h

/-- **One call**: the logical content changes as that of a device without a cache, and a
read returns it. -/
theorem Coherent.run
    (h : Coherent B L io) {op : Op} {data : Bytes} (hok : (op.run raw io).1 = .ok data)
    (hsafe : op.Safe B io) :
    Coherent B (op.apply B io.channel.blockSize L) (op.run raw io).2 ∧
      (op.run raw io).2.channel.blockSize = op.blockSize io.channel.blockSize ∧
      (op.run raw io).2.channel.refcount = io.channel.refcount ∧
      op.Returns B io.channel.blockSize L data := by
  cases op with
  | readBlk64 block count addr =>
      obtain ⟨hkeeps, hdata⟩ := h.read block count addr hsafe
      refine ⟨hkeeps.coherent, hkeeps.blockSize, hkeeps.refcount, hdata data ?_⟩
      cases hr : (unixReadBlk64 raw block count addr io).1 with
      | error e =>
          simp [Op.run, hr, Except.mapError] at hok
      | ok bytes =>
          simp only [Op.run, hr, Except.mapError] at hok
          cases hok
          rfl
  | writeBlk64 writethrough block count buf =>
      obtain ⟨hok, hdata⟩ := Errcode.result_eq_ok hok
      have hwrite := h.write hok hsafe
      exact ⟨hwrite.coherent, hwrite.blockSize, hwrite.refcount, hdata⟩
  | writeByte offset bytes =>
      obtain ⟨hok, hdata⟩ := Errcode.result_eq_ok hok
      have hwrite := h.writeByte hok
      exact ⟨hwrite.coherent, hwrite.blockSize, hwrite.refcount, hdata⟩
  | flush =>
      obtain ⟨-, hdata⟩ := Errcode.result_eq_ok hok
      have hflush := h.unixFlush.1
      exact ⟨hflush.coherent, hflush.blockSize, hflush.refcount, hdata⟩
  | setBlksize blksize pos =>
      obtain ⟨-, hdata⟩ := Errcode.result_eq_ok hok
      obtain ⟨hcoherent, hsize, hrefs, -⟩ := h.unixSetBlksize blksize pos
      exact ⟨hcoherent, hsize, hrefs, hdata⟩

end Runs

end UnixIo
end Rfsck
