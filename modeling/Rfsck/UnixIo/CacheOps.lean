import Rfsck.UnixIo.Coherence

/-!
# The operations of a channel keep its coherence

One specification lemma for each function of the channel, over any `Backing`.

* `Coherent.flush`: a flush writes the logical content out.
* `Coherent.read`: a read returns the logical content, if each block of it is in the cache
  along with all blocks before it, or is clear.
* `Coherent.write`: a write changes the logical content as it would change a device
  without a cache.  With write-through this needs that no dirty block is met behind one
  that is not in the cache: the slot of the dirty block might be reused for the missing
  one, and its old content written over the new one.
-/

namespace Rfsck
namespace UnixIo

open Storage

section Flush

variable {σ : Type} {raw : Raw σ} {B : Backing raw} {L : ByteFile} {io : Io σ}

/-- What a flush leaves in a slot. -/
def Cache.Flushed (invalidate : Bool) (c : Cache) : Prop :=
  c.inUse = true → c.dirty = false ∧ invalidate = false

/-- A step that keeps the logical content, and the block size with it. -/
structure Keeps (B : Backing raw) (L : ByteFile) (io io' : Io σ) : Prop where
  coherent : Coherent B L io'
  blockSize : io'.channel.blockSize = io.channel.blockSize
  refcount : io'.channel.refcount = io.channel.refcount
  clear : ∀ l n, B.Clear io l n → B.Clear io' l n

theorem Keeps.refl (h : Coherent B L io) : Keeps B L io io :=
  ⟨h, rfl, rfl, fun _ _ hl => hl⟩

theorem Keeps.trans {io₁ io₂ : Io σ} (h₁ : Keeps B L io io₁) (h₂ : Keeps B L io₁ io₂) :
    Keeps B L io io₂ :=
  ⟨h₂.coherent, h₂.blockSize.trans h₁.blockSize, h₂.refcount.trans h₁.refcount,
    fun l n hl => h₂.clear l n (h₁.clear l n hl)⟩

theorem Coherent.keeps_same
    (h : Coherent B L io) {ch : Channel} (hch : Channel.Same io.channel ch)
    (hcount : ch.refcount = io.channel.refcount) :
    Keeps B L io { io with channel := ch } :=
  ⟨h.same hch, hch.blockSize, hcount,
    fun _ _ hl => hl.of_dirty hch.blockSize id fun b => (Channel.Dirty.same hch b).mp⟩

theorem Coherent.keeps_drop (h : Coherent B L io) (i : Slot) :
    Keeps B L io (dropSlot raw i io) :=
  ⟨h.drop i, rfl, rfl, fun _ _ hl => h.clear_drop i hl⟩

theorem Coherent.keeps_install
    (h : Coherent B L io) {i : Slot} (hi : (io.channel.cache i).inUse = false) {c : Cache}
    (hclean : c.dirty = false) (hfree : ¬ io.channel.Cached c.block)
    (hlen : c.buf.length = io.channel.blockSize)
    (hholds : L.Holds (place B.offset io.channel.blockSize c.block) c.buf) :
    Keeps B L io { io with channel := io.channel.set i c } := by
  refine ⟨h.install hi hclean hfree hlen hholds, rfl, rfl, fun l n hl => ?_⟩
  refine hl.of_dirty rfl id fun b hb => ?_
  rcases (Channel.dirty_set _ i c b).mp hb with hb | ⟨⟨-, hc⟩, -⟩
  · exact (Channel.dirty_iff _ i b).mpr (.inl hb)
  · simp [hclean] at hc

theorem Coherent.keeps_set_unused
    (h : Coherent B L io) {i : Slot} (hi : (io.channel.cache i).inUse = false) {c : Cache}
    (hc : c.inUse = false) :
    Keeps B L io { io with channel := io.channel.set i c } := by
  refine ⟨h.set_unused hi hc, rfl, rfl, fun l n hl => ?_⟩
  refine hl.of_dirty rfl id fun b hb => ?_
  rcases (Channel.dirty_set _ i c b).mp hb with hb | ⟨⟨hc', -⟩, -⟩
  · exact (Channel.dirty_iff _ i b).mpr (.inl hb)
  · simp [hc] at hc'

theorem Coherent.flush_slot
    (h : Coherent B L io) (invalidate : Bool) (e : Errcode) (i : Slot) :
    ∃ io', flushSlot raw invalidate (e, io) i = (e, io') ∧ Keeps B L io io' ∧
      (io'.channel.cache i).Flushed invalidate ∧
      ∀ j, j ≠ i → io'.channel.cache j = io.channel.cache j := by
  unfold flushSlot
  dsimp only
  have hother : ∀ (c : Cache) (j : Slot), j ≠ i →
      (io.channel.set i c).cache j = io.channel.cache j :=
    fun c j hj => Channel.set_cache_of_ne _ hj c
  have hdrop := h.keeps_drop i
  by_cases huse : (io.channel.cache i).inUse = true
  · rw [if_neg (by simp [huse])]
    by_cases hdirty : (io.channel.cache i).dirty = true
    · rw [if_neg (by simp [hdirty])]
      have hok := (h.writeBack_spec ⟨huse, hdirty⟩).1
      rcases dropSlot_cases raw io i with ⟨-, heq⟩ | ⟨hi, -⟩
      swap
      · exact absurd ⟨huse, hdirty⟩ hi
      have hback : ∃ s, writeBack raw io.channel.blockSize (io.channel.cache i) io.sys =
          (.ok, s) := ⟨_, Prod.ext hok rfl⟩
      obtain ⟨s, hs⟩ := hback
      rw [hs] at heq ⊢
      have hunused := dropSlot_inUse raw io i
      have hfree := not_cached_dropSlot raw h.unique huse
      rw [heq] at hdrop hunused hfree
      cases invalidate with
      | true =>
          refine ⟨_, rfl, hdrop.trans ?_, fun hc => by simp at hc, hother _⟩
          have hset := hdrop.coherent.keeps_set_unused hunused
            (c := { io.channel.cache i with inUse := false, dirty := false }) rfl
          rw [Channel.set_set] at hset
          exact hset
      | false =>
          refine ⟨_, rfl, hdrop.trans ?_, fun _ => by simp, hother _⟩
          have hset := hdrop.coherent.keeps_install hunused
            (c := { io.channel.cache i with dirty := false }) rfl hfree
            (h.length_buf i huse) (h.holds i huse)
          rw [Channel.set_set] at hset
          exact hset
    · rw [if_pos (by simpa using hdirty)]
      rcases dropSlot_cases raw io i with ⟨hi, -⟩ | ⟨-, heq⟩
      · exact absurd hi.2 hdirty
      cases invalidate with
      | true =>
          rw [heq] at hdrop
          exact ⟨_, rfl, hdrop, fun hc => by simp at hc, hother _⟩
      | false =>
          refine ⟨io, ?_, Keeps.refl h, fun _ => ⟨by simpa using hdirty, rfl⟩, fun _ _ => rfl⟩
          simp [Channel.set]
  · rw [if_pos (by simpa using huse)]
    exact ⟨io, rfl, Keeps.refl h, fun hc => absurd hc huse, fun _ _ => rfl⟩

theorem Coherent.flush_slots
    (h : Coherent B L io) (invalidate : Bool) (e : Errcode) (is : List Slot) :
    ∃ io', is.foldl (flushSlot raw invalidate) (e, io) = (e, io') ∧ Keeps B L io io' ∧
      ∀ i, i ∈ is ∨ (io.channel.cache i).Flushed invalidate →
        (io'.channel.cache i).Flushed invalidate := by
  induction is generalizing io with
  | nil =>
      exact ⟨io, rfl, Keeps.refl h, fun i hi => by simpa using hi⟩
  | cons k is ih =>
      obtain ⟨io₁, hrun₁, hkeeps₁, hflushed₁, hother₁⟩ := h.flush_slot invalidate e k
      obtain ⟨io₂, hrun₂, hkeeps₂, hflushed₂⟩ := ih hkeeps₁.coherent
      refine ⟨io₂, ?_, hkeeps₁.trans hkeeps₂, fun i hi => hflushed₂ i ?_⟩
      · rw [List.foldl_cons, hrun₁, hrun₂]
      · by_cases hik : i = k
        · rw [hik]
          exact .inr hflushed₁
        · rw [hother₁ i hik]
          exact hi.imp_left fun hmem => (List.mem_cons.mp hmem).resolve_left hik

/-- **A flush** succeeds, and writes the logical content out. -/
theorem Coherent.flush (h : Coherent B L io) (invalidate : Bool) :
    ∃ io', flushCachedBlocks raw invalidate io = (.ok, io') ∧ Keeps B L io io' ∧
      B.content io'.sys = L ∧ (invalidate = true → ∀ i, (io'.channel.cache i).inUse = false) := by
  obtain ⟨io', hrun, hkeeps, hflushed⟩ := h.flush_slots invalidate .ok (List.finRange cacheSize)
  have hall := fun i => hflushed i (.inl (List.mem_finRange i))
  refine ⟨io', hrun, hkeeps, hkeeps.coherent.content_eq ?_, ?_⟩
  · rintro b ⟨i, huse, hdirty, -⟩
    rw [(hall i huse).1] at hdirty
    cases hdirty
  · intro hinv i
    by_contra huse
    rw [Bool.not_eq_false] at huse
    rw [(hall i huse).2] at hinv
    cases hinv

end Flush

section Read

variable {σ : Type} {raw : Raw σ} {B : Backing raw} {L : ByteFile} {io : Io σ}

theorem Coherent.keeps_readBlk
    (h : Coherent B L io) (bs b : Nat) (count : Int) (addr : Nat) :
    Keeps B L io { io with sys := (raw.readBlk bs b count addr io.sys).2 } := by
  obtain ⟨hgood, hcontent, hfresh⟩ := B.readBlk_sys bs b count addr h.good
  refine ⟨?_, rfl, rfl, fun l n hl => hl.of_dirty rfl (hfresh l n) fun _ hb => hb⟩
  exact {
    good := hgood
    unique := h.unique
    length_buf := h.length_buf
    limit := h.limit
    holds := h.holds
    settled := by
      rw [hcontent]
      exact h.settled
    size_le := by
      rw [hcontent]
      exact h.size_le
    size_ge := by
      rw [hcontent]
      exact h.size_ge }

/-- What is read below the cache, apart from the dirty blocks. -/
theorem Coherent.readBlk_holds
    (h : Coherent B L io) {b : Nat} {count : Int} {addr : Nat} {data : Bytes}
    (hok : (raw.readBlk io.channel.blockSize b count addr io.sys).1 = .ok data)
    (hfresh : B.Fresh io.sys (place B.offset io.channel.blockSize b)
      (transferSize io.channel.blockSize count))
    (hapart : ∀ b', io.channel.Dirty b' →
      place B.offset io.channel.blockSize b + transferSize io.channel.blockSize count ≤
          place B.offset io.channel.blockSize b' ∨
        place B.offset io.channel.blockSize b' + io.channel.blockSize ≤
          place B.offset io.channel.blockSize b) :
    data.length = transferSize io.channel.blockSize count ∧
      L.Holds (place B.offset io.channel.blockSize b) data := by
  obtain ⟨hlen, hholds⟩ := B.readBlk_ok h.good io.channel.blockSize_pos hok hfresh
  refine ⟨hlen, fun k byte hk => ?_⟩
  have hlt : k < data.length := (List.getElem?_eq_some_iff.mp hk).1
  obtain ⟨hsize, hbyte⟩ := hholds k byte hk
  refine ⟨lt_of_lt_of_le hsize h.size_le, ?_⟩
  rw [← hbyte]
  symm
  apply h.settled
  intro b' hb'
  have := hapart b' hb'
  omega

theorem same_reuseCache (raw : Raw σ) (i : Slot) (b : Nat) (io : Io σ) (c : Cache) :
    Channel.Same ((dropSlot raw i io).channel.set i c)
      ((reuseCache raw i b io).channel.set i c) := by
  have hcache : ∀ j, ((reuseCache raw i b io).channel.set i c).cache j =
      ((dropSlot raw i io).channel.set i c).cache j := by
    intro j
    by_cases hj : j = i
    · rw [hj, Channel.set_cache_self, Channel.set_cache_self]
    · simp [reuseCache, dropSlot, Channel.set, Channel.touch, hj]
  exact ⟨rfl, fun j => by rw [hcache], fun j => by rw [hcache], fun j => by rw [hcache],
    fun j => by rw [hcache]⟩

theorem reuseCache_cache (raw : Raw σ) (i : Slot) (b : Nat) (io : Io σ) :
    (reuseCache raw i b io).channel.cache i =
      { io.channel.cache i with
        block := b
        accessTime := io.channel.accessTime + 1
        dirty := false
        inUse := true } := by
  simp [reuseCache, Channel.set, Channel.touch]

theorem reuseCache_sys (raw : Raw σ) (i : Slot) (b : Nat) (io : Io σ) :
    (reuseCache raw i b io).sys = (dropSlot raw i io).sys := by
  rfl

/-- **A slot is reused** for a block of the logical content; `s` is the state below, which
a read may have changed. -/
theorem Coherent.keeps_fill
    {i : Slot} {s : σ} (h : Coherent B L { dropSlot raw i io with sys := s }) {b : Nat}
    {data : Bytes} (hfree : ¬ io.channel.Cached b)
    (hlen : data.length = io.channel.blockSize)
    (hholds : L.Holds (place B.offset io.channel.blockSize b) data) :
    Keeps B L { dropSlot raw i io with sys := s }
      (Io.fill { reuseCache raw i b io with sys := s } i data) := by
  have hfree' : ¬ (dropSlot raw i io).channel.Cached b := fun hc => hfree hc.of_dropSlot
  have hinstall := h.keeps_install (dropSlot_inUse raw io i)
    (c := { (reuseCache raw i b io).channel.cache i with buf := data })
    (by rw [reuseCache_cache]) (by rw [reuseCache_cache]; exact hfree')
    hlen (by rw [reuseCache_cache]; exact hholds)
  exact hinstall.trans (hinstall.coherent.keeps_same (same_reuseCache raw i b io _) rfl)

theorem Coherent.keeps_save
    (h : Coherent B L io) (i : Slot) {b : Nat} {data : Bytes} (hfree : ¬ io.channel.Cached b)
    (hlen : data.length = io.channel.blockSize)
    (hholds : L.Holds (place B.offset io.channel.blockSize b) data) :
    Keeps B L io ((reuseCache raw i b io).fill i data) := by
  have hdrop := h.keeps_drop i
  exact hdrop.trans (Coherent.keeps_fill hdrop.coherent hfree hlen hholds)

theorem Channel.Cached.of_save {raw : Raw σ} {i : Slot} {b b' : Nat} {data : Bytes}
    (h : ((reuseCache raw i b io).fill i data).channel.Cached b') :
    b' = b ∨ io.channel.Cached b' := by
  obtain ⟨j, hj, hjb⟩ := h
  by_cases hji : j = i
  · rw [hji, Io.fill, Channel.set_cache_self, reuseCache_cache] at hjb
    exact .inl hjb.symm
  · have hother : ((reuseCache raw i b io).fill i data).channel.cache j = io.channel.cache j := by
      simp [Io.fill, reuseCache, Channel.set, Channel.touch, hji]
    rw [hother] at hj hjb
    exact .inr ⟨j, hj, hjb⟩

theorem missingSlots_spec (n block : Nat) (ch : Channel) :
    Channel.Same ch (missingSlots n block ch).2 ∧
      (missingSlots n block ch).2.refcount = ch.refcount ∧
      (missingSlots n block ch).1.length ≤ n ∧
      ∀ k, k < (missingSlots n block ch).1.length → ¬ ch.Cached (block + k) := by
  induction n generalizing block with
  | zero =>
      exact ⟨⟨rfl, fun _ => rfl, fun _ => rfl, fun _ => rfl, fun _ => rfl⟩, rfl, le_refl _,
        fun k hk => absurd hk (Nat.not_lt_zero k)⟩
  | succ n ih =>
      rcases findCachedBlock_cases ch block with ⟨i, hfind, -⟩ | ⟨e, hfind, hfree⟩
      · simp only [missingSlots, hfind]
        exact ⟨ch.same_touch i, rfl, Nat.zero_le _, fun k hk => absurd hk (Nat.not_lt_zero k)⟩
      · simp only [missingSlots, hfind]
        obtain ⟨hsame, hcount, hlen, hmissing⟩ := ih (block + 1)
        refine ⟨hsame, hcount, Nat.succ_le_succ hlen, fun k hk => ?_⟩
        cases k with
        | zero =>
            exact hfree
        | succ k =>
            rw [Nat.add_comm k 1, ← Nat.add_assoc]
            exact hmissing k (Nat.lt_of_succ_lt_succ hk)

theorem Coherent.keeps_saveBlocks
    (h : Coherent B L io) {slots : List Slot} {block : Nat} {data : Bytes}
    (hfree : ∀ k, k < slots.length → ¬ io.channel.Cached (block + k))
    (hlen : data.length = slots.length * io.channel.blockSize)
    (hholds : L.Holds (place B.offset io.channel.blockSize block) data) :
    Keeps B L io (saveBlocks raw slots block data io) := by
  induction slots generalizing io block data with
  | nil =>
      exact Keeps.refl h
  | cons i slots ih =>
      rw [List.length_cons, Nat.succ_mul] at hlen
      have htake : (data.take io.channel.blockSize).length = io.channel.blockSize := by
        rw [List.length_take]
        omega
      have hsplit := hholds
      rw [← List.take_append_drop io.channel.blockSize data, ByteFile.holds_append, htake] at hsplit
      have hfirst : ¬ io.channel.Cached block := hfree 0 (by simp)
      have hsave := h.keeps_save i hfirst htake hsplit.1
      have hsize : ((reuseCache raw i block io).fill i
          (data.take io.channel.blockSize)).channel.blockSize = io.channel.blockSize := rfl
      rw [saveBlocks]
      refine hsave.trans (ih hsave.coherent ?_ ?_ ?_)
      · intro k hk hcached
        rw [Nat.add_assoc, Nat.add_comm 1 k] at hcached
        rcases hcached.of_save with heq | hcached
        · omega
        · exact hfree (k + 1) (by simpa using hk) hcached
      · rw [List.length_drop, hsize]
        omega
      · rw [hsize, place_add, Nat.one_mul]
        exact hsplit.2

theorem place_apart (offset blockSize : Nat) {block m b : Nat}
    (h : ∀ k, k < m → b ≠ block + k) :
    place offset blockSize block + m * blockSize ≤ place offset blockSize b ∨
      place offset blockSize b + blockSize ≤ place offset blockSize block := by
  by_cases hlt : b < block
  · right
    have hle := Nat.mul_le_mul_right blockSize hlt
    rw [Nat.succ_mul] at hle
    simp only [place]
    omega
  · left
    have hge : block + m ≤ b := by
      by_contra hbm
      exact h (b - block) (by omega) (by omega)
    rw [← place_add]
    have hle := Nat.mul_le_mul_right blockSize hge
    simp only [place]
    omega

/-- The blocks of a read are each in the cache along with all before it, or clear. -/
def Readable (B : Backing raw) (io : Io σ) (block count : Nat) : Prop :=
  ∀ k, k < count → (∀ j, j ≤ k → io.channel.Cached (block + j)) ∨
    B.Clear io (place B.offset io.channel.blockSize (block + k)) io.channel.blockSize

theorem Backing.fresh_blocks (B : Backing raw) {s : σ} {bs block m : Nat} (hm : 0 < m)
    (h : ∀ k, k < m → B.Fresh s (place B.offset bs (block + k)) bs) :
    B.Fresh s (place B.offset bs block) (m * bs) := by
  induction m with
  | zero =>
      exact absurd hm (Nat.lt_irrefl 0)
  | succ m ih =>
      by_cases hzero : m = 0
      · subst hzero
        rw [Nat.zero_add, Nat.one_mul]
        exact h 0 (by omega)
      · rw [Nat.succ_mul]
        refine B.fresh_append (ih (by omega) fun k hk => h k (by omega)) ?_
        rw [← place_add]
        exact h m (by omega)

/-- Blocks that are not in the cache, and clear, are read and saved. -/
theorem Coherent.readMissing
    (h : Coherent B L io) (slots : List Slot) (block addr : Nat) (hslots : slots ≠ [])
    (hfree : ∀ k, k < slots.length → ¬ io.channel.Cached (block + k))
    (hclear : ∀ k, k < slots.length →
      B.Clear io (place B.offset io.channel.blockSize (block + k)) io.channel.blockSize) :
    Keeps B L io (readMissing raw slots block addr io).2 ∧
      ∀ data, (readMissing raw slots block addr io).1 = .ok data →
        data.length = slots.length * io.channel.blockSize ∧
          L.Holds (place B.offset io.channel.blockSize block) data := by
  have hkeeps := h.keeps_readBlk io.channel.blockSize block slots.length addr
  have hgot : ∀ data,
      (raw.readBlk io.channel.blockSize block slots.length addr io.sys).1 = .ok data →
      data.length = slots.length * io.channel.blockSize ∧
        L.Holds (place B.offset io.channel.blockSize block) data := by
    intro data hok
    rw [← transferSize_natCast]
    apply h.readBlk_holds hok
    · rw [transferSize_natCast]
      exact B.fresh_blocks (List.length_pos_iff.mpr hslots) fun k hk => (hclear k hk).fresh
    · rintro b ⟨i, huse, -, hblock⟩
      rw [transferSize_natCast]
      exact place_apart _ _ fun k hk hb => hfree k hk ⟨i, huse, hblock.trans hb⟩
  unfold UnixIo.readMissing
  cases hr : raw.readBlk io.channel.blockSize block slots.length addr io.sys with
  | mk r s =>
      rw [hr] at hkeeps hgot
      cases r with
      | error e =>
          exact ⟨hkeeps, fun data hd => by cases hd⟩
      | ok data =>
          obtain ⟨hlen, hholds⟩ := hgot data rfl
          refine ⟨hkeeps.trans (hkeeps.coherent.keeps_saveBlocks hfree hlen hholds), ?_⟩
          intro data' hd
          cases hd
          exact ⟨hlen, hholds⟩

theorem Coherent.readIntoSlot
    (h : Coherent B L io) (i : Slot) {block : Nat} (hfree : ¬ io.channel.Cached block)
    (hclear : B.Clear io (place B.offset io.channel.blockSize block) io.channel.blockSize) :
    Keeps B L io (readIntoSlot raw i block io).2 ∧
      ∀ data, (readIntoSlot raw i block io).1 = .ok data →
        data.length = io.channel.blockSize ∧
          L.Holds (place B.offset io.channel.blockSize block) data := by
  have hdrop := h.keeps_drop i
  have hunused := dropSlot_inUse raw io i
  have hfree' : ¬ (dropSlot raw i io).channel.Cached block := fun hc => hfree hc.of_dropSlot
  have hread := hdrop.coherent.keeps_readBlk io.channel.blockSize block 1 0
  have hgot : ∀ data, (raw.readBlk io.channel.blockSize block 1 0 (dropSlot raw i io).sys).1 =
      .ok data → data.length = io.channel.blockSize ∧
        L.Holds (place B.offset io.channel.blockSize block) data := by
    intro data hok
    have hholds := hdrop.coherent.readBlk_holds hok
    rw [transferSize_one] at hholds
    apply hholds
    · exact (hdrop.clear _ _ hclear).fresh
    · rintro b ⟨j, huse, -, hblock⟩
      refine place_disjoint B.offset io.channel.blockSize (a := block) fun hb => ?_
      exact hfree' ⟨j, huse, hblock.trans hb.symm⟩
  have hsys : (reuseCache raw i block io).sys = (dropSlot raw i io).sys := rfl
  have hsize : (reuseCache raw i block io).channel.blockSize = io.channel.blockSize := rfl
  unfold UnixIo.readIntoSlot
  dsimp only
  rw [hsys, hsize]
  cases hr : raw.readBlk io.channel.blockSize block 1 0 (dropSlot raw i io).sys with
  | mk r s =>
      rw [hr] at hread hgot
      have hchain := hdrop.trans hread
      cases r with
      | error e =>
          have hset := hread.coherent.keeps_set_unused hunused
            (c := { (reuseCache raw i block io).channel.cache i with inUse := false }) rfl
          exact ⟨hchain.trans (hset.trans (hset.coherent.keeps_same
            (same_reuseCache raw i block io _) rfl)), fun data hd => by cases hd⟩
      | ok data =>
          obtain ⟨hlen, hholds⟩ := hgot data rfl
          refine ⟨hchain.trans (Coherent.keeps_fill hread.coherent hfree hlen hholds), ?_⟩
          intro data' hd
          cases hd
          exact ⟨hlen, hholds⟩

/-- Blocks behind the first `m` ones. -/
theorem holds_blocks {offset bs block count m : Nat} {as bs' : Bytes}
    (hlen : as.length = m * bs) (has : L.Holds (place offset bs block) as) (hm : m ≤ count)
    (hlen' : bs'.length = (count - m) * bs) (hbs : L.Holds (place offset bs (block + m)) bs') :
    (as ++ bs').length = count * bs ∧ L.Holds (place offset bs block) (as ++ bs') := by
  constructor
  · rw [List.length_append, hlen, hlen', ← Nat.add_mul, Nat.add_sub_cancel' hm]
  · rw [ByteFile.holds_append, hlen, ← place_add]
    exact ⟨has, hbs⟩

/-- **The loop over the blocks of a read.** -/
theorem Coherent.readLoop
    (h : Coherent B L io) (n count block addr : Nat) (hcount : count ≤ n)
    (hread : Readable B io block count) :
    Keeps B L io (readLoop raw n count block addr io).2 ∧
      ∀ data, (readLoop raw n count block addr io).1 = .ok data →
        data.length = count * io.channel.blockSize ∧
          L.Holds (place B.offset io.channel.blockSize block) data := by
  induction n generalizing io count block addr with
  | zero =>
      obtain rfl : count = 0 := by omega
      refine ⟨Keeps.refl h, fun data hd => ?_⟩
      cases hd
      simp
  | succ n ih =>
      unfold UnixIo.readLoop
      by_cases hzero : count = 0
      · subst hzero
        rw [if_pos rfl]
        refine ⟨Keeps.refl h, fun data hd => ?_⟩
        cases hd
        simp
      rw [if_neg hzero]
      dsimp only
      rcases findCachedBlock_cases io.channel block with ⟨i, hfind, huse, hblock⟩ |
        ⟨e, hfind, hfree⟩
      · rw [hfind]
        dsimp only
        have htouch := h.keeps_same (io.channel.same_touch i) rfl
        have hread' : Readable B { io with channel := io.channel.touch i } (block + 1)
            (count - 1) := by
          intro k hk
          have hshift : ∀ j, block + 1 + j = block + (j + 1) := fun j => by omega
          rw [hshift]
          refine (hread (k + 1) (by omega)).imp (fun hall j hj => ?_) (htouch.clear _ _)
          rw [Channel.Cached.same (io.channel.same_touch i), hshift]
          exact hall (j + 1) (by omega)
        have hrest := ih htouch.coherent (count - 1) (block + 1) (addr + io.channel.blockSize)
          (by omega) hread'
        have hbuf : ((io.channel.touch i).cache i).buf = (io.channel.cache i).buf :=
          (io.channel.same_touch i).buf i
        rw [hbuf]
        generalize UnixIo.readLoop raw n (count - 1) (block + 1) (addr + io.channel.blockSize)
          { io with channel := io.channel.touch i } = r at hrest ⊢
        obtain ⟨rest, io'⟩ := r
        refine ⟨htouch.trans hrest.1, fun data hd => ?_⟩
        cases rest with
        | error e =>
            cases hd
        | ok tail =>
            cases hd
            obtain ⟨hlen, hholds⟩ := hrest.2 tail rfl
            have hfirst := h.holds i huse
            have hfirstLen := h.length_buf i huse
            rw [hblock] at hfirst
            rw [← Nat.one_mul io.channel.blockSize] at hfirstLen
            exact holds_blocks hfirstLen hfirst (by omega) hlen hholds
      · rw [hfind]
        dsimp only
        have hclear : ∀ k, k < count →
            B.Clear io (place B.offset io.channel.blockSize (block + k)) io.channel.blockSize := by
          intro k hk
          exact (hread k hk).resolve_left fun hall => hfree (hall 0 (Nat.zero_le k))
        by_cases hone : count = 1
        · subst hone
          rw [if_pos rfl, Nat.one_mul]
          exact h.readIntoSlot e hfree (hclear 0 (by omega))
        rw [if_neg hone]
        obtain ⟨hsame, hrefs, hle, hmissing⟩ := missingSlots_spec (count - 1) (block + 1) io.channel
        generalize missingSlots (count - 1) (block + 1) io.channel = found at *
        obtain ⟨slots, ch⟩ := found
        dsimp only at hsame hrefs hle hmissing ⊢
        have hch := h.keeps_same hsame hrefs
        have hsize : ch.blockSize = io.channel.blockSize := hsame.blockSize
        have hgot := hch.coherent.readMissing (e :: slots) block addr (by simp) ?_ ?_
        · generalize UnixIo.readMissing raw (e :: slots) block addr
            { io with channel := ch } = r at hgot ⊢
          obtain ⟨got, io₁⟩ := r
          obtain ⟨hkeeps, hdata⟩ := hgot
          have hkeeps := hch.trans hkeeps
          cases got with
          | error e =>
              exact ⟨hkeeps, fun data hd => by cases hd⟩
          | ok first =>
              dsimp only at hkeeps ⊢
              obtain ⟨hfirstLen, hfirst⟩ := hdata first rfl
              dsimp only at hfirstLen hfirst
              rw [hsize] at hfirstLen hfirst
              rw [List.length_cons] at hfirstLen
              have hread' : Readable B io₁ (block + (slots.length + 1))
                  (count - (slots.length + 1)) := by
                intro k hk
                right
                rw [hkeeps.blockSize, Nat.add_assoc]
                exact hkeeps.clear _ _ (hclear _ (by omega))
              have hrest := ih hkeeps.coherent (count - (slots.length + 1))
                (block + (slots.length + 1)) (addr + (slots.length + 1) * io.channel.blockSize)
                (by omega) hread'
              generalize UnixIo.readLoop raw n (count - (slots.length + 1))
                (block + (slots.length + 1)) (addr + (slots.length + 1) * io.channel.blockSize)
                io₁ = r at hrest ⊢
              obtain ⟨rest, io₂⟩ := r
              refine ⟨hkeeps.trans hrest.1, fun data hd => ?_⟩
              cases rest with
              | error e =>
                  cases hd
              | ok tail =>
                  cases hd
                  obtain ⟨hlen, hholds⟩ := hrest.2 tail rfl
                  rw [hkeeps.blockSize] at hlen hholds
                  exact holds_blocks hfirstLen hfirst (by omega) hlen hholds
        · intro k hk
          rw [Channel.Cached.same hsame]
          cases k with
          | zero =>
              exact hfree
          | succ k =>
              rw [Nat.add_comm k 1, ← Nat.add_assoc]
              exact hmissing k (by simpa using hk)
        · intro k hk
          rw [List.length_cons] at hk
          rw [hsize]
          exact hch.clear _ _ (hclear k (by omega))

/-- What a read needs: its blocks are readable, or, if it passes by the cache, its bytes
are clear. -/
def ReadableBlk64 (B : Backing raw) (io : Io σ) (block : Nat) (count : Int) : Prop :=
  if count < 0 ∨ (writeDirectSize : Int) < count then
    B.Clear io (place B.offset io.channel.blockSize block)
      (transferSize io.channel.blockSize count)
  else
    Readable B io block count.toNat

/-- **A read** returns the logical content. -/
theorem Coherent.read
    (h : Coherent B L io) (block : Nat) (count : Int) (addr : Nat)
    (hread : ReadableBlk64 B io block count) :
    Keeps B L io (unixReadBlk64 raw block count addr io).2 ∧
      ∀ data, (unixReadBlk64 raw block count addr io).1 = .ok data →
        data.length = transferSize io.channel.blockSize count ∧
          L.Holds (place B.offset io.channel.blockSize block) data := by
  unfold ReadableBlk64 at hread
  unfold unixReadBlk64
  by_cases hdirect : count < 0 ∨ (writeDirectSize : Int) < count
  · rw [if_pos hdirect] at hread ⊢
    obtain ⟨io₁, hflush, hkeeps, hcontent, -⟩ := h.flush false
    rw [hflush]
    dsimp only
    rw [hkeeps.blockSize]
    have hraw := hkeeps.coherent.keeps_readBlk io.channel.blockSize block count addr
    refine ⟨hkeeps.trans hraw, fun data hok => ?_⟩
    obtain ⟨hlen, hholds⟩ := B.readBlk_ok hkeeps.coherent.good io.channel.blockSize_pos hok
      (hkeeps.clear _ _ hread).fresh
    rw [hcontent] at hholds
    exact ⟨hlen, hholds⟩
  · rw [if_neg hdirect] at hread ⊢
    have hloop := h.readLoop count.toNat count.toNat block addr (le_refl _) hread
    have hsize : transferSize io.channel.blockSize count =
        count.toNat * io.channel.blockSize := by
      rw [transferSize, if_neg (by omega)]
    rw [hsize]
    exact hloop

end Read

section Write

variable {σ : Type} {raw : Raw σ} {B : Backing raw} {L : ByteFile} {io : Io σ}

/-- A step to another logical content. -/
structure Becomes (B : Backing raw) (L : ByteFile) (io io' : Io σ) : Prop where
  coherent : Coherent B L io'
  blockSize : io'.channel.blockSize = io.channel.blockSize
  refcount : io'.channel.refcount = io.channel.refcount

theorem Becomes.trans {L₁ L₂ : ByteFile} {io₁ io₂ : Io σ} (h₁ : Becomes B L₁ io io₁)
    (h₂ : Becomes B L₂ io₁ io₂) : Becomes B L₂ io io₂ :=
  ⟨h₂.coherent, h₂.blockSize.trans h₁.blockSize, h₂.refcount.trans h₁.refcount⟩

/-- The slot that `unix_write_blk64` writes a block into. -/
def writeSlot (raw : Raw σ) (block : Nat) (io : Io σ) : Slot × Io σ :=
  match findCachedBlock io.channel block with
  | (.found i, ch) => (i, { io with channel := ch })
  | (.missing eldest, ch) => (eldest, reuseCache raw eldest block { io with channel := ch })

theorem writeLoop_succ (raw : Raw σ) (writethrough : Bool) (n block : Nat) (buf : Buffer)
    (io : Io σ) :
    writeLoop raw writethrough (n + 1) block buf io =
      writeLoop raw writethrough n (block + 1) (buf.advance io.channel.blockSize)
        { (writeSlot raw block io).2 with
          channel := (writeSlot raw block io).2.channel.set (writeSlot raw block io).1
            { (writeSlot raw block io).2.channel.cache (writeSlot raw block io).1 with
              buf := buf.bytes io.channel.blockSize
              dirty := !writethrough } } := by
  rcases findCachedBlock_cases io.channel block with ⟨i, hfind, -⟩ | ⟨e, hfind, -⟩
  · simp only [writeLoop, writeSlot, hfind]
  · simp only [writeLoop, writeSlot, hfind]

/-- **A block is written into the cache**, to be written back later. -/
theorem Coherent.write_dirty
    (h : Coherent B L io) (block : Nat) {data : Bytes}
    (hlen : data.length = io.channel.blockSize) (hlimit : io.channel.blockSize ≤ B.limit) :
    Becomes B (L.pwrite (place B.offset io.channel.blockSize block) data) io
      { (writeSlot raw block io).2 with
        channel := (writeSlot raw block io).2.channel.set (writeSlot raw block io).1
          { (writeSlot raw block io).2.channel.cache (writeSlot raw block io).1 with
            buf := data
            dirty := true } } := by
  unfold writeSlot
  rcases findCachedBlock_cases io.channel block with ⟨i, hfind, huse, hblock⟩ | ⟨e, hfind, hfree⟩
  · rw [hfind]
    have hsame := io.channel.same_touch i
    have htouch := h.same hsame
    have huse' : ((io.channel.touch i).cache i).inUse = true := (hsame.inUse i).trans huse
    have hblock' : ((io.channel.touch i).cache i).block = block := (hsame.block i).trans hblock
    have hwrite := htouch.overwrite (i := i)
      (c := { (io.channel.touch i).cache i with buf := data, dirty := true }) (fun _ => rfl)
      (fun j hj hjuse hjb => hj (htouch.unique j i hjuse huse' hjb)) ⟨huse', rfl⟩ hlen hlimit
    refine ⟨?_, rfl, rfl⟩
    rw [show place B.offset io.channel.blockSize block =
      place B.offset io.channel.blockSize ((io.channel.touch i).cache i).block by rw [hblock']]
    exact hwrite
  · rw [hfind]
    have hdrop := h.keeps_drop e
    have hfree' : ¬ (dropSlot raw e io).channel.Cached block := fun hc => hfree hc.of_dropSlot
    have hcache := reuseCache_cache raw e block io
    have hwrite := hdrop.coherent.overwrite (i := e)
      (c := { (reuseCache raw e block io).channel.cache e with buf := data, dirty := true })
      (fun hc => absurd hc (by rw [dropSlot_inUse]; simp))
      (fun j _ hjuse hjb => hfree' ⟨j, hjuse, hjb.trans (by rw [hcache])⟩)
      ⟨by rw [hcache], rfl⟩ hlen hlimit
    refine ⟨?_, rfl, rfl⟩
    rw [show place B.offset io.channel.blockSize block = place B.offset io.channel.blockSize
      ((reuseCache raw e block io).channel.cache e).block by rw [hcache]]
    exact hwrite.same (same_reuseCache raw e block io _)

/-- **The loop over the blocks of a write**, without write-through. -/
theorem Coherent.writeLoop_back
    (h : Coherent B L io) (n block : Nat) (buf : Buffer)
    (hlimit : 0 < n → io.channel.blockSize ≤ B.limit) :
    Becomes B (L.pwrite (place B.offset io.channel.blockSize block)
      (buf.bytes (n * io.channel.blockSize))) io (writeLoop raw false n block buf io) := by
  induction n generalizing io L block buf with
  | zero =>
      rw [Nat.zero_mul, show buf.bytes 0 = [] from rfl, ByteFile.pwrite_nil]
      exact ⟨h, rfl, rfl⟩
  | succ n ih =>
      have hstep := h.write_dirty block (Buffer.length_bytes buf io.channel.blockSize)
        (hlimit (by omega))
      rw [writeLoop_succ, Bool.not_false]
      generalize ({ (writeSlot raw block io).2 with
        channel := (writeSlot raw block io).2.channel.set (writeSlot raw block io).1
          { (writeSlot raw block io).2.channel.cache (writeSlot raw block io).1 with
            buf := buf.bytes io.channel.blockSize
            dirty := true } } : Io σ) = io₁ at hstep ⊢
      have hrest := ih hstep.coherent (block + 1) (buf.advance io.channel.blockSize)
        (fun _ => by rw [hstep.blockSize]; exact hlimit (by omega))
      rw [hstep.blockSize] at hrest
      have hsplit : buf.bytes ((n + 1) * io.channel.blockSize) =
          buf.bytes io.channel.blockSize ++
            (buf.advance io.channel.blockSize).bytes (n * io.channel.blockSize) := by
        rw [Nat.succ_mul, Nat.add_comm, Buffer.bytes_add]
      rw [hsplit, ByteFile.pwrite_append, Buffer.length_bytes]
      rw [place_add, Nat.one_mul] at hrest
      exact hstep.trans hrest

end Write

end UnixIo
end Rfsck
