import Rfsck.UnixIo.Channel

/-!
# Coherence of the cache

What the cache of a channel means, over any raw device that keeps a content.

* `Backing` says what the raw operations do to the content, while no call fails.  A
  backing that diverts its writes, as a log does, serves a read only where it is `Fresh`.
* `Coherent L io`: the *logical content* `L` is the content below with the dirty slots
  written over it; every slot in use holds its block of `L`, and no two hold one block.

The step lemmas say how dropping a slot, filling one and flushing keep this.  All
operations of the channel are made of these steps.
-/

namespace Rfsck
namespace UnixIo

open Storage

def place (offset blockSize block : Nat) : Nat :=
  block * blockSize + offset

theorem place_add (offset blockSize block k : Nat) :
    place offset blockSize (block + k) = place offset blockSize block + k * blockSize := by
  simp only [place, Nat.add_mul]
  omega

theorem place_disjoint (offset blockSize : Nat) {a b : Nat} (h : a ≠ b) :
    place offset blockSize a + blockSize ≤ place offset blockSize b ∨
      place offset blockSize b + blockSize ≤ place offset blockSize a := by
  rcases Nat.lt_or_gt_of_ne h with hlt | hlt
  · have hle := Nat.mul_le_mul_right blockSize hlt
    rw [Nat.succ_mul] at hle
    simp only [place]
    omega
  · have hle := Nat.mul_le_mul_right blockSize hlt
    rw [Nat.succ_mul] at hle
    simp only [place]
    omega

/-- A slot that has to be written back before it is given up. -/
def Cache.Unsaved (c : Cache) : Prop :=
  c.inUse = true ∧ c.dirty = true

namespace Channel

def Cached (ch : Channel) (block : Nat) : Prop :=
  ∃ i, (ch.cache i).inUse = true ∧ (ch.cache i).block = block

/-- A block is in the cache, and not yet written back. -/
def Dirty (ch : Channel) (block : Nat) : Prop :=
  ∃ i, (ch.cache i).inUse = true ∧ (ch.cache i).dirty = true ∧ (ch.cache i).block = block

def Unique (ch : Channel) : Prop :=
  ∀ i j, (ch.cache i).inUse = true → (ch.cache j).inUse = true →
    (ch.cache i).block = (ch.cache j).block → i = j

/-- Two channels that differ in access times only. -/
structure Same (ch ch' : Channel) : Prop where
  blockSize : ch'.blockSize = ch.blockSize
  buf : ∀ i, (ch'.cache i).buf = (ch.cache i).buf
  block : ∀ i, (ch'.cache i).block = (ch.cache i).block
  dirty : ∀ i, (ch'.cache i).dirty = (ch.cache i).dirty
  inUse : ∀ i, (ch'.cache i).inUse = (ch.cache i).inUse

theorem Cached.same {ch ch' : Channel} (h : Same ch ch') (b : Nat) :
    ch'.Cached b ↔ ch.Cached b := by
  simp only [Cached, h.inUse, h.block]

theorem Dirty.same {ch ch' : Channel} (h : Same ch ch') (b : Nat) :
    ch'.Dirty b ↔ ch.Dirty b := by
  simp only [Dirty, h.inUse, h.block, h.dirty]

@[simp] theorem set_cache_self (ch : Channel) (i : Slot) (c : Cache) :
    (ch.set i c).cache i = c := by
  simp [set]

theorem set_cache_of_ne (ch : Channel) {i j : Slot} (h : j ≠ i) (c : Cache) :
    (ch.set i c).cache j = ch.cache j := by
  simp [set, h]

@[simp] theorem set_set (ch : Channel) (i : Slot) (c c' : Cache) :
    (ch.set i c).set i c' = ch.set i c' := by
  simp [set]

/-- A block that is dirty in a slot other than `i`. -/
def DirtyBut (ch : Channel) (i : Slot) (block : Nat) : Prop :=
  ∃ j, j ≠ i ∧ (ch.cache j).inUse = true ∧ (ch.cache j).dirty = true ∧
    (ch.cache j).block = block

theorem dirty_iff (ch : Channel) (i : Slot) (b : Nat) :
    ch.Dirty b ↔ ch.DirtyBut i b ∨ (ch.cache i).Unsaved ∧ (ch.cache i).block = b := by
  constructor
  · rintro ⟨j, huse, hdirty, hblock⟩
    by_cases hj : j = i
    · subst hj
      exact .inr ⟨⟨huse, hdirty⟩, hblock⟩
    · exact .inl ⟨j, hj, huse, hdirty, hblock⟩
  · rintro (⟨j, -, h⟩ | ⟨⟨huse, hdirty⟩, hblock⟩)
    · exact ⟨j, h⟩
    · exact ⟨i, huse, hdirty, hblock⟩

theorem dirtyBut_set (ch : Channel) (i : Slot) (c : Cache) (b : Nat) :
    (ch.set i c).DirtyBut i b ↔ ch.DirtyBut i b := by
  constructor
  · rintro ⟨j, hj, h⟩
    rw [set_cache_of_ne _ hj] at h
    exact ⟨j, hj, h⟩
  · rintro ⟨j, hj, h⟩
    refine ⟨j, hj, ?_⟩
    rw [set_cache_of_ne _ hj]
    exact h

theorem dirty_set (ch : Channel) (i : Slot) (c : Cache) (b : Nat) :
    (ch.set i c).Dirty b ↔ ch.DirtyBut i b ∨ c.Unsaved ∧ c.block = b := by
  rw [dirty_iff _ i, dirtyBut_set, set_cache_self]

theorem Unique.set {ch : Channel} (h : ch.Unique) {i : Slot} {c : Cache}
    (hother : ∀ j, j ≠ i → (ch.cache j).inUse = true → c.inUse = true →
      (ch.cache j).block ≠ c.block) :
    (ch.set i c).Unique := by
  intro j k hj hk hjk
  by_cases hji : j = i
  · by_cases hki : k = i
    · rw [hji, hki]
    · subst hji
      rw [set_cache_of_ne _ hki] at hk hjk
      rw [set_cache_self] at hj hjk
      exact absurd hjk.symm (hother k hki hk hj)
  · by_cases hki : k = i
    · subst hki
      rw [set_cache_of_ne _ hji] at hj hjk
      rw [set_cache_self] at hk hjk
      exact absurd hjk (hother j hji hj hk)
    · rw [set_cache_of_ne _ hji] at hj hjk
      rw [set_cache_of_ne _ hki] at hk hjk
      exact h j k hj hk hjk

theorem same_touch (ch : Channel) (i : Slot) : Same ch (ch.touch i) := by
  have hcache : ∀ j, (ch.touch i).cache j =
      if j = i then { ch.cache i with accessTime := ch.accessTime + 1 } else ch.cache j := by
    intro j
    simp [touch, Function.update_apply]
  constructor
  · rfl
  all_goals
    intro j
    rw [hcache]
    split_ifs with h
    · rw [h]
    · rfl

end Channel

section Lookup

theorem scanCache_found
    {cache : Slot → Cache} {block : Nat} {is : List Slot} {unused oldest : Option Slot}
    {i : Slot} (h : scanCache cache block is unused oldest = .found i) :
    (cache i).inUse = true ∧ (cache i).block = block := by
  induction is generalizing unused oldest with
  | nil =>
      cases h
  | cons j is ih =>
      unfold scanCache at h
      split_ifs at h with huse hblock
      · exact ih h
      · cases h
        exact ⟨by simpa using huse, hblock⟩
      · cases oldest with
        | none =>
            exact ih h
        | some o =>
            dsimp only at h
            split_ifs at h
            · exact ih h
            · exact ih h

theorem scanCache_missing
    {cache : Slot → Cache} {block : Nat} {is : List Slot} {unused oldest : Option Slot}
    {e : Slot} (h : scanCache cache block is unused oldest = .missing e) :
    ∀ i ∈ is, (cache i).inUse = true → (cache i).block ≠ block := by
  induction is generalizing unused oldest with
  | nil =>
      simp
  | cons j is ih =>
      unfold scanCache at h
      intro i hi huse'
      split_ifs at h with huse hblock
      · rcases List.mem_cons.mp hi with rfl | hi
        · simp [huse'] at huse
        · exact ih h i hi huse'
      · have hrest : ∀ i ∈ is, (cache i).inUse = true → (cache i).block ≠ block := by
          cases oldest with
          | none =>
              exact ih h
          | some o =>
              dsimp only at h
              split_ifs at h
              · exact ih h
              · exact ih h
        rcases List.mem_cons.mp hi with rfl | hi
        · exact hblock
        · exact hrest i hi huse'

/-- **A lookup** finds the block and touches its slot, or the block is not there. -/
theorem findCachedBlock_cases (ch : Channel) (block : Nat) :
    (∃ i, findCachedBlock ch block = (.found i, ch.touch i) ∧
        (ch.cache i).inUse = true ∧ (ch.cache i).block = block) ∨
      ∃ e, findCachedBlock ch block = (.missing e, ch) ∧ ¬ ch.Cached block := by
  unfold findCachedBlock
  cases h : scanCache ch.cache block (List.finRange cacheSize) none none with
  | found i =>
      exact .inl ⟨i, rfl, scanCache_found h⟩
  | missing e =>
      refine .inr ⟨e, rfl, ?_⟩
      rintro ⟨i, huse, hblock⟩
      exact scanCache_missing h i (List.mem_finRange i) huse hblock

end Lookup

/-- What a raw device does to its content while no call fails.

* `limit`: the largest block that one call transfers.
* `put`: the effect of a write, of which a write of whole blocks is the plain one.
* `Fresh s l n`: a read of `n` bytes at `l` returns the content. -/
structure Backing {σ : Type} (raw : Raw σ) where
  offset : Nat
  limit : Nat
  Good : σ → Prop
  content : σ → ByteFile
  Fresh : σ → Nat → Nat → Prop
  put : Nat → Nat → Bytes → ByteFile → ByteFile
  fresh_append : ∀ {s : σ} {l m n : Nat}, Fresh s l m → Fresh s (l + m) n → Fresh s l (m + n)
  put_blocks : ∀ {bs : Nat} (l : Nat) {data : Bytes} (f : ByteFile), 0 < bs →
    bs ∣ data.length → put bs l data f = f.pwrite l data
  readBlk_sys : ∀ {s : σ} (bs b : Nat) (count : Int) (addr : Nat), Good s →
    Good (raw.readBlk bs b count addr s).2 ∧
      content (raw.readBlk bs b count addr s).2 = content s ∧
      ∀ l n, Fresh s l n → Fresh (raw.readBlk bs b count addr s).2 l n
  readBlk_ok : ∀ {s : σ} {bs b : Nat} {count : Int} {addr : Nat} {data : Bytes}, Good s →
    0 < bs → (raw.readBlk bs b count addr s).1 = .ok data →
    Fresh s (place offset bs b) (transferSize bs count) →
    data.length = transferSize bs count ∧ (content s).Holds (place offset bs b) data
  writeBlk_good : ∀ {s : σ} (bs b : Nat) (count : Int) (buf : Buffer), Good s →
    Good (raw.writeBlk bs b count buf s).2
  writeBlk_one : ∀ {s : σ} {bs : Nat} (b : Nat) (data : Bytes), Good s → 0 < bs →
    bs ≤ limit → (raw.writeBlk bs b 1 (Buffer.ofBytes data) s).1 = .ok
  writeBlk_ok : ∀ {s : σ} {bs b : Nat} {count : Int} {buf : Buffer}, Good s → 0 < bs →
    (raw.writeBlk bs b count buf s).1 = .ok →
    content (raw.writeBlk bs b count buf s).2 =
        put bs (place offset bs b) (buf.bytes (transferSize bs count)) (content s) ∧
      ∀ l n, Fresh s l n →
        (l + n ≤ place offset bs b ∨ place offset bs b + transferSize bs count ≤ l) →
        Fresh (raw.writeBlk bs b count buf s).2 l n
  writeByte_ok : ∀ {s : σ} {off : Nat} {data : Bytes}, Good s →
    (raw.writeByte off data s).1 = .ok →
    Good (raw.writeByte off data s).2 ∧
      content (raw.writeByte off data s).2 = (content s).pwrite (off + offset) data
  sync_sys : ∀ {s : σ}, Good s →
    Good (raw.sync .ok s).2 ∧ content (raw.sync .ok s).2 = content s

namespace Backing

variable {σ : Type} {raw : Raw σ}

/-- A backing that does not divert its writes. -/
def Lasting (B : Backing raw) : Prop :=
  ∀ s l n, B.Fresh s l n

/-- Bytes that are served below the cache, now and whenever a slot is written back. -/
def Clear (B : Backing raw) (io : Io σ) (l n : Nat) : Prop :=
  B.Lasting ∨
    (B.Fresh io.sys l n ∧ ∀ b, io.channel.Dirty b →
      l + n ≤ place B.offset io.channel.blockSize b ∨
        place B.offset io.channel.blockSize b + io.channel.blockSize ≤ l)

theorem Clear.of_dirty {B : Backing raw} {io io' : Io σ} {l n : Nat} (h : B.Clear io l n)
    (hsize : io'.channel.blockSize = io.channel.blockSize)
    (hfresh : B.Fresh io.sys l n → B.Fresh io'.sys l n)
    (hdirty : ∀ b, io'.channel.Dirty b → io.channel.Dirty b) :
    B.Clear io' l n := by
  rcases h with h | ⟨h, hapart⟩
  · exact .inl h
  · refine .inr ⟨hfresh h, fun b hb => ?_⟩
    rw [hsize]
    exact hapart b (hdirty b hb)

theorem Clear.fresh {B : Backing raw} {io : Io σ} {l n : Nat} (h : B.Clear io l n) :
    B.Fresh io.sys l n := by
  rcases h with h | h
  · exact h _ _ _
  · exact h.1

end Backing

section Coherence

variable {σ : Type} {raw : Raw σ} {B : Backing raw} {L : ByteFile} {io : Io σ}

/-- `L` is the content that the channel presents. -/
structure Coherent (B : Backing raw) (L : ByteFile) (io : Io σ) : Prop where
  good : B.Good io.sys
  unique : io.channel.Unique
  length_buf : ∀ i, (io.channel.cache i).inUse = true →
    (io.channel.cache i).buf.length = io.channel.blockSize
  limit : ∀ b, io.channel.Dirty b → io.channel.blockSize ≤ B.limit
  holds : ∀ i, (io.channel.cache i).inUse = true →
    L.Holds (place B.offset io.channel.blockSize (io.channel.cache i).block)
      (io.channel.cache i).buf
  settled : ∀ x, (∀ b, io.channel.Dirty b →
      x < place B.offset io.channel.blockSize b ∨
        place B.offset io.channel.blockSize b + io.channel.blockSize ≤ x) →
    (B.content io.sys).byte x = L.byte x
  size_le : (B.content io.sys).size ≤ L.size
  size_ge : ∀ n, (B.content io.sys).size ≤ n → (∀ b, io.channel.Dirty b →
    place B.offset io.channel.blockSize b + io.channel.blockSize ≤ n) → L.size ≤ n

theorem Coherent.same
    (h : Coherent B L io) {ch : Channel} (hch : Channel.Same io.channel ch) :
    Coherent B L { io with channel := ch } := by
  have hdirty := Channel.Dirty.same hch
  constructor
  · exact h.good
  · intro i j hi hj hij
    rw [hch.inUse] at hi hj
    rw [hch.block, hch.block] at hij
    exact h.unique i j hi hj hij
  · intro i hi
    rw [hch.inUse] at hi
    rw [hch.buf, hch.blockSize]
    exact h.length_buf i hi
  · intro b hb
    rw [hch.blockSize]
    exact h.limit b ((hdirty b).mp hb)
  · intro i hi
    rw [hch.inUse] at hi
    rw [hch.buf, hch.block, hch.blockSize]
    exact h.holds i hi
  · intro x hx
    simp only [hdirty, hch.blockSize] at hx
    exact h.settled x hx
  · exact h.size_le
  · intro n hn hends
    simp only [hdirty, hch.blockSize] at hends
    exact h.size_ge n hn hends

theorem coherent_of_unused
    {ch : Channel} {s : σ} (hgood : B.Good s) (h : ∀ i, (ch.cache i).inUse = false) :
    Coherent B (B.content s) { channel := ch, sys := s } := by
  have hdirty : ∀ b, ¬ ch.Dirty b := by
    rintro b ⟨i, hi, -⟩
    simp [h i] at hi
  constructor
  · exact hgood
  · intro i j hi
    simp [h i] at hi
  · intro i hi
    simp [h i] at hi
  · exact fun b hb => absurd hb (hdirty b)
  · intro i hi
    simp [h i] at hi
  · exact fun x _ => rfl
  · exact le_refl _
  · exact fun n hn _ => hn

theorem Coherent.content_eq
    (h : Coherent B L io) (hclean : ∀ b, ¬ io.channel.Dirty b) :
    B.content io.sys = L := by
  apply ByteFile.ext
  · exact le_antisymm h.size_le (h.size_ge _ (le_refl _) fun b hb => absurd hb (hclean b))
  · funext x
    exact h.settled x fun b hb => absurd hb (hclean b)

/-- **Assignment to a slot**, together with a change below the cache and of the logical
content: what has to be shown about the slot, and about the others. -/
theorem Coherent.set
    (h : Coherent B L io) {i : Slot} {c : Cache} {s : σ} {L' : ByteFile}
    (hgood : B.Good s)
    (hother : ∀ j, j ≠ i → (io.channel.cache j).inUse = true → c.inUse = true →
      (io.channel.cache j).block ≠ c.block)
    (hlen : c.inUse = true → c.buf.length = io.channel.blockSize)
    (hlimit : c.Unsaved → io.channel.blockSize ≤ B.limit)
    (hholds : c.inUse = true → L'.Holds (place B.offset io.channel.blockSize c.block) c.buf)
    (hframe : ∀ j, j ≠ i → (io.channel.cache j).inUse = true →
      L'.Holds (place B.offset io.channel.blockSize (io.channel.cache j).block)
        (io.channel.cache j).buf)
    (hsettled : ∀ x, (∀ b, io.channel.DirtyBut i b ∨ c.Unsaved ∧ c.block = b →
        x < place B.offset io.channel.blockSize b ∨
          place B.offset io.channel.blockSize b + io.channel.blockSize ≤ x) →
      (B.content s).byte x = L'.byte x)
    (hsize_le : (B.content s).size ≤ L'.size)
    (hsize_ge : ∀ n, (B.content s).size ≤ n →
      (∀ b, io.channel.DirtyBut i b ∨ c.Unsaved ∧ c.block = b →
        place B.offset io.channel.blockSize b + io.channel.blockSize ≤ n) → L'.size ≤ n) :
    Coherent B L' { channel := io.channel.set i c, sys := s } := by
  constructor
  · exact hgood
  · exact h.unique.set hother
  · intro j hj
    by_cases hji : j = i
    · subst hji
      rw [Channel.set_cache_self] at hj ⊢
      exact hlen hj
    · rw [Channel.set_cache_of_ne _ hji] at hj ⊢
      exact h.length_buf j hj
  · intro b hb
    rcases (Channel.dirty_set _ i c b).mp hb with hb | hb
    · exact h.limit b ((Channel.dirty_iff _ i b).mpr (.inl hb))
    · exact hlimit hb.1
  · intro j hj
    by_cases hji : j = i
    · subst hji
      rw [Channel.set_cache_self] at hj ⊢
      exact hholds hj
    · rw [Channel.set_cache_of_ne _ hji] at hj ⊢
      exact hframe j hji hj
  · intro x hx
    simp only [Channel.dirty_set] at hx
    exact hsettled x hx
  · exact hsize_le
  · intro n hn hends
    simp only [Channel.dirty_set] at hends
    exact hsize_ge n hn hends

theorem transferSize_natCast (bs n : Nat) : transferSize bs (n : Int) = n * bs := by
  simp [transferSize]

theorem transferSize_one (bs : Nat) : transferSize bs 1 = bs := by
  simpa using transferSize_natCast bs 1

/-- A dirty slot is written back whole. -/
theorem Coherent.writeBack_spec
    (h : Coherent B L io) {i : Slot} (hi : (io.channel.cache i).Unsaved) :
    (writeBack raw io.channel.blockSize (io.channel.cache i) io.sys).1 = .ok ∧
      B.content (writeBack raw io.channel.blockSize (io.channel.cache i) io.sys).2 =
        (B.content io.sys).pwrite
          (place B.offset io.channel.blockSize (io.channel.cache i).block)
          (io.channel.cache i).buf ∧
      ∀ l n, B.Clear io l n →
        B.Fresh (writeBack raw io.channel.blockSize (io.channel.cache i) io.sys).2 l n := by
  have hpos := io.channel.blockSize_pos
  have hD : io.channel.Dirty (io.channel.cache i).block := ⟨i, hi.1, hi.2, rfl⟩
  have hok := B.writeBlk_one (io.channel.cache i).block (io.channel.cache i).buf
    h.good hpos (h.limit _ hD)
  obtain ⟨hcontent, hfresh⟩ := B.writeBlk_ok h.good hpos hok
  rw [transferSize_one, Buffer.bytes_ofBytes (h.length_buf i hi.1),
    B.put_blocks _ _ hpos (by rw [h.length_buf i hi.1])] at hcontent
  refine ⟨hok, hcontent, ?_⟩
  rintro l n (hlast | ⟨hfresh', hapart⟩)
  · exact hlast _ _ _
  · rw [transferSize_one] at hfresh
    exact hfresh _ _ hfresh' (hapart _ hD)

theorem Coherent.place_le_size
    (h : Coherent B L io) {i : Slot} (huse : (io.channel.cache i).inUse = true) :
    place B.offset io.channel.blockSize (io.channel.cache i).block + io.channel.blockSize ≤
      L.size := by
  have hpos := io.channel.blockSize_pos
  have hlen := h.length_buf i huse
  have hlt : io.channel.blockSize - 1 < (io.channel.cache i).buf.length := by omega
  have hlast := (h.holds i huse _ _ (List.getElem?_eq_getElem hlt)).1
  omega

/-- The slot without its block. -/
def Cache.unused (c : Cache) : Cache :=
  { c with inUse := false }

/-- A slot given up, after it has been written back. -/
def dropSlot (raw : Raw σ) (i : Slot) (io : Io σ) : Io σ where
  channel := io.channel.set i (io.channel.cache i).unused
  sys :=
    if (io.channel.cache i).dirty && (io.channel.cache i).inUse then
      (writeBack raw io.channel.blockSize (io.channel.cache i) io.sys).2
    else
      io.sys

theorem dropSlot_cases (raw : Raw σ) (io : Io σ) (i : Slot) :
    ((io.channel.cache i).Unsaved ∧ dropSlot raw i io =
        { channel := io.channel.set i (io.channel.cache i).unused
          sys := (writeBack raw io.channel.blockSize (io.channel.cache i) io.sys).2 }) ∨
      (¬ (io.channel.cache i).Unsaved ∧ dropSlot raw i io =
        { io with channel := io.channel.set i (io.channel.cache i).unused }) := by
  unfold dropSlot
  by_cases hback : ((io.channel.cache i).dirty && (io.channel.cache i).inUse) = true
  · have hboth := Bool.and_eq_true_iff.mp hback
    rw [if_pos hback]
    exact .inl ⟨⟨hboth.2, hboth.1⟩, rfl⟩
  · rw [if_neg hback]
    refine .inr ⟨fun h => hback ?_, rfl⟩
    rw [h.1, h.2]
    rfl

theorem dropSlot_inUse (raw : Raw σ) (io : Io σ) (i : Slot) :
    ((dropSlot raw i io).channel.cache i).inUse = false := by
  simp [dropSlot, Cache.unused]

theorem dropSlot_cache_of_ne (raw : Raw σ) (io : Io σ) {i j : Slot} (h : j ≠ i) :
    (dropSlot raw i io).channel.cache j = io.channel.cache j :=
  Channel.set_cache_of_ne _ h _

theorem not_cached_dropSlot
    (raw : Raw σ) (h : io.channel.Unique) {i : Slot} (huse : (io.channel.cache i).inUse = true) :
    ¬ (dropSlot raw i io).channel.Cached (io.channel.cache i).block := by
  rintro ⟨j, hj, hjb⟩
  by_cases hji : j = i
  · rw [hji, dropSlot_inUse] at hj
    cases hj
  · rw [dropSlot_cache_of_ne raw io hji] at hj hjb
    exact hji (h j i hj huse hjb)

theorem Channel.Cached.of_dropSlot {i : Slot} {b : Nat}
    (h : (dropSlot raw i io).channel.Cached b) : io.channel.Cached b := by
  obtain ⟨j, hj, hjb⟩ := h
  by_cases hji : j = i
  · rw [hji, dropSlot_inUse] at hj
    cases hj
  · rw [dropSlot_cache_of_ne raw io hji] at hj hjb
    exact ⟨j, hj, hjb⟩

/-- **Dropping a slot** keeps the logical content. -/
theorem Coherent.drop (h : Coherent B L io) (i : Slot) :
    Coherent B L (dropSlot raw i io) := by
  have hunused : ∀ P : Prop, (io.channel.cache i).unused.inUse = true → P :=
    fun _ hi => by cases hi
  rcases dropSlot_cases raw io i with ⟨hi, heq⟩ | ⟨hi, heq⟩
  · obtain ⟨-, hcontent, -⟩ := h.writeBack_spec hi
    have hlen := h.length_buf i hi.1
    have hpos := io.channel.blockSize_pos
    have hsize : (B.content (writeBack raw io.channel.blockSize
        (io.channel.cache i) io.sys).2).size =
        max (B.content io.sys).size (place B.offset io.channel.blockSize
          (io.channel.cache i).block + io.channel.blockSize) := by
      rw [hcontent, ByteFile.size_pwrite, if_neg, hlen]
      intro hnil
      rw [hnil] at hlen
      simp only [List.length_nil] at hlen
      omega
    rw [heq]
    refine h.set (B.writeBlk_good _ _ _ _ h.good) (fun j _ _ => hunused _) (hunused _)
      (fun hc => hunused _ hc.1) (hunused _) (fun j _ => h.holds j) ?_ ?_ ?_
    · intro x hx
      rw [hcontent]
      apply (h.holds i hi.1).byte_pwrite
      intro hout
      rw [hlen] at hout
      apply h.settled
      intro b hb
      rcases (Channel.dirty_iff _ i b).mp hb with hb | ⟨-, rfl⟩
      · exact hx b (.inl hb)
      · exact hout
    · rw [hsize]
      exact max_le h.size_le (h.place_le_size hi.1)
    · intro n hn hends
      rw [hsize] at hn
      apply h.size_ge n (le_trans (le_max_left _ _) hn)
      intro b hb
      rcases (Channel.dirty_iff _ i b).mp hb with hb | ⟨-, rfl⟩
      · exact hends b (.inl hb)
      · exact le_trans (le_max_right _ _) hn
  · have hdirty : ∀ b, io.channel.Dirty b → io.channel.DirtyBut i b := by
      intro b hb
      rcases (Channel.dirty_iff _ i b).mp hb with hb | hb
      · exact hb
      · exact absurd hb.1 hi
    rw [heq]
    exact h.set h.good (fun j _ _ => hunused _) (hunused _) (fun hc => hunused _ hc.1)
      (hunused _) (fun j _ => h.holds j)
      (fun x hx => h.settled x fun b hb => hx b (.inl (hdirty b hb))) h.size_le
      (fun n hn hends => h.size_ge n hn fun b hb => hends b (.inl (hdirty b hb)))

theorem Coherent.clear_drop (h : Coherent B L io) (i : Slot) {l n : Nat}
    (hl : B.Clear io l n) : B.Clear (dropSlot raw i io) l n := by
  rcases hl with hlast | ⟨hfresh, hapart⟩
  · exact .inl hlast
  refine .inr ⟨?_, fun b hd => hapart b ?_⟩
  · rcases dropSlot_cases raw io i with ⟨hi, heq⟩ | ⟨-, heq⟩
    · rw [heq]
      exact (h.writeBack_spec hi).2.2 l n (.inr ⟨hfresh, hapart⟩)
    · rw [heq]
      exact hfresh
  · rcases (Channel.dirty_set _ i _ b).mp hd with hd | ⟨⟨hi, -⟩, -⟩
    · exact (Channel.dirty_iff _ i b).mpr (.inl hd)
    · cases hi

theorem Coherent.set_unused
    (h : Coherent B L io) {i : Slot} (hi : (io.channel.cache i).inUse = false) {c : Cache}
    (hc : c.inUse = false) :
    Coherent B L { io with channel := io.channel.set i c } := by
  have hunused : ∀ P : Prop, c.inUse = true → P := fun _ hc' => by simp [hc] at hc'
  have hdirty : ∀ b, io.channel.Dirty b → io.channel.DirtyBut i b := by
    intro b hb
    rcases (Channel.dirty_iff _ i b).mp hb with hb | ⟨⟨hi', -⟩, -⟩
    · exact hb
    · simp [hi] at hi'
  exact h.set h.good (fun j _ _ => hunused _) (hunused _) (fun hc => hunused _ hc.1)
    (hunused _) (fun j _ => h.holds j) (fun x hx => h.settled x fun b hb => hx b (.inl (hdirty b hb)))
    h.size_le (fun n hn hends => h.size_ge n hn fun b hb => hends b (.inl (hdirty b hb)))

/-- **Filling an unused slot** with a block of the logical content. -/
theorem Coherent.install
    (h : Coherent B L io) {i : Slot} (hi : (io.channel.cache i).inUse = false) {c : Cache}
    (hclean : c.dirty = false) (hfree : ¬ io.channel.Cached c.block)
    (hlen : c.buf.length = io.channel.blockSize)
    (hholds : L.Holds (place B.offset io.channel.blockSize c.block) c.buf) :
    Coherent B L { io with channel := io.channel.set i c } := by
  have hsaved : ∀ P : Prop, c.Unsaved → P := fun _ hc => by simp [Cache.Unsaved, hclean] at hc
  have hdirty : ∀ b, io.channel.Dirty b → io.channel.DirtyBut i b := by
    intro b hb
    rcases (Channel.dirty_iff _ i b).mp hb with hb | ⟨⟨hi', -⟩, -⟩
    · exact hb
    · simp [hi] at hi'
  exact h.set h.good (fun j _ hj _ hjb => hfree ⟨j, hj, hjb⟩) (fun _ => hlen) (hsaved _)
    (fun _ => hholds) (fun j _ => h.holds j)
    (fun x hx => h.settled x fun b hb => hx b (.inl (hdirty b hb)))
    h.size_le (fun n hn hends => h.size_ge n hn fun b hb => hends b (.inl (hdirty b hb)))

/-- **Writing a block** into the cache: the slot is unused, or holds that block. -/
theorem Coherent.overwrite
    (h : Coherent B L io) {i : Slot} {c : Cache}
    (hi : (io.channel.cache i).inUse = true → (io.channel.cache i).block = c.block)
    (hother : ∀ j, j ≠ i → (io.channel.cache j).inUse = true →
      (io.channel.cache j).block ≠ c.block)
    (hc : c.Unsaved) (hlen : c.buf.length = io.channel.blockSize)
    (hlimit : io.channel.blockSize ≤ B.limit) :
    Coherent B (L.pwrite (place B.offset io.channel.blockSize c.block) c.buf)
      { io with channel := io.channel.set i c } := by
  have hdirty : ∀ b, io.channel.Dirty b → io.channel.DirtyBut i b ∨ c.Unsaved ∧ c.block = b := by
    intro b hb
    rcases (Channel.dirty_iff _ i b).mp hb with hb | ⟨⟨hi', -⟩, rfl⟩
    · exact .inl hb
    · exact .inr ⟨hc, (hi hi').symm⟩
  have hpos := io.channel.blockSize_pos
  have hsize : (L.pwrite (place B.offset io.channel.blockSize c.block) c.buf).size =
      max L.size (place B.offset io.channel.blockSize c.block + io.channel.blockSize) := by
    rw [ByteFile.size_pwrite, if_neg, hlen]
    intro hnil
    rw [hnil] at hlen
    simp only [List.length_nil] at hlen
    omega
  refine h.set h.good (fun j hj hjuse _ => hother j hj hjuse) (fun _ => hlen) (fun _ => hlimit)
    (fun _ => ByteFile.holds_pwrite_self _ _ _) ?_ ?_ ?_ ?_
  · intro j hj hjuse
    apply (h.holds j hjuse).pwrite_of_disjoint
    rw [hlen, h.length_buf j hjuse]
    exact place_disjoint B.offset io.channel.blockSize (hother j hj hjuse)
  · intro x hx
    have hout := hx c.block (.inr ⟨hc, rfl⟩)
    rw [ByteFile.byte_pwrite_of_outside L (by rwa [hlen])]
    exact h.settled x fun b hb => hx b (hdirty b hb)
  · exact le_trans h.size_le (ByteFile.size_le_size_pwrite L _ _)
  · intro n hn hends
    rw [hsize]
    exact max_le (h.size_ge n hn fun b hb => hends b (hdirty b hb)) (hends _ (.inr ⟨hc, rfl⟩))

end Coherence

end UnixIo
end Rfsck
