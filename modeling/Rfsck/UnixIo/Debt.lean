import Rfsck.UnixIo.Diversion

/-!
# What the cache owes the device

A block that was written into the cache is owed to the device until it has been written back.
Raw transfers may fail here.

* `Debt` fixes a block, what a buffer of the block has to hold, and what is the case once such
  a buffer has been written out.
* `Debt.Account io`: the debt is in a dirty slot, or it is paid and no dirty slot of the block
  can undo that.

A failed write-back is not noticed by `reuse_cache`, and `flush_cached_blocks` gives a block up
before it is written when it invalidates the cache.  Both steps therefore need the
write-back to succeed; all others keep the account whatever fails.
-/

namespace Rfsck
namespace UnixIo

open Storage
open Redo

/-- A block `b`, what its buffer has to hold, and what is the case once that is written out.

`Good` is an invariant of the process below the channel; while the process is `Calm` no
write-back fails. -/
structure Debt {σ : Type} (raw : Raw σ) where
  blockSize : Nat
  block : Nat
  Buf : Bytes → Prop
  Out : σ → Prop
  Good : σ → Prop
  Calm : σ → Prop
  readBlk : ∀ (b : Nat) (count : Int) (addr : Nat) (s : σ), Good s → Out s →
    Out (raw.readBlk blockSize b count addr s).2
  writeBack_other : ∀ (c : Cache) (s : σ), Good s → c.block ≠ block → Out s →
    Out (writeBack raw blockSize c s).2
  writeBack_same : ∀ (c : Cache) (s : σ), Good s → c.block = block → Buf c.buf →
    (writeBack raw blockSize c s).1 = .ok → Out (writeBack raw blockSize c s).2
  good : Keeping raw Good blockSize
  calm : Keeping raw Calm blockSize
  calm_ok : ∀ (c : Cache) (s : σ), Calm s → (writeBack raw blockSize c s).1 = .ok

section Account

variable {σ : Type} {raw : Raw σ} {D : Debt raw} {io : Io σ}

/-- Some block waits to be written back. -/
def Channel.AnyDirty (ch : Channel) : Prop :=
  ∃ b, ch.Dirty b

/-- The block is in a dirty slot with what it has to hold, or that is written out. -/
def Debt.Owed (D : Debt raw) (io : Io σ) : Prop :=
  (∃ i, (io.channel.cache i).Unsaved ∧ (io.channel.cache i).block = D.block ∧
      D.Buf (io.channel.cache i).buf) ∨
    ¬ io.channel.Dirty D.block ∧ D.Out io.sys

/-- What every step keeps. -/
structure Debt.Account (D : Debt raw) (io : Io σ) : Prop where
  blockSize : io.channel.blockSize = D.blockSize
  unique : io.channel.Unique
  good : D.Good io.sys
  owed : D.Owed io

/-- No write-back fails: there is none, or the state is calm. -/
def Debt.Spared (D : Debt raw) (io : Io σ) : Prop :=
  ¬ io.channel.AnyDirty ∨ D.Calm io.sys

theorem Channel.Unique.same {ch ch' : Channel} (h : ch.Unique) (hch : Channel.Same ch ch') :
    ch'.Unique := by
  intro i j hi hj hij
  rw [hch.inUse] at hi hj
  rw [hch.block, hch.block] at hij
  exact h i j hi hj hij

theorem Channel.Same.set {ch ch' : Channel} (h : Channel.Same ch ch') (i : Slot) (c : Cache) :
    Channel.Same (ch.set i c) (ch'.set i c) := by
  constructor
  · exact h.blockSize
  all_goals
    intro j
    by_cases hj : j = i
    · rw [hj, Channel.set_cache_self, Channel.set_cache_self]
    · rw [Channel.set_cache_of_ne _ hj, Channel.set_cache_of_ne _ hj]
      simp only [h.buf, h.block, h.dirty, h.inUse]

theorem Channel.AnyDirty.same {ch ch' : Channel} (hch : Channel.Same ch ch') :
    ch'.AnyDirty ↔ ch.AnyDirty := by
  simp only [Channel.AnyDirty, Channel.Dirty.same hch]

theorem Debt.Owed.same (h : D.Owed io) {ch : Channel} (hch : Channel.Same io.channel ch) :
    D.Owed { io with channel := ch } := by
  rcases h with ⟨i, hi, hblock, hbuf⟩ | ⟨hclean, hout⟩
  · refine .inl ⟨i, ⟨?_, ?_⟩, ?_, ?_⟩
    · exact (hch.inUse i).trans hi.1
    · exact (hch.dirty i).trans hi.2
    · exact (hch.block i).trans hblock
    · rw [hch.buf]
      exact hbuf
  · refine .inr ⟨?_, hout⟩
    rw [Channel.Dirty.same hch]
    exact hclean

theorem Debt.Account.same (h : D.Account io) {ch : Channel} (hch : Channel.Same io.channel ch) :
    D.Account { io with channel := ch } :=
  ⟨hch.blockSize.trans h.blockSize, h.unique.same hch, h.good, h.owed.same hch⟩

theorem Debt.Spared.same (h : D.Spared io) {ch : Channel} (hch : Channel.Same io.channel ch) :
    D.Spared { io with channel := ch } := by
  rcases h with h | h
  · left
    rw [Channel.AnyDirty.same hch]
    exact h
  · exact .inr h

theorem Debt.Account.read (h : D.Account io) (b : Nat) (count : Int) (addr : Nat) :
    D.Account { io with sys := (raw.readBlk D.blockSize b count addr io.sys).2 } := by
  refine ⟨h.blockSize, h.unique, D.good.readBlk _ _ _ _ h.good, ?_⟩
  rcases h.owed with hslot | ⟨hclean, hout⟩
  · exact .inl hslot
  · exact .inr ⟨hclean, D.readBlk _ _ _ _ h.good hout⟩

theorem Debt.Spared.read (h : D.Spared io) (b : Nat) (count : Int) (addr : Nat) :
    D.Spared { io with sys := (raw.readBlk D.blockSize b count addr io.sys).2 } := by
  rcases h with h | h
  · exact .inl h
  · exact .inr (D.calm.readBlk _ _ _ _ h)

theorem Debt.Spared.writeBack_ok (h : D.Spared io) {i : Slot}
    (hi : (io.channel.cache i).Unsaved) :
    (writeBack raw D.blockSize (io.channel.cache i) io.sys).1 = .ok := by
  rcases h with h | h
  · exact absurd ⟨_, i, hi.1, hi.2, rfl⟩ h
  · exact D.calm_ok _ _ h

theorem Channel.dirty_set_of_clean {ch : Channel} {i : Slot} {c : Cache} (hc : ¬ c.Unsaved)
    {b : Nat} : (ch.set i c).Dirty b ↔ ch.DirtyBut i b := by
  rw [Channel.dirty_set]
  constructor
  · rintro (h | ⟨h, -⟩)
    · exact h
    · exact absurd h hc
  · exact .inl

theorem Channel.DirtyBut.dirty {ch : Channel} {i : Slot} {b : Nat} (h : ch.DirtyBut i b) :
    ch.Dirty b :=
  (Channel.dirty_iff ch i b).mpr (.inl h)

theorem Cache.not_unsaved_unused (c : Cache) : ¬ c.unused.Unsaved := by
  rintro ⟨h, -⟩
  cases h

theorem Cache.not_unsaved_of_clean {c : Cache} (h : c.dirty = false) : ¬ c.Unsaved := by
  rintro ⟨-, hc⟩
  rw [h] at hc
  cases hc

/-- **A slot is given up** after it was written back. -/
theorem Debt.Account.drop (h : D.Account io) (i : Slot)
    (hok : (io.channel.cache i).Unsaved → (io.channel.cache i).block = D.block →
      (writeBack raw D.blockSize (io.channel.cache i) io.sys).1 = .ok) :
    D.Account (dropSlot raw i io) := by
  refine ⟨h.blockSize, ?_, ?_, ?_⟩
  · exact h.unique.set fun _ _ _ hc => by cases hc
  · rcases dropSlot_cases raw io i with ⟨-, heq⟩ | ⟨-, heq⟩
    · rw [heq, h.blockSize]
      exact D.good.writeBack _ _ h.good
    · rw [heq]
      exact h.good
  have hsys : D.Out io.sys → ((io.channel.cache i).Unsaved →
      (io.channel.cache i).block ≠ D.block) → D.Out (dropSlot raw i io).sys := by
    intro hout hother
    rcases dropSlot_cases raw io i with ⟨hi, heq⟩ | ⟨-, heq⟩
    · rw [heq, h.blockSize]
      exact D.writeBack_other _ _ h.good (hother hi) hout
    · rw [heq]
      exact hout
  have hdirty : (dropSlot raw i io).channel.Dirty D.block → io.channel.DirtyBut i D.block :=
    (Channel.dirty_set_of_clean (Cache.not_unsaved_unused _)).mp
  rcases h.owed with ⟨j, hj, hblock, hbuf⟩ | ⟨hclean, hout⟩
  · by_cases hji : j = i
    · subst hji
      right
      constructor
      · intro hd
        obtain ⟨k, hk, huse, -, hkb⟩ := hdirty hd
        exact hk (h.unique k j huse hj.1 (hkb.trans hblock.symm))
      · rcases dropSlot_cases raw io j with ⟨-, heq⟩ | ⟨hsaved, -⟩
        · rw [heq, h.blockSize]
          exact D.writeBack_same _ _ h.good hblock hbuf (hok hj hblock)
        · exact absurd hj hsaved
    · left
      refine ⟨j, ?_⟩
      rw [dropSlot_cache_of_ne raw io hji]
      exact ⟨hj, hblock, hbuf⟩
  · right
    refine ⟨fun hd => hclean (hdirty hd).dirty, hsys hout fun hi hb => ?_⟩
    exact hclean ⟨i, hi.1, hi.2, hb⟩

theorem Debt.Spared.drop (h : D.Spared io) (hsize : io.channel.blockSize = D.blockSize)
    (i : Slot) : D.Spared (dropSlot raw i io) := by
  rcases h with h | h
  · left
    rintro ⟨b, hb⟩
    exact h ⟨b, ((Channel.dirty_set_of_clean (Cache.not_unsaved_unused _)).mp hb).dirty⟩
  · right
    rcases dropSlot_cases raw io i with ⟨-, heq⟩ | ⟨-, heq⟩
    · rw [heq, hsize]
      exact D.calm.writeBack _ _ h
    · rw [heq]
      exact h

/-- **A clean slot**: one that was unused gets a block that is nowhere else, or the slot of a
block that is clean gets new content. -/
theorem Debt.Account.set_clean (h : D.Account io) {i : Slot} {c : Cache}
    (hi : ¬ (io.channel.cache i).Unsaved) (hc : ¬ c.Unsaved)
    (hother : ∀ j, j ≠ i → (io.channel.cache j).inUse = true → c.inUse = true →
      (io.channel.cache j).block ≠ c.block) :
    D.Account { io with channel := io.channel.set i c } := by
  refine ⟨h.blockSize, h.unique.set hother, h.good, ?_⟩
  rcases h.owed with ⟨j, hj, hblock, hbuf⟩ | ⟨hclean, hout⟩
  · have hji : j ≠ i := by
      rintro rfl
      exact hi hj
    refine .inl ⟨j, ?_⟩
    dsimp only
    rw [Channel.set_cache_of_ne _ hji]
    exact ⟨hj, hblock, hbuf⟩
  · exact .inr ⟨fun hd => hclean ((Channel.dirty_set_of_clean hc).mp hd).dirty, hout⟩

theorem Debt.Spared.set_clean (h : D.Spared io) {i : Slot} {c : Cache} (hc : ¬ c.Unsaved) :
    D.Spared { io with channel := io.channel.set i c } := by
  rcases h with h | h
  · left
    rintro ⟨b, hb⟩
    exact h ⟨b, ((Channel.dirty_set_of_clean hc).mp hb).dirty⟩
  · exact .inr h

/-- **A dirty slot**: unused before, or the slot of the block. -/
theorem Debt.Account.set_dirty (h : D.Account io) {i : Slot} {c : Cache}
    (hi : (io.channel.cache i).inUse = true → (io.channel.cache i).block = c.block)
    (hc : c.Unsaved)
    (hother : ∀ j, j ≠ i → (io.channel.cache j).inUse = true →
      (io.channel.cache j).block ≠ c.block)
    (hbuf : c.block = D.block → D.Buf c.buf) :
    D.Account { io with channel := io.channel.set i c } := by
  refine ⟨h.blockSize, h.unique.set fun j hj hjuse _ => hother j hj hjuse, h.good, ?_⟩
  by_cases hb : c.block = D.block
  · refine .inl ⟨i, ?_⟩
    dsimp only
    rw [Channel.set_cache_self]
    exact ⟨hc, hb, hbuf hb⟩
  · rcases h.owed with ⟨j, hj, hblock, hjbuf⟩ | ⟨hclean, hout⟩
    · have hji : j ≠ i := by
        rintro rfl
        exact hb ((hi hj.1).symm.trans hblock)
      refine .inl ⟨j, ?_⟩
      dsimp only
      rw [Channel.set_cache_of_ne _ hji]
      exact ⟨hj, hblock, hjbuf⟩
    · refine .inr ⟨fun hd => ?_, hout⟩
      rcases (Channel.dirty_set _ i c _).mp hd with hd | ⟨-, hcb⟩
      · exact hclean hd.dirty
      · exact hb hcb

end Account

section Flush

variable {σ : Type} {raw : Raw σ} {D : Debt raw} {io : Io σ}

theorem Channel.set_self (ch : Channel) (i : Slot) : ch.set i (ch.cache i) = ch := by
  simp [Channel.set]

theorem Debt.Account.writeBack_failed (h : D.Account io) {i : Slot}
    (hi : (io.channel.cache i).Unsaved) :
    D.Account { io with sys := (writeBack raw D.blockSize (io.channel.cache i) io.sys).2 } := by
  refine ⟨h.blockSize, h.unique, D.good.writeBack _ _ h.good, ?_⟩
  rcases h.owed with hslot | ⟨hclean, hout⟩
  · exact .inl hslot
  · refine .inr ⟨hclean, D.writeBack_other _ _ h.good (fun hb => ?_) hout⟩
    exact hclean ⟨i, hi.1, hi.2, hb⟩

theorem Debt.Account.writeBack_ok (h : D.Account io) {i : Slot}
    (hi : (io.channel.cache i).Unsaved)
    (hok : (writeBack raw D.blockSize (io.channel.cache i) io.sys).1 = .ok) {c : Cache}
    (hblock : c.block = (io.channel.cache i).block) (hclean : c.dirty = false) :
    D.Account
      { channel := io.channel.set i c
        sys := (writeBack raw D.blockSize (io.channel.cache i) io.sys).2 } := by
  have hdrop := h.drop i fun _ _ => hok
  rcases dropSlot_cases raw io i with ⟨-, heq⟩ | ⟨hsaved, -⟩
  · rw [heq, h.blockSize] at hdrop
    have hset := hdrop.set_clean (i := i) (c := c)
      (by rw [Channel.set_cache_self]; exact Cache.not_unsaved_unused _)
      (Cache.not_unsaved_of_clean hclean) (fun j hj hjuse _ => by
        dsimp only at hjuse ⊢
        rw [Channel.set_cache_of_ne _ hj] at hjuse ⊢
        rw [hblock]
        exact fun hb => hj (h.unique j i hjuse hi.1 hb))
    dsimp only at hset
    rw [Channel.set_set] at hset
    exact hset
  · exact absurd hi hsaved

/-- **One round of `flush_cached_blocks`.** -/
theorem Debt.Account.flush_slot (h : D.Account io) (invalidate : Bool)
    (hspared : invalidate = true → D.Spared io) (e : Errcode) (i : Slot) :
    D.Account (flushSlot raw invalidate (e, io) i).2 ∧
      (∀ j, j ≠ i → (flushSlot raw invalidate (e, io) i).2.channel.cache j =
        io.channel.cache j) ∧
      ((flushSlot raw invalidate (e, io) i).1 = .ok → e = .ok ∧
        ((flushSlot raw invalidate (e, io) i).2.channel.cache i).Flushed invalidate) ∧
      (D.Spared io → (flushSlot raw invalidate (e, io) i).1 = e ∧
        D.Spared (flushSlot raw invalidate (e, io) i).2) := by
  unfold flushSlot
  dsimp only
  have hother : ∀ (c : Cache) (j : Slot), j ≠ i →
      (io.channel.set i c).cache j = io.channel.cache j :=
    fun c j hj => Channel.set_cache_of_ne _ hj c
  by_cases huse : (io.channel.cache i).inUse = true
  · rw [if_neg (by simp [huse])]
    generalize hc' : (if invalidate = true then { io.channel.cache i with inUse := false }
      else io.channel.cache i) = c'
    have hblock' : c'.block = (io.channel.cache i).block := by
      rw [← hc']
      split_ifs <;> rfl
    have hdirty' : c'.dirty = (io.channel.cache i).dirty := by
      rw [← hc']
      split_ifs <;> rfl
    have hflushed : ∀ c : Cache, c.inUse = c'.inUse → c.dirty = false → c.Flushed invalidate := by
      intro c huse' hclean hin
      refine ⟨hclean, ?_⟩
      by_contra hinv
      rw [Bool.not_eq_false] at hinv
      rw [huse', ← hc', if_pos hinv] at hin
      cases hin
    by_cases hclean : (io.channel.cache i).dirty = true
    · rw [if_neg (by simp [hclean])]
      have hi : (io.channel.cache i).Unsaved := ⟨huse, hclean⟩
      have hcalm : D.Calm io.sys →
          D.Calm (writeBack raw D.blockSize (io.channel.cache i) io.sys).2 :=
        D.calm.writeBack _ _
      have hpaid := fun hok => h.writeBack_ok hi hok (c := { c' with dirty := false }) hblock' rfl
      have hkept := h.writeBack_failed hi
      have hokay := fun hs : D.Spared io => hs.writeBack_ok hi
      rw [h.blockSize]
      generalize writeBack raw D.blockSize (io.channel.cache i) io.sys = back
        at hcalm hpaid hkept hokay ⊢
      split
      · refine ⟨hpaid rfl, hother _, fun he => ⟨he, ?_⟩, fun hs => ⟨rfl, ?_⟩⟩
        · rw [Channel.set_cache_self]
          exact hflushed _ rfl rfl
        · rcases hs with hs | hs
          · exact absurd ⟨_, i, hi.1, hi.2, rfl⟩ hs
          · exact .inr (hcalm hs)
      · rename_i retval s hfail
        have hinv : ¬ invalidate = true := fun hinv => hfail (hokay (hspared hinv))
        rw [← hc', if_neg hinv, Channel.set_self]
        exact ⟨hkept, fun _ _ => rfl, fun he => absurd he hfail,
          fun hs => absurd (hokay hs) hfail⟩
    · rw [if_pos (by simpa using hclean)]
      have hc : ¬ c'.Unsaved := Cache.not_unsaved_of_clean (by simpa [hdirty'] using hclean)
      refine ⟨h.set_clean (fun hi => hclean hi.2) hc fun j hj hjuse _ hb => ?_, hother _,
        fun he => ⟨he, ?_⟩, fun hs => ⟨rfl, hs.set_clean hc⟩⟩
      · exact hj (h.unique j i hjuse huse (hb.trans hblock'))
      · rw [Channel.set_cache_self]
        exact hflushed _ rfl (by simpa [hdirty'] using hclean)
  · rw [if_pos (by simpa using huse)]
    refine ⟨h, fun _ _ => rfl, fun he => ⟨he, fun hi => absurd hi huse⟩, fun hs => ⟨rfl, hs⟩⟩

theorem Debt.Account.flush_slots (h : D.Account io) (invalidate : Bool)
    (hspared : invalidate = true → D.Spared io) (e : Errcode) (is : List Slot) :
    D.Account (is.foldl (flushSlot raw invalidate) (e, io)).2 ∧
      ((is.foldl (flushSlot raw invalidate) (e, io)).1 = .ok → e = .ok ∧
        ∀ i, i ∈ is ∨ (io.channel.cache i).Flushed invalidate →
          ((is.foldl (flushSlot raw invalidate) (e, io)).2.channel.cache i).Flushed invalidate) ∧
      (D.Spared io → (is.foldl (flushSlot raw invalidate) (e, io)).1 = e ∧
        D.Spared (is.foldl (flushSlot raw invalidate) (e, io)).2) := by
  induction is generalizing io e with
  | nil =>
      exact ⟨h, fun he => ⟨he, fun i hi => by simpa using hi⟩, fun hs => ⟨rfl, hs⟩⟩
  | cons k is ih =>
      obtain ⟨hstep, hother, hok, hcalm⟩ := h.flush_slot invalidate hspared e k
      rw [List.foldl_cons]
      generalize flushSlot raw invalidate (e, io) k = r at hstep hother hok hcalm ⊢
      obtain ⟨e', io'⟩ := r
      obtain ⟨hend, hokend, hcalmend⟩ := ih hstep (fun hinv => (hcalm (hspared hinv)).2) e'
      refine ⟨hend, fun he => ?_, fun hs => ?_⟩
      · obtain ⟨he', hflushed⟩ := hokend he
        obtain ⟨he, hk⟩ := hok he'
        refine ⟨he, fun i hi => hflushed i ?_⟩
        by_cases hik : i = k
        · subst hik
          exact .inr hk
        · rcases hi with hi | hi
          · exact .inl ((List.mem_cons.mp hi).resolve_left hik)
          · dsimp only at hother
            rw [← hother i hik] at hi
            exact .inr hi
      · obtain ⟨he', hs'⟩ := hcalm hs
        obtain ⟨hend', hsend⟩ := hcalmend hs'
        exact ⟨hend'.trans he', hsend⟩

/-- **`flush_cached_blocks`** keeps the account; if it succeeds, the debt is paid and nothing
is dirty.  It does succeed while the channel is spared. -/
theorem Debt.Account.flush (h : D.Account io) (invalidate : Bool)
    (hspared : invalidate = true → D.Spared io) :
    D.Account (flushCachedBlocks raw invalidate io).2 ∧
      ((flushCachedBlocks raw invalidate io).1 = .ok →
        D.Out (flushCachedBlocks raw invalidate io).2.sys ∧
          ¬ (flushCachedBlocks raw invalidate io).2.channel.AnyDirty) ∧
      (D.Spared io → (flushCachedBlocks raw invalidate io).1 = .ok ∧
        D.Spared (flushCachedBlocks raw invalidate io).2) := by
  obtain ⟨hend, hok, hcalm⟩ := h.flush_slots invalidate hspared .ok (List.finRange cacheSize)
  refine ⟨hend, fun he => ?_, hcalm⟩
  obtain ⟨-, hflushed⟩ := hok he
  have hclean : ∀ b, ¬ (flushCachedBlocks raw invalidate io).2.channel.Dirty b := by
    rintro b ⟨i, huse, hdirty, -⟩
    have hfalse := (hflushed i (.inl (List.mem_finRange i)) huse).1
    exact Bool.noConfusion (hfalse.symm.trans hdirty)
  refine ⟨?_, fun ⟨b, hb⟩ => hclean b hb⟩
  rcases hend.owed with ⟨i, hi, hblock, -⟩ | ⟨-, hout⟩
  · exact absurd ⟨i, hi.1, hi.2, rfl⟩ (hclean _)
  · exact hout

end Flush

section Reads

variable {σ : Type} {raw : Raw σ} {D : Debt raw} {io : Io σ}

/-- Either no slot is given up, because the blocks are all there, or no write-back fails. -/
def Debt.Smooth (D : Debt raw) (io : Io σ) (block n : Nat) : Prop :=
  (∀ k, k < n → io.channel.Cached (block + k)) ∨ D.Spared io

theorem Debt.Smooth.same {block n : Nat} (h : D.Smooth io block n) {ch : Channel}
    (hch : Channel.Same io.channel ch) : D.Smooth { io with channel := ch } block n := by
  rcases h with h | h
  · exact .inl fun k hk => (Channel.Cached.same hch _).mpr (h k hk)
  · exact .inr (h.same hch)

theorem Debt.Smooth.tail {block n m : Nat} (h : D.Smooth io block n) (hm : m ≤ n) :
    D.Smooth io (block + m) (n - m) := by
  rcases h with h | h
  · refine .inl fun k hk => ?_
    rw [Nat.add_assoc]
    exact h (m + k) (by omega)
  · exact .inr h

theorem Debt.Smooth.spared {block n : Nat} (h : D.Smooth io block n)
    (hfree : ¬ io.channel.Cached block) (hn : 0 < n) : D.Spared io := by
  rcases h with h | h
  · exact absurd (h 0 hn) hfree
  · exact h

/-- The account and the calm of a channel together. -/
structure Debt.Spending (D : Debt raw) (io : Io σ) : Prop where
  account : D.Account io
  spared : D.Spared io

theorem Debt.Spending.reuse (i : Slot) {b : Nat} {s : σ} {c : Cache}
    (hdrop : D.Spending { dropSlot raw i io with sys := s })
    (hfree : ¬ io.channel.Cached b) (hblock : c.block = b) (hc : ¬ c.Unsaved) :
    D.Spending { channel := (reuseCache raw i b io).channel.set i c, sys := s } := by
  have hsame := same_reuseCache raw i b io c
  have hset := hdrop.account.set_clean (i := i) (c := c)
    (by dsimp only; rw [Cache.Unsaved, dropSlot_inUse]; simp) hc (fun j hj hjuse _ hjb => by
      refine hfree (@Channel.Cached.of_dropSlot _ raw _ i _ ⟨j, hjuse, ?_⟩)
      rw [← hblock]
      exact hjb)
  exact ⟨hset.same hsame, (hdrop.spared.set_clean hc).same hsame⟩

theorem Debt.Spending.drop (h : D.Spending io) (i : Slot) : D.Spending (dropSlot raw i io) :=
  ⟨h.account.drop i fun hi _ => h.spared.writeBack_ok hi, h.spared.drop h.account.blockSize i⟩

theorem Debt.Spending.read (h : D.Spending io) (b : Nat) (count : Int) (addr : Nat) :
    D.Spending { io with sys := (raw.readBlk D.blockSize b count addr io.sys).2 } :=
  ⟨h.account.read b count addr, h.spared.read b count addr⟩

theorem Debt.Spending.same (h : D.Spending io) {ch : Channel} (hch : Channel.Same io.channel ch) :
    D.Spending { io with channel := ch } :=
  ⟨h.account.same hch, h.spared.same hch⟩

theorem Debt.Spending.save (h : D.Spending io) (i : Slot) {b : Nat} (data : Bytes)
    (hfree : ¬ io.channel.Cached b) : D.Spending ((reuseCache raw i b io).fill i data) := by
  refine Debt.Spending.reuse i (h.drop i) hfree ?_ ?_
  · rw [reuseCache_cache]
  · exact Cache.not_unsaved_of_clean (by rw [reuseCache_cache])

theorem Debt.Spending.saveBlocks (h : D.Spending io) {slots : List Slot} {block : Nat}
    (data : Bytes) (hfree : ∀ k, k < slots.length → ¬ io.channel.Cached (block + k)) :
    D.Spending (saveBlocks raw slots block data io) := by
  induction slots generalizing io block data with
  | nil =>
      exact h
  | cons i slots ih =>
      have hstep := h.save i (data.take io.channel.blockSize) (hfree 0 (by simp))
      refine ih hstep _ fun k hk hcached => ?_
      rcases hcached.of_save with heq | hcached
      · omega
      · refine hfree (k + 1) (by simpa using hk) ?_
        rw [show block + (k + 1) = block + 1 + k by omega]
        exact hcached

theorem Debt.Spending.readIntoSlot (h : D.Spending io) (i : Slot) {block : Nat}
    (hfree : ¬ io.channel.Cached block) : D.Account (readIntoSlot raw i block io).2 := by
  have hdrop := h.drop i
  have hread := hdrop.read block 1 0
  unfold UnixIo.readIntoSlot
  dsimp only
  have hsize : (reuseCache raw i block io).channel.blockSize = D.blockSize := h.account.blockSize
  rw [hsize, reuseCache_sys]
  generalize raw.readBlk D.blockSize block 1 0 (dropSlot raw i io).sys = r at hread ⊢
  obtain ⟨r, s⟩ := r
  cases r with
  | error e =>
      refine (Debt.Spending.reuse i hread hfree ?_ ?_).account
      · rw [reuseCache_cache]
      · rintro ⟨huse, -⟩
        cases huse
  | ok data =>
      refine (Debt.Spending.reuse i hread hfree ?_ ?_).account
      · dsimp only
        rw [reuseCache_cache]
      · exact Cache.not_unsaved_of_clean (by dsimp only; rw [reuseCache_cache])

theorem Debt.Spending.readMissing (h : D.Spending io) {slots : List Slot} {block : Nat}
    (addr : Nat) (hfree : ∀ k, k < slots.length → ¬ io.channel.Cached (block + k)) :
    D.Spending (readMissing raw slots block addr io).2 := by
  have hread := h.read block slots.length addr
  unfold UnixIo.readMissing
  rw [h.account.blockSize]
  generalize raw.readBlk D.blockSize block slots.length addr io.sys = r at hread ⊢
  obtain ⟨r, s⟩ := r
  cases r with
  | error e =>
      exact hread
  | ok data =>
      exact hread.saveBlocks data hfree

/-- **The loop over the blocks of a read.** -/
theorem Debt.Account.readLoop (h : D.Account io) (n count block addr : Nat)
    (hsmooth : D.Smooth io block count) :
    D.Account (readLoop raw n count block addr io).2 := by
  induction n generalizing io count block addr with
  | zero =>
      exact h
  | succ n ih =>
      unfold UnixIo.readLoop
      by_cases hcount : count = 0
      · rw [if_pos hcount]
        exact h
      rw [if_neg hcount]
      rcases findCachedBlock_cases io.channel block with ⟨i, hfind, -⟩ | ⟨e, hfind, hfree⟩
      · rw [hfind]
        have hsame := io.channel.same_touch i
        exact ih (h.same hsame) _ _ _ ((hsmooth.tail (m := 1) (by omega)).same hsame)
      rw [hfind]
      have hspending : D.Spending io := ⟨h, hsmooth.spared hfree (by omega)⟩
      dsimp only
      by_cases hone : count = 1
      · rw [if_pos hone]
        exact hspending.readIntoSlot e hfree
      rw [if_neg hone]
      obtain ⟨hsame, -, -, hmissing⟩ := missingSlots_spec (count - 1) (block + 1) io.channel
      generalize missingSlots (count - 1) (block + 1) io.channel = m at hsame hmissing ⊢
      have hnone : ∀ k, k < (e :: m.1).length → ¬ m.2.Cached (block + k) := by
        intro k hk hcached
        rw [Channel.Cached.same hsame] at hcached
        cases k with
        | zero =>
            exact hfree hcached
        | succ k =>
            rw [show block + (k + 1) = block + 1 + k by omega] at hcached
            exact hmissing k (by simpa using hk) hcached
      have hread := (hspending.same hsame).readMissing addr hnone
      generalize UnixIo.readMissing raw (e :: m.1) block addr { io with channel := m.2 } = r
        at hread ⊢
      obtain ⟨r, io'⟩ := r
      cases r with
      | error e =>
          exact hread.account
      | ok data =>
          exact ih hread.account _ _ _ (.inr hread.spared)

/-- **A read** keeps the account if its blocks are in the cache or no write-back fails. -/
theorem Debt.Account.unixReadBlk64 (h : D.Account io) (block : Nat) (count : Int) (addr : Nat)
    (hsmooth : ¬ (count < 0 ∨ (writeDirectSize : Int) < count) →
      D.Smooth io block count.toNat) :
    D.Account (unixReadBlk64 raw block count addr io).2 := by
  unfold UnixIo.unixReadBlk64
  by_cases hdirect : count < 0 ∨ (writeDirectSize : Int) < count
  · rw [if_pos hdirect]
    have hflush := (h.flush false fun hinv => Bool.noConfusion hinv).1
    generalize flushCachedBlocks raw false io = r at hflush ⊢
    split
    · dsimp only at hflush ⊢
      rw [hflush.blockSize]
      exact hflush.read block count addr
    · exact hflush
  · rw [if_neg hdirect]
    exact h.readLoop _ _ _ _ (hsmooth hdirect)

end Reads

theorem Buffer.advance_zero (buf : Buffer) : buf.advance 0 = buf := by
  simp [Buffer.advance]

theorem Buffer.advance_advance (buf : Buffer) (m n : Nat) :
    (buf.advance m).advance n = buf.advance (m + n) := by
  simp [Buffer.advance, Nat.add_assoc]

section Writes

variable {σ : Type} {raw : Raw σ} {D : Debt raw} {io : Io σ}

/-- The channel behind one round of the loop of `unix_write_blk64`. -/
def storeBlock (raw : Raw σ) (block : Nat) (data : Bytes) (dirty : Bool) (io : Io σ) : Io σ :=
  { (writeSlot raw block io).2 with
    channel := (writeSlot raw block io).2.channel.set (writeSlot raw block io).1
      { (writeSlot raw block io).2.channel.cache (writeSlot raw block io).1 with
        buf := data
        dirty := dirty } }

theorem writeLoop_storeBlock (writethrough : Bool) (n block : Nat) (buf : Buffer) (io : Io σ) :
    writeLoop raw writethrough (n + 1) block buf io =
      writeLoop raw writethrough n (block + 1) (buf.advance io.channel.blockSize)
        (storeBlock raw block (buf.bytes io.channel.blockSize) (!writethrough) io) :=
  writeLoop_succ raw writethrough n block buf io

/-- A block is stored in its slot, or in one that is given up for it. -/
theorem storeBlock_cases (raw : Raw σ) (block : Nat) (data : Bytes) (dirty : Bool) (io : Io σ) :
    (∃ i c, (io.channel.cache i).inUse = true ∧ (io.channel.cache i).block = block ∧
        c.block = block ∧ c.inUse = true ∧ c.buf = data ∧ c.dirty = dirty ∧
        Channel.Same (io.channel.set i c) (storeBlock raw block data dirty io).channel ∧
        (storeBlock raw block data dirty io).sys = io.sys) ∨
      ∃ e c, ¬ io.channel.Cached block ∧
        c.block = block ∧ c.inUse = true ∧ c.buf = data ∧ c.dirty = dirty ∧
        Channel.Same ((dropSlot raw e io).channel.set e c)
          (storeBlock raw block data dirty io).channel ∧
        (storeBlock raw block data dirty io).sys = (dropSlot raw e io).sys := by
  unfold storeBlock writeSlot
  rcases findCachedBlock_cases io.channel block with ⟨i, hfind, huse, hblock⟩ | ⟨e, hfind, hfree⟩
  · rw [hfind]
    have hsame := io.channel.same_touch i
    refine .inl ⟨i, { (io.channel.touch i).cache i with buf := data, dirty := dirty }, huse, hblock,
      (hsame.block i).trans hblock, (hsame.inUse i).trans huse, rfl, rfl, ?_, rfl⟩
    exact hsame.set i _
  · rw [hfind]
    have hcache := reuseCache_cache raw e block io
    refine .inr ⟨e, { (reuseCache raw e block io).channel.cache e with buf := data, dirty := dirty },
      hfree, by rw [hcache], by rw [hcache], rfl, rfl, ?_, rfl⟩
    exact same_reuseCache raw e block io _

/-- **One block of a write** without write-through. -/
theorem Debt.Account.store_dirty (h : D.Account io) (block : Nat) {data : Bytes}
    (hcalm : ¬ io.channel.Cached block → D.Calm io.sys)
    (hbuf : block = D.block → D.Buf data) :
    D.Account (storeBlock raw block data true io) := by
  rcases storeBlock_cases raw block data true io with
    ⟨i, c, huse, hblock, hcb, hcuse, hcbuf, hcd, hsame, hsys⟩ |
    ⟨e, c, hfree, hcb, hcuse, hcbuf, hcd, hsame, hsys⟩
  · have hset := h.set_dirty (i := i) (c := c) (fun _ => hblock.trans hcb.symm) ⟨hcuse, hcd⟩
      (fun j hj hjuse hjb => hj (h.unique j i hjuse huse (by rw [hjb, hcb, hblock])))
      (fun hb => by rw [hcbuf]; exact hbuf (hcb.symm.trans hb))
    have hend := hset.same hsame
    rw [← hsys] at hend
    exact hend
  · have hspending : D.Spending io := ⟨h, .inr (hcalm hfree)⟩
    have hset := (hspending.drop e).account.set_dirty (i := e) (c := c)
      (fun huse => by rw [dropSlot_inUse] at huse; cases huse) ⟨hcuse, hcd⟩
      (fun j _ hjuse hjb => hfree (@Channel.Cached.of_dropSlot _ raw _ e _
        ⟨j, hjuse, hjb.trans hcb⟩))
      (fun hb => by rw [hcbuf]; exact hbuf (hcb.symm.trans hb))
    have hend := hset.same hsame
    rw [← hsys] at hend
    exact hend

theorem storeBlock_blockSize (raw : Raw σ) (block : Nat) (data : Bytes) (dirty : Bool)
    (io : Io σ) :
    (storeBlock raw block data dirty io).channel.blockSize = io.channel.blockSize := by
  rcases storeBlock_cases raw block data dirty io with
    ⟨i, c, -, -, -, -, -, -, hsame, -⟩ | ⟨e, c, -, -, -, -, -, hsame, -⟩
  · exact hsame.blockSize
  · exact hsame.blockSize

theorem Channel.Unique.storeBlock (h : io.channel.Unique) (raw : Raw σ) (block : Nat)
    (data : Bytes) (dirty : Bool) : (storeBlock raw block data dirty io).channel.Unique := by
  rcases storeBlock_cases raw block data dirty io with
    ⟨i, c, huse, hblock, hcb, -, -, -, hsame, -⟩ | ⟨e, c, hfree, hcb, -, -, -, hsame, -⟩
  · refine (h.set fun j hj hjuse _ hjb => hj ?_).same hsame
    exact h j i hjuse huse (by rw [hjb, hcb, hblock])
  · have hdrop : (dropSlot raw e io).channel.Unique := h.set fun _ _ _ hc => by cases hc
    refine (hdrop.set fun j hj hjuse _ hjb => hfree ?_).same hsame
    exact @Channel.Cached.of_dropSlot _ raw _ e _ ⟨j, hjuse, hjb.trans hcb⟩

theorem Debt.owed_storeBlock {data : Bytes} {block : Nat} (hb : block = D.block)
    (hbuf : D.Buf data) : D.Owed (storeBlock raw block data true io) := by
  have hslot : ∀ (ch : Channel) (i : Slot) (c : Cache), c.block = block → c.inUse = true →
      c.buf = data → c.dirty = true → Channel.Same (ch.set i c) (storeBlock raw block data true
        io).channel → D.Owed (storeBlock raw block data true io) := by
    intro ch i c hcb hcuse hcbuf hcd hsame
    refine .inl ⟨i, ⟨?_, ?_⟩, ?_, ?_⟩
    · rw [hsame.inUse, Channel.set_cache_self]
      exact hcuse
    · rw [hsame.dirty, Channel.set_cache_self]
      exact hcd
    · rw [hsame.block, Channel.set_cache_self, hcb, hb]
    · rw [hsame.buf, Channel.set_cache_self, hcbuf]
      exact hbuf
  rcases storeBlock_cases raw block data true io with
    ⟨i, c, -, -, hcb, hcuse, hcbuf, hcd, hsame, -⟩ | ⟨e, c, -, hcb, hcuse, hcbuf, hcd, hsame, -⟩
  · exact hslot _ i c hcb hcuse hcbuf hcd hsame
  · exact hslot _ e c hcb hcuse hcbuf hcd hsame

/-- No slot is given up, or the state is calm: what a write of several blocks needs. -/
def Debt.Steady (D : Debt raw) (io : Io σ) (block n : Nat) : Prop :=
  (∀ k, k < n → io.channel.Cached (block + k)) ∨ D.Calm io.sys

theorem Channel.Cached.storeBlock (raw : Raw σ) {block b : Nat} (h : io.channel.Cached b)
    (hblock : io.channel.Cached block) (data : Bytes) (dirty : Bool) :
    (storeBlock raw block data dirty io).channel.Cached b := by
  rcases storeBlock_cases raw block data dirty io with
    ⟨i, c, huse, hib, hcb, hcuse, -, -, hsame, -⟩ | ⟨e, c, hfree, -⟩
  · rw [Channel.Cached.same hsame]
    obtain ⟨j, hj, hjb⟩ := h
    by_cases hji : j = i
    · refine ⟨i, ?_⟩
      rw [Channel.set_cache_self]
      exact ⟨hcuse, by rw [hcb, ← hib, ← hji, hjb]⟩
    · refine ⟨j, ?_⟩
      rw [Channel.set_cache_of_ne _ hji]
      exact ⟨hj, hjb⟩
  · exact absurd hblock hfree

theorem Keeping.storeBlock {P : σ → Prop} {bs : Nat} (hkeeping : Keeping raw P bs)
    (hsize : io.channel.blockSize = bs) (h : P io.sys) (block : Nat) (data : Bytes)
    (dirty : Bool) : P (storeBlock raw block data dirty io).sys := by
  rcases storeBlock_cases raw block data dirty io with
    ⟨i, c, -, -, -, -, -, -, -, hsys⟩ | ⟨e, c, -, -, -, -, -, -, hsys⟩
  · rw [hsys]
    exact h
  · rw [hsys]
    rcases dropSlot_cases raw io e with ⟨-, heq⟩ | ⟨-, heq⟩
    · rw [heq, hsize]
      exact hkeeping.writeBack _ _ h
    · rw [heq]
      exact h

theorem Debt.Steady.step {block n : Nat} (h : D.Steady io block (n + 1))
    (hsize : io.channel.blockSize = D.blockSize) (data : Bytes) (dirty : Bool) :
    (¬ io.channel.Cached block → D.Calm io.sys) ∧
      D.Steady (storeBlock raw block data dirty io) (block + 1) n := by
  rcases h with h | h
  · have hblock : io.channel.Cached block := h 0 (Nat.succ_pos n)
    refine ⟨fun hfree => absurd hblock hfree, .inl fun k hk => ?_⟩
    refine Channel.Cached.storeBlock raw ?_ hblock data dirty
    rw [show block + 1 + k = block + (k + 1) by omega]
    exact h (k + 1) (by omega)
  · exact ⟨fun _ => h, .inr (D.calm.storeBlock hsize h block data dirty)⟩

/-- **The loop over the blocks of a write**, without write-through. -/
theorem Debt.Account.writeLoop_back (h : D.Account io) {n block : Nat} {buf : Buffer}
    (hsteady : D.Steady io block n)
    (hbuf : ∀ k, k < n → block + k = D.block →
      D.Buf ((buf.advance (k * D.blockSize)).bytes D.blockSize)) :
    D.Account (writeLoop raw false n block buf io) := by
  induction n generalizing io block buf with
  | zero =>
      exact h
  | succ n ih =>
      obtain ⟨hcalm, hrest⟩ := hsteady.step h.blockSize (buf.bytes io.channel.blockSize) true
      have hnew : block = D.block → D.Buf (buf.bytes io.channel.blockSize) := by
        intro hb
        have hfirst := hbuf 0 (Nat.succ_pos n) hb
        rw [Nat.zero_mul, Buffer.advance_zero] at hfirst
        rw [h.blockSize]
        exact hfirst
      have hstore := h.store_dirty block hcalm hnew
      rw [writeLoop_storeBlock, Bool.not_false]
      refine ih hstore hrest fun k hk hb => ?_
      have hnext := hbuf (k + 1) (by omega) (by omega)
      rw [h.blockSize, Buffer.advance_advance, show D.blockSize + k * D.blockSize =
        (k + 1) * D.blockSize by rw [Nat.succ_mul]; omega]
      exact hnext

/-- **A block of the write itself** is owed from then on. -/
theorem Debt.account_of_write (hsize : io.channel.blockSize = D.blockSize)
    (hunique : io.channel.Unique) (hgood : D.Good io.sys) {n block : Nat} {buf : Buffer}
    (hsteady : D.Steady io block n)
    (hb : ∃ k, k < n ∧ block + k = D.block)
    (hbuf : ∀ k, k < n → block + k = D.block →
      D.Buf ((buf.advance (k * D.blockSize)).bytes D.blockSize)) :
    D.Account (writeLoop raw false n block buf io) := by
  induction n generalizing io block buf with
  | zero =>
      obtain ⟨k, hk, -⟩ := hb
      exact absurd hk (Nat.not_lt_zero k)
  | succ n ih =>
      obtain ⟨hcalm, hrest⟩ := hsteady.step hsize (buf.bytes io.channel.blockSize) true
      have hunique' := hunique.storeBlock raw block (buf.bytes io.channel.blockSize) true
      have hsize' := storeBlock_blockSize raw block (buf.bytes io.channel.blockSize) true io
      have hgood' := Keeping.storeBlock D.good hsize hgood block (buf.bytes io.channel.blockSize)
        true
      rw [writeLoop_storeBlock, Bool.not_false]
      have hbuf' : ∀ k, k < n → block + 1 + k = D.block →
          D.Buf (((buf.advance io.channel.blockSize).advance (k * D.blockSize)).bytes
            D.blockSize) := by
        intro k hk hkb
        have hnext := hbuf (k + 1) (by omega) (by omega)
        rw [hsize, Buffer.advance_advance, show D.blockSize + k * D.blockSize =
          (k + 1) * D.blockSize by rw [Nat.succ_mul]; omega]
        exact hnext
      by_cases hfirst : block = D.block
      · refine Debt.Account.writeLoop_back ⟨hsize'.trans hsize, hunique', hgood', ?_⟩ hrest hbuf'
        have hnew := hbuf 0 (Nat.succ_pos n) hfirst
        rw [Nat.zero_mul, Buffer.advance_zero] at hnew
        rw [hsize]
        exact Debt.owed_storeBlock hfirst hnew
      · obtain ⟨k, hk, hkb⟩ := hb
        refine ih (hsize'.trans hsize) hunique' hgood' hrest ⟨k - 1, ?_, ?_⟩ hbuf'
        · omega
        · omega

/-- **One block of a write** with write-through, which was not dirty. -/
theorem Debt.Account.store_clean (h : D.Account io) {block n : Nat} (data : Bytes)
    (hclean : ¬ io.channel.Dirty block) (hsmooth : D.Smooth io block (n + 1)) :
    D.Account (storeBlock raw block data false io) ∧
      (∀ b, (storeBlock raw block data false io).channel.Dirty b → io.channel.Dirty b) ∧
      D.Smooth (storeBlock raw block data false io) (block + 1) n := by
  rcases storeBlock_cases raw block data false io with
    ⟨i, c, huse, hblock, hcb, -, -, hcd, hsame, hsys⟩ | ⟨e, c, hfree, hcb, -, -, hcd, hsame, hsys⟩
  · have hc := Cache.not_unsaved_of_clean hcd
    have hset := (h.set_clean (i := i) (c := c)
      (fun hi => hclean ⟨i, hi.1, hi.2, hblock⟩) hc
      (fun j hj hjuse _ hjb => hj (h.unique j i hjuse huse (by rw [hjb, hcb, hblock])))).same hsame
    rw [← hsys] at hset
    refine ⟨hset, fun b hb => ?_, ?_⟩
    · rw [Channel.Dirty.same hsame, Channel.dirty_set_of_clean hc] at hb
      exact hb.dirty
    · rcases hsmooth with hcached | hspared
      · refine .inl fun k hk => Channel.Cached.storeBlock raw ?_ ⟨i, huse, hblock⟩ data false
        rw [show block + 1 + k = block + (k + 1) by omega]
        exact hcached (k + 1) (by omega)
      · have hend := (hspared.set_clean (i := i) hc).same hsame
        rw [← hsys] at hend
        exact .inr hend
  · have hc := Cache.not_unsaved_of_clean hcd
    have hspending : D.Spending io := ⟨h, hsmooth.spared hfree (Nat.succ_pos n)⟩
    have hdrop := hspending.drop e
    have hset := (hdrop.account.set_clean (i := e) (c := c)
      (by rw [Cache.Unsaved, dropSlot_inUse]; simp) hc
      (fun j _ hjuse _ hjb => hfree (@Channel.Cached.of_dropSlot _ raw _ e _
        ⟨j, hjuse, hjb.trans hcb⟩))).same hsame
    rw [← hsys] at hset
    refine ⟨hset, fun b hb => ?_, ?_⟩
    · rw [Channel.Dirty.same hsame, Channel.dirty_set_of_clean hc] at hb
      exact ((Channel.dirty_set_of_clean (Cache.not_unsaved_unused _)).mp hb.dirty).dirty
    · have hend := (hdrop.spared.set_clean (i := e) hc).same hsame
      rw [← hsys] at hend
      exact .inr hend

/-- **The loop over the blocks of a write** with write-through, none of which was dirty. -/
theorem Debt.Account.writeLoop_through (h : D.Account io) {n block : Nat} {buf : Buffer}
    (hsmooth : D.Smooth io block n) (hclean : ∀ k, k < n → ¬ io.channel.Dirty (block + k)) :
    D.Account (writeLoop raw true n block buf io) := by
  induction n generalizing io block buf with
  | zero =>
      exact h
  | succ n ih =>
      obtain ⟨hstore, hdirty, hrest⟩ := h.store_clean (buf.bytes io.channel.blockSize)
        (hclean 0 (Nat.succ_pos n)) hsmooth
      rw [writeLoop_storeBlock, Bool.not_true]
      refine ih hstore hrest fun k hk hd => hclean (k + 1) (by omega) ?_
      rw [show block + (k + 1) = block + 1 + k by omega]
      exact hdirty _ hd

/-- What a write needs: no write-back fails where a slot is given up, and no block of a write
with write-through is dirty. -/
structure Debt.Guarded (D : Debt raw) (io : Io σ) (writethrough : Bool) (block : Nat)
    (count : Int) : Prop where
  direct : count < 0 ∨ (writeDirectSize : Int) < count → D.Spared io
  back : 0 ≤ count → count ≤ writeDirectSize → writethrough = false →
    D.Steady io block count.toNat
  through : 0 ≤ count → count ≤ writeDirectSize → writethrough = true →
    D.Smooth io block count.toNat ∧ ∀ k, k < count.toNat → ¬ io.channel.Dirty (block + k)

/-- The raw write of a caller's buffer, under a channel that owes nothing of the block or owes
it in a slot. -/
theorem Debt.Account.writeBlk (h : D.Account io) {block : Nat} {count : Int} {buf : Buffer}
    (hgood : ∀ s, D.Good s → D.Good (raw.writeBlk D.blockSize block count buf s).2)
    (hout : ∀ s, D.Good s → D.Out s → D.Out (raw.writeBlk D.blockSize block count buf s).2) :
    D.Account { io with sys := (raw.writeBlk D.blockSize block count buf io.sys).2 } := by
  refine ⟨h.blockSize, h.unique, hgood _ h.good, ?_⟩
  rcases h.owed with hslot | ⟨hclean, hpaid⟩
  · exact .inl hslot
  · exact .inr ⟨hclean, hout _ h.good hpaid⟩

/-- **A write** keeps the account of a block that it does not change, or changes to what the
block has to hold. -/
theorem Debt.Account.unixWriteBlk64 (h : D.Account io) {writethrough : Bool} {block : Nat}
    {count : Int} {buf : Buffer} (hguard : D.Guarded io writethrough block count)
    (hcalm : ∀ s, D.Calm s → D.Calm (raw.writeBlk D.blockSize block count buf s).2)
    (hgood : ∀ s, D.Good s → D.Good (raw.writeBlk D.blockSize block count buf s).2)
    (hout : ∀ s, D.Good s → D.Out s → D.Out (raw.writeBlk D.blockSize block count buf s).2)
    (hbuf : writethrough = false → ∀ k, k < count.toNat → block + k = D.block →
      D.Buf ((buf.advance (k * D.blockSize)).bytes D.blockSize)) :
    D.Account (unixWriteBlk64 raw writethrough block count buf io).2 := by
  unfold UnixIo.unixWriteBlk64
  by_cases hdirect : count < 0 ∨ (writeDirectSize : Int) < count
  · rw [if_pos hdirect]
    have hflush := (h.flush true fun _ => hguard.direct hdirect).1
    generalize flushCachedBlocks raw true io = r at hflush ⊢
    split
    · dsimp only at hflush ⊢
      rw [hflush.blockSize]
      exact hflush.writeBlk hgood hout
    · exact hflush
  · rw [if_neg hdirect]
    cases writethrough with
    | false =>
        exact h.writeLoop_back (hguard.back (by omega) (by omega) rfl) (hbuf rfl)
    | true =>
        obtain ⟨hsmooth, hclean⟩ := hguard.through (by omega) (by omega) rfl
        have hraw := @Debt.Account.writeBlk _ _ _ _ h block count buf hgood hout
        have hsmooth' : D.Smooth
            { io with sys := (raw.writeBlk D.blockSize block count buf io.sys).2 } block
            count.toNat := by
          rcases hsmooth with hcached | hspared | hcalm'
          · exact .inl hcached
          · exact .inr (.inl hspared)
          · exact .inr (.inr (hcalm _ hcalm'))
        rw [← h.blockSize] at hraw hsmooth'
        exact hraw.writeLoop_through hsmooth' hclean

/-- **A byte write** that leaves the block alone. -/
theorem Debt.Account.unixWriteByte (h : D.Account io) {offset : Nat} {data : Bytes}
    (hspared : D.Spared io) (hgood : ∀ s, D.Good s → D.Good (raw.writeByte offset data s).2)
    (hout : ∀ s, D.Good s → D.Out s → D.Out (raw.writeByte offset data s).2) :
    D.Account (unixWriteByte raw offset data io).2 := by
  unfold UnixIo.unixWriteByte
  split_ifs
  · exact h
  · have hflush := (h.flush true fun _ => hspared).1
    generalize flushCachedBlocks raw true io = r at hflush ⊢
    split
    · refine ⟨hflush.blockSize, hflush.unique, hgood _ hflush.good, ?_⟩
      rcases hflush.owed with hslot | ⟨hclean, hpaid⟩
      · exact .inl hslot
      · exact .inr ⟨hclean, hout _ hflush.good hpaid⟩
    · exact hflush

/-- **`unix_flush`** keeps the account, and pays if the write-backs succeeded. -/
theorem Debt.Account.unixFlush (h : D.Account io)
    (hgood : ∀ e s, D.Good s → D.Good (raw.sync e s).2)
    (hsync : ∀ e s, D.Good s → D.Out s → D.Out (raw.sync e s).2) :
    D.Account (unixFlush raw io).2 ∧
      ((flushCachedBlocks raw false io).1 = .ok → D.Out (unixFlush raw io).2.sys) := by
  obtain ⟨hflush, hpaid, -⟩ := h.flush false fun hinv => Bool.noConfusion hinv
  unfold UnixIo.unixFlush
  generalize flushCachedBlocks raw false io = r at hflush hpaid ⊢
  refine ⟨⟨hflush.blockSize, hflush.unique, hgood _ _ hflush.good, ?_⟩,
    fun hok => hsync _ _ hflush.good (hpaid hok).1⟩
  rcases hflush.owed with hslot | ⟨hclean, hout⟩
  · exact .inl hslot
  · exact .inr ⟨hclean, hsync _ _ hflush.good hout⟩

/-- **`unix_set_blksize`** keeps the account, or pays and starts with an empty cache. -/
theorem Debt.Account.unixSetBlksize (h : D.Account io) (blksize : Nat) (pos : 0 < blksize) :
    D.Account (unixSetBlksize raw blksize pos io).2 ∨
      D.Out (unixSetBlksize raw blksize pos io).2.sys ∧
        D.Good (unixSetBlksize raw blksize pos io).2.sys ∧
        (unixSetBlksize raw blksize pos io).2.channel.blockSize = blksize ∧
        ∀ i, ((unixSetBlksize raw blksize pos io).2.channel.cache i).inUse = false := by
  unfold UnixIo.unixSetBlksize
  split_ifs
  · exact .inl h
  · obtain ⟨hflush, hpaid, -⟩ := h.flush false fun hinv => Bool.noConfusion hinv
    generalize flushCachedBlocks raw false io = r at hflush hpaid ⊢
    split
    · exact .inr ⟨(hpaid rfl).1, hflush.good, rfl, fun _ => rfl⟩
    · exact .inl hflush

end Writes

end UnixIo
end Rfsck
