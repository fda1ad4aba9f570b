import Rfsck.UnixIo.Debt

/-!
# Runs with failing system calls

A write that `unix_write_blk64` accepts waits in the cache, while every write-back behind it
may fail.  The module says when it is stored below the cache all the same.

* `Sink`: what the raw functions do to the bytes stored below the cache, whatever fails.
* `Step`: a call together with the outcomes of the system calls made during it.
* `Sink.Guards`: no system call fails during a call that may give up a dirty slot, and a write
  with write-through meets no dirty block.
* `Sink.NoWriteLost`: every accepted write is stored once a later flush succeeds, and a block
  stops being dirty only after a raw write of it has succeeded.  `Sink.noWriteLost`: that holds
  of guarded runs.
-/

namespace Rfsck
namespace UnixIo

open Storage
open Redo

section Recorded

/-- A raw write and its result. -/
structure RawWrite where
  location : Nat
  data : Bytes
  retval : Errcode

/-- The bytes that a raw write covers. -/
def RawWrite.Covers (r : RawWrite) (x : Nat) : Prop :=
  r.location ≤ x ∧ x < r.location + r.data.length

instance RawWrite.Covers.decidable (r : RawWrite) (x : Nat) : Decidable (r.Covers x) :=
  inferInstanceAs (Decidable (r.location ≤ x ∧ x < r.location + r.data.length))

/-- A process together with the raw writes it has made. -/
structure Recorded (σ : Type) where
  sys : σ
  writes : List RawWrite

variable {σ : Type}

/-- The raw functions, with a record of the writes. -/
def recorded (offset : Nat) (raw : Raw σ) : Raw (Recorded σ) where
  align := raw.align
  readBlk := fun bs b count addr s =>
    let (r, sys) := raw.readBlk bs b count addr s.sys
    (r, { s with sys := sys })
  writeBlk := fun bs b count buf s =>
    let (e, sys) := raw.writeBlk bs b count buf s.sys
    (e, { sys := sys
          writes := s.writes ++ [⟨place offset bs b, buf.bytes (transferSize bs count), e⟩] })
  writeByte := fun pos data s =>
    let (e, sys) := raw.writeByte pos data s.sys
    (e, { sys := sys, writes := s.writes ++ [⟨pos + offset, data, e⟩] })
  sync := fun e s =>
    let (r, sys) := raw.sync e s.sys
    (r, { s with sys := sys })

end Recorded

/-- What the raw functions do to the bytes stored below the cache, whatever fails.

* `arm os`: the next system calls have the outcomes `os`.
* `Calm`: no system call fails; `limit` is the largest block that one call transfers.
* `Has s x v`: the byte at `x` is stored, and is `v`.
* `Reach`, `Fits`: the positions and the sizes that the raw functions take.
* `masks`: whether the synchronisation drops the result of the write-backs. -/
structure Sink {σ : Type} (raw : Raw σ) where
  offset : Nat
  limit : Nat
  masks : Bool
  arm : List Outcome → σ → σ
  Good : σ → Prop
  Calm : σ → Prop
  Has : Recorded σ → Nat → UInt8 → Prop
  Reach : Nat → Prop
  Fits : Nat → Prop
  arm_good : ∀ {os : List Outcome} {s : σ}, Good s → Good (arm os s)
  arm_calm : ∀ {s : σ}, Calm (arm [] s)
  arm_has : ∀ {os : List Outcome} {s : Recorded σ} {x : Nat} {v : UInt8},
    Has s x v → Has { s with sys := arm os s.sys } x v
  readBlk_good : ∀ (bs b : Nat) (count : Int) (addr : Nat) {s : σ}, Good s →
    Good (raw.readBlk bs b count addr s).2
  readBlk_calm : ∀ (bs b : Nat) (count : Int) (addr : Nat) {s : σ}, Calm s →
    Calm (raw.readBlk bs b count addr s).2
  readBlk_has : ∀ (bs b : Nat) (count : Int) (addr : Nat) {s : Recorded σ} {x : Nat} {v : UInt8},
    Has s x v → Has ((recorded offset raw).readBlk bs b count addr s).2 x v
  writeBlk_good : ∀ (bs b : Nat) (count : Int) (buf : Buffer) {s : σ}, Good s →
    Good (raw.writeBlk bs b count buf s).2
  writeBlk_calm : ∀ (bs b : Nat) (count : Int) (buf : Buffer) {s : σ}, Calm s →
    Calm (raw.writeBlk bs b count buf s).2
  writeBlk_one : ∀ {bs : Nat} (b : Nat) (data : Bytes) {s : σ}, Calm s → bs ≤ limit →
    (raw.writeBlk bs b 1 (Buffer.ofBytes data) s).1 = .ok
  writeBlk_has : ∀ (bs b : Nat) (count : Int) (buf : Buffer) {s : Recorded σ} {x : Nat}
    {v : UInt8}, Good s.sys → Has s x v →
    (x < place offset bs b ∨ place offset bs b + transferSize bs count ≤ x) →
    Has ((recorded offset raw).writeBlk bs b count buf s).2 x v
  writeBlk_ok : ∀ {bs b : Nat} {count : Int} {buf : Buffer} {s : Recorded σ} {x : Nat},
    Good s.sys → ((recorded offset raw).writeBlk bs b count buf s).1 = .ok →
    Reach x → Fits (transferSize bs count) →
    place offset bs b ≤ x → x < place offset bs b + transferSize bs count →
    Has ((recorded offset raw).writeBlk bs b count buf s).2 x (buf.byte (x - place offset bs b))
  writeByte_good : ∀ (pos : Nat) (data : Bytes) {s : σ}, Good s →
    Good (raw.writeByte pos data s).2
  writeByte_has : ∀ (pos : Nat) (data : Bytes) {s : Recorded σ} {x : Nat} {v : UInt8},
    Good s.sys → Has s x v → (x < pos + offset ∨ pos + offset + data.length ≤ x) →
    Has ((recorded offset raw).writeByte pos data s).2 x v
  sync_good : ∀ (e : Errcode) {s : σ}, Good s → Good (raw.sync e s).2
  sync_has : ∀ (e : Errcode) {s : Recorded σ} {x : Nat} {v : UInt8}, Good s.sys → Has s x v →
    Has ((recorded offset raw).sync e s).2 x v
  sync_ok : masks = false → ∀ {e : Errcode} {s : σ}, (raw.sync e s).1 = .ok → e = .ok

section Debts

variable {σ : Type} {raw : Raw σ} (S : Sink raw)

/-- No system call fails, and a block fits into one. -/
def Sink.CalmAt (bs : Nat) (s : Recorded σ) : Prop :=
  S.Calm s.sys ∧ bs ≤ S.limit

theorem Sink.keeping_good (bs : Nat) :
    Keeping (recorded S.offset raw) (fun s => S.Good s.sys) bs :=
  ⟨fun b count addr _ h => S.readBlk_good bs b count addr h,
    fun c _ h => S.writeBlk_good bs c.block 1 (Buffer.ofBytes c.buf) h⟩

theorem Sink.keeping_calm (bs : Nat) :
    Keeping (recorded S.offset raw) (S.CalmAt bs) bs :=
  ⟨fun b count addr _ h => ⟨S.readBlk_calm bs b count addr h.1, h.2⟩,
    fun c _ h => ⟨S.writeBlk_calm bs c.block 1 (Buffer.ofBytes c.buf) h.1, h.2⟩⟩

/-- A byte that is owed: the block it lies in. -/
def Sink.byteDebt (bs b x : Nat) (v : UInt8)
    (hx : place S.offset bs b ≤ x ∧ x < place S.offset bs b + bs) (hreach : S.Reach x)
    (hfits : S.Fits bs) : Debt (recorded S.offset raw) where
  blockSize := bs
  block := b
  Buf buf := buf[x - place S.offset bs b]? = some v
  Out s := S.Has s x v
  Good s := S.Good s.sys
  Calm := S.CalmAt bs
  readBlk := fun b count addr _ _ h => S.readBlk_has bs b count addr h
  writeBack_other := by
    intro c s hgood hne h
    refine S.writeBlk_has bs c.block 1 (Buffer.ofBytes c.buf) hgood h ?_
    rw [transferSize_one]
    have := place_disjoint S.offset bs hne
    omega
  writeBack_same := by
    intro c s hgood hb hbuf hok
    have hhas := S.writeBlk_ok hgood hok hreach (by rw [transferSize_one]; exact hfits)
      (by rw [hb]; exact hx.1) (by rw [transferSize_one, hb]; exact hx.2)
    have hbyte : (Buffer.ofBytes c.buf).byte (x - place S.offset bs c.block) = v := by
      change c.buf.getD (x - place S.offset bs c.block) 0 = v
      rw [hb, List.getD_eq_getElem?_getD, hbuf]
      rfl
    rw [hbyte] at hhas
    exact hhas
  good := S.keeping_good bs
  calm := S.keeping_calm bs
  calm_ok := fun c _ h => S.writeBlk_one c.block c.buf h.1 h.2

/-- The raw writes of a process behind its first `n` include one that succeeded and covers the
block. -/
def Written (offset bs b n : Nat) (s : Recorded σ) : Prop :=
  ∃ r ∈ s.writes.drop n, r.retval = .ok ∧
    ∀ x, place offset bs b ≤ x → x < place offset bs b + bs → r.Covers x

instance Written.decidable (offset bs b n : Nat) (s : Recorded σ) :
    Decidable (Written offset bs b n s) :=
  inferInstanceAs (Decidable (∃ r ∈ s.writes.drop n, r.retval = .ok ∧
    ∀ x, place offset bs b ≤ x → x < place offset bs b + bs → r.Covers x))

theorem Written.append {offset bs b n : Nat} {s : Recorded σ} (h : Written offset bs b n s)
    {s' : Recorded σ} {rs : List RawWrite} (hs : s'.writes = s.writes ++ rs) :
    Written offset bs b n s' := by
  obtain ⟨r, hr, hok, hcovers⟩ := h
  refine ⟨r, ?_, hok, hcovers⟩
  rw [hs, List.drop_append]
  exact List.mem_append_left _ hr

/-- A block that is owed: it is paid once a raw write that covers it has succeeded. -/
def Sink.blockDebt (bs b n : Nat) : Debt (recorded S.offset raw) where
  blockSize := bs
  block := b
  Buf _ := True
  Out := Written S.offset bs b n
  Good s := S.Good s.sys ∧ n ≤ s.writes.length
  Calm := S.CalmAt bs
  readBlk := fun _ _ _ _ _ h => h
  writeBack_other := fun _ _ _ _ h => h.append rfl
  writeBack_same := by
    intro c s hgood hb _ hok
    refine ⟨⟨place S.offset bs c.block, (Buffer.ofBytes c.buf).bytes (transferSize bs 1),
      (writeBack (recorded S.offset raw) bs c s).1⟩, ?_, hok, fun x hlo hhi => ?_⟩
    · refine List.mem_of_mem_drop (i := s.writes.length - n) ?_
      rw [List.drop_drop, Nat.add_sub_cancel' hgood.2]
      exact List.mem_of_getElem? (i := 0) (by rw [List.getElem?_drop]; exact List.getElem?_concat_length)
    · rw [RawWrite.Covers, Buffer.length_bytes, transferSize_one, hb]
      exact ⟨hlo, hhi⟩
  good := by
    refine ⟨fun b count addr s h => ⟨(S.keeping_good bs).readBlk b count addr s h.1, h.2⟩,
      fun c s h => ⟨(S.keeping_good bs).writeBack c s h.1, ?_⟩⟩
    exact le_trans h.2 (by simp [writeBack, recorded])
  calm := S.keeping_calm bs
  calm_ok := fun c _ h => S.writeBlk_one c.block c.buf h.1 h.2

/-- Nothing is owed. -/
def Sink.noDebt (bs : Nat) : Debt (recorded S.offset raw) where
  blockSize := bs
  block := 0
  Buf _ := True
  Out _ := True
  Good s := S.Good s.sys
  Calm := S.CalmAt bs
  readBlk := fun _ _ _ _ _ h => h
  writeBack_other := fun _ _ _ _ h => h
  writeBack_same := fun _ _ _ _ _ _ => trivial
  good := S.keeping_good bs
  calm := S.keeping_calm bs
  calm_ok := fun c _ h => S.writeBlk_one c.block c.buf h.1 h.2

end Debts

/-- A call, and the outcomes of the system calls made during it. -/
structure Step where
  op : Op
  outcomes : List Outcome

/-- What a call writes: the byte at a position, where `bs` is the block size. -/
def Op.Puts (offset bs : Nat) : Op → Nat → UInt8 → Prop
  | .writeBlk64 _ block count buf, x, v =>
      place offset bs block ≤ x ∧ x < place offset bs block + transferSize bs count ∧
        buf.byte (x - place offset bs block) = v
  | _, _, _ => False

/-- The bytes that a call overwrites. -/
def Op.Covers (offset bs : Nat) : Op → Nat → Prop
  | .writeBlk64 _ block count _, x =>
      place offset bs block ≤ x ∧ x < place offset bs block + transferSize bs count
  | .writeByte pos data, x => pos + offset ≤ x ∧ x < pos + offset + data.length
  | _, _ => False

instance Op.Puts.decidable (offset bs : Nat) :
    ∀ (op : Op) (x : Nat) (v : UInt8), Decidable (op.Puts offset bs x v)
  | .writeBlk64 _ block count buf, x, v =>
      inferInstanceAs (Decidable (place offset bs block ≤ x ∧
        x < place offset bs block + transferSize bs count ∧
        buf.byte (x - place offset bs block) = v))
  | .readBlk64 _ _ _, _, _ => inferInstanceAs (Decidable False)
  | .writeByte _ _, _, _ => inferInstanceAs (Decidable False)
  | .flush, _, _ => inferInstanceAs (Decidable False)
  | .setBlksize _ _, _, _ => inferInstanceAs (Decidable False)

instance Op.Covers.decidable (offset bs : Nat) :
    ∀ (op : Op) (x : Nat), Decidable (op.Covers offset bs x)
  | .writeBlk64 _ block count _, x =>
      inferInstanceAs (Decidable (place offset bs block ≤ x ∧
        x < place offset bs block + transferSize bs count))
  | .writeByte pos data, x =>
      inferInstanceAs (Decidable (pos + offset ≤ x ∧ x < pos + offset + data.length))
  | .readBlk64 _ _ _, _ => inferInstanceAs (Decidable False)
  | .flush, _ => inferInstanceAs (Decidable False)
  | .setBlksize _ _, _ => inferInstanceAs (Decidable False)

instance Channel.Dirty.decidable (ch : Channel) (b : Nat) : Decidable (ch.Dirty b) :=
  inferInstanceAs (Decidable (∃ i, (ch.cache i).inUse = true ∧ (ch.cache i).dirty = true ∧
    (ch.cache i).block = b))

namespace Sink

variable {σ : Type} {raw : Raw σ} (S : Sink raw)

/-- The next system calls have these outcomes. -/
def armed (os : List Outcome) (io : Io (Recorded σ)) : Io (Recorded σ) :=
  { io with sys := { io.sys with sys := S.arm os io.sys.sys } }

def step (st : Step) (io : Io (Recorded σ)) : Result × Io (Recorded σ) :=
  st.op.run (recorded S.offset raw) (S.armed st.outcomes io)

/-- A sequence of calls: the results, and the state at the end. -/
def steps : List Step → Io (Recorded σ) → List Result × Io (Recorded σ)
  | [], io => ([], io)
  | st :: sts, io =>
      let (r, io) := S.step st io
      let (rs, io) := steps sts io
      (r :: rs, io)

theorem steps_cons (st : Step) (sts : List Step) (io : Io (Recorded σ)) :
    S.steps (st :: sts) io =
      ((S.step st io).1 :: (S.steps sts (S.step st io).2).1,
        (S.steps sts (S.step st io).2).2) :=
  rfl

theorem steps_append (sts sts' : List Step) (io : Io (Recorded σ)) :
    (S.steps (sts ++ sts') io).2 = (S.steps sts' (S.steps sts io).2).2 := by
  induction sts generalizing io with
  | nil => rfl
  | cons st sts ih => exact ih _

/-- Every call of a sequence meets a condition in the state before it. -/
def EachStep (P : Step → Io (Recorded σ) → Prop) : List Step → Io (Recorded σ) → Prop
  | [], _ => True
  | st :: sts, io => P st io ∧ EachStep P sts (S.step st io).2

instance EachStep.decidable (P : Step → Io (Recorded σ) → Prop) [∀ st io, Decidable (P st io)] :
    ∀ (sts : List Step) (io : Io (Recorded σ)), Decidable (S.EachStep P sts io)
  | [], _ => inferInstanceAs (Decidable True)
  | st :: sts, io =>
      have := EachStep.decidable P sts (S.step st io).2
      inferInstanceAs (Decidable (P st io ∧ S.EachStep P sts (S.step st io).2))

/-- No system call fails during the call. -/
def Quiet (st : Step) (io : Io (Recorded σ)) : Prop :=
  st.outcomes = [] ∧ io.channel.blockSize ≤ S.limit

/-- No write-back fails during the call: nothing is dirty, or no system call fails. -/
def Spares (st : Step) (io : Io (Recorded σ)) : Prop :=
  ¬ io.channel.AnyDirty ∨ S.Quiet st io

/-- The blocks of the call are all in the cache. -/
def InCache (io : Io (Recorded σ)) (block : Nat) (count : Int) : Prop :=
  ∀ k, k < count.toNat → io.channel.Cached (block + k)

/-- What a call needs of the state before it.

* A read through the cache that misses: no write-back fails.
* A write that passes by the cache, and a byte write: no write-back fails.
* A write into the cache that misses: no system call fails.
* A write with write-through that misses: no write-back fails; in any case none of its blocks
  is dirty.
* A flush whose synchronisation drops the result of the write-backs: none fails. -/
def Guards (st : Step) (io : Io (Recorded σ)) : Prop :=
  match st.op with
  | .readBlk64 block count _ =>
      0 ≤ count → count ≤ writeDirectSize → InCache io block count ∨ S.Spares st io
  | .writeBlk64 writethrough block count _ =>
      S.Fits (transferSize io.channel.blockSize count) ∧
        (count < 0 ∨ (writeDirectSize : Int) < count → S.Spares st io) ∧
        (0 ≤ count → count ≤ writeDirectSize → writethrough = false →
          InCache io block count ∨ S.Quiet st io) ∧
        (0 ≤ count → count ≤ writeDirectSize → writethrough = true →
          (InCache io block count ∨ S.Spares st io) ∧
            ∀ k, k < count.toNat → ¬ io.channel.Dirty (block + k))
  | .writeByte _ _ => S.Spares st io
  | .flush => S.masks = true → S.Spares st io
  | .setBlksize blksize _ => S.Fits blksize

/-- An accepted write is stored once a later flush succeeds and no call in between failed,
unless a call in between overwrote it. -/
def KeepsAccepted (io : Io (Recorded σ)) (sts : List Step) : Prop :=
  ∀ (pre : List Step) (st : Step) (mid : List Step) (os : List Outcome) (post : List Step),
    sts = pre ++ st :: (mid ++ ⟨.flush, os⟩ :: post) →
    let io₁ := (S.steps pre io).2
    let io₂ := (S.step st io₁).2
    let io₃ := (S.steps mid io₂).2
    (S.step st io₁).1 = .ok [] → (∀ r ∈ (S.steps mid io₂).1, r.isOk = true) →
    (S.step ⟨.flush, os⟩ io₃).1 = .ok [] →
    ∀ x v, S.Reach x → st.op.Puts S.offset io₁.channel.blockSize x v →
      S.EachStep (fun st io => ¬ st.op.Covers S.offset io.channel.blockSize x) mid io₂ →
      S.Has (S.step ⟨.flush, os⟩ io₃).2.sys x v

/-- A block stops being dirty, or in use, only in a call that makes a raw write of it which
succeeds. -/
def KeepsDirty (io : Io (Recorded σ)) (sts : List Step) : Prop :=
  ∀ (pre : List Step) (st : Step) (post : List Step), sts = pre ++ st :: post →
    let io₁ := (S.steps pre io).2
    let io₂ := (S.step st io₁).2
    ∀ b, io₁.channel.Dirty b →
      io₂.channel.blockSize = io₁.channel.blockSize ∧ io₂.channel.Dirty b ∨
        Written S.offset io₁.channel.blockSize b io₁.sys.writes.length io₂.sys

end Sink

section Serves

variable {σ : Type} {raw : Raw σ}

/-- A debt that the calls between the write-backs do not disturb. -/
structure Sink.Serves (S : Sink raw) (D : Debt (recorded S.offset raw)) : Prop where
  calm : D.Calm = S.CalmAt D.blockSize
  arm_good : ∀ os s, D.Good s → D.Good { s with sys := S.arm os s.sys }
  arm_out : ∀ os s, D.Out s → D.Out { s with sys := S.arm os s.sys }
  writeBlk_good : ∀ b count buf s, D.Good s →
    D.Good ((recorded S.offset raw).writeBlk D.blockSize b count buf s).2
  writeByte_good : ∀ pos data s, D.Good s →
    D.Good ((recorded S.offset raw).writeByte pos data s).2
  sync_good : ∀ e s, D.Good s → D.Good ((recorded S.offset raw).sync e s).2
  sync_out : ∀ e s, D.Good s → D.Out s → D.Out ((recorded S.offset raw).sync e s).2

theorem Sink.serves_byteDebt (S : Sink raw) {bs b x : Nat} {v : UInt8}
    (hx : place S.offset bs b ≤ x ∧ x < place S.offset bs b + bs) (hreach : S.Reach x)
    (hfits : S.Fits bs) : S.Serves (S.byteDebt bs b x v hx hreach hfits) where
  calm := rfl
  arm_good := fun _ _ h => S.arm_good h
  arm_out := fun _ _ h => S.arm_has h
  writeBlk_good := fun b count buf _ h => S.writeBlk_good bs b count buf h
  writeByte_good := fun pos data _ h => S.writeByte_good pos data h
  sync_good := fun e _ h => S.sync_good e h
  sync_out := fun e _ hgood h => S.sync_has e hgood h

theorem Sink.serves_blockDebt (S : Sink raw) (bs b n : Nat) : S.Serves (S.blockDebt bs b n) where
  calm := rfl
  arm_good := fun _ _ h => ⟨S.arm_good h.1, h.2⟩
  arm_out := fun _ _ h => h
  writeBlk_good := fun b count buf _ h =>
    ⟨S.writeBlk_good bs b count buf h.1, le_trans h.2 (by simp [recorded])⟩
  writeByte_good := fun pos data _ h =>
    ⟨S.writeByte_good pos data h.1, le_trans h.2 (by simp [recorded])⟩
  sync_good := fun e _ h => ⟨S.sync_good e h.1, h.2⟩
  sync_out := fun _ _ _ h => h

theorem Sink.serves_noDebt (S : Sink raw) (bs : Nat) : S.Serves (S.noDebt bs) where
  calm := rfl
  arm_good := fun _ _ h => S.arm_good h
  arm_out := fun _ _ h => h
  writeBlk_good := fun b count buf _ h => S.writeBlk_good bs b count buf h
  writeByte_good := fun pos data _ h => S.writeByte_good pos data h
  sync_good := fun e _ h => S.sync_good e h
  sync_out := fun _ _ _ h => h

variable {S : Sink raw} {D : Debt (recorded S.offset raw)} {io : Io (Recorded σ)} {st : Step}

theorem Sink.Serves.account_armed (hS : S.Serves D) (h : D.Account io) (os : List Outcome) :
    D.Account (S.armed os io) := by
  refine ⟨h.blockSize, h.unique, hS.arm_good os _ h.good, ?_⟩
  rcases h.owed with hslot | ⟨hclean, hout⟩
  · exact .inl hslot
  · exact .inr ⟨hclean, hS.arm_out os _ hout⟩

theorem Sink.Serves.calm_armed (hS : S.Serves D) (hsize : io.channel.blockSize = D.blockSize)
    (h : S.Quiet st io) : D.Calm (S.armed st.outcomes io).sys := by
  obtain ⟨hout, hle⟩ := h
  rw [hS.calm, hout, ← hsize]
  exact ⟨S.arm_calm, hle⟩

theorem Sink.Serves.spared_armed (hS : S.Serves D) (hsize : io.channel.blockSize = D.blockSize)
    (h : S.Spares st io) : D.Spared (S.armed st.outcomes io) := by
  rcases h with h | h
  · exact .inl h
  · exact .inr (hS.calm_armed hsize h)

theorem Sink.Serves.smooth_armed (hS : S.Serves D) (hsize : io.channel.blockSize = D.blockSize)
    {block : Nat} {count : Int} (h : Sink.InCache io block count ∨ S.Spares st io) :
    D.Smooth (S.armed st.outcomes io) block count.toNat := by
  rcases h with h | h
  · exact .inl h
  · exact .inr (hS.spared_armed hsize h)

theorem Sink.Serves.guarded_armed (hS : S.Serves D) (hsize : io.channel.blockSize = D.blockSize)
    {writethrough : Bool} {block : Nat} {count : Int} {buf : Buffer} {os : List Outcome}
    (h : S.Guards ⟨.writeBlk64 writethrough block count buf, os⟩ io) :
    D.Guarded (S.armed os io) writethrough block count := by
  obtain ⟨-, hdirect, hback, hthrough⟩ := h
  refine ⟨fun hd => hS.spared_armed hsize (hdirect hd), fun h₀ h₁ hw => ?_, fun h₀ h₁ hw => ?_⟩
  · rcases hback h₀ h₁ hw with hcached | hquiet
    · exact .inl hcached
    · exact .inr (hS.calm_armed hsize hquiet)
  · obtain ⟨hsmooth, hclean⟩ := hthrough h₀ h₁ hw
    exact ⟨hS.smooth_armed hsize hsmooth, hclean⟩

/-- A call does not touch what is owed, or writes what the block has to hold. -/
def Sink.Leaves (S : Sink raw) (D : Debt (recorded S.offset raw)) : Op → Prop
  | .writeBlk64 _ block count buf =>
      (∀ s, D.Good s → D.Out s →
        D.Out ((recorded S.offset raw).writeBlk D.blockSize block count buf s).2) ∧
        ∀ k, k < count.toNat → block + k = D.block →
          D.Buf ((buf.advance (k * D.blockSize)).bytes D.blockSize)
  | .writeByte pos data =>
      ∀ s, D.Good s → D.Out s → D.Out ((recorded S.offset raw).writeByte pos data s).2
  | _ => True

/-- **A guarded call** keeps the account, or pays and starts with an empty cache. -/
theorem Sink.Serves.step (hS : S.Serves D) (h : D.Account io) (hguard : S.Guards st io)
    (hleaves : S.Leaves D st.op) :
    D.Account (S.step st io).2 ∨
      ∃ blksize pos, st.op = .setBlksize blksize pos ∧
        D.Out (S.step st io).2.sys ∧ D.Good (S.step st io).2.sys ∧
        (S.step st io).2.channel.blockSize = blksize ∧
        ∀ i, ((S.step st io).2.channel.cache i).inUse = false := by
  have harmed := hS.account_armed h st.outcomes
  obtain ⟨op, os⟩ := st
  cases op with
  | readBlk64 block count addr =>
      refine .inl (harmed.unixReadBlk64 block count addr fun hdirect => ?_)
      exact hS.smooth_armed h.blockSize (hguard (by omega) (by omega))
  | writeBlk64 writethrough block count buf =>
      refine .inl (harmed.unixWriteBlk64 (hS.guarded_armed h.blockSize hguard) ?_
        (hS.writeBlk_good block count buf) hleaves.1 fun _ => hleaves.2)
      intro s hs
      rw [hS.calm] at hs ⊢
      exact ⟨S.writeBlk_calm _ _ _ _ hs.1, hs.2⟩
  | writeByte pos data =>
      exact .inl (harmed.unixWriteByte (hS.spared_armed h.blockSize hguard)
        (hS.writeByte_good pos data) hleaves)
  | flush =>
      exact .inl (harmed.unixFlush hS.sync_good hS.sync_out).1
  | setBlksize blksize pos =>
      rcases harmed.unixSetBlksize blksize pos with hacc | ⟨hout, hgood, hsize, hempty⟩
      · exact .inl hacc
      · exact .inr ⟨blksize, pos, rfl, hout, hgood, hsize, hempty⟩

/-- **A flush that succeeds** pays. -/
theorem Sink.Serves.flush_paid (hS : S.Serves D) (h : D.Account io) {os : List Outcome}
    (hguard : S.Guards ⟨.flush, os⟩ io) (hok : (S.step ⟨.flush, os⟩ io).1 = .ok []) :
    D.Out (S.step ⟨.flush, os⟩ io).2.sys := by
  have harmed := hS.account_armed h os
  refine (harmed.unixFlush hS.sync_good hS.sync_out).2 ?_
  have hsync := (Errcode.result_eq_ok hok).1
  cases hmasks : S.masks with
  | false =>
      exact S.sync_ok hmasks hsync
  | true =>
      exact ((harmed.flush false fun hinv => Bool.noConfusion hinv).2.2
        (hS.spared_armed h.blockSize (hguard hmasks))).1

end Serves

section Runs

variable {σ : Type} {raw : Raw σ} {S : Sink raw} {io : Io (Recorded σ)} {st : Step}

/-- What every reachable state has. -/
structure Sink.Ready (S : Sink raw) (io : Io (Recorded σ)) : Prop where
  unique : io.channel.Unique
  good : S.Good io.sys.sys
  fits : S.Fits io.channel.blockSize

theorem Channel.unique_of_unused {ch : Channel} (h : ∀ i, (ch.cache i).inUse = false) :
    ch.Unique := by
  intro i _ hi
  rw [h i] at hi
  cases hi

theorem Channel.not_dirty_of_unused {ch : Channel} (h : ∀ i, (ch.cache i).inUse = false)
    (b : Nat) : ¬ ch.Dirty b := by
  rintro ⟨i, hi, -⟩
  rw [h i] at hi
  cases hi

theorem Sink.Ready.account (h : S.Ready io) : (S.noDebt io.channel.blockSize).Account io := by
  refine ⟨rfl, h.unique, h.good, ?_⟩
  by_cases hdirty : io.channel.Dirty 0
  · obtain ⟨i, huse, hd, hb⟩ := hdirty
    exact .inl ⟨i, ⟨huse, hd⟩, hb, trivial⟩
  · exact .inr ⟨hdirty, trivial⟩

theorem Sink.leaves_noDebt (bs : Nat) (op : Op) : S.Leaves (S.noDebt bs) op := by
  cases op with
  | readBlk64 => trivial
  | writeBlk64 => exact ⟨fun _ _ h => h, fun _ _ _ => trivial⟩
  | writeByte => exact fun _ _ h => h
  | flush => trivial
  | setBlksize => trivial

theorem Sink.Ready.step (h : S.Ready io) (hguard : S.Guards st io) :
    S.Ready (S.step st io).2 := by
  rcases (S.serves_noDebt _).step h.account hguard (Sink.leaves_noDebt _ _) with
    hacc | ⟨blksize, pos, hop, -, hgood, hsize, hempty⟩
  · refine ⟨hacc.unique, hacc.good, ?_⟩
    rw [hacc.blockSize]
    exact h.fits
  · refine ⟨Channel.unique_of_unused hempty, hgood, ?_⟩
    rw [hsize]
    unfold Sink.Guards at hguard
    rw [hop] at hguard
    exact hguard

theorem Sink.Ready.steps (h : S.Ready io) {sts : List Step} (hguard : S.EachStep S.Guards sts io) :
    S.Ready (S.steps sts io).2 := by
  induction sts generalizing io with
  | nil =>
      exact h
  | cons st sts ih =>
      rw [Sink.steps_cons]
      exact ih (h.step hguard.1) hguard.2

theorem Sink.EachStep.append {P : Step → Io (Recorded σ) → Prop} {sts sts' : List Step}
    (h : S.EachStep P (sts ++ sts') io) :
    S.EachStep P sts io ∧ S.EachStep P sts' (S.steps sts io).2 := by
  induction sts generalizing io with
  | nil =>
      exact ⟨trivial, h⟩
  | cons st sts ih =>
      obtain ⟨hsts, hrest⟩ := ih h.2
      exact ⟨⟨h.1, hsts⟩, hrest⟩

/-- The byte at `x` is owed, or stored. -/
def Sink.Tracks (S : Sink raw) (io : Io (Recorded σ)) (x : Nat) (v : UInt8) : Prop :=
  ∃ b hx hreach hfits, (S.byteDebt io.channel.blockSize b x v hx hreach hfits).Account io

theorem exists_block {offset bs x : Nat} (hbs : 0 < bs) (hx : offset ≤ x) :
    ∃ b, place offset bs b ≤ x ∧ x < place offset bs b + bs := by
  refine ⟨(x - offset) / bs, ?_⟩
  have hdiv := Nat.div_add_mod (x - offset) bs
  have hmod := Nat.mod_lt (x - offset) hbs
  rw [Nat.mul_comm] at hdiv
  unfold place
  omega

theorem Sink.tracks_of_has {x : Nat} {v : UInt8} (hready : S.Ready io)
    (hempty : ∀ b, ¬ io.channel.Dirty b) (hreach : S.Reach x) (hx : S.offset ≤ x)
    (hhas : S.Has io.sys x v) : S.Tracks io x v := by
  obtain ⟨b, hb⟩ := @exists_block S.offset _ x io.channel.blockSize_pos hx
  exact ⟨b, hb, hreach, hready.fits, rfl, hready.unique, hready.good, .inr ⟨hempty b, hhas⟩⟩

theorem transferSize_of_nonneg {bs : Nat} {count : Int} (h : 0 ≤ count) :
    transferSize bs count = count.toNat * bs := by
  unfold transferSize
  rw [if_neg (by omega)]

theorem ne_of_not_covers {offset bs block b x : Nat} {count : Int}
    (hx : place offset bs b ≤ x ∧ x < place offset bs b + bs)
    (h : ¬ (place offset bs block ≤ x ∧ x < place offset bs block + transferSize bs count))
    {k : Nat} (hk : k < count.toNat) : block + k ≠ b := by
  rintro rfl
  have hcount : 0 ≤ count := by omega
  have hmul := Nat.mul_le_mul_right bs hk
  rw [Nat.succ_mul] at hmul
  rw [place_add] at hx
  rw [transferSize_of_nonneg hcount] at h
  omega

theorem Sink.leaves_byteDebt {b x : Nat} {v : UInt8} {bs : Nat}
    (hx : place S.offset bs b ≤ x ∧ x < place S.offset bs b + bs) (hreach : S.Reach x)
    (hfits : S.Fits bs) {op : Op} (hop : ¬ op.Covers S.offset bs x) :
    S.Leaves (S.byteDebt bs b x v hx hreach hfits) op := by
  cases op with
  | readBlk64 => trivial
  | writeBlk64 writethrough block count buf =>
      refine ⟨fun s hgood hhas => S.writeBlk_has bs block count buf hgood hhas ?_,
        fun k hk hb => absurd hb (ne_of_not_covers hx hop hk)⟩
      unfold Op.Covers at hop
      omega
  | writeByte pos data =>
      refine fun s hgood hhas => S.writeByte_has pos data hgood hhas ?_
      unfold Op.Covers at hop
      omega
  | flush => trivial
  | setBlksize => trivial

/-- **A call that does not overwrite the byte.** -/
theorem Sink.Tracks.step {x : Nat} {v : UInt8} (h : S.Tracks io x v) (hready : S.Ready io)
    (hguard : S.Guards st io) (hop : ¬ st.op.Covers S.offset io.channel.blockSize x) :
    S.Tracks (S.step st io).2 x v := by
  obtain ⟨b, hx, hreach, hfits, hacc⟩ := h
  have hready' := hready.step hguard
  rcases (S.serves_byteDebt hx hreach hfits).step hacc hguard
    (Sink.leaves_byteDebt hx hreach hfits hop) with hacc' | ⟨_, _, _, hhas, -, -, hempty⟩
  · have hsize : (S.step st io).2.channel.blockSize = io.channel.blockSize := hacc'.blockSize
    refine ⟨b, ?_⟩
    rw [hsize]
    exact ⟨hx, hreach, hfits, hacc'⟩
  · refine Sink.tracks_of_has hready' (Channel.not_dirty_of_unused hempty) hreach ?_ hhas
    exact le_trans (Nat.le_add_left _ _) hx.1

theorem Sink.Tracks.steps {x : Nat} {v : UInt8} {sts : List Step} (h : S.Tracks io x v)
    (hready : S.Ready io) (hguard : S.EachStep S.Guards sts io)
    (hop : S.EachStep (fun st io => ¬ st.op.Covers S.offset io.channel.blockSize x) sts io) :
    S.Tracks (S.steps sts io).2 x v := by
  induction sts generalizing io with
  | nil =>
      exact h
  | cons st sts ih =>
      rw [Sink.steps_cons]
      exact ih (h.step hready hguard.1 hop.1) (hready.step hguard.1) hguard.2 hop.2

theorem Buffer.getElem?_bytes_advance (buf : Buffer) {m n i : Nat} (hi : i < n) :
    ((buf.advance m).bytes n)[i]? = some (buf.byte (m + i)) := by
  simp [Buffer.bytes, Buffer.advance, List.getElem?_range hi]

theorem exists_block_of_covers {offset bs block x : Nat} {count : Int} (hbs : 0 < bs)
    (hcount : 0 ≤ count) (hlo : place offset bs block ≤ x)
    (hhi : x < place offset bs block + transferSize bs count) :
    ∃ k, k < count.toNat ∧ place offset bs (block + k) ≤ x ∧
      x < place offset bs (block + k) + bs := by
  rw [transferSize_of_nonneg hcount] at hhi
  have hdiv := Nat.div_add_mod (x - place offset bs block) bs
  have hmod := Nat.mod_lt (x - place offset bs block) hbs
  refine ⟨(x - place offset bs block) / bs, ?_, ?_⟩
  · rw [Nat.div_lt_iff_lt_mul hbs]
    omega
  · rw [place_add]
    rw [Nat.mul_comm] at hdiv
    omega

theorem Sink.tracks_of_back {block : Nat} {count : Int} {buf : Buffer} {os : List Outcome}
    {x : Nat} {v : UInt8} (hready : S.Ready io)
    (hguard : S.Guards ⟨.writeBlk64 false block count buf, os⟩ io)
    (hcount : 0 ≤ count) (hle : count ≤ writeDirectSize) (hreach : S.Reach x)
    (hputs : (Op.writeBlk64 false block count buf).Puts S.offset io.channel.blockSize x v) :
    S.Tracks (writeLoop (recorded S.offset raw) false count.toNat block buf (S.armed os io)) x v
    := by
  obtain ⟨hlo, hhi, hv⟩ := hputs
  obtain ⟨k, hk, hx⟩ := exists_block_of_covers io.channel.blockSize_pos hcount hlo hhi
  have hserves := S.serves_byteDebt (v := v) hx hreach hready.fits
  have hgood : S.Good (S.armed os io).sys.sys := S.arm_good hready.good
  have hacc := @Debt.account_of_write _ _ (S.byteDebt _ _ x v hx hreach hready.fits)
    (S.armed os io) rfl hready.unique hgood count.toNat _ buf
    ((hserves.guarded_armed rfl hguard).back hcount hle rfl) ⟨k, hk, rfl⟩ (by
      intro j hj hjb
      have hkj : j = k := Nat.add_left_cancel hjb
      subst hkj
      refine (Buffer.getElem?_bytes_advance buf ?_).trans ?_
      · change x - place S.offset io.channel.blockSize (block + j) < io.channel.blockSize
        omega
      · rw [← hv]
        refine congrArg some (congrArg buf.byte ?_)
        change j * io.channel.blockSize + (x - place S.offset io.channel.blockSize (block + j)) =
          x - place S.offset io.channel.blockSize block
        rw [place_add] at hx ⊢
        omega)
  have hsize := hacc.blockSize
  refine ⟨block + k, ?_⟩
  rw [hsize]
  exact ⟨hx, hreach, hready.fits, hacc⟩

/-- The bytes of a write with write-through. -/
theorem Sink.tracks_of_through {block : Nat} {count : Int} {buf : Buffer} {os : List Outcome}
    {x : Nat} {v : UInt8} (hready : S.Ready io)
    (hguard : S.Guards ⟨.writeBlk64 true block count buf, os⟩ io)
    (hcount : 0 ≤ count) (hle : count ≤ writeDirectSize) (hreach : S.Reach x)
    (hputs : (Op.writeBlk64 true block count buf).Puts S.offset io.channel.blockSize x v)
    (hok : ((recorded S.offset raw).writeBlk io.channel.blockSize block count buf
      (S.armed os io).sys).1 = .ok) :
    S.Tracks (writeLoop (recorded S.offset raw) true count.toNat block buf
      { S.armed os io with
        sys := ((recorded S.offset raw).writeBlk io.channel.blockSize block count buf
          (S.armed os io).sys).2 }) x v := by
  obtain ⟨hlo, hhi, hv⟩ := hputs
  obtain ⟨k, hk, hx⟩ := exists_block_of_covers io.channel.blockSize_pos hcount hlo hhi
  have hserves := S.serves_byteDebt (v := v) hx hreach hready.fits
  have hgood : S.Good (S.armed os io).sys.sys := S.arm_good hready.good
  have hhas := S.writeBlk_ok hgood hok hreach hguard.1 hlo hhi
  rw [hv] at hhas
  obtain ⟨hsmooth, hclean⟩ := (hserves.guarded_armed rfl hguard).through hcount hle rfl
  have hacc : (S.byteDebt _ _ x v hx hreach hready.fits).Account
      { S.armed os io with
        sys := ((recorded S.offset raw).writeBlk io.channel.blockSize block count buf
          (S.armed os io).sys).2 } :=
    ⟨rfl, hready.unique, S.writeBlk_good _ _ _ _ hgood, .inr ⟨hclean k hk, hhas⟩⟩
  have hend := @Debt.Account.writeLoop_through _ _ _ _ hacc count.toNat _ buf (by
    rcases hsmooth with hcached | hspared | hcalm
    · exact .inl hcached
    · exact .inr (.inl hspared)
    · exact .inr (.inr ⟨S.writeBlk_calm _ _ _ _ hcalm.1, hcalm.2⟩)) hclean
  have hsize := hend.blockSize
  refine ⟨block + k, ?_⟩
  rw [hsize]
  exact ⟨hx, hreach, hready.fits, hend⟩

/-- **The accepted write itself.** -/
theorem Sink.tracks_of_write {writethrough : Bool} {block : Nat} {count : Int} {buf : Buffer}
    {os : List Outcome} {x : Nat} {v : UInt8} (hready : S.Ready io)
    (hguard : S.Guards ⟨.writeBlk64 writethrough block count buf, os⟩ io)
    (hok : (S.step ⟨.writeBlk64 writethrough block count buf, os⟩ io).1 = .ok [])
    (hreach : S.Reach x)
    (hputs : (Op.writeBlk64 writethrough block count buf).Puts S.offset io.channel.blockSize x v) :
    S.Tracks (S.step ⟨.writeBlk64 writethrough block count buf, os⟩ io).2 x v := by
  have hready' := hready.step hguard
  have hok' : (unixWriteBlk64 (recorded S.offset raw) writethrough block count buf
      (S.armed os io)).1 = .ok := (Errcode.result_eq_ok hok).1
  change S.Ready (unixWriteBlk64 (recorded S.offset raw) writethrough block count buf
    (S.armed os io)).2 at hready'
  change S.Tracks (unixWriteBlk64 (recorded S.offset raw) writethrough block count buf
    (S.armed os io)).2 x v
  unfold unixWriteBlk64 at hok' hready' ⊢
  by_cases hdirect : count < 0 ∨ (writeDirectSize : Int) < count
  · rw [if_pos hdirect] at hok' hready' ⊢
    have harmed := (S.serves_noDebt _).account_armed hready.account os
    obtain ⟨hflush, hpaid, -⟩ := harmed.flush true fun _ =>
      (S.serves_noDebt _).spared_armed rfl (hguard.2.1 hdirect)
    generalize flushCachedBlocks (recorded S.offset raw) true (S.armed os io) = r
      at hflush hpaid hok' hready' ⊢
    obtain ⟨e, io₁⟩ := r
    cases e with
    | ok =>
        have hsize : io₁.channel.blockSize = io.channel.blockSize := hflush.blockSize
        obtain ⟨hlo, hhi, hv⟩ := hputs
        dsimp only at hok' hready' ⊢
        rw [hsize] at hok' hready' ⊢
        have hhas := S.writeBlk_ok hflush.good hok' hreach hguard.1 hlo hhi
        rw [hv] at hhas
        refine Sink.tracks_of_has hready' (fun b hb => (hpaid rfl).2 ⟨b, hb⟩) hreach ?_ hhas
        exact le_trans (Nat.le_add_left _ _) hlo
    | errno => cases hok'
    | shortRead => cases hok'
    | shortWrite => cases hok'
    | unimplemented => cases hok'
    | redo code => cases hok'
  · rw [if_neg hdirect] at hok' ⊢
    cases writethrough with
    | false =>
        exact Sink.tracks_of_back hready hguard (by omega) (by omega) hreach hputs
    | true =>
        exact Sink.tracks_of_through hready hguard (by omega) (by omega) hreach hputs hok'

theorem Sink.tracks_of_puts {x : Nat} {v : UInt8} (hready : S.Ready io)
    (hguard : S.Guards st io) (hok : (S.step st io).1 = .ok []) (hreach : S.Reach x)
    (hputs : st.op.Puts S.offset io.channel.blockSize x v) : S.Tracks (S.step st io).2 x v := by
  obtain ⟨op, os⟩ := st
  cases op with
  | writeBlk64 writethrough block count buf =>
      exact Sink.tracks_of_write hready hguard hok hreach hputs
  | readBlk64 => exact hputs.elim
  | writeByte => exact hputs.elim
  | flush => exact hputs.elim
  | setBlksize => exact hputs.elim

/-- **An accepted write is stored** once a later flush succeeds. -/
theorem Sink.keepsAccepted (hready : S.Ready io) {sts : List Step}
    (hguard : S.EachStep S.Guards sts io) : S.KeepsAccepted io sts := by
  rintro pre st mid os post rfl io₁ io₂ io₃ hok - hflush x v hreach hputs hcovers
  obtain ⟨hpre, hst, hrest⟩ := hguard.append
  obtain ⟨hmid, hlast, -⟩ := hrest.append
  have hready₁ : S.Ready io₁ := hready.steps hpre
  have hready₂ : S.Ready io₂ := hready₁.step hst
  have htracks₂ : S.Tracks io₂ x v := Sink.tracks_of_puts hready₁ hst hok hreach hputs
  obtain ⟨b, hx, hreach, hfits, hacc⟩ := htracks₂.steps hready₂ hmid hcovers
  exact (S.serves_byteDebt hx hreach hfits).flush_paid hacc hlast hflush

theorem Sink.leaves_blockDebt (bs b n : Nat) (op : Op) : S.Leaves (S.blockDebt bs b n) op := by
  cases op with
  | readBlk64 => trivial
  | writeBlk64 => exact ⟨fun _ _ h => h.append rfl, fun _ _ _ => trivial⟩
  | writeByte => exact fun _ _ h => h.append rfl
  | flush => trivial
  | setBlksize => trivial

/-- **A dirty block is given up only after it was written.** -/
theorem Sink.keepsDirty (hready : S.Ready io) {sts : List Step}
    (hguard : S.EachStep S.Guards sts io) : S.KeepsDirty io sts := by
  rintro pre st post rfl io₁ io₂ b ⟨i, huse, hdirty, hb⟩
  obtain ⟨hpre, hst, -⟩ := hguard.append
  have hready₁ : S.Ready io₁ := hready.steps hpre
  have hacc : (S.blockDebt io₁.channel.blockSize b io₁.sys.writes.length).Account io₁ :=
    ⟨rfl, hready₁.unique, ⟨hready₁.good, le_refl _⟩, .inl ⟨i, ⟨huse, hdirty⟩, hb, trivial⟩⟩
  rcases (S.serves_blockDebt _ _ _).step hacc hst (Sink.leaves_blockDebt _ _ _ _) with
    hend | ⟨_, _, -, hwritten, -⟩
  · rcases hend.owed with ⟨j, hj, hjb, -⟩ | ⟨-, hwritten⟩
    · exact .inl ⟨hend.blockSize, j, hj.1, hj.2, hjb⟩
    · exact .inr hwritten
  · exact .inr hwritten

end Runs

end UnixIo
end Rfsck
