import Rfsck.Undo.Checks

/-!
# Forced runs and unreadable key blocks

With `-f` a key block that cannot be read ends the loop over the key blocks, and the keys
loaded so far are meant to be replayed.  The count that the replay works with is set to
`i - 1`, where `i` is the number of keys in the key blocks before: the last loaded key is
dropped, and where no key was loaded the unsigned count wraps around and the replay runs over
memory that was never written.

`ReadBlocks m i lblk ikeys lblk'` describes what is there to be kept: `m` key blocks can be
read from block `lblk` on, and `ikeys` are their keys.
-/

namespace Rfsck
namespace Undo

open Storage

/-- The entries of keys whose data begin at block `lblk`, and the block behind the data. -/
def keyInfos (blocksize : Nat) : List UndoKey → Nat → List UndoKeyInfo × Nat
  | [], lblk => ([], lblk)
  | k :: ks, lblk =>
      let (ikeys, lblk') :=
        keyInfos blocksize ks ((lblk + dataBlocks blocksize k.size.toNat) % 2 ^ 64)
      (k.info lblk :: ikeys, lblk')

section Blocks

variable (undo : Medium) (blocksize numKeys : Nat)

/-- From key index `i` on, `m` key blocks that begin at block `lblk` can be read; the next one
is expected at block `lblk'`. -/
inductive ReadBlocks : Nat → Nat → Nat → List UndoKeyInfo → Nat → Prop
  | nil (i lblk : Nat) : ReadBlocks 0 i lblk [] lblk
  | block {m i lblk lblk₁ lblk' : Nat} {bytes : Bytes} {ikeys rest : List UndoKeyInfo}
      (lt : i < numKeys) (read : undo.readBlk64 blocksize lblk 1 = some bytes)
      (keys : keyInfos blocksize
        ((List.range (min (numKeys - i) (keysPerBlock blocksize))).map
          (UndoKeyBlock.decode bytes).key) ((lblk + 1) % 2 ^ 64) = (ikeys, lblk₁))
      (next : ReadBlocks m (i + keysPerBlock blocksize) lblk₁ rest lblk') :
      ReadBlocks (m + 1) i lblk (ikeys ++ rest) lblk'

variable {undo blocksize numKeys}

@[simp] theorem length_keyInfos (ks : List UndoKey) (lblk : Nat) :
    (keyInfos blocksize ks lblk).1.length = ks.length := by
  induction ks generalizing lblk with
  | nil =>
      rfl
  | cons k ks ih =>
      simp [keyInfos, ih]

theorem keyInfos_of_loadKeys {force : Bool} {ks : List UndoKey} {lblk lblk' : Nat}
    {ikeys : List UndoKeyInfo} {errors errors' : Errors}
    (h : loadKeys force undo blocksize ks lblk errors = .ok (ikeys, lblk', errors')) :
    keyInfos blocksize ks lblk = (ikeys, lblk') := by
  induction ks generalizing lblk ikeys errors with
  | nil =>
      rw [loadKeys] at h
      obtain ⟨rfl, rfl, -⟩ : [] = ikeys ∧ lblk = lblk' ∧ errors = errors' := by
        simpa using h
      rfl
  | cons k ks ih =>
      rw [loadKeys] at h
      cases hcheck : checkKey force undo blocksize (k.info lblk) errors with
      | error e =>
          simp [hcheck] at h
      | ok errors₁ =>
          rw [hcheck] at h
          dsimp only at h
          cases hload : loadKeys force undo blocksize ks
              ((lblk + dataBlocks blocksize k.size.toNat) % 2 ^ 64) errors₁ with
          | error e =>
              rw [hload] at h
              simp at h
          | ok r =>
              obtain ⟨ikeys₁, lblk₁, errors₂⟩ := r
              obtain ⟨rfl, rfl, rfl⟩ :
                  k.info lblk :: ikeys₁ = ikeys ∧ lblk₁ = lblk' ∧ errors₂ = errors' := by
                rw [hload] at h
                simpa using h
              rw [keyInfos, ih hload]

theorem ReadBlocks.length_eq {m i lblk lblk' : Nat} {ikeys : List UndoKeyInfo}
    (h : ReadBlocks undo blocksize numKeys m i lblk ikeys lblk') :
    ikeys.length = min (numKeys - i) (m * keysPerBlock blocksize) := by
  induction h with
  | nil i lblk =>
      simp
  | @block m i lblk lblk₁ lblk' bytes ikeys rest lt read keys next ih =>
      have hlen : ikeys.length = min (numKeys - i) (keysPerBlock blocksize) := by
        have hkeys := congrArg (fun r => r.1.length) keys
        simpa using hkeys.symm
      have hmul : (m + 1) * keysPerBlock blocksize =
          m * keysPerBlock blocksize + keysPerBlock blocksize := by
        ring
      rw [List.length_append, ih, hlen, hmul]
      omega

theorem ReadBlocks.unique {m₁ m₂ i lblk lblk₁ lblk₂ : Nat} {ikeys₁ ikeys₂ : List UndoKeyInfo}
    (h₁ : ReadBlocks undo blocksize numKeys m₁ i lblk ikeys₁ lblk₁)
    (h₂ : ReadBlocks undo blocksize numKeys m₂ i lblk ikeys₂ lblk₂)
    (stop₁ : numKeys ≤ i + m₁ * keysPerBlock blocksize ∨
      undo.readBlk64 blocksize lblk₁ 1 = none)
    (stop₂ : numKeys ≤ i + m₂ * keysPerBlock blocksize ∨
      undo.readBlk64 blocksize lblk₂ 1 = none) :
    m₂ = m₁ ∧ ikeys₂ = ikeys₁ := by
  induction h₁ generalizing m₂ ikeys₂ with
  | nil i lblk =>
      cases h₂ with
      | nil =>
          exact ⟨rfl, rfl⟩
      | block lt read keys next =>
          rw [Nat.zero_mul, Nat.add_zero, read] at stop₁
          rcases stop₁ with hle | hnone
          · omega
          · simp at hnone
  | @block m i lblk lblk' lblk₁ bytes ikeys rest lt read keys next ih =>
      cases h₂ with
      | nil =>
          rw [Nat.zero_mul, Nat.add_zero, read] at stop₂
          rcases stop₂ with hle | hnone
          · omega
          · simp at hnone
      | @block m' _ _ lblk'' _ bytes' ikeys' rest' lt' read' keys' next' =>
          rw [read] at read'
          obtain rfl := Option.some.inj read'
          rw [keys] at keys'
          obtain ⟨rfl, rfl⟩ := Prod.mk.inj keys'
          have hmul : ∀ n : Nat, i + (n + 1) * keysPerBlock blocksize =
              i + keysPerBlock blocksize + n * keysPerBlock blocksize := by
            intro n
            ring
          rw [hmul] at stop₁ stop₂
          obtain ⟨rfl, rfl⟩ := ih next' stop₁ stop₂
          exact ⟨rfl, rfl⟩

/-- What a forced run has loaded when its loop ends. -/
theorem readBlocks_of_loadLoop
    (hstep : ∀ i, i < numKeys → keysPerBlock blocksize ∣ i →
      i + keysPerBlock blocksize < 2 ^ 64)
    {rounds i lblk : Nat} {keys : List UndoKeyInfo} {errors : Errors} {l : Loaded}
    (hdvd : keysPerBlock blocksize ∣ i)
    (h : loadLoop true undo blocksize numKeys rounds i lblk keys errors = some (.ok l)) :
    ∃ m ikeys lblk', ReadBlocks undo blocksize numKeys m i lblk ikeys lblk' ∧
      l.keys = keys ++ ikeys ∧
      (numKeys ≤ i + m * keysPerBlock blocksize ∧ l.numKeys = numKeys ∨
        i + m * keysPerBlock blocksize < numKeys ∧ undo.readBlk64 blocksize lblk' 1 = none ∧
          l.numKeys = toUnsigned ((i + m * keysPerBlock blocksize : Nat) - 1)) := by
  induction rounds generalizing i lblk keys errors with
  | zero =>
      simp [loadLoop] at h
  | succ rounds ih =>
      rw [loadLoop] at h
      by_cases hi : numKeys ≤ i
      · rw [if_pos hi] at h
        obtain rfl := Except.ok.inj (Option.some.inj h)
        exact ⟨0, [], lblk, .nil i lblk, by simp, Or.inl ⟨by omega, rfl⟩⟩
      · rw [if_neg hi] at h
        cases hread : undo.readBlk64 blocksize lblk 1 with
        | none =>
            rw [hread] at h
            dsimp only at h
            rw [if_pos rfl] at h
            obtain rfl := Except.ok.inj (Option.some.inj h)
            refine ⟨0, [], lblk, .nil i lblk, by simp, Or.inr ⟨by omega, hread, ?_⟩⟩
            rw [Nat.zero_mul, Nat.add_zero]
        | some bytes =>
            rw [hread] at h
            dsimp only at h
            rw [if_neg (by simp), if_neg (by simp)] at h
            cases hload : loadKeys true undo blocksize
                ((List.range (min (numKeys - i) (keysPerBlock blocksize))).map
                  (UndoKeyBlock.decode bytes).key) ((lblk + 1) % 2 ^ 64) errors with
            | error e =>
                rw [hload] at h
                simp at h
            | ok r =>
                obtain ⟨ikeys, lblk₁, errors₁⟩ := r
                rw [hload] at h
                dsimp only at h
                rw [Nat.mod_eq_of_lt (hstep i (by omega) hdvd)] at h
                obtain ⟨m, rest, lblk', hblocks, hkeys, hend⟩ :=
                  ih (Nat.dvd_add hdvd (Nat.dvd_refl _)) h
                have hmul : i + (m + 1) * keysPerBlock blocksize =
                    i + keysPerBlock blocksize + m * keysPerBlock blocksize := by
                  ring
                refine ⟨m + 1, ikeys ++ rest, lblk',
                  .block (by omega) hread (keyInfos_of_loadKeys hload) hblocks, ?_, ?_⟩
                · rw [hkeys, List.append_assoc]
                · rw [hmul]
                  exact hend

end Blocks

section Forced

variable {sort : Qsort} {memory : Nat → UndoKeyInfo} {opts : Options} {undo : Medium}
  {dev : ByteFile} {hdr : UndoHeader} {rounds : Nat} {r : Replay}

/-- The index of the loop does not wrap around: a block size below that of a key block ends
the loop after one round, and for any other one the memory for the keys bounds their number. -/
theorem index_add_lt {blocksize n : Nat} (hbs : blocksize < 2 ^ 32) (hn : n < 2 ^ 64)
    (hmemory : undoKeyInfoSize * n % 2 ^ 64 < 2 ^ 63) (i : Nat) (hi : i < n)
    (hdvd : keysPerBlock blocksize ∣ i) : i + keysPerBlock blocksize < 2 ^ 64 := by
  rw [undoKeyInfoSize] at hmemory
  by_cases hsmall : blocksize < 16
  · have hkpb : keysPerBlock blocksize = 2 ^ 64 - 1 := by
      rw [keysPerBlock, undoKeySize]
      omega
    rw [hkpb] at hdvd ⊢
    have hzero : i = 0 := Nat.eq_zero_of_dvd_of_lt hdvd (by omega)
    omega
  · have hkpb : keysPerBlock blocksize < 2 ^ 28 := by
      rw [keysPerBlock, undoKeySize]
      omega
    by_contra hcon
    have hdiv : 24 * n / 2 ^ 64 = 23 := by
      omega
    omega

theorem loadLoop_of_forced (hforce : opts.force = true)
    (hrun : e2undo sort memory opts undo dev rounds = some (.ok r))
    (hheader : readHeader opts undo = .ok hdr) :
    undoKeyInfoSize * hdr.numKeys.toNat % 2 ^ 64 < 2 ^ 63 ∧
      ∃ l, loadLoop true undo hdr.blockSize.toNat hdr.numKeys.toNat rounds 0 hdr.keyOffset.toNat
          [] ⟨false, false⟩ = some (.ok l) ∧
        r = replay sort memory opts undo hdr l := by
  rw [e2undo, hheader] at hrun
  dsimp only at hrun
  rw [hforce, if_neg (by simp)] at hrun
  split_ifs at hrun with hmemory
  · simp at hrun
  refine ⟨not_le.mp hmemory, ?_⟩
  cases hload : loadLoop true undo hdr.blockSize.toNat hdr.numKeys.toNat rounds 0
      hdr.keyOffset.toNat [] ⟨false, false⟩ with
  | none =>
      rw [hload] at hrun
      simp at hrun
  | some result =>
      cases result with
      | error e =>
          rw [hload] at hrun
          simp at hrun
      | ok l =>
          rw [hload] at hrun
          exact ⟨l, rfl, (Except.ok.inj (Option.some.inj hrun)).symm⟩

/-- Key block `m` cannot be read while the ones before it can; `ikeys` are their keys. -/
def FailsAt (undo : Medium) (hdr : UndoHeader) (m : Nat) (ikeys : List UndoKeyInfo) : Prop :=
  m * keysPerBlock hdr.blockSize.toNat < hdr.numKeys.toNat ∧
    ∃ lblk, ReadBlocks undo hdr.blockSize.toNat hdr.numKeys.toNat m 0 hdr.keyOffset.toNat ikeys
        lblk ∧
      undo.readBlk64 hdr.blockSize.toNat lblk 1 = none

/-- The replay works on the keys of the key blocks that can be read, up to the first one that
cannot or to the number of keys in the header, and on nothing else. -/
def KeepsReadable (undo : Medium) (hdr : UndoHeader) (r : Replay) : Prop :=
  ∀ m ikeys lblk,
    ReadBlocks undo hdr.blockSize.toNat hdr.numKeys.toNat m 0 hdr.keyOffset.toNat ikeys lblk →
    hdr.numKeys.toNat ≤ m * keysPerBlock hdr.blockSize.toNat ∨
      undo.readBlk64 hdr.blockSize.toNat lblk 1 = none →
    r.keys.Perm ikeys

theorem length_replay_keys (l : Loaded) :
    (replay sort memory opts undo hdr l).keys.length = l.numKeys := by
  have hperm := (sort.perm (keyArray memory l)).length_eq
  rw [keyArray, List.length_map, List.length_range] at hperm
  exact hperm

theorem not_keepsReadable_of_fails (hforce : opts.force = true)
    (hrun : e2undo sort memory opts undo dev rounds = some (.ok r))
    (hheader : readHeader opts undo = .ok hdr) {m : Nat} {ikeys : List UndoKeyInfo}
    (hfails : FailsAt undo hdr m ikeys) : ¬ r.keys.Perm ikeys := by
  obtain ⟨hmemory, l, hload, rfl⟩ := loadLoop_of_forced hforce hrun hheader
  obtain ⟨hlt, lblk, hblocks, hnone⟩ := hfails
  obtain ⟨m', ikeys', lblk', hblocks', -, hend⟩ := readBlocks_of_loadLoop
    (index_add_lt hdr.blockSize.toNat_lt hdr.numKeys.toNat_lt hmemory) (Nat.dvd_zero _) hload
  have hstop' : hdr.numKeys.toNat ≤ 0 + m' * keysPerBlock hdr.blockSize.toNat ∨
      undo.readBlk64 hdr.blockSize.toNat lblk' 1 = none := by
    rcases hend with ⟨hle, -⟩ | ⟨-, hnone', -⟩
    · exact Or.inl hle
    · exact Or.inr hnone'
  obtain ⟨rfl, rfl⟩ := hblocks.unique hblocks' (Or.inr hnone) hstop'
  have hlen := hblocks.length_eq
  have hkeys := hdr.numKeys.toNat_lt
  rcases hend with ⟨hle, -⟩ | ⟨-, -, hnum⟩
  · omega
  · intro hperm
    have hcount := hperm.length_eq
    rw [length_replay_keys, hnum, hlen, toUnsigned] at hcount
    omega

/-- **A forced run keeps the readable keys exactly if no key block is unreadable.** -/
theorem forced_keeps_readable_iff (hforce : opts.force = true)
    (hrun : e2undo sort memory opts undo dev rounds = some (.ok r))
    (hheader : readHeader opts undo = .ok hdr) :
    KeepsReadable undo hdr r ↔ ∀ m ikeys, ¬ FailsAt undo hdr m ikeys := by
  constructor
  · rintro hkeeps m ikeys ⟨hlt, lblk, hblocks, hnone⟩
    exact not_keepsReadable_of_fails hforce hrun hheader ⟨hlt, lblk, hblocks, hnone⟩
      (hkeeps m ikeys lblk hblocks (Or.inr hnone))
  · intro hfails m ikeys lblk hblocks hstop
    obtain ⟨hmemory, l, hload, rfl⟩ := loadLoop_of_forced hforce hrun hheader
    obtain ⟨m', ikeys', lblk', hblocks', hkeys, hend⟩ := readBlocks_of_loadLoop
      (index_add_lt hdr.blockSize.toNat_lt hdr.numKeys.toNat_lt hmemory) (Nat.dvd_zero _) hload
    rw [Nat.zero_add] at hend
    rcases hend with ⟨hle, hnum⟩ | ⟨hlt, hnone, -⟩
    · obtain ⟨-, rfl⟩ := hblocks'.unique hblocks (Or.inl (by omega)) (by simpa using hstop)
      have hlen := hblocks'.length_eq
      obtain ⟨keys, numKeys, errors⟩ := l
      obtain rfl : keys = ikeys := by simpa using hkeys
      obtain rfl : numKeys = hdr.numKeys.toNat := hnum
      have hsorted : (replay sort memory opts undo hdr
          ⟨keys, hdr.numKeys.toNat, errors⟩).keys = sort.apply keys :=
        congrArg sort.apply (keyArray_eq (by omega) errors)
      rw [hsorted]
      exact sort.perm keys
    · exact absurd ⟨hlt, lblk', hblocks', hnone⟩ (hfails m' ikeys')

/-- A forced run on a file whose keys are all intact: neither the checksum of the header nor
the superblock matters. -/
theorem forced_run {ikeys : List UndoKeyInfo} (hforce : opts.force = true)
    (hdump : opts.dump = false)
    (hread : ∃ bytes, undo.readBlk64 1024 0 (-undoHeaderSize) = some bytes ∧
      hdr = UndoHeader.decode bytes)
    (hmagic : hdr.magic = e2undoMagic) (hge : e2undoMinBlockSize ≤ hdr.blockSize.toNat)
    (hle : hdr.blockSize.toNat ≤ e2undoMaxBlockSize) (hfs : hdr.fsBlockSize ≠ 0)
    (hmemory : undoKeyInfoSize * hdr.numKeys.toNat % 2 ^ 64 < 2 ^ 63)
    (hkeys : KeyBlocksAt undo hdr.blockSize.toNat hdr.numKeys.toNat hdr.keyOffset.toNat ikeys) :
    readHeader opts undo = .ok hdr ∧
      ∃ rounds, e2undo sort memory opts undo dev rounds =
        some (.ok (replay sort memory opts undo hdr
          ⟨ikeys, hdr.numKeys.toNat, ⟨false, false⟩⟩)) := by
  have hpos : hdr.blockSize ≠ 0 := by
    intro hzero
    rw [hzero, e2undoMinBlockSize] at hge
    simp at hge
  have hheader : readHeader opts undo = .ok hdr := by
    obtain ⟨bytes, hbytes, rfl⟩ := hread
    rw [readHeader, hbytes]
    simp [hforce, hdump, hmagic, hpos, hfs]
  refine ⟨hheader, ?_⟩
  obtain ⟨rounds, hload⟩ := hkeys.loadLoop hle hge
    (numKeys_add_lt hge hle hdr.numKeys.toNat_lt hmemory) (Nat.sub_zero _).symm true []
    ⟨false, false⟩
  refine ⟨rounds, ?_⟩
  rw [e2undo, hheader]
  dsimp only
  rw [hforce, if_neg (by simp), if_neg (not_le.mpr hmemory), hload]
  rfl

end Forced

/-- A run with `-f`. -/
def Options.forced : Options where
  force := true
  dump := false
  dryRun := false
  offset := Option.none

/-- The only key of a file whose key block can be read is kept. -/
theorem forced_keeps_readable_of_one_key :
    ∃ rounds r, e2undo Qsort.keep (fun _ => default) Options.forced (.sound (oneKeyFile 5))
        blankDevice rounds = some (.ok r) ∧
      KeepsReadable (.sound (oneKeyFile 5)) oneKeyHeader.sealed r := by
  have hv := validated_oneKeyFile (show 5 < 2 ^ 64 by norm_num)
  obtain ⟨hheader, rounds, hrun⟩ := @forced_run Qsort.keep (fun _ => default) Options.forced _
    blankDevice _ _ rfl rfl hv.header hv.magic hv.blockSize_ge hv.blockSize_le hv.fsBlockSize_ne
    hv.memory hv.keys
  refine ⟨rounds, _, hrun, (forced_keeps_readable_iff rfl hrun hheader).mpr ?_⟩
  rintro m ikeys ⟨hlt, lblk, hblocks, hnone⟩
  have hone : oneKeyHeader.sealed.numKeys.toNat = 1 := rfl
  have hroom : keysPerBlock oneKeyHeader.sealed.blockSize.toNat = 63 := by decide
  rw [hone, hroom] at hlt
  obtain rfl : m = 0 := by omega
  cases hblocks with
  | nil =>
      obtain ⟨bytes, hread⟩ := hv.keys.exists_read (by decide)
      rw [hnone] at hread
      simp at hread

/-- An undo file that is cut off behind its header. -/
def headerFile : ByteFile :=
  ByteFile.empty.pwrite 0 oneKeyHeader.sealed.encode

/-- **A forced run on a file without a readable key block replays entries that were never
loaded.** -/
theorem forced_replays_unloaded :
    ∃ r, e2undo Qsort.keep (fun _ => default) Options.forced (.sound headerFile) blankDevice 1 =
        some (.ok r) ∧
      r.keys.length = 2 ^ 64 - 1 ∧ FailsAt (.sound headerFile) oneKeyHeader.sealed 0 [] ∧
      ¬ KeepsReadable (.sound headerFile) oneKeyHeader.sealed r := by
  have hsize : headerFile.size = 512 := by
    rw [headerFile, ByteFile.size_pwrite, if_neg, UndoHeader.length_encode]
    · rfl
    · intro hnil
      have hlen := congrArg List.length hnil
      rw [UndoHeader.length_encode] at hlen
      exact absurd hlen (by decide)
  have hread : (Medium.sound headerFile).readBlk64 1024 0 (-undoHeaderSize) =
      some oneKeyHeader.sealed.encode := by
    apply Medium.readBlk64_sound _ _ (by norm_num) (by norm_num) (by norm_num)
    · exact ByteFile.holds_pwrite_self _ _ _
    · rw [UndoHeader.length_encode]
      rfl
  have hnone : (Medium.sound headerFile).readBlk64 1024 2 1 = none := by
    have hloc : location (toInt32 (1024 : Nat)) (2 : Nat) 0 = (2048 : Nat) := by decide
    rw [Medium.readBlk64, hloc]
    refine Medium.read_of_short (by decide) ?_
    show headerFile.size < _
    rw [hsize]
    decide
  have hheader : readHeader Options.forced (.sound headerFile) = .ok oneKeyHeader.sealed := by
    rw [readHeader, hread]
    dsimp only
    rw [UndoHeader.decode_encode]
    rfl
  have hload : loadLoop true (.sound headerFile) 1024 1 1 0 2 [] ⟨false, false⟩ =
      some (.ok ⟨[], 2 ^ 64 - 1, ⟨false, true⟩⟩) := by
    rw [loadLoop, if_neg (by decide), hnone]
    rfl
  have hrun : e2undo Qsort.keep (fun _ => default) Options.forced (.sound headerFile)
      blankDevice 1 = some (.ok (replay Qsort.keep (fun _ => default) Options.forced
        (.sound headerFile) oneKeyHeader.sealed ⟨[], 2 ^ 64 - 1, ⟨false, true⟩⟩)) := by
    rw [e2undo, hheader]
    dsimp only
    have hargs : oneKeyHeader.sealed.blockSize.toNat = 1024 ∧
        oneKeyHeader.sealed.numKeys.toNat = 1 ∧ oneKeyHeader.sealed.keyOffset.toNat = 2 ∧
        Options.forced.force = true :=
      ⟨rfl, rfl, rfl, rfl⟩
    rw [if_neg (by decide), if_neg (by decide), hargs.1, hargs.2.1, hargs.2.2.1, hargs.2.2.2,
      hload]
  have hfails : FailsAt (.sound headerFile) oneKeyHeader.sealed 0 [] :=
    ⟨by decide, 2, .nil 0 2, hnone⟩
  refine ⟨_, hrun, length_replay_keys _, hfails, fun hkeeps => ?_⟩
  exact not_keepsReadable_of_fails rfl hrun hheader hfails
    (hkeeps 0 [] 2 (.nil 0 2) (Or.inr hnone))

end Undo
end Rfsck
