import Rfsck.Redo.TagStream

/-!
# The walk over the stream of tags

The replayer has two nested loops, over key blocks and over the tags of a key
block.  Here they are one walk over the stream of tags.

* `Walk` is the part of the variables that matters for what follows: the open
  transaction, the position of the next data, and the transactions found so far.
* `Follows` relates the variables of the replayer to those of the walk.
* `planLog_follows` states that the plan of a replay is the walk over the stream,
  and that its actions are those of the transactions found.

In between two transactions the position does not move.  That is why a
transaction that begins in the first slot of a key block, right behind an end tag
in the last slot of the key block before, is copied from the wrong place.
-/

namespace Rfsck
namespace Redo

open Storage

/-- A transaction that the walk delimits and replays: the index of its begin tag,
its tags, its end tag, the checksum computed from them and the position in the
log when its replay starts. -/
structure Found where
  beginAt : Nat
  id : UInt32
  tags : List RedoBlockTag
  endTag : RedoBlockTag
  csum : UInt32
  pos : Nat

namespace Found

/-- The copies of a transaction, and the position behind them. -/
def copies (t : Found) : Nat × List Action :=
  copyTags t.tags (t.beginAt + 1) (t.pos + gap (t.beginAt + 1))

def beginBlk (t : Found) : Nat :=
  t.beginAt / keysPerBlock

/-- The actions of a transaction when the tags `M` are marked already. -/
def actions (o : Nat → Nat) (B : Nat → RedoBlock) (M : List Nat) (t : Found) : List Action :=
  t.copies.2 ++
    [.mark (o t.beginBlk)
      ((B t.beginBlk).clearReserved.remark t.beginBlk (M ++ [t.beginAt]))]

end Found

def actionsOf (o : Nat → Nat) (B : Nat → RedoBlock) : List Nat → List Found → List Action
  | _, [] => []
  | M, t :: ts => t.actions o B M ++ actionsOf o B (M ++ [t.beginAt]) ts

theorem actionsOf_append
    (o : Nat → Nat) (B : Nat → RedoBlock) (M : List Nat) (ts us : List Found) :
    actionsOf o B M (ts ++ us) =
      actionsOf o B M ts ++ actionsOf o B (M ++ ts.map Found.beginAt) us := by
  induction ts generalizing M with
  | nil =>
      simp [actionsOf]
  | cons t ts ih =>
      simp [actionsOf, ih]

/-- The variables of the walk over the stream of tags. -/
structure Walk where
  txnId : UInt32
  txnCsum : UInt32
  isReplayed : Bool
  beginAt : Nat
  pos : Nat
  out : List Message
  found : List Found

namespace Walk

/-- The indices of the begin tags that the walk has marked. -/
def marks (w : Walk) : List Nat :=
  w.found.map Found.beginAt

/-- The first slot of a key block: its place is printed. -/
def enter (o : Nat → Nat) (i : Nat) (w : Walk) : Walk :=
  if i % keysPerBlock = 0 then
    { w with out := w.out ++ [.keyOffsets (i / keysPerBlock) (o (i / keysPerBlock))] }
  else
    w

theorem enter_of_ne
    (o : Nat → Nat) {i : Nat} (h : i % keysPerBlock ≠ 0) (w : Walk) :
    w.enter o i = w := by
  rw [enter, if_neg h]

section Steps

variable (crc : Bytes → UInt32) (T : Nat → RedoBlockTag) (i : Nat)

/-- A begin tag. -/
def openTxn (w : Walk) : Walk :=
  let csum := txnChksmCnst ^^^ crc (T i).encode
  { w with
    txnId := (T i).blkCrc
    txnCsum := csum
    isReplayed := false
    beginAt := i
    out := w.out ++ [.txnBegin (i / keysPerBlock) (i % keysPerBlock) (T i).blkCrc csum] }

/-- A begin tag that carries the mark. -/
def skipTxn (w : Walk) : Walk :=
  { w with
    txnId := (T i).blkCrc
    isReplayed := true
    out := w.out ++ [.alreadyReplayed (T i).blkCrc] }

/-- The open transaction, when tag `i` ends it. -/
def closing (w : Walk) : Found where
  beginAt := w.beginAt
  id := w.txnId
  tags := slice T (w.beginAt + 1) (i - (w.beginAt + 1))
  endTag := T i
  csum := w.txnCsum ^^^ crc { T i with offset := 0 }.encode
  pos := w.pos

/-- What is printed at an end tag. -/
def endMessages (t : Found) : List Message :=
  if t.endTag.offset.toUInt32 ≠ t.csum then
    [.txnEnd (i / keysPerBlock) (i % keysPerBlock) t.id t.csum, .checksumMismatch t.id]
  else
    [.txnEnd (i / keysPerBlock) (i % keysPerBlock) t.id t.csum]

/-- The end tag of a transaction that is replayed. -/
def closeTxn (w : Walk) : Walk :=
  let t := w.closing crc T i
  { w with
    txnId := 0
    txnCsum := 0
    beginAt := 0
    pos := t.copies.1
    out := w.out ++ endMessages i t
    found := w.found ++ [t] }

/-- One tag of the walk. -/
def step (w : Walk) : Walk :=
  match tagKind w.txnId w.isReplayed (T i) with
  | .unused => w
  | .beginTag => w.openTxn crc T i
  | .markedBegin => w.skipTxn T i
  | .endTag => w.closeTxn crc T i
  | .skippedEnd => { w with txnId := 0 }
  | .dataTag => { w with txnCsum := w.txnCsum ^^^ crc (T i).encode }
  | .skippedData => w

end Steps

/-- The walk over the tags `i`, ..., `i + n - 1`. -/
def run (crc : Bytes → UInt32) (o : Nat → Nat) (T : Nat → RedoBlockTag) :
    Nat → Nat → Walk → Walk
  | 0, _, w => w
  | n + 1, i, w => run crc o T n (i + 1) ((w.enter o i).step crc T i)

theorem run_add
    (crc : Bytes → UInt32) (o : Nat → Nat) (T : Nat → RedoBlockTag) (m n i : Nat) (w : Walk) :
    run crc o T (m + n) i w = run crc o T n (i + m) (run crc o T m i w) := by
  induction m generalizing i w with
  | zero =>
      rw [Nat.zero_add]
      rfl
  | succ m ih =>
      rw [show m + 1 + n = m + n + 1 by omega, run, ih, run,
        show i + 1 + m = i + (m + 1) by omega]

end Walk

/-- A tag that the walk may take for a begin tag or an end tag. -/
def RedoBlockTag.IsEdge (t : RedoBlockTag) : Prop :=
  t.size = 0 ∧ t.blkCrc ≠ 0

instance (t : RedoBlockTag) : Decidable t.IsEdge :=
  inferInstanceAs (Decidable (_ ∧ _))

theorem tagKind_beginTag
    {txnId : UInt32} {isReplayed : Bool} {tag : RedoBlockTag}
    (h : tagKind txnId isReplayed tag = .beginTag) :
    txnId = 0 ∧ tag.IsEdge ∧ tag.offset ≠ txnReplayedCnst := by
  unfold tagKind at h
  split_ifs at h with h1 h2 h3 h4
  exact ⟨h3, ⟨h2.1, fun hz => by simp [hz] at h2⟩, h4⟩

theorem tagKind_endTag
    {txnId : UInt32} {isReplayed : Bool} {tag : RedoBlockTag}
    (h : tagKind txnId isReplayed tag = .endTag) :
    txnId ≠ 0 ∧ tag.IsEdge ∧ isReplayed = false := by
  unfold tagKind at h
  split_ifs at h with h1 h2 h3 h4 h5
  exact ⟨h3, ⟨h2.1, fun hz => by simp [hz] at h2⟩, by simpa using h5⟩

/-- What the walk takes for a transaction begins with a tag of size zero, and its
tags are consecutive tags of the stream. -/
structure Walk.Sound (T : Nat → RedoBlockTag) (w : Walk) : Prop where
  open_edge : w.txnId ≠ 0 → w.isReplayed = false → (T w.beginAt).IsEdge
  found_edge : ∀ t ∈ w.found, (T t.beginAt).IsEdge
  found_tags : ∀ t ∈ w.found, ∃ i n, t.tags = slice T i n

theorem Walk.Sound.step
    {T : Nat → RedoBlockTag} {w : Walk} (h : w.Sound T)
    (crc : Bytes → UInt32) (i : Nat) :
    (w.step crc T i).Sound T := by
  unfold Walk.step
  cases hkind : tagKind w.txnId w.isReplayed (T i) with
  | unused | dataTag | skippedData =>
      exact { h with }
  | beginTag =>
      obtain ⟨_, hedge, _⟩ := tagKind_beginTag hkind
      exact { h with open_edge := fun _ _ => hedge }
  | markedBegin =>
      exact { h with open_edge := fun _ hnew => absurd hnew (by simp [Walk.skipTxn]) }
  | skippedEnd =>
      exact { h with open_edge := fun hne _ => absurd rfl hne }
  | endTag =>
      obtain ⟨hne, _, hnew⟩ := tagKind_endTag hkind
      refine {
        open_edge := fun hne' _ => absurd rfl hne'
        found_edge := ?_
        found_tags := ?_ }
      · intro t ht
        rcases List.mem_append.mp ht with ht | ht
        · exact h.found_edge t ht
        · rw [List.mem_singleton.mp ht]
          exact h.open_edge hne hnew
      · intro t ht
        rcases List.mem_append.mp ht with ht | ht
        · exact h.found_tags t ht
        · rw [List.mem_singleton.mp ht]
          exact ⟨_, _, rfl⟩

theorem Walk.Sound.enter
    {T : Nat → RedoBlockTag} {w : Walk} (h : w.Sound T) (o : Nat → Nat) (i : Nat) :
    (w.enter o i).Sound T := by
  unfold Walk.enter
  split_ifs
  · exact { h with }
  · exact h

theorem Walk.Sound.run
    {T : Nat → RedoBlockTag} {w : Walk} (h : w.Sound T)
    (crc : Bytes → UInt32) (o : Nat → Nat) (n i : Nat) :
    (Walk.run crc o T n i w).Sound T := by
  induction n generalizing i w with
  | zero =>
      exact h
  | succ n ih =>
      exact ih ((h.enter o i).step crc i) (i + 1)

theorem Walk.found_run_of_not_isEdge
    {T : Nat → RedoBlockTag} {n i : Nat} (h : ∀ g, i ≤ g → g < i + n → ¬ (T g).IsEdge)
    (crc : Bytes → UInt32) (o : Nat → Nat) (w : Walk) :
    (Walk.run crc o T n i w).found = w.found := by
  induction n generalizing i w with
  | zero =>
      rfl
  | succ n ih =>
      have hstep : ((w.enter o i).step crc T i).found = (w.enter o i).found := by
        unfold Walk.step
        cases hkind : tagKind (w.enter o i).txnId (w.enter o i).isReplayed (T i) with
        | unused | dataTag | skippedData | beginTag | markedBegin | skippedEnd =>
            rfl
        | endTag =>
            obtain ⟨_, hedge, _⟩ := tagKind_endTag hkind
            exact absurd hedge (h i (le_refl i) (by omega))
      have henter : (w.enter o i).found = w.found := by
        unfold Walk.enter
        split_ifs <;> rfl
      rw [Walk.run, ih (fun g h1 h2 => h g (by omega) (by omega)), hstep, henter]

/-- The variables of the replayer are those of the walk at index `i`, when the
key blocks before number `K` have been read and the actions so far are `acts`. -/
structure Follows
    (o : Nat → Nat) (B : Nat → RedoBlock) (K i : Nat)
    (sc : Scan) (w : Walk) (acts : List Action) : Prop where
  txnId_eq : sc.data.txnId = w.txnId
  txnCsum_eq : sc.data.txnCsum = w.txnCsum
  isReplayed_eq : sc.isReplayed = w.isReplayed
  beginBlk_eq : sc.data.txnBeginBlk = w.beginAt / keysPerBlock
  beginIdx_eq : sc.data.txnBeginIdx = w.beginAt % keysPerBlock
  pos_eq : sc.replayLogOffset = w.pos
  out_eq : sc.out = w.out
  keysOffset_eq : ∀ b, b < K → sc.keysOffset b = o b
  blocks_eq : ∀ b, b < K →
    sc.replayBlocks b = (B b).clearReserved.remark b w.marks
  reserved_eq : ∀ b, K ≤ b → (sc.replayBlocks b).reserved = 0
  marks_lt : ∀ m ∈ w.marks, m < i
  open_lt : w.txnId ≠ 0 → w.isReplayed = false →
    w.beginAt < i ∧ ∀ m ∈ w.marks, m < w.beginAt
  acts_eq : acts = actionsOf o B [] w.found

section Simulation

variable (crc : Bytes → UInt32)
variable {o : Nat → Nat} {B : Nat → RedoBlock}

theorem Follows.slice_eq
    {K i : Nat} {sc : Scan} {w : Walk} {acts : List Action}
    (h : Follows o B K i sc w acts)
    (hopen : w.txnId ≠ 0) (hnew : w.isReplayed = false)
    (hi : i ≤ keysPerBlock * K) :
    slice (streamOf sc.replayBlocks) (w.beginAt + 1) (i - (w.beginAt + 1)) =
      slice (streamOf B) (w.beginAt + 1) (i - (w.beginAt + 1)) := by
  obtain ⟨hlt, hmarks⟩ := h.open_lt hopen hnew
  refine slice_congr ?_
  intro g hg1 hg2
  have hmod : g % keysPerBlock < keysPerBlock := Nat.mod_lt _ (by decide)
  have hdiv : g / keysPerBlock < K := by
    simp only [keysPerBlock_eq] at *
    omega
  have hnot : keysPerBlock * (g / keysPerBlock) + g % keysPerBlock ∉ w.marks := by
    rw [Nat.div_add_mod]
    intro hg
    have := hmarks g hg
    omega
  rw [streamOf, h.blocks_eq _ hdiv, RedoBlock.remark_tag _ _ _ hmod, if_neg hnot]
  rfl

theorem Follows.copies_closing
    {k count : Nat} (hcount : count < keysPerBlock)
    {sc : Scan} {w : Walk} {acts : List Action}
    (h : Follows o B (k + 1) (keysPerBlock * k + count) sc w acts)
    (hk : sc.keybCount = k)
    (hopen : w.txnId ≠ 0) (hnew : w.isReplayed = false) :
    sc.copies count =
      (w.closing crc (streamOf B) (keysPerBlock * k + count)).copies := by
  obtain ⟨hlt, _⟩ := h.open_lt hopen hnew
  have hle : keysPerBlock * k + count ≤ keysPerBlock * (k + 1) := by
    rw [Nat.mul_succ]
    omega
  rw [copies_eq sc count h.beginBlk_eq h.beginIdx_eq hcount (by rwa [hk]), hk, h.pos_eq,
    h.slice_eq hopen hnew hle]
  rfl

theorem Follows.markedKeyb_closing
    {K i : Nat} {sc : Scan} {w : Walk} {acts : List Action}
    (h : Follows o B K i sc w acts)
    (hblk : w.beginAt / keysPerBlock < K) :
    sc.markedKeyb =
      (B (w.beginAt / keysPerBlock)).clearReserved.remark
        (w.beginAt / keysPerBlock) (w.marks ++ [w.beginAt]) := by
  have hmod : w.beginAt % keysPerBlock < keysPerBlock := Nat.mod_lt _ (by decide)
  have hset := RedoBlock.remark_setTag (B (w.beginAt / keysPerBlock)).clearReserved
    (w.beginAt / keysPerBlock) w.marks hmod
  rw [Nat.div_add_mod] at hset
  rw [Scan.markedKeyb, h.beginBlk_eq, h.beginIdx_eq, h.blocks_eq _ hblk, hset]

/-- The end tag of a transaction that is replayed. -/
theorem Follows.close
    {k count : Nat} (hcount : count < keysPerBlock)
    {sc : Scan} {w : Walk} {acts : List Action}
    (h : Follows o B (k + 1) (keysPerBlock * k + count) sc w acts)
    (hk : sc.keybCount = k)
    (hopen : w.txnId ≠ 0) (hnew : w.isReplayed = false) :
    Follows o B (k + 1) (keysPerBlock * k + count + 1)
      ((sc.checkEnd crc count (streamOf B (keysPerBlock * k + count))).close
        ((sc.checkEnd crc count (streamOf B (keysPerBlock * k + count))).copies count).1)
      (w.closeTxn crc (streamOf B) (keysPerBlock * k + count))
      (acts ++ (((sc.checkEnd crc count (streamOf B (keysPerBlock * k + count))).copies count).2 ++
        [(sc.checkEnd crc count (streamOf B (keysPerBlock * k + count))).markAction])) := by
  obtain ⟨hlt, hall⟩ := h.open_lt hopen hnew
  have hdiv : (keysPerBlock * k + count) / keysPerBlock = k := by
    simp only [keysPerBlock_eq] at *
    omega
  have hmod : (keysPerBlock * k + count) % keysPerBlock = count := by
    simp only [keysPerBlock_eq] at *
    omega
  have hblk : w.beginAt / keysPerBlock < k + 1 := by
    simp only [keysPerBlock_eq] at *
    omega
  have hcopies : (sc.checkEnd crc count (streamOf B (keysPerBlock * k + count))).copies count =
      (w.closing crc (streamOf B) (keysPerBlock * k + count)).copies :=
    h.copies_closing crc hcount hk hopen hnew
  have hkeyb : (sc.checkEnd crc count (streamOf B (keysPerBlock * k + count))).markedKeyb =
      (B (w.beginAt / keysPerBlock)).clearReserved.remark
        (w.beginAt / keysPerBlock) (w.marks ++ [w.beginAt]) :=
    h.markedKeyb_closing hblk
  have hmarks : (w.closeTxn crc (streamOf B) (keysPerBlock * k + count)).marks =
      w.marks ++ [w.beginAt] := by
    simp [Walk.closeTxn, Walk.marks, Walk.closing]
  refine {
    txnId_eq := rfl
    txnCsum_eq := rfl
    isReplayed_eq := h.isReplayed_eq
    beginBlk_eq := (Nat.zero_div _).symm
    beginIdx_eq := (Nat.zero_mod _).symm
    pos_eq := congrArg Prod.fst hcopies
    out_eq := ?_
    keysOffset_eq := h.keysOffset_eq
    blocks_eq := ?_
    reserved_eq := ?_
    marks_lt := ?_
    open_lt := fun hne _ => absurd rfl hne
    acts_eq := ?_ }
  · simp only [Scan.close, Scan.checkEnd, Walk.closeTxn, Walk.endMessages,
      Walk.closing, h.out_eq, h.txnId_eq, h.txnCsum_eq, hk, hdiv, hmod]
    split_ifs
    · simp
    · rfl
  · intro b hb
    rw [hmarks]
    simp only [Scan.close, hkeyb]
    rw [show (sc.checkEnd crc count (streamOf B (keysPerBlock * k + count))).data.txnBeginBlk =
      w.beginAt / keysPerBlock from h.beginBlk_eq, Function.update_apply]
    split_ifs with hb'
    · rw [hb']
    · rw [show (sc.checkEnd crc count (streamOf B (keysPerBlock * k + count))).replayBlocks b =
        (B b).clearReserved.remark b w.marks from h.blocks_eq b hb]
      refine RedoBlock.remark_congr rfl ?_
      intro c hc
      have hne : keysPerBlock * b + c ≠ w.beginAt := by
        simp only [keysPerBlock_eq] at *
        omega
      simp [hne]
  · intro b hb
    simp only [Scan.close]
    rw [show (sc.checkEnd crc count (streamOf B (keysPerBlock * k + count))).data.txnBeginBlk =
      w.beginAt / keysPerBlock from h.beginBlk_eq, Function.update_of_ne (by omega)]
    exact h.reserved_eq b hb
  · intro m hm
    rw [hmarks] at hm
    rcases List.mem_append.mp hm with hm | hm
    · exact Nat.lt_succ_of_lt (h.marks_lt m hm)
    · rw [List.mem_singleton.mp hm]
      omega
  · have hplace : (sc.checkEnd crc count (streamOf B (keysPerBlock * k + count))).keysOffset
        (sc.checkEnd crc count (streamOf B (keysPerBlock * k + count))).data.txnBeginBlk =
        o (w.beginAt / keysPerBlock) := by
      rw [show (sc.checkEnd crc count (streamOf B (keysPerBlock * k + count))).data.txnBeginBlk =
        w.beginAt / keysPerBlock from h.beginBlk_eq]
      exact h.keysOffset_eq _ hblk
    rw [Scan.markAction, hplace, hkeyb, hcopies, h.acts_eq]
    simp only [Walk.closeTxn, actionsOf_append, List.nil_append, actionsOf, List.append_nil,
      Found.actions]
    rfl

/-- One tag: the plan follows the walk. -/
theorem planTag_follows
    {k count : Nat} (hcount : count < keysPerBlock)
    {sc : Scan} {w : Walk} {acts : List Action}
    (h : Follows o B (k + 1) (keysPerBlock * k + count) sc w acts)
    (hk : sc.keybCount = k)
    (htag : sc.keyb.tag count = streamOf B (keysPerBlock * k + count)) :
    Follows o B (k + 1) (keysPerBlock * k + count + 1)
      (sc.planTag crc count).1
      (w.step crc (streamOf B) (keysPerBlock * k + count))
      (acts ++ (sc.planTag crc count).2) := by
  have hdiv : (keysPerBlock * k + count) / keysPerBlock = k := by
    simp only [keysPerBlock_eq] at *
    omega
  have hmod : (keysPerBlock * k + count) % keysPerBlock = count := by
    simp only [keysPerBlock_eq] at *
    omega
  have hmarks : ∀ m ∈ w.marks, m < keysPerBlock * k + count + 1 :=
    fun m hm => Nat.lt_succ_of_lt (h.marks_lt m hm)
  have hopen : w.txnId ≠ 0 → w.isReplayed = false →
      w.beginAt < keysPerBlock * k + count + 1 ∧ ∀ m ∈ w.marks, m < w.beginAt := by
    intro h1 h2
    obtain ⟨hlt, hall⟩ := h.open_lt h1 h2
    exact ⟨Nat.lt_succ_of_lt hlt, hall⟩
  unfold Scan.planTag Walk.step
  dsimp only
  rw [show (sc.pass (sc.keyb.tag count)).data.txnId = w.txnId from h.txnId_eq,
    show (sc.pass (sc.keyb.tag count)).isReplayed = w.isReplayed from h.isReplayed_eq, htag]
  cases hkind : tagKind w.txnId w.isReplayed (streamOf B (keysPerBlock * k + count)) with
  | unused =>
      rw [List.append_nil]
      exact { h with marks_lt := hmarks, open_lt := hopen }
  | beginTag =>
      rw [List.append_nil]
      refine { h with
        txnId_eq := rfl
        txnCsum_eq := rfl
        isReplayed_eq := rfl
        beginBlk_eq := ?_
        beginIdx_eq := ?_
        out_eq := ?_
        marks_lt := hmarks
        open_lt := fun _ _ => ⟨Nat.lt_succ_self _, h.marks_lt⟩ }
      · exact hk.trans hdiv.symm
      · exact hmod.symm
      · simp only [Scan.openTxn, Scan.pass, Walk.openTxn, h.out_eq, hk, hdiv, hmod]
  | markedBegin =>
      rw [List.append_nil]
      refine { h with
        txnId_eq := rfl
        isReplayed_eq := rfl
        out_eq := ?_
        marks_lt := hmarks
        open_lt := fun _ hnew => absurd hnew (by simp [Walk.skipTxn]) }
      simp only [Scan.skipTxn, Scan.pass, Walk.skipTxn, h.out_eq]
  | endTag =>
      obtain ⟨hne, _, hnew⟩ := tagKind_endTag hkind
      have hpass : Follows o B (k + 1) (keysPerBlock * k + count)
          (sc.pass (streamOf B (keysPerBlock * k + count))) w acts :=
        { h with isReplayed_eq := h.isReplayed_eq }
      exact hpass.close crc hcount hk hne hnew
  | skippedEnd =>
      rw [List.append_nil]
      exact { h with
        txnId_eq := rfl
        isReplayed_eq := rfl
        marks_lt := hmarks
        open_lt := fun hne _ => absurd rfl hne }
  | dataTag =>
      rw [List.append_nil]
      refine { h with txnCsum_eq := ?_, marks_lt := hmarks, open_lt := hopen }
      simp only [Scan.addTag, Scan.pass, h.txnCsum_eq]
  | skippedData =>
      rw [List.append_nil]
      exact { h with marks_lt := hmarks, open_lt := hopen }

theorem planTag_keyb_drop (count : Nat) (sc : Scan) :
    (sc.planTag crc count).1.keyb.tags.drop (count + 1) = sc.keyb.tags.drop (count + 1) := by
  unfold Scan.planTag
  dsimp only
  cases tagKind (sc.pass (sc.keyb.tag count)).data.txnId
      (sc.pass (sc.keyb.tag count)).isReplayed (sc.keyb.tag count) with
  | endTag =>
      exact List.drop_set_of_lt (Nat.lt_succ_self count)
  | unused | beginTag | markedBegin | skippedEnd | dataTag | skippedData =>
      rfl

theorem planTag_logOffset (count : Nat) (sc : Scan) :
    (sc.planTag crc count).1.logOffset =
      sc.logOffset + (sc.keyb.tag count).size.toNat := by
  unfold Scan.planTag
  dsimp only
  split <;> rfl

theorem planTags_logOffset
    (n count : Nat) (sc : Scan) (h : count + n = keysPerBlock) :
    (sc.planTags crc n count).1.logOffset =
      sc.logOffset + tagBytes (sc.keyb.tags.drop count) := by
  induction n generalizing count sc with
  | zero =>
      have hdrop : sc.keyb.tags.drop count = [] := by
        rw [List.drop_eq_nil_iff, sc.keyb.tags_length]
        omega
      rw [hdrop]
      rfl
  | succ n ih =>
      simp only [Scan.planTags]
      rw [ih _ _ (by omega), planTag_logOffset, planTag_keyb_drop,
        RedoBlock.drop_tags sc.keyb (c := count) (by omega)]
      simp only [tagBytes, List.map_cons, List.sum_cons]
      omega

/-- The tags of one key block. -/
theorem planTags_follows
    {k : Nat} (n count : Nat) (hn : count + (n + 1) = keysPerBlock)
    {sc : Scan} {w : Walk} {acts : List Action}
    (h : Follows o B (k + 1) (keysPerBlock * k + count) sc
      (w.enter o (keysPerBlock * k + count)) acts)
    (hk : sc.keybCount = k)
    (hkeyb : sc.keyb.tags.drop count = (B k).tags.drop count) :
    Follows o B (k + 1) (keysPerBlock * (k + 1))
      (sc.planTags crc (n + 1) count).1
      (Walk.run crc o (streamOf B) (n + 1) (keysPerBlock * k + count) w)
      (acts ++ (sc.planTags crc (n + 1) count).2) := by
  have htag : sc.keyb.tag count = streamOf B (keysPerBlock * k + count) := by
    rw [streamOf_slot B k (by omega), RedoBlock.tag_of_drop hkeyb]
  have hstep := planTag_follows crc (by omega) h hk htag
  induction n generalizing count sc w acts with
  | zero =>
      have hend : keysPerBlock * (k + 1) = keysPerBlock * k + count + 1 := by
        rw [Nat.mul_succ]
        omega
      rw [hend]
      simpa only [Scan.planTags, Walk.run, List.append_nil] using hstep
  | succ n ih =>
      have hne : (keysPerBlock * k + (count + 1)) % keysPerBlock ≠ 0 := by
        simp only [keysPerBlock_eq] at *
        omega
      have hkeyb' : (sc.planTag crc count).1.keyb.tags.drop (count + 1) =
          (B k).tags.drop (count + 1) := by
        have h' := congrArg (List.drop 1) hkeyb
        rw [List.drop_drop, List.drop_drop] at h'
        rw [planTag_keyb_drop, h']
      have hk' : (sc.planTag crc count).1.keybCount = k := by
        rw [planTag_keybCount, hk]
      have hnext : Follows o B (k + 1) (keysPerBlock * k + (count + 1))
          (sc.planTag crc count).1
          (((w.enter o (keysPerBlock * k + count)).step crc (streamOf B)
            (keysPerBlock * k + count)).enter o (keysPerBlock * k + (count + 1)))
          (acts ++ (sc.planTag crc count).2) := by
        rw [Walk.enter_of_ne o hne]
        exact hstep
      have htag' : (sc.planTag crc count).1.keyb.tag (count + 1) =
          streamOf B (keysPerBlock * k + (count + 1)) := by
        rw [streamOf_slot B k (by omega), RedoBlock.tag_of_drop hkeyb']
      have hrest := ih (count + 1) (by omega) hnext hk' hkeyb' htag'
        (planTag_follows crc (by omega) hnext hk' htag')
      rw [List.append_assoc] at hrest
      exact hrest

theorem load_follows
    {f : ByteFile} {k : Nat} {sc : Scan} {w : Walk} {acts : List Action}
    (h : Follows o B k (keysPerBlock * k) sc w acts)
    (hk : sc.keybCount = k)
    (hplace : sc.logOffset = o k)
    (hkeyb : (sc.load f).keyb = B k) :
    Follows o B (k + 1) (keysPerBlock * k) (sc.load f)
      (w.enter o (keysPerBlock * k)) acts := by
  have hmod : keysPerBlock * k % keysPerBlock = 0 := Nat.mul_mod_right _ _
  have hdiv : keysPerBlock * k / keysPerBlock = k := Nat.mul_div_cancel_left k (by decide)
  have henter : w.enter o (keysPerBlock * k) =
      { w with out := w.out ++ [.keyOffsets k (o k)] } := by
    rw [Walk.enter, if_pos hmod, hdiv]
  rw [henter]
  refine { h with
    out_eq := ?_
    keysOffset_eq := ?_
    blocks_eq := ?_
    reserved_eq := ?_ }
  · simp only [Scan.load, h.out_eq, hk, hplace]
  · intro b hb
    simp only [Scan.load, Function.update_apply, hk]
    split_ifs with hbk
    · rw [hbk, hplace]
    · exact h.keysOffset_eq b (by omega)
  · intro b hb
    have hload : (sc.load f).replayBlocks b =
        if b = k then
          { (sc.load f).keyb with reserved := (sc.replayBlocks k).reserved }
        else
          sc.replayBlocks b := by
      simp only [Scan.load, Function.update_apply, hk]
    rw [hload]
    split_ifs with hbk
    · subst hbk
      rw [hkeyb, h.reserved_eq b (le_refl b)]
      -- the marks of this walk lie in earlier key blocks
      have hnone : (B b).clearReserved.remark b [] = (B b).clearReserved.remark b w.marks := by
        refine RedoBlock.remark_congr rfl (fun c hc => ?_)
        have hnot : keysPerBlock * b + c ∉ w.marks := by
          intro hm
          have := h.marks_lt _ hm
          omega
        simp [hnot]
      rw [RedoBlock.remark_nil] at hnone
      exact hnone
    · exact h.blocks_eq b (by omega)
  · intro b hb
    have hne : b ≠ sc.keybCount := by omega
    simp only [Scan.load, Function.update_of_ne hne]
    exact h.reserved_eq b (by omega)

@[simp] theorem Scan.nextKeyb_keybCount (sc : Scan) :
    sc.nextKeyb.keybCount = sc.keybCount + 1 := by
  rfl

@[simp] theorem Scan.load_keybCount (f : ByteFile) (sc : Scan) :
    (sc.load f).keybCount = sc.keybCount := by
  rfl

/-- The key blocks that the plan of a replay reads are `B`, at the places `o`. -/
def Scan.Reads (f : ByteFile) (o : Nat → Nat) (B : Nat → RedoBlock) : Nat → Scan → Prop
  | 0, _ => True
  | n + 1, sc =>
      sc.logOffset = o sc.keybCount ∧ (sc.load f).keyb = B sc.keybCount ∧
        Scan.Reads f o B n ((sc.load f).planTags crc keysPerBlock 0).1.nextKeyb

/-- **The plan follows the walk.** -/
theorem planKeyBlocks_follows
    {f : ByteFile} (n : Nat) {k : Nat}
    {sc : Scan} {w : Walk} {acts : List Action}
    (h : Follows o B k (keysPerBlock * k) sc w acts)
    (hk : sc.keybCount = k)
    (hreads : sc.Reads crc f o B n) :
    Follows o B (k + n) (keysPerBlock * (k + n))
      (sc.planKeyBlocks crc f n).1
      (Walk.run crc o (streamOf B) (keysPerBlock * n) (keysPerBlock * k) w)
      (acts ++ (sc.planKeyBlocks crc f n).2) := by
  induction n generalizing k sc w acts with
  | zero =>
      rw [Scan.planKeyBlocks, List.append_nil]
      exact h
  | succ n ih =>
      obtain ⟨hplace, hkeyb, hrest⟩ := hreads
      rw [hk] at hplace hkeyb
      have htags := planTags_follows crc (keysPerBlock - 1) 0 rfl
        (load_follows h hk hplace hkeyb) hk (by rw [hkeyb])
      have hcount := planTags_keybCount crc keysPerBlock 0 (sc.load f)
      simp only [Scan.planKeyBlocks]
      rw [show keysPerBlock - 1 + 1 = keysPerBlock by rfl] at htags
      generalize (sc.load f).planTags crc keysPerBlock 0 = p at htags hcount hrest
      have hnext : Follows o B (k + 1) (keysPerBlock * (k + 1)) p.1.nextKeyb
          (Walk.run crc o (streamOf B) keysPerBlock (keysPerBlock * k) w)
          (acts ++ p.2) := { htags with }
      have hk' : p.1.nextKeyb.keybCount = k + 1 := by
        simp only [Scan.nextKeyb, hcount]
        exact congrArg (fun m => m + 1) hk
      have hend := ih hnext hk' hrest
      rw [List.append_assoc, show k + 1 + n = k + (n + 1) by omega] at hend
      rw [show keysPerBlock * (n + 1) = keysPerBlock + keysPerBlock * n by ring,
        Walk.run_add, show keysPerBlock * k + keysPerBlock = keysPerBlock * (k + 1) by ring]
      exact hend

/-- The places and key blocks that the plan of a replay reads, in order. -/
def Scan.loads (f : ByteFile) : Nat → Scan → List (Nat × RedoBlock)
  | 0, _ => []
  | n + 1, sc =>
      (sc.logOffset, (sc.load f).keyb) ::
        Scan.loads f n ((sc.load f).planTags crc keysPerBlock 0).1.nextKeyb

theorem Scan.length_loads (f : ByteFile) (n : Nat) (sc : Scan) :
    (sc.loads crc f n).length = n := by
  induction n generalizing sc with
  | zero =>
      rfl
  | succ n ih =>
      rw [Scan.loads, List.length_cons, ih]

theorem Scan.reads_of_loads
    {f : ByteFile} (n : Nat) {sc : Scan}
    (h : ∀ j p, (sc.loads crc f n)[j]? = some p →
      o (sc.keybCount + j) = p.1 ∧ B (sc.keybCount + j) = p.2) :
    sc.Reads crc f o B n := by
  induction n generalizing sc with
  | zero =>
      trivial
  | succ n ih =>
      obtain ⟨hplace, hkeyb⟩ := h 0 (sc.logOffset, (sc.load f).keyb) (by rfl)
      have hcount := planTags_keybCount crc keysPerBlock 0 (sc.load f)
      refine ⟨hplace.symm, hkeyb.symm, ih ?_⟩
      intro j p hj
      have hnext := h (j + 1) p (by rw [Scan.loads, List.getElem?_cons_succ]; exact hj)
      have hk : ((sc.load f).planTags crc keysPerBlock 0).1.nextKeyb.keybCount + j =
          sc.keybCount + (j + 1) := by
        rw [Scan.nextKeyb_keybCount, hcount, Scan.load_keybCount]
        omega
      rw [hk]
      exact hnext

theorem Scan.Reads.loads_eq
    {f : ByteFile} {n : Nat} {sc : Scan} (h : sc.Reads crc f o B n) :
    ∀ j p, (sc.loads crc f n)[j]? = some p →
      o (sc.keybCount + j) = p.1 ∧ B (sc.keybCount + j) = p.2 := by
  induction n generalizing sc with
  | zero =>
      intro j p hj
      simp [Scan.loads] at hj
  | succ n ih =>
      obtain ⟨hplace, hkeyb, hrest⟩ := h
      have hcount := planTags_keybCount crc keysPerBlock 0 (sc.load f)
      intro j p hj
      cases j with
      | zero =>
          rw [Scan.loads, List.getElem?_cons_zero] at hj
          obtain rfl := Option.some.inj hj
          exact ⟨hplace.symm, hkeyb.symm⟩
      | succ j =>
          rw [Scan.loads, List.getElem?_cons_succ] at hj
          have hnext := ih hrest j p hj
          have hk : ((sc.load f).planTags crc keysPerBlock 0).1.nextKeyb.keybCount + j =
              sc.keybCount + (j + 1) := by
            rw [Scan.nextKeyb_keybCount, hcount, Scan.load_keybCount]
            omega
          rw [hk] at hnext
          exact hnext

/-- Key blocks stored one behind the data of the other. -/
structure KeyChain
    (f : ByteFile) (o : Nat → Nat) (B : Nat → RedoBlock) (n : Nat) : Prop where
  holds : ∀ k, k < n → f.Holds (o k) (B k).encode
  next : ∀ k, k + 1 < n → o (k + 1) = o k + redoLogBlockSize + tagBytes (B k).tags

theorem load_keyb_of_holds
    {f : ByteFile} {sc : Scan} {kb : RedoBlock}
    (h : f.Holds sc.logOffset kb.encode) :
    (sc.load f).keyb = kb := by
  have hread : f.pread sc.logOffset redoLogBlockSize = kb.encode :=
    ByteFile.pread_of_holds_length h (RedoBlock.length_encode kb)
  have hdrop : sc.keyb.encode.drop kb.encode.length = [] := by
    rw [List.drop_eq_nil_iff, RedoBlock.length_encode, RedoBlock.length_encode]
  simp only [Scan.load, hread, hdrop, List.append_nil, RedoBlock.decode_encode]

theorem KeyChain.reads
    {f : ByteFile} {m : Nat} (hchain : KeyChain f o B m)
    (n : Nat) {sc : Scan}
    (hplace : sc.logOffset = o sc.keybCount)
    (hlen : sc.keybCount + n ≤ m) :
    sc.Reads crc f o B n := by
  induction n generalizing sc with
  | zero =>
      trivial
  | succ n ih =>
      have hkeyb : (sc.load f).keyb = B sc.keybCount := by
        have hholds := hchain.holds sc.keybCount (by omega)
        rw [← hplace] at hholds
        exact load_keyb_of_holds hholds
      refine ⟨hplace, hkeyb, ?_⟩
      have hoff := planTags_logOffset crc keysPerBlock 0 (sc.load f) (Nat.zero_add _)
      have hcount := planTags_keybCount crc keysPerBlock 0 (sc.load f)
      rw [hkeyb, List.drop_zero] at hoff
      generalize (sc.load f).planTags crc keysPerBlock 0 = p at hoff hcount
      cases n with
      | zero =>
          trivial
      | succ n =>
          have hk : p.1.nextKeyb.keybCount = sc.keybCount + 1 :=
            congrArg (fun m => m + 1) hcount
          refine ih ?_ ?_
          · rw [hk, hchain.next sc.keybCount (by omega), ← hplace]
            exact hoff
          · omega

end Simulation

/-- The walk before the first tag. -/
def Walk.start (out : List Message) : Walk where
  txnId := 0
  txnCsum := 0
  isReplayed := false
  beginAt := 0
  pos := redoHeaderSize + redoLogBlockSize
  out := out
  found := []

theorem Walk.start_sound (T : Nat → RedoBlockTag) (out : List Message) :
    (Walk.start out).Sound T := by
  refine {
    open_edge := fun hne _ => absurd rfl hne
    found_edge := ?_
    found_tags := ?_ }
  · intro t ht
    simp [Walk.start] at ht
  · intro t ht
    simp [Walk.start] at ht

theorem startReplay_follows
    (o : Nat → Nat) (B : Nat → RedoBlock) (hdr : RedoHeader) (retval : Int) (s : State) :
    Follows o B 0 0 (startReplay hdr retval s).toScan (Walk.start s.out) [] := by
  refine {
    txnId_eq := rfl
    txnCsum_eq := rfl
    isReplayed_eq := rfl
    beginBlk_eq := (Nat.zero_div _).symm
    beginIdx_eq := (Nat.zero_mod _).symm
    pos_eq := rfl
    out_eq := rfl
    keysOffset_eq := fun b hb => absurd hb (Nat.not_lt_zero b)
    blocks_eq := fun b hb => absurd hb (Nat.not_lt_zero b)
    reserved_eq := fun b _ => rfl
    marks_lt := ?_
    open_lt := fun hne _ => absurd rfl hne
    acts_eq := rfl }
  intro m hm
  simp [Walk.marks, Walk.start] at hm

/-- **The plan of a replay is the walk over the tags of its log.** -/
theorem planLog_follows
    (crc : Bytes → UInt32) {s : State} {o : Nat → Nat} {B : Nat → RedoBlock}
    (hreads : (startReplay s.world.header 0 s).toScan.Reads crc (s.world.file .redo) o B
      s.world.header.visited) :
    Follows o B s.world.header.visited (keysPerBlock * s.world.header.visited)
      (planLog crc s).1
      (Walk.run crc o (streamOf B) (keysPerBlock * s.world.header.visited) 0
        (Walk.start s.out))
      (planLog crc s).2 := by
  have h := planKeyBlocks_follows crc s.world.header.visited (k := 0)
    (startReplay_follows o B s.world.header 0 s) rfl hreads
  rw [Nat.zero_add] at h
  rw [planLog]
  exact h

section LogWalk

variable (crc : Bytes → UInt32) (s : State)

/-- What the walk of `rfsck_replay` reads: places and key blocks. -/
def logLoads : List (Nat × RedoBlock) :=
  (startReplay s.world.header 0 s).toScan.loads crc (s.world.file .redo)
    s.world.header.visited

/-- The place at which the walk looks for key block `k`. -/
def loadedPlace (k : Nat) : Nat :=
  ((logLoads crc s)[k]?.map Prod.fst).getD 0

/-- The key block number `k` that the walk reads. -/
def loadedKeyb (k : Nat) : RedoBlock :=
  ((logLoads crc s)[k]?.map Prod.snd).getD RedoBlock.zero

/-- The walk of `rfsck_replay` over the log of a state. -/
def logWalk : Walk :=
  Walk.run crc (loadedPlace crc s) (streamOf (loadedKeyb crc s))
    (keysPerBlock * s.world.header.visited) 0 (Walk.start s.out)

/-- **The plan of a replay is the walk over its log.** -/
theorem planLog_follows_logWalk :
    Follows (loadedPlace crc s) (loadedKeyb crc s)
      s.world.header.visited (keysPerBlock * s.world.header.visited)
      (planLog crc s).1 (logWalk crc s) (planLog crc s).2 := by
  refine planLog_follows crc (Scan.reads_of_loads crc _ ?_)
  intro j p hj
  have hzero : (startReplay s.world.header 0 s).toScan.keybCount + j = j := Nat.zero_add j
  have hlog : (logLoads crc s)[j]? = some p := hj
  rw [hzero, loadedPlace, loadedKeyb, hlog]
  exact ⟨rfl, rfl⟩

variable {crc s}

theorem Walk.run_congr
    {o o' : Nat → Nat} {T T' : Nat → RedoBlockTag} {m : Nat}
    (ho : ∀ k, k < m → o k = o' k) (hT : ∀ g, g < keysPerBlock * m → T g = T' g)
    (n i : Nat) (h : i + n ≤ keysPerBlock * m) (w : Walk) :
    Walk.run crc o T n i w = Walk.run crc o' T' n i w := by
  induction n generalizing i w with
  | zero =>
      rfl
  | succ n ih =>
      have hk : i / keysPerBlock < m := Nat.div_lt_of_lt_mul (by omega)
      have henter : w.enter o i = w.enter o' i := by
        rw [Walk.enter, Walk.enter, ho _ hk]
      have hslice : ∀ a, slice T a (i - a) = slice T' a (i - a) := by
        intro a
        refine slice_congr ?_
        intro g _ hg
        exact hT g (by omega)
      have hstep : ∀ v : Walk, v.step crc T i = v.step crc T' i := by
        intro v
        simp only [Walk.step, Walk.openTxn, Walk.skipTxn, Walk.closeTxn, Walk.closing,
          hT i (by omega), hslice]
      rw [Walk.run, Walk.run, henter, hstep]
      exact ih (i + 1) (by omega) _

theorem Scan.Reads.logWalk_eq
    {o : Nat → Nat} {B : Nat → RedoBlock}
    (h : (startReplay s.world.header 0 s).toScan.Reads crc (s.world.file .redo) o B
      s.world.header.visited) :
    (∀ k, k < s.world.header.visited → loadedPlace crc s k = o k ∧ loadedKeyb crc s k = B k) ∧
      logWalk crc s =
        Walk.run crc o (streamOf B) (keysPerBlock * s.world.header.visited) 0
          (Walk.start s.out) := by
  have hload : ∀ k, k < s.world.header.visited →
      loadedPlace crc s k = o k ∧ loadedKeyb crc s k = B k := by
    intro k hk
    obtain ⟨p, hp⟩ : ∃ p, (logLoads crc s)[k]? = some p := by
      rw [← Scan.length_loads crc (s.world.file .redo) s.world.header.visited
        (startReplay s.world.header 0 s).toScan] at hk
      exact ⟨_, List.getElem?_eq_getElem hk⟩
    obtain ⟨hplace, hkeyb⟩ := h.loads_eq crc k p hp
    have hzero : (startReplay s.world.header 0 s).toScan.keybCount + k = k := Nat.zero_add k
    rw [hzero] at hplace hkeyb
    rw [loadedPlace, loadedKeyb, hp, hplace, hkeyb]
    exact ⟨rfl, rfl⟩
  refine ⟨hload, ?_⟩
  refine Walk.run_congr (m := s.world.header.visited) (fun k hk => (hload k hk).1) ?_ _ _
    (by omega) _
  intro g hg
  rw [streamOf, streamOf, (hload _ (Nat.div_lt_of_lt_mul hg)).2]

end LogWalk

attribute [irreducible] logLoads loadedPlace loadedKeyb logWalk

end Redo
end Rfsck
