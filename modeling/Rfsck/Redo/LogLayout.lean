import Rfsck.Redo.TagStream

/-!
# Where the writer puts what it logs

A log is described by the list of its entries, a tag with its data each.

* `keybPos es k` is the place of key block `k`, and `dataPos es i` the place of
  the data of entry `i`.  The places do not overlap, and they do not move when an
  entry is added.
* `keybOf crc es k` is key block `k` as the writer stamps it.
* `Stored` says that a file holds the data of all entries and the first key
  blocks, up to marks.  `stored_pwrite_keyb` and `stored_append` are the two ways
  in which it changes.
-/

namespace Rfsck
namespace Redo

open Storage

/-- A tag of the log with its data. -/
structure Entry where
  tag : RedoBlockTag
  data : Bytes
  size_eq : tag.size.toNat = data.length

/-- The entry of a begin tag or an end tag. -/
def Entry.edge (offset : UInt64) (blkCrc : UInt32) : Entry where
  tag := { offset := offset, size := 0, blkCrc := blkCrc }
  data := []
  size_eq := by rfl

def dataSize (es : List Entry) : Nat :=
  (es.map (fun e => e.data.length)).sum

@[simp] theorem dataSize_append (es es' : List Entry) :
    dataSize (es ++ es') = dataSize es + dataSize es' := by
  simp [dataSize]

/-- The tag with index `g`; an unused slot behind the last entry. -/
def tagOf (es : List Entry) (g : Nat) : RedoBlockTag :=
  (es[g]?.map Entry.tag).getD RedoBlockTag.empty

theorem tagOf_append_left
    (es es' : List Entry) {g : Nat} (h : g < es.length) :
    tagOf (es ++ es') g = tagOf es g := by
  rw [tagOf, List.getElem?_append_left h, tagOf]

theorem tagOf_append_right
    (es es' : List Entry) {g : Nat} (h : es.length ≤ g) :
    tagOf (es ++ es') g = tagOf es' (g - es.length) := by
  rw [tagOf, List.getElem?_append_right h, tagOf]

theorem tagOf_of_le (es : List Entry) {g : Nat} (h : es.length ≤ g) :
    tagOf es g = RedoBlockTag.empty := by
  rw [tagOf, List.getElem?_eq_none h]
  rfl

theorem tagOf_snoc (es : List Entry) (e : Entry) :
    tagOf (es ++ [e]) = Function.update (tagOf es) es.length e.tag := by
  funext g
  rw [Function.update_apply]
  split_ifs with hg
  · subst hg
    rw [tagOf_append_right es [e] (le_refl _), Nat.sub_self]
    rfl
  · by_cases hlt : g < es.length
    · exact tagOf_append_left es [e] hlt
    · rw [tagOf_of_le es (by omega), tagOf_of_le]
      rw [List.length_append, List.length_singleton]
      omega

theorem tagOf_of_getElem?
    {es : List Entry} {g : Nat} {e : Entry} (h : es[g]? = some e) :
    tagOf es g = e.tag := by
  rw [tagOf, h]
  rfl

theorem dataSize_take_succ (es : List Entry) (i : Nat) :
    dataSize (es.take (i + 1)) = dataSize (es.take i) + (tagOf es i).size.toNat := by
  rw [List.take_add_one, dataSize_append]
  cases h : es[i]? with
  | none =>
      rw [tagOf, h]
      rfl
  | some e =>
      rw [tagOf_of_getElem? h, e.size_eq]
      simp [dataSize]

theorem dataSize_take_add (es : List Entry) (i n : Nat) :
    dataSize (es.take (i + n)) =
      dataSize (es.take i) + tagBytes (slice (tagOf es) i n) := by
  induction n generalizing i with
  | zero =>
      simp [tagBytes]
  | succ n ih =>
      rw [show i + (n + 1) = i + 1 + n by omega, ih, dataSize_take_succ, slice_succ]
      simp only [tagBytes, List.map_cons, List.sum_cons]
      omega

theorem dataSize_take_le (es : List Entry) {i j : Nat} (h : i ≤ j) :
    dataSize (es.take i) ≤ dataSize (es.take j) := by
  obtain ⟨n, rfl⟩ := Nat.exists_eq_add_of_le h
  rw [dataSize_take_add]
  omega

/-- The place of key block `k`. -/
def keybPos (es : List Entry) (k : Nat) : Nat :=
  redoHeaderSize + redoLogBlockSize * k + dataSize (es.take (keysPerBlock * k))

/-- The place of the data of entry `i`. -/
def dataPos (es : List Entry) (i : Nat) : Nat :=
  redoHeaderSize + redoLogBlockSize * (i / keysPerBlock + 1) + dataSize (es.take i)

theorem keybPos_append
    (es es' : List Entry) {k : Nat} (h : keysPerBlock * k ≤ es.length) :
    keybPos (es ++ es') k = keybPos es k := by
  rw [keybPos, List.take_append_of_le_length h, keybPos]

theorem dataPos_append
    (es es' : List Entry) {i : Nat} (h : i ≤ es.length) :
    dataPos (es ++ es') i = dataPos es i := by
  rw [dataPos, List.take_append_of_le_length h, dataPos]

theorem dataPos_succ (es : List Entry) (i : Nat) :
    dataPos es (i + 1) = dataPos es i + (tagOf es i).size.toNat + gap (i + 1) := by
  rw [dataPos, dataPos, dataSize_take_succ, gap]
  simp only [keysPerBlock_eq, redoLogBlockSize]
  split_ifs with h
  · have hdiv : (i + 1) / 255 = i / 255 + 1 := by omega
    omega
  · have hdiv : (i + 1) / 255 = i / 255 := by omega
    omega

theorem dataPos_succ_of_size_eq_zero
    {es : List Entry} {i : Nat} (h : (tagOf es i).size = 0) :
    dataPos es (i + 1) = dataPos es i + gap (i + 1) := by
  rw [dataPos_succ, h, UInt32.toNat_zero, Nat.add_zero]

theorem dataPos_mono (es : List Entry) {i j : Nat} (h : i ≤ j) :
    dataPos es i ≤ dataPos es j := by
  have hsize := dataSize_take_le es h
  have hdiv : i / keysPerBlock ≤ j / keysPerBlock := Nat.div_le_div_right h
  simp only [dataPos, redoLogBlockSize]
  omega

theorem keybPos_zero (es : List Entry) : keybPos es 0 = redoHeaderSize := by
  simp [keybPos, dataSize]

theorem keybPos_succ (es : List Entry) (k : Nat) :
    keybPos es (k + 1) =
      keybPos es k + redoLogBlockSize +
        tagBytes (slice (tagOf es) (keysPerBlock * k) keysPerBlock) := by
  rw [keybPos, keybPos, Nat.mul_succ keysPerBlock, dataSize_take_add]
  ring

theorem keybPos_succ_eq_dataPos (es : List Entry) {i k : Nat}
    (h : i + 1 = keysPerBlock * (k + 1)) :
    keybPos es (k + 1) = dataPos es i + (tagOf es i).size.toNat := by
  have hsize := dataSize_take_succ es i
  rw [h] at hsize
  have hdiv : i / keysPerBlock = k := by
    simp only [keysPerBlock_eq] at *
    omega
  rw [keybPos, dataPos, hsize, hdiv]
  omega

theorem keybPos_snoc
    (es : List Entry) (e : Entry)
    (h : keysPerBlock * (es.length / keysPerBlock + 1) = es.length + 1) :
    keybPos (es ++ [e]) (es.length / keysPerBlock + 1) =
      dataPos es es.length + e.data.length := by
  have hall : (es ++ [e]).take (es.length + 1) = es ++ [e] := by
    refine List.take_of_length_le ?_
    simp
  have hdata : dataSize [e] = e.data.length := by
    simp [dataSize]
  rw [keybPos, h, hall, dataSize_append, hdata, dataPos, List.take_length]
  ring

theorem dataPos_snoc (es : List Entry) (e : Entry) :
    dataPos (es ++ [e]) (es.length + 1) =
      dataPos es es.length + e.data.length + gap (es.length + 1) := by
  rw [dataPos_succ, dataPos_append es [e] (le_refl _), tagOf_snoc, Function.update_self,
    e.size_eq]

theorem slice_tagOf_of_le (es : List Entry) {i : Nat} (h : es.length ≤ i) (n : Nat) :
    slice (tagOf es) i n = List.replicate n RedoBlockTag.empty := by
  induction n generalizing i with
  | zero =>
      rfl
  | succ n ih =>
      rw [slice_succ, tagOf_of_le es h, ih (Nat.le_succ_of_le h), List.replicate_succ]

theorem header_le_keybPos (es : List Entry) (k : Nat) :
    redoHeaderSize ≤ keybPos es k := by
  simp only [keybPos]
  omega

theorem keybPos_le_keybPos (es : List Entry) {k k' : Nat} (h : k < k') :
    keybPos es k + redoLogBlockSize ≤ keybPos es k' := by
  have hsize := dataSize_take_le es (show keysPerBlock * k ≤ keysPerBlock * k' by
    exact Nat.mul_le_mul_left _ (le_of_lt h))
  simp only [keybPos, redoLogBlockSize]
  omega

theorem keybPos_le_dataPos (es : List Entry) {k i : Nat} (h : k ≤ i / keysPerBlock) :
    keybPos es k + redoLogBlockSize ≤ dataPos es i := by
  have hsize := dataSize_take_le es (show keysPerBlock * k ≤ i by
    simp only [keysPerBlock_eq] at *
    omega)
  simp only [keybPos, dataPos, redoLogBlockSize]
  omega

theorem keybPos_disjoint_dataPos (es : List Entry) (k : Nat) {i : Nat} :
    keybPos es k + redoLogBlockSize ≤ dataPos es i ∨
      dataPos es i + (tagOf es i).size.toNat ≤ keybPos es k := by
  by_cases h : k ≤ i / keysPerBlock
  · exact Or.inl (keybPos_le_dataPos es h)
  · right
    have hsize := dataSize_take_le es (show i + 1 ≤ keysPerBlock * k by
      simp only [keysPerBlock_eq] at *
      omega)
    rw [dataSize_take_succ] at hsize
    simp only [keybPos, dataPos, redoLogBlockSize]
    omega

theorem dataPos_le_dataPos (es : List Entry) {i j : Nat} (h : i < j) :
    dataPos es i + (tagOf es i).size.toNat ≤ dataPos es j := by
  have hstep := dataPos_succ es i
  have hmono := dataPos_mono es (show i + 1 ≤ j from h)
  omega

theorem header_le_dataPos (es : List Entry) (i : Nat) :
    redoHeaderSize ≤ dataPos es i := by
  simp only [dataPos]
  omega

/-- The key block number `k` of a stream of tags, without its head. -/
def blockOf (T : Nat → RedoBlockTag) (k : Nat) : RedoBlock where
  magic := 0
  crc := 0
  reserved := 0
  tags := slice T (keysPerBlock * k) keysPerBlock
  tags_length := length_slice T (keysPerBlock * k) keysPerBlock

section Layout

variable (crc : Bytes → UInt32)

/-- Key block `k` as the writer stamps it. -/
def keybOf (es : List Entry) (k : Nat) : RedoBlock :=
  (blockOf (tagOf es) k).stamp crc

@[simp] theorem keybOf_tags (es : List Entry) (k : Nat) :
    (keybOf crc es k).tags = slice (tagOf es) (keysPerBlock * k) keysPerBlock := by
  rfl

theorem keybOf_tag
    (es : List Entry) (k : Nat) {c : Nat} (h : c < keysPerBlock) :
    (keybOf crc es k).tag c = tagOf es (keysPerBlock * k + c) := by
  rw [RedoBlock.tag, keybOf_tags, slice, List.getElem?_map, List.getElem?_range' h]
  simp

theorem keybOf_append
    (es es' : List Entry) {k : Nat} (h : keysPerBlock * (k + 1) ≤ es.length) :
    keybOf crc (es ++ es') k = keybOf crc es k := by
  refine RedoBlock.stamp_congr crc ?_ rfl
  refine slice_congr ?_
  intro g _ hg
  refine tagOf_append_left es es' ?_
  rw [Nat.mul_succ] at h
  omega

/-- The marks of a file once key block `k` is written with the marks `M'`. -/
def overrideMarks (k : Nat) (M M' : List Nat) : List Nat :=
  M.filter (fun m => m / keysPerBlock ≠ k) ++ M'.filter (fun m => m / keysPerBlock = k)

theorem mem_overrideMarks_self (k : Nat) (M M' : List Nat) {c : Nat} (h : c < keysPerBlock) :
    keysPerBlock * k + c ∈ overrideMarks k M M' ↔ keysPerBlock * k + c ∈ M' := by
  have hdiv : (keysPerBlock * k + c) / keysPerBlock = k := by
    simp only [keysPerBlock_eq] at *
    omega
  simp [overrideMarks, hdiv]

theorem mem_overrideMarks_other
    {k j : Nat} (hj : j ≠ k) (M M' : List Nat) {c : Nat} (h : c < keysPerBlock) :
    keysPerBlock * j + c ∈ overrideMarks k M M' ↔ keysPerBlock * j + c ∈ M := by
  have hdiv : (keysPerBlock * j + c) / keysPerBlock = j := by
    simp only [keysPerBlock_eq] at *
    omega
  simp [overrideMarks, hdiv, hj]

theorem remark_overrideMarks_self (kb : RedoBlock) (k : Nat) (M M' : List Nat) :
    kb.remark k (overrideMarks k M M') = kb.remark k M' := by
  exact RedoBlock.remark_congr rfl (fun _ hc => mem_overrideMarks_self k M M' hc)

theorem remark_overrideMarks_other
    (kb : RedoBlock) {k j : Nat} (hj : j ≠ k) (M M' : List Nat) :
    kb.remark j (overrideMarks k M M') = kb.remark j M := by
  exact RedoBlock.remark_congr rfl (fun _ hc => mem_overrideMarks_other hj M M' hc)

/-- The marks that remain when key block `k` is written without marks. -/
def clearMarks (k : Nat) (M : List Nat) : List Nat :=
  M.filter (fun m => m / keysPerBlock ≠ k)

@[simp] theorem clearMarks_nil (k : Nat) : clearMarks k [] = [] := by
  rfl

theorem overrideMarks_nil (k : Nat) (M : List Nat) :
    overrideMarks k M [] = clearMarks k M := by
  simp [overrideMarks, clearMarks]

theorem mem_of_mem_clearMarks {k : Nat} {M : List Nat} {m : Nat}
    (h : m ∈ clearMarks k M) : m ∈ M := by
  exact (List.mem_filter.mp h).1

theorem remark_clearMarks_self (kb : RedoBlock) (k : Nat) (M : List Nat) :
    kb.remark k (clearMarks k M) = kb := by
  rw [← overrideMarks_nil, remark_overrideMarks_self, RedoBlock.remark_nil]

theorem remark_clearMarks_other
    (kb : RedoBlock) {k j : Nat} (hj : j ≠ k) (M : List Nat) :
    kb.remark j (clearMarks k M) = kb.remark j M := by
  rw [← overrideMarks_nil, remark_overrideMarks_other _ hj]

/-- The file holds the data of all entries and the key blocks before number `n`,
with the marks `M`. -/
structure Stored (es : List Entry) (M : List Nat) (n : Nat) (f : ByteFile) : Prop where
  data_holds : ∀ i e, es[i]? = some e → f.Holds (dataPos es i) e.data
  keyb_holds : ∀ k, k < n →
    f.Holds (keybPos es k) ((keybOf crc es k).remark k M).encode

variable {crc}

theorem Stored.mono
    {es : List Entry} {M : List Nat} {n n' : Nat} {f : ByteFile}
    (h : Stored crc es M n f) (hn : n' ≤ n) :
    Stored crc es M n' f := by
  exact ⟨h.data_holds, fun k hk => h.keyb_holds k (lt_of_lt_of_le hk hn)⟩

theorem Stored.pwrite_header
    {es : List Entry} {M : List Nat} {n : Nat} {f : ByteFile}
    (h : Stored crc es M n f) {buf : Bytes} (hbuf : buf.length = redoHeaderSize) :
    Stored crc es M n (f.pwrite 0 buf) := by
  constructor
  · intro i e he
    refine (h.data_holds i e he).pwrite_of_disjoint (Or.inr ?_)
    rw [hbuf, Nat.zero_add]
    exact header_le_dataPos es i
  · intro k hk
    refine (h.keyb_holds k hk).pwrite_of_disjoint (Or.inr ?_)
    rw [hbuf, Nat.zero_add]
    exact header_le_keybPos es k

theorem Stored.pwrite_keyb
    {es : List Entry} {M : List Nat} {n : Nat} {f : ByteFile}
    (h : Stored crc es M n f) {k : Nat} (hk : k ≤ n) (M' : List Nat) :
    Stored crc es (overrideMarks k M M') (max n (k + 1))
      (f.pwrite (keybPos es k) ((keybOf crc es k).remark k M').encode) := by
  constructor
  · intro i e he
    refine (h.data_holds i e he).pwrite_of_disjoint ?_
    have hdisj := keybPos_disjoint_dataPos es k (i := i)
    rw [tagOf_of_getElem? he, e.size_eq] at hdisj
    rw [RedoBlock.length_encode]
    exact hdisj.symm
  · intro j hj
    by_cases hjk : j = k
    · subst hjk
      rw [remark_overrideMarks_self]
      exact f.holds_pwrite_self _ _
    · rw [remark_overrideMarks_other _ hjk]
      refine (h.keyb_holds j (by omega)).pwrite_of_disjoint ?_
      rw [RedoBlock.length_encode, RedoBlock.length_encode]
      rcases Nat.lt_or_gt_of_ne hjk with hlt | hgt
      · exact Or.inl (keybPos_le_keybPos es hlt)
      · exact Or.inr (keybPos_le_keybPos es hgt)

theorem Stored.pwrite_data
    {es : List Entry} {M : List Nat} {n : Nat} {f : ByteFile}
    (h : Stored crc es M n f) (hn : n ≤ es.length / keysPerBlock + 1) (buf : Bytes) :
    Stored crc es M n (f.pwrite (dataPos es es.length) buf) := by
  constructor
  · intro i e he
    have hlt : i < es.length := (List.getElem?_eq_some_iff.mp he).1
    refine (h.data_holds i e he).pwrite_of_disjoint (Or.inl ?_)
    have hle := dataPos_le_dataPos es hlt
    rw [tagOf_of_getElem? he, e.size_eq] at hle
    exact hle
  · intro k hk
    refine (h.keyb_holds k hk).pwrite_of_disjoint (Or.inl ?_)
    rw [RedoBlock.length_encode]
    have hsize := dataSize_take_le es (show keysPerBlock * k ≤ es.length by
      simp only [keysPerBlock_eq] at *
      omega)
    simp only [keybPos, dataPos, redoLogBlockSize]
    omega

theorem Stored.append
    {es : List Entry} {M : List Nat} {n : Nat} {f : ByteFile}
    (h : Stored crc es M n f) (hn : es.length / keysPerBlock ≤ n) {e : Entry}
    (hdata : f.Holds (dataPos es es.length) e.data) :
    Stored crc (es ++ [e]) (clearMarks (es.length / keysPerBlock) M)
      (es.length / keysPerBlock + 1)
      (f.pwrite (keybPos es (es.length / keysPerBlock))
        (keybOf crc (es ++ [e]) (es.length / keysPerBlock)).encode) := by
  have hcur : keysPerBlock * (es.length / keysPerBlock) ≤ es.length := Nat.mul_div_le _ _
  have hpos := keybPos_append es [e] hcur
  rw [← hpos]
  constructor
  · intro i e' he
    have hold : f.Holds (dataPos (es ++ [e]) i) e'.data := by
      by_cases hi : i < es.length
      · rw [List.getElem?_append_left hi] at he
        rw [dataPos_append es [e] (le_of_lt hi)]
        exact h.data_holds i e' he
      · have hlen : i = es.length := by
          have := (List.getElem?_eq_some_iff.mp he).1
          rw [List.length_append, List.length_singleton] at this
          omega
        subst hlen
        rw [List.getElem?_append_right (le_refl _), Nat.sub_self] at he
        obtain rfl : e = e' := Option.some.inj he
        rw [dataPos_append es [e] (le_refl _)]
        exact hdata
    refine hold.pwrite_of_disjoint ?_
    have hdisj := keybPos_disjoint_dataPos (es ++ [e]) (es.length / keysPerBlock) (i := i)
    rw [tagOf_of_getElem? he, e'.size_eq] at hdisj
    rw [RedoBlock.length_encode]
    exact hdisj.symm
  · intro k hk
    by_cases hk' : k = es.length / keysPerBlock
    · rw [← hk', remark_clearMarks_self]
      exact f.holds_pwrite_self _ _
    · have hfull : keysPerBlock * (k + 1) ≤ es.length := by
        simp only [keysPerBlock_eq] at *
        omega
      have hfull' : keysPerBlock * k ≤ es.length := by
        simp only [keysPerBlock_eq] at *
        omega
      rw [remark_clearMarks_other _ hk', keybOf_append crc es [e] hfull]
      have hold := h.keyb_holds k (by omega)
      rw [← keybPos_append es [e] hfull'] at hold
      refine hold.pwrite_of_disjoint (Or.inl ?_)
      rw [RedoBlock.length_encode]
      exact keybPos_le_keybPos (es ++ [e]) (by omega)

theorem Stored.congr_marks
    {es : List Entry} {M M' : List Nat} {n : Nat} {f : ByteFile}
    (h : Stored crc es M n f) (hM : ∀ m, m ∈ M ↔ m ∈ M') :
    Stored crc es M' n f := by
  refine ⟨h.data_holds, ?_⟩
  intro k hk
  rw [← RedoBlock.remark_congr (M := M) (rfl : keybOf crc es k = keybOf crc es k)
    (fun _ _ => hM _)]
  exact h.keyb_holds k hk

theorem Stored.mark
    {es : List Entry} {M : List Nat} {n : Nat} {f : ByteFile}
    (h : Stored crc es M n f) {g : Nat} (hg : g / keysPerBlock < n) :
    Stored crc es (M ++ [g]) n
      (f.pwrite (keybPos es (g / keysPerBlock))
        ((keybOf crc es (g / keysPerBlock)).remark (g / keysPerBlock) (M ++ [g])).encode) := by
  have hput := h.pwrite_keyb (k := g / keysPerBlock) (le_of_lt hg) (M ++ [g])
  rw [max_eq_left (by omega)] at hput
  refine hput.congr_marks ?_
  intro m
  simp only [overrideMarks, List.mem_append, List.mem_filter, List.mem_singleton]
  by_cases hm : m / keysPerBlock = g / keysPerBlock
  · simp [hm]
  · have hne : m ≠ g := by
      rintro rfl
      exact hm rfl
    simp [hm, hne]

/-- The stream of a log with marks. -/
def markedTagOf (es : List Entry) (M : List Nat) (g : Nat) : RedoBlockTag :=
  if g ∈ M then (tagOf es g).marked else tagOf es g

@[simp] theorem markedTagOf_nil (es : List Entry) : markedTagOf es [] = tagOf es := by
  funext g
  simp [markedTagOf]

theorem markedTagOf_size (es : List Entry) (M : List Nat) (g : Nat) :
    (markedTagOf es M g).size = (tagOf es g).size := by
  unfold markedTagOf
  split_ifs <;> rfl

theorem markedTagOf_blkCrc (es : List Entry) (M : List Nat) (g : Nat) :
    (markedTagOf es M g).blkCrc = (tagOf es g).blkCrc := by
  unfold markedTagOf
  split_ifs <;> rfl

theorem streamOf_remark (crc : Bytes → UInt32) (es : List Entry) (M : List Nat) :
    streamOf (fun k => (keybOf crc es k).remark k M) = markedTagOf es M := by
  funext g
  have hmod : g % keysPerBlock < keysPerBlock := Nat.mod_lt _ (by decide)
  rw [streamOf, RedoBlock.remark_tag _ _ _ hmod, keybOf_tag crc es _ hmod, Nat.div_add_mod]
  rfl

theorem tagBytes_remark (kb : RedoBlock) (k : Nat) (M : List Nat) :
    tagBytes (kb.remark k M).tags = tagBytes kb.tags := by
  have hmap : (kb.remark k M).tags.map (fun t => t.size.toNat) =
      kb.tags.map (fun t => t.size.toNat) := by
    refine List.ext_getElem? ?_
    intro c
    simp only [RedoBlock.remark, List.getElem?_map, List.getElem?_mapIdx]
    cases kb.tags[c]? with
    | none =>
        rfl
    | some t =>
        simp only [Option.map_some]
        split_ifs <;> rfl
  rw [tagBytes, hmap, tagBytes]

end Layout

end Redo
end Rfsck
