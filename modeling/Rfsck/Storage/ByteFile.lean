import Mathlib.Data.List.Basic
import Mathlib.Tactic

/-!
# Byte files

A byte file is a size together with a byte for every position, zero from the
size on, so that a write past the end leaves a hole of zeros.  `pread` and
`pwrite` are the positioned operations of the system interface: a read stops at
the end of the file, a write of at least one byte extends it.

Main facts:
* `Holds f off bs`: the file stores `bs` from position `off` on; reading back,
  overwriting, and the frame rules for disjoint writes;
* `ExtendsOn P f g`: the file `g` is not shorter and agrees at the positions of `P`;
* `applyPatches`: a sequence of writes, with the absorption law that a sequence
  started, cut short and run again from its beginning has the effect of one run;
* `applyPatches_filter_iff`: when some of the writes may be left out.
-/

namespace Rfsck
namespace Storage

abbrev Bytes := List UInt8

/-- A file: every position from the size on reads zero. -/
@[ext] structure ByteFile where
  size : Nat
  byte : Nat → UInt8
  byte_eq_zero : ∀ i, size ≤ i → byte i = 0

namespace ByteFile

/-- The file without content. -/
def empty : ByteFile where
  size := 0
  byte := fun _ => 0
  byte_eq_zero := fun _ _ => rfl

/-- The byte at position `i` once `buf` has been written at `off`. -/
def overlay (f : ByteFile) (off : Nat) (buf : Bytes) (i : Nat) : UInt8 :=
  if off ≤ i then buf[i - off]?.getD (f.byte i) else f.byte i

/-- Positioned write; an empty write changes nothing. -/
def pwrite (f : ByteFile) (off : Nat) (buf : Bytes) : ByteFile where
  size := if buf = [] then f.size else max f.size (off + buf.length)
  byte := f.overlay off buf
  byte_eq_zero := by
    intro i hi
    have hf : f.size ≤ i := by
      split_ifs at hi
      · exact hi
      · omega
    unfold overlay
    split_ifs with hoff
    · cases hb : buf[i - off]? with
      | none => simpa using f.byte_eq_zero i hf
      | some b =>
          have hlt : i - off < buf.length := by
            obtain ⟨h, _⟩ := List.getElem?_eq_some_iff.mp hb
            exact h
          have hne : buf ≠ [] := by
            rintro rfl
            simp at hlt
          simp only [hne, if_false] at hi
          omega
    · exact f.byte_eq_zero i hf

/-- Positioned read of at most `n` bytes. -/
def pread (f : ByteFile) (off n : Nat) : Bytes :=
  (List.range (min n (f.size - off))).map (fun i => f.byte (off + i))

/-- The file stores `bs` from position `off` on. -/
def Holds (f : ByteFile) (off : Nat) (bs : Bytes) : Prop :=
  ∀ i b, bs[i]? = some b → off + i < f.size ∧ f.byte (off + i) = b

theorem byte_pwrite (f : ByteFile) (off : Nat) (buf : Bytes) (i : Nat) :
    (f.pwrite off buf).byte i =
      if off ≤ i then buf[i - off]?.getD (f.byte i) else f.byte i := by
  rfl

theorem size_pwrite (f : ByteFile) (off : Nat) (buf : Bytes) :
    (f.pwrite off buf).size =
      if buf = [] then f.size else max f.size (off + buf.length) := by
  rfl

theorem byte_pwrite_of_outside
    (f : ByteFile) {off : Nat} {buf : Bytes} {i : Nat}
    (h : i < off ∨ off + buf.length ≤ i) :
    (f.pwrite off buf).byte i = f.byte i := by
  rw [byte_pwrite]
  split_ifs with hoff
  · have hlen : buf.length ≤ i - off := by omega
    rw [List.getElem?_eq_none hlen]
    rfl
  · rfl

theorem byte_pwrite_of_inside
    (f g : ByteFile) {off : Nat} {buf : Bytes} {i : Nat}
    (h : off ≤ i) (h' : i < off + buf.length) :
    (f.pwrite off buf).byte i = (g.pwrite off buf).byte i := by
  have hlt : i - off < buf.length := by omega
  simp [byte_pwrite, h, List.getElem?_eq_getElem hlt]

theorem size_le_size_pwrite (f : ByteFile) (off : Nat) (buf : Bytes) :
    f.size ≤ (f.pwrite off buf).size := by
  rw [size_pwrite]
  split_ifs <;> omega

@[simp] theorem pwrite_nil (f : ByteFile) (off : Nat) : f.pwrite off [] = f := by
  apply ByteFile.ext
  · simp [size_pwrite]
  · funext i
    simp [byte_pwrite]

@[simp] theorem holds_nil (f : ByteFile) (off : Nat) : f.Holds off [] := by
  intro i b h
  simp at h

theorem length_pread (f : ByteFile) (off n : Nat) :
    (f.pread off n).length = min n (f.size - off) := by
  simp [pread]

theorem length_pread_le (f : ByteFile) (off n : Nat) :
    (f.pread off n).length ≤ n := by
  rw [length_pread]
  omega

theorem getElem?_pread (f : ByteFile) (off n i : Nat) :
    (f.pread off n)[i]? =
      if i < min n (f.size - off) then some (f.byte (off + i)) else none := by
  unfold pread
  split_ifs with h
  · rw [List.getElem?_map, List.getElem?_range h]
    rfl
  · apply List.getElem?_eq_none
    rw [List.length_map, List.length_range]
    omega

/-- The `n` bytes from `off` on, with zeros behind the end. -/
def bytes (f : ByteFile) (off n : Nat) : Bytes :=
  (List.range n).map fun i => f.byte (off + i)

@[simp] theorem length_bytes (f : ByteFile) (off n : Nat) : (f.bytes off n).length = n := by
  simp [bytes]

theorem bytes_append (f : ByteFile) (off m n : Nat) :
    f.bytes off (m + n) = f.bytes off m ++ f.bytes (off + m) n := by
  rw [bytes, List.range_add, List.map_append, List.map_map, bytes, bytes]
  simp only [Function.comp_def, Nat.add_assoc]

theorem pread_append_replicate (f : ByteFile) (off : Nat) {m n : Nat} (h : m ≤ n) :
    (f.pread off m ++ List.replicate n 0).take m = f.bytes off m := by
  apply List.ext_getElem?
  intro i
  rw [List.getElem?_take, bytes, List.getElem?_map]
  by_cases him : i < m
  · rw [if_pos him, List.getElem?_range him, List.getElem?_append, length_pread]
    split_ifs with hi
    · rw [getElem?_pread, if_pos hi]
      rfl
    · rw [List.getElem?_replicate, if_pos (by omega), Option.map_some,
        f.byte_eq_zero (off + i) (by omega)]
  · rw [if_neg him, List.getElem?_eq_none (by simpa using him)]
    rfl

theorem holds_append (f : ByteFile) (off : Nat) (as bs : Bytes) :
    f.Holds off (as ++ bs) ↔ f.Holds off as ∧ f.Holds (off + as.length) bs := by
  constructor
  · intro h
    constructor
    · intro i b hb
      have hlt : i < as.length := (List.getElem?_eq_some_iff.mp hb).1
      exact h i b (by rw [List.getElem?_append_left hlt]; exact hb)
    · intro i b hb
      have h' := h (as.length + i) b (by
        rw [List.getElem?_append_right (by omega)]
        simpa using hb)
      rwa [Nat.add_assoc]
  · rintro ⟨ha, hb⟩ i b hi
    by_cases hlt : i < as.length
    · rw [List.getElem?_append_left hlt] at hi
      exact ha i b hi
    · rw [List.getElem?_append_right (by omega)] at hi
      have h' := hb (i - as.length) b hi
      rwa [show off + as.length + (i - as.length) = off + i by omega] at h'

theorem pread_pwrite_self
    (f : ByteFile) (off : Nat) {bs : Bytes} {n : Nat} (h : bs.length ≤ n) :
    (f.pwrite off bs).pread off n = bs ++ (f.pread off n).drop bs.length := by
  apply List.ext_getElem?
  intro i
  have hsize := size_pwrite f off bs
  by_cases hi : i < bs.length
  · have hne : bs ≠ [] := by
      rintro rfl
      simp at hi
    rw [if_neg hne] at hsize
    rw [List.getElem?_append_left hi, getElem?_pread, if_pos (by omega), byte_pwrite,
      if_pos (by omega), Nat.add_sub_cancel_left, List.getElem?_eq_getElem hi]
    rfl
  · rw [List.getElem?_append_right (by omega), List.getElem?_drop, getElem?_pread,
      getElem?_pread, byte_pwrite_of_outside f (by omega),
      show bs.length + (i - bs.length) = i by omega]
    have hreach : i < min n ((f.pwrite off bs).size - off) ↔ i < min n (f.size - off) := by
      rw [hsize]
      split_ifs <;> omega
    simp only [hreach]

theorem pread_pwrite_eq_iff
    (f : ByteFile) (off : Nat) {bs : Bytes} {n : Nat} (h : bs.length ≤ n) :
    (f.pwrite off bs).pread off n = f.pread off n ↔ bs <+: f.pread off n := by
  rw [pread_pwrite_self f off h]
  constructor
  · intro heq
    exact ⟨_, heq⟩
  · rintro ⟨rest, hrest⟩
    rw [← hrest, List.drop_left]

theorem Holds.le_size {f : ByteFile} {off : Nat} {bs : Bytes} (h : f.Holds off bs)
    (hne : bs ≠ []) : off + bs.length ≤ f.size := by
  have hlen := List.length_pos_iff.mpr hne
  obtain ⟨hlt, -⟩ := h (bs.length - 1) _ (List.getElem?_eq_getElem (by omega))
  omega

theorem pread_of_holds
    {f : ByteFile} {off : Nat} {bs : Bytes}
    (h : f.Holds off bs) :
    f.pread off bs.length = bs := by
  apply List.ext_getElem?
  intro i
  rw [getElem?_pread]
  cases hb : bs[i]? with
  | none =>
      have hlen : bs.length ≤ i := List.getElem?_eq_none_iff.mp hb
      rw [if_neg (by omega)]
  | some b =>
      have hlt : i < bs.length := (List.getElem?_eq_some_iff.mp hb).1
      obtain ⟨h1, h2⟩ := h i b hb
      rw [if_pos (by omega), h2]

theorem pread_of_holds_length
    {f : ByteFile} {off n : Nat} {bs : Bytes}
    (h : f.Holds off bs) (hn : bs.length = n) :
    f.pread off n = bs := by
  subst hn
  exact pread_of_holds h

theorem holds_of_pread
    {f : ByteFile} {off n : Nat}
    (h : (f.pread off n).length = n) :
    f.Holds off (f.pread off n) := by
  intro i b hb
  rw [getElem?_pread] at hb
  rw [length_pread] at h
  split_ifs at hb with hi
  exact ⟨by omega, Option.some.inj hb⟩

theorem holds_pwrite_self (f : ByteFile) (off : Nat) (buf : Bytes) :
    (f.pwrite off buf).Holds off buf := by
  intro i b hb
  have hlt : i < buf.length := (List.getElem?_eq_some_iff.mp hb).1
  have hne : buf ≠ [] := by
    rintro rfl
    simp at hlt
  constructor
  · rw [size_pwrite, if_neg hne]
    omega
  · simp [byte_pwrite, hb]

theorem Holds.pwrite_of_disjoint
    {f : ByteFile} {off o : Nat} {bs buf : Bytes}
    (h : f.Holds off bs)
    (hd : off + bs.length ≤ o ∨ o + buf.length ≤ off) :
    (f.pwrite o buf).Holds off bs := by
  intro i b hb
  have hlt : i < bs.length := (List.getElem?_eq_some_iff.mp hb).1
  obtain ⟨h1, h2⟩ := h i b hb
  refine ⟨lt_of_lt_of_le h1 (size_le_size_pwrite f o buf), ?_⟩
  rw [byte_pwrite_of_outside f (by omega), h2]

theorem pwrite_append (f : ByteFile) (off : Nat) (as bs : Bytes) :
    f.pwrite off (as ++ bs) = (f.pwrite off as).pwrite (off + as.length) bs := by
  apply ByteFile.ext
  · by_cases ha : as = []
    · simp [ha]
    · by_cases hb : bs = []
      · simp [hb]
      · rw [size_pwrite, size_pwrite, size_pwrite, if_neg (by simp [ha]), if_neg ha, if_neg hb,
          List.length_append]
        omega
  · funext i
    by_cases hi : off + as.length ≤ i
    · rw [byte_pwrite, byte_pwrite, if_pos (by omega), if_pos hi,
        List.getElem?_append_right (by omega), byte_pwrite_of_outside f (by omega), Nat.sub_add_eq]
    · rw [byte_pwrite_of_outside (f.pwrite off as) (by omega), byte_pwrite, byte_pwrite]
      split_ifs with hoff
      · rw [List.getElem?_append_left (by omega)]
      · rfl

/-- A file that differs from another one at most where that one holds `bs` agrees with it
once `bs` is written. -/
theorem Holds.byte_pwrite
    {g : ByteFile} {off : Nat} {bs : Bytes} (h : g.Holds off bs) {f : ByteFile} {i : Nat}
    (hout : i < off ∨ off + bs.length ≤ i → f.byte i = g.byte i) :
    (f.pwrite off bs).byte i = g.byte i := by
  by_cases hi : i < off ∨ off + bs.length ≤ i
  · rw [byte_pwrite_of_outside f hi, hout hi]
  · have hlt : i - off < bs.length := by omega
    have hat := List.getElem?_eq_getElem hlt
    have hnew := (holds_pwrite_self f off bs _ _ hat).2
    have hold := (h _ _ hat).2
    rw [Nat.add_sub_cancel' (by omega)] at hnew hold
    rw [hnew, hold]

theorem Holds.pwrite_of_agree
    {f : ByteFile} {off o : Nat} {bs buf : Bytes} (h : f.Holds off bs)
    (hagree : ∀ i b c, bs[i]? = some b → o ≤ off + i → buf[off + i - o]? = some c → c = b) :
    (f.pwrite o buf).Holds off bs := by
  intro i b hb
  obtain ⟨hsize, hbyte⟩ := h i b hb
  refine ⟨lt_of_lt_of_le hsize (size_le_size_pwrite f o buf), ?_⟩
  rw [ByteFile.byte_pwrite]
  split_ifs with hle
  · cases hc : buf[off + i - o]? with
    | none =>
        exact hbyte
    | some c =>
        exact hagree i b c hb hle hc
  · exact hbyte

theorem Holds.unique
    {f : ByteFile} {off : Nat} {as bs : Bytes}
    (ha : f.Holds off as) (hb : f.Holds off bs)
    (hlen : as.length = bs.length) :
    as = bs := by
  have h := pread_of_holds ha
  rw [hlen, pread_of_holds hb] at h
  exact h.symm

/-- A write below a position does not change what is read from there on, not
even through the size of the file. -/
theorem pread_pwrite_of_le
    (f : ByteFile) {off o n : Nat} {buf : Bytes}
    (h : off + buf.length ≤ o) :
    (f.pwrite off buf).pread o n = f.pread o n := by
  have hsize : (f.pwrite off buf).size - o = f.size - o := by
    rw [size_pwrite]
    split_ifs <;> omega
  apply List.ext_getElem?
  intro i
  rw [getElem?_pread, getElem?_pread, hsize, byte_pwrite_of_outside f (by omega)]

theorem pread_pwrite_of_ge
    (f : ByteFile) {off o n : Nat} {buf : Bytes}
    (h : o + n ≤ off) (hsize : o + n ≤ f.size) :
    (f.pwrite off buf).pread o n = f.pread o n := by
  have hle := size_le_size_pwrite f off buf
  apply List.ext_getElem?
  intro i
  rw [getElem?_pread, getElem?_pread]
  by_cases hi : i < n
  · rw [if_pos (by omega), if_pos (by omega), byte_pwrite_of_outside f (by omega)]
  · rw [if_neg (by omega), if_neg (by omega)]

theorem Holds.pwrite_eq {f : ByteFile} {off : Nat} {bs : Bytes} (h : f.Holds off bs) :
    f.pwrite off bs = f := by
  apply ByteFile.ext
  · rw [size_pwrite]
    split_ifs with hbs
    · rfl
    · have hpos := List.length_pos_of_ne_nil hbs
      obtain ⟨hlt, -⟩ := h (bs.length - 1) _ (List.getElem?_eq_getElem (by omega))
      omega
  · funext i
    exact h.byte_pwrite fun _ => rfl

theorem pwrite_comm (f : ByteFile) {o o' : Nat} {bs bs' : Bytes}
    (h : o + bs.length ≤ o' ∨ o' + bs'.length ≤ o) :
    (f.pwrite o bs).pwrite o' bs' = (f.pwrite o' bs').pwrite o bs := by
  apply ByteFile.ext
  · rw [size_pwrite, size_pwrite, size_pwrite, size_pwrite]
    split_ifs <;> omega
  · funext i
    by_cases hi : i < o ∨ o + bs.length ≤ i
    · rw [byte_pwrite_of_outside (f.pwrite o' bs') hi, byte_pwrite (f.pwrite o bs),
        byte_pwrite_of_outside f hi, byte_pwrite]
    · rw [byte_pwrite_of_outside (f.pwrite o bs) (by omega)]
      exact byte_pwrite_of_inside _ _ (by omega) (by omega)

/-- A range is made to read zero; the size stays. -/
def punchHole (f : ByteFile) (off n : Nat) : ByteFile where
  size := f.size
  byte := fun i => if off ≤ i ∧ i < off + n then 0 else f.byte i
  byte_eq_zero := by
    intro i hi
    split_ifs
    · rfl
    · exact f.byte_eq_zero i hi

/-- The range reads zero. -/
def Zeros (f : ByteFile) (off n : Nat) : Prop :=
  ∀ i, i < n → f.byte (off + i) = 0

theorem Zeros.pwrite_of_disjoint {f : ByteFile} {off n o : Nat} {buf : Bytes}
    (h : f.Zeros off n) (hd : off + n ≤ o ∨ o + buf.length ≤ off) :
    (f.pwrite o buf).Zeros off n := by
  intro i hi
  rw [byte_pwrite_of_outside f (by omega)]
  exact h i hi

theorem Zeros.holds {f : ByteFile} {off n : Nat} (h : f.Zeros off n)
    (hsize : off + n ≤ f.size) : f.Holds off (List.replicate n 0) := by
  intro i b hb
  have hi : i < n := by
    have hlt := (List.getElem?_eq_some_iff.mp hb).1
    rwa [List.length_replicate] at hlt
  rw [List.getElem?_replicate, if_pos hi] at hb
  exact ⟨by omega, (h i hi).trans (Option.some.inj hb)⟩

theorem Zeros.punchHole_eq {f : ByteFile} {off n : Nat} (h : f.Zeros off n) :
    f.punchHole off n = f := by
  apply ByteFile.ext
  · rfl
  · funext i
    change (if off ≤ i ∧ i < off + n then 0 else f.byte i) = f.byte i
    split_ifs with hi
    · have hzero := h (i - off) (by omega)
      rw [Nat.add_sub_cancel' hi.1] at hzero
      exact hzero.symm
    · rfl

/-- The first `n` bytes. -/
def truncate (f : ByteFile) (n : Nat) : ByteFile where
  size := min f.size n
  byte := fun i => if i < n then f.byte i else 0
  byte_eq_zero := by
    intro i hi
    split_ifs with hlt
    · exact f.byte_eq_zero i (by omega)
    · rfl

theorem Holds.truncate {f : ByteFile} {off n : Nat} {bs : Bytes} (h : f.Holds off bs)
    (hn : off + bs.length ≤ n) : (f.truncate n).Holds off bs := by
  intro i b hb
  have hlt := (List.getElem?_eq_some_iff.mp hb).1
  obtain ⟨hsize, hbyte⟩ := h i b hb
  refine ⟨lt_min hsize (by omega), ?_⟩
  rw [← hbyte]
  exact if_pos (by omega)

/-- Every byte, also behind the end, has a property of its position. -/
def Each (f : ByteFile) (Q : Nat → UInt8 → Prop) : Prop :=
  ∀ i, Q i (f.byte i)

/-- The bytes of a buffer have the property at the place where they are written. -/
def EachFrom (Q : Nat → UInt8 → Prop) (off : Nat) (buf : Bytes) : Prop :=
  ∀ k v, buf[k]? = some v → Q (off + k) v

section Each

variable {f : ByteFile} {Q : Nat → UInt8 → Prop} {off : Nat} {buf : Bytes}

theorem Each.pwrite (h : f.Each Q) (hbuf : EachFrom Q off buf) : (f.pwrite off buf).Each Q := by
  intro i
  rw [byte_pwrite]
  split_ifs with hoff
  · cases hb : buf[i - off]? with
    | none =>
        exact h i
    | some v =>
        have hv := hbuf _ v hb
        rwa [Nat.add_sub_cancel' hoff] at hv
  · exact h i

theorem Each.of_holds (h : f.Each Q) (hbuf : f.Holds off buf) : EachFrom Q off buf := by
  intro k v hv
  rw [← (hbuf k v hv).2]
  exact h _

theorem Each.pread (h : f.Each Q) (off n : Nat) : EachFrom Q off (f.pread off n) := by
  intro k v hv
  rw [getElem?_pread] at hv
  split_ifs at hv
  cases hv
  exact h _

theorem eachFrom_nil (Q : Nat → UInt8 → Prop) (off : Nat) : EachFrom Q off [] := by
  intro k v hv
  simp at hv

theorem eachFrom_replicate {v : UInt8} (h : ∀ i, Q i v) (off n : Nat) :
    EachFrom Q off (List.replicate n v) := by
  intro k u hu
  rw [List.getElem?_replicate] at hu
  split_ifs at hu
  cases hu
  exact h _

theorem EachFrom.take (h : EachFrom Q off buf) (n : Nat) : EachFrom Q off (buf.take n) := by
  intro k v hv
  rw [List.getElem?_take] at hv
  split_ifs at hv
  exact h k v hv

theorem EachFrom.drop (h : EachFrom Q off buf) (n : Nat) :
    EachFrom Q (off + n) (buf.drop n) := by
  intro k v hv
  rw [List.getElem?_drop] at hv
  rw [Nat.add_assoc]
  exact h _ v hv

theorem EachFrom.append {buf' : Bytes} (h : EachFrom Q off buf)
    (h' : EachFrom Q (off + buf.length) buf') : EachFrom Q off (buf ++ buf') := by
  intro k v hv
  rw [List.getElem?_append] at hv
  split_ifs at hv with hk
  · exact h k v hv
  · have hv' := h' _ v hv
    rwa [Nat.add_assoc, Nat.add_sub_cancel' (by omega)] at hv'

end Each

/-- The second file is not shorter and agrees with the first at the positions of `P`. -/
structure ExtendsOn (P : Nat → Prop) (f g : ByteFile) : Prop where
  size_le : f.size ≤ g.size
  byte_eq : ∀ i, P i → g.byte i = f.byte i

namespace ExtendsOn

variable {P : Nat → Prop} {f g : ByteFile}

theorem mono {Q : Nat → Prop} (h : ExtendsOn P f g) (hQ : ∀ i, Q i → P i) : ExtendsOn Q f g :=
  ⟨h.size_le, fun i hi => h.byte_eq i (hQ i hi)⟩

theorem pwrite (h : ExtendsOn P f g) (off : Nat) (buf : Bytes) :
    ExtendsOn (fun i => P i ∨ off ≤ i ∧ i < off + buf.length) (f.pwrite off buf)
      (g.pwrite off buf) := by
  refine ⟨?_, ?_⟩
  · have hsize := h.size_le
    rw [size_pwrite, size_pwrite]
    split_ifs <;> omega
  · intro i hi
    by_cases hin : off ≤ i ∧ i < off + buf.length
    · exact byte_pwrite_of_inside g f hin.1 hin.2
    · rw [byte_pwrite_of_outside g (by omega), byte_pwrite_of_outside f (by omega)]
      exact h.byte_eq i (hi.resolve_right hin)

theorem holds (h : ExtendsOn P f g) {off : Nat} {bs : Bytes} (hf : f.Holds off bs)
    (hP : ∀ i, off ≤ i → i < off + bs.length → P i) : g.Holds off bs := by
  intro i b hb
  have hlt := (List.getElem?_eq_some_iff.mp hb).1
  obtain ⟨hsize, hbyte⟩ := hf i b hb
  exact ⟨lt_of_lt_of_le hsize h.size_le,
    (h.byte_eq _ (hP _ (by omega) (by omega))).trans hbyte⟩

theorem pread (h : ExtendsOn P f g) {off n : Nat} (hsize : off + n ≤ f.size)
    (hP : ∀ i, off ≤ i → i < off + n → P i) : g.pread off n = f.pread off n := by
  have hle := h.size_le
  rw [ByteFile.pread, ByteFile.pread, min_eq_left (by omega), min_eq_left (by omega)]
  refine List.map_congr_left ?_
  intro i hi
  rw [List.mem_range] at hi
  exact h.byte_eq _ (hP _ (by omega) (by omega))

end ExtendsOn

end ByteFile

/-- One write. -/
structure Patch where
  offset : Nat
  data : Bytes
deriving DecidableEq

namespace Patch

def Covers (p : Patch) (i : Nat) : Prop :=
  p.offset ≤ i ∧ i < p.offset + p.data.length

def Apart (p q : Patch) : Prop :=
  ∀ i, p.Covers i → ¬ q.Covers i

theorem apart_of_le {p q : Patch} (h : p.offset + p.data.length ≤ q.offset) : p.Apart q := by
  rintro i ⟨-, hp⟩ ⟨hq, -⟩
  omega

theorem Apart.cases {p q : Patch} (h : p.Apart q) :
    p.data = [] ∨ q.data = [] ∨
      p.offset + p.data.length ≤ q.offset ∨ q.offset + q.data.length ≤ p.offset := by
  by_contra hcon
  push Not at hcon
  obtain ⟨hp, hq, h1, h2⟩ := hcon
  have hplen := List.length_pos_of_ne_nil hp
  have hqlen := List.length_pos_of_ne_nil hq
  exact h (max p.offset q.offset) ⟨by omega, by omega⟩ ⟨by omega, by omega⟩

/-- The size a file must have to hold the written range. -/
def reach (p : Patch) : Nat :=
  if p.data = [] then 0 else p.offset + p.data.length

end Patch

def applyPatches (f : ByteFile) (ps : List Patch) : ByteFile :=
  ps.foldl (fun g p => g.pwrite p.offset p.data) f

@[simp] theorem applyPatches_nil (f : ByteFile) : applyPatches f [] = f := by
  rfl

@[simp] theorem applyPatches_cons (f : ByteFile) (p : Patch) (ps : List Patch) :
    applyPatches f (p :: ps) = applyPatches (f.pwrite p.offset p.data) ps := by
  rfl

@[simp] theorem applyPatches_append (f : ByteFile) (ps qs : List Patch) :
    applyPatches f (ps ++ qs) = applyPatches (applyPatches f ps) qs := by
  simp [applyPatches]

theorem applyPatches_pwrite (ps : List Patch) (f : ByteFile) {p : Patch}
    (h : ∀ q ∈ ps, p.Apart q) :
    applyPatches (f.pwrite p.offset p.data) ps = (applyPatches f ps).pwrite p.offset p.data := by
  induction ps generalizing f with
  | nil =>
      rfl
  | cons q ps ih =>
      have hcomm : (f.pwrite p.offset p.data).pwrite q.offset q.data =
          (f.pwrite q.offset q.data).pwrite p.offset p.data := by
        rcases (h q (by simp)).cases with hnil | hnil | hrange
        · rw [hnil, ByteFile.pwrite_nil, ByteFile.pwrite_nil]
        · rw [hnil, ByteFile.pwrite_nil, ByteFile.pwrite_nil]
        · exact f.pwrite_comm hrange
      rw [applyPatches_cons, applyPatches_cons, hcomm,
        ih _ (fun q' hq' => h q' (by simp [hq']))]

theorem applyPatches_byte_of_not_covered
    (ps : List Patch) (f : ByteFile) {i : Nat}
    (h : ∀ p ∈ ps, ¬ p.Covers i) :
    (applyPatches f ps).byte i = f.byte i := by
  induction ps generalizing f with
  | nil =>
      rfl
  | cons p ps ih =>
      have hp : ¬ p.Covers i := h p (by simp)
      rw [applyPatches_cons, ih _ (fun q hq => h q (by simp [hq]))]
      apply ByteFile.byte_pwrite_of_outside
      unfold Patch.Covers at hp
      omega

theorem applyPatches_byte_congr
    (ps : List Patch) (f g : ByteFile) {i : Nat}
    (h : (∃ p ∈ ps, p.Covers i) ∨ f.byte i = g.byte i) :
    (applyPatches f ps).byte i = (applyPatches g ps).byte i := by
  induction ps generalizing f g with
  | nil =>
      simpa using h
  | cons p ps ih =>
      rw [applyPatches_cons, applyPatches_cons]
      apply ih
      by_cases hc : p.Covers i
      · right
        exact ByteFile.byte_pwrite_of_inside f g hc.1 hc.2
      · rcases h with ⟨q, hq, hqi⟩ | h
        · rcases List.mem_cons.mp hq with rfl | hq
          · exact absurd hqi hc
          · exact Or.inl ⟨q, hq, hqi⟩
        · right
          have hout : i < p.offset ∨ p.offset + p.data.length ≤ i := by
            unfold Patch.Covers at hc
            omega
          rw [ByteFile.byte_pwrite_of_outside f hout,
            ByteFile.byte_pwrite_of_outside g hout, h]

theorem size_applyPatches (ps : List Patch) (f : ByteFile) :
    (applyPatches f ps).size = ps.foldl (fun n p => max n p.reach) f.size := by
  induction ps generalizing f with
  | nil =>
      rfl
  | cons p ps ih =>
      rw [applyPatches_cons, ih, List.foldl_cons, ByteFile.size_pwrite]
      congr 1
      unfold Patch.reach
      split_ifs <;> omega

theorem le_foldl_max_reach (ps : List Patch) (n : Nat) :
    n ≤ ps.foldl (fun n p => max n p.reach) n := by
  induction ps generalizing n with
  | nil =>
      simp
  | cons p ps ih =>
      exact le_trans (le_max_left _ _) (ih _)

theorem foldl_max_reach (ps : List Patch) (m n : Nat) :
    ps.foldl (fun n p => max n p.reach) (max m n) =
      max m (ps.foldl (fun n p => max n p.reach) n) := by
  induction ps generalizing n with
  | nil =>
      rfl
  | cons p ps ih =>
      rw [List.foldl_cons, List.foldl_cons, max_assoc, ih]

/-- **Absorption.**  Writing the beginning of a sequence and then the whole
sequence has the effect of the whole sequence alone. -/
theorem applyPatches_prefix_absorb
    {ps qs : List Patch} (h : ps <+: qs) (f : ByteFile) :
    applyPatches (applyPatches f ps) qs = applyPatches f qs := by
  obtain ⟨rs, rfl⟩ := h
  apply ByteFile.ext
  · rw [size_applyPatches, size_applyPatches, size_applyPatches,
      List.foldl_append, List.foldl_append]
    congr 1
    have hle := le_foldl_max_reach ps f.size
    have hmax := foldl_max_reach ps (ps.foldl (fun n p => max n p.reach) f.size) f.size
    rw [max_eq_left hle, max_self] at hmax
    exact hmax
  · funext i
    apply applyPatches_byte_congr
    by_cases hc : ∃ p ∈ ps, p.Covers i
    · obtain ⟨p, hp, hpi⟩ := hc
      exact Or.inl ⟨p, by simp [hp], hpi⟩
    · right
      apply applyPatches_byte_of_not_covered
      intro p hp hpi
      exact hc ⟨p, hp, hpi⟩

theorem applyPatches_of_holds {ps : List Patch} {f : ByteFile}
    (h : ∀ p ∈ ps, f.Holds p.offset p.data) : applyPatches f ps = f := by
  induction ps with
  | nil =>
      rfl
  | cons p ps ih =>
      rw [applyPatches_cons, (h p (by simp)).pwrite_eq, ih (fun q hq => h q (by simp [hq]))]

theorem applyPatches_eq_of_holds {ps : List Patch} {f g : ByteFile} (hsize : f.size = g.size)
    (h : ∀ p ∈ ps, g.Holds p.offset p.data)
    (hout : ∀ i, (∀ p ∈ ps, ¬ p.Covers i) → f.byte i = g.byte i) : applyPatches f ps = g := by
  have hsame : applyPatches f ps = applyPatches g ps := by
    apply ByteFile.ext
    · rw [size_applyPatches, size_applyPatches, hsize]
    · funext i
      apply applyPatches_byte_congr
      by_cases hcovered : ∃ p ∈ ps, p.Covers i
      · exact Or.inl hcovered
      · exact Or.inr (hout i fun p hp hpi => hcovered ⟨p, hp, hpi⟩)
  rw [hsame, applyPatches_of_holds h]

theorem size_applyPatches_le_iff (ps : List Patch) (f : ByteFile) (n : Nat) :
    (applyPatches f ps).size ≤ n ↔ f.size ≤ n ∧ ∀ p ∈ ps, p.reach ≤ n := by
  rw [size_applyPatches]
  induction ps generalizing f with
  | nil =>
      simp
  | cons p ps ih =>
      have hmax := foldl_max_reach ps p.reach f.size
      rw [List.foldl_cons, max_comm, hmax, max_le_iff, ih, List.forall_mem_cons]
      tauto

theorem holds_applyPatches_last
    {pre post : List Patch} {p : Patch} {k : Nat} {b : UInt8} (hb : p.data[k]? = some b)
    (hpost : ∀ q ∈ post, ¬ q.Covers (p.offset + k)) (f : ByteFile) :
    (applyPatches f (pre ++ p :: post)).Holds (p.offset + k) [b] := by
  rw [applyPatches_append, applyPatches_cons]
  have hself := ByteFile.holds_pwrite_self (applyPatches f pre) p.offset p.data k b hb
  intro i c hc
  have hi : i = 0 := by
    have hlt := (List.getElem?_eq_some_iff.mp hc).1
    rw [List.length_singleton] at hlt
    omega
  subst hi
  obtain rfl : b = c := Option.some.inj hc
  refine ⟨?_, ?_⟩
  · rw [Nat.add_zero, size_applyPatches]
    exact lt_of_lt_of_le hself.1 (le_foldl_max_reach post _)
  · rw [Nat.add_zero, applyPatches_byte_of_not_covered post _ hpost]
    exact hself.2

theorem exists_last_cover {α : Type} (patch : α → Patch) {xs : List α} {i : Nat}
    (h : ∃ x ∈ xs, (patch x).Covers i) :
    ∃ pre x post, xs = pre ++ x :: post ∧ (patch x).Covers i ∧
      ∀ y ∈ post, ¬ (patch y).Covers i := by
  induction xs with
  | nil =>
      simp at h
  | cons y ys ih =>
      by_cases hys : ∃ x ∈ ys, (patch x).Covers i
      · obtain ⟨pre, x, post, rfl, hx, hpost⟩ := ih hys
        exact ⟨y :: pre, x, post, rfl, hx, hpost⟩
      · obtain ⟨x, hx, hcov⟩ := h
        rcases List.mem_cons.mp hx with rfl | hx
        · exact ⟨[], x, ys, rfl, hcov, fun z hz hzc => hys ⟨z, hz, hzc⟩⟩
        · exact absurd ⟨x, hx, hcov⟩ hys

section Filter

variable {α : Type} (patch : α → Patch) (keep : α → Bool) (f : ByteFile)

/-- Every byte of a dropped write is overwritten later, or is what the kept writes leave. -/
def DropsNothing (xs : List α) : Prop :=
  ∀ pre x post, xs = pre ++ x :: post → keep x = false →
    ∀ k b, (patch x).data[k]? = some b →
      (∃ y ∈ post, (patch y).Covers ((patch x).offset + k)) ∨
        (applyPatches f ((xs.filter keep).map patch)).Holds ((patch x).offset + k) [b]

variable {patch keep f}

theorem DropsNothing.holds {xs : List α} (h : DropsNothing patch keep f xs) {i : Nat}
    (hcov : ∃ x ∈ xs, (patch x).Covers i) :
    ∃ b, (applyPatches f (xs.map patch)).Holds i [b] ∧
      (applyPatches f ((xs.filter keep).map patch)).Holds i [b] := by
  obtain ⟨pre, x, post, hxs, hx, hpost⟩ := exists_last_cover patch hcov
  obtain ⟨k, rfl⟩ := Nat.exists_eq_add_of_le hx.1
  have hlt : k < (patch x).data.length := by
    have hlt := hx.2
    omega
  have hb := List.getElem?_eq_getElem hlt
  have hlast : ∀ q ∈ post.map patch, ¬ q.Covers ((patch x).offset + k) := by
    intro q hq
    obtain ⟨y, hy, rfl⟩ := List.mem_map.mp hq
    exact hpost y hy
  refine ⟨(patch x).data[k], ?_, ?_⟩
  · rw [hxs, List.map_append, List.map_cons]
    exact holds_applyPatches_last hb hlast f
  · cases hkeep : keep x with
    | false =>
        rcases h pre x post hxs hkeep k _ hb with ⟨y, hy, hcov⟩ | hholds
        · exact absurd hcov (hpost y hy)
        · exact hholds
    | true =>
        rw [hxs, List.filter_append, List.filter_cons_of_pos hkeep, List.map_append,
          List.map_cons]
        refine holds_applyPatches_last hb (fun q hq => hlast q ?_) f
        exact List.map_subset patch List.filter_sublist.subset hq

/-- **Writes that may be dropped.** -/
theorem applyPatches_filter_iff (xs : List α) :
    applyPatches f (xs.map patch) = applyPatches f ((xs.filter keep).map patch) ↔
      DropsNothing patch keep f xs := by
  constructor
  · intro heq pre x post hxs _ k b hb
    by_cases hcov : ∃ y ∈ post, (patch y).Covers ((patch x).offset + k)
    · exact Or.inl hcov
    · right
      rw [← heq, hxs, List.map_append, List.map_cons]
      refine holds_applyPatches_last hb (fun q hq => ?_) f
      obtain ⟨y, hy, rfl⟩ := List.mem_map.mp hq
      exact fun hc => hcov ⟨y, hy, hc⟩
  · intro h
    apply ByteFile.ext
    · apply le_antisymm
      · obtain ⟨hfile, -⟩ := (size_applyPatches_le_iff ((xs.filter keep).map patch) f _).mp le_rfl
        refine (size_applyPatches_le_iff _ _ _).mpr ⟨hfile, fun p hp => ?_⟩
        obtain ⟨x, hx, rfl⟩ := List.mem_map.mp hp
        rw [Patch.reach]
        split_ifs with hnil
        · exact Nat.zero_le _
        · have hpos := List.length_pos_of_ne_nil hnil
          obtain ⟨b, -, hholds⟩ := h.holds
            (i := (patch x).offset + ((patch x).data.length - 1))
            ⟨x, hx, Nat.le_add_right _ _, by omega⟩
          have hlt := (hholds 0 b rfl).1
          omega
      · obtain ⟨hfile, hreach⟩ := (size_applyPatches_le_iff (xs.map patch) f _).mp le_rfl
        refine (size_applyPatches_le_iff _ _ _).mpr ⟨hfile, fun p hp => hreach p ?_⟩
        exact List.map_subset patch List.filter_sublist.subset hp
    · funext i
      by_cases hcov : ∃ x ∈ xs, (patch x).Covers i
      · obtain ⟨b, hall, hkept⟩ := h.holds hcov
        exact ((hall 0 b rfl).2).trans ((hkept 0 b rfl).2).symm
      · have hnone : ∀ ys : List α, ys ⊆ xs → ∀ p ∈ ys.map patch, ¬ p.Covers i := by
          intro ys hys p hp hc
          obtain ⟨y, hy, rfl⟩ := List.mem_map.mp hp
          exact hcov ⟨y, hys hy, hc⟩
        rw [applyPatches_byte_of_not_covered _ _ (hnone xs (List.Subset.refl xs)),
          applyPatches_byte_of_not_covered _ _ (hnone _ List.filter_sublist.subset)]

end Filter

end Storage
end Rfsck
