import Rfsck.Undo.Layout

/-!
# The ledger of a session

What the undo manager is for, without its file format: before bytes of the device change, the
undo blocks they lie in are entered into a ledger.

* `Ledger.SaveStep` is what may happen for one undo block: it is known already, its content is
  saved (`Saves`: as a new extent, or as part of the last one), or it lies behind the end of
  the device and is marked without content.
* `Ledger.Keeps` says that the ledger has the content that the device had at the beginning.
  It holds along every sequence of steps and changes of marked blocks, for an offset that is a
  multiple of the undo block size.
* `Ledger.Keeps.restores`: writing the extents back, in any order, gives that content again.
-/

namespace Rfsck
namespace Undo

open Storage

/-- Saved bytes become a new extent behind the others, or part of the last one. -/
inductive Saves (bs : Nat) : List Extent → Nat → Bytes → List Extent → Prop
  | new (last : List Extent) (backing : Nat) (saved : Bytes) :
      Saves bs last backing saved (last ++ [⟨backing, saved⟩])
  | longer {fsblk backing : Nat} {data : Bytes} (init : List Extent) (saved : Bytes)
      (behind : backing * bs = fsblk * bs + data.length) :
      Saves bs (init ++ [⟨fsblk, data⟩]) backing saved (init ++ [⟨fsblk, data ++ saved⟩])

section Saves

variable {bs backing : Nat} {es es' : List Extent} {saved : Bytes}

theorem Saves.append_left (h : Saves bs es backing saved es') (pre : List Extent) :
    Saves bs (pre ++ es) backing saved (pre ++ es') := by
  cases h with
  | new =>
      rw [← List.append_assoc]
      exact .new _ _ _
  | longer init saved behind =>
      rw [← List.append_assoc, ← List.append_assoc]
      exact .longer _ _ behind

theorem Saves.ne_nil (h : Saves bs es backing saved es') : es' ≠ [] := by
  cases h with
  | new =>
      simp
  | longer =>
      simp

theorem Saves.forall_mem (h : Saves bs es backing saved es') {P : Extent → Prop}
    (hes : ∀ e ∈ es, P e) (hnew : P ⟨backing, saved⟩)
    (hlonger : ∀ fsblk data, P ⟨fsblk, data⟩ → backing * bs = fsblk * bs + data.length →
      P ⟨fsblk, data ++ saved⟩) :
    ∀ e ∈ es', P e := by
  intro e he
  cases h with
  | new =>
      rcases List.mem_append.mp he with he | he
      · exact hes e he
      · rw [List.mem_singleton.mp he]
        exact hnew
  | longer init saved behind =>
      rcases List.mem_append.mp he with he | he
      · exact hes e (List.mem_append_left _ he)
      · rw [List.mem_singleton.mp he]
        exact hlonger _ _ (hes _ (by simp)) behind

theorem Saves.eq_new (h : Saves bs es backing saved es')
    (hapart : ∀ e ∈ es, backing * bs ≠ e.fsblk * bs + e.data.length) :
    es' = es ++ [⟨backing, saved⟩] := by
  cases h with
  | new =>
      rfl
  | longer init saved behind =>
      exact absurd behind (hapart _ (List.mem_append_right _ (List.mem_singleton_self _)))

theorem Saves.exists_mem (h : Saves bs es backing saved es') {P : Extent → Prop}
    (hlonger : ∀ fsblk data, backing * bs = fsblk * bs + data.length →
      (P ⟨fsblk, data ++ saved⟩ ↔ P ⟨fsblk, data⟩ ∨ P ⟨backing, saved⟩)) :
    (∃ e ∈ es', P e) ↔ (∃ e ∈ es, P e) ∨ P ⟨backing, saved⟩ := by
  cases h with
  | new =>
      simp only [List.mem_append, List.mem_singleton, or_and_right, exists_or, exists_eq_left]
  | longer init saved behind =>
      simp only [List.mem_append, List.mem_singleton, or_and_right, exists_or, exists_eq_left]
      rw [hlonger _ _ behind, or_assoc]

end Saves

/-- The device, the extents that are saved, and the undo blocks marked without content. -/
structure Ledger where
  device : ByteFile
  extents : List Extent
  skipped : Set Nat

def Extent.place (bs off : Nat) (e : Extent) : Nat :=
  e.fsblk * bs + off

def Extent.Has (bs T off : Nat) (e : Extent) (n : Nat) : Prop :=
  e.place bs off ≤ n * T + off % T ∧ n * T + off % T < e.place bs off + e.data.length

def Ledger.Marked (bs T off : Nat) (L : Ledger) (n : Nat) : Prop :=
  (∃ e ∈ L.extents, e.Has bs T off n) ∨ n ∈ L.skipped

/-- What may happen for an undo block. -/
inductive Ledger.SaveStep (bs T off : Nat) (L : Ledger) (n : Nat) : Ledger → Prop
  | known (marked : L.Marked bs T off n) : SaveStep bs T off L n L
  | save {backing : Nat} {es : List Extent} (fresh : ¬ L.Marked bs T off n)
      (inside : n * T + off % T + T ≤ L.device.size)
      (place : backing * bs + off = n * T + off % T)
      (saves : Saves bs L.extents backing (L.device.pread (n * T + off % T) T) es) :
      SaveStep bs T off L n { L with extents := es }
  | skip (fresh : ¬ L.Marked bs T off n) (beyond : L.device.size ≤ n * T + off % T) :
      SaveStep bs T off L n { L with skipped := insert n L.skipped }

/-- Any number of undo blocks, one after the other. -/
def Ledger.Saving (bs T off : Nat) : Ledger → Ledger → Prop :=
  Relation.ReflTransGen fun L L' => ∃ n, L.SaveStep bs T off n L'

section Steps

variable {bs T off n : Nat} {L L' : Ledger}

theorem Ledger.SaveStep.device_eq (h : L.SaveStep bs T off n L') : L'.device = L.device := by
  cases h with
  | known =>
      rfl
  | save =>
      rfl
  | skip =>
      rfl

theorem Ledger.SaveStep.saves (h : L.SaveStep bs T off n L') (hpos : 0 < T)
    (hfresh : ¬ L.Marked bs T off n) (hinside : n * T + off % T + T ≤ L.device.size) :
    ∃ backing, backing * bs + off = n * T + off % T ∧
      Saves bs L.extents backing (L.device.pread (n * T + off % T) T) L'.extents := by
  cases h with
  | known marked =>
      exact absurd marked hfresh
  | save fresh inside place saves =>
      exact ⟨_, place, saves⟩
  | skip fresh beyond =>
      omega

theorem length_pread_of_le {f : ByteFile} {position size : Nat}
    (h : position + size ≤ f.size) : (f.pread position size).length = size := by
  rw [ByteFile.length_pread]
  omega

theorem Ledger.SaveStep.marked_iff (h : L.SaveStep bs T off n L') (hpos : 0 < T) (m : Nat) :
    L'.Marked bs T off m ↔ L.Marked bs T off m ∨ m = n := by
  cases h with
  | known marked =>
      constructor
      · exact Or.inl
      · rintro (hm | rfl)
        · exact hm
        · exact marked
  | skip =>
      simp only [Marked, Set.mem_insert_iff]
      rw [or_assoc, or_comm (a := m = n)]
  | @save backing es fresh inside place saves =>
      have hlen := length_pread_of_le inside
      have hone : Extent.Has bs T off ⟨backing, L.device.pread (n * T + off % T) T⟩ m ↔
          m = n := by
        rw [Extent.Has, Extent.place, hlen, place]
        constructor
        · rintro ⟨hle, hlt⟩
          have hle : n * T ≤ m * T := by omega
          have hlt : m * T < (n + 1) * T := by
            rw [Nat.succ_mul]
            omega
          have := Nat.le_of_mul_le_mul_right hle hpos
          have := Nat.lt_of_mul_lt_mul_right hlt
          omega
        · rintro rfl
          omega
      have hex := saves.exists_mem (P := fun e => e.Has bs T off m) (by
        intro fsblk data behind
        simp only [Extent.Has, Extent.place, List.length_append, hlen]
        omega)
      show (∃ e ∈ es, _) ∨ m ∈ L.skipped ↔ _
      rw [hex, hone, Marked, or_assoc, or_assoc, or_comm (a := m = n)]

theorem Ledger.Saving.device_eq (h : L.Saving bs T off L') : L'.device = L.device := by
  induction h with
  | refl =>
      rfl
  | tail _ hstep ih =>
      obtain ⟨n, hstep⟩ := hstep
      rw [hstep.device_eq, ih]

theorem Ledger.Saving.marked (h : L.Saving bs T off L') (hpos : 0 < T) {m : Nat}
    (hm : L.Marked bs T off m) : L'.Marked bs T off m := by
  induction h with
  | refl =>
      exact hm
  | tail _ hstep ih =>
      obtain ⟨n, hstep⟩ := hstep
      exact (hstep.marked_iff hpos m).mpr (Or.inl ih)

theorem Ledger.Saving.eq_of_marked (h : L.Saving bs T off L') (hpos : 0 < T)
    (hmarks : ∀ m, L'.Marked bs T off m → L.Marked bs T off m) : L' = L := by
  induction h using Relation.ReflTransGen.head_induction_on with
  | refl =>
      rfl
  | head hstep hrest ih =>
      obtain ⟨n, hstep⟩ := hstep
      have hn := hmarks n (Saving.marked hrest hpos ((hstep.marked_iff hpos n).mpr (Or.inr rfl)))
      cases hstep with
      | known =>
          exact ih hmarks
      | save fresh =>
          exact absurd hn fresh
      | skip fresh =>
          exact absurd hn fresh

theorem Ledger.Saving.one (h : L.Saving bs T off L') (hpos : 0 < T)
    (hfresh : ¬ L.Marked bs T off n)
    (hmarks : ∀ m, L'.Marked bs T off m ↔ L.Marked bs T off m ∨ m = n) :
    L.SaveStep bs T off n L' := by
  induction h using Relation.ReflTransGen.head_induction_on with
  | refl =>
      exact absurd ((hmarks n).mpr (Or.inr rfl)) hfresh
  | @head L L₁ hstep hrest ih =>
      obtain ⟨k, hstep⟩ := hstep
      have hnew := hstep.marked_iff hpos
      by_cases hk : L.Marked bs T off k
      · have hsame : L₁ = L := by
          cases hstep with
          | known =>
              rfl
          | save fresh =>
              exact absurd hk fresh
          | skip fresh =>
              exact absurd hk fresh
        subst hsame
        exact ih hfresh hmarks
      · have hkn : k = n := by
          have hmarked := Saving.marked hrest hpos ((hnew k).mpr (Or.inr rfl))
          exact ((hmarks k).mp hmarked).resolve_left hk
        subst hkn
        have hlast := Saving.eq_of_marked hrest hpos fun m hm => (hnew m).mpr ((hmarks m).mp hm)
        rw [hlast]
        exact hstep

end Steps

/-- **The ledger has the original content.** -/
structure Ledger.Keeps (bs T off : Nat) (orig : ByteFile) (L : Ledger) : Prop where
  size_le : orig.size ≤ L.device.size
  agrees : ∀ x, ¬ L.Marked bs T off (x / T) → L.device.byte x = orig.byte x
  content : ∀ e ∈ L.extents,
    ByteFile.EachFrom (fun x v => v = orig.byte x) (e.place bs off) e.data
  inside : ∀ e ∈ L.extents, e.place bs off + e.data.length ≤ L.device.size
  whole : ∀ e ∈ L.extents, T ∣ e.place bs off ∧ T ∣ e.data.length
  skipped : ∀ n ∈ L.skipped, orig.size ≤ n * T

section Regular

variable {bs T off n : Nat} {L L' : Ledger}

/-- Every extent lies inside the device and begins with an undo block, and no block is marked
without content. -/
structure Ledger.Regular (bs T off : Nat) (L : Ledger) : Prop where
  inside : ∀ e ∈ L.extents, e.place bs off + e.data.length ≤ L.device.size
  based : ∀ e ∈ L.extents, ∃ m, e.place bs off = m * T + off % T
  skipped : L.skipped = ∅

theorem Ledger.regular_nil (bs T off : Nat) (dev : ByteFile) : Regular bs T off ⟨dev, [], ∅⟩ := by
  refine ⟨?_, ?_, rfl⟩
  · intro e he
    simp at he
  · intro e he
    simp at he

theorem Ledger.Saving.regular (h : L.Saving bs T off L') (hpos : 0 < T)
    (hinside : ∀ n, L'.Marked bs T off n → ¬ L.Marked bs T off n → n * T + off % T < L.device.size)
    (hregular : L.Regular bs T off) : L'.Regular bs T off := by
  induction h using Relation.ReflTransGen.head_induction_on with
  | refl =>
      exact hregular
  | @head L L₁ hstep hrest ih =>
      obtain ⟨n, hstep⟩ := hstep
      have hn : L'.Marked bs T off n :=
        Saving.marked hrest hpos ((hstep.marked_iff hpos n).mpr (Or.inr rfl))
      refine ih ?_ ?_
      · intro m hm hm'
        rw [hstep.device_eq]
        exact hinside m hm fun hold => hm' ((hstep.marked_iff hpos m).mpr (Or.inl hold))
      · cases hstep with
        | known =>
            exact hregular
        | skip fresh beyond =>
            have hlt := hinside n hn fresh
            omega
        | @save backing es fresh inside place saves =>
            have hlen := length_pread_of_le inside
            refine ⟨?_, ?_, hregular.skipped⟩
            · refine saves.forall_mem hregular.inside ?_ ?_
              · rw [Extent.place, place, hlen]
                exact inside
              · intro fsblk data _ behind
                rw [Extent.place, List.length_append, hlen]
                show fsblk * bs + off + (data.length + T) ≤ L.device.size
                omega
            · refine saves.forall_mem hregular.based ⟨n, place⟩ ?_
              intro fsblk data hbased _
              exact hbased

theorem Ledger.Regular.change (h : L.Regular bs T off) {dev : ByteFile}
    (hsize : L.device.size ≤ dev.size) : Regular bs T off { L with device := dev } :=
  ⟨fun e he => le_trans (h.inside e he) hsize, h.based, h.skipped⟩

/-- The marked blocks begin inside the device. -/
theorem Ledger.Regular.lt_of_marked (h : L.Regular bs T off) (hn : L.Marked bs T off n) :
    n * T + off % T < L.device.size := by
  rcases hn with ⟨e, he, -, hlt⟩ | hskip
  · have hinside := h.inside e he
    omega
  · rw [h.skipped] at hskip
    exact absurd hskip (Set.notMem_empty n)

end Regular

section Keeps

variable {bs T off n : Nat} {orig : ByteFile} {L L' : Ledger}

theorem Ledger.keeps_nil (bs T off : Nat) (orig : ByteFile) :
    Keeps bs T off orig ⟨orig, [], ∅⟩ := by
  refine ⟨le_refl _, fun x _ => rfl, ?_, ?_, ?_, ?_⟩
  · intro e he
    simp at he
  · intro e he
    simp at he
  · intro e he
    simp at he
  · intro n hn
    simp at hn

theorem Ledger.Keeps.eachFrom_pread (h : L.Keeps bs T off orig) (hpos : 0 < T)
    (hn : ¬ L.Marked bs T off n) :
    ByteFile.EachFrom (fun x v => v = orig.byte x) (n * T) (L.device.pread (n * T) T) := by
  intro k v hv
  rw [ByteFile.getElem?_pread] at hv
  split_ifs at hv with hk
  cases hv
  refine h.agrees _ ?_
  have hblock : (n * T + k) / T = n := by
    rw [Nat.mul_comm, Nat.mul_add_div hpos, Nat.div_eq_of_lt (by omega), Nat.add_zero]
  rwa [hblock]

/-- **A step keeps it.** -/
theorem Ledger.SaveStep.keeps (hstep : L.SaveStep bs T off n L') (h : L.Keeps bs T off orig)
    (hpos : 0 < T) (hoff : T ∣ off) : L'.Keeps bs T off orig := by
  have hmarked := hstep.marked_iff hpos
  have hagrees : ∀ x, ¬ L'.Marked bs T off (x / T) → L'.device.byte x = orig.byte x := by
    intro x hx
    rw [hstep.device_eq]
    exact h.agrees x fun hold => hx ((hmarked _).mpr (Or.inl hold))
  have hzero : off % T = 0 := Nat.mod_eq_zero_of_dvd hoff
  cases hstep with
  | known =>
      exact h
  | skip fresh beyond =>
      refine ⟨h.size_le, hagrees, h.content, h.inside, h.whole, ?_⟩
      intro m hm
      rcases hm with rfl | hm
      · have hsize := h.size_le
        omega
      · exact h.skipped m hm
  | @save backing es fresh inside place saves =>
      rw [hzero, Nat.add_zero] at inside place saves
      have hlen := length_pread_of_le inside
      refine ⟨h.size_le, hagrees, ?_, ?_, ?_, h.skipped⟩
      · refine saves.forall_mem h.content ?_ ?_
        · rw [Extent.place, place]
          exact h.eachFrom_pread hpos fresh
        · intro fsblk data hdata behind
          refine hdata.append ?_
          rw [Extent.place, Nat.add_right_comm, ← behind, place]
          exact h.eachFrom_pread hpos fresh
      · refine saves.forall_mem h.inside ?_ ?_
        · rw [Extent.place, place, hlen]
          exact inside
        · intro fsblk data _ behind
          rw [Extent.place, List.length_append, hlen]
          show fsblk * bs + off + (data.length + T) ≤ L.device.size
          omega
      · refine saves.forall_mem h.whole ?_ ?_
        · rw [Extent.place, place, hlen]
          exact ⟨Dvd.intro_left n rfl, dvd_refl T⟩
        · rintro fsblk data ⟨hplace, hdata⟩ -
          refine ⟨hplace, ?_⟩
          rw [List.length_append, hlen]
          exact (Nat.dvd_add_right hdata).mpr (dvd_refl T)

theorem Ledger.Saving.keeps (hrun : L.Saving bs T off L') (h : L.Keeps bs T off orig)
    (hpos : 0 < T) (hoff : T ∣ off) : L'.Keeps bs T off orig := by
  induction hrun with
  | refl =>
      exact h
  | tail _ hstep ih =>
      obtain ⟨n, hstep⟩ := hstep
      exact hstep.keeps ih hpos hoff

/-- **A change of marked blocks keeps it.** -/
theorem Ledger.Keeps.change (h : L.Keeps bs T off orig) {dev : ByteFile}
    (hsize : L.device.size ≤ dev.size)
    (hbytes : ∀ x, dev.byte x ≠ L.device.byte x → L.Marked bs T off (x / T)) :
    Keeps bs T off orig { L with device := dev } := by
  refine ⟨le_trans h.size_le hsize, ?_, h.content, fun e he => le_trans (h.inside e he) hsize,
    h.whole, h.skipped⟩
  intro x hx
  show dev.byte x = orig.byte x
  rw [← h.agrees x hx]
  by_contra hne
  exact hx (hbytes x hne)

theorem Ledger.Keeps.covers (h : L.Keeps bs T off orig) (hpos : 0 < T) (hoff : T ∣ off)
    {e : Extent} (he : e ∈ L.extents) {x : Nat} (hx : e.Has bs T off (x / T)) :
    e.place bs off ≤ x ∧ x < e.place bs off + e.data.length := by
  obtain ⟨⟨q, hq⟩, r, hr⟩ := h.whole e he
  obtain ⟨hle, hlt⟩ := hx
  rw [Nat.mod_eq_zero_of_dvd hoff, Nat.add_zero] at hle hlt
  have hmod := Nat.div_add_mod x T
  have hbound := Nat.mod_lt x hpos
  rw [hq, hr, ← Nat.mul_add, Nat.mul_comm (x / T)] at hlt
  have hlt := Nat.lt_of_mul_lt_mul_left hlt
  have hnext : T * (x / T + 1) ≤ T * (q + r) := Nat.mul_le_mul_left T hlt
  rw [Nat.mul_comm (x / T)] at hle
  rw [Nat.mul_add, Nat.mul_add, Nat.mul_one] at hnext
  omega

theorem Ledger.Keeps.has_of_covers (h : L.Keeps bs T off orig) (hoff : T ∣ off) {e : Extent}
    (he : e ∈ L.extents) {x : Nat} (hle : e.place bs off ≤ x)
    (hlt : x < e.place bs off + e.data.length) : e.Has bs T off (x / T) := by
  obtain ⟨q, hq⟩ := (h.whole e he).1
  have hdiv := Nat.div_mul_le_self x T
  rw [Extent.Has, Nat.mod_eq_zero_of_dvd hoff, Nat.add_zero]
  refine ⟨?_, by omega⟩
  rw [hq, Nat.mul_comm T q] at hle ⊢
  rcases Nat.eq_zero_or_pos T with hzero | hpos
  · rw [hzero, Nat.mul_zero]
    exact Nat.zero_le _
  · exact Nat.mul_le_mul_right T ((Nat.le_div_iff_mul_le hpos).mpr hle)

theorem Ledger.Keeps.saved (h : L.Keeps bs T off orig) (hpos : 0 < T) (hoff : T ∣ off) {x : Nat}
    (hx : x < orig.size) (hmarked : L.Marked bs T off (x / T)) :
    ∃ e ∈ L.extents, e.place bs off ≤ x ∧ x < e.place bs off + e.data.length := by
  rcases hmarked with ⟨e, he, hhas⟩ | hskip
  · exact ⟨e, he, h.covers hpos hoff he hhas⟩
  · have hsize := h.skipped _ hskip
    have hle := Nat.div_mul_le_self x T
    omega

def Extent.patch (bs off : Nat) (e : Extent) : Patch where
  offset := e.place bs off
  data := e.data

/-- **Writing the extents back restores the original content**, in any order, if the device
has kept its size. -/
theorem Ledger.Keeps.restores (h : L.Keeps bs T off orig) (hpos : 0 < T) (hoff : T ∣ off)
    (hsize : L.device.size = orig.size) {ps : List Patch}
    (hps : ∀ p, p ∈ ps ↔ ∃ e ∈ L.extents, e.patch bs off = p) :
    applyPatches L.device ps = orig := by
  have hheld : ∀ p ∈ ps, orig.Holds p.offset p.data := by
    intro p hp i v hv
    obtain ⟨e, he, rfl⟩ := (hps p).mp hp
    have hlt := (List.getElem?_eq_some_iff.mp hv).1
    have hinside := h.inside e he
    exact ⟨by change e.place bs off + i < _; change i < e.data.length at hlt; omega,
      (h.content e he i v hv).symm⟩
  refine applyPatches_eq_of_holds hsize hheld ?_
  intro x hx
  by_cases hmarked : L.Marked bs T off (x / T)
  · by_cases hlt : x < orig.size
    · obtain ⟨e, he, hle, hlt⟩ := h.saved hpos hoff hlt hmarked
      exact absurd ⟨hle, hlt⟩ (hx _ ((hps _).mpr ⟨e, he, rfl⟩))
    · rw [L.device.byte_eq_zero x (by omega), orig.byte_eq_zero x (by omega)]
  · exact h.agrees x hmarked

end Keeps

end Undo
end Rfsck
