import Rfsck.Storage.ByteFile

/-!
# System-call traces and power failures

A program that writes several files leaves a trace of positioned writes and
flushes.  The content of a file after the trace is obtained by applying its own
writes in order.

**Power failure.**  At the moment of the failure any subset of the writes to a
file that were issued since the last flush of that file is lost; what was
issued before that flush is on the medium.  A `kept` predicate on trace
positions selects the writes that survive, and it is admissible when it selects
everything before a flush of the file.

**Results.**  `crashImage_snoc_pwrite`, `crashImage_snoc_fsync` and
`crashImage_snoc_other` describe the possible contents of the medium one system
call at a time, which is the form in which invariants over all failures are
proved.
-/

namespace Rfsck
namespace Storage

universe u

/-- A system call that took effect, on the file named by `fd`. -/
inductive Event (ι : Type u) where
  | pwrite (fd : ι) (offset : Nat) (data : Bytes)
  | fsync (fd : ι)
deriving DecidableEq

section Trace

variable {ι : Type u} [DecidableEq ι]

/-- Effect of one event on the content of the file `fd`. -/
def applyEvent (fd : ι) (f : ByteFile) : Event ι → ByteFile
  | .pwrite fd' off data => if fd' = fd then f.pwrite off data else f
  | .fsync _ => f

/-- Content of the file `fd` after a trace. -/
def applyEvents (fd : ι) (f : ByteFile) (tr : List (Event ι)) : ByteFile :=
  tr.foldl (applyEvent fd) f

@[simp] theorem applyEvents_nil (fd : ι) (f : ByteFile) :
    applyEvents fd f [] = f := by
  rfl

@[simp] theorem applyEvents_append
    (fd : ι) (f : ByteFile) (xs ys : List (Event ι)) :
    applyEvents fd f (xs ++ ys) = applyEvents fd (applyEvents fd f xs) ys := by
  simp [applyEvents]

@[simp] theorem applyEvents_cons
    (fd : ι) (f : ByteFile) (e : Event ι) (tr : List (Event ι)) :
    applyEvents fd f (e :: tr) = applyEvents fd (applyEvent fd f e) tr := by
  rfl

@[simp] theorem applyEvent_pwrite_self
    (fd : ι) (f : ByteFile) (off : Nat) (data : Bytes) :
    applyEvent fd f (.pwrite fd off data) = f.pwrite off data := by
  simp [applyEvent]

theorem applyEvent_pwrite_other
    {fd fd' : ι} (h : fd' ≠ fd)
    (f : ByteFile) (off : Nat) (data : Bytes) :
    applyEvent fd f (.pwrite fd' off data) = f := by
  simp [applyEvent, h]

@[simp] theorem applyEvent_fsync
    (fd fd' : ι) (f : ByteFile) :
    applyEvent fd f (.fsync fd') = f := by
  rfl

/-- Positions of the trace whose writes must have reached the medium. -/
def Admissible (fd : ι) (tr : List (Event ι)) (kept : Nat → Bool) : Prop :=
  ∀ i j, i < j → tr[j]? = some (.fsync fd) → kept i = true

/-- Content of the medium when exactly the kept events of the trace survive;
`n` is the position of the first event of the list. -/
def imageFrom (fd : ι) (kept : Nat → Bool) :
    Nat → ByteFile → List (Event ι) → ByteFile
  | _, f, [] => f
  | n, f, e :: tr =>
      imageFrom fd kept (n + 1) (if kept n then applyEvent fd f e else f) tr

theorem imageFrom_append
    (fd : ι) (kept : Nat → Bool)
    (xs ys : List (Event ι)) (n : Nat) (f : ByteFile) :
    imageFrom fd kept n f (xs ++ ys) =
      imageFrom fd kept (n + xs.length) (imageFrom fd kept n f xs) ys := by
  induction xs generalizing n f with
  | nil =>
      rfl
  | cons e xs ih =>
      rw [List.cons_append, imageFrom, ih, imageFrom, List.length_cons]
      congr 1
      omega

theorem imageFrom_congr
    (fd : ι) (kept kept' : Nat → Bool) (tr : List (Event ι)) (n : Nat)
    (h : ∀ i, i < n + tr.length → kept i = kept' i) (f : ByteFile) :
    imageFrom fd kept n f tr = imageFrom fd kept' n f tr := by
  induction tr generalizing n f with
  | nil =>
      rfl
  | cons e tr ih =>
      rw [List.length_cons] at h
      rw [imageFrom, imageFrom, h n (by omega)]
      exact ih (n + 1) (fun i hi => h i (by omega)) _

theorem imageFrom_all_kept
    (fd : ι) {kept : Nat → Bool} (tr : List (Event ι)) (n : Nat)
    (h : ∀ i, i < n + tr.length → kept i = true) (f : ByteFile) :
    imageFrom fd kept n f tr = applyEvents fd f tr := by
  induction tr generalizing n f with
  | nil =>
      rfl
  | cons e tr ih =>
      rw [List.length_cons] at h
      rw [imageFrom, h n (by omega), applyEvents_cons]
      exact ih (n + 1) (fun i hi => h i (by omega)) _

omit [DecidableEq ι] in
theorem Admissible.of_append
    {fd : ι} {xs ys : List (Event ι)} {kept : Nat → Bool}
    (h : Admissible fd (xs ++ ys) kept) :
    Admissible fd xs kept := by
  intro i j hij hj
  have hlt : j < xs.length := (List.getElem?_eq_some_iff.mp hj).1
  exact h i j hij (by rw [List.getElem?_append_left hlt]; exact hj)

/-- `g` may be the content of the medium if the power fails after the trace. -/
def CrashImage
    (fd : ι) (f : ByteFile) (tr : List (Event ι)) (g : ByteFile) : Prop :=
  ∃ kept, Admissible fd tr kept ∧ g = imageFrom fd kept 0 f tr

theorem crashImage_current
    (fd : ι) (f : ByteFile) (tr : List (Event ι)) :
    CrashImage fd f tr (applyEvents fd f tr) := by
  refine ⟨fun _ => true, fun _ _ _ _ => rfl, ?_⟩
  rw [imageFrom_all_kept]
  intro i _
  rfl

@[simp] theorem crashImage_nil
    (fd : ι) (f g : ByteFile) :
    CrashImage fd f [] g ↔ g = f := by
  constructor
  · rintro ⟨kept, _, hg⟩
    exact hg
  · rintro rfl
    exact crashImage_current fd g []

theorem crashImage_snoc
    (fd : ι) (f g : ByteFile) (tr : List (Event ι)) {e : Event ι}
    (he : e ≠ .fsync fd) :
    CrashImage fd f (tr ++ [e]) g ↔
      CrashImage fd f tr g ∨
        ∃ g', CrashImage fd f tr g' ∧ g = applyEvent fd g' e := by
  constructor
  · rintro ⟨kept, hadm, hg⟩
    rw [imageFrom_append, imageFrom, imageFrom] at hg
    rw [Nat.zero_add] at hg
    cases hk : kept tr.length with
    | false =>
        left
        refine ⟨kept, hadm.of_append, ?_⟩
        simpa [hk] using hg
    | true =>
        right
        refine ⟨_, ⟨kept, hadm.of_append, rfl⟩, ?_⟩
        simpa [hk] using hg
  · intro h
    -- the choice for the new position is free: it lies before no flush
    have hchoice : ∀ (kept : Nat → Bool) (b : Bool),
        Admissible fd tr kept →
        Admissible fd (tr ++ [e])
            (fun i => if i < tr.length then kept i else b) ∧
          imageFrom fd (fun i => if i < tr.length then kept i else b) 0 f (tr ++ [e]) =
            if b then applyEvent fd (imageFrom fd kept 0 f tr) e
            else imageFrom fd kept 0 f tr := by
      intro kept b hadm
      constructor
      · intro i j hij hj
        have hjlt : j < tr.length := by
          by_contra hge
          rw [List.getElem?_append_right (by omega)] at hj
          cases hsub : j - tr.length with
          | zero =>
              rw [hsub] at hj
              exact he (Option.some.inj hj)
          | succ m =>
              rw [hsub] at hj
              simp at hj
        rw [List.getElem?_append_left hjlt] at hj
        simp only [show i < tr.length by omega, if_true]
        exact hadm i j hij hj
      · rw [imageFrom_append, Nat.zero_add, imageFrom, imageFrom]
        rw [imageFrom_congr fd _ kept tr 0 (fun i hi => by
          simp only [show i < tr.length by omega, if_true])]
        simp
    rcases h with ⟨kept, hadm, hg⟩ | ⟨g', ⟨kept, hadm, hg'⟩, hg⟩
    · obtain ⟨h1, h2⟩ := hchoice kept false hadm
      exact ⟨_, h1, by rw [h2]; simpa using hg⟩
    · obtain ⟨h1, h2⟩ := hchoice kept true hadm
      exact ⟨_, h1, by rw [h2, hg, hg']; simp⟩

theorem crashImage_snoc_pwrite
    (fd : ι) (f g : ByteFile) (tr : List (Event ι))
    (off : Nat) (data : Bytes) :
    CrashImage fd f (tr ++ [.pwrite fd off data]) g ↔
      CrashImage fd f tr g ∨
        ∃ g', CrashImage fd f tr g' ∧ g = g'.pwrite off data := by
  rw [crashImage_snoc fd f g tr (by simp)]
  simp

theorem crashImage_snoc_other
    (fd : ι) (f g : ByteFile) (tr : List (Event ι)) {e : Event ι}
    (he : e ≠ .fsync fd) (hid : ∀ h, applyEvent fd h e = h) :
    CrashImage fd f (tr ++ [e]) g ↔ CrashImage fd f tr g := by
  rw [crashImage_snoc fd f g tr he]
  constructor
  · rintro (h | ⟨g', h, rfl⟩)
    · exact h
    · rw [hid]
      exact h
  · exact Or.inl

theorem crashImage_snoc_fsync
    (fd : ι) (f g : ByteFile) (tr : List (Event ι)) :
    CrashImage fd f (tr ++ [.fsync fd]) g ↔ g = applyEvents fd f tr := by
  constructor
  · rintro ⟨kept, hadm, hg⟩
    have hall : ∀ i, i < 0 + tr.length → kept i = true := by
      intro i hi
      exact hadm i tr.length (by omega) (by simp)
    rw [imageFrom_append, imageFrom_all_kept fd tr 0 hall, imageFrom, imageFrom] at hg
    simpa using hg
  · rintro rfl
    have h := crashImage_current fd f (tr ++ [.fsync fd])
    simpa using h

section Invariant

variable {fd : ι} {f : ByteFile} {tr : List (Event ι)} {P : ByteFile → Prop}

/-- What all possible contents of the medium satisfy, and the next event keeps, they
satisfy behind that event. -/
theorem forall_crashImage_snoc
    (h : ∀ g, CrashImage fd f tr g → P g) {e : Event ι}
    (he : ∀ g, P g → P (applyEvent fd g e)) :
    ∀ g, CrashImage fd f (tr ++ [e]) g → P g := by
  intro g hg
  by_cases hsync : e = .fsync fd
  · subst hsync
    rw [crashImage_snoc_fsync] at hg
    rw [hg]
    exact h _ (crashImage_current fd f tr)
  · rcases (crashImage_snoc fd f g tr hsync).mp hg with hold | ⟨g', hg', rfl⟩
    · exact h g hold
    · exact he g' (h g' hg')

/-- **Invariants over all failures**: whenever the power fails while the events `es` are
under way. -/
theorem forall_crashImage_take
    {es : List (Event ι)} (h : ∀ g, CrashImage fd f tr g → P g)
    (hes : ∀ e ∈ es, ∀ g, P g → P (applyEvent fd g e)) (k : Nat) :
    ∀ g, CrashImage fd f (tr ++ es.take k) g → P g := by
  induction es generalizing tr k with
  | nil =>
      rw [List.take_nil, List.append_nil]
      exact h
  | cons e es ih =>
      cases k with
      | zero =>
          rw [List.take_zero, List.append_nil]
          exact h
      | succ k =>
          have hnext := ih (forall_crashImage_snoc h (hes e (by simp)))
            (fun e' he' => hes e' (List.mem_cons_of_mem e he')) k
          rw [List.append_assoc] at hnext
          exact hnext

theorem forall_crashImage_start
    {es : List (Event ι)} (h : P f)
    (hes : ∀ e ∈ es, ∀ g, P g → P (applyEvent fd g e)) (k : Nat) :
    ∀ g, CrashImage fd f (es.take k) g → P g := by
  have hnil : ∀ g, CrashImage fd f [] g → P g := by
    intro g hg
    rw [(crashImage_nil fd f g).mp hg]
    exact h
  exact forall_crashImage_take hnil hes k

theorem forall_crashImage_append
    {es : List (Event ι)} (h : ∀ g, CrashImage fd f tr g → P g)
    (hes : ∀ e ∈ es, ∀ g, P g → P (applyEvent fd g e)) :
    ∀ g, CrashImage fd f (tr ++ es) g → P g := by
  have hall := forall_crashImage_take h hes es.length
  rw [List.take_length] at hall
  exact hall

end Invariant

end Trace

end Storage
end Rfsck
