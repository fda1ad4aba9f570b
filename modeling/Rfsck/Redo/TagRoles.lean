import Rfsck.Redo.FailedRecovery

/-!
# What the replay takes a tag for

Begin tags, end tags, tags of data and unused slots share one record.  `rfsck_replay` tells
them apart by zero tests on the three fields and by the transaction id that it has kept from
the last begin tag.

* `Role`: what a call means its tag to be; `slotRole`: what a replay takes a slot for.
* `tagRole` and `nextTxn`: one step of this reading, as a function of the kept id.
* `Call.Fits`: the condition under which the tag of a call is read as it was meant.
* `roles_kept_iff`: all tags of a run are read as they were meant, if and only if every call
  meets the condition in its state.

The condition fails for an empty write, as the checksum of no bytes is not zero, and for the
id zero, which the library has after a replay and after `2 ^ 32` transactions.
-/

namespace Rfsck
namespace Redo

open Storage

/-- The kinds of tags in use. -/
inductive Role where
  | begins
  | ends
  | data
deriving DecidableEq, Repr

/-- The kind that a case of the replay stands for. -/
def TagKind.role : TagKind → Option Role
  | .unused => none
  | .beginTag => some .begins
  | .markedBegin => some .begins
  | .endTag => some .ends
  | .skippedEnd => some .ends
  | .dataTag => some .data
  | .skippedData => some .data

section Reading

/-- The kind of a tag, when the replay has kept the id `id`. -/
def tagRole (id : UInt32) (t : RedoBlockTag) : Option Role :=
  if t.size = 0 ∧ t.blkCrc = 0 ∧ t.offset = 0 then
    none
  else if t.IsEdge then
    if id = 0 then some .begins else some .ends
  else
    some .data

/-- The id that the replay keeps behind a tag. -/
def nextTxn (id : UInt32) (t : RedoBlockTag) : UInt32 :=
  if t.IsEdge then
    if id = 0 then t.blkCrc else 0
  else
    id

variable {t : RedoBlockTag}

theorem tagKind_of_not_edge (h : ¬ t.IsEdge)
    (hused : ¬ (t.size = 0 ∧ t.blkCrc = 0 ∧ t.offset = 0)) (id : UInt32) (isReplayed : Bool) :
    tagKind id isReplayed t = if isReplayed then .skippedData else .dataTag := by
  rw [tagKind, if_neg hused, if_neg (fun hedge => h ⟨hedge.1, UInt32.pos_iff_ne_zero.mp hedge.2⟩)]

theorem role_tagKind (id : UInt32) (isReplayed : Bool) (t : RedoBlockTag) :
    (tagKind id isReplayed t).role = tagRole id t := by
  by_cases hused : t.size = 0 ∧ t.blkCrc = 0 ∧ t.offset = 0
  · rw [tagKind, tagRole, if_pos hused, if_pos hused]
    rfl
  rw [tagRole, if_neg hused]
  by_cases hedge : t.IsEdge
  · rw [tagKind_edge hedge, if_pos hedge]
    split_ifs <;> rfl
  · rw [tagKind_of_not_edge hedge hused, if_neg hedge]
    split_ifs <;> rfl

theorem txnId_step (crc : Bytes → UInt32) (T : Nat → RedoBlockTag) (i : Nat) (w : Walk) :
    (w.step crc T i).txnId = nextTxn w.txnId (T i) := by
  rw [Walk.step]
  by_cases hedge : (T i).IsEdge
  · rw [tagKind_edge hedge, nextTxn, if_pos hedge]
    split_ifs <;> rfl
  · rw [nextTxn, if_neg hedge]
    by_cases hused : (T i).size = 0 ∧ (T i).blkCrc = 0 ∧ (T i).offset = 0
    · rw [tagKind, if_pos hused]
    · rw [tagKind_of_not_edge hedge hused]
      split_ifs <;> rfl

theorem txnId_run (crc : Bytes → UInt32) (o : Nat → Nat) (T : Nat → RedoBlockTag) (n i : Nat)
    (w : Walk) :
    (Walk.run crc o T n i w).txnId = (slice T i n).foldl nextTxn w.txnId := by
  induction n generalizing i w with
  | zero =>
      rfl
  | succ n ih =>
      have henter : (w.enter o i).txnId = w.txnId := by
        rw [Walk.enter]
        split_ifs <;> rfl
      rw [Walk.run, ih, slice_succ, List.foldl_cons, txnId_step, henter]

theorem nextTxn_marked (h : t.IsEdge) (id : UInt32) : nextTxn id t.marked = nextTxn id t := by
  rw [nextTxn, nextTxn, if_pos h, if_pos (show t.marked.IsEdge from h)]
  rfl

theorem tagRole_marked (h : t.IsEdge) (id : UInt32) : tagRole id t.marked = tagRole id t := by
  have hmarked : t.marked.IsEdge := h
  have hused : ∀ u : RedoBlockTag, u.IsEdge → ¬ (u.size = 0 ∧ u.blkCrc = 0 ∧ u.offset = 0) :=
    fun u hu hempty => hu.2 hempty.2.1
  rw [tagRole, tagRole, if_neg (hused _ hmarked), if_neg (hused _ h), if_pos hmarked, if_pos h]

/-- Every tag is read as the kind that stands with it. -/
def Treated : UInt32 → List (Role × Entry) → Prop
  | _, [] => True
  | id, p :: ps => tagRole id p.2.tag = some p.1 ∧ Treated (nextTxn id p.2.tag) ps

theorem treated_iff (id : UInt32) (ps : List (Role × Entry)) :
    Treated id ps ↔ ∀ g p, ps[g]? = some p →
      tagRole (((ps.take g).map (fun p => p.2.tag)).foldl nextTxn id) p.2.tag = some p.1 := by
  induction ps generalizing id with
  | nil =>
      simp [Treated]
  | cons q ps ih =>
      rw [Treated, ih]
      constructor
      · rintro ⟨hq, hps⟩ g p hp
        cases g with
        | zero =>
            obtain rfl : q = p := Option.some.inj hp
            exact hq
        | succ g =>
            exact hps g p hp
      · intro h
        exact ⟨h 0 q rfl, fun g p hp => h (g + 1) p hp⟩

end Reading

section Calls

variable (crc : Bytes → UInt32)

/-- The kind of a slot for a replay of the log of a state. -/
def slotRole (s : State) (g : Nat) : Option Role :=
  let w := Walk.run crc (loadedPlace crc s) (streamOf (loadedKeyb crc s)) g 0 (Walk.start s.out)
  (tagKind w.txnId w.isReplayed (streamOf (loadedKeyb crc s) g)).role

/-- The entry that a call adds to the log, with the kind that it means. -/
def Call.emits : Call → State → List (Role × Entry)
  | .txnBegin, s => [(.begins, Entry.edge 0 s.data.txnId)]
  | .write req, _ => [(.data, req.entry crc)]
  | .txnEnd, s => [(.ends, Entry.edge (s.data.endCsum crc).toUInt64 s.data.txnId)]
  | .flush, _ => []
  | .markDone _, _ => []
  | .replay _, _ => []

def emitted : List Call → State → List (Role × Entry)
  | [], _ => []
  | c :: cs, s => c.emits crc s ++ emitted cs (c.run crc s).2

/-- A write that one system call can do. -/
def Call.Whole : Call → Prop
  | .write req => req.Whole
  | _ => True

/-- The condition on a call: no transaction is open at a begin and one is open at an end, the
id is not zero, and a write has data.  The last is needed because the checksum of no bytes is
not zero. -/
def Call.Fits (inTxn : Bool) (s : State) : Call → Prop
  | .txnBegin => inTxn = false ∧ s.data.txnId ≠ 0
  | .write req => req.buf ≠ [] ∨ crc [] = 0 ∧ req.offset ≠ 0
  | .txnEnd => inTxn = true ∧ s.data.txnId ≠ 0
  | _ => True

/-- Whether a transaction is open behind a call. -/
def Call.inTxn (inTxn : Bool) : Call → Bool
  | .txnBegin => true
  | .txnEnd => false
  | _ => inTxn

/-- Every call of a run meets the condition in its state. -/
def FitsAll : Bool → List Call → State → Prop
  | _, [], _ => True
  | inTxn, c :: cs, s => c.Fits crc inTxn s ∧ FitsAll (c.inTxn inTxn) cs (c.run crc s).2

end Calls

section Roles

variable {crc : Bytes → UInt32} {s : State}

theorem tagRole_edge {id v : UInt32} {o : UInt64} :
    (tagRole v (Entry.edge o id).tag = some .begins ↔ v = 0 ∧ id ≠ 0) ∧
      (tagRole v (Entry.edge o id).tag = some .ends ↔ v ≠ 0 ∧ id ≠ 0) := by
  by_cases hid : id = 0
  · have hplain : ¬ (Entry.edge o id).tag.IsEdge := fun h => h.2 hid
    rw [tagRole, if_neg hplain]
    split_ifs <;> simp [hid]
  · have hedge : (Entry.edge o id).tag.IsEdge := ⟨rfl, hid⟩
    rw [tagRole, if_neg (fun hempty => hid hempty.2.1), if_pos hedge]
    split_ifs with hv <;> simp [hv, hid]

theorem size_entry {req : WriteReq} : (req.entry crc).tag.size = 0 ↔ req.buf = [] := by
  have hlen : (req.entry crc).tag.size.toNat = req.buf.length := (req.entry crc).size_eq
  rw [← List.length_eq_zero_iff, ← hlen]
  exact UInt32.toNat_inj.symm

theorem tagRole_entry {v : UInt32} {req : WriteReq} :
    tagRole v (req.entry crc).tag = some .data ↔
      req.buf ≠ [] ∨ crc [] = 0 ∧ req.offset ≠ 0 := by
  by_cases hbuf : req.buf = []
  · have hsize := (@size_entry crc _).mpr hbuf
    have hcrc : (req.entry crc).tag.blkCrc = crc [] := congrArg crc hbuf
    have hoffset : (req.entry crc).tag.offset = req.offset := rfl
    by_cases hzero : crc [] = 0
    · have hplain : ¬ (req.entry crc).tag.IsEdge := fun h => h.2 (hcrc.trans hzero)
      rw [tagRole, if_neg hplain, hsize, hcrc, hoffset]
      simp [hbuf, hzero]
    · have hedge : (req.entry crc).tag.IsEdge := ⟨hsize, fun h => hzero (hcrc.symm.trans h)⟩
      rw [tagRole, if_pos hedge, if_neg (fun hempty => hedge.2 hempty.2.1)]
      split_ifs <;> simp [hbuf, hzero]
  · have hsize : (req.entry crc).tag.size ≠ 0 := fun h => hbuf (size_entry.mp h)
    rw [tagRole, if_neg (fun hempty => hsize hempty.1), if_neg (fun hedge => hsize hedge.1)]
    simp [hbuf]

/-- The replay has kept an id if and only if a transaction is open. -/
def Matches (id : UInt32) (inTxn : Bool) : Prop :=
  id = 0 ↔ inTxn = false

/-- **One tag**: it is read as it was meant if and only if the call meets the condition, and
the replay is then where the library is. -/
theorem Call.treated_emits {c : Call} {v : UInt32} {inTxn : Bool} (h : Matches v inTxn)
    {ps : List (Role × Entry)} {P : Prop}
    (hps : ∀ v', Matches v' (c.inTxn inTxn) → (Treated v' ps ↔ P)) :
    Treated v (c.emits crc s ++ ps) ↔ c.Fits crc inTxn s ∧ P := by
  have hiff : v = 0 ↔ inTxn = false := h
  cases c with
  | txnBegin =>
      have hbegin := (@tagRole_edge s.data.txnId v 0).1
      change _ ∧ Treated _ ps ↔ _
      rw [hbegin, hiff]
      refine and_congr_right fun hfits => hps _ ?_
      have hedge : (Entry.edge 0 s.data.txnId).tag.IsEdge := ⟨rfl, hfits.2⟩
      rw [nextTxn, if_pos hedge, if_pos (h.mpr hfits.1), Matches]
      simpa [Entry.edge, Call.inTxn] using hfits.2
  | write req =>
      change _ ∧ Treated _ ps ↔ _
      rw [tagRole_entry]
      refine and_congr_right fun hfits => hps _ ?_
      have hplain : ¬ (req.entry crc).tag.IsEdge := by
        rintro ⟨hsize, hcrc⟩
        have hbuf := size_entry.mp hsize
        rcases hfits with hne | ⟨hzero, -⟩
        · exact hne hbuf
        · exact hcrc ((congrArg crc hbuf).trans hzero)
      rw [nextTxn, if_neg hplain]
      exact h
  | txnEnd =>
      have hend := (@tagRole_edge s.data.txnId v (s.data.endCsum crc).toUInt64).2
      change _ ∧ Treated _ ps ↔ _
      rw [hend, ne_eq, hiff, Bool.not_eq_false]
      refine and_congr_right fun hfits => hps _ ?_
      have hedge : (Entry.edge (s.data.endCsum crc).toUInt64 s.data.txnId).tag.IsEdge :=
        ⟨rfl, hfits.2⟩
      have hv : v ≠ 0 := fun hv => by simp [h.mp hv] at hfits
      rw [nextTxn, if_pos hedge, if_neg hv, Matches]
      simp [Call.inTxn]
  | flush | markDone _ | replay _ =>
      change Treated v ps ↔ True ∧ P
      rw [true_and]
      exact hps v h

/-- **The tags of a run.** -/
theorem treated_emitted {cs : List Call} {v : UInt32} {inTxn : Bool} (h : Matches v inTxn) :
    Treated v (emitted crc cs s) ↔ FitsAll crc inTxn cs s := by
  induction cs generalizing v inTxn s with
  | nil =>
      exact Iff.rfl
  | cons c cs ih =>
      rw [emitted, FitsAll]
      exact Call.treated_emits h (fun v' hv' => ih hv')

end Roles

section Logs

variable {crc : Bytes → UInt32} {es : List Entry} {M : List Nat} {n : Nat} {s : State}

theorem Session.call (h : Session crc es M n [] s) {c : Call} (hc : c.Whole) :
    ∃ M' n', Session crc (es ++ (c.emits crc s).map Prod.snd) M' n' [] (c.run crc s).2 := by
  cases c with
  | txnBegin =>
      exact ⟨_, _, h.txnBegin⟩
  | write req =>
      exact ⟨_, _, h.write hc⟩
  | txnEnd =>
      exact ⟨_, _, h.txnEnd⟩
  | flush =>
      rw [Call.emits, List.map_nil, List.append_nil]
      exact ⟨_, _, h.flush⟩
  | markDone done =>
      rw [Call.emits, List.map_nil, List.append_nil]
      exact ⟨_, _, h.markDone done⟩
  | replay sync =>
      rw [Call.emits, List.map_nil, List.append_nil]
      by_cases hf : s.data.hdr.state = e2redoStateFinished
      · exact ⟨_, _, h.replay hf sync⟩
      · obtain ⟨m, hm⟩ := h.replay_of_not_finished hf sync
        refine ⟨M, n, ?_⟩
        rw [Call.run, hm]
        exact h.congr rfl rfl

theorem Session.calls (h : Session crc es M n [] s) {cs : List Call} (hcs : ∀ c ∈ cs, c.Whole) :
    ∃ M' n', Session crc (es ++ (emitted crc cs s).map Prod.snd) M' n' [] (runCalls crc cs s) := by
  induction cs generalizing es M n s with
  | nil =>
      rw [emitted, List.map_nil, List.append_nil]
      exact ⟨M, n, h⟩
  | cons c cs ih =>
      obtain ⟨M', n', hc⟩ := h.call (hcs c (by simp))
      rw [emitted, List.map_append, ← List.append_assoc, runCalls_cons]
      exact ih hc (fun d hd => hcs d (List.mem_cons_of_mem c hd))

theorem foldl_nextTxn_marked (hmarks : ∀ m ∈ M, (tagOf es m).IsEdge) (n i : Nat) (v : UInt32) :
    (slice (markedTagOf es M) i n).foldl nextTxn v = (slice (tagOf es) i n).foldl nextTxn v := by
  induction n generalizing i v with
  | zero =>
      rfl
  | succ n ih =>
      have hstep : nextTxn v (markedTagOf es M i) = nextTxn v (tagOf es i) := by
        rw [markedTagOf]
        split_ifs with hi
        · exact nextTxn_marked (hmarks i hi) v
        · rfl
      rw [slice_succ, slice_succ, List.foldl_cons, List.foldl_cons, hstep, ih]

theorem FinishedLog.slotRole_eq {hdr : RedoHeader}
    (h : FinishedLog crc es M hdr (s.world.file .redo))
    (hmarks : ∀ m ∈ M, (tagOf es m).IsEdge) {g : Nat} (hg : g < keysPerBlock * hdr.visited)
    (hlen : g < es.length) :
    slotRole crc s g = tagRole (((es.take g).map Entry.tag).foldl nextTxn 0) (tagOf es g) := by
  have hstream : ∀ i, i < keysPerBlock * hdr.visited →
      streamOf (loadedKeyb crc s) i = markedTagOf es M i := by
    intro i hi
    rw [streamOf, (h.logWalk_eq.1 _ (Nat.div_lt_of_lt_mul hi)).2, ← streamOf_remark crc, streamOf]
  have htags : slice (tagOf es) 0 g = (es.take g).map Entry.tag := by
    have hsplit := slice_tagOf_append [] (es.take g) (es.drop g)
    rw [List.nil_append, List.take_append_drop, List.length_nil, List.length_take,
      Nat.min_eq_left hlen.le] at hsplit
    exact hsplit
  have hslice : slice (streamOf (loadedKeyb crc s)) 0 g = slice (markedTagOf es M) 0 g :=
    slice_congr (fun i _ hi => hstream i (by omega))
  rw [slotRole, role_tagKind, txnId_run, hslice, foldl_nextTxn_marked hmarks, htags, hstream g hg]
  rw [markedTagOf]
  split_ifs with hm
  · exact tagRole_marked (hmarks g hm) _
  · rfl

end Logs

section Main

variable {crc : Bytes → UInt32} {s : State} {w : World}

/-- The state behind a successful first `rfsck_open`, whatever log it found. -/
def Opened (crc : Bytes → UInt32) (w : World) (s : State) : Prop :=
  w.outcomes = [] ∧ ∃ redo devFd raw out,
    rfsckOpen crc (some redo) devFd raw { redoData := none, world := w, out := out } =
      (0, s.process)

theorem Opened.session (h : Opened crc w s) : Session crc [] [] 0 [] s := by
  obtain ⟨hw, redo, devFd, raw, out, hopen⟩ := h
  have hdev : 1 ≤ devFd := by
    by_contra hlt
    rw [rfsckOpen, if_neg (by simp), if_pos (by omega)] at hopen
    simp at hopen
  have hidle := (rfsckReplay_stays crc true (setupState crc devFd raw w out)).1
  have hout := rfsckReplay_outcomes crc (s := setupState crc devFd raw w out) hw true
  rw [rfsckOpen_eq crc hw redo hdev, firstOpen_eq crc hout] at hopen
  simp only [ne_eq, not_true_eq_false, if_false, Prod.mk.injEq, true_and] at hopen
  obtain rfl := State.process_injective hopen
  exact session_of_open crc hidle hout

theorem FreshlyOpened.opened (h : FreshlyOpened crc w s) : Opened crc w s := by
  exact ⟨h.1, h.2.2⟩

theorem Opened.slotRole_emitted (h : Opened crc w s) {cs : List Call} (hcs : ∀ c ∈ cs, c.Whole)
    (hblocks : (emitted crc cs s).length / keysPerBlock < 2 ^ 31) {g : Nat} {p : Role × Entry}
    (hp : (emitted crc cs s)[g]? = some p) :
    slotRole crc (redoMarkDone crc true (runCalls crc cs s)).2 g =
      tagRole ((((emitted crc cs s).take g).map (fun p => p.2.tag)).foldl nextTxn 0) p.2.tag := by
  obtain ⟨M, n, hs⟩ := h.session.calls hcs
  rw [List.nil_append] at hs
  have hlength : ((emitted crc cs s).map Prod.snd).length = (emitted crc cs s).length :=
    List.length_map _
  have hdone := hs.markDone true
  have hfin : (redoMarkDone crc true (runCalls crc cs s)).2.data.hdr.state =
      e2redoStateFinished := by
    rw [(redoMarkDone_hdr crc hs.outcomes_nil true).1]
    rfl
  have hroom : ((emitted crc cs s).map Prod.snd).length / keysPerBlock < keybCountLimit := by
    rw [hlength]
    exact hblocks
  have hvisited := visited_of_numKeys (hs.numKeys_markDone hroom) hroom
  have hg : g < ((emitted crc cs s).map Prod.snd).length := by
    rw [hlength]
    exact (List.getElem?_eq_some_iff.mp hp).1
  have hreach : g < keysPerBlock *
      (redoMarkDone crc true (runCalls crc cs s)).2.data.hdr.visited := by
    rw [hvisited]
    exact lt_of_lt_of_le hg (le_keysPerBlock_mul _)
  have htag : tagOf ((emitted crc cs s).map Prod.snd) g = p.2.tag := by
    refine tagOf_of_getElem? ?_
    rw [List.getElem?_map, hp]
    rfl
  rw [(hdone.finishedLog hfin).slotRole_eq hdone.marks_edge hreach hg, htag, ← List.map_take,
    List.map_map]
  rfl

/-- **Tags are read as they were meant** if and only if every call of the run meets the
condition in its state. -/
theorem roles_kept_iff (h : Opened crc w s) {cs : List Call} (hcs : ∀ c ∈ cs, c.Whole)
    (hblocks : (emitted crc cs s).length / keysPerBlock < 2 ^ 31) :
    (∀ g p, (emitted crc cs s)[g]? = some p →
        slotRole crc (redoMarkDone crc true (runCalls crc cs s)).2 g = some p.1) ↔
      FitsAll crc false cs s := by
  have hmatch : Matches 0 false := by
    simp [Matches]
  rw [← treated_emitted hmatch, treated_iff]
  refine forall_congr' fun g => forall_congr' fun p => imp_congr_right fun hp => ?_
  rw [h.slotRole_emitted hcs hblocks hp]

end Main

theorem whole_of_length_le_one {cs : List Call}
    (h : ∀ req, Call.write req ∈ cs → req.buf.length ≤ 1) : ∀ c ∈ cs, c.Whole := by
  intro c hc
  cases c with
  | write req =>
      have hlen := h req hc
      have hmax : 1 ≤ maxRwCount := by
        decide
      exact hlen.trans hmax
  | txnBegin | txnEnd | flush | markDone _ | replay _ =>
      trivial

theorem roles_kept_of_byteWrite :
    FitsAll crc32c false [.txnBegin, .write (byteWrite 0 7), .txnEnd] (blankState crc32c) ∧
    ∀ g p, (emitted crc32c [.txnBegin, .write (byteWrite 0 7), .txnEnd]
        (blankState crc32c))[g]? = some p →
      slotRole crc32c (redoMarkDone crc32c true (runCalls crc32c
        [.txnBegin, .write (byteWrite 0 7), .txnEnd] (blankState crc32c))).2 g = some p.1 := by
  have hopen := blankState_freshlyOpened crc32c
  have hbegin := hopen.logged.txnBegin
  have hwhole : (byteWrite 0 7).Whole := by
    rw [WriteReq.Whole]
    decide
  have hwrite := hbegin.write hwhole
  have hfits : FitsAll crc32c false [.txnBegin, .write (byteWrite 0 7), .txnEnd]
      (blankState crc32c) := by
    refine ⟨⟨rfl, ?_⟩, Or.inl (by decide), ⟨rfl, ?_⟩, trivial⟩
    · rw [hopen.session.2.1]
      decide
    · have hid := hwrite.txnId_eq
      exact fun hzero => absurd (hid.symm.trans hzero) (by decide)
  refine ⟨hfits, (roles_kept_iff hopen.opened (whole_of_length_le_one ?_) ?_).mpr hfits⟩
  · intro req hreq
    simp only [List.mem_cons, Call.write.injEq, reduceCtorEq, List.not_mem_nil, or_false,
      false_or] at hreq
    rw [hreq]
    rfl
  · change 3 / keysPerBlock < 2 ^ 31
    decide

/-- A write of no bytes. -/
def emptyWrite : WriteReq where
  offset := 0
  buf := []
  size_lt := by decide

/-- **An empty write ends the transaction** for the replay. -/
theorem empty_write_read_as_end :
    FreshlyOpened crc32c blankWorld (blankState crc32c) ∧
      (emitted crc32c [.txnBegin, .write emptyWrite] (blankState crc32c))[1]? =
        some (.data, emptyWrite.entry crc32c) ∧
      slotRole crc32c (redoMarkDone crc32c true (runCalls crc32c
        [.txnBegin, .write emptyWrite] (blankState crc32c))).2 1 = some .ends := by
  have hopen := blankState_freshlyOpened crc32c
  refine ⟨hopen, rfl, ?_⟩
  rw [hopen.opened.slotRole_emitted (p := (.data, emptyWrite.entry crc32c))
    (whole_of_length_le_one ?_) ?_ rfl]
  · have hid := hopen.session.2.1
    change tagRole (nextTxn 0 (Entry.edge 0 (blankState crc32c).data.txnId).tag) _ = _
    rw [hid]
    decide +kernel
  · intro req hreq
    simp only [List.mem_cons, Call.write.injEq, reduceCtorEq, List.not_mem_nil, or_false,
      false_or] at hreq
    rw [hreq]
    decide
  · change 2 / keysPerBlock < 2 ^ 31
    decide

end Redo
end Rfsck
