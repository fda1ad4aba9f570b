import Rfsck.Redo.Accepted
import Rfsck.Redo.TagRoles

/-!
# Logging calls that fail

`rfsck_txn_begin`, `rfsck_write` and `rfsck_txn_end` change `redo_data` before, between and
behind their system calls, and none of them takes a change back.

* `LogCall.Succeeds`: the system calls of a logging call succeed; `LogCall.Reports`: the
  condition under which its result says so.
* `LogCall.Harmless`: the condition under which a failed call leaves nothing behind that a
  later call uses.
* `Continues`: later calls compute the same fields and issue the same system calls.
* `failures_reported_and_undone`: both conditions are exact, and a harmless failure does not
  change what a replay writes.

For a failed `rfsck_write` the condition asks for a tag with checksum zero, since
`txn_csum` has the checksum of the tag already.  A failed write of the key block in
`rfsck_txn_begin` or `rfsck_txn_end` is never harmless, because the slot stays in use.
-/

namespace Rfsck
namespace Redo

open Storage

section Model

variable (crc : Bytes → UInt32)

/-- A logging call; the argument of a begin is the value of its uninitialised local. -/
inductive LogCall where
  | txnBegin (retval : Int)
  | write (req : WriteReq)
  | txnEnd

/-- The call, whatever its system calls do. -/
def LogCall.run : LogCall → State → Int × State
  | .txnBegin retval, s => rfsckTxnBegin crc retval s
  | .write req, s => rfsckWrite crc req s
  | .txnEnd, s => rfsckTxnEnd crc s

/-- All system calls that the call makes succeed; a begin makes none if its local is not
zero. -/
def LogCall.Succeeds (s : State) : LogCall → Prop
  | .txnBegin retval => retval = 0 → (s.world.outcomeAt 0).Transfers redoLogBlockSize
  | .write req => (req.Whole ∧ (s.world.outcomeAt 0).Transfers req.buf.length) ∧
      (s.world.outcomeAt 1).Transfers redoLogBlockSize
  | .txnEnd => (s.world.outcomeAt 0).Transfers redoLogBlockSize ∧
      (s.world.outcomeAt 1).Transfers redoLogBlockSize ∧ s.world.outcomeAt 2 = .ok

/-- The condition on the result: the local of a begin is zero, and the flush of an end does
not fail behind a successful write. -/
def LogCall.Reports (s : State) : LogCall → Prop
  | .txnBegin retval => retval = 0
  | .write _ => True
  | .txnEnd => (s.world.outcomeAt 0).Transfers redoLogBlockSize →
      (s.world.outcomeAt 1).Transfers redoLogBlockSize ∧ s.world.outcomeAt 2 = .ok

/-- The condition on a call that fails. -/
def LogCall.Harmless (s : State) : LogCall → Prop
  | .txnBegin retval => retval ≠ 0
  | .write req => crc (req.tag crc).encode = 0 ∧
      (¬ (req.Whole ∧ (s.world.outcomeAt 0).Transfers req.buf.length) ∨ req.buf = [])
  | .txnEnd => False

/-- The calls that may come next: a transaction that could not be begun is begun, one that is
open goes on, one that could not be ended is ended or followed by another one. -/
def LogCall.Next : LogCall → Call → Prop
  | .txnBegin _, c => c = .txnBegin
  | .write _, c => (∃ req, c = .write req) ∨ c = .txnEnd
  | .txnEnd, c => c = .txnEnd ∨ c = .txnBegin

/-- From now on no system call fails. -/
def State.resume (s : State) : State :=
  { s with world.outcomes := [] }

/-- The calls leave the same fields behind in both states and issue the same system calls. -/
def Continues (cs : List Call) (s' s : State) : Prop :=
  (runCalls crc cs s'.resume).data = (runCalls crc cs s.resume).data ∧
    ∃ evs, (runCalls crc cs s'.resume).world.trace = s'.world.trace ++ evs ∧
      (runCalls crc cs s.resume).world.trace = s.world.trace ++ evs

end Model

section Results

variable {crc : Bytes → UInt32} {s : State}

theorem writeKeyb_fst (s : State) :
    (writeKeyb s).1 = 0 ↔ (s.world.outcomeAt 0).Transfers redoLogBlockSize := by
  have hlen := RedoBlock.length_encode s.data.keyb
  rw [writeKeyb, writeInfo_fst _ (by rw [hlen]; exact redoLogBlockSize_le_maxRwCount), hlen,
    World.nextOutcome_eq]

theorem writeData_fst (off : Nat) (buf : Bytes) (s : State) :
    (writeInfo .redo off buf true s).1 = 0 ↔
      buf.length ≤ maxRwCount ∧ (s.world.outcomeAt 0).Transfers buf.length := by
  have hfst : (writeInfo .redo off buf true s).1 = (writeInfo .redo off buf false s).1 := by
    unfold writeInfo
    dsimp only
    split_ifs <;> rfl
  rw [hfst, (writeInfo_cases .redo off buf s).1, ← World.nextOutcome_eq, World.pwrite]
  cases s.world.nextOutcome with
  | fail =>
      simp only [Outcome.Transfers, and_false, iff_false]
      omega
  | short n =>
      simp only [Outcome.Transfers, List.length_take, Nat.cast_inj]
      omega
  | ok =>
      simp only [Outcome.Transfers, List.length_take, Nat.cast_inj, and_true]
      omega

theorem writeInfo_world (off : Nat) (buf : Bytes) (countOffset : Bool) (s : State) :
    (writeInfo .redo off buf countOffset s).2.world =
      (writeInfo .redo off buf false s).2.world := by
  unfold writeInfo
  dsimp only
  split_ifs <;> rfl

theorem writeInfo_outcomeAt (off : Nat) (buf : Bytes) (countOffset : Bool) (s : State) (n : Nat) :
    (writeInfo .redo off buf countOffset s).2.world.outcomeAt n = s.world.outcomeAt (n + 1) := by
  rw [writeInfo_world]
  exact World.outcomeAt_of_tail (writeInfo_outcomes off buf s) n

theorem writeKeyb_data (s : State) : (writeKeyb s).2.data = s.data := by
  exact (writeInfo_cases .redo s.data.redoBlockOffset s.data.keyb.encode s).2.2

/-- `rfsck_txn_begin` behind its test: the state before the write of the key block. -/
def State.begun (crc : Bytes → UInt32) (s : State) : State :=
  let s := { s.setTag s.data.beginTag with
    data.txnCsum := txnChksmCnst ^^^ crc s.data.beginTag.encode }
  { stampKeybReserved crc s with data.keysInBlock := s.data.keysInBlock + 1 }

theorem rfsckTxnBegin_stages (retval : Int) (s : State) :
    rfsckTxnBegin crc retval s =
      if retval ≠ 0 then
        (retval, { s.setTag s.data.beginTag with
          data.txnCsum := txnChksmCnst ^^^ crc s.data.beginTag.encode })
      else if (writeKeyb (s.begun crc)).1 ≠ 0 then writeKeyb (s.begun crc)
      else (0, rollKeyb (writeKeyb (s.begun crc)).2) := by
  rfl

/-- `rfsck_txn_end` before the write of the key block. -/
def State.ended (crc : Bytes → UInt32) (s : State) : State :=
  stampKeybReserved crc { s.setTag (s.data.endTag crc) with
    data.txnCsum := s.data.endCsum crc
    data.keysInBlock := s.data.keysInBlock + 1
    data.txnId := s.data.txnId + 1 }

theorem rfsckTxnEnd_stages (s : State) :
    rfsckTxnEnd crc s =
      if (writeKeyb (s.ended crc)).1 ≠ 0 then writeKeyb (s.ended crc)
      else (0, (rfsckFlush crc
        { rollKeyb (writeKeyb (s.ended crc)).2 with data.txnCsum := 0 }).2) := by
  rfl

theorem LogCall.run_fst (c : LogCall) (s : State) :
    (c.run crc s).1 = 0 ↔
      match c with
      | .txnBegin retval => retval = 0 ∧ (s.world.outcomeAt 0).Transfers redoLogBlockSize
      | .write req => (req.Whole ∧ (s.world.outcomeAt 0).Transfers req.buf.length) ∧
          (s.world.outcomeAt 1).Transfers redoLogBlockSize
      | .txnEnd => (s.world.outcomeAt 0).Transfers redoLogBlockSize := by
  cases c with
  | txnBegin retval =>
      have hkeyb : (writeKeyb (s.begun crc)).1 = 0 ↔
          (s.world.outcomeAt 0).Transfers redoLogBlockSize := writeKeyb_fst _
      rw [LogCall.run, rfsckTxnBegin_stages]
      dsimp only
      split_ifs with hretval hfail
      · simp [hretval]
      · exact ⟨fun h => absurd h hfail, fun h => absurd (hkeyb.mpr h.2) hfail⟩
      · exact ⟨fun _ => ⟨not_not.mp hretval, hkeyb.mp (not_not.mp hfail)⟩, fun _ => rfl⟩
  | write req =>
      have hdata := writeData_fst s.data.logOffset req.buf (s.tagged crc req)
      have hnext := writeInfo_outcomeAt s.data.logOffset req.buf true (s.tagged crc req) 0
      have hworld : (s.tagged crc req).world = s.world := rfl
      rw [LogCall.run, rfsckWrite_stages]
      dsimp only
      rw [hworld] at hdata hnext
      generalize writeInfo .redo s.data.logOffset req.buf true (s.tagged crc req) = r at *
      have hkeyb : (writeKeyb (stampKeybReserved crc r.2)).1 = 0 ↔
          (s.world.outcomeAt 1).Transfers redoLogBlockSize := by
        rw [← hnext]
        exact writeKeyb_fst _
      split_ifs with hfirst hsecond
      · exact ⟨fun h => absurd h hfirst, fun h => absurd (hdata.mpr h.1) hfirst⟩
      · exact ⟨fun h => absurd h hsecond, fun h => absurd (hkeyb.mpr h.2) hsecond⟩
      · exact ⟨fun _ => ⟨hdata.mp (not_not.mp hfirst), hkeyb.mp (not_not.mp hsecond)⟩,
          fun _ => rfl⟩
  | txnEnd =>
      have hkeyb : (writeKeyb (s.ended crc)).1 = 0 ↔
          (s.world.outcomeAt 0).Transfers redoLogBlockSize := writeKeyb_fst _
      rw [LogCall.run, rfsckTxnEnd_stages]
      dsimp only
      split_ifs with hfail
      · exact hkeyb
      · exact ⟨fun _ => hkeyb.mp (not_not.mp hfail), fun _ => rfl⟩

/-- **The result of a call says whether its system calls succeeded** if and only if the
condition holds. -/
theorem LogCall.reports_iff (c : LogCall) (s : State) :
    ((c.run crc s).1 = 0 ↔ c.Succeeds s) ↔ c.Reports s := by
  rw [LogCall.run_fst]
  cases c with
  | txnBegin retval =>
      simp only [LogCall.Succeeds, LogCall.Reports]
      tauto
  | write req =>
      simp only [LogCall.Succeeds, LogCall.Reports]
  | txnEnd =>
      simp only [LogCall.Succeeds, LogCall.Reports]
      tauto

end Results

section Steps

variable {crc : Bytes → UInt32} {s s' t t' u u' : State}

/-- The positions of the log that are in use, without the current key block. -/
def RedoPrivateData.Base (d : RedoPrivateData) (i : Nat) : Prop :=
  i < d.logOffset ∧ (i < d.redoBlockOffset ∨ d.redoBlockOffset + redoLogBlockSize ≤ i)

/-- A position that one of the system calls writes. -/
def Overwritten (evs : List (Event Fd)) (i : Nat) : Prop :=
  ∃ off buf, Event.pwrite .redo off buf ∈ evs ∧ off ≤ i ∧ i < off + buf.length

/-- System calls that take effect. -/
def World.pushAll (w : World) (evs : List (Event Fd)) : World :=
  { w with trace := w.trace ++ evs }

theorem World.pushAll_nil (w : World) : w.pushAll [] = w := by
  rw [World.pushAll, List.append_nil]

theorem World.pushAll_append (w : World) (evs evs' : List (Event Fd)) :
    w.pushAll (evs ++ evs') = (w.pushAll evs).pushAll evs' := by
  simp only [World.pushAll, List.append_assoc]

theorem World.file_pushAll (w : World) (evs : List (Event Fd)) (fd : Fd) :
    (w.pushAll evs).file fd = applyEvents fd (w.file fd) evs := by
  exact applyEvents_append _ _ _ _

/-- The step from `s` to `t` issues the system calls `evs`, which write all that it adds to
the log. -/
structure Adds (evs : List (Event Fd)) (s t : State) : Prop where
  world_eq : t.world = s.world.pushAll evs
  base : ∀ i, t.data.Base i → s.data.Base i ∨ Overwritten evs i

/-- The step from `s'` to `t'` is the step from `s` to `t`. -/
def Alike (s' t' s t : State) : Prop :=
  t'.data = t.data ∧ ∃ evs, Adds evs s t ∧ t'.world = s'.world.pushAll evs

theorem Overwritten.append_left {evs : List (Event Fd)} {i : Nat} (h : Overwritten evs i)
    (evs' : List (Event Fd)) : Overwritten (evs ++ evs') i := by
  obtain ⟨off, buf, hmem, hi⟩ := h
  exact ⟨off, buf, List.mem_append_left _ hmem, hi⟩

theorem Overwritten.append_right {evs' : List (Event Fd)} {i : Nat} (h : Overwritten evs' i)
    (evs : List (Event Fd)) : Overwritten (evs ++ evs') i := by
  obtain ⟨off, buf, hmem, hi⟩ := h
  exact ⟨off, buf, List.mem_append_right _ hmem, hi⟩

theorem Adds.trans {evs evs' : List (Event Fd)} (h : Adds evs s t) (h' : Adds evs' t u) :
    Adds (evs ++ evs') s u := by
  refine ⟨by rw [h'.world_eq, h.world_eq, World.pushAll_append], ?_⟩
  intro i hi
  rcases h'.base i hi with hi | hi
  · exact (h.base i hi).imp id (fun hc => hc.append_left evs')
  · exact Or.inr (hi.append_right evs)

theorem Alike.refl (h : s'.data = s.data) : Alike s' s' s s := by
  exact ⟨h, [], ⟨(World.pushAll_nil _).symm, fun _ hi => Or.inl hi⟩, (World.pushAll_nil _).symm⟩

theorem Alike.trans (h : Alike s' t' s t) (h' : Alike t' u' t u) : Alike s' u' s u := by
  obtain ⟨_, evs, hadds, hworld⟩ := h
  obtain ⟨hdata, evs', hadds', hworld'⟩ := h'
  exact ⟨hdata, evs ++ evs', hadds.trans hadds', by rw [hworld', hworld, World.pushAll_append]⟩

theorem Alike.push (s' : State) (e : Event Fd) {d : RedoPrivateData}
    (hlog : d.logOffset = s.data.logOffset)
    (hkeyb : d.redoBlockOffset = s.data.redoBlockOffset) :
    Alike s' { s' with data := d, world := s'.world.push e } s
      { s with data := d, world := s.world.push e } := by
  refine ⟨rfl, [e], ⟨rfl, ?_⟩, rfl⟩
  intro i hi
  rw [RedoPrivateData.Base] at hi ⊢
  rw [← hlog, ← hkeyb]
  exact Or.inl hi

/-- Two states that differ in the slot of the next tag. -/
structure Twins (s' s : State) : Prop where
  data_eq : s'.data = { s.data with keyb := s'.data.keyb }
  tags_eq : ∀ t, s'.data.keyb.tags.set s.data.keysInBlock t =
    s.data.keyb.tags.set s.data.keysInBlock t

theorem stamp_setTag_congr (crc : Bytes → UInt32) {kb kb' : RedoBlock} {i : Nat}
    {t : RedoBlockTag}
    (h : kb'.tags.set i t = kb.tags.set i t) :
    { kb'.setTag i t with reserved := 0 }.stamp crc =
      { kb.setTag i t with reserved := 0 }.stamp crc := by
  have hblock : ({ kb'.setTag i t with
      magic := hash redoBlockMagicNumber, crc := 0, reserved := 0 } : RedoBlock) =
      { kb.setTag i t with magic := hash redoBlockMagicNumber, crc := 0, reserved := 0 } := by
    simp only [RedoBlock.setTag, RedoBlock.mk.injEq, true_and]
    exact h
  exact congrArg (fun b : RedoBlock => { b with crc := crc b.encode }) hblock

/-- **The next tag** makes up for the difference. -/
theorem Twins.logTag (h : Twins s' s) (crc : Bytes → UInt32) (t : RedoBlockTag) :
    Alike s' (s'.logTag crc t) s (s.logTag crc t) := by
  obtain ⟨d', w', o'⟩ := s'
  obtain ⟨d, w, o⟩ := s
  obtain ⟨hdata, htags⟩ := h
  dsimp only at hdata htags
  generalize d'.keyb = kb at hdata htags
  subst hdata
  have hstamp := stamp_setTag_congr crc (htags t)
  refine ⟨?_, [.pwrite .redo d.redoBlockOffset (RedoBlock.stamp crc
    { d.keyb.setTag d.keysInBlock t with reserved := 0 }).encode], ⟨?_, ?_⟩, ?_⟩
  · unfold State.logTag rollKeyb
    dsimp only
    rw [hstamp]
    split_ifs <;> rfl
  · rw [logTag_world]
    rfl
  · intro i hi
    have hcover : d.redoBlockOffset ≤ i → i < d.redoBlockOffset + redoLogBlockSize →
        Overwritten [.pwrite .redo d.redoBlockOffset (RedoBlock.stamp crc
          { d.keyb.setTag d.keysInBlock t with reserved := 0 }).encode] i := by
      intro hlo hhi
      refine ⟨_, _, List.mem_singleton_self _, hlo, ?_⟩
      rw [RedoBlock.length_encode]
      exact hhi
    unfold State.logTag rollKeyb RedoPrivateData.Base at hi
    dsimp only at hi
    rw [RedoPrivateData.Base]
    split_ifs at hi with hfull
    · dsimp only at hi ⊢
      by_cases hblock : d.redoBlockOffset ≤ i ∧ i < d.redoBlockOffset + redoLogBlockSize
      · exact Or.inr (hcover hblock.1 hblock.2)
      · left
        omega
    · exact Or.inl hi
  · rw [logTag_world]
    dsimp only
    rw [hstamp]
    rfl

theorem Alike.putKeyb (crc : Bytes → UInt32) (h : s'.data = s.data) :
    Alike s' (s'.putKeyb crc) s (s.putKeyb crc) := by
  rw [State.putKeyb, State.putKeyb, h]
  exact Alike.push s' _ rfl rfl

theorem Alike.syncRedo (h : s'.data = s.data) : Alike s' s'.syncRedo s s.syncRedo := by
  rw [State.syncRedo, State.syncRedo, h]
  exact Alike.push s' _ rfl rfl

theorem Alike.putHeader (crc : Bytes → UInt32) (h : s'.data = s.data) (done : Bool) :
    Alike s' (s'.putHeader crc done) s (s.putHeader crc done) := by
  rw [State.putHeader, State.putHeader, State.doneHeader, State.doneHeader, h]
  exact Alike.push s' _ rfl rfl

theorem Alike.after {evs : List (Event Fd)} (h : Alike u' t' u t) (hadds : Adds evs s u)
    (hworld : u'.world = s'.world.pushAll evs) : Alike s' t' s t := by
  obtain ⟨hdata, evs', hadds', hworld'⟩ := h
  exact ⟨hdata, evs ++ evs', hadds.trans hadds', by rw [hworld', hworld, World.pushAll_append]⟩

theorem adds_nil (hworld : u.world = s.world) (hlog : u.data.logOffset = s.data.logOffset)
    (hkeyb : u.data.redoBlockOffset = s.data.redoBlockOffset) : Adds [] s u := by
  refine ⟨by rw [hworld, World.pushAll_nil], ?_⟩
  intro i hi
  rw [RedoPrivateData.Base] at hi ⊢
  rw [← hlog, ← hkeyb]
  exact Or.inl hi

theorem adds_putData (buf : Bytes) (s : State) :
    Adds [.pwrite .redo s.data.logOffset buf] s (s.putData buf) := by
  refine ⟨rfl, ?_⟩
  intro i hi
  rw [RedoPrivateData.Base, State.putData] at hi
  dsimp only at hi
  rw [RedoPrivateData.Base]
  by_cases hlt : i < s.data.logOffset
  · exact Or.inl ⟨hlt, hi.2⟩
  · exact Or.inr ⟨_, _, List.mem_singleton_self _, by omega, hi.1⟩

/-- **One logging call** in states that differ in the slot of its tag, and for a begin in the
running checksum. -/
theorem Call.run_alike {c : Call} (hlogs : c.logs = true) (hc : c.Logging)
    (h' : s'.world.outcomes = []) (h : s.world.outcomes = [])
    (hdata : s'.data = { s.data with keyb := s'.data.keyb, txnCsum := s'.data.txnCsum })
    (htags : ∀ t, s'.data.keyb.tags.set s.data.keysInBlock t =
      s.data.keyb.tags.set s.data.keysInBlock t)
    (hcsum : c = .txnBegin ∨ s'.data.txnCsum = s.data.txnCsum) :
    Alike s' (c.run crc s').2 s (c.run crc s).2 := by
  obtain ⟨d', w', o'⟩ := s'
  obtain ⟨d, w, o⟩ := s
  dsimp only at hdata htags h h' hcsum
  generalize d'.keyb = kb at hdata htags
  generalize d'.txnCsum = x at hdata hcsum
  subst hdata
  cases c with
  | txnBegin =>
      rw [Call.run, Call.run, rfsckTxnBegin_eq crc h', rfsckTxnBegin_eq crc h]
      have htwins : Twins
          ⟨{ d with keyb := kb, txnCsum := txnChksmCnst ^^^ crc d.beginTag.encode }, w', o'⟩
          ⟨{ d with txnCsum := txnChksmCnst ^^^ crc d.beginTag.encode }, w, o⟩ := ⟨rfl, htags⟩
      exact (htwins.logTag crc d.beginTag).after (adds_nil rfl rfl rfl) (World.pushAll_nil _).symm
  | write req =>
      obtain rfl : x = d.txnCsum := hcsum.resolve_left (by simp)
      rw [Call.run, Call.run, rfsckWrite_eq crc h' hc, rfsckWrite_eq crc h hc]
      have htwins : Twins
          (State.putData req.buf ⟨{ d with
            keyb := kb, txnCsum := d.txnCsum ^^^ crc (req.tag crc).encode }, w', o'⟩)
          (State.putData req.buf
            ⟨{ d with txnCsum := d.txnCsum ^^^ crc (req.tag crc).encode }, w, o⟩) :=
        ⟨rfl, htags⟩
      have hput := adds_putData req.buf
        ⟨{ d with txnCsum := d.txnCsum ^^^ crc (req.tag crc).encode }, w, o⟩
      exact ((htwins.logTag crc (req.tag crc)).after hput rfl).after
        (adds_nil rfl rfl rfl) (World.pushAll_nil _).symm
  | txnEnd =>
      obtain rfl : x = d.txnCsum := hcsum.resolve_left (by simp)
      rw [Call.run, Call.run, rfsckTxnEnd_eq crc h', rfsckTxnEnd_eq crc h]
      have htwins : Twins
          ⟨{ d with keyb := kb, txnId := d.txnId + 1, txnCsum := 0 }, w', o'⟩
          ⟨{ d with txnId := d.txnId + 1, txnCsum := 0 }, w, o⟩ := ⟨rfl, htags⟩
      have htag := htwins.logTag crc (d.endTag crc)
      have hput := htag.trans (Alike.putKeyb crc htag.1)
      exact (hput.trans (Alike.syncRedo hput.1)).after (adds_nil rfl rfl rfl)
        (World.pushAll_nil _).symm
  | flush | markDone done | replay sync =>
      simp [Call.logs] at hlogs

/-- **One call** in states with the same fields. -/
theorem Call.run_alike_of_data {c : Call} (hc : c.Logging) (h' : s'.world.outcomes = [])
    (h : s.world.outcomes = []) (hdata : s'.data = s.data) :
    Alike s' (c.run crc s').2 s (c.run crc s).2 := by
  cases c with
  | txnBegin | write req | txnEnd =>
      exact Call.run_alike rfl hc h' h (by rw [hdata]) (fun t => by rw [hdata])
        (Or.inr (by rw [hdata]))
  | flush =>
      rw [Call.run, Call.run, rfsckFlush_eq crc h', rfsckFlush_eq crc h]
      have hput := Alike.putKeyb crc hdata
      exact hput.trans (Alike.syncRedo hput.1)
  | markDone done =>
      rw [Call.run, Call.run, redoMarkDone_eq crc h', redoMarkDone_eq crc h]
      have hput := Alike.putKeyb crc hdata
      have hflush := hput.trans (Alike.putKeyb crc hput.1)
      have hsync := hflush.trans (Alike.syncRedo hflush.1)
      have hhdr := hsync.trans (Alike.putHeader crc hsync.1 done)
      have hlast := hhdr.trans (Alike.putKeyb crc hhdr.1)
      exact hlast.trans (Alike.syncRedo hlast.1)
  | replay sync =>
      exact hc.elim

/-- **The rest of a run.** -/
theorem runCalls_alike {cs : List Call} (hcs : ∀ c ∈ cs, c.Logging)
    (h' : s'.world.outcomes = []) (h : s.world.outcomes = []) (hdata : s'.data = s.data) :
    Alike s' (runCalls crc cs s') s (runCalls crc cs s) := by
  induction cs generalizing s' s with
  | nil =>
      exact Alike.refl hdata
  | cons c cs ih =>
      have hc := hcs c (by simp)
      have hstep := @Call.run_alike_of_data crc _ _ _ hc h' h hdata
      rw [runCalls_cons, runCalls_cons]
      exact hstep.trans (ih (fun d hd => hcs d (List.mem_cons_of_mem c hd))
        (hc.run_dev crc h' 0).2.2 (hc.run_dev crc h 0).2.2 hstep.1)

end Steps

section Failures

variable {crc : Bytes → UInt32} {c : LogCall} {s : State}

/-- What a failed write leaves behind. -/
theorem rfsckWrite_failed {req : WriteReq} (hfail : (rfsckWrite crc req s).1 ≠ 0) :
    ∃ kb n, (rfsckWrite crc req s).2.data =
        { s.data with
          keyb := kb
          txnCsum := s.data.txnCsum ^^^ crc (req.tag crc).encode
          logOffset := s.data.logOffset +
            if req.Whole ∧ (s.world.outcomeAt 0).Transfers req.buf.length then req.buf.length
            else 0 } ∧
      kb.tags = s.data.keyb.tags.set s.data.keysInBlock (req.tag crc) ∧
      ∃ m, (rfsckWrite crc req s).2.world.file .redo =
        ((s.world.file .redo).pwrite s.data.logOffset (req.buf.take n)).pwrite
          s.data.redoBlockOffset (kb.encode.take m) := by
  have hiff : (writeInfo .redo s.data.logOffset req.buf true (s.tagged crc req)).1 = 0 ↔
      req.Whole ∧ (s.world.outcomeAt 0).Transfers req.buf.length :=
    writeData_fst s.data.logOffset req.buf (s.tagged crc req)
  obtain ⟨n, hfile, hok, hbad⟩ :=
    writeInfo_take s.data.logOffset req.buf true (s.tagged crc req)
  rw [rfsckWrite_stages] at hfail ⊢
  dsimp only at hfail ⊢
  generalize writeInfo .redo s.data.logOffset req.buf true (s.tagged crc req) = r at *
  by_cases hfirst : r.1 = 0
  · obtain ⟨-, hdata⟩ := hok hfirst
    rw [if_pos rfl] at hdata
    rw [if_neg (not_not.mpr hfirst)] at hfail ⊢
    obtain ⟨m, hkeyb, -, -⟩ := writeInfo_take (stampKeybReserved crc r.2).data.redoBlockOffset
      (stampKeybReserved crc r.2).data.keyb.encode false (stampKeybReserved crc r.2)
    have hkept := writeKeyb_data (stampKeybReserved crc r.2)
    have hsecond : (writeKeyb (stampKeybReserved crc r.2)).1 ≠ 0 := by
      intro hzero
      rw [if_neg (not_not.mpr hzero)] at hfail
      exact hfail rfl
    rw [if_pos hsecond, if_pos (hiff.mp hfirst)]
    refine ⟨(stampKeybReserved crc r.2).data.keyb, n, ?_, ?_, m, ?_⟩
    · rw [hkept, stampKeybReserved]
      dsimp only
      rw [hdata]
      rfl
    · rw [stampKeybReserved]
      dsimp only
      rw [hdata]
      rfl
    · have hplace : (stampKeybReserved crc r.2).data.redoBlockOffset =
          s.data.redoBlockOffset := by
        rw [stampKeybReserved]
        dsimp only
        rw [hdata]
        rfl
      have hbefore : (stampKeybReserved crc r.2).world.file .redo =
          (s.world.file .redo).pwrite s.data.logOffset (req.buf.take n) := hfile
      rw [← hbefore, ← hplace]
      exact hkeyb
  · rw [if_pos hfirst, if_neg (fun h => hfirst (hiff.mpr h)), hbad hfirst]
    refine ⟨_, n, rfl, rfl, 0, ?_⟩
    rw [hfile, List.take_zero, ByteFile.pwrite_nil]
    rfl

theorem rfsckTxnBegin_failed {retval : Int} (hretval : retval ≠ 0) :
    (rfsckTxnBegin crc retval s).2.data =
        { s.data with
          keyb := s.data.keyb.setTag s.data.keysInBlock s.data.beginTag
          txnCsum := txnChksmCnst ^^^ crc s.data.beginTag.encode } ∧
      (rfsckTxnBegin crc retval s).2.world = s.world := by
  rw [rfsckTxnBegin_stages, if_pos hretval]
  exact ⟨rfl, rfl⟩

theorem keysInBlock_failed (hc : c = .txnBegin 0 ∨ c = .txnEnd) (hfail : (c.run crc s).1 ≠ 0) :
    (c.run crc s).2.data.keysInBlock = s.data.keysInBlock + 1 := by
  rcases hc with rfl | rfl
  · rw [LogCall.run, rfsckTxnBegin_stages, if_neg (by simp)] at hfail ⊢
    split_ifs at hfail ⊢ with hkeyb
    · rw [writeKeyb_data]
      rfl
    · exact absurd rfl hfail
  · rw [LogCall.run, rfsckTxnEnd_stages] at hfail ⊢
    split_ifs at hfail ⊢ with hkeyb
    · rw [writeKeyb_data]
      rfl
    · exact absurd rfl hfail

/-- **A harmless failure** changes the slot of the next tag and, for a begin, the running
checksum; the log keeps all that is in use. -/
theorem LogCall.Harmless.kept (h : c.Harmless crc s) (hfail : (c.run crc s).1 ≠ 0) :
    ((c.run crc s).2.data = { s.data with
        keyb := (c.run crc s).2.data.keyb
        txnCsum := (c.run crc s).2.data.txnCsum } ∧
      ∀ t, (c.run crc s).2.data.keyb.tags.set s.data.keysInBlock t =
        s.data.keyb.tags.set s.data.keysInBlock t) ∧
    (∀ d, c.Next d → d = .txnBegin ∨ (c.run crc s).2.data.txnCsum = s.data.txnCsum) ∧
    (s.world.file .redo).size ≤ ((c.run crc s).2.world.file .redo).size ∧
    ∀ i, s.data.Base i →
      ((c.run crc s).2.world.file .redo).byte i = (s.world.file .redo).byte i := by
  cases c with
  | txnBegin retval =>
      obtain ⟨hdata, hworld⟩ := @rfsckTxnBegin_failed crc s retval h
      rw [LogCall.run, hdata, hworld]
      exact ⟨⟨rfl, fun t => List.set_set _⟩, fun d hd => Or.inl hd, le_refl _, fun _ _ => rfl⟩
  | write req =>
      obtain ⟨kb, n, hdata, htags, m, hfile⟩ := rfsckWrite_failed hfail
      obtain ⟨hcrc, hlost⟩ := h
      have hcsum : s.data.txnCsum ^^^ crc (req.tag crc).encode = s.data.txnCsum := by
        rw [hcrc, UInt32.xor_zero]
      have hoffset : (if req.Whole ∧ (s.world.outcomeAt 0).Transfers req.buf.length then
          req.buf.length else 0) = 0 := by
        rcases hlost with hlost | hempty
        · rw [if_neg hlost]
        · rw [hempty, List.length_nil, ite_self]
      rw [hcsum, hoffset] at hdata
      rw [LogCall.run, hdata, hfile]
      refine ⟨⟨rfl, fun t => ?_⟩, fun d _ => Or.inr rfl, ?_, ?_⟩
      · dsimp only
        rw [htags, List.set_set]
      · exact (ByteFile.size_le_size_pwrite _ _ _).trans (ByteFile.size_le_size_pwrite _ _ _)
      · rintro i ⟨hlt, hapart⟩
        have hlen : (kb.encode.take m).length ≤ redoLogBlockSize := by
          rw [← RedoBlock.length_encode kb]
          exact List.length_take_le' _ _
        rw [ByteFile.byte_pwrite_of_outside _ (by omega),
          ByteFile.byte_pwrite_of_outside _ (by omega)]
  | txnEnd =>
      exact h.elim

theorem runCalls_outcomes {cs : List Call} (hcs : ∀ e ∈ cs, e.Logging) {s : State}
    (h : s.world.outcomes = []) : (runCalls crc cs s).world.outcomes = [] := by
  induction cs generalizing s with
  | nil =>
      exact h
  | cons e cs ih =>
      rw [runCalls_cons]
      exact ih (fun e' he => hcs e' (List.mem_cons_of_mem e he))
        ((hcs e (by simp)).run_dev crc h 0).2.2

theorem resume_outcomes (s : State) : s.resume.world.outcomes = [] := by
  rfl

theorem State.resume_of_outcomes_nil (h : s.world.outcomes = []) : s.resume = s := by
  cases s with
  | mk data world out =>
      cases world with
      | mk init trace outcomes heap =>
          subst h
          rfl

theorem LogCall.Harmless.alike (h : c.Harmless crc s) (hfail : (c.run crc s).1 ≠ 0) {d : Call}
    (hnext : c.Next d) {cs : List Call} (hcs : ∀ e ∈ d :: cs, e.Logging) :
    Alike (c.run crc s).2.resume (runCalls crc (d :: cs) (c.run crc s).2.resume) s.resume
      (runCalls crc (d :: cs) s.resume) := by
  obtain ⟨⟨hdata, htags⟩, hcsum, -⟩ := h.kept hfail
  have hlogs : d.logs = true := by
    cases c with
    | txnBegin retval =>
        obtain rfl : d = .txnBegin := hnext
        rfl
    | write req =>
        rcases hnext with ⟨req, rfl⟩ | rfl <;> rfl
    | txnEnd =>
        exact h.elim
  have hd := hcs d (by simp)
  have hstep := @Call.run_alike crc s.resume (c.run crc s).2.resume d hlogs
    hd rfl rfl hdata htags (hcsum d hnext)
  rw [runCalls_cons, runCalls_cons]
  exact hstep.trans (runCalls_alike (fun e he => hcs e (List.mem_cons_of_mem d he))
    (hd.run_dev crc rfl 0).2.2 (hd.run_dev crc rfl 0).2.2 hstep.1)

/-- The room for a new key block behind `n` tags. -/
def rollSize (n : Nat) : Nat :=
  if n = keysPerBlock then redoLogBlockSize else 0

theorem rollKeyb_places (s : State) :
    (rollKeyb s).data.logOffset = s.data.logOffset + rollSize s.data.keysInBlock ∧
      (rollKeyb s).data.keysInBlock =
        (if s.data.keysInBlock = keysPerBlock then 0 else s.data.keysInBlock) := by
  unfold rollKeyb rollSize
  split_ifs <;> exact ⟨rfl, rfl⟩

theorem txnBegin_ne_of_slot {s s' : State} (h' : s'.world.outcomes = [])
    (h : s.world.outcomes = []) (hkeys : s'.data.keysInBlock = s.data.keysInBlock + 1) :
    (rfsckTxnBegin crc 0 s').2.data ≠ (rfsckTxnBegin crc 0 s).2.data := by
  intro heq
  rw [rfsckTxnBegin_eq crc h', rfsckTxnBegin_eq crc h, State.logTag, State.logTag] at heq
  have hin := congrArg RedoPrivateData.keysInBlock heq
  rw [(rollKeyb_places _).2, (rollKeyb_places _).2] at hin
  dsimp only at hin
  split_ifs at hin <;> omega

theorem rfsckWrite_ne {s s' : State} (h' : s'.world.outcomes = []) (h : s.world.outcomes = [])
    (hkeys : s'.data.keysInBlock = s.data.keysInBlock) {req : WriteReq} (hreq : req.Whole)
    (hne : s'.data.txnCsum ≠ s.data.txnCsum ∨ s'.data.logOffset ≠ s.data.logOffset) :
    (rfsckWrite crc req s').2.data ≠ (rfsckWrite crc req s).2.data := by
  intro heq
  rw [rfsckWrite_eq crc h' hreq, rfsckWrite_eq crc h hreq, State.logTag, State.logTag] at heq
  rcases hne with hcsum | hlog
  · have hx := congrArg RedoPrivateData.txnCsum heq
    rw [(rollKeyb_txn _).2, (rollKeyb_txn _).2] at hx
    exact hcsum ((UInt32.xor_left_inj _).mp hx)
  · have hl := congrArg RedoPrivateData.logOffset heq
    rw [(rollKeyb_places _).1, (rollKeyb_places _).1] at hl
    simp only [State.putData, hkeys] at hl
    omega

/-- **The condition on failures is exact.** -/
theorem LogCall.harmless_iff (hfail : (c.run crc s).1 ≠ 0) :
    c.Harmless crc s ↔ ∀ d cs, c.Next d → (∀ e ∈ d :: cs, e.Logging) →
      Continues crc (d :: cs) (c.run crc s).2 s := by
  constructor
  · intro h d cs hnext hcs
    obtain ⟨hdata, evs, hadds, hworld⟩ := h.alike hfail hnext hcs
    exact ⟨hdata, evs, by rw [hworld]; rfl, by rw [hadds.world_eq]; rfl⟩
  · intro h
    cases c with
    | txnBegin retval =>
        rintro rfl
        have hkeys := keysInBlock_failed (Or.inl rfl) hfail
        have hrun := (h .txnBegin [] rfl (by simp [Call.Logging])).1
        rw [runCalls_cons, runCalls_nil, runCalls_cons, runCalls_nil, Call.run, Call.run] at hrun
        exact @txnBegin_ne_of_slot crc s.resume _ (resume_outcomes _) (resume_outcomes _) hkeys
          hrun
    | write req =>
        obtain ⟨kb, n, hdata, -, -⟩ := rfsckWrite_failed hfail
        have hwhole : emptyWrite.Whole := by
          decide
        have hlogging : ∀ e ∈ [Call.write emptyWrite], e.Logging := by
          intro e he
          rw [List.mem_singleton.mp he]
          exact hwhole
        have hrun := (h (.write emptyWrite) [] (Or.inl ⟨_, rfl⟩) hlogging).1
        rw [runCalls_cons, runCalls_nil, runCalls_cons, runCalls_nil, Call.run, Call.run] at hrun
        have hkeys : (rfsckWrite crc req s).2.data.keysInBlock = s.data.keysInBlock := by
          rw [hdata]
        by_contra hharm
        refine @rfsckWrite_ne crc s.resume _ (resume_outcomes _) (resume_outcomes s) hkeys _
          hwhole ?_ hrun
        change (rfsckWrite crc req s).2.data.txnCsum ≠ s.data.txnCsum ∨
          (rfsckWrite crc req s).2.data.logOffset ≠ s.data.logOffset
        rw [hdata]
        dsimp only
        rw [LogCall.Harmless, not_and_or, not_or, not_not] at hharm
        rcases hharm with hcrc | ⟨hsent, hbuf⟩
        · left
          intro hx
          exact hcrc ((UInt32.xor_right_inj _).mp (hx.trans UInt32.xor_zero.symm))
        · right
          have hlen := List.length_pos_iff.mpr hbuf
          rw [if_pos hsent]
          omega
    | txnEnd =>
        have hkeys := keysInBlock_failed (Or.inr rfl) hfail
        have hrun := (h .txnBegin [] (Or.inr rfl) (by simp [Call.Logging])).1
        rw [runCalls_cons, runCalls_nil, runCalls_cons, runCalls_nil, Call.run, Call.run] at hrun
        exact @txnBegin_ne_of_slot crc s.resume _ (resume_outcomes _) (resume_outcomes _) hkeys
          hrun

end Failures

section Replays

variable {crc : Bytes → UInt32} {s s' t t' : State}

theorem extendsOn_applyEvents {P : Nat → Prop} {f g : ByteFile} (h : f.ExtendsOn P g)
    (evs : List (Event Fd)) :
    (applyEvents .redo f evs).ExtendsOn (fun i => P i ∨ Overwritten evs i)
      (applyEvents .redo g evs) := by
  induction evs generalizing P f g with
  | nil =>
      refine h.mono ?_
      rintro i (hi | ⟨off, buf, hmem, -⟩)
      · exact hi
      · simp at hmem
  | cons e evs ih =>
      cases e with
      | fsync fd =>
          refine (ih h).mono ?_
          rintro i (hi | ⟨off, buf, hmem, hi⟩)
          · exact Or.inl hi
          · exact Or.inr ⟨off, buf, by simpa using hmem, hi⟩
      | pwrite fd off buf =>
          cases fd with
          | redo =>
              refine (ih (h.pwrite off buf)).mono ?_
              rintro i (hi | ⟨off', buf', hmem, hi⟩)
              · exact Or.inl (Or.inl hi)
              · rcases List.mem_cons.mp hmem with heq | hmem
                · simp only [Event.pwrite.injEq, true_and] at heq
                  obtain ⟨rfl, rfl⟩ := heq
                  exact Or.inl (Or.inr hi)
                · exact Or.inr ⟨off', buf', hmem, hi⟩
          | dev fd =>
              refine (ih h).mono ?_
              rintro i (hi | ⟨off', buf', hmem, hi⟩)
              · exact Or.inl hi
              · exact Or.inr ⟨off', buf', by simpa using hmem, hi⟩

theorem Alike.extendsOn (h : Alike s' t' s t)
    (hfile : (s.world.file .redo).ExtendsOn s.data.Base (s'.world.file .redo)) :
    (t.world.file .redo).ExtendsOn t.data.Base (t'.world.file .redo) := by
  obtain ⟨-, evs, hadds, hworld⟩ := h
  rw [hadds.world_eq, hworld, World.file_pushAll, World.file_pushAll]
  exact (extendsOn_applyEvents hfile evs).mono hadds.base

/-- A write of the current key block makes the logs agree below `log_offset`. -/
theorem extendsOn_putKeyb (hdata : s'.data = s.data)
    (hfile : (s.world.file .redo).ExtendsOn s.data.Base (s'.world.file .redo)) :
    ((s.putKeyb crc).world.file .redo).ExtendsOn (fun i => i < s.data.logOffset)
      ((s'.putKeyb crc).world.file .redo) := by
  rw [State.putKeyb, State.putKeyb, World.file_push, World.file_push, applyEvent_pwrite_self,
    applyEvent_pwrite_self, hdata]
  refine (hfile.pwrite _ _).mono ?_
  intro i hi
  rw [RedoBlock.length_encode, RedoPrivateData.Base]
  omega

theorem Action.Inside.mono {a : Action} {m n : Nat} (h : a.Inside m) (hle : m ≤ n) :
    a.Inside n := by
  cases a with
  | copy tag pos =>
      exact ⟨h.1, h.2.trans hle⟩
  | mark offset kb =>
      trivial

/-- Replays of logs that agree below `n` copy the same data from there. -/
theorem devPatches_of_extendsOn {f g : ByteFile} {n : Nat}
    (h : f.ExtendsOn (fun i => i < n) g) {as : List Action}
    (has : ∀ a ∈ as, a.Inside (min f.size n)) : devPatches g as = devPatches f as := by
  induction as generalizing f g with
  | nil =>
      rfl
  | cons a as ih =>
      have ha := has a (by simp)
      have hrest : ∀ b ∈ as, b.Inside (min f.size n) :=
        fun b hb => has b (List.mem_cons_of_mem a hb)
      cases a with
      | copy tag pos =>
          have hread : g.pread pos tag.size.toNat = f.pread pos tag.size.toNat := by
            refine h.pread (ha.2.trans (min_le_left _ _)) ?_
            intro i _ hi
            exact lt_of_lt_of_le hi (ha.2.trans (min_le_right _ _))
          rw [devPatches, devPatches, hread, ih h hrest]
      | mark offset kb =>
          refine ih ((h.pwrite offset kb.encode).mono fun i hi => Or.inl hi) ?_
          intro b hb
          have hsize := f.size_le_size_pwrite offset kb.encode
          exact (hrest b hb).mono (by omega)

theorem SealedLog.of_extendsOn {H : MarkedHistory} {hdr : RedoHeader} {f g : ByteFile}
    (h : SealedLog crc H hdr f)
    (hfg : f.ExtendsOn (fun i => i < dataPos (historyEntries crc 1 H.txns)
      (historyEntries crc 1 H.txns).length) g) :
    SealedLog crc H hdr g := by
  have hkeys := h.numKeys_eq
  have hlen := length_historyEntries crc 1 H.txns
  have hbelow : ∀ {off : Nat} {bs : Bytes}, f.Holds off bs →
      off + bs.length ≤ dataPos (historyEntries crc 1 H.txns)
        (historyEntries crc 1 H.txns).length → g.Holds off bs :=
    fun hf hle => hfg.holds hf (fun i _ hi => lt_of_lt_of_le hi hle)
  generalize hes : historyEntries crc 1 H.txns = es at *
  have hlog := h.log
  rw [hes] at hlog
  refine { h with
    log := ?_ }
  rw [hes]
  refine { hlog with
    stored := ⟨?_, ?_⟩
    header_holds := ?_ }
  · intro i e he
    refine hbelow (hlog.stored.data_holds i e he) ?_
    have hle := dataPos_le_dataPos es (List.getElem?_eq_some_iff.mp he).1
    rw [tagOf_of_getElem? he, e.size_eq] at hle
    exact hle
  · intro k hk
    refine hbelow (hlog.stored.keyb_holds k hk) ?_
    rw [RedoBlock.length_encode]
    refine keybPos_le_dataPos es ?_
    rw [hlen, ← hkeys]
    exact Nat.lt_succ_iff.mp hk
  · refine hbelow hlog.header_holds ?_
    rw [RedoHeader.length_encode, Nat.zero_add]
    exact header_le_dataPos es _

/-- **Replays of logs that agree.** -/
theorem SealedLog.replay_of_extendsOn {H : List Txn} {hdr : RedoHeader}
    (h : SealedLog crc (MarkedHistory.unmarked H) hdr (t.world.file .redo))
    (hlog : t.data.logOffset = dataPos (historyEntries crc 1 H) (historyEntries crc 1 H).length)
    (hdata : t'.data = t.data)
    (hfile : (t.world.file .redo).ExtendsOn (fun i => i < t.data.logOffset) (t'.world.file .redo))
    (hdev : t'.world.file (.dev t.data.devFd) = t.world.file (.dev t.data.devFd))
    (hout' : t'.world.outcomes = []) (hout : t.world.outcomes = []) (sync : Bool) :
    (rfsckReplay crc sync t').2.world.file (.dev t.data.devFd) =
      (rfsckReplay crc sync t).2.world.file (.dev t.data.devFd) := by
  rw [hlog] at hfile
  have hsealed : SealedLog crc (MarkedHistory.unmarked H) hdr (t'.world.file .redo) := by
    refine h.of_extendsOn ?_
    rw [MarkedHistory.txns_unmarked]
    exact hfile
  have hholds : DataHolds (historyEntries crc 1 (MarkedHistory.unmarked H).txns)
      ((t.world.file .redo).truncate (dataPos (historyEntries crc 1 H)
        (historyEntries crc 1 H).length)) := by
    intro i e he
    refine (h.log.stored.data_holds i e he).truncate ?_
    rw [MarkedHistory.txns_unmarked] at he ⊢
    have hle := dataPos_le_dataPos (historyEntries crc 1 H) (List.getElem?_eq_some_iff.mp he).1
    rw [tagOf_of_getElem? he, e.size_eq] at hle
    exact hle
  have hinside := inside_found
    (fun k => (keybOf crc (historyEntries crc 1 (MarkedHistory.unmarked H).txns) k).remark k
      (MarkedHistory.marksAt 0 (MarkedHistory.unmarked H)))
    (MarkedHistory.unmarked H) h.proper hholds [] rfl
    (le_refl (redoHeaderSize + redoLogBlockSize)) []
  have hplan := h.planLog_eq
  have hplan' := hsealed.planLog_eq
  have hreplay := hsealed.replay_dev hout' sync
  rw [hdata] at hreplay
  rw [hreplay, h.replay_dev hout sync, hdev, hplan, hplan']
  exact congrArg _ (devPatches_of_extendsOn hfile hinside)

/-- The state behind later calls and `redo_mark_done(1)`. -/
theorem LogCall.Harmless.markDone {c : LogCall} (h : c.Harmless crc s)
    (hfail : (c.run crc s).1 ≠ 0) {d : Call} (hnext : c.Next d) {cs : List Call}
    (hcs : ∀ e ∈ d :: cs, e.Logging) :
    (redoMarkDone crc true (runCalls crc (d :: cs) (c.run crc s).2.resume)).2.data =
        (redoMarkDone crc true (runCalls crc (d :: cs) s.resume)).2.data ∧
      ((redoMarkDone crc true (runCalls crc (d :: cs) s.resume)).2.world.file .redo).ExtendsOn
        (fun i => i < (redoMarkDone crc true
          (runCalls crc (d :: cs) s.resume)).2.data.logOffset)
        ((redoMarkDone crc true
          (runCalls crc (d :: cs) (c.run crc s).2.resume)).2.world.file .redo) := by
  have hkept := h.kept hfail
  have hrun := h.alike hfail hnext hcs
  have hout := @runCalls_outcomes crc _ hcs _ (resume_outcomes s)
  have hout' := @runCalls_outcomes crc _ hcs _ (resume_outcomes (c.run crc s).2)
  rw [redoMarkDone_eq crc hout, redoMarkDone_eq crc hout']
  have hput := hrun.trans (Alike.putKeyb crc hrun.1)
  have hflush := hput.trans (Alike.putKeyb crc hput.1)
  have hsync := hflush.trans (Alike.syncRedo hflush.1)
  have hhdr := hsync.trans (Alike.putHeader crc hsync.1 true)
  have hfile := hhdr.extendsOn ⟨hkept.2.2.1, hkept.2.2.2⟩
  refine ⟨?_, ?_⟩
  · exact (Alike.putKeyb crc hhdr.1).1
  · have hredo : ∀ t : State, t.syncRedo.world.file .redo = t.world.file .redo := by
      intro t
      rw [State.syncRedo, World.file_push, applyEvent_fsync]
    have hlast := @extendsOn_putKeyb crc _ _ hhdr.1 hfile
    rw [hredo, hredo]
    exact hlast.mono fun i hi => hi

theorem writeData_dev (off : Nat) (buf : Bytes) (s : State) (fd : Nat) :
    (writeInfo .redo off buf true s).2.world.file (.dev fd) = s.world.file (.dev fd) := by
  rw [writeInfo_world]
  exact writeInfo_dev off buf s fd

theorem LogCall.Harmless.run_dev {c : LogCall} (h : c.Harmless crc s) (fd : Nat) :
    (c.run crc s).2.world.file (.dev fd) = s.world.file (.dev fd) := by
  cases c with
  | txnBegin retval =>
      rw [LogCall.run, (rfsckTxnBegin_failed h).2]
  | write req =>
      have hfirst : (writeInfo .redo s.data.logOffset req.buf true
          (s.tagged crc req)).2.world.file (.dev fd) = s.world.file (.dev fd) :=
        writeData_dev s.data.logOffset req.buf (s.tagged crc req) fd
      rw [LogCall.run, rfsckWrite_stages]
      dsimp only
      generalize writeInfo .redo s.data.logOffset req.buf true (s.tagged crc req) = r at *
      have hsecond : (writeKeyb (stampKeybReserved crc r.2)).2.world.file (.dev fd) =
          s.world.file (.dev fd) := (writeInfo_dev _ _ _ fd).trans hfirst
      split_ifs with hdata hkeyb
      · exact hfirst
      · exact hsecond
      · rw [rollKeyb_world]
        exact hsecond
  | txnEnd =>
      exact h.elim

/-- **Replay behind a harmless failure.** -/
theorem LogCall.Harmless.replay_dev {c : LogCall} (h : c.Harmless crc s)
    (hfail : (c.run crc s).1 ≠ 0) {d : Call} (hnext : c.Next d) {cs : List Call}
    (hcs : ∀ e ∈ d :: cs, e.Logging) {H : List Txn} {done : Bool} {fd : Nat} {f : ByteFile}
    (hlogged : Logged crc ⟨H, none⟩ done fd f (runCalls crc (d :: cs) s.resume))
    (hH : ∀ ws ∈ H, ws.Proper) (hids : H.length < 2 ^ 32)
    (hblocks : tagCount H / keysPerBlock < 2 ^ 31) (sync : Bool) :
    (runCalls crc (d :: cs ++ [.markDone true, .replay sync])
        (c.run crc s).2.resume).world.file (.dev fd) =
      (runCalls crc (d :: cs ++ [.markDone true, .replay sync]) s.resume).world.file
        (.dev fd) := by
  have hdone := hlogged.markDone true
  obtain ⟨n, hsession⟩ := hdone.session
  obtain ⟨hdata, hfile⟩ := h.markDone hfail hnext hcs
  have hmarked : ∀ e ∈ d :: cs ++ [.markDone true], e.Logging := by
    intro e he
    rcases List.mem_append.mp he with he | he
    · exact hcs e he
    · rw [List.mem_singleton.mp he]
      trivial
  have hdev' := (runCalls_dev crc hmarked (resume_outcomes (c.run crc s).2) fd).2
  have hdev := (runCalls_dev crc hmarked (resume_outcomes s) fd).2
  rw [runCalls_append] at hdev hdev'
  have hsame : (redoMarkDone crc true (runCalls crc (d :: cs)
        (c.run crc s).2.resume)).2.world.file (.dev fd) =
      (redoMarkDone crc true (runCalls crc (d :: cs) s.resume)).2.world.file (.dev fd) :=
    (hdev'.trans (h.run_dev fd)).trans hdev.symm
  have hout' : (redoMarkDone crc true (runCalls crc (d :: cs)
      (c.run crc s).2.resume)).2.world.outcomes = [] := by
    have hrun := @runCalls_outcomes crc _ hmarked _ (resume_outcomes (c.run crc s).2)
    rw [runCalls_append] at hrun
    exact hrun
  have hoffset := hsession.writer.logOffset_eq
  have hentries : Txns.entries crc ⟨H, none⟩ = historyEntries crc 1 H := List.append_nil _
  rw [hentries, List.length_nil, Nat.add_zero] at hoffset
  have hsealed := hlogged.sealedLog hH hids hblocks
  rw [← hdone.devFd_eq] at hsame
  have hreplay := hsealed.replay_of_extendsOn hoffset hdata hfile hsame hout'
    hsession.outcomes_nil sync
  rw [hdone.devFd_eq] at hreplay
  rw [runCalls_append, runCalls_append]
  exact hreplay

end Replays

/-- **Logging calls report and undo their failures** exactly under the two conditions. -/
theorem failures_reported_and_undone (crc : Bytes → UInt32) :
    (∀ (c : LogCall) (s : State), ((c.run crc s).1 = 0 ↔ c.Succeeds s) ↔ c.Reports s) ∧
    (∀ (c : LogCall) (s : State), (c.run crc s).1 ≠ 0 →
      (c.Harmless crc s ↔ ∀ d cs, c.Next d → (∀ e ∈ d :: cs, e.Logging) →
        Continues crc (d :: cs) (c.run crc s).2 s)) ∧
    (∀ (w : World) (s₀ : State), FreshlyOpened crc w s₀ →
      ∀ (cs₀ : List Call) (d : Call) (cs : List Call) (H : List Txn) (done : Bool),
      PlainRun (cs₀ ++ d :: cs) ⟨H, none⟩ done → (∀ e ∈ d :: cs, e.Logging) →
      H.length < 2 ^ 32 → tagCount H / keysPerBlock < 2 ^ 31 →
      ∀ (os : List Outcome) (c : LogCall) (s : State),
      s = { runCalls crc cs₀ s₀ with world.outcomes := os } →
      (c.run crc s).1 ≠ 0 → c.Harmless crc s → c.Next d → ∀ sync : Bool,
      (runCalls crc (d :: cs ++ [.markDone true, .replay sync])
          (c.run crc s).2.resume).world.file (.dev s₀.data.devFd) =
        (runCalls crc (cs₀ ++ d :: cs ++ [.markDone true, .replay sync]) s₀).world.file
          (.dev s₀.data.devFd)) := by
  refine ⟨LogCall.reports_iff, fun c s hfail => LogCall.harmless_iff hfail, ?_⟩
  intro w s₀ hopen cs₀ d cs H done hrun hcs hids hblocks os c s hs hfail hharm hnext sync
  have hlogged := hrun.logged hopen.logged
  obtain ⟨T, done', hrun₀, -⟩ := hrun.of_isPrefix crc (List.prefix_append cs₀ (d :: cs))
  obtain ⟨n, hsession⟩ := (hrun₀.logged hopen.logged).session
  have hresume : s.resume = runCalls crc cs₀ s₀ := by
    rw [hs]
    exact State.resume_of_outcomes_nil hsession.outcomes_nil
  rw [runCalls_append, ← hresume] at hlogged
  have hreplay := hharm.replay_dev hfail hnext hcs hlogged hrun.proper.1 hids hblocks sync
  rw [List.append_assoc, runCalls_append crc cs₀, ← hresume]
  exact hreplay

theorem failures_reported_and_undone_of_txnBegin :
    ((LogCall.txnBegin 1).run crc32c (blankState crc32c)).1 ≠ 0 ∧
      Continues crc32c [.txnBegin, .txnEnd]
        ((LogCall.txnBegin 1).run crc32c (blankState crc32c)).2 (blankState crc32c) ∧
      (runCalls crc32c [.txnBegin, .txnEnd, .markDone true, .replay true]
          ((LogCall.txnBegin 1).run crc32c (blankState crc32c)).2.resume).world.file
          (.dev (blankState crc32c).data.devFd) =
        (runCalls crc32c [.txnBegin, .txnEnd, .markDone true, .replay true]
          (blankState crc32c)).world.file (.dev (blankState crc32c).data.devFd) := by
  have hfail : ((LogCall.txnBegin 1).run crc32c (blankState crc32c)).1 ≠ 0 := by
    simp [LogCall.run_fst]
  have hharm : (LogCall.txnBegin 1).Harmless crc32c (blankState crc32c) := by
    exact Int.one_ne_zero
  have hcs : ∀ e ∈ [Call.txnBegin, Call.txnEnd], e.Logging := by
    simp [Call.Logging]
  have hempty : Txn.Proper [] := by
    simp [Txn.Proper]
  have hrun : PlainRun ([] ++ [Call.txnBegin, Call.txnEnd]) ⟨[[]], none⟩ false :=
    PlainRun.nil.txn hempty
  have hstate : blankState crc32c = { runCalls crc32c [] (blankState crc32c) with
      world.outcomes := [] } :=
    (State.resume_of_outcomes_nil (blankState_freshlyOpened crc32c).session.1.outcomes_nil).symm
  refine ⟨hfail, ?_, ?_⟩
  · exact ((failures_reported_and_undone crc32c).2.1 _ _ hfail).mp hharm _ _ rfl hcs
  · exact (failures_reported_and_undone crc32c).2.2 blankWorld (blankState crc32c)
      (blankState_freshlyOpened crc32c) [] .txnBegin [.txnEnd] [[]] false hrun hcs (by decide)
      (by decide) [] (.txnBegin 1) (blankState crc32c) hstate hfail hharm rfl true

/-- An end whose flush fails returns 0, and a write that fails stays in the checksum of its
transaction. -/
theorem failures_dropped_and_kept :
    (∃ s, ((LogCall.txnEnd).run crc32c s).1 = 0 ∧ ¬ (LogCall.txnEnd).Succeeds s) ∧
      ∃ s req d cs, ((LogCall.write req).run crc32c s).1 ≠ 0 ∧ (LogCall.write req).Next d ∧
        (∀ e ∈ d :: cs, e.Logging) ∧
        ¬ Continues crc32c (d :: cs) ((LogCall.write req).run crc32c s).2 s := by
  constructor
  · refine ⟨{ blankState crc32c with world.outcomes := [.ok, .ok, .fail] }, ?_, ?_⟩
    · exact (LogCall.run_fst _ _).mpr trivial
    · exact fun h => Outcome.noConfusion h.2.2
  · have hfail : ((LogCall.write (byteWrite 0 7)).run crc32c
        { blankState crc32c with world.outcomes := [.fail] }).1 ≠ 0 := by
      intro hzero
      exact ((LogCall.run_fst _ _).mp hzero).1.2
    have hcrc : crc32c ((byteWrite 0 7).tag crc32c).encode ≠ 0 := by
      decide +kernel
    have hnot := mt (LogCall.harmless_iff hfail).mpr fun h => hcrc h.1
    push Not at hnot
    obtain ⟨d, cs, hnext, hcs, hno⟩ := hnot
    exact ⟨_, _, d, cs, hfail, hnext, hcs, hno⟩

end Redo
end Rfsck
