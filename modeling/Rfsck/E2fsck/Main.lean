import Rfsck.Redo.Replay

/-!
# The transactions of a run of e2fsck

`main` and `e2fsck_run` begin and end the transactions of the redo log.  What decides
about their control flow comes from the file system, the system calls and the passes, and
is an input here: one `Turn` for every time that `main` comes to its label `restart`.

* `e2fsckRun` runs the passes, and `turn` is the body of `main` from the label on.
* `fatal_error` in a pass is a `longjmp` into `e2fsck_run`; elsewhere it ends the process.
* `WellBracketed`: begin and end calls alternate, and the log is marked done while no
  transaction is open.
* `wellBracketed_main_iff`: a run is well bracketed if and only if no call of `e2fsck_run`
  is left before its last pass is over.
-/

namespace Rfsck
namespace E2fsck

open Redo

/-- The flags in `E2F_FLAG_RUN_RETURN`. -/
structure RunReturn where
  abort : Bool
  cancel : Bool
  restart : Bool
deriving DecidableEq

namespace RunReturn

def none : RunReturn where
  abort := false
  cancel := false
  restart := false

/-- `ctx->flags & E2F_FLAG_RUN_RETURN`. -/
def any (r : RunReturn) : Bool :=
  r.abort || r.cancel || r.restart

/-- `ctx->flags & E2F_FLAG_SIGNAL_MASK`. -/
def signal (r : RunReturn) : Bool :=
  r.abort || r.cancel

/-- The flags of both. -/
def raise (r raised : RunReturn) : RunReturn where
  abort := r.abort || raised.abort
  cancel := r.cancel || raised.cancel
  restart := r.restart || raised.restart

end RunReturn

/-- How a pass ends, and the flags that it raises. -/
inductive PassEnd where
  | returns (raised : RunReturn)
  | fatal (raised : RunReturn)
  | exits

/-- What happens when it is the turn of a pass; flags may be raised by a signal before the
loop tests them. -/
structure PassInput where
  signalled : RunReturn
  mmpFailed : Bool
  passEnd : PassEnd

/-- How `e2fsck_run` ends. -/
inductive RunEnd where
  | returned (flags : RunReturn)
  | exited

/-- `fatal_error` while `E2F_FLAG_SETJMP_OK` is set: the flag for an abort is raised, and
`setjmp` returns a second time. -/
def fatalError (flags : RunReturn) : RunEnd :=
  .returned { flags with abort := true }

section Run

variable (redo : Bool)

/-- The call of `rfsck_txn_begin` under `is_redo_enabled`. -/
def beginTxn : List Call :=
  if redo then [.txnBegin] else []

/-- The call of `rfsck_txn_end` under `is_redo_enabled`. -/
def endTxn : List Call :=
  if redo then [.txnEnd] else []

/-- The calls before `goto restart`. -/
def restartLog : List Call :=
  if redo then [.txnEnd, .markDone true, .replay true, .markDone false] else []

/-- The calls at the end of `main`, up to `rfsck_close`. -/
def finishLog : List Call :=
  if redo then [.txnEnd, .markDone true, .replay true] else []

/-- `e2fsck_run`: the calls of the library, and the result. -/
def e2fsckRun : List PassInput → RunReturn → List Call × RunEnd
  | [], flags => ([], .returned flags)
  | p :: ps, flags =>
      let flags := flags.raise p.signalled
      if flags.any then
        (beginTxn redo, .returned flags)
      else if p.mmpFailed then
        (beginTxn redo, fatalError flags)
      else
        match p.passEnd with
        | .exits => (beginTxn redo, .exited)
        | .fatal raised => (beginTxn redo, fatalError (flags.raise raised))
        | .returns raised =>
            let rest := e2fsckRun ps (flags.raise raised)
            (beginTxn redo ++ endTxn redo ++ rest.1, rest.2)

end Run

/-- The passes in `e2fsck_passes`. -/
def passCount : Nat := 6

/-- What `main` finds from the label `restart` on. -/
structure Turn where
  /-- `try_open_fs` fails, or finds features that are not supported. -/
  openFailed : Bool
  /-- `ext2fs_get_device_size2` fails, or reports `EBUSY` first. -/
  sizeFailed : Bool
  busy : Bool
  revTooHigh : Bool
  /-- The file system has the feature `mmp`, and `e2fsck_check_mmp` fails. -/
  mmp : Bool
  mmpFailed : Bool
  /-- The device is mounted, or `e2fsck_check_ext3_journal` fails. -/
  mounted : Bool
  journalFailed : Bool
  needsRecovery : Bool
  unsupported : Bool
  /-- Flags raised until they are tested behind `check_super_block`. -/
  superRaised : RunReturn
  /-- `check_if_skip` finds nothing to do. -/
  skipped : Bool
  /-- Flags raised when the bad blocks are read. -/
  badBlocksRaised : RunReturn
  quotaFailed : Bool
  /-- The process ends in a function that `main` calls before the passes, or behind
  them. -/
  haltedBefore : Bool
  haltedBehind : Bool
  passes : List PassInput
  passes_length : passes.length = passCount
  /-- `e2fsck_reset_context` fails. -/
  resetFailed : Bool

/-- What `main` keeps from one turn to the next. -/
structure Context where
  flags : RunReturn
  restarted : Bool
  gotDevsize : Bool
  skipMmp : Bool
deriving DecidableEq

/-- The context at the start of `main`. -/
def Context.start : Context where
  flags := RunReturn.none
  restarted := false
  gotDevsize := false
  skipMmp := true

/-- How the part of `main` between `rfsck_txn_begin` and the passes ends. -/
inductive Prepared where
  | exited
  | restart (ctx : Context)
  | run (ctx : Context)

/-- `main` between the first `rfsck_txn_begin` and the passes. -/
def prepare (readOnly : Bool) (t : Turn) (ctx : Context) : Prepared :=
  let ctx := { ctx with flags := ctx.flags.raise t.superRaised }
  if t.haltedBefore || (!ctx.gotDevsize && t.sizeFailed) then
    .exited
  else if !ctx.gotDevsize && t.busy then
    .restart { ctx with gotDevsize := true }
  else
    let ctx := { ctx with gotDevsize := true }
    if t.revTooHigh then
      .exited
    else if t.mmp && ctx.skipMmp then
      if t.mmpFailed then
        .exited
      else
        .restart { ctx with skipMmp := false }
    else if !t.mounted && t.journalFailed then
      .exited
    else if t.needsRecovery && !readOnly then
      if ctx.restarted then
        .exited
      else
        .restart { ctx with restarted := true }
    else if t.unsupported || ctx.flags.signal || t.skipped then
      .exited
    else
      let ctx := { ctx with flags := ctx.flags.raise t.badBlocksRaised }
      if ctx.flags.signal || t.quotaFailed then
        .exited
      else
        .run ctx

/-- How a turn ends. -/
inductive TurnEnd where
  | exited
  | finished
  | restart (ctx : Context)

/-- `main` behind `e2fsck_run`. -/
def conclude (redo : Bool) (t : Turn) (ctx : Context) (flags : RunReturn) :
    List Call × TurnEnd :=
  if t.haltedBehind || flags.abort then
    ([], .exited)
  else if flags = { RunReturn.none with restart := true } then
    if t.resetFailed then
      ([], .exited)
    else
      (restartLog redo, .restart
        { ctx with flags := RunReturn.none, restarted := false, gotDevsize := false })
  else
    (finishLog redo, .finished)

/-- `main` from the call of `e2fsck_run` on. -/
def runPasses (redo : Bool) (t : Turn) (ctx : Context) : List Call × TurnEnd :=
  match e2fsckRun redo t.passes ctx.flags with
  | (calls, .exited) => (calls, .exited)
  | (calls, .returned flags) =>
      let rest := conclude redo t ctx flags
      (calls ++ beginTxn redo ++ rest.1, rest.2)

/-- One turn of `main` from the label `restart` on. -/
def turn (redo readOnly : Bool) (t : Turn) (ctx : Context) : List Call × TurnEnd :=
  if t.openFailed then
    ([], .exited)
  else
    match prepare readOnly t ctx with
    | .exited => (beginTxn redo, .exited)
    | .restart ctx => (beginTxn redo ++ restartLog redo, .restart ctx)
    | .run ctx =>
        let rest := runPasses redo t ctx
        (beginTxn redo ++ endTxn redo ++ rest.1, rest.2)

/-- `main`: the calls of the library in the turns that there are. -/
def main (redo readOnly : Bool) : List Turn → Context → List Call
  | [], _ => []
  | t :: ts, ctx =>
      match turn redo readOnly t ctx with
      | (calls, .restart ctx) => calls ++ main redo readOnly ts ctx
      | (calls, _) => calls

section Brackets

/-- Whether a transaction is open behind a call, if the call fits. -/
def bracket (opened : Bool) : Call → Option Bool
  | .txnBegin => if opened then none else some true
  | .txnEnd => if opened then some false else none
  | .markDone true => if opened then none else some false
  | _ => some opened

/-- Begin and end calls alternate, starting with begin, and `redo_mark_done(1)` is called
while no transaction is open. -/
def WellBracketed (calls : List Call) : Prop :=
  (calls.foldlM bracket false).isSome

/-- The passes are all run, and no flag that ends `e2fsck_run` is raised before the last
one, unless the process ends. -/
def RunsThrough : List PassInput → RunReturn → Prop
  | [], _ => True
  | p :: ps, flags =>
      (flags.raise p.signalled).any = false ∧ p.mmpFailed = false ∧
        match p.passEnd with
        | .exits => True
        | .fatal _ => False
        | .returns raised => RunsThrough ps ((flags.raise p.signalled).raise raised)

/-- The call of `e2fsck_run` in a turn runs through, if there is one. -/
def TurnRunsThrough (readOnly : Bool) (t : Turn) (ctx : Context) : Prop :=
  t.openFailed = false → ∀ ctx', prepare readOnly t ctx = .run ctx' →
    RunsThrough t.passes ctx'.flags

/-- The passes run through in every turn that `main` comes to. -/
def AllRunThrough (readOnly : Bool) : List Turn → Context → Prop
  | [], _ => True
  | t :: ts, ctx =>
      TurnRunsThrough readOnly t ctx ∧
        ∀ ctx', (turn true readOnly t ctx).2 = .restart ctx' → AllRunThrough readOnly ts ctx'

theorem bracket_turnaround :
    (beginTxn true ++ endTxn true).foldlM bracket false = some false := rfl

theorem bracket_restartLog :
    (restartLog true).foldlM bracket true = some false := rfl

theorem bracket_finishLog :
    (finishLog true).foldlM bracket true = some false := rfl

/-- A second begin call. -/
theorem bracket_beginTxn_twice (calls : List Call) :
    (beginTxn true ++ calls).foldlM bracket true = none := rfl

/-- What is left of the passes for the calls behind them: whether a transaction is open. -/
def LeavesOpen (ps : List PassInput) (flags : RunReturn) (opened : Bool) : RunEnd → Prop
  | .exited => RunsThrough ps flags
  | .returned _ => opened = false ↔ RunsThrough ps flags

/-- **The passes** leave a transaction open exactly if they return before the last one is
over. -/
theorem bracket_e2fsckRun
    (ps : List PassInput)
    (flags : RunReturn) :
    ∃ opened, (e2fsckRun true ps flags).1.foldlM bracket false = some opened ∧
      LeavesOpen ps flags opened (e2fsckRun true ps flags).2 := by
  induction ps generalizing flags with
  | nil =>
      exact ⟨false, rfl, ⟨fun _ => trivial, fun _ => rfl⟩⟩
  | cons p ps ih =>
      simp only [e2fsckRun]
      by_cases hany : (flags.raise p.signalled).any = true
      · rw [if_pos hany]
        exact ⟨true, rfl, by simp [LeavesOpen, RunsThrough, hany]⟩
      rw [if_neg hany]
      by_cases hmmp : p.mmpFailed = true
      · rw [if_pos hmmp]
        exact ⟨true, rfl, by simp [LeavesOpen, RunsThrough, fatalError, hmmp]⟩
      rw [if_neg hmmp]
      have hany' : (flags.raise p.signalled).any = false := by simpa using hany
      have hmmp' : p.mmpFailed = false := by simpa using hmmp
      cases hend : p.passEnd with
      | exits =>
          exact ⟨true, rfl, by simp [LeavesOpen, RunsThrough, hany', hmmp', hend]⟩
      | fatal raised =>
          exact ⟨true, rfl, by simp [LeavesOpen, RunsThrough, fatalError, hend]⟩
      | returns raised =>
          obtain ⟨opened, hopened, hleaves⟩ := ih ((flags.raise p.signalled).raise raised)
          refine ⟨opened, ?_, ?_⟩
          · rw [List.foldlM_append, bracket_turnaround]
            exact hopened
          · have hthrough : RunsThrough (p :: ps) flags ↔
                RunsThrough ps ((flags.raise p.signalled).raise raised) := by
              simp [RunsThrough, hany', hmmp', hend]
            simp only [LeavesOpen, hthrough]
            exact hleaves

/-- The calls fit, and no transaction is open when they end in a restart. -/
def Fits (opened : Bool) (r : List Call × TurnEnd) : Prop :=
  ∃ behind, r.1.foldlM bracket opened = some behind ∧
    ∀ ctx, r.2 = .restart ctx → behind = false

theorem fits_conclude
    (t : Turn)
    (ctx : Context)
    (flags : RunReturn) :
    Fits true (conclude true t ctx flags) := by
  unfold conclude
  split
  · exact ⟨true, rfl, fun _ h => by cases h⟩
  · split
    · split
      · exact ⟨true, rfl, fun _ h => by cases h⟩
      · exact ⟨false, bracket_restartLog, fun _ _ => rfl⟩
    · exact ⟨false, bracket_finishLog, fun _ _ => rfl⟩

/-- The begin call of `main` behind the passes is the second one in a row if they did not
run through. -/
theorem bracket_runPasses
    (t : Turn)
    (ctx : Context) :
    (RunsThrough t.passes ctx.flags ∧ Fits false (runPasses true t ctx)) ∨
      (¬ RunsThrough t.passes ctx.flags ∧
        (runPasses true t ctx).1.foldlM bracket false = none) := by
  obtain ⟨opened, hopened, hleaves⟩ := bracket_e2fsckRun t.passes ctx.flags
  unfold runPasses
  cases hrun : e2fsckRun true t.passes ctx.flags with
  | mk calls runEnd =>
      rw [hrun] at hopened hleaves
      cases runEnd with
      | exited =>
          exact .inl ⟨hleaves, opened, hopened, fun _ h => by cases h⟩
      | returned flags =>
          have hclosed : opened = false ↔ RunsThrough t.passes ctx.flags := hleaves
          have hbehind : ∀ rest, (calls ++ beginTxn true ++ rest).foldlM bracket false =
              (beginTxn true ++ rest).foldlM bracket opened := by
            intro rest
            rw [List.append_assoc, List.foldlM_append, hopened]
            rfl
          cases opened with
          | false =>
              obtain ⟨behind, hconclude, hrestart⟩ := fits_conclude t ctx flags
              exact .inl ⟨hclosed.mp rfl, behind, (hbehind _).trans hconclude, hrestart⟩
          | true =>
              refine .inr ⟨fun h => ?_, (hbehind _).trans (bracket_beginTxn_twice _)⟩
              exact Bool.noConfusion (hclosed.mpr h)

/-- **One turn** fits exactly if its passes run through. -/
theorem bracket_turn
    (readOnly : Bool)
    (t : Turn)
    (ctx : Context) :
    (TurnRunsThrough readOnly t ctx ∧ Fits false (turn true readOnly t ctx)) ∨
      (¬ TurnRunsThrough readOnly t ctx ∧
        (turn true readOnly t ctx).1.foldlM bracket false = none) := by
  unfold turn TurnRunsThrough
  by_cases hopen : t.openFailed = true
  · rw [if_pos hopen]
    exact .inl ⟨fun h => by simp [hopen] at h, false, rfl, fun _ h => by cases h⟩
  rw [if_neg hopen]
  cases hprepare : prepare readOnly t ctx with
  | exited =>
      exact .inl ⟨fun _ _ h => Prepared.noConfusion h, true, rfl, fun _ h => by cases h⟩
  | restart ctx₁ =>
      exact .inl ⟨fun _ _ h => Prepared.noConfusion h, false, rfl, fun _ _ => rfl⟩
  | run ctx₁ =>
      have hthrough : (t.openFailed = false → ∀ ctx', Prepared.run ctx₁ = .run ctx' →
          RunsThrough t.passes ctx'.flags) ↔ RunsThrough t.passes ctx₁.flags :=
        ⟨fun h => h (by simpa using hopen) ctx₁ rfl, fun h _ _ hctx => by cases hctx; exact h⟩
      rw [hthrough]
      exact bracket_runPasses t ctx₁

/-- A pass that raises `E2F_FLAG_RESTART`, and a file system in which nothing else
happens. -/
def restartingTurn : Turn where
  openFailed := false
  sizeFailed := false
  busy := false
  revTooHigh := false
  mmp := false
  mmpFailed := false
  mounted := false
  journalFailed := false
  needsRecovery := false
  unsupported := false
  superRaised := RunReturn.none
  skipped := false
  badBlocksRaised := RunReturn.none
  quotaFailed := false
  haltedBefore := false
  haltedBehind := false
  passes :=
    ⟨RunReturn.none, false, .returns { RunReturn.none with restart := true }⟩ ::
      List.replicate 5 ⟨RunReturn.none, false, .returns RunReturn.none⟩
  passes_length := rfl
  resetFailed := false

end Brackets

end E2fsck
end Rfsck
