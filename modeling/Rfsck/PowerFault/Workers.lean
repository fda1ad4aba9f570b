import Rfsck.PowerFault.Request

/-!
# Worker threads

Up to 16 threads execute `bs_rdwr_request`.  In `pfe_log_io_req` only the reservation of an id and
of a place in the data log is under the mutex; the header, the count and the data are three later
writes, and the write to the device is a fourth.

* `Frame`: a write command in progress, with how far its worker is.
* `Workers`: the recorder and all write commands since the start, in the order of their ids; a
  schedule is a list of `Action`s, in which any command may take the next step.
* `io_log_consistent`: ids without gaps and disjoint extents in every state; header and data of
  every counted write in the states in which all counted calls have returned; the count behind
  all calls, if the counts were written in the order of the ids.
* `log_order_is_device_order`: the order of the ids is the order on the device, if no write is
  reserved while one that overlaps it is in flight.
-/

namespace Rfsck
namespace PowerFault

open Storage
open Redo (Outcome maxRwCount)

/-- How far a worker is in a write command. -/
inductive Pc where
  | reserved
  | headerLogged
  | countLogged
  | returned
  | written
deriving DecidableEq, Repr

/-- The number of steps behind the reservation. -/
def Pc.rank : Pc → Nat
  | .reserved => 0
  | .headerLogged => 1
  | .countLogged => 2
  | .returned => 3
  | .written => 4

/-- A write command in progress: the local variables of `pfe_log_io_req` and of its caller. -/
structure Frame where
  io : Io
  pc : Pc

/-- The next step of a worker; a failed write ends `pfe_log_io_req`, whose result its caller
ignores. -/
def Frame.step (f : Frame) (r : Recorder) : Pc × Recorder :=
  match f.pc with
  | .reserved =>
      let header := r.logHeader f.io.header
      (if header.1 < 0 then .returned else .headerLogged, header.2)
  | .headerLogged =>
      let count := r.logCount f.io.header
      (if count.1 < 0 then .returned else .countLogged, count.2)
  | .countLogged =>
      let data := r.logData f.io.header f.io.data
      (.returned, if data.1 < 0 then data.2 else (data.2.call System.fsync).2)
  | .returned => (.written, (r.call (·.pwrite .disk f.io.patch.offset f.io.data)).2)
  | .written => (.written, r)

/-- All write commands since the start, in the order of their ids, and the ids in the order of
the writes to the device. -/
structure Workers where
  recorder : Recorder
  frames : List Frame
  order : List Nat

/-- A step of one worker: a reservation, or the next step of a command. -/
inductive Action where
  | reserve (cmd : CmdInfo) (ts offset : UInt64) (buf : Bytes)
  | advance (k : Nat)

namespace Workers

variable (s : Workers)

/-- The start of `tgtd`. -/
def init (image : ByteFile) (outcomes : List Outcome) (heap : Nat → UInt8) : Workers where
  recorder := Recorder.init image outcomes heap
  frames := []
  order := []

/-- One step. -/
def act : Action → Workers
  | .reserve cmd ts offset buf =>
      let reserved := s.recorder.reserve cmd ts offset buf.length
      { s with
        recorder := reserved.2
        frames := s.frames ++ [⟨⟨reserved.1, buf⟩, .reserved⟩] }
  | .advance k =>
      match s.frames[k]? with
      | none => s
      | some f =>
          { recorder := (f.step s.recorder).2
            frames := s.frames.set k { f with pc := (f.step s.recorder).1 }
            order := if f.pc = .returned then s.order ++ [f.io.header.id] else s.order }

def run (acts : List Action) : Workers :=
  acts.foldl Workers.act s

/-- Every step meets a condition in the state before it. -/
def EachAction (P : Action → Workers → Prop) : List Action → Workers → Prop
  | [], _ => True
  | a :: acts, s => P a s ∧ EachAction P acts (s.act a)

end Workers

section Alone

variable {r : Recorder}

/-- Steps of one worker without any other. -/
def Frame.steps : Nat → Frame → Recorder → Frame × Recorder
  | 0, f, r => (f, r)
  | n + 1, f, r => Frame.steps n { f with pc := (f.step r).1 } (f.step r).2

theorem Frame.steps_succ (n : Nat) (io : Io) (pc : Pc) (r : Recorder) :
    Frame.steps (n + 1) ⟨io, pc⟩ r =
      Frame.steps n ⟨io, (Frame.step ⟨io, pc⟩ r).1⟩ (Frame.step ⟨io, pc⟩ r).2 := by
  rfl

end Alone

section Steps

variable {f : Frame} {r : Recorder} {file : File → ByteFile}

/-- What a step of a worker does to the files if no system call fails. -/
inductive Frame.Steps (f : Frame) (file : File → ByteFile) : Pc → (File → ByteFile) → Prop
  | header (hpc : f.pc = .reserved) (hpos : f.io.header.pos + pfeIoHeaderSize < 2 ^ 63) :
      Frame.Steps f file .headerLogged (Function.update file .header
        ((file .header).pwrite f.io.header.pos f.io.header.encode))
  | count (hpc : f.pc = .headerLogged) :
      Frame.Steps f file .countLogged (Function.update file .header
        ((file .header).pwrite 0 (le64 (UInt64.ofNat f.io.header.id))))
  | data (hpc : f.pc = .countLogged) (hlen : f.io.data.length ≤ maxRwCount)
      (hlt : f.io.header.datalogOffset + f.io.data.length < 2 ^ 63) :
      Frame.Steps f file .returned (Function.update file .data
        ((file .data).pwrite f.io.header.datalogOffset f.io.data))
  | disk (hpc : f.pc = .returned) (hlt : f.io.header.offset.toNat + f.io.data.length < 2 ^ 63) :
      Frame.Steps f file .written (Function.update file .disk
        ((file .disk).pwrite f.io.patch.offset f.io.data))
  | idle (hpc : f.pc = .written) : Frame.Steps f file .written file

theorem Frame.step_of_intact (h : (f.step r).2.sys.intact = true) :
    r.sys.intact = true ∧ f.Steps r.sys.file (f.step r).1 (f.step r).2.sys.file := by
  have hlt : ∀ n : Nat, ¬ (n : Int) < 0 := fun n => by omega
  cases hpc : f.pc with
  | reserved =>
      unfold Frame.step at h ⊢
      rw [hpc] at h ⊢
      obtain ⟨hr, -, hpos, heq⟩ := Recorder.call_pwrite_of_intact h
      change r.logHeader f.io.header = _ at heq
      dsimp only
      rw [heq, if_neg (hlt _)]
      rw [PfeIoHeader.length_encode] at hpos
      exact ⟨hr, .header hpc hpos⟩
  | headerLogged =>
      unfold Frame.step at h ⊢
      rw [hpc] at h ⊢
      obtain ⟨hr, -, -, heq⟩ := Recorder.call_pwrite_of_intact h
      change r.logCount f.io.header = _ at heq
      dsimp only
      rw [heq, if_neg (hlt _)]
      exact ⟨hr, .count hpc⟩
  | countLogged =>
      unfold Frame.step at h ⊢
      rw [hpc] at h ⊢
      dsimp only at h ⊢
      have hdata : (r.logData f.io.header f.io.data).2.sys.intact = true := by
        split_ifs at h
        · exact h
        · exact (System.keeps_fsync _).intact h
      obtain ⟨hr, hlen, hoff, heq⟩ := Recorder.call_pwrite_of_intact hdata
      change r.logData f.io.header f.io.data = _ at heq
      rw [heq, if_neg (hlt _)]
      refine ⟨hr, ?_⟩
      have hfile := (System.keeps_fsync (r.setFile .data
        ((r.sys.file .data).pwrite f.io.header.datalogOffset f.io.data)).sys).file
      change f.Steps r.sys.file .returned (System.fsync _).2.file
      rw [hfile]
      exact .data hpc hlen hoff
  | returned =>
      unfold Frame.step at h ⊢
      rw [hpc] at h ⊢
      obtain ⟨hr, -, hoff, heq⟩ := Recorder.call_pwrite_of_intact h
      dsimp only
      rw [heq]
      exact ⟨hr, .disk hpc hoff⟩
  | written =>
      unfold Frame.step at h ⊢
      rw [hpc] at h ⊢
      exact ⟨h, .idle hpc⟩

end Steps

section Reserved

variable {s : Workers} {k : Nat} {f : Frame}

theorem act_advance (hk : s.frames[k]? = some f) :
    s.act (.advance k) =
      { recorder := (f.step s.recorder).2
        frames := s.frames.set k { f with pc := (f.step s.recorder).1 }
        order := if f.pc = .returned then s.order ++ [f.io.header.id] else s.order } := by
  unfold Workers.act
  dsimp only
  rw [hk]

theorem act_advance_none (hk : s.frames[k]? = none) : s.act (.advance k) = s := by
  unfold Workers.act
  dsimp only
  rw [hk]

theorem frames_advance (hk : s.frames[k]? = some f) {j : Nat} {g : Frame}
    (hg : (s.act (.advance k)).frames[j]? = some g) :
    (j = k ∧ g = { f with pc := (f.step s.recorder).1 }) ∨ (j ≠ k ∧ s.frames[j]? = some g) := by
  rw [act_advance hk] at hg
  dsimp only at hg
  rw [List.getElem?_set] at hg
  by_cases hj : k = j
  · rw [if_pos hj, if_pos (List.getElem?_eq_some_iff.mp hk).1] at hg
    exact .inl ⟨hj.symm, (Option.some.inj hg).symm⟩
  · rw [if_neg hj] at hg
    exact .inr ⟨Ne.symm hj, hg⟩

theorem frames_reserve {cmd : CmdInfo} {ts offset : UInt64} {buf : Bytes} {j : Nat} {g : Frame}
    (hg : (s.act (.reserve cmd ts offset buf)).frames[j]? = some g) :
    (j = s.frames.length ∧
        g = ⟨⟨(s.recorder.reserve cmd ts offset buf.length).1, buf⟩, .reserved⟩) ∨
      s.frames[j]? = some g := by
  change (s.frames ++ [_])[j]? = some g at hg
  by_cases hj : j < s.frames.length
  · rw [List.getElem?_append_left hj] at hg
    exact .inr hg
  · have hlen := (List.getElem?_eq_some_iff.mp hg).1
    rw [List.length_append, List.length_singleton] at hlen
    obtain rfl : j = s.frames.length := by omega
    rw [List.getElem?_concat_length] at hg
    exact .inl ⟨rfl, (Option.some.inj hg).symm⟩

theorem step_counters (f : Frame) (r : Recorder) :
    (f.step r).2.pfeIoId = r.pfeIoId ∧
      (f.step r).2.pfeIoDatalogOffset = r.pfeIoDatalogOffset := by
  unfold Frame.step
  split
  · exact ⟨rfl, rfl⟩
  · exact ⟨rfl, rfl⟩
  · dsimp only
    split_ifs
    · exact ⟨rfl, rfl⟩
    · exact ⟨rfl, rfl⟩
  · exact ⟨rfl, rfl⟩
  · exact ⟨rfl, rfl⟩

/-- What the mutex guarantees: consecutive ids, and extents one behind the other. -/
structure Workers.Reserved (s : Workers) : Prop where
  id_eq : ∀ (j : Nat) (g : Frame), s.frames[j]? = some g → g.io.header.id = j + 1
  length_eq : ∀ (j : Nat) (g : Frame), s.frames[j]? = some g →
    g.io.header.length = g.io.data.length
  extents : ∀ (i j : Nat) (f g : Frame), i < j → s.frames[i]? = some f →
    s.frames[j]? = some g → f.io.header.datalogOffset + f.io.data.length ≤ g.io.header.datalogOffset
  nextId : s.recorder.pfeIoId = s.frames.length + 1
  extent_le : ∀ (j : Nat) (g : Frame), s.frames[j]? = some g →
    g.io.header.datalogOffset + g.io.data.length ≤ s.recorder.pfeIoDatalogOffset

theorem reserved_init (image : ByteFile) (outcomes : List Outcome) (heap : Nat → UInt8) :
    (Workers.init image outcomes heap).Reserved := by
  refine ⟨?_, ?_, ?_, rfl, ?_⟩ <;> simp [Workers.init]

theorem Workers.Reserved.reserve (h : s.Reserved) (cmd : CmdInfo) (ts offset : UInt64)
    (buf : Bytes) : (s.act (.reserve cmd ts offset buf)).Reserved where
  id_eq := by
    intro j g hg
    rcases frames_reserve hg with ⟨rfl, rfl⟩ | hg
    · exact h.nextId
    · exact h.id_eq j g hg
  length_eq := by
    intro j g hg
    rcases frames_reserve hg with ⟨-, rfl⟩ | hg
    · rfl
    · exact h.length_eq j g hg
  extents := by
    intro i j f g hij hf hg
    rcases frames_reserve hf with ⟨rfl, -⟩ | hf
    · have hlen := (List.getElem?_eq_some_iff.mp hg).1
      change j < (s.frames ++ [_]).length at hlen
      rw [List.length_append, List.length_singleton] at hlen
      omega
    · rcases frames_reserve hg with ⟨-, rfl⟩ | hg
      · exact h.extent_le i f hf
      · exact h.extents i j f g hij hf hg
  nextId := by
    change s.recorder.pfeIoId + 1 = (s.frames ++ [_]).length + 1
    rw [h.nextId, List.length_append, List.length_singleton]
  extent_le := by
    intro j g hg
    rcases frames_reserve hg with ⟨-, rfl⟩ | hg
    · exact le_refl _
    · exact (h.extent_le j g hg).trans (Nat.le_add_right _ _)

theorem Workers.Reserved.advance (h : s.Reserved) (k : Nat) : (s.act (.advance k)).Reserved := by
  cases hk : s.frames[k]? with
  | none =>
      rw [act_advance_none hk]
      exact h
  | some f =>
      -- a step does not touch the header of a command
      have hio : ∀ (j : Nat) (g : Frame), (s.act (.advance k)).frames[j]? = some g →
          ∃ g', s.frames[j]? = some g' ∧ g.io = g'.io := by
        intro j g hg
        rcases frames_advance hk hg with ⟨rfl, rfl⟩ | ⟨-, hg⟩
        · exact ⟨f, hk, rfl⟩
        · exact ⟨g, hg, rfl⟩
      have hcounters := step_counters f s.recorder
      have hact := act_advance hk
      exact {
        id_eq := by
          intro j g hg
          obtain ⟨g', hg', heq⟩ := hio j g hg
          rw [heq]
          exact h.id_eq j g' hg'
        length_eq := by
          intro j g hg
          obtain ⟨g', hg', heq⟩ := hio j g hg
          rw [heq]
          exact h.length_eq j g' hg'
        extents := by
          intro i j f g hij hf hg
          obtain ⟨f', hf', hfeq⟩ := hio i f hf
          obtain ⟨g', hg', hgeq⟩ := hio j g hg
          rw [hfeq, hgeq]
          exact h.extents i j f' g' hij hf' hg'
        nextId := by
          rw [hact]
          dsimp only
          rw [hcounters.1, List.length_set]
          exact h.nextId
        extent_le := by
          intro j g hg
          obtain ⟨g', hg', heq⟩ := hio j g hg
          rw [heq, hact]
          dsimp only
          rw [hcounters.2]
          exact h.extent_le j g' hg' }

theorem Workers.Reserved.act (h : s.Reserved) (a : Action) : (s.act a).Reserved := by
  cases a with
  | reserve cmd ts offset buf => exact h.reserve cmd ts offset buf
  | advance k => exact h.advance k

theorem Workers.Reserved.run (h : s.Reserved) (acts : List Action) : (s.run acts).Reserved := by
  induction acts generalizing s with
  | nil => exact h
  | cons a acts ih => exact ih (h.act a)

end Reserved

section Stored

variable {f g : Frame} {file file' : File → ByteFile} {pc : Pc}

/-- What is in the logs of a command, as far as its worker is. -/
structure Frame.Stored (f : Frame) (file : File → ByteFile) : Prop where
  header : 1 ≤ f.pc.rank → (file .header).Holds f.io.header.pos f.io.header.encode ∧
    f.io.header.pos + pfeIoHeaderSize < 2 ^ 63
  data : 3 ≤ f.pc.rank → (file .data).Holds f.io.header.datalogOffset f.io.data ∧
    f.io.data.length ≤ maxRwCount ∧ f.io.header.datalogOffset + f.io.data.length < 2 ^ 63
  offset : 4 ≤ f.pc.rank → f.io.header.offset.toNat + f.io.data.length < 2 ^ 63

theorem Frame.Stored.other (hg : g.Stored file) (hstep : f.Steps file pc file')
    (hid : g.io.header.id ≠ f.io.header.id) (hpos : 1 ≤ g.io.header.id)
    (hext : g.io.header.datalogOffset + g.io.data.length ≤ f.io.header.datalogOffset ∨
      f.io.header.datalogOffset + f.io.data.length ≤ g.io.header.datalogOffset) :
    g.Stored file' := by
  refine ⟨fun hrank => ⟨?_, (hg.header hrank).2⟩, fun hrank => ⟨?_, (hg.data hrank).2⟩, hg.offset⟩
  · have hold := (hg.header hrank).1
    cases hstep with
    | header =>
        rw [Function.update_self]
        exact holds_logHeader hold hid
    | count =>
        rw [Function.update_self]
        exact holds_logCount hold hpos _
    | data => exact hold
    | disk => exact hold
    | idle => exact hold
  · have hold := (hg.data hrank).1
    cases hstep with
    | header => exact hold
    | count => exact hold
    | data =>
        rw [Function.update_self]
        exact hold.pwrite_of_disjoint hext
    | disk => exact hold
    | idle => exact hold

theorem Frame.Stored.own (hf : f.Stored file) (hstep : f.Steps file pc file')
    (hpos : 1 ≤ f.io.header.id) : Frame.Stored { f with pc := pc } file' := by
  cases hstep with
  | header hpc hlt =>
      refine ⟨fun _ => ⟨?_, hlt⟩, fun h => absurd h (by simp [Pc.rank]), fun h => absurd h (by simp [Pc.rank])⟩
      rw [Function.update_self]
      exact ByteFile.holds_pwrite_self _ _ _
  | count hpc =>
      obtain ⟨hold, hlt⟩ := hf.header (by rw [hpc]; decide)
      refine ⟨fun _ => ⟨?_, hlt⟩, fun h => absurd h (by simp [Pc.rank]), fun h => absurd h (by simp [Pc.rank])⟩
      rw [Function.update_self]
      exact holds_logCount hold hpos _
  | data hpc hlen hlt =>
      refine ⟨fun _ => hf.header (by rw [hpc]; decide), fun _ => ⟨?_, hlen, hlt⟩,
        fun h => absurd h (by simp [Pc.rank])⟩
      rw [Function.update_self]
      exact ByteFile.holds_pwrite_self _ _ _
  | disk hpc hlt =>
      exact ⟨fun _ => hf.header (by rw [hpc]; decide), fun _ => hf.data (by rw [hpc]; decide),
        fun _ => hlt⟩
  | idle hpc =>
      exact ⟨fun _ => hf.header (by rw [hpc]; decide), fun _ => hf.data (by rw [hpc]; decide),
        fun _ => hf.offset (by rw [hpc]; decide)⟩

end Stored

section Consistent

variable {s : Workers}

/-- What is in the log files in a state. -/
structure Workers.Consistent (s : Workers) : Prop where
  stored : ∀ (j : Nat) (g : Frame), s.frames[j]? = some g → g.Stored s.recorder.sys.file
  size : pfeIoHeaderSize ≤ (s.recorder.sys.file .header).size
  cnt_le : ioCnt (s.recorder.sys.file .header) ≤ s.frames.length

theorem consistent_init (image : ByteFile) (outcomes : List Outcome) (heap : Nat → UInt8) :
    (Workers.init image outcomes heap).Consistent := by
  have h := recorded_init image outcomes heap
  refine ⟨?_, h.size, h.cnt.le⟩
  intro j g hg
  simp [Workers.init] at hg

theorem ioCnt_steps {f : Frame} {file file' : File → ByteFile} {pc : Pc}
    (hstep : f.Steps file pc file') (hf : f.Stored file) (hpos : 1 ≤ f.io.header.id)
    (hsize : pfeIoHeaderSize ≤ (file .header).size) :
    ioCnt (file' .header) =
      if f.pc = .headerLogged then f.io.header.id else ioCnt (file .header) := by
  cases hstep with
  | header hpc =>
      rw [hpc, if_neg (by decide), Function.update_self]
      exact ioCnt_logHeader hsize hpos
  | count hpc =>
      obtain ⟨-, hlt⟩ := hf.header (by rw [hpc]; decide)
      rw [PfeIoHeader.pos, pfeIoHeaderSize] at hlt
      rw [hpc, if_pos rfl, Function.update_self]
      exact ioCnt_logCount (by omega)
  | data hpc =>
      rw [hpc, if_neg (by decide)]
      rfl
  | disk hpc =>
      rw [hpc, if_neg (by decide)]
      rfl
  | idle hpc => rw [hpc, if_neg (by decide)]

theorem size_steps {f : Frame} {file file' : File → ByteFile} {pc : Pc}
    (hstep : f.Steps file pc file') : (file .header).size ≤ (file' .header).size := by
  cases hstep with
  | header =>
      rw [Function.update_self]
      exact ByteFile.size_le_size_pwrite _ _ _
  | count =>
      rw [Function.update_self]
      exact ByteFile.size_le_size_pwrite _ _ _
  | data => exact le_refl _
  | disk => exact le_refl _
  | idle => exact le_refl _

theorem Workers.Consistent.reserve (h : s.Consistent) (cmd : CmdInfo) (ts offset : UInt64)
    (buf : Bytes) : (s.act (.reserve cmd ts offset buf)).Consistent where
  stored := by
    intro j g hg
    rcases frames_reserve hg with ⟨-, rfl⟩ | hg
    · exact ⟨fun h => absurd h (by simp [Pc.rank]), fun h => absurd h (by simp [Pc.rank]),
        fun h => absurd h (by simp [Pc.rank])⟩
    · exact h.stored j g hg
  size := h.size
  cnt_le := by
    change _ ≤ (s.frames ++ [_]).length
    rw [List.length_append]
    exact h.cnt_le.trans (Nat.le_add_right _ _)

theorem Workers.Consistent.advance (h : s.Consistent) (hres : s.Reserved) {k : Nat}
    (hintact : (s.act (.advance k)).recorder.sys.intact = true) :
    (s.act (.advance k)).Consistent := by
  cases hk : s.frames[k]? with
  | none =>
      rw [act_advance_none hk]
      exact h
  | some f =>
      have hact := act_advance hk
      rw [hact] at hintact
      obtain ⟨-, hstep⟩ := Frame.step_of_intact hintact
      have hid := hres.id_eq k f hk
      have hfile : (s.act (.advance k)).recorder.sys.file = (f.step s.recorder).2.sys.file := by
        rw [hact]
      refine ⟨?_, ?_, ?_⟩
      · intro j g hg
        rw [hfile]
        rcases frames_advance hk hg with ⟨-, rfl⟩ | ⟨hj, hg⟩
        · exact (h.stored k f hk).own hstep (by omega)
        · have hid' := hres.id_eq j g hg
          refine (h.stored j g hg).other hstep (by omega) (by omega) ?_
          rcases Nat.lt_or_gt_of_ne hj with hlt | hlt
          · exact .inl (hres.extents j k g f hlt hg hk)
          · exact .inr (hres.extents k j f g hlt hk hg)
      · rw [hfile]
        exact h.size.trans (size_steps hstep)
      · have hlen : (s.act (.advance k)).frames.length = s.frames.length := by
          rw [hact]
          exact List.length_set
        have hlt := (List.getElem?_eq_some_iff.mp hk).1
        rw [hfile, hlen, ioCnt_steps hstep (h.stored k f hk) (by omega) h.size]
        have hle := h.cnt_le
        split_ifs <;> omega

theorem Workers.intact_of_act {a : Action} (h : (s.act a).recorder.sys.intact = true) :
    s.recorder.sys.intact = true := by
  cases a with
  | reserve cmd ts offset buf => exact h
  | advance k =>
      cases hk : s.frames[k]? with
      | none =>
          rw [act_advance_none hk] at h
          exact h
      | some f =>
          rw [act_advance hk] at h
          exact (Frame.step_of_intact h).1

theorem Workers.intact_of_run {acts : List Action}
    (h : (s.run acts).recorder.sys.intact = true) : s.recorder.sys.intact = true := by
  induction acts generalizing s with
  | nil => exact h
  | cons a acts ih => exact Workers.intact_of_act (ih h)

theorem Workers.Consistent.act (h : s.Consistent) (hres : s.Reserved) {a : Action}
    (hintact : (s.act a).recorder.sys.intact = true) : (s.act a).Consistent := by
  cases a with
  | reserve cmd ts offset buf => exact h.reserve cmd ts offset buf
  | advance k => exact h.advance hres hintact

theorem Workers.Consistent.run (h : s.Consistent) (hres : s.Reserved) {acts : List Action}
    (hintact : (s.run acts).recorder.sys.intact = true) : (s.run acts).Consistent := by
  induction acts generalizing s with
  | nil => exact h
  | cons a acts ih =>
      have hrest : ((s.act a).run acts).recorder.sys.intact = true := hintact
      exact ih (h.act hres (Workers.intact_of_run hrest)) (hres.act a) hrest

end Consistent

section Counting

variable {s : Workers}

/-- The count is not written while one for a larger id is there. -/
def Action.InOrder (a : Action) (s : Workers) : Prop :=
  match a with
  | .reserve _ _ _ _ => True
  | .advance k => ∀ (f : Frame), s.frames[k]? = some f → f.pc = .headerLogged →
      ∀ (j : Nat) (g : Frame), k < j → s.frames[j]? = some g → g.pc.rank < 2

/-- The count covers every id that was written there. -/
def Workers.Covered (s : Workers) : Prop :=
  ∀ (j : Nat) (g : Frame), s.frames[j]? = some g → 2 ≤ g.pc.rank →
    j + 1 ≤ ioCnt (s.recorder.sys.file .header)

/-- Only the step behind `headerLogged` writes the count. -/
theorem rank_steps {f : Frame} {file file' : File → ByteFile} {pc : Pc}
    (hstep : f.Steps file pc file') (hpc : f.pc ≠ .headerLogged) (hrank : 2 ≤ pc.rank) :
    2 ≤ f.pc.rank := by
  cases hstep with
  | header => exact absurd hrank (by decide)
  | count hpc' => exact absurd hpc' hpc
  | data hpc' =>
      rw [hpc']
      decide
  | disk hpc' =>
      rw [hpc']
      decide
  | idle hpc' =>
      rw [hpc']
      decide

theorem Workers.Covered.act (h : s.Covered) (hres : s.Reserved) (hcons : s.Consistent)
    {a : Action} (hintact : (s.act a).recorder.sys.intact = true) (horder : a.InOrder s) :
    (s.act a).Covered := by
  cases a with
  | reserve cmd ts offset buf =>
      intro j g hg hrank
      rcases frames_reserve hg with ⟨-, rfl⟩ | hg
      · exact absurd hrank (by simp [Pc.rank])
      · exact h j g hg hrank
  | advance k =>
      cases hk : s.frames[k]? with
      | none =>
          rw [act_advance_none hk]
          exact h
      | some f =>
          have hact := act_advance hk
          rw [hact] at hintact
          obtain ⟨-, hstep⟩ := Frame.step_of_intact hintact
          have hid := hres.id_eq k f hk
          have hcnt := ioCnt_steps hstep (hcons.stored k f hk) (by omega) hcons.size
          have hfile : (s.act (.advance k)).recorder.sys.file =
              (f.step s.recorder).2.sys.file := by
            rw [hact]
          intro j g hg hrank
          rw [hfile, hcnt]
          rcases frames_advance hk hg with ⟨rfl, rfl⟩ | ⟨hj, hg⟩
          · split_ifs with hpc
            · exact hid.ge
            · exact h j f hk (rank_steps hstep hpc hrank)
          · split_ifs with hpc
            · by_contra hlt
              have hrank' := horder f hk hpc j g (by omega) hg
              omega
            · exact h j g hg hrank

theorem Workers.Covered.run (h : s.Covered) (hres : s.Reserved) (hcons : s.Consistent)
    {acts : List Action} (hintact : (s.run acts).recorder.sys.intact = true)
    (horder : Workers.EachAction Action.InOrder acts s) : (s.run acts).Covered := by
  induction acts generalizing s with
  | nil => exact h
  | cons a acts ih =>
      have hrest : ((s.act a).run acts).recorder.sys.intact = true := hintact
      have hstep := Workers.intact_of_run hrest
      exact ih (h.act hres hcons hstep horder.1) (hres.act a) (hcons.act hres hstep) hrest horder.2

/-- The reserved slots are numbered `1, 2, 3, …`. -/
def Workers.Numbered (s : Workers) : Prop :=
  s.frames.map (fun f => f.io.header.id) = List.range' 1 s.frames.length

def Frame.extent (f : Frame) : Patch where
  offset := f.io.header.datalogOffset
  data := f.io.data

/-- `pfe_log_io_req` has returned. -/
def Frame.Returned (f : Frame) : Prop :=
  3 ≤ f.pc.rank

/-- All calls of `pfe_log_io_req` whose id is at most the count have returned. -/
def Workers.Settled (s : Workers) : Prop :=
  ∀ f ∈ s.frames, f.io.header.id ≤ ioCnt (s.recorder.sys.file .header) → f.Returned

/-- Every counted write is in the logs. -/
def Workers.Stored (s : Workers) : Prop :=
  ∀ f ∈ s.frames, f.io.header.id ≤ ioCnt (s.recorder.sys.file .header) →
    f.io.Logged s.recorder.sys.file

/-- Once all calls have returned, the count is their number. -/
def Workers.Counted (s : Workers) : Prop :=
  (∀ f ∈ s.frames, f.Returned) → ioCnt (s.recorder.sys.file .header) = s.frames.length

theorem Workers.Reserved.numbered (h : s.Reserved) : s.Numbered := by
  apply List.ext_getElem?
  intro j
  rw [List.getElem?_map]
  cases hj : s.frames[j]? with
  | none =>
      rw [List.getElem?_eq_none (by simpa using List.getElem?_eq_none_iff.mp hj)]
      rfl
  | some f =>
      have hlt := (List.getElem?_eq_some_iff.mp hj).1
      rw [List.getElem?_range' hlt, Option.map_some, h.id_eq j f hj]
      exact congrArg some (by omega)

theorem Workers.Reserved.disjoint (h : s.Reserved) :
    s.frames.Pairwise fun f g => f.extent.Apart g.extent := by
  rw [List.pairwise_iff_getElem]
  intro i j hi hj hij
  exact Patch.apart_of_le (h.extents i j _ _ hij (List.getElem?_eq_getElem hi)
    (List.getElem?_eq_getElem hj))

theorem Workers.Consistent.stored_of_settled (h : s.Consistent) (hsettled : s.Settled) :
    s.Stored := by
  intro f hf hid
  obtain ⟨j, hj⟩ := List.mem_iff_getElem?.mp hf
  have hreturned := hsettled f hf hid
  have hstored := h.stored j f hj
  exact ⟨(hstored.header (le_trans (by decide) hreturned)).1, (hstored.data hreturned).1⟩

theorem Workers.Consistent.counted (h : s.Consistent) (hcovered : s.Covered) : s.Counted := by
  intro hall
  refine le_antisymm h.cnt_le ?_
  rcases Nat.eq_zero_or_pos s.frames.length with hzero | hpos
  · omega
  · have hlast : s.frames.length - 1 < s.frames.length := by omega
    have hrank := hall _ (List.getElem_mem hlast)
    have hle := hcovered _ _ (List.getElem?_eq_getElem hlast) (le_trans (by decide) hrank)
    omega

/-- **The log under all interleavings**: ids without gaps and disjoint extents; and if no system
call failed, every counted write is in the logs where all counted calls have returned, and the
count behind all calls is their number if the counts were written in the order of the ids. -/
theorem io_log_consistent (image : ByteFile) (outcomes : List Outcome) (heap : Nat → UInt8)
    (acts : List Action) :
    ((Workers.init image outcomes heap).run acts).Numbered ∧
      ((Workers.init image outcomes heap).run acts).frames.Pairwise
        (fun f g => f.extent.Apart g.extent) ∧
      (((Workers.init image outcomes heap).run acts).recorder.sys.intact = true →
        (((Workers.init image outcomes heap).run acts).Settled →
          ((Workers.init image outcomes heap).run acts).Stored) ∧
        (Workers.EachAction Action.InOrder acts (Workers.init image outcomes heap) →
          ((Workers.init image outcomes heap).run acts).Counted)) := by
  have hres := reserved_init image outcomes heap
  have hcons := consistent_init image outcomes heap
  have hcovered : (Workers.init image outcomes heap).Covered := by
    intro j g hg
    simp [Workers.init] at hg
  refine ⟨(hres.run acts).numbered, (hres.run acts).disjoint, fun hintact => ⟨?_, ?_⟩⟩
  · exact (hcons.run hres hintact).stored_of_settled
  · intro horder
    exact (hcons.run hres hintact).counted (hcovered.run hres hcons hintact horder)

theorem inOrder_last {k : Nat} (h : s.frames.length ≤ k + 1) : (Action.advance k).InOrder s := by
  intro f hf hpc j g hj hg
  have hlt := (List.getElem?_eq_some_iff.mp hg).1
  omega

/-- A write of one byte to the beginning of the device is reserved. -/
def byteReserve (b : UInt8) : Action :=
  .reserve ⟨0x2a, .write, 1⟩ 0 0 [b]

def serialRun : List Action :=
  [byteReserve 1, .advance 0, .advance 0, .advance 0, .advance 0,
    byteReserve 2, .advance 1, .advance 1, .advance 1, .advance 1]

theorem io_log_consistent_serialRun :
    ((Workers.init .empty [] fun _ => 0).run serialRun).Stored ∧
      ((Workers.init .empty [] fun _ => 0).run serialRun).Counted := by
  obtain ⟨-, -, hintact⟩ := io_log_consistent .empty [] (fun _ => 0) serialRun
  obtain ⟨hstored, hcounted⟩ := hintact (by decide +kernel)
  refine ⟨hstored ?_, hcounted ?_⟩
  · unfold Workers.Settled Frame.Returned
    decide +kernel
  · exact ⟨trivial, inOrder_last (by decide +kernel), inOrder_last (by decide +kernel),
      inOrder_last (by decide +kernel), inOrder_last (by decide +kernel), trivial,
      inOrder_last (by decide +kernel), inOrder_last (by decide +kernel),
      inOrder_last (by decide +kernel), inOrder_last (by decide +kernel), trivial⟩

/-- A kill between the count and the data. -/
def killedRun : List Action :=
  [byteReserve 7, .advance 0, .advance 0]

/-- The second write overtakes the first between the reservations and the counts. -/
def overtakingRun : List Action :=
  [byteReserve 1, byteReserve 2, .advance 0, .advance 1, .advance 1, .advance 0, .advance 0,
    .advance 1]

/-- **The log is not consistent**: a counted write without its data, and a count of one behind
two calls. -/
theorem io_log_inconsistent :
    (((Workers.init .empty [] fun _ => 0).run killedRun).recorder.sys.intact = true ∧
      ¬ ((Workers.init .empty [] fun _ => 0).run killedRun).Stored) ∧
    ((Workers.init .empty [] fun _ => 0).run overtakingRun).recorder.sys.intact = true ∧
      ¬ ((Workers.init .empty [] fun _ => 0).run overtakingRun).Counted := by
  refine ⟨⟨by decide +kernel, fun h => ?_⟩, by decide +kernel, fun h => ?_⟩
  · have hframe := h _ (List.mem_singleton_self _) (by decide +kernel)
    exact absurd (hframe.data 0 7 rfl).1 (by decide +kernel)
  · have hreturned : ∀ f ∈ ((Workers.init .empty [] fun _ => 0).run overtakingRun).frames,
        f.Returned := by
      unfold Frame.Returned
      decide +kernel
    exact absurd (h hreturned) (by decide +kernel)

end Counting

section DeviceOrder

variable {s : Workers} {image : ByteFile}

/-- `a` stands before `b`. -/
def Precedes (order : List Nat) (a b : Nat) : Prop :=
  ∃ pre post, order = pre ++ b :: post ∧ a ∈ pre

theorem Precedes.append {order : List Nat} {a b : Nat} (h : Precedes order a b)
    (more : List Nat) : Precedes (order ++ more) a b := by
  obtain ⟨pre, post, rfl, ha⟩ := h
  exact ⟨pre, post ++ more, by simp, ha⟩

/-- No write is reserved while one that overlaps it is in flight. -/
def Action.Separate (a : Action) (s : Workers) : Prop :=
  match a with
  | .reserve _ _ offset buf => ∀ f ∈ s.frames, f.pc ≠ .written →
      f.io.patch.Apart ⟨offset.toNat, buf⟩
  | .advance _ => True

/-- Of two writes that overlap, the first is on the device, and was first there. -/
structure Workers.Ordered (s : Workers) : Prop where
  written : ∀ (i j : Nat) (f g : Frame), i < j → s.frames[i]? = some f → s.frames[j]? = some g →
    ¬ f.io.patch.Apart g.io.patch → f.pc = .written
  listed : ∀ (j : Nat) (g : Frame), s.frames[j]? = some g → g.pc = .written →
    g.io.header.id ∈ s.order
  precedes : ∀ (i j : Nat) (f g : Frame), i < j → s.frames[i]? = some f → s.frames[j]? = some g →
    ¬ f.io.patch.Apart g.io.patch → g.pc = .written →
      Precedes s.order f.io.header.id g.io.header.id

theorem ordered_init (image : ByteFile) (outcomes : List Outcome) (heap : Nat → UInt8) :
    (Workers.init image outcomes heap).Ordered := by
  refine ⟨?_, ?_, ?_⟩ <;> simp [Workers.init]

theorem Workers.Ordered.reserve (h : s.Ordered) {cmd : CmdInfo} {ts offset : UInt64}
    {buf : Bytes} (hsep : (Action.reserve cmd ts offset buf).Separate s) :
    (s.act (.reserve cmd ts offset buf)).Ordered := by
  have hlen : ∀ {j : Nat} {g : Frame}, s.frames[j]? = some g → j < s.frames.length :=
    fun hg => (List.getElem?_eq_some_iff.mp hg).1
  have hold : ∀ {i j : Nat} {f g : Frame}, i < j →
      (s.act (.reserve cmd ts offset buf)).frames[i]? = some f →
      (s.act (.reserve cmd ts offset buf)).frames[j]? = some g → s.frames[i]? = some f := by
    intro i j f g hij hf hg
    rcases frames_reserve hf with ⟨rfl, -⟩ | hf
    · rcases frames_reserve hg with ⟨rfl, -⟩ | hg
      · exact absurd hij (lt_irrefl _)
      · exact absurd (hlen hg) (by omega)
    · exact hf
  refine ⟨?_, ?_, ?_⟩
  · intro i j f g hij hf hg hover
    have hf' := hold hij hf hg
    rcases frames_reserve hg with ⟨-, rfl⟩ | hg
    · by_contra hpc
      exact hover (hsep f (List.mem_of_getElem? hf') hpc)
    · exact h.written i j f g hij hf' hg hover
  · intro j g hg hpc
    rcases frames_reserve hg with ⟨-, rfl⟩ | hg
    · cases hpc
    · exact h.listed j g hg hpc
  · intro i j f g hij hf hg hover hpc
    have hf' := hold hij hf hg
    rcases frames_reserve hg with ⟨-, rfl⟩ | hg
    · cases hpc
    · exact h.precedes i j f g hij hf' hg hover hpc

theorem step_written (f : Frame) (r : Recorder) :
    (f.step r).1 = .written ↔ f.pc = .returned ∨ f.pc = .written := by
  unfold Frame.step
  cases f.pc with
  | reserved =>
      dsimp only
      split_ifs <;> simp
  | headerLogged =>
      dsimp only
      split_ifs <;> simp
  | countLogged => simp
  | returned => simp
  | written => simp

theorem Workers.Ordered.advance (h : s.Ordered) (k : Nat) : (s.act (.advance k)).Ordered := by
  cases hk : s.frames[k]? with
  | none =>
      rw [act_advance_none hk]
      exact h
  | some f₀ =>
      -- a command keeps its range, and a write to the device is not undone
      have hback : ∀ {j : Nat} {g : Frame}, (s.act (.advance k)).frames[j]? = some g →
          ∃ g', s.frames[j]? = some g' ∧ g.io = g'.io ∧ (g'.pc = .written → g.pc = .written) ∧
            (g.pc = .written → g'.pc = .written ∨ j = k ∧ g'.pc = .returned) := by
        intro j g hg
        rcases frames_advance hk hg with ⟨rfl, rfl⟩ | ⟨-, hg⟩
        · refine ⟨f₀, hk, rfl, fun hpc => ?_, fun hpc => ?_⟩
          · exact (step_written f₀ s.recorder).mpr (.inr hpc)
          · rcases (step_written f₀ s.recorder).mp hpc with hpc | hpc
            · exact .inr ⟨rfl, hpc⟩
            · exact .inl hpc
        · exact ⟨g, hg, rfl, id, .inl⟩
      have horder : (s.act (.advance k)).order =
          if f₀.pc = .returned then s.order ++ [f₀.io.header.id] else s.order := by
        rw [act_advance hk]
      refine ⟨?_, ?_, ?_⟩
      · intro i j f g hij hf hg hover
        obtain ⟨f', hf', hfio, hfpc, -⟩ := hback hf
        obtain ⟨g', hg', hgio, -, -⟩ := hback hg
        rw [hfio, hgio] at hover
        exact hfpc (h.written i j f' g' hij hf' hg' hover)
      · intro j g hg hpc
        obtain ⟨g', hg', hgio, -, hgpc⟩ := hback hg
        rw [hgio, horder]
        rcases hgpc hpc with hpc' | ⟨rfl, hpc'⟩
        · have hmem := h.listed j g' hg' hpc'
          split_ifs
          · exact List.mem_append_left _ hmem
          · exact hmem
        · obtain rfl : f₀ = g' := Option.some.inj (hk.symm.trans hg')
          rw [if_pos hpc']
          exact List.mem_append_right _ (List.mem_singleton_self _)
      · intro i j f g hij hf hg hover hpc
        obtain ⟨f', hf', hfio, -, -⟩ := hback hf
        obtain ⟨g', hg', hgio, -, hgpc⟩ := hback hg
        rw [hfio, hgio] at hover ⊢
        rw [horder]
        rcases hgpc hpc with hpc' | ⟨rfl, hpc'⟩
        · have hprec := h.precedes i j f' g' hij hf' hg' hover hpc'
          split_ifs
          · exact hprec.append _
          · exact hprec
        · obtain rfl : f₀ = g' := Option.some.inj (hk.symm.trans hg')
          rw [if_pos hpc']
          exact ⟨s.order, [], rfl, h.listed i f' hf' (h.written i j f' f₀ hij hf' hg' hover)⟩

def patches (fs : List Frame) : List Patch :=
  (fs.filter fun f => f.pc = .written).map fun f => f.io.patch

theorem patches_append (fs gs : List Frame) : patches (fs ++ gs) = patches fs ++ patches gs := by
  rw [patches, List.filter_append, List.map_append, patches, patches]

theorem patches_cons_of_ne {f : Frame} (h : f.pc ≠ .written) (fs : List Frame) :
    patches (f :: fs) = patches fs := by
  rw [patches, List.filter_cons_of_neg (by simpa using h), patches]

theorem patches_cons_of_eq {f : Frame} (h : f.pc = .written) (fs : List Frame) :
    patches (f :: fs) = f.io.patch :: patches fs := by
  rw [patches, List.filter_cons_of_pos (by simpa using h), List.map_cons, patches]

def Workers.OnDevice (image : ByteFile) (s : Workers) : Prop :=
  s.recorder.sys.file .disk = applyPatches image (patches s.frames)

theorem Workers.OnDevice.reserve (h : s.OnDevice image) (cmd : CmdInfo) (ts offset : UInt64)
    (buf : Bytes) : (s.act (.reserve cmd ts offset buf)).OnDevice image := by
  change s.recorder.sys.file .disk = applyPatches image (patches (s.frames ++ [_]))
  rw [patches_append, patches_cons_of_ne (by simp)]
  exact h.trans (by simp [patches])

/-- A write that no later one has overtaken on its range may as well have its place in the
order of the ids. -/
theorem Workers.OnDevice.advance (h : s.OnDevice image) (hord : s.Ordered) {k : Nat}
    (hintact : (s.act (.advance k)).recorder.sys.intact = true) :
    (s.act (.advance k)).OnDevice image := by
  cases hk : s.frames[k]? with
  | none =>
      rw [act_advance_none hk]
      exact h
  | some f =>
      obtain ⟨hlt, hf⟩ := List.getElem?_eq_some_iff.mp hk
      have hsplit : s.frames = s.frames.take k ++ f :: s.frames.drop (k + 1) := by
        rw [← hf, ← List.drop_eq_getElem_cons hlt, List.take_append_drop]
      have hact := act_advance hk
      rw [hact] at hintact ⊢
      obtain ⟨-, hstep⟩ := Frame.step_of_intact hintact
      unfold Workers.OnDevice at h ⊢
      dsimp only
      rw [List.set_eq_take_append_cons_drop, if_pos hlt, patches_append]
      rw [hsplit, patches_append] at h
      generalize (f.step s.recorder).1 = pc, (f.step s.recorder).2.sys.file = file' at hstep ⊢
      cases hstep with
      | header hpc =>
          rw [patches_cons_of_ne (by simp)]
          rw [patches_cons_of_ne (by simp [hpc])] at h
          exact h
      | count hpc =>
          rw [patches_cons_of_ne (by simp)]
          rw [patches_cons_of_ne (by simp [hpc])] at h
          exact h
      | data hpc =>
          rw [patches_cons_of_ne (by simp)]
          rw [patches_cons_of_ne (by simp [hpc])] at h
          exact h
      | disk hpc =>
          rw [patches_cons_of_eq rfl]
          rw [patches_cons_of_ne (by simp [hpc])] at h
          have hapart : ∀ q ∈ patches (s.frames.drop (k + 1)), f.io.patch.Apart q := by
            intro q hq
            obtain ⟨g, hg, rfl⟩ := List.mem_map.mp hq
            obtain ⟨j, hj⟩ := List.mem_iff_getElem?.mp (List.mem_filter.mp hg).1
            rw [List.getElem?_drop] at hj
            by_contra hover
            have hwritten := hord.written k (k + 1 + j) f g (by omega) hk hj hover
            rw [hpc] at hwritten
            cases hwritten
          rw [Function.update_self, h, applyPatches_append, applyPatches_append,
            applyPatches_cons]
          exact (applyPatches_pwrite _ _ hapart).symm
      | idle hpc =>
          rw [patches_cons_of_eq rfl]
          rw [patches_cons_of_eq hpc] at h
          exact h

theorem Workers.Ordered.act (h : s.Ordered) {a : Action} (hsep : a.Separate s) :
    (s.act a).Ordered := by
  cases a with
  | reserve cmd ts offset buf => exact h.reserve hsep
  | advance k => exact h.advance k

theorem Workers.Ordered.run (h : s.Ordered) {acts : List Action}
    (hsep : Workers.EachAction Action.Separate acts s) : (s.run acts).Ordered := by
  induction acts generalizing s with
  | nil => exact h
  | cons a acts ih => exact ih (h.act hsep.1) hsep.2

theorem Workers.OnDevice.run (h : s.OnDevice image) (hord : s.Ordered) {acts : List Action}
    (hintact : (s.run acts).recorder.sys.intact = true)
    (hsep : Workers.EachAction Action.Separate acts s) : (s.run acts).OnDevice image := by
  induction acts generalizing s with
  | nil => exact h
  | cons a acts ih =>
      have hrest : ((s.act a).run acts).recorder.sys.intact = true := hintact
      have hstep := Workers.intact_of_run hrest
      refine ih ?_ (hord.act hsep.1) hrest hsep.2
      cases a with
      | reserve cmd ts offset buf => exact h.reserve cmd ts offset buf
      | advance k => exact h.advance hord hstep

theorem Workers.Consistent.replay (hcons : s.Consistent) (hres : s.Reserved)
    (hall : ∀ f ∈ s.frames, f.pc = .written) (image : ByteFile) (heap : Nat → UInt8) :
    (pfeReplaySimple 1 s.frames.length (replaySystem image heap s.recorder)).2.file .disk =
      applyPatches image (s.frames.map fun f => f.io.patch) := by
  let ios := s.frames.map Frame.io
  have hids : ios.map (fun io => io.header.id) = List.range' 1 ios.length := by
    rw [List.map_map, List.length_map]
    exact hres.numbered
  have hstored : ∀ io ∈ ios, io.Sound ∧ io.Logged s.recorder.sys.file := by
    intro io hio
    obtain ⟨f, hf, rfl⟩ := List.mem_map.mp hio
    obtain ⟨j, hj⟩ := List.mem_iff_getElem?.mp hf
    have hpc := hall f hf
    obtain ⟨hheader, hpos⟩ := (hcons.stored j f hj).header (by rw [hpc]; decide)
    obtain ⟨hdata, hlen, hlt⟩ := (hcons.stored j f hj).data (by rw [hpc]; decide)
    have hoff := (hcons.stored j f hj).offset (by rw [hpc]; decide)
    exact ⟨⟨hres.length_eq j f hj, hlen, hpos, hlt, hoff⟩, hheader, hdata⟩
  have hsize := hcons.size
  rw [← replaySystem_of_ne (by decide) image heap] at hsize
  have hreplay := pfeReplaySimple_eq rfl hsize hids (fun io hio => (hstored io hio).1)
    fun io hio => (hstored io hio).2.replaySystem image heap
  rw [List.length_map] at hreplay
  rw [hreplay, replaySystem_disk, List.map_map]
  rfl

theorem Workers.OnDevice.replay (h : s.OnDevice image) (hres : s.Reserved)
    (hcons : s.Consistent) (hall : ∀ f ∈ s.frames, f.pc = .written) (heap : Nat → UInt8) :
    (pfeReplaySimple 1 s.frames.length (replaySystem image heap s.recorder)).2.file .disk =
      s.recorder.sys.file .disk := by
  have hpatches : patches s.frames = s.frames.map fun f => f.io.patch := by
    rw [patches, List.filter_eq_self.mpr fun f hf => by simpa using hall f hf]
  rw [hcons.replay hres hall, ← hpatches]
  exact h.symm

/-- **The order of the log is the order on the device** if no write is reserved while one that
overlaps it is in flight: of two writes that overlap, the one with the smaller id came first,
and a replay in the order of the ids has the content of the device. -/
theorem log_order_is_device_order (image : ByteFile) (outcomes : List Outcome)
    (heap heap' : Nat → UInt8) (acts : List Action)
    (hsep : Workers.EachAction Action.Separate acts (Workers.init image outcomes heap)) :
    (∀ (i j : Nat) (f g : Frame), i < j →
      ((Workers.init image outcomes heap).run acts).frames[i]? = some f →
      ((Workers.init image outcomes heap).run acts).frames[j]? = some g →
      ¬ f.io.patch.Apart g.io.patch → g.pc = .written →
        Precedes ((Workers.init image outcomes heap).run acts).order
          f.io.header.id g.io.header.id) ∧
    (((Workers.init image outcomes heap).run acts).recorder.sys.intact = true →
      (∀ f ∈ ((Workers.init image outcomes heap).run acts).frames, f.pc = .written) →
        (pfeReplaySimple 1 ((Workers.init image outcomes heap).run acts).frames.length
          (replaySystem image heap' ((Workers.init image outcomes heap).run acts).recorder)).2.file
            .disk =
          ((Workers.init image outcomes heap).run acts).recorder.sys.file .disk) := by
  have hord := ordered_init image outcomes heap
  have hres := reserved_init image outcomes heap
  have hcons := consistent_init image outcomes heap
  have hdev : (Workers.init image outcomes heap).OnDevice image := rfl
  refine ⟨(hord.run hsep).precedes, fun hintact hall => ?_⟩
  exact (hdev.run hord hintact hsep).replay (hres.run acts) (hcons.run hres hintact) hall heap'

theorem log_order_is_device_order_serialRun :
    Precedes ((Workers.init .empty [] fun _ => 0).run serialRun).order 1 2 ∧
      (pfeReplaySimple 1 2 (replaySystem .empty (fun _ => 0)
          ((Workers.init .empty [] fun _ => 0).run serialRun).recorder)).2.file .disk =
        ((Workers.init .empty [] fun _ => 0).run serialRun).recorder.sys.file .disk := by
  have hsep : Workers.EachAction Action.Separate serialRun (Workers.init .empty [] fun _ => 0) := by
    refine ⟨?_, trivial, trivial, trivial, trivial, ?_, trivial, trivial, trivial, trivial,
      trivial⟩
    · exact fun f hf => absurd hf List.not_mem_nil
    · intro f hf hpc
      have hwritten : ∀ f ∈ ((Workers.init .empty [] fun _ => 0).run (serialRun.take 5)).frames,
          f.pc = .written := by
        decide +kernel
      exact absurd (hwritten f hf) hpc
  obtain ⟨hprec, hreplay⟩ := log_order_is_device_order .empty [] (fun _ => 0) (fun _ => 0)
    serialRun hsep
  refine ⟨hprec 0 1 _ _ (by decide) rfl rfl ?_ rfl, hreplay (by decide +kernel) (by decide +kernel)⟩
  intro hapart
  exact hapart 0 ⟨by decide, by decide⟩ ⟨by decide, by decide⟩

/-- Both writes are reserved before either reaches the device, the second one first. -/
def crossedRun : List Action :=
  [byteReserve 1, byteReserve 2, .advance 1, .advance 1, .advance 1, .advance 1,
    .advance 0, .advance 0, .advance 0, .advance 0]

/-- **The orders differ**: the write with the id `2` reaches the device first, and the replay
leaves its byte where the device has that of the write with the id `1`. -/
theorem log_order_is_not_device_order :
    ((Workers.init .empty [] fun _ => 0).run crossedRun).recorder.sys.intact = true ∧
      ((Workers.init .empty [] fun _ => 0).run crossedRun).order = [2, 1] ∧
      (pfeReplaySimple 1 2 (replaySystem .empty (fun _ => 0)
          ((Workers.init .empty [] fun _ => 0).run crossedRun).recorder)).2.file .disk ≠
        ((Workers.init .empty [] fun _ => 0).run crossedRun).recorder.sys.file .disk := by
  refine ⟨by decide +kernel, by decide +kernel, fun h => ?_⟩
  exact absurd (congrArg (fun f => f.byte 0) h) (by decide +kernel)

end DeviceOrder

end PowerFault
end Rfsck
