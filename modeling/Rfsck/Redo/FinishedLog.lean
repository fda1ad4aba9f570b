import Rfsck.Redo.TagWalk
import Rfsck.Redo.LogLayout

/-!
# Finished logs and their replay

A finished log is a file with a valid FINISHED header, the key blocks that the
header counts, and the data of their tags.  It does not matter which process wrote
it.

* `FinishedLog.planLog_follows`: a replay walks the tags of the log.
* On the log it writes the marks of the transactions it finds, one key block at a
  time (`markPatches`, `Stored.applyMarks`).
* On the device it writes the data it reads at the positions of the copies
  (`devPatches`), provided that no read goes past the end of the log.
-/

namespace Rfsck
namespace Redo

open Storage

/-- The writes of a plan to the log. -/
def markPatches : List Action → List Patch
  | [] => []
  | .copy _ _ :: as => markPatches as
  | .mark offset kb :: as => ⟨offset, kb.encode⟩ :: markPatches as

@[simp] theorem markPatches_append (as bs : List Action) :
    markPatches (as ++ bs) = markPatches as ++ markPatches bs := by
  induction as with
  | nil =>
      rfl
  | cons a as ih =>
      cases a with
      | copy tag pos =>
          exact ih
      | mark offset kb =>
          exact congrArg (List.cons _) ih

theorem perform_redo (devFd : Nat) (as : List Action) (w : World) :
    (perform devFd as w).file .redo =
      applyPatches (w.file .redo) (markPatches as) := by
  induction as generalizing w with
  | nil =>
      rfl
  | cons a as ih =>
      rw [perform_cons, ih, World.file_push]
      cases a with
      | copy tag pos =>
          rw [Action.event, applyEvent_pwrite_other (by simp)]
          rfl
      | mark offset kb =>
          rw [Action.event, applyEvent_pwrite_self]
          rfl

/-- The writes of a plan to the device, when every read of the log `f` is full. -/
def devPatches (f : ByteFile) : List Action → List Patch
  | [] => []
  | .copy tag pos :: as => ⟨tag.offset.toNat, f.pread pos tag.size.toNat⟩ :: devPatches f as
  | .mark offset kb :: as => devPatches (f.pwrite offset kb.encode) as

theorem devPatches_append (as bs : List Action) (f : ByteFile) :
    devPatches f (as ++ bs) =
      devPatches f as ++ devPatches (applyPatches f (markPatches as)) bs := by
  induction as generalizing f with
  | nil =>
      rfl
  | cons a as ih =>
      cases a with
      | copy tag pos =>
          exact congrArg (List.cons _) (ih f)
      | mark offset kb =>
          exact ih _

/-- The action fits one system call and reads inside a file of the given size. -/
def Action.Inside (size : Nat) : Action → Prop
  | .copy tag pos => tag.size.toNat ≤ maxRwCount ∧ pos + tag.size.toNat ≤ size
  | .mark _ _ => True

theorem Action.Inside.whole {a : Action} {size : Nat} (h : a.Inside size) : a.Whole := by
  cases a with
  | copy tag pos =>
      exact h.1
  | mark offset kb =>
      trivial

theorem copyData_of_inside
    {w : World} {tag : RedoBlockTag} {pos : Nat}
    (h : (Action.copy tag pos).Inside (w.file .redo).size) :
    (copyData w tag pos).take maxRwCount = (w.file .redo).pread pos tag.size.toNat := by
  obtain ⟨hwhole, hsize⟩ := h
  have hlen : ((w.file .redo).pread pos tag.size.toNat).length = tag.size.toNat := by
    rw [ByteFile.length_pread]
    omega
  have hdrop : (w.malloc .dataBlock tag.size.toNat).drop
      ((w.file .redo).pread pos tag.size.toNat).length = [] := by
    rw [List.drop_eq_nil_iff, World.length_malloc, hlen]
  rw [copyData, min_eq_left hwhole, hdrop, List.append_nil,
    List.take_of_length_le (by omega)]

theorem perform_dev
    {devFd : Nat} {as : List Action} {w : World}
    (h : ∀ a ∈ as, a.Inside (w.file .redo).size) :
    (perform devFd as w).file (.dev devFd) =
      applyPatches (w.file (.dev devFd)) (devPatches (w.file .redo) as) := by
  induction as generalizing w with
  | nil =>
      rfl
  | cons a as ih =>
      rw [perform_cons]
      cases a with
      | copy tag pos =>
          have hredo : (w.push ((Action.copy tag pos).event devFd w)).file .redo =
              w.file .redo := by
            rw [World.file_push, Action.event, applyEvent_pwrite_other (by simp)]
          have hrest := ih (w := w.push ((Action.copy tag pos).event devFd w)) (by
            rw [hredo]
            exact fun b hb => h b (List.mem_cons_of_mem _ hb))
          rw [hrest, hredo, World.file_push, Action.event, applyEvent_pwrite_self,
            copyData_of_inside (h _ (by simp))]
          rfl
      | mark offset kb =>
          have hredo : (w.push ((Action.mark offset kb).event devFd w)).file .redo =
              (w.file .redo).pwrite offset kb.encode := by
            rw [World.file_push, Action.event, applyEvent_pwrite_self]
          have hsize := ByteFile.size_le_size_pwrite (w.file .redo) offset kb.encode
          have hrest := ih (w := w.push ((Action.mark offset kb).event devFd w)) (by
            rw [hredo]
            intro b hb
            have hb' := h b (List.mem_cons_of_mem _ hb)
            cases b with
            | copy tag pos =>
                exact ⟨hb'.1, le_trans hb'.2 hsize⟩
            | mark offset' kb' =>
                trivial)
          rw [hrest, hredo, World.file_push, Action.event, applyEvent_pwrite_other (by simp)]
          rfl

theorem markPatches_copyTags (ts : List RedoBlockTag) (i pos : Nat) :
    markPatches (copyTags ts i pos).2 = [] := by
  induction ts generalizing i pos with
  | nil =>
      rfl
  | cons t ts ih =>
      exact ih _ _

theorem whole_copyTags
    {ts : List RedoBlockTag} (h : ∀ t ∈ ts, t.size.toNat ≤ maxRwCount) (i pos : Nat) :
    ∀ a ∈ (copyTags ts i pos).2, a.Whole := by
  induction ts generalizing i pos with
  | nil =>
      intro a ha
      simp [copyTags] at ha
  | cons t ts ih =>
      intro a ha
      rw [copyTags_cons] at ha
      rcases List.mem_cons.mp ha with rfl | ha
      · exact h t (by simp)
      · exact ih (fun u hu => h u (List.mem_cons_of_mem t hu)) _ _ a ha

theorem whole_actionsOf
    {o : Nat → Nat} {B : Nat → RedoBlock} {ts : List Found}
    (h : ∀ t ∈ ts, ∀ tag ∈ t.tags, tag.size.toNat ≤ maxRwCount) (M : List Nat) :
    ∀ a ∈ actionsOf o B M ts, a.Whole := by
  induction ts generalizing M with
  | nil =>
      intro a ha
      simp [actionsOf] at ha
  | cons t ts ih =>
      intro a ha
      rw [actionsOf, Found.actions] at ha
      rcases List.mem_append.mp ha with ha | ha
      · rcases List.mem_append.mp ha with ha | ha
        · exact whole_copyTags (h t (by simp)) _ _ a ha
        · rw [List.mem_singleton.mp ha]
          trivial
      · exact ih (fun u hu => h u (List.mem_cons_of_mem t hu)) _ a ha

section Marks

variable {crc : Bytes → UInt32}
variable {es : List Entry} {M : List Nat} {n : Nat} {s : State}

theorem Stored.applyMarks
    {f : ByteFile} {M' : List Nat} {ts : List Found}
    (h : Stored crc es (M ++ M') n f)
    (hlt : ∀ t ∈ ts, t.beginAt / keysPerBlock < n) :
    Stored crc es (M ++ M' ++ ts.map Found.beginAt) n
      (applyPatches f (markPatches
        (actionsOf (keybPos es) (fun k => (keybOf crc es k).remark k M) M' ts))) := by
  induction ts generalizing f M' with
  | nil =>
      simpa [actionsOf, markPatches] using h
  | cons t ts ih =>
      have hkeyb : ((keybOf crc es t.beginBlk).remark t.beginBlk M).clearReserved.remark
          t.beginBlk (M' ++ [t.beginAt]) =
          (keybOf crc es t.beginBlk).remark t.beginBlk (M ++ M' ++ [t.beginAt]) := by
        rw [RedoBlock.clearReserved_of_eq rfl, RedoBlock.remark_remark, List.append_assoc]
      have hmark := h.mark (g := t.beginAt) (hlt t (by simp))
      rw [← Found.beginBlk, List.append_assoc] at hmark
      have hrest := ih hmark (fun u hu => hlt u (List.mem_cons_of_mem t hu))
      rw [actionsOf, Found.actions, markPatches_append, markPatches_append,
        Found.copies, markPatches_copyTags, List.nil_append]
      simp only [markPatches, List.cons_append, List.nil_append, applyPatches_cons, hkeyb]
      simpa using hrest

theorem header_applyMarks
    {f : ByteFile} {hdr : RedoHeader} (h : f.Holds 0 hdr.encode)
    (B : Nat → RedoBlock) (M' : List Nat) (ts : List Found) :
    (applyPatches f (markPatches (actionsOf (keybPos es) B M' ts))).Holds 0 hdr.encode := by
  induction ts generalizing f M' with
  | nil =>
      exact h
  | cons t ts ih =>
      rw [actionsOf, Found.actions, markPatches_append, markPatches_append,
        Found.copies, markPatches_copyTags, List.nil_append]
      simp only [markPatches, List.cons_append, List.nil_append, applyPatches_cons]
      refine ih (h.pwrite_of_disjoint (Or.inl ?_)) _
      rw [RedoHeader.length_encode, Nat.zero_add]
      exact header_le_keybPos _ _

theorem not_isEdge_tagOf
    (h : ∀ e ∈ es, ¬ e.tag.IsEdge) (g : Nat) : ¬ (tagOf es g).IsEdge := by
  rw [tagOf]
  cases hg : es[g]? with
  | none =>
      exact fun hedge => hedge.2 rfl
  | some e =>
      exact h e (List.mem_of_getElem? hg)

theorem size_tagOf_le
    (h : ∀ e ∈ es, e.data.length ≤ maxRwCount) (M : List Nat) (g : Nat) :
    (markedTagOf es M g).size.toNat ≤ maxRwCount := by
  rw [markedTagOf_size, tagOf]
  cases hg : es[g]? with
  | none =>
      exact Nat.zero_le _
  | some e =>
      have hsize := h e (List.mem_of_getElem? hg)
      rw [← e.size_eq] at hsize
      exact hsize

theorem Stored.keyChain
    {f : ByteFile} (h : Stored crc es M n f) :
    KeyChain f (keybPos es) (fun k => (keybOf crc es k).remark k M) n := by
  constructor
  · exact h.keyb_holds
  · intro k _
    rw [tagBytes_remark, keybOf_tags]
    exact keybPos_succ es k

/-- The walk over the first `k` key blocks of a log. -/
def walkLog
    (crc : Bytes → UInt32) (es : List Entry) (M : List Nat) (k : Nat)
    (out : List Message) : Walk :=
  Walk.run crc (keybPos es) (markedTagOf es M) (keysPerBlock * k) 0 (Walk.start out)

theorem walkLog_sound (crc : Bytes → UInt32) (es : List Entry) (M : List Nat) (k : Nat)
    (out : List Message) :
    (walkLog crc es M k out).Sound (markedTagOf es M) := by
  exact (Walk.start_sound _ out).run crc _ _ _

end Marks

section Finished

variable {crc : Bytes → UInt32}
variable {es : List Entry} {M : List Nat} {hdr : RedoHeader} {s : State}

/-- A valid FINISHED header, with the key blocks it counts and their data. -/
structure FinishedLog
    (crc : Bytes → UInt32) (es : List Entry) (M : List Nat) (hdr : RedoHeader)
    (f : ByteFile) : Prop where
  stored : Stored crc es M (hdr.numKeys.toNat + 1) f
  whole : ∀ e ∈ es, e.data.length ≤ maxRwCount
  header_holds : f.Holds 0 hdr.encode
  finished : hdr.Finished crc
  keyOffset_eq : hdr.keyOffset.toNat = redoHeaderSize

theorem World.header_of_holds
    {w : World} (h : (w.file .redo).Holds 0 hdr.encode) : w.header = hdr := by
  have hlen : hdr.encode.length = redoHeaderSize := RedoHeader.length_encode _
  have hread : (w.file .redo).pread 0 redoHeaderSize = hdr.encode :=
    ByteFile.pread_of_holds_length h hlen
  have hdrop : (w.malloc .header redoHeaderSize).drop hdr.encode.length = [] := by
    rw [List.drop_eq_nil_iff, World.length_malloc, hlen]
  rw [World.header, readHeader, hread, hdrop, List.append_nil, RedoHeader.decode_encode]

theorem FinishedLog.header_eq
    (h : FinishedLog crc es M hdr (s.world.file .redo)) : s.world.header = hdr := by
  exact World.header_of_holds h.header_holds

theorem reads_of_keyChain
    (hholds : (s.world.file .redo).Holds 0 hdr.encode)
    (hoffset : hdr.keyOffset.toNat = redoHeaderSize)
    (hkeys : KeyChain (s.world.file .redo) (keybPos es)
      (fun k => (keybOf crc es k).remark k M) (hdr.numKeys.toNat + 1)) :
    (startReplay s.world.header 0 s).toScan.Reads crc (s.world.file .redo) (keybPos es)
      (fun k => (keybOf crc es k).remark k M) s.world.header.visited := by
  have hheader := World.header_of_holds hholds
  have hplace : (startReplay s.world.header 0 s).toScan.logOffset =
      keybPos es (startReplay s.world.header 0 s).toScan.keybCount := by
    simp only [startReplay, hheader, hoffset, keybPos, Nat.mul_zero, Nat.add_zero,
      List.take_zero]
    rfl
  refine hkeys.reads crc s.world.header.visited hplace ?_
  rw [hheader, RedoHeader.visited]
  simp only [startReplay, Nat.zero_add]
  exact min_le_left _ _

theorem FinishedLog.reads (h : FinishedLog crc es M hdr (s.world.file .redo)) :
    (startReplay s.world.header 0 s).toScan.Reads crc (s.world.file .redo) (keybPos es)
      (fun k => (keybOf crc es k).remark k M) s.world.header.visited := by
  exact reads_of_keyChain h.header_holds h.keyOffset_eq h.stored.keyChain

/-- **The plan of the replay of a finished log** is the walk over its tags. -/
theorem FinishedLog.planLog_follows (h : FinishedLog crc es M hdr (s.world.file .redo)) :
    Follows (keybPos es) (fun k => (keybOf crc es k).remark k M)
      hdr.visited (keysPerBlock * hdr.visited)
      (planLog crc s).1 (walkLog crc es M hdr.visited s.out) (planLog crc s).2 := by
  have hfollows := Redo.planLog_follows crc h.reads
  rw [h.header_eq, streamOf_remark] at hfollows
  exact hfollows

theorem FinishedLog.logWalk_eq (h : FinishedLog crc es M hdr (s.world.file .redo)) :
    (∀ k, k < hdr.visited → loadedPlace crc s k = keybPos es k ∧
        loadedKeyb crc s k = (keybOf crc es k).remark k M) ∧
      logWalk crc s = walkLog crc es M hdr.visited s.out := by
  have hwalk := h.reads.logWalk_eq
  rw [h.header_eq, streamOf_remark] at hwalk
  exact hwalk

theorem FinishedLog.whole_walkLog
    (h : FinishedLog crc es M hdr (s.world.file .redo)) {t : Found}
    (ht : t ∈ (walkLog crc es M hdr.visited s.out).found) :
    ∀ tag ∈ t.tags, tag.size.toNat ≤ maxRwCount := by
  intro tag htag
  obtain ⟨i, m, htags⟩ := (walkLog_sound crc es M _ s.out).found_tags t ht
  rw [htags, slice, List.mem_map] at htag
  obtain ⟨g, _, rfl⟩ := htag
  exact size_tagOf_le h.whole M g

theorem FinishedLog.whole_planLog (h : FinishedLog crc es M hdr (s.world.file .redo)) :
    ∀ a ∈ (planLog crc s).2, a.Whole := by
  rw [h.planLog_follows.acts_eq]
  exact whole_actionsOf (fun t ht => h.whole_walkLog ht) []

/-- The state after the replay of a finished log. -/
theorem FinishedLog.replay_eq
    (h : FinishedLog crc es M hdr (s.world.file .redo)) (hout : s.world.outcomes = [])
    (sync : Bool) :
    (rfsckReplay crc sync s).2 =
      { data := (planLog crc s).1.data
        world :=
          if sync then
            (perform s.data.devFd (planLog crc s).2 s.world).push (.fsync (.dev s.data.devFd))
          else
            perform s.data.devFd (planLog crc s).2 s.world
        out := (walkLog crc es M hdr.visited s.out).out } := by
  have hfin : s.world.header.Finished crc := by
    rw [h.header_eq]
    exact h.finished
  rw [rfsckReplay_of_whole crc hout hfin h.whole_planLog, h.planLog_follows.out_eq]

end Finished

end Redo
end Rfsck
