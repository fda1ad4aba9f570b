import Rfsck.Redo.Session

/-!
# A replay in a session

A replay of a session whose header says FINISHED is the replay of a finished log.
`Session.replay` states that it keeps the session relation, with the marks of the
transactions it finds.
-/

namespace Rfsck
namespace Redo

open Storage

section Marks

variable {crc : Bytes → UInt32}
variable {es : List Entry} {M : List Nat} {n : Nat} {s : State}

/-- The state after a replay in a session whose header says FINISHED. -/
theorem Session.replay_eq
    (h : Session crc es M n [] s) (hf : s.data.hdr.state = e2redoStateFinished)
    (sync : Bool) :
    (rfsckReplay crc sync s).2 =
      { data := (planLog crc s).1.data
        world :=
          if sync then
            (perform s.data.devFd (planLog crc s).2 s.world).push (.fsync (.dev s.data.devFd))
          else
            perform s.data.devFd (planLog crc s).2 s.world
        out := (walkLog crc es M s.data.hdr.visited s.out).out } := by
  exact (h.finishedLog hf).replay_eq h.outcomes_nil sync

theorem Session.replay_idle
    (h : Session crc es M n [] s) (hf : s.data.hdr.state = e2redoStateFinished)
    (sync : Bool) :
    (rfsckReplay crc sync s).2.data.idle = s.data.idle := by
  rw [h.replay_eq hf]
  exact planLog_idle crc s

theorem Session.replay_of_not_finished
    (h : Session crc es M n [] s) (hf : s.data.hdr.state ≠ e2redoStateFinished)
    (sync : Bool) :
    ∃ m, (rfsckReplay crc sync s).2 = s.print m := by
  obtain ⟨m, hm⟩ := rfsckReplay_of_not_finished crc h.outcomes_nil
    (fun hfin => hf (h.finished_iff.mp hfin)) sync
  exact ⟨m, by rw [hm]⟩

/-- **A replay keeps the session relation** and adds the marks of the transactions
it finds. -/
theorem Session.replay
    (h : Session crc es M n [] s) (hf : s.data.hdr.state = e2redoStateFinished)
    (sync : Bool) :
    Session crc es (M ++ (walkLog crc es M s.data.hdr.visited s.out).marks) n []
      (rfsckReplay crc sync s).2 := by
  have hfollows := (h.finishedLog hf).planLog_follows
  have hblk : ∀ t ∈ (walkLog crc es M s.data.hdr.visited s.out).found,
      t.beginAt / keysPerBlock < n := by
    intro t ht
    have hlt := hfollows.marks_lt t.beginAt (List.mem_map_of_mem ht)
    have hle := h.visited_le hf
    simp only [keysPerBlock_eq] at *
    omega
  have hidle := planLog_idle crc s
  have hstored : Stored crc es (M ++ []) n (s.world.file .redo) := by
    rw [List.append_nil]
    exact h.stored
  have hmarks := hstored.applyMarks hblk
  have hedges := (walkLog_sound crc es M s.data.hdr.visited s.out).found_edge
  rw [h.replay_eq hf]
  generalize walkLog crc es M s.data.hdr.visited s.out = W at hfollows hmarks hedges ⊢
  generalize planLog crc s = p at hfollows hidle ⊢
  have hhdr := RedoPrivateData.hdr_of_idle hidle
  have hredo := perform_redo s.data.devFd p.2 s.world
  rw [hfollows.acts_eq] at hredo
  rw [List.append_nil] at hmarks
  have hperform : Session crc es (M ++ W.marks) n []
      { data := p.1.data
        world := perform s.data.devFd p.2 s.world
        out := W.out } := by
    refine {
      writer := h.writer.congr hidle
      stored := ?_
      pending_holds := ByteFile.holds_nil _ _
      whole := h.whole
      le_n := h.le_n
      n_le := h.n_le
      marks_edge := ?_
      header_holds := ?_
      header_crc := ?_
      header_keyOffset := ?_
      header_covers := ?_
      outcomes_nil := ?_ }
    · rw [hfollows.acts_eq, hredo]
      exact hmarks
    · intro m hm
      rcases List.mem_append.mp hm with hm | hm
      · exact h.marks_edge m hm
      · obtain ⟨t, ht, rfl⟩ := List.mem_map.mp hm
        have hedge := hedges t ht
        rw [RedoBlockTag.IsEdge, markedTagOf_size, markedTagOf_blkCrc] at hedge
        exact hedge
    · rw [hhdr, hfollows.acts_eq, hredo]
      exact header_applyMarks h.header_holds _ _ _
    · rw [hhdr]
      exact h.header_crc
    · rw [hhdr]
      exact h.header_keyOffset
    · rw [hhdr]
      exact h.header_covers
    · rw [perform_outcomes]
      exact h.outcomes_nil
  cases sync with
  | false =>
      exact hperform
  | true =>
      exact hperform.push_other (fun _ => rfl)

end Marks

end Redo
end Rfsck
