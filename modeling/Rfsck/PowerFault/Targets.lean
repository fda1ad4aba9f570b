import Rfsck.PowerFault.Workers

/-!
# Recordings of several targets

All targets of one `tgtd` share the header log, the data log and the counter of the ids; a record
carries the `tid` of its target.  `pfe_replay_simple` does not look at the `tid`.

* `own`: the commands of one target, in the order of their ids.
* `ForeignHarmless`: every byte that another target wrote is overwritten by a later record, or is
  the byte that the own writes leave at its place.
* `replay_applies_own_iff`: under this condition, and only then, a replay onto the image of the
  target gives what its own writes give.

The recording is a run of `Workers`, with any interleaving.  There the writes of all targets go
to one device; the replay starts with the image of one target and reads the logs only.
-/

namespace Rfsck
namespace PowerFault

open Storage
open Redo (Outcome)

/-- The record belongs to the target `t`. -/
def Frame.isOf (t : UInt64) (f : Frame) : Bool :=
  f.io.header.tid == t

/-- The own writes of the target `t` on its image. -/
def ownContent (t : UInt64) (image : ByteFile) (s : Workers) : ByteFile :=
  applyPatches image ((s.frames.filter (Frame.isOf t)).map fun f => f.io.patch)

/-- The writes of the other targets do no harm on the image of the target `t`. -/
def ForeignHarmless (t : UInt64) (image : ByteFile) (s : Workers) : Prop :=
  ∀ pre f post, s.frames = pre ++ f :: post → f.io.header.tid ≠ t →
    ∀ k b, f.io.data[k]? = some b →
      (∃ g ∈ post, g.io.patch.Covers (f.io.patch.offset + k)) ∨
        (ownContent t image s).Holds (f.io.patch.offset + k) [b]

theorem dropsNothing_iff (t : UInt64) (image : ByteFile) (s : Workers) :
    DropsNothing (fun f : Frame => f.io.patch) (Frame.isOf t) image s.frames ↔
      ForeignHarmless t image s := by
  simp only [DropsNothing, ForeignHarmless, Frame.isOf, beq_eq_false_iff_ne]
  rfl

/-- **A replay onto the image of one target** applies the I/O of that target, exactly if the
writes of the others do no harm. -/
theorem replay_applies_own_iff (image₀ image : ByteFile) (outcomes : List Outcome)
    (heap heap' : Nat → UInt8) (acts : List Action) (s : Workers)
    (hs : s = (Workers.init image₀ outcomes heap).run acts)
    (hintact : s.recorder.sys.intact = true) (hall : ∀ f ∈ s.frames, f.pc = .written)
    (t : UInt64) :
    (pfeReplaySimple 1 s.frames.length (replaySystem image heap' s.recorder)).2.file .disk =
        ownContent t image s ↔
      ForeignHarmless t image s := by
  subst hs
  have hres := reserved_init image₀ outcomes heap
  have hcons := (consistent_init image₀ outcomes heap).run hres hintact
  rw [hcons.replay (hres.run acts) hall, ownContent, applyPatches_filter_iff, dropsNothing_iff]

/-- The target `t` writes the byte 7 to position `0`, then the target `t'` the byte 9. -/
def twoTargets (t t' : UInt64) : List Action :=
  [.reserve ⟨0x2a, .write, t⟩ 0 0 [7], .advance 0, .advance 0, .advance 0, .advance 0,
    .reserve ⟨0x2a, .write, t'⟩ 0 0 [9], .advance 1, .advance 1, .advance 1, .advance 1]

/-- The write of the other target comes first. -/
theorem replay_applies_own_of_overwritten :
    (pfeReplaySimple 1 2 (replaySystem .empty (fun _ => 0)
        ((Workers.init .empty [] fun _ => 0).run (twoTargets 2 1)).recorder)).2.file .disk =
      ownContent 1 .empty ((Workers.init .empty [] fun _ => 0).run (twoTargets 2 1)) := by
  refine (replay_applies_own_iff .empty .empty [] (fun _ => 0) (fun _ => 0) (twoTargets 2 1) _ rfl
    (by decide +kernel) (by decide +kernel) 1).mpr ?_
  have hlist : ((Workers.init .empty [] fun _ => 0).run (twoTargets 2 1)).frames =
      [⟨⟨⟨1, 0, 0, 1, 0, 0x2a, 1, 2⟩, [7]⟩, .written⟩,
        ⟨⟨⟨2, 0, 0, 1, 1, 0x2a, 1, 1⟩, [9]⟩, .written⟩] := rfl
  rw [ForeignHarmless, hlist]
  intro pre f post hframes hforeign k b hb
  left
  rcases pre with _ | ⟨g, _ | ⟨g', pre⟩⟩
  · obtain ⟨rfl, rfl⟩ := List.cons.inj hframes
    have hk : k = 0 := by
      have hlt := (List.getElem?_eq_some_iff.mp hb).1
      rw [List.length_singleton] at hlt
      omega
    subst hk
    exact ⟨_, List.mem_singleton_self _, by decide, by decide⟩
  · obtain ⟨rfl, hrest⟩ := List.cons.inj hframes
    obtain ⟨rfl, rfl⟩ := List.cons.inj hrest
    exact absurd rfl hforeign
  · have hlen := congrArg List.length hframes
    simp at hlen

/-- The write of the other target comes last: a replay onto the image of the target 1 leaves the
byte of the target 2. -/
theorem replay_applies_foreign :
    ((Workers.init .empty [] fun _ => 0).run (twoTargets 1 2)).recorder.sys.intact = true ∧
      (∀ f ∈ ((Workers.init .empty [] fun _ => 0).run (twoTargets 1 2)).frames,
        f.pc = .written) ∧
      (pfeReplaySimple 1 2 (replaySystem .empty (fun _ => 0)
          ((Workers.init .empty [] fun _ => 0).run (twoTargets 1 2)).recorder)).2.file .disk ≠
        ownContent 1 .empty ((Workers.init .empty [] fun _ => 0).run (twoTargets 1 2)) := by
  refine ⟨by decide +kernel, by decide +kernel, fun h => ?_⟩
  exact absurd (congrArg (fun f => f.byte 0) h) (by decide +kernel)

end PowerFault
end Rfsck
