import Rfsck.Redo.Interruption

/-!
# What the replayer checks

The replayer computes the checksum of a transaction and prints a line when it is not
the one of the end tag.  It does not look at the checksum of the data, and it fills a
short read up with whatever the heap holds.  In all cases it writes to the device.

* `planned` tells for every system call of a replay which transaction it belongs to.
* `OnlyVerifiedData`: every write to the device belongs to a transaction whose
  checksum agrees, was read from the log as a whole and has the checksum of its tag.
* `onlyVerifiedData_iff`: since nothing is checked, this holds exactly for the logs
  in which there is nothing to find (`LogIntact`).
-/

namespace Rfsck
namespace Redo

open Storage

/-- The actions of a list of transactions, each with its transaction. -/
def taggedOf (o : Nat → Nat) (B : Nat → RedoBlock) :
    List Nat → List Found → List (Found × Action)
  | _, [] => []
  | M, t :: ts => (t.actions o B M).map (Prod.mk t) ++ taggedOf o B (M ++ [t.beginAt]) ts

theorem map_snd_taggedOf (o : Nat → Nat) (B : Nat → RedoBlock) (M : List Nat) (ts : List Found) :
    (taggedOf o B M ts).map Prod.snd = actionsOf o B M ts := by
  induction ts generalizing M with
  | nil =>
      rfl
  | cons t ts ih =>
      simp [taggedOf, actionsOf, ih]

section Checks

variable (crc : Bytes → UInt32)

/-- The actions that a replay plans, each with its transaction. -/
def planned (s : State) : List (Found × Action) :=
  taggedOf (loadedPlace crc s) (loadedKeyb crc s) [] (logWalk crc s).found

theorem map_snd_planned (s : State) : (planned crc s).map Prod.snd = (planLog crc s).2 := by
  rw [planned, map_snd_taggedOf]
  exact (planLog_follows_logWalk crc s).acts_eq.symm

/-- The data `d` of a tag of the transaction `t` are what the log `f` holds, and both
checksums agree. -/
def Verified (f : ByteFile) (t : Found) (tag : RedoBlockTag) (pos : Nat) (d : Bytes) : Prop :=
  t.csum = t.endTag.offset.toUInt32 ∧
    d = f.pread pos tag.size.toNat ∧ d.length = tag.size.toNat ∧ crc d = tag.blkCrc

/-- Every system call of the trace from `n` on that writes to the device writes
verified data. -/
def VerifiedFrom
    (devFd : Nat) (init : ByteFile) (n : Nat) (tr : List (Event Fd))
    (as : List (Found × Action)) : Prop :=
  ∀ i off d, tr[n + i]? = some (.pwrite (.dev devFd) off d) →
    ∃ t tag pos, as[i]? = some (t, .copy tag pos) ∧
      Verified crc (applyEvents .redo init (tr.take (n + i))) t tag pos d

/-- **Only verified data reaches the device** in a replay of the state `s`. -/
def OnlyVerifiedData (sync : Bool) (s : State) : Prop :=
  VerifiedFrom crc s.data.devFd (s.world.init .redo) s.world.trace.length
    (rfsckReplay crc sync s).2.world.trace (planned crc s)

/-- The log `f` holds the data of the tag at `pos`, and they have its checksum. -/
def DataIntact (f : ByteFile) (tag : RedoBlockTag) (pos : Nat) : Prop :=
  tag.size.toNat ≤ maxRwCount ∧ (f.pread pos tag.size.toNat).length = tag.size.toNat ∧
    crc (f.pread pos tag.size.toNat) = tag.blkCrc

/-- Every transaction with data has the checksum of its end tag, and its data are in
the log, with their checksums, where the replayer looks for them. -/
def LogIntact (o : Nat → Nat) (B : Nat → RedoBlock) :
    ByteFile → List Nat → List Found → Prop
  | _, _, [] => True
  | f, M, t :: ts =>
      (t.tags ≠ [] → t.csum = t.endTag.offset.toUInt32) ∧
        (∀ tag pos, Action.copy tag pos ∈ t.copies.2 → DataIntact crc f tag pos) ∧
        LogIntact o B
          (f.pwrite (o t.beginBlk)
            ((B t.beginBlk).clearReserved.remark t.beginBlk (M ++ [t.beginAt])).encode)
          (M ++ [t.beginAt]) ts

/-- The same for the world in which the actions are carried out. -/
def AllVerified (devFd : Nat) : World → List (Found × Action) → Prop
  | _, [] => True
  | w, (t, .copy tag pos) :: as =>
      Verified crc (w.file .redo) t tag pos ((copyData w tag pos).take maxRwCount) ∧
        AllVerified devFd (w.push ((Action.copy tag pos).event devFd w)) as
  | w, (_, .mark offset kb) :: as =>
      AllVerified devFd (w.push ((Action.mark offset kb).event devFd w)) as

variable {crc}

theorem verifiedFrom_perform (devFd : Nat) (as : List (Found × Action)) (w : World) :
    VerifiedFrom crc devFd (w.init .redo) w.trace.length
        (perform devFd (as.map Prod.snd) w).trace as ↔
      AllVerified crc devFd w as := by
  induction as generalizing w with
  | nil =>
      refine ⟨fun _ => trivial, ?_⟩
      intro _ i off d h
      rw [List.map_nil, perform_nil, List.getElem?_eq_none (by omega)] at h
      simp at h
  | cons x as ih =>
      obtain ⟨t, a⟩ := x
      have hrest := ih (w.push (a.event devFd w))
      rw [World.push_init, World.push_trace, List.length_append, List.length_singleton] at hrest
      rw [List.map_cons, perform_cons]
      obtain ⟨tr, htr⟩ := trace_perform devFd (as.map Prod.snd) (w.push (a.event devFd w))
      rw [World.push_trace, List.append_assoc, List.singleton_append] at htr
      have hhead : (perform devFd (as.map Prod.snd) (w.push (a.event devFd w))).trace[
          w.trace.length + 0]? = some (a.event devFd w) := by
        rw [htr, List.getElem?_append_right (by omega)]
        simp
      have htake : (perform devFd (as.map Prod.snd) (w.push (a.event devFd w))).trace.take
          (w.trace.length + 0) = w.trace := by
        rw [htr]
        exact List.take_left
      -- the first system call on its own, the others shifted by one
      have hsplit : VerifiedFrom crc devFd (w.init .redo) w.trace.length
            (perform devFd (as.map Prod.snd) (w.push (a.event devFd w))).trace ((t, a) :: as) ↔
          (∀ off d, a.event devFd w = .pwrite (.dev devFd) off d →
            ∃ tag pos, a = .copy tag pos ∧ Verified crc (w.file .redo) t tag pos d) ∧
          VerifiedFrom crc devFd (w.init .redo) (w.trace.length + 1)
            (perform devFd (as.map Prod.snd) (w.push (a.event devFd w))).trace as := by
        constructor
        · intro h
          refine ⟨?_, ?_⟩
          · intro off d he
            obtain ⟨t', tag, pos, hx, hv⟩ := h 0 off d (by rw [hhead, he])
            obtain ⟨rfl, rfl⟩ := Prod.mk.inj (Option.some.inj hx)
            rw [htake] at hv
            exact ⟨tag, pos, rfl, hv⟩
          · intro i off d hi
            rw [Nat.add_assoc, Nat.add_comm 1 i] at hi ⊢
            exact h (i + 1) off d hi
        · rintro ⟨hfirst, hlater⟩ i off d hi
          cases i with
          | zero =>
              rw [hhead] at hi
              obtain ⟨tag, pos, rfl, hv⟩ := hfirst off d (Option.some.inj hi)
              rw [htake]
              exact ⟨t, tag, pos, rfl, hv⟩
          | succ i =>
              have hnext := hlater i off d
              rw [Nat.add_assoc, Nat.add_comm 1 i] at hnext
              exact hnext hi
      rw [hsplit, hrest]
      cases a with
      | copy tag pos =>
          refine and_congr_left (fun _ => ?_)
          constructor
          · intro h
            obtain ⟨tag', pos', hcopy, hv⟩ := h _ _ rfl
            obtain ⟨rfl, rfl⟩ := Action.copy.inj hcopy
            exact hv
          · rintro h off d ⟨⟩
            exact ⟨tag, pos, rfl, h⟩
      | mark offset kb =>
          constructor
          · exact fun h => h.2
          · refine fun h => ⟨?_, h⟩
            rintro off d ⟨⟩

theorem verified_copy_iff (w : World) (t : Found) (tag : RedoBlockTag) (pos : Nat) :
    Verified crc (w.file .redo) t tag pos ((copyData w tag pos).take maxRwCount) ↔
      t.csum = t.endTag.offset.toUInt32 ∧ DataIntact crc (w.file .redo) tag pos := by
  have hlen := length_copyData w tag pos
  unfold Verified DataIntact
  constructor
  · rintro ⟨hcsum, hdata, hsize, hcrc⟩
    have hwhole : tag.size.toNat ≤ maxRwCount := by
      rw [List.length_take, hlen] at hsize
      omega
    rw [hdata] at hsize hcrc
    exact ⟨hcsum, hwhole, hsize, hcrc⟩
  · rintro ⟨hcsum, hwhole, hsize, hcrc⟩
    have hdata : (copyData w tag pos).take maxRwCount =
        (w.file .redo).pread pos tag.size.toNat := by
      rw [List.take_of_length_le (by omega), copyData, min_eq_left hwhole]
      have hdrop : (w.malloc .dataBlock tag.size.toNat).drop
          ((w.file .redo).pread pos tag.size.toNat).length = [] := by
        rw [List.drop_eq_nil_iff, World.length_malloc, hsize]
      rw [hdrop, List.append_nil]
    rw [hdata]
    exact ⟨hcsum, rfl, hsize, hcrc⟩

theorem allVerified_copies
    (devFd : Nat) (t : Found) (ts : List RedoBlockTag) (i pos : Nat) (w : World)
    (as : List (Found × Action)) :
    AllVerified crc devFd w ((copyTags ts i pos).2.map (Prod.mk t) ++ as) ↔
      (ts ≠ [] → t.csum = t.endTag.offset.toUInt32) ∧
        (∀ tag p, Action.copy tag p ∈ (copyTags ts i pos).2 →
          DataIntact crc (w.file .redo) tag p) ∧
        AllVerified crc devFd (perform devFd (copyTags ts i pos).2 w) as := by
  induction ts generalizing i pos w with
  | nil =>
      simp [copyTags]
  | cons tag ts ih =>
      have hlog : (w.push ((Action.copy tag pos).event devFd w)).file .redo = w.file .redo := by
        rw [World.file_push, Action.event, applyEvent_pwrite_other (by simp)]
      rw [copyTags_cons, List.map_cons, List.cons_append, AllVerified, ih, hlog,
        verified_copy_iff, perform_cons]
      simp only [List.mem_cons, Action.copy.injEq, ne_eq, reduceCtorEq, not_false_eq_true,
        true_implies]
      constructor
      · rintro ⟨⟨hcsum, hhere⟩, _, hrest, hall⟩
        refine ⟨hcsum, ?_, hall⟩
        rintro tag' p (⟨rfl, rfl⟩ | hp)
        · exact hhere
        · exact hrest tag' p hp
      · rintro ⟨hcsum, hdata, hall⟩
        exact ⟨⟨hcsum, hdata tag pos (Or.inl ⟨rfl, rfl⟩)⟩, fun _ => hcsum,
          fun tag' p hp => hdata tag' p (Or.inr hp), hall⟩

theorem allVerified_taggedOf
    (devFd : Nat) (o : Nat → Nat) (B : Nat → RedoBlock) (M : List Nat) (ts : List Found)
    (w : World) :
    AllVerified crc devFd w (taggedOf o B M ts) ↔
      LogIntact crc o B (w.file .redo) M ts := by
  induction ts generalizing M w with
  | nil =>
      exact Iff.rfl
  | cons t ts ih =>
      have hlog : (perform devFd t.copies.2 w).file .redo = w.file .redo := by
        rw [perform_redo, Found.copies, markPatches_copyTags]
        rfl
      rw [taggedOf, Found.actions, List.map_append, List.append_assoc, Found.copies,
        allVerified_copies, ← Found.copies, List.map_singleton, List.singleton_append,
        AllVerified, ih, LogIntact, World.file_push, Action.event, applyEvent_pwrite_self, hlog]

theorem LogIntact.whole
    {o : Nat → Nat} {B : Nat → RedoBlock} {f : ByteFile} {M : List Nat} {ts : List Found}
    (h : LogIntact crc o B f M ts) : ∀ a ∈ actionsOf o B M ts, a.Whole := by
  induction ts generalizing f M with
  | nil =>
      intro a ha
      simp [actionsOf] at ha
  | cons t ts ih =>
      obtain ⟨_, hdata, hrest⟩ := h
      intro a ha
      rw [actionsOf, Found.actions] at ha
      rcases List.mem_append.mp ha with ha | ha
      · rcases List.mem_append.mp ha with ha | ha
        · cases a with
          | copy tag pos =>
              exact (hdata tag pos ha).1
          | mark offset kb =>
              trivial
        · rw [List.mem_singleton.mp ha]
          trivial
      · exact ih hrest a ha

theorem execute_of_not_whole
    {devFd : Nat} {as : List Action} (h : ¬ ∀ a ∈ as, a.Whole) (w : World) :
    ∃ bs a cs, as = bs ++ a :: cs ∧ ¬ a.Whole ∧
      execute devFd as w = .error (perform devFd (bs ++ [a]) w) := by
  induction as generalizing w with
  | nil =>
      simp at h
  | cons a as ih =>
      by_cases ha : a.Whole
      · have hrest : ¬ ∀ b ∈ as, b.Whole := by
          intro hall
          refine h (fun b hb => ?_)
          rcases List.mem_cons.mp hb with rfl | hb
          · exact ha
          · exact hall b hb
        obtain ⟨bs, b, cs, rfl, hb, hex⟩ := ih hrest (w.push (a.event devFd w))
        exact ⟨a :: bs, b, cs, rfl, hb, by rw [execute, if_pos ha, hex]; rfl⟩
      · exact ⟨[], a, as, rfl, ha, by rw [execute, if_neg ha]; rfl⟩

theorem not_verifiedFrom_of_cut
    {devFd : Nat} {as : List (Found × Action)} {bs cs : List Action} {a : Action}
    (has : as.map Prod.snd = bs ++ a :: cs) (ha : ¬ a.Whole) (w : World) :
    ¬ VerifiedFrom crc devFd (w.init .redo) w.trace.length
      (perform devFd (bs ++ [a]) w).trace as := by
  cases a with
  | mark offset kb =>
      exact absurd trivial ha
  | copy tag pos =>
      intro h
      have hlen := length_trace_perform devFd bs w
      have hevent : (perform devFd (bs ++ [.copy tag pos]) w).trace[w.trace.length + bs.length]? =
          some (.pwrite (.dev devFd) tag.offset.toNat
            ((copyData (perform devFd bs w) tag pos).take maxRwCount)) := by
        rw [perform_append, perform_cons, perform_nil, World.push_trace,
          List.getElem?_append_right (le_of_eq hlen), hlen, Nat.sub_self]
        rfl
      obtain ⟨t, tag', pos', hplanned, _, _, hsize, _⟩ := h bs.length _ _ hevent
      have haction := congrArg (fun l => l[bs.length]?) has
      simp only [List.getElem?_map, hplanned, List.getElem?_append_right (le_refl _),
        Nat.sub_self, List.getElem?_cons_zero, Option.map_some, Option.some.injEq,
        Action.copy.injEq] at haction
      obtain ⟨rfl, rfl⟩ := haction
      have hcut : ¬ tag'.size.toNat ≤ maxRwCount := ha
      rw [List.length_take] at hsize
      omega

/-- The final `fsync` writes nothing. -/
theorem verifiedFrom_fsync
    (devFd : Nat) (init : ByteFile) (n : Nat) (tr : List (Event Fd)) (fd : Fd)
    (as : List (Found × Action)) :
    VerifiedFrom crc devFd init n (tr ++ [.fsync fd]) as ↔
      VerifiedFrom crc devFd init n tr as := by
  constructor
  · intro h i off d hi
    have hlt : n + i < tr.length := (List.getElem?_eq_some_iff.mp hi).1
    have hv := h i off d (by rw [List.getElem?_append_left hlt, hi])
    rw [List.take_append_of_le_length (le_of_lt hlt)] at hv
    exact hv
  · intro h i off d hi
    by_cases hlt : n + i < tr.length
    · rw [List.getElem?_append_left hlt] at hi
      rw [List.take_append_of_le_length (le_of_lt hlt)]
      exact h i off d hi
    · rw [List.getElem?_append_right (by omega)] at hi
      have hlast := List.mem_of_getElem? hi
      simp at hlast

end Checks

section Intact

variable {crc : Bytes → UInt32}

theorem position_of_mem_found
    {es : List Entry} (H : List Txn) (as : List Entry) {id : UInt32}
    (hes : es = as ++ historyEntries crc id H)
    {pos : Nat} (hpos : pos = dataPos es as.length ∨ ∀ ws ∈ H, ws = [])
    (halign : AlignedFrom as.length H) {t : Found}
    (ht : t ∈ MarkedHistory.found crc as.length id pos (MarkedHistory.unmarked H)) :
    ∃ bs cs i ws, ws ∈ H ∧ es = bs ++ (txnEntries crc i ws ++ cs) ∧
      t = txnFound crc bs.length i ws t.pos ∧ (t.pos = dataPos es bs.length ∨ ws = []) := by
  induction H generalizing as id pos with
  | nil =>
      simp [MarkedHistory.found, MarkedHistory.unmarked] at ht
  | cons ws H ih =>
      have hposition := copies_fst_of_aligned hes hpos halign
      have hrest := halign.2
      rw [historyEntries] at hes
      have hlen : (as ++ txnEntries crc id ws).length = as.length + (ws.length + 2) := by
        rw [List.length_append, length_txnEntries]
      rcases List.mem_cons.mp ht with rfl | ht
      · refine ⟨as, _, id, ws, by simp, hes, rfl, ?_⟩
        exact hpos.imp (fun h => h) (fun hempty => hempty ws (by simp))
      · rw [← hlen] at hposition hrest ht
        obtain ⟨bs, cs, i, us, hus, hfound⟩ := ih (as ++ txnEntries crc id ws)
          (by rw [hes, List.append_assoc]) hposition hrest ht
        exact ⟨bs, cs, i, us, List.mem_cons_of_mem ws hus, hfound⟩

theorem dataIntact_txn
    {es : List Entry} {f : ByteFile} (h : DataHolds es f)
    {as cs : List Entry} {id : UInt32} {ws : Txn} (hws : ws.Proper)
    (hes : es = as ++ (txnEntries crc id ws ++ cs)) {tag : RedoBlockTag} {pos : Nat}
    (hcopy : Action.copy tag pos ∈
      (txnFound crc as.length id ws (dataPos es as.length)).copies.2) :
    DataIntact crc f tag pos := by
  rw [copies_txn hes] at hcopy
  obtain ⟨g, hg, haction⟩ := List.mem_map.mp hcopy
  obtain ⟨rfl, rfl⟩ := Action.copy.inj haction
  obtain ⟨j, hj, rfl⟩ := List.mem_range'.mp hg
  rw [Nat.one_mul]
  have hreq : es[as.length + 1 + j]? = some ((ws.get ⟨j, hj⟩).entry crc) := by
    have hlen : (as ++ [Entry.edge 0 id]).length = as.length + 1 := by
      simp
    rw [hes, split_txnEntries, List.getElem?_append_right (by omega), hlen,
      Nat.add_sub_cancel_left, List.getElem?_append_left (by simpa using hj),
      List.getElem?_map, List.getElem?_eq_getElem hj]
    rfl
  have hwhole := (hws _ (List.get_mem ws ⟨j, hj⟩)).2
  have hread := ByteFile.pread_of_holds (h _ _ hreq)
  rw [← Entry.size_eq] at hread
  rw [tagOf_of_getElem? hreq, DataIntact, hread]
  exact ⟨by rw [Entry.size_eq]; exact hwhole, (Entry.size_eq _).symm, rfl⟩

theorem logIntact_of_forall
    {es : List Entry} (B : Nat → RedoBlock) {ts : List Found}
    (hts : ∀ t ∈ ts, (t.tags ≠ [] → t.csum = t.endTag.offset.toUInt32) ∧
      ∀ f, DataHolds es f → ∀ tag pos, Action.copy tag pos ∈ t.copies.2 →
        DataIntact crc f tag pos)
    {f : ByteFile} (h : DataHolds es f) (M : List Nat) :
    LogIntact crc (keybPos es) B f M ts := by
  induction ts generalizing f M with
  | nil =>
      trivial
  | cons t ts ih =>
      obtain ⟨hcsum, hdata⟩ := hts t (by simp)
      exact ⟨hcsum, hdata f h,
        ih (fun u hu => hts u (List.mem_cons_of_mem t hu)) (h.pwrite_keyb _ _) _⟩

theorem LogIntact.congr
    {o o' : Nat → Nat} {B B' : Nat → RedoBlock} {ts : List Found}
    (hts : ∀ t ∈ ts, o t.beginBlk = o' t.beginBlk ∧ B t.beginBlk = B' t.beginBlk)
    {f : ByteFile} {M : List Nat} (h : LogIntact crc o B f M ts) :
    LogIntact crc o' B' f M ts := by
  induction ts generalizing f M with
  | nil =>
      trivial
  | cons t ts ih =>
      obtain ⟨hcsum, hdata, hrest⟩ := h
      obtain ⟨ho, hB⟩ := hts t (by simp)
      rw [ho, hB] at hrest
      exact ⟨hcsum, hdata, ih (fun u hu => hts u (List.mem_cons_of_mem t hu)) hrest⟩

/-- **The log that the library writes** for an aligned history is intact. -/
theorem SealedLog.logIntact
    {H : List Txn} {hdr : RedoHeader} {s : State}
    (h : SealedLog crc (MarkedHistory.unmarked H) hdr (s.world.file .redo))
    (halign : AlignedFrom 0 H) :
    LogIntact crc (loadedPlace crc s) (loadedKeyb crc s) (s.world.file .redo) []
      (logWalk crc s).found := by
  obtain ⟨hloaded, hwalk⟩ := h.log.logWalk_eq
  have hfollows := h.log.planLog_follows
  have hfound := h.found_eq s.out
  rw [hwalk]
  refine LogIntact.congr (o := keybPos (historyEntries crc 1 H)) ?_
    (logIntact_of_forall (fun k => (keybOf crc (historyEntries crc 1 H) k).remark k
      (MarkedHistory.marksAt 0 (MarkedHistory.unmarked H))) ?_ ?_ [])
  · intro t ht
    have hlt := hfollows.marks_lt t.beginAt (List.mem_map_of_mem ht)
    obtain ⟨hplace, hkeyb⟩ := hloaded t.beginBlk (Nat.div_lt_of_lt_mul hlt)
    rw [MarkedHistory.txns_unmarked] at hplace hkeyb
    exact ⟨hplace.symm, hkeyb.symm⟩
  · intro t ht
    rw [hfound] at ht
    refine ⟨fun _ => MarkedHistory.csum_of_mem_found crc ht, ?_⟩
    intro f hf tag pos hcopy
    obtain ⟨bs, cs, i, ws, hws, hes, hteq, hpos⟩ :=
      position_of_mem_found H [] (List.nil_append (historyEntries crc 1 H)).symm
        (Or.inl rfl) halign ht
    rw [hteq] at hcopy
    rcases hpos with hpos | rfl
    · rw [hpos] at hcopy
      refine dataIntact_txn hf (h.proper ws ?_) hes hcopy
      rw [MarkedHistory.txns_unmarked]
      exact hws
    · simp [Found.copies, txnFound, dataTags, copyTags] at hcopy
  · have hdata := h.log.stored.data_holds
    rw [MarkedHistory.txns_unmarked] at hdata
    exact hdata

theorem onlyVerifiedData_of_whole
    {s : State} (hout : s.world.outcomes = []) (hfin : s.world.header.Finished crc)
    (hwhole : ∀ a ∈ (planLog crc s).2, a.Whole) (sync : Bool) :
    OnlyVerifiedData crc sync s ↔
      LogIntact crc (loadedPlace crc s) (loadedKeyb crc s) (s.world.file .redo) []
        (logWalk crc s).found := by
  have hrun := rfsckReplay_of_whole crc hout hfin hwhole sync
  have hperform := @verifiedFrom_perform crc s.data.devFd (planned crc s) s.world
  rw [map_snd_planned] at hperform
  rw [← allVerified_taggedOf s.data.devFd, OnlyVerifiedData, hrun]
  cases sync with
  | false =>
      exact hperform
  | true =>
      exact (verifiedFrom_fsync _ _ _ _ _ _).trans hperform

theorem OnlyVerifiedData.logIntact
    {sync : Bool} {s : State} (h : OnlyVerifiedData crc sync s)
    (hout : s.world.outcomes = []) (hfin : s.world.header.Finished crc) :
    LogIntact crc (loadedPlace crc s) (loadedKeyb crc s) (s.world.file .redo) []
      (logWalk crc s).found := by
  by_cases hwhole : ∀ a ∈ (planLog crc s).2, a.Whole
  · exact (onlyVerifiedData_of_whole hout hfin hwhole sync).mp h
  · obtain ⟨bs, a, cs, hsplit, ha, hex⟩ := @execute_of_not_whole s.data.devFd _
      hwhole s.world
    have hrun := rfsckReplay_of_finished crc hout hfin sync
    rw [hex] at hrun
    rw [OnlyVerifiedData, hrun] at h
    exact absurd h (not_verifiedFrom_of_cut ((map_snd_planned crc s).trans hsplit) ha s.world)

/-- A byte of the first data block is overwritten. -/
def corruptData (b : UInt8) (s : State) : State :=
  { s with world := s.world.push (.pwrite .redo (redoHeaderSize + redoLogBlockSize) [b]) }

end Intact

end Redo
end Rfsck
