import KeyValueDb.BlobDb.Scratch
import KeyValueDb.BlobDb.Runs

/-!
Who writes to a wedged store. An operation on an inline payload stops at the compaction that wedges
it. Segment placement, release and sweep go on, so there the window has to close without an error.
-/

namespace KeyValueDb.BlobDb

-- A wedged store writes to its master sectors only.
def WedgeSafe : Event → Prop
  | .mutation m => m.st.wedged = true → m.sector ≤ masterBSector
  | .alloc _ => True

instance : DecidablePred WedgeSafe
  | .mutation m => inferInstanceAs (Decidable (m.st.wedged = true → m.sector ≤ masterBSector))
  | .alloc _ => inferInstanceAs (Decidable True)

-- No store write reports an error while segments are in flight and the scratch sector is sealed.
def SegmentWindowQuiet (cfg : Cfg) : Event → Prop
  | .mutation m => m.fault.isError = true → m.st.mounted = true → m.st.segOwner ≠ 0 →
    scratchSealValid cfg (m.before scratchSector) = none
  | .alloc _ => True

instance (cfg : Cfg) : DecidablePred (SegmentWindowQuiet cfg)
  | .mutation m => inferInstanceAs (Decidable (m.fault.isError = true → m.st.mounted = true →
      m.st.segOwner ≠ 0 → scratchSealValid cfg (m.before scratchSector) = none))
  | .alloc _ => inferInstanceAs (Decidable True)

def AllSafe (w : World) : Prop := ∀ e ∈ w.history, WedgeSafe e

structure Hist (w : World) : Prop where
  safe : AllSafe w
  active : w.st.activeMaster ≤ 1

-- A store that is not wedged, with `p` true of its mount flag and its segment owner.
structure Fresh (p : Bool → Nat → Prop) (w : World) : Prop where
  hist : Hist w
  unwedged : w.st.wedged = false
  session : p w.st.mounted w.st.segOwner

section

variable {cfg : Cfg} {good : Event → Prop} {p : Bool → Nat → Prop}

theorem hist_stable : Stable Hist := by
  intro w w' q h
  refine ⟨?_, q.activeMaster ▸ h.active⟩
  unfold AllSafe
  rw [q.history]
  exact h.safe

theorem fresh_stable : Stable (Fresh p) := by
  intro w w' q h
  refine ⟨hist_stable w w' q h.hist, q.wedged.trans h.unwedged, ?_⟩
  have := h.session
  rwa [← show w'.st.mounted = w.st.mounted from q.mounted,
    ← show w'.st.segOwner = w.st.segOwner from q.segOwner] at this

theorem allSafe_mutate {w : World} {sector : Nat} {r : Request} (h : AllSafe w)
    (hs : w.st.wedged = true → sector ≤ masterBSector) : AllSafe (w.mutate sector r) := by
  intro e he
  rw [World.mutate_history] at he
  cases he with
  | head => exact hs
  | tail _ he => exact h e he

theorem Fresh.mutate {w : World} (h : Fresh p w) (sector : Nat) (r : Request) :
    Fresh p (w.mutate sector r) :=
  ⟨⟨allSafe_mutate h.hist.safe (by simp [h.unwedged]), h.hist.active⟩, h.unwedged, h.session⟩

theorem Fresh.imp {w : World} {q : Bool → Nat → Prop} (h : Fresh p w)
    (hpq : ∀ m o, p m o → q m o) : Fresh q w :=
  ⟨h.hist, h.unwedged, hpq _ _ h.session⟩

theorem fresh_mutate (sector : Nat) (r : Request) :
    Keeps good (Fresh p) Hist AllSafe (storeMutate sector r) := by
  apply storeMutate_spec
  . intro w h _ _
    exact h.mutate _ _
  . intro w _ _ h _ _
    exact (h.mutate _ _).hist
  . intro w _ _ h _ _
    exact (h.mutate _ _).hist.safe

theorem compactOrWedge_fresh {x : M Unit} (hx : Keeps good (Fresh p) Hist AllSafe x) :
    Keeps good (Fresh p) Hist AllSafe (compactOrWedge x) := by
  unfold compactOrWedge
  apply hx.caught
  . intro _
    exact ret_keeps _
  . intro e
    refine modifySt_bind (I := Hist) (fun w h => ⟨h.safe, h.active⟩) ?_
    intro _
    exact Spec.fail fun _ h => h
  . exact fun _ h => h

theorem compactCommit_fresh (bid : Nat) (image : List UInt8) :
    Keeps good (Fresh p) Hist AllSafe (compactCommit cfg bid image) := by
  unfold compactCommit
  split
  . exact Spec.fail fun _ h => h.hist
  . split
    . next ha =>
      unfold storeReplace
      rw [if_pos ha]
      exact fresh_mutate _ _
    . apply (fresh_mutate _ _).seq
      intro _
      apply (fresh_mutate _ _).seq
      intro _
      apply (fresh_mutate _ _).seq
      intro _
      apply (compactOrWedge_fresh (fresh_mutate _ _)).seq
      intro _
      apply (compactOrWedge_fresh (fresh_mutate _ _)).seq
      intro _
      exact compactOrWedge_fresh (fresh_mutate _ _)

-- Inline work: every step that follows a failed one is refused.
theorem fresh_frame : Frame cfg good (Fresh p) Hist AllSafe where
  fails _ h := h.hist
  lost _ h := h.hist.safe
  stable := fresh_stable
  stableFailed := hist_stable
  bucket _ _ := fresh_mutate _ _
  compact bid :=
    compactBucket_keeps fresh_stable hist_stable (fun _ h => h.hist) bid
      fun image _ => compactCommit_fresh bid image

theorem fresh_neutral : Neutral good (Fresh p) AllSafe where
  active _ h := h.hist.active
  ram w st' hst h := by
    refine ⟨⟨h.hist.safe, hst.active⟩, hst.wedged.trans h.unwedged, ?_⟩
    show p st'.mounted st'.segOwner
    rw [hst.mounted, hst.segOwner]
    exact h.session
  note w id h := by
    refine ⟨⟨?_, h.hist.active⟩, h.unwedged, h.session⟩
    intro e he
    cases he with
    | head => trivial
    | tail _ he => exact h.hist.safe e he
  master slot r hs := by
    apply storeMutate_spec
    . intro w h _ _
      exact h.mutate _ _
    . intro w _ _ h _ _
      exact h.mutate _ _
    . intro w _ _ h _ _
      exact (h.mutate _ _).hist.safe

theorem hist_neutral : Neutral good Hist AllSafe where
  active _ h := h.active
  ram _ _ hst h := ⟨h.safe, hst.active⟩
  note w id h := by
    refine ⟨?_, h.active⟩
    intro e he
    cases he with
    | head => trivial
    | tail _ he => exact h.safe e he
  master slot r hs := by
    have hstep : ∀ w, Hist w → Hist (w.mutate slot r) :=
      fun w h => ⟨allSafe_mutate h.safe fun _ => hs, h.active⟩
    apply storeMutate_spec
    . intro w h _ _
      exact hstep w h
    . intro w _ _ h _ _
      exact hstep w h
    . intro w _ _ h _ _
      exact (hstep w h).safe

/-! Segment work -/

-- A mounted store that is not wedged, with the segments of `owner` in flight.
abbrev Phase (owner : Nat) : World → Prop := Fresh fun m o => m = true ∧ o = owner

-- The scratch sector is sealed.
structure Staged (cfg : Cfg) (owner : Nat) (w : World) : Prop where
  phase : Phase owner w
  sealed : scratchSealValid cfg (w.flash scratchSector) ≠ none

theorem phase_mutate (owner sector : Nat) (r : Request) :
    Keeps good (Phase owner) (Phase owner) AllSafe (storeMutate sector r) := by
  apply storeMutate_spec
  . intro w h _ _
    exact h.mutate _ _
  . intro w _ _ h _ _
    exact h.mutate _ _
  . intro w _ _ h _ _
    exact (h.mutate _ _).hist.safe

-- Inside the window no write reports an error, so nothing wedges the store.
theorem staged_step {owner : Nat} (ho : owner ≠ 0) {sector : Nat} {r : Request} {I : World → Prop}
    (hok : ∀ w, Staged cfg owner w → w.nextFault = .none → I (w.mutate sector r)) :
    Spec (History (SegmentWindowQuiet cfg)) (Staged cfg owner)
      (compactOrWedge (storeMutate sector r)) (.exits I (Phase owner) AllSafe) := by
  have hx : Spec (History (SegmentWindowQuiet cfg)) (Staged cfg owner) (storeMutate sector r)
      (.exits I (fun _ => False) AllSafe) := by
    apply storeMutate_spec
    . intro w h hf _
      exact hok w h hf
    . intro w part upper h hf hg
      apply h.sealed
      apply hg
      . exact congrArg Fault.isError hf
      . exact h.phase.session.1
      . exact h.phase.session.2.trans_ne ho
    . intro w _ _ h _ _
      exact (h.phase.mutate _ _).hist.safe
  unfold compactOrWedge
  apply hx.caught
  . intro _
    exact Spec.ret fun _ h => h
  . intro e w h
    exact h.elim
  . exact fun _ h => h

theorem compactCommit_phase (hv : cfg.Valid) {owner : Nat} (ho : owner ≠ 0) (bid : Nat)
    (img : List UInt8) (hmin : bucketDataOff ≤ img.length) :
    Keeps (SegmentWindowQuiet cfg) (Phase owner) (Phase owner) AllSafe
      (compactCommit cfg bid img) := by
  -- the steps before the seal is complete
  have hstep : ∀ {P I : World → Prop} {r : Request}, (∀ w, P w → Phase owner w) →
      (∀ w, P w → w.nextFault = .none → I (w.mutate scratchSector r)) →
      Spec (History (SegmentWindowQuiet cfg)) P (storeMutate scratchSector r)
        (.exits I (Phase owner) AllSafe) := by
    intro P I r hp hok
    apply storeMutate_spec
    . intro w h hf _
      exact hok w h hf
    . intro w _ _ h _ _
      exact (hp w h).mutate _ _
    . intro w _ _ h _ _
      exact ((hp w h).mutate _ _).hist.safe
  have hbucket : bucketSector bid ≠ scratchSector := by
    unfold bucketSector firstBucket scratchSector
    omega
  unfold compactCommit
  split
  . exact fail_reads _
  . next hmax =>
    split
    . next ha =>
      unfold storeReplace
      rw [if_pos ha]
      exact phase_mutate _ _ _
    . apply Spec.seq (I := fun w => Phase owner w ∧ w.flash scratchSector = blank)
      . apply hstep fun _ h => h
        intro w h hf
        exact ⟨h.mutate _ _, mutate_whole hf⟩
      intro _
      apply Spec.seq (I := fun w => Phase owner w ∧ w.flash scratchSector = program blank 0 img)
      . apply hstep fun _ h => h.1
        intro w h hf
        exact ⟨h.1.mutate _ _, (mutate_whole hf).trans (by rw [h.2]; rfl)⟩
      intro _
      apply Spec.seq (I := Staged cfg owner)
      . apply hstep fun _ h => h.1
        intro w h hf
        refine ⟨h.1.mutate _ _, ?_⟩
        have hflash : (w.mutate scratchSector (.write cfg.scratchSealOff
            (padTo cfg.scratchSealLen (scratchSealBytes img)))).flash scratchSector =
            stagedScratch cfg img := (mutate_whole hf).trans (by rw [h.2]; rfl)
        rw [hflash, scratchSealValid_staged hmin (by omega) ?_]
        . simp
        . have h1 := hv.buf
          have h2 := cfg.sector_range
          unfold Cfg.scratchSealOff at hmax
          omega
      intro _
      apply Spec.seq (I := Staged cfg owner)
      . apply staged_step ho
        intro w h _
        exact ⟨h.phase.mutate _ _, by rw [mutate_other hbucket.symm]; exact h.sealed⟩
      intro _
      apply Spec.seq (I := Staged cfg owner)
      . apply staged_step ho
        intro w h _
        exact ⟨h.phase.mutate _ _, by rw [mutate_other hbucket.symm]; exact h.sealed⟩
      intro _
      apply staged_step ho
      intro w h _
      exact h.phase.mutate _ _

theorem phase_frame (hv : cfg.Valid) {owner : Nat} (ho : owner ≠ 0) :
    Frame cfg (SegmentWindowQuiet cfg) (Phase owner) (Phase owner) AllSafe where
  fails _ h := h
  lost _ h := h.hist.safe
  stable := fresh_stable
  stableFailed := fresh_stable
  bucket _ _ := phase_mutate _ _ _
  compact bid :=
    compactBucket_keeps fresh_stable fresh_stable (fun _ h => h) bid
      fun img hmin => compactCommit_phase hv ho bid img hmin

/-! Operations -/

abbrev Session : World → Prop := Fresh fun m _ => m = true

theorem phase_session {owner : Nat} {w : World} (h : Phase owner w) : Session w :=
  h.imp fun _ _ hp => hp.1

section

variable (hv : cfg.Valid)

theorem persistSegOwner_phase (owner : Nat) :
    Spec (History (SegmentWindowQuiet cfg)) Session (persistSegOwner cfg owner)
      (.exits (Phase owner) Session AllSafe) := by
  unfold persistSegOwner
  apply getSt_bind
  intro st
  split
  . next hs =>
    apply Spec.ret
    intro w h
    refine ⟨h.2.hist, h.2.unwedged, h.2.session, ?_⟩
    rw [h.1]
    exact hs
  . refine modifySt_bind (I := Phase owner) ?_ ?_
    . exact fun w h => ⟨⟨h.2.hist.safe, h.2.hist.active⟩, h.2.unwedged, h.2.session, rfl⟩
    . intro _
      apply (masterCommitHow_neutral fresh_neutral false).caught
      . intro _
        exact Spec.ret fun _ h => h
      . intro e
        refine modifySt_bind (I := Session) ?_ ?_
        . exact fun w h => ⟨⟨h.hist.safe, h.hist.active⟩, h.unwedged, h.session.1⟩
        . intro _
          exact Spec.fail fun _ h => h
      . exact fun _ h => h

-- The last step of every segmented operation.
theorem persistSegOwner_done :
    Keeps (SegmentWindowQuiet cfg) Session Session AllSafe (persistSegOwner cfg 0) :=
  (persistSegOwner_phase 0).conseq (fun _ h => h) (fun _ _ h => phase_session h) (fun _ _ h => h)
    fun _ h => h

theorem session_keeps {α : Type} {x : M α} {P Q : World → Prop}
    (hx : Spec (History (SegmentWindowQuiet cfg)) P x (.exits Q Session AllSafe)) :
    Spec (History (SegmentWindowQuiet cfg)) P x (.exits Q Hist AllSafe) :=
  hx.conseq (fun _ h => h) (fun _ _ h => h) (fun _ _ h => h.hist) fun _ h => h

theorem phase_keeps {α : Type} {x : M α} {owner : Nat}
    (hx : Keeps (SegmentWindowQuiet cfg) (Phase owner) (Phase owner) AllSafe x) :
    Spec (History (SegmentWindowQuiet cfg)) (Phase owner) x
      (.exits (Phase owner) Session AllSafe) :=
  hx.conseq (fun _ h => h) (fun _ _ h => h) (fun _ _ h => phase_session h) fun _ h => h

include hv

theorem segSweep_session {owner : Nat} (ho : owner ≠ 0) :
    Spec (History (SegmentWindowQuiet cfg)) (Phase owner) (segSweep cfg owner)
      (.exits Session Session AllSafe) := by
  unfold segSweep
  apply (phase_keeps (segSweepListed_reads (phase_frame hv ho) owner)).seq
  intro ids
  apply (phase_keeps (segSweepFrom_keeps (phase_frame hv ho) _ _ _ _)).seq
  intro _
  exact persistSegOwner_done.pre fun _ h => phase_session h

theorem segFinishPending_session :
    Keeps (SegmentWindowQuiet cfg) Session Session AllSafe (segFinishPending cfg) := by
  unfold segFinishPending
  apply getSt_bind
  intro st
  split
  . exact Spec.ret fun _ h => h.2
  . next hs =>
    apply (segSweep_session hv hs).pre
    intro w h
    refine ⟨h.2.hist, h.2.unwedged, h.2.session, ?_⟩
    rw [h.1]

theorem release_session {id : Nat} (hid : id ≠ 0) (ids : List Nat) :
    Spec (History (SegmentWindowQuiet cfg)) (Phase id)
      (segRelease cfg ids >>= fun _ => persistSegOwner cfg 0)
      (.exits Session Session AllSafe) := by
  apply (phase_keeps (segRelease_keeps (phase_frame hv hid) ids)).seq
  intro _
  exact persistSegOwner_done.pre fun _ h => phase_session h

theorem segUpdate_session {id : Nat} (hid : id ≠ 0) (payload : List UInt8) (oldIds : List Nat) :
    Keeps (SegmentWindowQuiet cfg) Session Session AllSafe (segUpdate cfg id payload oldIds) := by
  have halloc : Keeps (SegmentWindowQuiet cfg) (Fresh fun m o => m = true ∧ o = id)
      (Fresh fun m o => m = true ∧ o = id) AllSafe (allocIdImpl cfg) :=
    allocIdImpl_neutral fresh_neutral
  unfold segUpdate
  apply (read_reads _).seq
  intro st
  simp only
  split
  . exact fail_reads _
  . split
    . exact fail_reads _
    . apply (persistSegOwner_phase id).seq
      intro _
      apply (phase_keeps (segUpdateChunks_keeps (phase_frame hv hid) halloc _ _ _ _ _)).seq
      intro ids
      apply (phase_keeps (indexCommit_keeps (phase_frame hv hid) _ _ _)).seq
      intro _
      exact release_session hv hid oldIds

theorem pwriteSegmented_session {id : Nat} (hid : id ≠ 0) (offset : Nat) (buf : List UInt8) :
    Keeps (SegmentWindowQuiet cfg) Session Session AllSafe
      (pwriteSegmented cfg id offset buf) := by
  have halloc : Keeps (SegmentWindowQuiet cfg) (Fresh fun m o => m = true ∧ o = id)
      (Fresh fun m o => m = true ∧ o = id) AllSafe (allocIdImpl cfg) :=
    allocIdImpl_neutral fresh_neutral
  unfold pwriteSegmented
  apply (indexLoadCached_reads fresh_stable id).seq
  intro loaded
  split
  . exact fail_reads _
  . apply (read_reads _).seq
    intro st
    simp only
    split
    . exact fail_reads _
    . split
      . exact fail_reads _
      . split
        . exact fail_reads _
        . apply (persistSegOwner_phase id).seq
          intro _
          apply (phase_keeps (pwriteChunks_keeps (phase_frame hv hid) halloc _ _ _ _ _ _ _ _)).seq
          intro newIds
          apply (phase_keeps (indexCommit_keeps (phase_frame hv hid) _ _ _)).seq
          intro _
          exact release_session hv hid _

-- Before an append that supersedes an index record the owner is on record.
abbrev Outgoing (id : Nat) (oldIds : List Nat) : World → Prop :=
  Fresh fun m o => m = true ∧ (oldIds.isEmpty = false → o = id)

theorem releaseOutgoing_session {id : Nat} (hid : id ≠ 0) (oldIds : List Nat) :
    Spec (History (SegmentWindowQuiet cfg)) (Outgoing id oldIds)
      (Proc.when (!oldIds.isEmpty) (segRelease cfg oldIds >>= fun _ => persistSegOwner cfg 0))
      (.exits Session Session AllSafe) := by
  apply Spec.when
  . exact fun _ h => h.imp fun _ _ hp => hp.1
  . intro hne
    apply (release_session hv hid oldIds).pre
    intro w h
    exact h.imp fun _ _ hp => ⟨hp.1, hp.2 (by simpa using hne)⟩

theorem updateInline_session (bid : Nat) {id : Nat} (hid : id ≠ 0) (payload : List UInt8)
    (cursor : Nat) (oldIds : List Nat) :
    Keeps (SegmentWindowQuiet cfg) Session Hist AllSafe
      (updateInline cfg bid id payload cursor oldIds) := by
  unfold updateInline
  apply (updateRoom_keeps fresh_frame _ _ _ _).seq
  intro cursor
  apply Spec.seq (I := Outgoing id oldIds)
  . unfold Proc.when
    split
    . apply session_keeps
      apply (persistSegOwner_phase id).conseq
      . exact fun _ h => h
      . exact fun _ _ h => h.imp fun _ _ hp => ⟨hp.1, fun _ => hp.2⟩
      . exact fun _ _ h => h
      . exact fun _ h => h
    . next he =>
      apply Spec.ret
      intro w h
      apply h.imp
      intro m o hp
      refine ⟨hp, ?_⟩
      intro hf
      simp [hf] at he
  intro _
  apply (appendSlot_keeps fresh_frame _ _ _ _ _).seq
  intro _
  exact session_keeps (releaseOutgoing_session hv hid oldIds)

theorem updateImpl_session (id : Nat) (payload : List UInt8) :
    Keeps (SegmentWindowQuiet cfg) Session Hist AllSafe (updateImpl cfg id payload) := by
  have F : Frame cfg (SegmentWindowQuiet cfg) Session Hist AllSafe := fresh_frame
  unfold updateImpl
  apply (reads_keeps F (read_reads _)).seq
  intro st
  split
  . exact fail_keeps F _
  . split
    . exact fail_keeps F _
    . split
      . exact fail_keeps F _
      . next hid =>
        have hid : id ≠ 0 := fun h => hid (.inl h)
        split
        . exact fail_keeps F _
        . apply (session_keeps (when_reads (segFinishPending_session hv))).seq
          intro _
          apply (reads_keeps F (readBucketHdr_reads fresh_stable _)).seq
          intro formatted
          apply (updatePlace_keeps F _ _ _).seq
          intro place
          split
          . exact session_keeps (segUpdate_session hv hid _ _)
          . exact updateInline_session hv _ hid _ _ _

omit hv in
theorem deleteOutgoing_session (id : Nat) (flags : UInt8) :
    Spec (History (SegmentWindowQuiet cfg)) Session (deleteOutgoing cfg id flags)
      ⟨fun oldIds => Outgoing id oldIds, fun _ => Session, AllSafe⟩ := by
  have hnone : Spec (History (SegmentWindowQuiet cfg)) Session (pure [] : M (List Nat))
      ⟨fun oldIds => Outgoing id oldIds, fun _ => Session, AllSafe⟩ := by
    apply Spec.ret
    intro w h
    exact h.imp fun _ _ hp => ⟨hp, by simp⟩
  unfold deleteOutgoing
  split
  . apply (indexLoadCached_reads fresh_stable id).caught
    . intro loaded
      cases loaded with
      | none => exact hnone
      | some index =>
        apply (persistSegOwner_phase id).bind
        . intro _
          apply Spec.ret
          intro w h
          exact h.imp fun _ _ hp => ⟨hp.1, fun _ => hp.2⟩
        . exact fun _ _ h => h
        . exact fun _ h => h
    . intro e
      exact hnone
    . exact fun _ h => h
  . exact hnone

theorem deleteImpl_session (id : Nat) :
    Keeps (SegmentWindowQuiet cfg) Session Hist AllSafe (deleteImpl cfg id) := by
  have F : Frame cfg (SegmentWindowQuiet cfg) Session Hist AllSafe := fresh_frame
  unfold deleteImpl
  apply (reads_keeps F (read_reads _)).seq
  intro st
  split
  . exact fail_keeps F _
  . split
    . exact fail_keeps F _
    . split
      . exact fail_keeps F _
      . next hid =>
        apply (session_keeps (when_reads (segFinishPending_session hv))).seq
        intro _
        apply (reads_keeps F (readBucketHdr_reads fresh_stable _)).seq
        intro formatted
        split
        . exact fail_keeps F _
        . apply (reads_keeps F (findLiveSlot_reads fresh_stable _ _)).seq
          intro found
          split
          . exact fail_keeps F _
          . split
            . exact fail_keeps F _
            . apply (liveWithRoom_keeps F _ _ _ _).seq
              intro found
              apply (deleteOutgoing_session id _).bind
              . intro oldIds
                apply (appendSlot_keeps fresh_frame _ _ _ _ _).seq
                intro _
                exact session_keeps (releaseOutgoing_session hv hid oldIds)
              . exact fun _ _ h => h.hist
              . exact fun _ h => h

theorem writeImpl_session (id offset : Nat) (buf : List UInt8) :
    Keeps (SegmentWindowQuiet cfg) Session Hist AllSafe (writeImpl cfg id offset buf) := by
  have F : Frame cfg (SegmentWindowQuiet cfg) Session Hist AllSafe := fresh_frame
  unfold writeImpl
  apply (reads_keeps F (read_reads _)).seq
  intro st
  split
  . exact fail_keeps F _
  . split
    . exact fail_keeps F _
    . split
      . exact fail_keeps F _
      . next hid =>
        split
        . exact fail_keeps F _
        . apply (session_keeps (when_reads (segFinishPending_session hv))).seq
          intro _
          apply (reads_keeps F (readBucketHdr_reads fresh_stable _)).seq
          intro formatted
          split
          . exact fail_keeps F _
          . apply (reads_keeps F (findLiveSlot_reads fresh_stable _ _)).seq
            intro found
            split
            . exact fail_keeps F _
            . split
              . exact fail_keeps F _
              . split
                . exact ret_keeps _
                . split
                  . exact session_keeps (pwriteSegmented_session hv hid _ _)
                  . simp only
                    split
                    . exact fail_keeps F _
                    . apply (liveWithRoom_keeps F _ _ _ _).seq
                      intro found
                      exact appendSlot_keeps F _ _ _ _ _

end

/-! Mount and format -/

abbrev Unwedged : World → Prop := Fresh fun _ _ => True

theorem Fresh.ram {w : World} {st : St} (h : Unwedged w) (ha : st.activeMaster ≤ 1)
    (hw : st.wedged = w.st.wedged) : Unwedged { w with st := st } :=
  ⟨⟨h.hist.safe, ha⟩, hw.trans h.unwedged, trivial⟩

theorem masterFormat_unwedged : Keeps good Unwedged Hist AllSafe (masterFormat cfg) := by
  have F : Frame cfg good Unwedged Hist AllSafe := fresh_frame
  have hmaster : ∀ slot rotGen r, slot ≤ 1 →
      Keeps good Unwedged Hist AllSafe (masterWriteSector cfg slot rotGen r) :=
    fun slot rotGen r hs => reads_keeps F
      (masterWriteSector_neutral fresh_neutral slot rotGen r hs)
  unfold masterFormat
  refine modifySt_bind (I := Unwedged) (fun w h => h.ram h.hist.active rfl) ?_
  intro _
  apply (reads_keeps F (read_reads _)).seq
  intro st
  refine modifySt_bind (I := Unwedged) (fun w h => h.ram h.hist.active rfl) ?_
  intro _
  apply (hmaster _ _ _ (by decide)).seq
  intro _
  apply (hmaster _ _ _ (by decide)).seq
  intro _
  apply modifySt_spec
  intro w h
  exact h.ram (by simp [masterASector]) rfl

theorem formatMastersFresh_unwedged :
    Keeps good Unwedged Hist AllSafe (formatMastersFresh cfg) := by
  unfold formatMastersFresh
  apply (invalidateFrom_keeps fresh_frame _ _ _).seq
  intro _
  apply masterFormat_unwedged.seq
  intro _
  exact bindRootEmpty_keeps fresh_frame

theorem storeEraseAll_unwedged (n sector : Nat) :
    Keeps good Unwedged Hist AllSafe (storeEraseAll n sector) := by
  induction n generalizing sector with
  | zero => exact ret_keeps _
  | succ n ih =>
    unfold storeEraseAll
    apply (fresh_mutate _ _).seq
    intro _
    exact ih _

theorem formatWholeStore_unwedged :
    Spec (History good) Hist (formatWholeStore cfg) (.exits Unwedged Hist AllSafe) := by
  unfold formatWholeStore
  apply (idxInvalidate_reads hist_stable).seq
  intro _
  apply (sidx_reads hist_stable _).seq
  intro _
  refine modifySt_bind (I := Unwedged) (fun w h => ⟨⟨h.safe, h.active⟩, rfl, trivial⟩) ?_
  intro _
  apply (storeEraseAll_unwedged _ _).seq
  intro _
  apply masterFormat_unwedged.seq
  intro _
  exact bindRootEmpty_keeps fresh_frame

theorem recoverCompaction_unwedged :
    Keeps good Unwedged Hist AllSafe (recoverCompaction cfg) := by
  have hsealed : Reads good Unwedged AllSafe (scratchSealedBucket cfg) := by
    unfold scratchSealedBucket
    apply (storeRead_reads fresh_stable _ _ _).seq
    intro tail
    split
    . exact ret_reads _
    . apply (readSector_reads fresh_stable _).seq
      intro buf
      split
      . exact ret_reads _
      . simp only
        split <;> exact ret_reads _
  have F : Frame cfg good Unwedged Hist AllSafe := fresh_frame
  unfold recoverCompaction
  apply (reads_keeps F hsealed).seq
  intro found
  split
  . exact ret_keeps _
  . apply (fresh_mutate _ _).seq
    intro _
    apply (fresh_mutate _ _).seq
    intro _
    exact fresh_mutate _ _

theorem mountAdopted_unwedged (a b : MasterView) (p : Pick) (hp : p.active ≤ 1) :
    Keeps good Unwedged Hist AllSafe (mountAdopted cfg a b p) := by
  have F : Frame cfg good Unwedged Hist AllSafe := fresh_frame
  unfold mountAdopted adoptMaster
  simp only
  refine modifySt_bind (I := Unwedged) (fun w h => h.ram hp rfl) ?_
  intro _
  apply recoverCompaction_unwedged.seq
  intro _
  apply (reads_keeps F (read_reads _)).seq
  intro damage
  apply (reads_keeps F (when_reads (doubtScan_neutral fresh_neutral fresh_stable))).seq
  intro _
  apply (reads_keeps F (when_reads (finishUpgrade_neutral fresh_neutral _))).seq
  intro _
  exact reads_keeps F (endDoubt_neutral fresh_neutral _ _ _)

theorem mountViews_unwedged (a b : MasterView) :
    Keeps good Unwedged Hist AllSafe (mountViews cfg a b) := by
  have F : Frame cfg good Unwedged Hist AllSafe := fresh_frame
  have haccept : ∀ v, Keeps good Unwedged Hist AllSafe (acceptMaster cfg v) := by
    intro v
    unfold acceptMaster
    split
    . exact ret_keeps _
    . split
      . exact fail_keeps F _
      . apply modifySt_spec
        intro w h
        exact h.ram h.hist.active rfl
  unfold mountViews
  split
  . exact fail_keeps F _
  . refine modifySt_bind (I := Unwedged) (fun w h => h.ram h.hist.active rfl) ?_
    intro _
    apply (haccept a).seq
    intro _
    apply (haccept b).seq
    intro _
    split
    . exact fail_keeps F _
    . apply (masterPick_active (C := AllSafe) fresh_stable a b).bind
      . intro pick
        split
        . unfold mountUnusable
          split
          . exact formatMastersFresh_unwedged.pre fun _ h => h.1
          . split
            . exact formatWholeStore_unwedged.pre fun _ h => h.1.hist
            . exact Spec.fail fun _ h => h.1.hist
        . next p =>
          apply Spec.assuming (φ := p.active ≤ 1)
          . exact fun w h => h.2 p rfl
          . intro hp
            exact (mountAdopted_unwedged a b p hp).pre fun _ h => h.1
      . exact fun _ _ h => h.hist
      . exact fun _ h => h

theorem segGeometryInit_fresh {p : Bool → Nat → Prop} :
    Keeps good (Fresh p) Hist AllSafe (segGeometryInit cfg) := by
  unfold segGeometryInit
  have hof : ∀ r : Except Errno (Nat × Nat), Keeps good (Fresh p) Hist AllSafe (Proc.ofExcept r) :=
    fun r => Spec.ofExcept (fun _ h => h) fun _ h => h.hist
  apply (hof _).seq
  intro g
  apply modifySt_spec
  intro w h
  exact ⟨⟨h.hist.safe, h.hist.active⟩, h.unwedged, h.session⟩

theorem mountOpened_unwedged (hv : cfg.Valid) :
    Keeps (SegmentWindowQuiet cfg) Unwedged Hist AllSafe (mountOpened cfg) := by
  have F : Frame cfg (SegmentWindowQuiet cfg) Unwedged Hist AllSafe := fresh_frame
  have hclassify : ∀ slot,
      Keeps (SegmentWindowQuiet cfg) Unwedged Hist AllSafe (masterClassify slot) := by
    intro slot
    apply reads_keeps F
    unfold masterClassify
    apply (storeRead_reads fresh_stable _ _ _).seq
    intro buf
    exact ret_reads _
  have hsegments : Keeps (SegmentWindowQuiet cfg) Session Hist AllSafe (mountSegments cfg) := by
    unfold mountSegments
    apply segGeometryInit_fresh.seq
    intro _
    apply getSt_bind
    intro st
    apply Spec.when
    . exact fun _ h => h.2
    . intro hs
      apply session_keeps
      apply (segSweep_session hv (by simpa using hs)).pre
      intro w h
      refine ⟨h.2.hist, h.2.unwedged, h.2.session, ?_⟩
      rw [h.1]
  unfold mountOpened
  apply (hclassify _).seq
  intro a
  apply (hclassify _).seq
  intro b
  apply (mountViews_unwedged _ _).seq
  intro _
  apply (bindRootIfMissing_neutral fresh_neutral F).seq
  intro _
  refine modifySt_bind (I := Session) (fun w h => ⟨⟨h.hist.safe, h.hist.active⟩, h.unwedged, rfl⟩) ?_
  intro _
  apply Spec.when
  . exact fun _ h => h.imp fun _ _ _ => trivial
  . intro _
    exact hsegments.conseq (fun _ h => h) (fun _ _ h => h.imp fun _ _ _ => trivial)
      (fun _ _ h => h) fun _ h => h

/-! Runs -/

-- Between calls: a mounted store has passed the geometry checks.
structure WedgeInv (cfg : Cfg) (w : World) : Prop where
  hist : Hist w
  mounted : w.st.mounted = true → cfg.storeOpenAndValidate = .ok ()

theorem Hist.inv {w : World} (h : Hist w) (hv : cfg.storeOpenAndValidate = .ok ()) :
    WedgeInv cfg w := ⟨h, fun _ => hv⟩

theorem wedgeInv_stable : Stable (WedgeInv cfg) := by
  intro w w' q h
  exact ⟨hist_stable w w' q h.hist, fun hm => h.mounted (q.mounted ▸ hm)⟩

theorem mountImpl_inv :
    Keeps (SegmentWindowQuiet cfg) (WedgeInv cfg) (WedgeInv cfg) AllSafe (mountImpl cfg) := by
  unfold mountImpl
  apply (read_reads _).seq
  intro st
  split
  . exact fail_reads _
  . apply (idxInvalidate_reads wedgeInv_stable).seq
    intro _
    cases hv : cfg.storeOpenAndValidate with
    | error e =>
      refine modifySt_bind (I := WedgeInv cfg) ?_ ?_
      . exact fun w h => ⟨⟨h.hist.safe, h.hist.active⟩, h.mounted⟩
      . intro _
        apply Spec.bind (Q := .exits (fun _ => False) (WedgeInv cfg) AllSafe)
        . exact Spec.fail fun _ h => h
        . exact fun _ _ h => h.elim
        . exact fun _ _ h => h
        . exact fun _ h => h
    | ok u =>
      refine modifySt_bind (I := Unwedged) ?_ ?_
      . exact fun w h => ⟨⟨h.hist.safe, h.hist.active⟩, rfl, trivial⟩
      . intro _
        apply Spec.seq (I := Unwedged)
        . exact Spec.ret fun _ h => h
        . intro _
          apply (sidx_reads fresh_stable _).seq
          intro _
          apply (mountOpened_unwedged (Cfg.valid_of_validate hv)).caught
          . intro _
            exact Spec.ret fun _ h => h.hist.inv hv
          . intro e
            refine modifySt_bind (I := Hist) (fun w h => ⟨h.safe, h.active⟩) ?_
            intro _
            apply (sidx_reads hist_stable _).seq
            intro _
            exact Spec.fail fun _ h => h.inv hv
          . exact fun _ h => h

theorem formatImpl_inv :
    Keeps (SegmentWindowQuiet cfg) (WedgeInv cfg) (WedgeInv cfg) AllSafe (formatImpl cfg) := by
  unfold formatImpl
  apply getSt_bind
  intro st
  split
  . next hm =>
    apply Spec.assuming (φ := cfg.storeOpenAndValidate = .ok ())
    . exact fun w h => h.2.mounted (by rw [h.1]; exact hm)
    . intro hv
      exact formatWholeStore_unwedged.conseq (fun _ h => h.2.hist) (fun _ _ h => h.hist.inv hv)
        (fun _ _ h => h.inv hv) fun _ h => h
  . cases hv : cfg.storeOpenAndValidate with
    | error e =>
      apply Spec.bind (Q := .exits (fun _ => False) (WedgeInv cfg) AllSafe)
      . exact Spec.fail fun _ h => h.2
      . exact fun _ _ h => h.elim
      . exact fun _ _ h => h
      . exact fun _ h => h
    | ok u =>
      apply Spec.seq (I := Hist)
      . exact Spec.ret fun _ h => h.2.hist
      intro _
      refine Spec.conseq (show Keeps (SegmentWindowQuiet cfg) Hist Hist AllSafe _ from ?_)
        (fun _ h => h) (fun _ _ h => h.inv hv) (fun _ _ h => h.inv hv) fun _ h => h
      . apply formatWholeStore_unwedged.seq
        intro _
        refine modifySt_bind (I := Unwedged) (fun w h => h.ram h.hist.active rfl) ?_
        intro _
        apply Spec.when
        . exact fun _ h => h.hist
        . intro _
          apply segGeometryInit_fresh.caught
          . intro _
            exact Spec.ret fun _ h => h.hist
          . intro e
            refine modifySt_bind (I := Hist) (fun w h => ⟨h.safe, h.active⟩) ?_
            intro _
            exact Spec.fail fun _ h => h
          . exact fun _ h => h

-- A wedged store refuses the calls that would write to a bucket.
theorem Op.run_wedged {w : World} (hm : w.st.mounted = true) (hw : w.st.wedged = true) (op : Op)
    (hop : op = .eraseAll ∨ (∃ id p, op = .update id p) ∨ (∃ id o b, op = .write id o b) ∨
      (∃ id, op = .delete id) ∨ ∃ n, op = .maintain n) :
    op.run cfg w = (.err Errno.EIO, w) := by
  obtain rfl | ⟨id, p, rfl⟩ | ⟨id, o, b, rfl⟩ | ⟨id, rfl⟩ | ⟨n, rfl⟩ := hop
  . simp [Op.run, eraseAllImpl, Proc.bind_run, getSt, Proc.step, hm, hw]
  . simp [Op.run, updateImpl, Proc.bind_run, getSt, Proc.step, hm, hw]
  . simp [Op.run, writeImpl, Proc.bind_run, getSt, Proc.step, hm, hw]
  . simp [Op.run, deleteImpl, Proc.bind_run, getSt, Proc.step, hm, hw]
  . simp [Op.run, maintainImpl, Proc.bind_run, getSt, Proc.step, hm, hw]

theorem op_wedge_safe (op : Op) :
    Keeps (SegmentWindowQuiet cfg) (WedgeInv cfg) (WedgeInv cfg) AllSafe (op.run cfg) := by
  -- a call that writes to buckets starts in a session that is not wedged, or is refused
  have hwrites : ∀ op : Op, (op = .eraseAll ∨ (∃ id p, op = .update id p) ∨
      (∃ id o b, op = .write id o b) ∨ (∃ id, op = .delete id) ∨ ∃ n, op = .maintain n) →
      (cfg.Valid → Keeps (SegmentWindowQuiet cfg) Session Hist AllSafe (op.run cfg)) →
      Keeps (SegmentWindowQuiet cfg) (WedgeInv cfg) (WedgeInv cfg) AllSafe (op.run cfg) := by
    intro op hop hrun w h hh
    cases hm : w.st.mounted with
    | false =>
      have hne : op ≠ .mount ∧ op ≠ .format := by
        obtain rfl | ⟨id, p, rfl⟩ | ⟨id, o, b, rfl⟩ | ⟨id, rfl⟩ | ⟨n, rfl⟩ := hop <;> simp
      obtain ⟨hw, _⟩ := Op.run_unmounted cfg hm op hne.1 hne.2
      generalize op.run cfg w = r at hw
      obtain ⟨o, w'⟩ := r
      simp only at hw
      subst hw
      cases o with
      | ok v => exact h
      | err e => exact h
      | cut => exact h.hist.safe
    | true =>
      have hv := h.mounted hm
      cases hw : w.st.wedged with
      | true =>
        rw [Op.run_wedged hm hw op hop]
        exact h
      | false =>
        have := hrun (Cfg.valid_of_validate hv) w ⟨h.hist, hw, hm⟩ hh
        generalize op.run cfg w = r at this
        obtain ⟨o, w'⟩ := r
        cases o with
        | ok v => exact this.hist.inv hv
        | err e => exact this.inv hv
        | cut => exact this
  have hread : ∀ {α : Type} {x : M α} {f : α → Value},
      Reads (SegmentWindowQuiet cfg) (WedgeInv cfg) AllSafe x →
      Keeps (SegmentWindowQuiet cfg) (WedgeInv cfg) (WedgeInv cfg) AllSafe
        (x >>= fun a => pure (f a)) :=
    fun hx => hx.seq fun _ => ret_reads _
  cases op with
  | mount =>
    apply mountImpl_inv.seq
    intro _
    exact (maintReset_reads wedgeInv_stable).seq fun _ => ret_reads _
  | format =>
    apply formatImpl_inv.seq
    intro _
    exact (maintReset_reads wedgeInv_stable).seq fun _ => ret_reads _
  | unmount =>
    have hun : Keeps (SegmentWindowQuiet cfg) (WedgeInv cfg) (WedgeInv cfg) AllSafe
        (unmountImpl cfg) := by
      unfold unmountImpl
      apply (read_reads _).seq
      intro st
      split
      . exact ret_reads _
      . refine modifySt_bind (I := WedgeInv cfg) ?_ ?_
        . exact fun w h => ⟨⟨h.hist.safe, h.hist.active⟩, by simp⟩
        . intro _
          apply (idxInvalidate_reads wedgeInv_stable).seq
          intro _
          exact sidx_reads wedgeInv_stable _
    exact hun.seq fun _ => ret_reads _
  | allocId =>
    intro w h hh
    cases hm : w.st.mounted with
    | false =>
      obtain ⟨hw, _⟩ := Op.run_unmounted cfg hm .allocId (by simp) (by simp)
      generalize Op.run cfg .allocId w = r at hw
      obtain ⟨o, w'⟩ := r
      simp only at hw
      subst hw
      cases o with
      | ok v => exact h
      | err e => exact h
      | cut => exact h.hist.safe
    | true =>
      have hv := h.mounted hm
      have hrun : Keeps (SegmentWindowQuiet cfg) Hist Hist AllSafe (Op.run cfg .allocId) :=
        (allocIdImpl_neutral hist_neutral).seq fun _ => ret_reads _
      have := hrun w h.hist hh
      generalize Op.run cfg .allocId w = r at this
      obtain ⟨o, w'⟩ := r
      cases o with
      | ok v => exact this.inv hv
      | err e => exact this.inv hv
      | cut => exact this
  | eraseAll =>
    apply hwrites _ (.inl rfl)
    intro hv
    apply (eraseAllImpl_neutral fresh_neutral fresh_frame).seq
    intro _
    exact (maintReset_reads fresh_stable).seq fun _ => ret_keeps _
  | update id payload =>
    apply hwrites _ (.inr (.inl ⟨id, payload, rfl⟩))
    exact fun hv => (updateImpl_session hv id.toNat payload).seq fun _ => ret_keeps _
  | write id offset buf =>
    apply hwrites _ (.inr (.inr (.inl ⟨id, offset, buf, rfl⟩)))
    exact fun hv => (writeImpl_session hv id.toNat offset buf).seq fun _ => ret_keeps _
  | delete id =>
    apply hwrites _ (.inr (.inr (.inr (.inl ⟨id, rfl⟩))))
    exact fun hv => (deleteImpl_session hv id.toNat).seq fun _ => ret_keeps _
  | maintain budget =>
    apply hwrites _ (.inr (.inr (.inr (.inr ⟨budget, rfl⟩))))
    exact fun hv => (maintainImpl_keeps fresh_frame budget).seq fun _ => ret_keeps _
  | get id outSz => exact hread (readRc_reads (getImpl_reads wedgeInv_stable id.toNat outSz))
  | size id => exact hread (readRc_reads (sizeImpl_reads wedgeInv_stable id.toNat))
  | read id offset len =>
    exact hread (readRc_reads (readImpl_reads wedgeInv_stable id.toNat offset len))
  | «exists» id => exact hread (existsImpl_reads wedgeInv_stable id.toNat)

theorem wedged_store_writes_masters_only (flash : Flash) (cs : List Call)
    (h : ∀ e ∈ (runCalls cfg (World.fresh flash) cs).2.history, SegmentWindowQuiet cfg e) :
    ∀ e ∈ (runCalls cfg (World.fresh flash) cs).2.history, WedgeSafe e := by
  have hinit : WedgeInv cfg (World.fresh flash) :=
    ⟨⟨fun e he => (List.not_mem_nil he).elim, by simp [World.fresh, St.boot]⟩, by
      intro hm
      cases hm⟩
  refine (EachCall.inv ?_ hinit (eachCall_history h)).hist.safe
  intro w c hw hc
  have hq := callStep_of_spec cfg (op_wedge_safe c.op)
    (w := w) ⟨⟨hw.hist.safe, hw.hist.active⟩, hw.mounted⟩
    fun e he => hc e (by rw [callStep_history]; exact he)
  generalize callStep cfg w c = r at hq
  obtain ⟨o, w'⟩ := r
  cases o with
  | ok v => exact hq
  | err e => exact hq
  | cut =>
    obtain ⟨w'', hs, rfl⟩ := hq
    exact ⟨⟨hs, by simp [World.reboot, St.boot]⟩, by
      intro hm
      cases hm⟩

end

-- Two buckets, large payloads.
-- Bucket 0 is full, so the first segment of the last update compacts it; its erase fails.
def wedgedSegmentRun : List Call :=
  [{ op := .format }, { op := .allocId }, { op := .allocId },
    { op := .update 2 (List.replicate 64 7) }, { op := .update 2 (List.replicate 64 8) },
    { op := .update 2 (List.replicate 64 9) },
    { op := .update 3 (List.replicate 100 1), faults := [.none, .none, .none, .none,
      .error 0 false] }]

theorem wedged_segment_update_writes_bucket :
    ¬ ∀ e ∈ (runCalls largeDevice (World.fresh blankFlash) wedgedSegmentRun).2.history,
      WedgeSafe e := by
  decide +kernel

-- The same failure under an update of an inline payload, and a delete of the wedged store.
def wedgedInlineRun : List Call :=
  [{ op := .format }, { op := .allocId }, { op := .update 2 (List.replicate 64 7) },
    { op := .update 2 (List.replicate 64 8) },
    { op := .update 2 (List.replicate 64 9), faults := [.none, .none, .none, .error 0 false] },
    { op := .delete 2 }]

theorem wedged_inline_update_stops :
    (∀ e ∈ (runCalls smallDevice (World.fresh blankFlash) wedgedInlineRun).2.history,
      SegmentWindowQuiet smallDevice e) ∧
    ∀ e ∈ (runCalls smallDevice (World.fresh blankFlash) wedgedInlineRun).2.history,
      WedgeSafe e := by
  have h : ∀ e ∈ (runCalls smallDevice (World.fresh blankFlash) wedgedInlineRun).2.history,
      SegmentWindowQuiet smallDevice e := by decide +kernel
  exact ⟨h, wedged_store_writes_masters_only blankFlash wedgedInlineRun h⟩

end KeyValueDb.BlobDb
