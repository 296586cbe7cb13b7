import KeyValueDb.BlobDb.Keeps
import KeyValueDb.BlobDb.Mount

/-!
Assertions that master records do not matter to: they speak of the buckets, the scratch sector and
the session. Commits and allocations keep them, so an operation does.
-/

namespace KeyValueDb.BlobDb

-- A change of the master fields of the RAM state only.
structure St.SameSession (st st' : St) : Prop where
  mounted : st'.mounted = st.mounted
  wedged : st'.wedged = st.wedged
  segOwner : st'.segOwner = st.segOwner
  segLen : st'.segLen = st.segLen
  segMax : st'.segMax = st.segMax
  active : st'.activeMaster ≤ 1

structure Neutral (good : Event → Prop) (I C : World → Prop) : Prop where
  active : ∀ w, I w → w.st.activeMaster ≤ 1
  ram : ∀ w st', w.st.SameSession st' → I w → I { w with st := st' }
  note : ∀ w id, I w → I { w with history := .alloc id :: w.history }
  master : ∀ slot r, slot ≤ 1 → Keeps good I I C (storeMutate slot r)

section

variable {cfg : Cfg} {good : Event → Prop} {I C : World → Prop} (N : Neutral good I C)

include N

theorem modifySt_neutral {f : St → St}
    (hf : ∀ st : St, st.activeMaster ≤ 1 → st.SameSession (f st)) :
    Keeps good I I C (modifySt f) := by
  apply modifySt_spec
  intro w h
  exact N.ram w _ (hf w.st (N.active w h)) h

theorem modifySt_then {α : Type} {f : St → St} {g : Unit → M α}
    (hf : ∀ st : St, st.activeMaster ≤ 1 → st.SameSession (f st))
    (hg : ∀ a, Keeps good I I C (g a)) : Keeps good I I C (modifySt f >>= g) :=
  (modifySt_neutral N hf).seq hg

-- The active master is always one of the two.
theorem getSt_neutral {α : Type} {f : St → M α}
    (hf : ∀ st : St, st.activeMaster ≤ 1 → Keeps good I I C (f st)) :
    Keeps good I I C (getSt >>= f) := by
  apply getSt_bind
  intro st
  apply Spec.assuming (φ := st.activeMaster ≤ 1)
  . intro w h
    rw [← h.1]
    exact N.active w h.2
  . intro h
    exact (hf st h).pre fun _ h => h.2

theorem storeReplace_neutral (slot : Nat) (data : List UInt8) (hs : slot ≤ 1) :
    Keeps good I I C (storeReplace cfg slot data) := by
  unfold storeReplace
  split
  . exact N.master slot _ hs
  . apply (N.master slot _ hs).seq
    intro _
    exact N.master slot _ hs

theorem masterWriteSector_neutral (slot rotGen : Nat) (r : MasterRec) (hs : slot ≤ 1) :
    Keeps good I I C (masterWriteSector cfg slot rotGen r) := by
  unfold masterWriteSector
  apply (read_reads _).seq
  intro st
  exact storeReplace_neutral N slot _ hs

theorem masterRotate_neutral (r : MasterRec) : Keeps good I I C (masterRotate cfg r) := by
  unfold masterRotate
  apply getSt_neutral N
  intro st hst
  simp only
  split
  . exact fail_reads _
  . apply (masterWriteSector_neutral N _ _ _ (by omega)).seq
    intro _
    apply modifySt_neutral N
    intro _ _
    exact ⟨rfl, rfl, rfl, rfl, rfl, by simp⟩

theorem masterAppend_neutral (r : MasterRec) : Keeps good I I C (masterAppend cfg r) := by
  unfold masterAppend
  apply getSt_neutral N
  intro st hst
  apply attempt_reads (N.master _ _ hst)
  intro rc
  refine modifySt_then N (fun st h => ⟨rfl, rfl, rfl, rfl, rfl, h⟩) ?_
  intro _
  split
  . exact ret_reads _
  . refine modifySt_then N (fun st h => ⟨rfl, rfl, rfl, rfl, rfl, h⟩) ?_
    intro _
    exact fail_reads _

theorem masterCommitHow_neutral (forceRotate : Bool) :
    Keeps good I I C (masterCommitHow cfg forceRotate) := by
  unfold masterCommitHow
  apply (read_reads _).seq
  intro st
  simp only
  apply attempt_reads
  . split
    . exact masterRotate_neutral N _
    . exact masterAppend_neutral N _
  . intro rc
    refine modifySt_then N (fun st h => ⟨rfl, rfl, rfl, rfl, rfl, h⟩) ?_
    intro _
    split
    . exact modifySt_neutral N fun st h => ⟨rfl, rfl, rfl, rfl, rfl, h⟩
    . exact fail_reads _

theorem allocIdImpl_neutral : Keeps good I I C (allocIdImpl cfg) := by
  unfold allocIdImpl
  apply (read_reads _).seq
  intro st
  split
  . exact ret_reads _
  . apply attempt_reads
    . split
      . exact masterCommitHow_neutral N _
      . exact ret_reads _
    . intro rc
      split
      . exact ret_reads _
      . refine modifySt_then N (fun st h => ⟨rfl, rfl, rfl, rfl, rfl, h⟩) ?_
        intro _
        have hnote : Keeps good I I C (noteAlloc st.nextId) :=
          Spec.modify fun w h => N.note w _ h
        apply hnote.seq
        intro _
        exact ret_reads _

/-! The part of mount that follows the choice of a master sector -/

omit N in
theorem scanBucketIds_reads (S : Stable I) (bid n cursor maxId : Nat) :
    Reads good I C (scanBucketIds cfg bid n cursor maxId) := by
  induction n generalizing cursor maxId with
  | zero => exact ret_reads _
  | succ n ih =>
    unfold scanBucketIds
    split
    . exact ret_reads _
    . apply (storeRead_reads S _ _ _).seq
      intro raw
      simp only
      split
      . exact ret_reads _
      . apply (when_reads (sidx_reads S _)).seq
        intro _
        split
        . exact ret_reads _
        . apply (storeRead_reads S _ _ _).seq
          intro rawId
          apply (sidx_reads S _).seq
          intro _
          exact ih _ _

omit N in
theorem scanBuckets_reads (S : Stable I) (n bid maxId : Nat) :
    Reads good I C (scanBuckets cfg n bid maxId) := by
  induction n generalizing bid maxId with
  | zero => exact ret_reads _
  | succ n ih =>
    have hone : Reads good I C (scanBucket cfg bid maxId) := by
      unfold scanBucket
      apply (storeRead_reads S _ _ _).seq
      intro hdr
      split
      . exact ret_reads _
      . apply (sidx_reads S _).seq
        intro _
        exact scanBucketIds_reads S _ _ _ _
    unfold scanBuckets
    apply hone.seq
    intro maxId
    exact ih _ _

theorem doubtScan_neutral (S : Stable I) : Keeps good I I C (doubtScan cfg) := by
  unfold doubtScan
  apply (read_reads _).seq
  intro st
  apply (scanBuckets_reads S _ _ _).seq
  intro maxId
  apply modifySt_neutral N
  intro st h
  split <;> exact ⟨rfl, rfl, rfl, rfl, rfl, h⟩

theorem finishUpgrade_neutral (active : MasterHdr) :
    Keeps good I I C (finishUpgrade cfg active) := by
  unfold finishUpgrade
  apply (masterCommitHow_neutral N true).seq
  intro _
  apply (read_reads _).seq
  intro st
  exact when_reads (masterCommitHow_neutral N true)

theorem endDoubt_neutral (scanIds endByRotation rotated : Bool) :
    Keeps good I I C (endDoubt cfg scanIds endByRotation rotated) := by
  unfold endDoubt
  split
  . split
    . exact masterCommitHow_neutral N true
    . exact masterCommitHow_neutral N false
  . exact ret_reads _

omit N in
theorem rootIsLive_reads (S : Stable I) (rootBid : Nat) :
    Reads good I C (rootIsLive cfg rootBid) := by
  unfold rootIsLive
  apply (readBucketHdr_reads S _).seq
  intro formatted
  split
  . exact ret_reads _
  . apply (findLiveSlot_reads S _ _).seq
    intro found
    exact ret_reads _

omit N in
-- Whatever sector is picked, it is one of the two.
theorem masterPick_active (S : Stable I) (a b : MasterView) :
    Spec (History good) I (masterPick cfg a b)
      ⟨fun r w => I w ∧ ∀ p, r = some p → p.active ≤ 1, fun _ => I, C⟩ := by
  unfold masterPick
  split
  . apply Spec.ret
    intro w h
    exact ⟨h, by simp⟩
  . extract_lets hi hiView loView
    have hhi : hi ≤ 1 := by
      simp only [hi]
      split
      . split <;> omega
      . split <;> omega
    apply (masterLogLoad_reads S _ _).bind
    . intro log
      split
      . apply Spec.ret
        intro w h
        refine ⟨h, ?_⟩
        rintro p ⟨⟩
        exact hhi
      . split
        . apply (masterLogLoad_reads S _ _).bind
          . intro log
            split
            . apply Spec.ret
              intro w h
              refine ⟨h, ?_⟩
              rintro p ⟨⟩
              show 1 - hi ≤ 1
              omega
            . exact Spec.ret fun w h => ⟨h, by simp⟩
          . exact fun _ _ h => h
          . exact fun _ h => h
        . exact Spec.ret fun w h => ⟨h, by simp⟩
    . exact fun _ _ h => h
    . exact fun _ h => h

theorem eraseAllImpl_neutral {E : World → Prop} (F : Frame cfg good I E C) :
    Keeps good I E C (eraseAllImpl cfg) := by
  unfold eraseAllImpl
  apply (reads_keeps F (read_reads _)).seq
  intro st
  split
  . exact fail_keeps F _
  . split
    . exact fail_keeps F _
    . apply (idxInvalidate_reads F.stable).seq
      intro _
      apply (sidx_reads F.stable _).seq
      intro _
      apply (invalidateFrom_keeps F _ _ _).seq
      intro _
      apply (bindRootEmpty_keeps F).seq
      intro _
      apply reads_keeps F
      refine modifySt_then N (fun st h => ⟨rfl, rfl, rfl, rfl, rfl, h⟩) ?_
      intro _
      apply attempt_reads (masterCommitHow_neutral N false)
      intro rc
      split
      . exact ret_reads _
      . refine modifySt_then N (fun st h => ⟨rfl, rfl, rfl, rfl, rfl, h⟩) ?_
        intro _
        exact fail_reads _

theorem bindRootIfMissing_neutral {E : World → Prop} (F : Frame cfg good I E C) :
    Keeps good I E C (bindRootIfMissing cfg) := by
  unfold bindRootIfMissing
  apply (reads_keeps F (rootIsLive_reads F.stable _)).seq
  intro live
  split
  . exact ret_keeps _
  . apply Spec.seq (I := I)
    . apply reads_keeps F
      apply modifySt_neutral N
      intro st h
      split <;> exact ⟨rfl, rfl, rfl, rfl, rfl, h⟩
    . intro _
      apply (reads_keeps F (read_reads _)).seq
      intro st
      apply (reads_keeps F (when_reads (masterCommitHow_neutral N false))).seq
      intro _
      exact bindRootEmpty_keeps F

end

end KeyValueDb.BlobDb
