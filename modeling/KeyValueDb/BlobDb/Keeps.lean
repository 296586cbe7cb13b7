import KeyValueDb.BlobDb.Frame

/-!
What the operations keep, for every frame.
-/

namespace KeyValueDb.BlobDb

abbrev Keeps (good : Event → Prop) (I E C : World → Prop) {α : Type} (x : M α) : Prop :=
  Spec (History good) I x (.exits I E C)

-- `I` holds while a call runs and where it returns, `E` where it fails, `C` where power is lost.
structure Frame (cfg : Cfg) (good : Event → Prop) (I E C : World → Prop) : Prop where
  fails : ∀ w, I w → E w
  lost : ∀ w, I w → C w
  stable : Stable I
  stableFailed : Stable E
  bucket : ∀ bid r, Keeps good I E C (storeMutate (bucketSector bid) r)
  compact : ∀ bid, Keeps good I E C (compactBucket cfg bid)

/-! Operations that stop at the first error -/

section

variable {cfg : Cfg} {good : Event → Prop} {I E C : World → Prop}

theorem ret_keeps {α : Type} (a : α) : Keeps good I E C (pure a : M α) := Spec.ret fun _ h => h

theorem compactFrom_length (n : Nat) (buf : Sector) (newCursor cursor : Nat) :
    newCursor ≤ (compactFrom cfg n buf newCursor cursor).2.1 := by
  induction n generalizing buf newCursor cursor with
  | zero => exact Nat.le_refl _
  | succ n ih =>
    unfold compactFrom
    split
    . exact Nat.le_refl _
    . next sv intact _ =>
      split
      . exact Nat.le_trans (Nat.le_add_right _ _) (ih _ _ _)
      . exact ih _ _ _

-- A compaction keeps what committing its image keeps.
theorem compactBucket_keeps (S : Stable I) (SE : Stable E) (fails : ∀ w, I w → E w) (bid : Nat)
    (hcommit : ∀ image, bucketDataOff ≤ image.length →
      Keeps good I E C (compactCommit cfg bid image)) :
    Keeps good I E C (compactBucket cfg bid) := by
  have lift : ∀ {α : Type} {x : M α}, Reads good I C x → Keeps good I E C x :=
    fun hx => hx.conseq (fun _ h => h) (fun _ _ h => h) (fun _ w h => fails w h) fun _ h => h
  unfold compactBucket
  apply (lift (readSector_reads S _)).seq
  intro buf
  split
  . exact Spec.fail fails
  . have hdrop : ∀ r : Except Errno Unit, Keeps good I E C (Proc.ofExcept r) :=
      fun r => Spec.ofExcept (fun _ h => h) fails
    apply (hdrop _).seq
    intro _
    apply (hcommit _ ?_).caught
    . intro _
      apply (lift (sidx_reads S _)).seq
      intro _
      apply (lift (noteImage_reads S _ _ _ _ _)).seq
      intro off
      exact lift (when_reads (sidx_reads S _))
    . intro e
      have hs : Reads good E C (sidxForget cfg bid) := sidx_reads SE _
      apply hs.seq
      intro _
      exact Spec.fail fun _ h => h
    . exact fun _ h => h
    . rw [bytesAt_length]
      exact compactFrom_length _ _ _ _

variable (F : Frame cfg good I E C)

include F

theorem fail_keeps {α : Type} (e : Errno) : Keeps good I E C (Proc.fail e : M α) :=
  Spec.fail F.fails

theorem reads_keeps {α : Type} {x : M α} (hx : Reads good I C x) : Keeps good I E C x :=
  hx.conseq (fun _ h => h) (fun _ _ h => h) (fun _ w h => F.fails w h) fun _ h => h

theorem storeReplace_keeps (bid : Nat) (data : List UInt8) :
    Keeps good I E C (storeReplace cfg (bucketSector bid) data) := by
  unfold storeReplace
  split
  . exact F.bucket bid _
  . apply (F.bucket bid _).seq
    intro _
    exact F.bucket bid _

-- A failed write is followed by a change to the slot index only.
theorem sidx_then_fail {α : Type} (f : SlotIndex → SlotIndex) (e : Errno) :
    Spec (History good) E (modifySidx cfg f >>= fun _ => (Proc.fail e : M α)) (.exits I E C) := by
  have hs : Reads good E C (modifySidx cfg f) := sidx_reads F.stableFailed f
  apply hs.seq
  intro _
  exact Spec.fail fun _ h => h

theorem formatBucket_keeps (bid : Nat) : Keeps good I E C (formatBucket cfg bid) := by
  unfold formatBucket
  apply (storeReplace_keeps F bid _).caught
  . intro _
    exact reads_keeps F (sidx_reads F.stable _)
  . intro e
    exact sidx_then_fail F _ e
  . exact fun _ h => h

theorem openCursor_keeps (formatted : Bool) (bid id : Nat) :
    Keeps good I E C (openCursor cfg formatted bid id) := by
  unfold openCursor
  split
  . apply (formatBucket_keeps F bid).seq
    intro _
    exact ret_keeps _
  . exact reads_keeps F (walkCursor_reads F.stable _ _)

theorem appendSlot2_keeps (bid writeCursor id : Nat) (extraFlags : UInt8)
    (hdr payload : List UInt8) :
    Keeps good I E C (appendSlot2 cfg bid writeCursor id extraFlags hdr payload) := by
  unfold appendSlot2
  simp only
  split
  . exact fail_keeps F _
  . split
    . exact fail_keeps F _
    . apply (reads_keeps F (idxInvalidate_reads F.stable)).seq
      intro _
      apply (F.bucket bid _).caught
      . intro _
        exact reads_keeps F (sidx_reads F.stable _)
      . intro e
        exact sidx_then_fail F _ e
      . exact fun _ h => h

theorem appendSlot_keeps (bid writeCursor id : Nat) (extraFlags : UInt8) (payload : List UInt8) :
    Keeps good I E C (appendSlot cfg bid writeCursor id extraFlags payload) :=
  appendSlot2_keeps F _ _ _ _ _ _

theorem indexRoom_keeps (bid id ssz cursor : Nat) :
    Keeps good I E C (indexRoom cfg bid id ssz cursor) := by
  unfold indexRoom
  split
  . apply (F.compact bid).seq
    intro _
    apply (reads_keeps F (walkCursor_reads F.stable _ _)).seq
    intro cursor
    split
    . exact fail_keeps F _
    . exact ret_keeps _
  . exact ret_keeps _

theorem indexCommit_keeps (id : Nat) (h : IndexHdr) (ids : List Nat) :
    Keeps good I E C (indexCommit cfg id h ids) := by
  unfold indexCommit
  apply (reads_keeps F (readBucketHdr_reads F.stable _)).seq
  intro formatted
  apply (openCursor_keeps F _ _ _).seq
  intro cursor
  apply (indexRoom_keeps F _ _ _ _).seq
  intro cursor
  exact appendSlot2_keeps F _ _ _ _ _ _

omit F in
theorem updateCursor_reads (S : Stable I) (bid id : Nat) :
    Reads good I C (updateCursor cfg bid id) := by
  unfold updateCursor
  split
  . apply (findLiveSlot_reads S _ _).seq
    intro found
    extract_lets flags
    split
    . exact fail_reads _
    . apply (confirmCursor_reads S _ _ _).seq
      intro sc
      split
      . apply attempt_reads (indexLoadCached_reads S id)
        intro loaded
        split <;> exact ret_reads _
      . exact ret_reads _
  . apply (bucketCursor_reads S _ _).seq
    intro sc
    apply (confirmCursor_reads S _ _ _).seq
    intro sc
    exact ret_reads _

theorem updatePlace_keeps (formatted : Bool) (bid id : Nat) :
    Keeps good I E C (updatePlace cfg formatted bid id) := by
  unfold updatePlace
  split
  . apply (formatBucket_keeps F bid).seq
    intro _
    exact ret_keeps _
  . exact reads_keeps F (updateCursor_reads F.stable _ _)

theorem updateRoom_keeps (bid id ssz cursor : Nat) :
    Keeps good I E C (updateRoom cfg bid id ssz cursor) := by
  unfold updateRoom
  split
  . apply (F.compact bid).seq
    intro _
    apply (reads_keeps F (bucketCursor_reads F.stable _ _)).seq
    intro sc
    apply (reads_keeps F (confirmCursor_reads F.stable _ _ _)).seq
    intro sc
    split
    . exact fail_keeps F _
    . exact ret_keeps _
  . exact ret_keeps _

theorem liveWithRoom_keeps (bid id ssz : Nat) (found : Found) :
    Keeps good I E C (liveWithRoom cfg bid id ssz found) := by
  unfold liveWithRoom
  apply (reads_keeps F (confirmCursor_reads F.stable _ _ _)).seq
  intro sc
  split
  . apply (F.compact bid).seq
    intro _
    apply (reads_keeps F (findLiveSlot_reads F.stable _ _)).seq
    intro found
    split
    . exact fail_keeps F _
    . apply (reads_keeps F (confirmCursor_reads F.stable _ _ _)).seq
      intro sc
      split
      . exact fail_keeps F _
      . exact ret_keeps _
  . exact ret_keeps _

theorem bindRootEmpty_keeps : Keeps good I E C (bindRootEmpty cfg) := by
  unfold bindRootEmpty
  apply (formatBucket_keeps F _).seq
  intro _
  exact appendSlot_keeps F _ _ _ _ _

theorem invalidateOne_keeps (bid : Nat) : Keeps good I E C (invalidateOne cfg bid) := by
  unfold invalidateOne
  apply (reads_keeps F (storeRead_reads F.stable _ _ _)).seq
  intro peek
  simp only
  split
  . exact ret_keeps _
  . split
    . exact storeReplace_keeps F bid _
    . exact F.bucket bid _

theorem invalidateFrom_keeps (skip : Option Nat) (n bid : Nat) :
    Keeps good I E C (invalidateFrom cfg skip n bid) := by
  induction n generalizing bid with
  | zero => exact ret_keeps _
  | succ n ih =>
    unfold invalidateFrom
    have h1 : Keeps good I E C (Proc.when (skip != some bid) (invalidateOne cfg bid)) :=
      Spec.when (fun _ h => h) fun _ => invalidateOne_keeps F bid
    apply h1.seq
    intro _
    exact ih _

theorem preformatStep_keeps (format : Bool) (n : Nat) :
    Keeps good I E C (preformatStep cfg format n) := by
  have hscanned : Keeps good I E C
      (modifySt fun st => { st with maintScanned := st.maintScanned + 1 }) :=
    reads_keeps F (cache_reads F.stable fun _ => rfl)
  induction n with
  | zero => exact ret_keeps _
  | succ n ih =>
    unfold preformatStep
    apply (reads_keeps F (read_reads _)).seq
    intro st
    simp only
    split
    . exact ret_keeps _
    . split
      . exact hscanned.seq fun _ => ih
      . apply (reads_keeps F (storeRead_reads F.stable _ _ _)).seq
        intro peek
        split
        . exact hscanned.seq fun _ => ih
        . split
          . exact ret_keeps _
          . apply (formatBucket_keeps F _).seq
            intro _
            exact hscanned.seq fun _ => ret_keeps _

theorem preformatSteps_keeps (budget n performed : Nat) :
    Keeps good I E C (preformatSteps cfg budget n performed) := by
  induction n generalizing performed with
  | zero => exact ret_keeps _
  | succ n ih =>
    unfold preformatSteps
    apply (preformatStep_keeps F _ _).seq
    intro formatted
    split
    . exact ih _
    . exact ret_keeps _

theorem maintainImpl_keeps (budget : Nat) : Keeps good I E C (maintainImpl cfg budget) := by
  unfold maintainImpl
  apply (reads_keeps F (read_reads _)).seq
  intro st
  split
  . exact fail_keeps F _
  . split
    . exact fail_keeps F _
    . split
      . apply (preformatSteps_keeps F _ _ _).seq
        intro performed
        apply (reads_keeps F (read_reads _)).seq
        intro st
        exact ret_keeps _
      . exact ret_keeps _

end

/-! Segment work goes on after a failed step -/

section

variable {cfg : Cfg} {good : Event → Prop} {I C : World → Prop}

variable (F : Frame cfg good I I C) (alloc : Keeps good I I C (allocIdImpl cfg))

omit F alloc in
theorem pwriteChunkBytes_reads (S : Stable I) (id : Nat) (h : IndexHdr) (ids : List Nat)
    (offset : Nat) (buf : List UInt8) (cstart cend : Nat) :
    Reads good I C (pwriteChunkBytes cfg id h ids offset buf cstart cend) := by
  unfold pwriteChunkBytes
  simp only
  split
  . exact ret_reads _
  . apply (oldBytes_reads S _ _ _ _ _ _).seq
    intro old
    split <;> exact ret_reads _

omit F alloc in
theorem segOrphan_not_listed {owner sid : Nat} {ids : List Nat} {found : Except Errno Found}
    (h : segOrphan owner ids sid found = true) : sid ∉ ids := by
  unfold segOrphan at h
  split at h
  . cases h
  . split at h
    . cases h
    . intro hmem
      simp [hmem] at h

-- A sweep does what the releases do that it makes: of ids that the owner's index does not list.
omit F alloc in
theorem segSweepBucket_of_release (S : Stable I) (lost : ∀ w, I w → C w) {ids : List Nat}
    (hrel : ∀ sid, sid < 2 ^ 64 → sid ∉ ids → Keeps good I I C (segReleaseOne cfg sid))
    (owner bid n cursor : Nat) : Keeps good I I C (segSweepBucket cfg owner ids bid n cursor) := by
  induction n generalizing cursor with
  | zero => exact Spec.cut lost
  | succ n ih =>
    unfold segSweepBucket
    split
    . exact ret_reads _
    . apply attempt_reads (storeRead_reads S _ _ _)
      intro raw
      split
      . exact ret_reads _
      . next raw =>
        have hid : (slotHdrAt (image raw) 0).id < 2 ^ 64 := leAt_lt _ _ 8
        generalize slotHdrAt (image raw) 0 = h at hid
        simp only
        split
        . exact ret_reads _
        . split
          . exact ret_reads _
          . split
            . exact ih _
            . apply attempt_reads (findLiveSlot_reads S _ _)
              intro found
              split
              . next ho =>
                apply attempt_reads (hrel _ hid (segOrphan_not_listed ho))
                intro rc
                split
                . exact ih _
                . exact ih _
                . exact ih _
                . exact ret_reads _
              . exact ih _

omit F alloc in
theorem segSweepFrom_of_release (S : Stable I) (lost : ∀ w, I w → C w) {ids : List Nat}
    (hrel : ∀ sid, sid < 2 ^ 64 → sid ∉ ids → Keeps good I I C (segReleaseOne cfg sid))
    (owner n bid : Nat) : Keeps good I I C (segSweepFrom cfg owner ids n bid) := by
  induction n generalizing bid with
  | zero => exact ret_reads _
  | succ n ih =>
    have hone : Keeps good I I C (segSweepOne cfg owner ids bid) := by
      unfold segSweepOne
      apply attempt_reads (readBucketHdr_reads S bid)
      intro formatted
      split
      . apply (read_reads _).seq
        intro patience
        exact segSweepBucket_of_release S lost hrel _ _ _ _
      . exact ret_reads _
    unfold segSweepFrom
    apply hone.seq
    intro _
    exact ih _

include F

theorem segReleaseOne_keeps (sid : Nat) : Keeps good I I C (segReleaseOne cfg sid) := by
  unfold segReleaseOne
  apply (readBucketHdr_reads F.stable _).seq
  intro formatted
  split
  . exact fail_reads _
  . apply (walkCursor_reads F.stable _ _).seq
    intro cursor
    split
    . apply (F.compact _).seq
      intro _
      apply (walkCursor_reads F.stable _ _).seq
      intro cursor
      split
      . exact fail_reads _
      . apply (appendSlot2_keeps F _ _ _ _ _ _).seq
        intro _
        exact ret_reads _
    . apply (appendSlot2_keeps F _ _ _ _ _ _).seq
      intro _
      exact ret_reads _

theorem segRelease_keeps (ids : List Nat) : Keeps good I I C (segRelease cfg ids) := by
  induction ids with
  | nil => exact ret_reads _
  | cons sid rest ih =>
    unfold segRelease
    apply attempt_reads (segReleaseOne_keeps F sid)
    intro _
    exact ih

theorem segSweepBucket_keeps (owner : Nat) (ids : List Nat) (bid n cursor : Nat) :
    Keeps good I I C (segSweepBucket cfg owner ids bid n cursor) :=
  segSweepBucket_of_release F.stable F.lost (fun sid _ _ => segReleaseOne_keeps F sid) _ _ _ _

theorem segSweepFrom_keeps (owner : Nat) (ids : List Nat) (n bid : Nat) :
    Keeps good I I C (segSweepFrom cfg owner ids n bid) :=
  segSweepFrom_of_release F.stable F.lost (fun sid _ _ => segReleaseOne_keeps F sid) _ _ _

theorem segSweepListed_reads (owner : Nat) : Reads good I C (segSweepListed cfg owner) := by
  unfold segSweepListed
  apply attempt_reads (indexLoadCached_reads F.stable owner)
  intro loaded
  split <;> exact ret_reads _

theorem segPlace_keeps (bid sid ssz : Nat) : Keeps good I I C (segPlace cfg bid sid ssz) := by
  unfold segPlace
  apply (readBucketHdr_reads F.stable _).seq
  intro formatted
  apply (openCursor_keeps F _ _ _).seq
  intro cursor
  split
  . apply attempt_reads (F.compact bid)
    intro rc
    split
    . apply (walkCursor_reads F.stable _ _).seq
      intro cursor
      exact ret_reads _
    . exact ret_reads _
  . exact ret_reads _

include alloc

theorem segWriteChunk_keeps (owner seq : Nat) (chunk : List UInt8) :
    Keeps good I I C (segWriteChunk cfg owner seq chunk) := by
  unfold segWriteChunk
  generalize segPlacementTries = n
  induction n with
  | zero => exact fail_reads _
  | succ n ih =>
    unfold segWriteChunkTries
    apply alloc.seq
    intro sid
    split
    . exact fail_reads _
    . apply (segPlace_keeps F _ _ _).seq
      intro place
      split
      . exact ih
      . apply (appendSlot2_keeps F _ _ _ _ _ _).seq
        intro _
        exact ret_reads _

theorem segUpdateChunks_keeps (id segLen n j : Nat) (payload : List UInt8) :
    Keeps good I I C (segUpdateChunks cfg id segLen n j payload) := by
  induction n generalizing j payload with
  | zero => exact ret_reads _
  | succ n ih =>
    unfold segUpdateChunks
    apply (segWriteChunk_keeps F alloc _ _ _).seq
    intro sid
    apply (ih _ _).seq
    intro rest
    exact ret_reads _

theorem pwriteChunks_keeps (id : Nat) (h : IndexHdr) (ids : List Nat) (offset : Nat)
    (buf : List UInt8) (newTotal n j : Nat) :
    Keeps good I I C (pwriteChunks cfg id h ids offset buf newTotal n j) := by
  have hchunk : ∀ j, Keeps good I I C (pwriteChunk cfg id h ids offset buf newTotal j) := by
    intro j
    unfold pwriteChunk
    simp only
    split
    . apply (pwriteChunkBytes_reads F.stable _ _ _ _ _ _ _).seq
      intro chunk
      exact segWriteChunk_keeps F alloc _ _ _
    . exact ret_reads _
  induction n generalizing j with
  | zero => exact ret_reads _
  | succ n ih =>
    unfold pwriteChunks
    apply (hchunk j).seq
    intro sid
    apply (ih _).seq
    intro rest
    exact ret_reads _

end

/-! Whole operations, for frames that master records keep too -/

-- One assertion for every call on a mounted store, whatever becomes of it. The segment owner is set
-- to an id, or back to what it was.
structure OpFrame (cfg : Cfg) (good : Event → Prop) (I C : World → Prop) : Prop extends
    Frame cfg good I I C where
  owner : ∀ w o, (o < 2 ^ 64 ∨ ∃ w₀, I w₀ ∧ w₀.st.segOwner = o) → I w →
    I { w with st := { w.st with segOwner := o } }
  commit : Keeps good I I C (masterCommit cfg)
  alloc : Keeps good I I C (allocIdImpl cfg)

section

variable {cfg : Cfg} {good : Event → Prop} {I C : World → Prop} (F : OpFrame cfg good I C)

include F

theorem persistSegOwner_keeps {owner : Nat} (ho : owner < 2 ^ 64) :
    Keeps good I I C (persistSegOwner cfg owner) := by
  unfold persistSegOwner
  apply getSt_bind
  intro st
  apply Spec.assuming (φ := ∃ w₀, I w₀ ∧ w₀.st.segOwner = st.segOwner)
  . intro w h
    exact ⟨w, h.2, by rw [h.1]⟩
  . intro hst
    split
    . exact Spec.ret fun _ h => h.2
    . refine modifySt_bind (I := I) (fun w h => F.owner w owner (.inl ho) h.2) ?_
      intro _
      apply attempt_reads F.commit
      intro rc
      split
      . exact ret_reads _
      . refine modifySt_bind (I := I) (fun w h => F.owner w _ (.inr hst) h) ?_
        intro _
        exact fail_reads _

theorem segSweep_keeps (owner : Nat) : Keeps good I I C (segSweep cfg owner) := by
  unfold segSweep
  apply (segSweepListed_reads F.toFrame owner).seq
  intro ids
  apply (segSweepFrom_keeps F.toFrame _ _ _ _).seq
  intro _
  exact persistSegOwner_keeps F (by decide)

theorem segFinishPending_keeps : Keeps good I I C (segFinishPending cfg) := by
  unfold segFinishPending
  apply (read_reads _).seq
  intro st
  split
  . exact ret_reads _
  . exact segSweep_keeps F _

theorem release_keeps (ids : List Nat) :
    Keeps good I I C (segRelease cfg ids >>= fun _ => persistSegOwner cfg 0) := by
  apply (segRelease_keeps F.toFrame ids).seq
  intro _
  exact persistSegOwner_keeps F (by decide)

theorem segUpdate_keeps {id : Nat} (hid : id < 2 ^ 64) (payload : List UInt8) (oldIds : List Nat) :
    Keeps good I I C (segUpdate cfg id payload oldIds) := by
  unfold segUpdate
  apply (read_reads _).seq
  intro st
  simp only
  split
  . exact fail_reads _
  . split
    . exact fail_reads _
    . apply (persistSegOwner_keeps F hid).seq
      intro _
      apply (segUpdateChunks_keeps F.toFrame F.alloc _ _ _ _ _).seq
      intro ids
      apply (indexCommit_keeps F.toFrame _ _ _).seq
      intro _
      exact release_keeps F oldIds

theorem pwriteSegmented_keeps {id : Nat} (hid : id < 2 ^ 64) (offset : Nat) (buf : List UInt8) :
    Keeps good I I C (pwriteSegmented cfg id offset buf) := by
  unfold pwriteSegmented
  apply (indexLoadCached_reads F.stable id).seq
  intro loaded
  split
  . exact fail_reads _
  . apply (read_reads _).seq
    intro st
    simp only
    split
    . exact fail_reads _
    . split
      . exact fail_reads _
      . split
        . exact fail_reads _
        . apply (persistSegOwner_keeps F hid).seq
          intro _
          apply (pwriteChunks_keeps F.toFrame F.alloc _ _ _ _ _ _ _ _).seq
          intro newIds
          apply (indexCommit_keeps F.toFrame _ _ _).seq
          intro _
          exact release_keeps F _

theorem updateInline_keeps (bid : Nat) {id : Nat} (hid : id < 2 ^ 64) (payload : List UInt8)
    (cursor : Nat) (oldIds : List Nat) :
    Keeps good I I C (updateInline cfg bid id payload cursor oldIds) := by
  unfold updateInline
  apply (updateRoom_keeps F.toFrame _ _ _ _).seq
  intro cursor
  apply (when_reads (persistSegOwner_keeps F hid)).seq
  intro _
  apply (appendSlot_keeps F.toFrame _ _ _ _ _).seq
  intro _
  exact when_reads (release_keeps F oldIds)

theorem updateImpl_keeps {id : Nat} (hid : id < 2 ^ 64) (payload : List UInt8) :
    Keeps good I I C (updateImpl cfg id payload) := by
  unfold updateImpl
  apply (read_reads _).seq
  intro st
  split
  . exact fail_reads _
  . split
    . exact fail_reads _
    . split
      . exact fail_reads _
      . split
        . exact fail_reads _
        . apply (when_reads (segFinishPending_keeps F)).seq
          intro _
          apply (readBucketHdr_reads F.stable _).seq
          intro formatted
          apply (updatePlace_keeps F.toFrame _ _ _).seq
          intro place
          split
          . exact segUpdate_keeps F hid _ _
          . exact updateInline_keeps F _ hid _ _ _

theorem deleteOutgoing_keeps {id : Nat} (hid : id < 2 ^ 64) (flags : UInt8) :
    Keeps good I I C (deleteOutgoing cfg id flags) := by
  unfold deleteOutgoing
  split
  . apply attempt_reads (indexLoadCached_reads F.stable id)
    intro loaded
    split
    . exact (persistSegOwner_keeps F hid).seq fun _ => ret_reads _
    . exact ret_reads _
  . exact ret_reads _

theorem deleteImpl_keeps {id : Nat} (hid : id < 2 ^ 64) : Keeps good I I C (deleteImpl cfg id) := by
  unfold deleteImpl
  apply (read_reads _).seq
  intro st
  split
  . exact fail_reads _
  . split
    . exact fail_reads _
    . split
      . exact fail_reads _
      . apply (when_reads (segFinishPending_keeps F)).seq
        intro _
        apply (readBucketHdr_reads F.stable _).seq
        intro formatted
        split
        . exact fail_reads _
        . apply (findLiveSlot_reads F.stable _ _).seq
          intro found
          split
          . exact fail_reads _
          . split
            . exact fail_reads _
            . apply (liveWithRoom_keeps F.toFrame _ _ _ _).seq
              intro found
              apply (deleteOutgoing_keeps F hid _).seq
              intro oldIds
              apply (appendSlot_keeps F.toFrame _ _ _ _ _).seq
              intro _
              exact when_reads (release_keeps F oldIds)

theorem writeImpl_keeps {id : Nat} (hid : id < 2 ^ 64) (offset : Nat) (buf : List UInt8) :
    Keeps good I I C (writeImpl cfg id offset buf) := by
  unfold writeImpl
  apply (read_reads _).seq
  intro st
  split
  . exact fail_reads _
  . split
    . exact fail_reads _
    . split
      . exact fail_reads _
      . split
        . exact fail_reads _
        . apply (when_reads (segFinishPending_keeps F)).seq
          intro _
          apply (readBucketHdr_reads F.stable _).seq
          intro formatted
          split
          . exact fail_reads _
          . apply (findLiveSlot_reads F.stable _ _).seq
            intro found
            split
            . exact fail_reads _
            . split
              . exact fail_reads _
              . split
                . exact ret_reads _
                . split
                  . exact pwriteSegmented_keeps F hid _ _
                  . simp only
                    split
                    . exact fail_reads _
                    . apply (liveWithRoom_keeps F.toFrame _ _ _ _).seq
                      intro found
                      exact appendSlot_keeps F.toFrame _ _ _ _ _

end

/-! Assertions about the master sectors: buckets and the scratch sector do not matter to them -/

structure DataFrame (good : Event → Prop) (I C : World → Prop) : Prop where
  lost : ∀ w, I w → C w
  stable : Stable I
  data : ∀ sector r, scratchSector ≤ sector → Keeps good I I C (storeMutate sector r)
  wedge : ∀ w, I w → I { w with st := { w.st with wedged := true } }

section

variable {cfg : Cfg} {good : Event → Prop} {I C : World → Prop} (D : DataFrame good I C)

include D

theorem bucket_data (bid : Nat) (r : Request) :
    Keeps good I I C (storeMutate (bucketSector bid) r) :=
  D.data _ r (by unfold bucketSector firstBucket scratchSector; omega)

theorem compactOrWedge_data {x : M Unit} (hx : Keeps good I I C x) :
    Keeps good I I C (compactOrWedge x) := by
  unfold compactOrWedge
  apply attempt_reads hx
  intro rc
  split
  . exact ret_reads _
  . refine modifySt_bind (I := I) (fun w h => D.wedge w h) ?_
    intro _
    exact fail_reads _

theorem compactCommit_data (bid : Nat) (image : List UInt8) :
    Keeps good I I C (compactCommit cfg bid image) := by
  have hscratch : ∀ r, Keeps good I I C (storeMutate scratchSector r) :=
    fun r => D.data _ r (Nat.le_refl _)
  unfold compactCommit
  split
  . exact fail_reads _
  . split
    . next hatomic =>
      rw [storeReplace, if_pos hatomic]
      exact bucket_data D _ _
    . apply (hscratch _).seq
      intro _
      apply (hscratch _).seq
      intro _
      apply (hscratch _).seq
      intro _
      apply (compactOrWedge_data D (bucket_data D _ _)).seq
      intro _
      apply (compactOrWedge_data D (bucket_data D _ _)).seq
      intro _
      exact compactOrWedge_data D (hscratch _)

theorem DataFrame.frame : Frame cfg good I I C where
  fails _ h := h
  lost := D.lost
  stable := D.stable
  stableFailed := D.stable
  bucket := bucket_data D
  compact bid := compactBucket_keeps D.stable D.stable (fun _ h => h) bid
    fun image _ => compactCommit_data D bid image

theorem recoverCompaction_data : Keeps good I I C (recoverCompaction cfg) := by
  have hsealed : Reads good I C (scratchSealedBucket cfg) := by
    unfold scratchSealedBucket
    apply (storeRead_reads D.stable _ _ _).seq
    intro tail
    split
    . exact ret_reads _
    . apply (readSector_reads D.stable _).seq
      intro buf
      split
      . exact ret_reads _
      . simp only
        split <;> exact ret_reads _
  unfold recoverCompaction
  apply hsealed.seq
  intro found
  split
  . exact ret_reads _
  . apply (bucket_data D _ _).seq
    intro _
    apply (bucket_data D _ _).seq
    intro _
    exact D.data _ _ (Nat.le_refl _)

theorem storeEraseAll_data (n sector : Nat) (hs : scratchSector ≤ sector) :
    Keeps good I I C (storeEraseAll n sector) := by
  induction n generalizing sector with
  | zero => exact ret_reads _
  | succ n ih =>
    unfold storeEraseAll
    apply (D.data _ _ hs).seq
    intro _
    exact ih _ (by omega)

end

end KeyValueDb.BlobDb
