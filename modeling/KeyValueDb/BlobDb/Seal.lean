import KeyValueDb.BlobDb.Scratch
import KeyValueDb.BlobDb.Runs

/-!
The life of a seal when power can be lost but no store write fails. A compaction that is not cut
takes its seal away again, and mount takes away the one a cut left, unless it finds both master
sectors erased.
-/

namespace KeyValueDb.BlobDb

variable (cfg : Cfg)

-- The header windows of both master sectors read erased, as on a blank device.
def MastersErased (flash : Flash) : Prop :=
  allErased (flash masterASector) 0 masterHdrMax = true ∧
    allErased (flash masterBSector) 0 masterHdrMax = true

instance (flash : Flash) : Decidable (MastersErased flash) :=
  inferInstanceAs (Decidable (_ ∧ _))

section

variable {cfg} {good : Event → Prop} {I C : World → Prop}

-- What the recovery of a mount looks at is the image on flash.
theorem scratchSealedBucket_spec (S : Stable I) :
    Spec (History good) I (scratchSealedBucket cfg)
      ⟨fun r w => r = scratchImage cfg (w.flash scratchSector) ∧ I w, fun _ => I, C⟩ := by
  have hst : ∀ tail : List UInt8, Stable fun w =>
      tail = bytesAt (w.flash scratchSector) cfg.scratchSealOff scratchSealSize ∧ I w := by
    intro tail w w' q h
    rw [q.flash]
    exact ⟨h.1, S w w' q h.2⟩
  unfold scratchSealedBucket
  apply (readFlash_spec S _).bind
  . intro tail
    simp only
    split
    . next hm =>
      apply Spec.ret
      intro w h
      refine ⟨(scratchImage_of_magic cfg ?_).symm, h.2⟩
      rw [h.1, sealMagicOk_image] at hm
      simpa using hm
    . apply (readFlash_spec (hst tail) _).bind
      . intro buf
        simp only
        split
        . next hv =>
          apply Spec.ret
          intro w h
          rw [h.1] at hv
          exact ⟨by simp [scratchImage, hv], h.2.2⟩
        . next len hv =>
          split
          . next hb =>
            apply Spec.ret
            intro w h
            rw [h.1] at hv hb
            exact ⟨by simp only [scratchImage, hv]; rw [if_pos hb], h.2.2⟩
          . next hb =>
            apply Spec.ret
            intro w h
            rw [h.1] at hv hb ⊢
            exact ⟨by simp only [scratchImage, hv]; rw [if_neg hb], h.2.2⟩
      . exact fun _ _ h => h.2
      . exact fun _ h => h
  . exact fun _ _ h => h
  . exact fun _ h => h

end

/-! Calls that meet no error -/

def AnyEvent : Event → Prop := fun _ => True

-- No coming store write reports an error, and the active master is one of the two.
structure Powered (w : World) : Prop where
  faults : ∀ f ∈ w.faults, f.isError = false
  active : w.st.activeMaster ≤ 1

structure SealClosed (w : World) : Prop where
  unsealed : Unsealed cfg w.flash
  powered : Powered w

section

variable {cfg}

theorem Powered.ram {w : World} {st : St} (h : Powered w) (hst : st.activeMaster ≤ 1) :
    Powered { w with st := st } := ⟨h.faults, hst⟩

theorem Powered.mutate {w : World} (h : Powered w) (sector : Nat) (r : Request) :
    Powered (w.mutate sector r) :=
  ⟨fun f hf => h.faults f (List.mem_of_mem_tail hf), h.active⟩

theorem Powered.not_error {w : World} (h : Powered w) {part : Nat} {upper : Bool} :
    w.nextFault ≠ .error part upper := by
  intro he
  unfold World.nextFault at he
  cases hf : w.faults with
  | nil => simp [hf] at he
  | cons f fs =>
    rw [hf, List.headD_cons] at he
    have := h.faults f (by simp [hf])
    rw [he] at this
    cases this

theorem SealClosed.ram {w : World} {st : St} (h : SealClosed cfg w) (hst : st.activeMaster ≤ 1) :
    SealClosed cfg { w with st := st } := ⟨h.unsealed, h.powered.ram hst⟩

theorem powered_stable : Stable Powered := by
  intro w w' q h
  refine ⟨?_, ?_⟩
  . rw [q.faults]
    exact h.faults
  . exact q.activeMaster ▸ h.active

theorem sealClosed_stable : Stable (SealClosed cfg) := by
  intro w w' q h
  refine ⟨?_, powered_stable w w' q h.powered⟩
  rw [q.flash]
  exact h.unsealed

-- The rule for a store write that reports no error.
theorem storeMutate_powered {P : World → Prop} {sector : Nat} {r : Request} {I : World → Prop}
    (hp : ∀ w, P w → Powered w)
    (hok : ∀ w, P w → w.nextFault = .none → I (w.mutate sector r)) :
    Spec (History AnyEvent) P (storeMutate sector r) (.exits I (fun _ => False) fun _ => True) := by
  apply storeMutate_spec
  . intro w h hf _
    exact hok w h hf
  . intro w part upper h hf _
    exact (hp w h).not_error hf
  . intro w part upper h hf _
    trivial

theorem unsealed_mutate {w : World} {sector : Nat} {r : Request} (h : Unsealed cfg w.flash)
    (hs : sector ≠ scratchSector) : Unsealed cfg (w.mutate sector r).flash := by
  have : (w.mutate sector r).flash scratchSector = w.flash scratchSector := by
    simp [World.mutate, Flash.set, Ne.symm hs]
  unfold Unsealed
  rw [this]
  exact h

theorem sealClosed_mutate {sector : Nat} {r : Request} (hs : sector ≠ scratchSector) :
    Keeps AnyEvent (SealClosed cfg) (SealClosed cfg) (fun _ => True) (storeMutate sector r) := by
  have h : Spec (History AnyEvent) (SealClosed cfg) (storeMutate sector r)
      (.exits (SealClosed cfg) (fun _ => False) fun _ => True) :=
    storeMutate_powered (fun _ h => h.powered) fun w h _ =>
      ⟨unsealed_mutate h.unsealed hs, h.powered.mutate _ _⟩
  exact h.conseq (fun _ h => h) (fun _ _ h => h) (fun _ _ h => h.elim) fun _ h => h

theorem powered_mutate (sector : Nat) (r : Request) :
    Spec (History AnyEvent) Powered (storeMutate sector r)
      (.exits Powered (fun _ => False) fun _ => True) :=
  storeMutate_powered (fun _ h => h) fun _ h _ => h.mutate _ _

theorem eraseScratch_closes :
    Spec (History AnyEvent) Powered (storeErase scratchSector)
      (.exits (SealClosed cfg) (fun _ => False) fun _ => True) := by
  apply storeMutate_powered fun _ h => h
  intro w h hf
  refine ⟨?_, h.mutate _ _⟩
  have : (w.mutate scratchSector .erase).flash scratchSector = blank := by
    simp [World.mutate, Flash.set, Request.result, hf, Request.whole]
  unfold Unsealed
  rw [this]
  exact scratchImage_blank cfg

theorem compactOrWedge_powered {x : M Unit} {I : World → Prop}
    (hx : Spec (History AnyEvent) Powered x (.exits I (fun _ => False) fun _ => True)) :
    Spec (History AnyEvent) Powered (compactOrWedge x)
      (.exits I (fun _ => False) fun _ => True) := by
  unfold compactOrWedge
  apply hx.caught
  . intro _
    exact Spec.ret fun _ h => h
  . intro e w h
    exact h.elim
  . exact fun _ h => h

-- A compaction that is not cut ends with the scratch sector erased.
theorem compactCommit_closes (bid : Nat) (image : List UInt8) :
    Keeps AnyEvent (SealClosed cfg) (SealClosed cfg) (fun _ => True)
      (compactCommit cfg bid image) := by
  unfold compactCommit
  split
  . exact fail_reads _
  . split
    . unfold storeReplace
      rw [if_pos (by assumption)]
      apply sealClosed_mutate
      simp [bucketSector, firstBucket, scratchSector]
      omega
    . have hwindow : Spec (History AnyEvent) Powered
          (do
            storeErase scratchSector
            storeWrite scratchSector 0 image
            scratchSealWrite cfg image
            compactOrWedge (storeErase (bucketSector bid))
            compactOrWedge (storeWrite (bucketSector bid) 0 image)
            compactOrWedge (storeErase scratchSector))
          (.exits (SealClosed cfg) (fun _ => False) fun _ => True) := by
        apply (powered_mutate _ _).seq
        intro _
        apply (powered_mutate _ _).seq
        intro _
        apply (powered_mutate _ _).seq
        intro _
        apply (compactOrWedge_powered (powered_mutate _ _)).seq
        intro _
        apply (compactOrWedge_powered (powered_mutate _ _)).seq
        intro _
        exact compactOrWedge_powered eraseScratch_closes
      exact hwindow.conseq (fun _ h => h.powered) (fun _ _ h => h) (fun _ _ h => h.elim)
        fun _ h => h

theorem sealClosed_frame :
    Frame cfg AnyEvent (SealClosed cfg) (SealClosed cfg) fun _ => True where
  fails _ h := h
  lost _ _ := trivial
  stable := sealClosed_stable
  stableFailed := sealClosed_stable
  bucket bid r := by
    apply sealClosed_mutate
    unfold bucketSector firstBucket scratchSector
    omega
  compact bid :=
    compactBucket_keeps sealClosed_stable sealClosed_stable (fun _ h => h) bid
      fun image _ => compactCommit_closes bid image

theorem sealClosed_neutral : Neutral AnyEvent (SealClosed cfg) fun _ => True where
  active _ h := h.powered.active
  ram _ _ hst h := ⟨h.unsealed, h.powered.ram hst.active⟩
  note _ _ h := ⟨h.unsealed, h.powered.faults, h.powered.active⟩
  master slot r hs := by
    apply sealClosed_mutate
    unfold scratchSector
    omega

theorem sealClosed_opFrame : OpFrame cfg AnyEvent (SealClosed cfg) fun _ => True where
  toFrame := sealClosed_frame
  owner _ _ _ h := ⟨h.unsealed, h.powered.ram h.powered.active⟩
  commit := masterCommitHow_neutral sealClosed_neutral false
  alloc := allocIdImpl_neutral sealClosed_neutral

/-! Format and mount -/

theorem masterFormat_closed :
    Keeps AnyEvent (SealClosed cfg) (SealClosed cfg) (fun _ => True) (masterFormat cfg) := by
  unfold masterFormat
  refine modifySt_bind (I := SealClosed cfg) (fun w h => h.ram h.powered.active) ?_
  intro _
  apply (read_reads _).seq
  intro st
  refine modifySt_bind (I := SealClosed cfg) (fun w h => h.ram h.powered.active) ?_
  intro _
  apply (masterWriteSector_neutral sealClosed_neutral _ _ _ (by decide)).seq
  intro _
  apply (masterWriteSector_neutral sealClosed_neutral _ _ _ (by decide)).seq
  intro _
  apply modifySt_spec
  intro w h
  exact ⟨h.unsealed, h.powered.ram (by simp [masterASector])⟩

theorem formatMastersFresh_closed :
    Keeps AnyEvent (SealClosed cfg) (SealClosed cfg) (fun _ => True) (formatMastersFresh cfg) := by
  unfold formatMastersFresh
  apply (invalidateFrom_keeps sealClosed_frame _ _ _).seq
  intro _
  apply masterFormat_closed.seq
  intro _
  exact bindRootEmpty_keeps sealClosed_frame

-- Sectors are erased in ascending order, and an erased one stays erased.
theorem storeEraseAll_blank (n sector : Nat) :
    Spec (History AnyEvent) (fun w => Powered w ∧ ∀ t, t < sector → w.flash t = blank)
      (storeEraseAll n sector)
      (.exits (fun w => Powered w ∧ ∀ t, t < sector + n → w.flash t = blank) (fun _ => False)
        fun _ => True) := by
  induction n generalizing sector with
  | zero => exact Spec.ret fun _ h => h
  | succ n ih =>
    unfold storeEraseAll
    have hone : Spec (History AnyEvent)
        (fun w => Powered w ∧ ∀ t, t < sector → w.flash t = blank) (storeErase sector)
        (.exits (fun w => Powered w ∧ ∀ t, t < sector + 1 → w.flash t = blank) (fun _ => False)
          fun _ => True) := by
      apply storeMutate_powered fun _ h => h.1
      intro w h hf
      refine ⟨h.1.mutate _ _, ?_⟩
      intro t ht
      simp only [World.mutate, Flash.set, hf, Request.result, Request.whole]
      split
      . rfl
      . next hne => exact h.2 t (by omega)
    apply hone.seq
    intro _
    have hn : sector + (n + 1) = sector + 1 + n := by omega
    rw [hn]
    exact ih (sector + 1)

theorem formatWholeStore_closes (hn : scratchSector < cfg.nPebs) :
    Spec (History AnyEvent) Powered (formatWholeStore cfg)
      (.exits (SealClosed cfg) (SealClosed cfg) fun _ => True) := by
  have herase : Spec (History AnyEvent) Powered (storeEraseAll cfg.nPebs 0)
      (.exits (SealClosed cfg) (fun _ => False) fun _ => True) := by
    apply (storeEraseAll_blank cfg.nPebs 0).conseq
    . exact fun w h => ⟨h, by omega⟩
    . intro _ w h
      refine ⟨?_, h.1⟩
      unfold Unsealed
      rw [h.2 scratchSector (by omega)]
      exact scratchImage_blank cfg
    . exact fun _ _ h => h.elim
    . exact fun _ h => h
  unfold formatWholeStore
  apply (idxInvalidate_reads powered_stable).seq
  intro _
  apply (sidx_reads powered_stable _).seq
  intro _
  refine modifySt_bind (I := Powered) (fun w h => h.ram h.active) ?_
  intro _
  apply herase.bind
  . intro _
    apply masterFormat_closed.seq
    intro _
    exact bindRootEmpty_keeps sealClosed_frame
  . exact fun _ _ h => h.elim
  . exact fun _ h => h

theorem recoverCompaction_closes :
    Spec (History AnyEvent) Powered (recoverCompaction cfg)
      (.exits (SealClosed cfg) Powered fun _ => True) := by
  unfold recoverCompaction
  apply (scratchSealedBucket_spec powered_stable).bind
  . intro found
    split
    . apply Spec.ret
      intro w h
      exact ⟨h.1.symm, h.2⟩
    . next bid image =>
      have hrestore : Spec (History AnyEvent) Powered
          (do
            storeErase (bucketSector bid)
            storeWrite (bucketSector bid) 0 image
            storeErase scratchSector)
          (.exits (SealClosed cfg) (fun _ => False) fun _ => True) := by
        apply (powered_mutate _ _).seq
        intro _
        apply (powered_mutate _ _).seq
        intro _
        exact eraseScratch_closes
      exact hrestore.conseq (fun _ h => h.2) (fun _ _ h => h) (fun _ _ h => h.elim) fun _ h => h
  . exact fun _ _ h => h
  . exact fun _ h => h

-- A mount that has read the two headers: if both windows are erased there is no seal.
structure MountStart (cfg : Cfg) (a b : MasterView) (w : World) : Prop where
  powered : Powered w
  virgin : a.cls = .erased → b.cls = .erased → Unsealed cfg w.flash

theorem mountStart_stable (a b : MasterView) : Stable (MountStart cfg a b) := by
  intro w w' q h
  refine ⟨powered_stable w w' q h.powered, ?_⟩
  rw [q.flash]
  exact h.virgin

theorem MountStart.ram {a b : MasterView} {w : World} {st : St} (h : MountStart cfg a b w)
    (hst : st.activeMaster ≤ 1) : MountStart cfg a b { w with st := st } :=
  ⟨h.powered.ram hst, h.virgin⟩

theorem acceptMaster_start (a b v : MasterView) :
    Spec (History AnyEvent) (MountStart cfg a b) (acceptMaster cfg v)
      (.exits (MountStart cfg a b) Powered fun _ => True) := by
  unfold acceptMaster
  split
  . exact Spec.ret fun _ h => h
  . split
    . exact Spec.fail fun _ h => h.powered
    . apply modifySt_spec
      intro w h
      exact h.ram h.powered.active

theorem mountAdopted_closes (a b : MasterView) (p : Pick) (hp : p.active ≤ 1) :
    Spec (History AnyEvent) Powered (mountAdopted cfg a b p)
      (.exits (SealClosed cfg) Powered fun _ => True) := by
  have hlift : ∀ {x : M Unit}, Keeps AnyEvent (SealClosed cfg) (SealClosed cfg) (fun _ => True) x →
      Spec (History AnyEvent) (SealClosed cfg) x
        (.exits (SealClosed cfg) Powered fun _ => True) :=
    fun hx => hx.conseq (fun _ h => h) (fun _ _ h => h) (fun _ _ h => h.powered) fun _ h => h
  unfold mountAdopted adoptMaster
  simp only
  refine modifySt_bind (I := Powered) (fun w h => h.ram hp) ?_
  intro _
  apply recoverCompaction_closes.seq
  intro _
  apply (Spec.read (Q := .exits (SealClosed cfg) Powered fun _ => True) fun _ h => h).seq
  intro damage
  apply (hlift (when_reads (doubtScan_neutral sealClosed_neutral sealClosed_stable))).seq
  intro _
  apply (hlift (when_reads (finishUpgrade_neutral sealClosed_neutral _))).seq
  intro _
  exact hlift (endDoubt_neutral sealClosed_neutral _ _ _)

theorem mountViews_closes (hn : scratchSector < cfg.nPebs) (a b : MasterView) :
    Spec (History AnyEvent) (MountStart cfg a b) (mountViews cfg a b)
      (.exits (SealClosed cfg) Powered fun _ => True) := by
  have hunusable : Spec (History AnyEvent) (MountStart cfg a b) (mountUnusable cfg a b)
      (.exits (SealClosed cfg) Powered fun _ => True) := by
    unfold mountUnusable
    split
    . next hv =>
      apply formatMastersFresh_closed.conseq
      . exact fun w h => ⟨h.virgin hv.1 hv.2, h.powered⟩
      . exact fun _ _ h => h
      . exact fun _ _ h => h.powered
      . exact fun _ h => h
    . split
      . exact (formatWholeStore_closes hn).conseq (fun _ h => h.powered) (fun _ _ h => h)
          (fun _ _ h => h.powered) fun _ h => h
      . exact Spec.fail fun _ h => h.powered
  unfold mountViews
  split
  . exact Spec.fail fun _ h => h.powered
  . refine modifySt_bind (I := MountStart cfg a b) (fun w h => h.ram h.powered.active) ?_
    intro _
    apply (acceptMaster_start a b a).seq
    intro _
    apply (acceptMaster_start a b b).seq
    intro _
    split
    . exact Spec.fail fun _ h => h.powered
    . apply (masterPick_active (C := fun _ => True) (mountStart_stable a b) a b).bind
      . intro pick
        split
        . exact hunusable.pre fun _ h => h.1
        . next p =>
          apply Spec.assuming (φ := p.active ≤ 1)
          . exact fun w h => h.2 p rfl
          . intro hp
            exact (mountAdopted_closes a b p hp).pre fun _ h => h.1.powered
      . exact fun _ _ h => h.powered
      . exact fun _ h => h

theorem masterClassOf_erased {buf : Sector} :
    masterClassOf buf = .erased ↔ allErased buf 0 masterHdrMax = true := by
  unfold masterClassOf
  constructor
  . intro h
    split at h
    . assumption
    . repeat' split at h
      all_goals cases h
  . intro h
    rw [if_pos h]

theorem allErased_image (f : Sector) :
    allErased (image (bytesAt f 0 masterHdrMax)) 0 masterHdrMax = allErased f 0 masterHdrMax := by
  have h : bytesAt (image (bytesAt f 0 masterHdrMax)) 0 masterHdrMax = bytesAt f 0 masterHdrMax := by
    apply bytesAt_congr
    intro j _ hj
    rw [image_bytesAt (by omega), Nat.zero_add]
  unfold allErased
  rw [h]

-- What a mount may rely on when it starts.
structure Mountable (cfg : Cfg) (w : World) : Prop where
  powered : Powered w
  virgin : MastersErased w.flash → Unsealed cfg w.flash

theorem mountable_stable : Stable (Mountable cfg) := by
  intro w w' q h
  refine ⟨powered_stable w w' q h.powered, ?_⟩
  rw [q.flash]
  exact h.virgin

theorem masterClassify_spec {I C : World → Prop} {good : Event → Prop} (S : Stable I) (slot : Nat) :
    Spec (History good) I (masterClassify slot)
      ⟨fun r w => r = (masterClassOf (image (bytesAt (w.flash slot) 0 masterHdrMax)),
        masterHdrAt (image (bytesAt (w.flash slot) 0 masterHdrMax))) ∧ I w, fun _ => I, C⟩ := by
  unfold masterClassify
  apply (readFlash_spec S _).bind
  . intro buf
    apply Spec.ret
    intro w h
    rw [h.1]
    exact ⟨rfl, h.2⟩
  . exact fun _ _ h => h
  . exact fun _ h => h

theorem mountOpened_closes (hn : scratchSector < cfg.nPebs) :
    Spec (History AnyEvent) (Mountable cfg) (mountOpened cfg)
      (.exits (SealClosed cfg) Powered fun _ => True) := by
  have hlift : ∀ {x : M Unit}, Keeps AnyEvent (SealClosed cfg) (SealClosed cfg) (fun _ => True) x →
      Spec (History AnyEvent) (SealClosed cfg) x
        (.exits (SealClosed cfg) Powered fun _ => True) :=
    fun hx => hx.conseq (fun _ h => h) (fun _ _ h => h) (fun _ _ h => h.powered) fun _ h => h
  have hsegments : Keeps AnyEvent (SealClosed cfg) (SealClosed cfg) (fun _ => True)
      (mountSegments cfg) := by
    unfold mountSegments segGeometryInit
    apply Spec.seq (I := SealClosed cfg)
    . have hof : ∀ r : Except Errno (Nat × Nat), Keeps AnyEvent (SealClosed cfg) (SealClosed cfg)
          (fun _ => True) (Proc.ofExcept r) :=
        fun r => Spec.ofExcept (fun _ h => h) fun _ h => h
      apply (hof _).seq
      intro g
      apply modifySt_spec
      intro w h
      exact h.ram h.powered.active
    . intro _
      apply (read_reads _).seq
      intro st
      exact when_reads (segSweep_keeps sealClosed_opFrame _)
  have hstable : ∀ a : MasterClass × MasterHdr, Stable fun w =>
      a = (masterClassOf (image (bytesAt (w.flash masterASector) 0 masterHdrMax)),
        masterHdrAt (image (bytesAt (w.flash masterASector) 0 masterHdrMax))) ∧
        Mountable cfg w := by
    intro a w w' q h
    rw [q.flash]
    exact ⟨h.1, mountable_stable w w' q h.2⟩
  unfold mountOpened
  apply (masterClassify_spec (C := fun _ => True) mountable_stable masterASector).bind
  . intro a
    apply (masterClassify_spec (C := fun _ => True) (hstable a) masterBSector).bind
    . intro b
      apply ((mountViews_closes hn ⟨a.1, a.2⟩ ⟨b.1, b.2⟩).pre ?_).seq
      . intro _
        apply (hlift (bindRootIfMissing_neutral sealClosed_neutral sealClosed_frame)).seq
        intro _
        refine modifySt_bind (I := SealClosed cfg) (fun w h => h.ram h.powered.active) ?_
        intro _
        exact hlift (when_reads hsegments)
      . intro w h
        obtain ⟨hb, ha, hm⟩ := h
        refine ⟨hm.powered, ?_⟩
        intro hea heb
        rw [ha] at hea
        rw [hb] at heb
        apply hm.virgin
        rw [masterClassOf_erased, allErased_image] at hea heb
        exact ⟨hea, heb⟩
    . exact fun _ _ h => h.2.powered
    . exact fun _ h => h
  . exact fun _ _ h => h.powered
  . exact fun _ h => h

/-! Runs -/

theorem validate_pebs (h : cfg.storeOpenAndValidate = .ok ()) : scratchSector < cfg.nPebs := by
  have := (Cfg.valid_of_validate h).pebs
  unfold firstBucket at this
  unfold scratchSector
  omega

-- Between calls: a mounted store has passed the geometry checks and has no seal.
structure SealInv (cfg : Cfg) (w : World) : Prop where
  active : w.st.activeMaster ≤ 1
  mounted : w.st.mounted = true → cfg.storeOpenAndValidate = .ok () ∧ Unsealed cfg w.flash

theorem SealClosed.inv {w : World} (h : SealClosed cfg w)
    (hv : cfg.storeOpenAndValidate = .ok ()) : SealInv cfg w :=
  ⟨h.powered.active, fun _ => ⟨hv, h.unsealed⟩⟩

theorem mountImpl_closes :
    Spec (History AnyEvent) (fun w => SealInv cfg w ∧ Mountable cfg w) (mountImpl cfg)
      (.exits (fun w => SealClosed cfg w ∧ SealInv cfg w) (SealInv cfg) fun _ => True) := by
  unfold mountImpl
  apply getSt_bind
  intro st
  split
  . exact Spec.fail fun _ h => h.2.1
  . next hm =>
    have hst : Stable fun w => w.st.mounted = false ∧ Mountable cfg w := by
      intro w w' q h
      exact ⟨q.mounted.trans h.1, mountable_stable w w' q h.2⟩
    have hstart : Spec (History AnyEvent) (fun w => w.st = st ∧ (SealInv cfg w ∧ Mountable cfg w))
        (idxInvalidate cfg)
        (.exits (fun w => w.st.mounted = false ∧ Mountable cfg w) (SealInv cfg) fun _ => True) := by
      apply (idxInvalidate_reads hst).pre
      intro w h
      refine ⟨?_, h.2.2⟩
      rw [h.1]
      simpa using hm
    apply hstart.seq
    intro _
    refine modifySt_bind (I := fun w => w.st.mounted = false ∧ Mountable cfg w) ?_ ?_
    . exact fun w h => ⟨h.1, h.2.powered.ram h.2.powered.active, h.2.virgin⟩
    . intro _
      cases hv : cfg.storeOpenAndValidate with
      | error e =>
        apply Spec.bind (Q := .exits (fun _ => False) (SealInv cfg) fun _ => True)
        . apply Spec.fail
          intro w h
          exact ⟨h.2.powered.active, by simp [h.1]⟩
        . intro _ w h
          exact h.elim
        . exact fun _ _ h => h
        . exact fun _ h => h
      | ok u =>
        apply Spec.seq (I := fun w => w.st.mounted = false ∧ Mountable cfg w)
        . exact Spec.ret fun _ h => h
        . intro _
          apply (sidx_reads hst _).seq
          intro _
          apply ((mountOpened_closes (validate_pebs hv)).pre fun _ h => h.2).caught
          . intro _
            exact Spec.ret fun w h => ⟨h, h.inv hv⟩
          . intro e
            refine modifySt_bind (I := fun w => w.st.mounted = false ∧ Powered w) ?_ ?_
            . exact fun w h => ⟨rfl, h.ram h.active⟩
            . intro _
              have hst' : Stable fun w => w.st.mounted = false ∧ Powered w := by
                intro w w' q h
                exact ⟨q.mounted.trans h.1, powered_stable w w' q h.2⟩
              apply (sidx_reads hst' _).seq
              intro _
              apply Spec.fail
              intro w h
              exact ⟨h.2.active, by simp [h.1]⟩
          . exact fun _ h => h

theorem sealInv_stable : Stable (SealInv cfg) := by
  intro w w' q h
  refine ⟨q.activeMaster ▸ h.active, ?_⟩
  intro hm
  rw [q.flash]
  exact h.mounted (q.mounted ▸ hm)

-- A format that passes the geometry checks ends with the scratch sector erased.
theorem formatImpl_closes :
    Spec (History AnyEvent) (fun w => SealInv cfg w ∧ Powered w) (formatImpl cfg)
      (.exits (fun w => SealClosed cfg w ∧ SealInv cfg w) (SealInv cfg) fun _ => True) := by
  have hwhole : ∀ hv : cfg.storeOpenAndValidate = .ok (), Spec (History AnyEvent) Powered
      (formatWholeStore cfg)
      (.exits (SealClosed cfg) (SealInv cfg) fun _ => True) := by
    intro hv
    exact (formatWholeStore_closes (validate_pebs hv)).conseq (fun _ h => h) (fun _ _ h => h)
      (fun _ _ h => h.inv hv) fun _ h => h
  unfold formatImpl
  apply getSt_bind
  intro st
  split
  . next hm =>
    apply Spec.assuming (φ := cfg.storeOpenAndValidate = .ok ())
    . intro w h
      exact (h.2.1.mounted (by rw [h.1]; exact hm)).1
    . intro hv
      apply (hwhole hv).conseq
      . exact fun _ h => h.2.2
      . exact fun _ _ h => ⟨h, h.inv hv⟩
      . exact fun _ _ h => h
      . exact fun _ h => h
  . next hm =>
    cases hv : cfg.storeOpenAndValidate with
    | error e =>
      apply Spec.bind (Q := .exits (fun _ => False) (SealInv cfg) fun _ => True)
      . exact Spec.fail fun w h => h.2.1
      . exact fun _ _ h => h.elim
      . exact fun _ _ h => h
      . exact fun _ h => h
    | ok u =>
      apply Spec.seq (I := fun w => Powered w)
      . exact Spec.ret fun _ h => h.2.2
      . intro _
        apply (hwhole hv).seq
        intro _
        refine modifySt_bind (I := SealClosed cfg) (fun w h => h.ram h.powered.active) ?_
        intro _
        have hinit : Keeps AnyEvent (SealClosed cfg) (SealClosed cfg) (fun _ => True)
            (segGeometryInit cfg) := by
          unfold segGeometryInit
          have hof : ∀ r : Except Errno (Nat × Nat), Keeps AnyEvent (SealClosed cfg)
              (SealClosed cfg) (fun _ => True) (Proc.ofExcept r) :=
            fun r => Spec.ofExcept (fun _ h => h) fun _ h => h
          apply (hof _).seq
          intro g
          apply modifySt_spec
          intro w h
          exact h.ram h.powered.active
        apply Spec.when
        . exact fun w h => ⟨h, h.inv hv⟩
        . intro _
          apply hinit.caught
          . intro _
            exact Spec.ret fun w h => ⟨h, h.inv hv⟩
          . intro e
            refine modifySt_bind (I := SealClosed cfg) (fun w h => h.ram h.powered.active) ?_
            intro _
            exact Spec.fail fun w h => h.inv hv
          . exact fun _ h => h

theorem op_closes (op : Op) :
    Spec (History AnyEvent)
      (fun w => SealInv cfg w ∧ Powered w ∧ (op = .mount → MastersErased w.flash →
        Unsealed cfg w.flash))
      (op.run cfg)
      ⟨fun _ w => SealInv cfg w ∧ (op.mutates = true → Unsealed cfg w.flash),
        fun _ => SealInv cfg, fun _ => True⟩ := by
  have hboth : Stable fun w => SealClosed cfg w ∧ SealInv cfg w :=
    fun w w' q h => ⟨sealClosed_stable w w' q h.1, sealInv_stable w w' q h.2⟩
  have hend : ∀ {x : M Unit} {P : World → Prop}, Spec (History AnyEvent) P x
      (.exits (fun w => SealClosed cfg w ∧ SealInv cfg w) (SealInv cfg) fun _ => True) →
      Spec (History AnyEvent) P (do x; maintReset cfg; pure Value.unit)
        ⟨fun _ w => SealInv cfg w ∧ (op.mutates = true → Unsealed cfg w.flash),
          fun _ => SealInv cfg, fun _ => True⟩ := by
    intro x P hx
    apply hx.bind
    . intro _
      apply (maintReset_reads hboth).bind
      . intro _
        exact Spec.ret fun w h => ⟨h.2, fun _ => h.1.unsealed⟩
      . exact fun _ _ h => h
      . exact fun _ h => h
    . exact fun _ _ h => h
    . exact fun _ h => h
  intro w h
  by_cases hmount : op = .mount
  . subst hmount
    exact hend (mountImpl_closes.pre fun w h => h) w ⟨h.1, h.2.1, h.2.2 rfl⟩
  by_cases hformat : op = .format
  . subst hformat
    exact hend formatImpl_closes w ⟨h.1, h.2.1⟩
  cases hm : w.st.mounted with
  | false =>
    intro _
    obtain ⟨hw, herr⟩ := Op.run_unmounted cfg hm op hmount hformat
    generalize op.run cfg w = r at hw herr
    obtain ⟨o, w'⟩ := r
    simp only at hw herr
    subst hw
    cases o with
    | ok v =>
      refine ⟨h.1, ?_⟩
      intro hmut
      obtain ⟨e, he⟩ := herr hmut
      cases he
    | err e => exact h.1
    | cut => trivial
  | true =>
    obtain ⟨hv, hu⟩ := h.1.mounted hm
    have hclosed : SealClosed cfg w := ⟨hu, h.2.1⟩
    have hkeep : Keeps AnyEvent (SealClosed cfg) (SealClosed cfg) (fun _ => True) (op.run cfg) := by
      cases ho : op.ordinary with
      | true => exact Op.run_keeps sealClosed_opFrame op ho
      | false =>
        cases op with
        | unmount =>
          have hun : Keeps AnyEvent (SealClosed cfg) (SealClosed cfg) (fun _ => True)
              (unmountImpl cfg) := by
            unfold unmountImpl
            apply (read_reads _).seq
            intro st
            split
            . exact ret_reads _
            . refine modifySt_bind (I := SealClosed cfg) (fun w h => h.ram h.powered.active) ?_
              intro _
              apply (idxInvalidate_reads sealClosed_stable).seq
              intro _
              exact sidx_reads sealClosed_stable _
          exact hun.seq fun _ => ret_reads _
        | eraseAll =>
          apply (eraseAllImpl_neutral sealClosed_neutral sealClosed_frame).seq
          intro _
          exact (maintReset_reads sealClosed_stable).seq fun _ => ret_reads _
        | _ => contradiction
    intro hh
    have := hkeep w hclosed hh
    generalize op.run cfg w = r at this
    obtain ⟨o, w'⟩ := r
    cases o with
    | ok v => exact ⟨this.inv hv, fun _ => this.unsealed⟩
    | err e => exact this.inv hv
    | cut => trivial

end

-- What each call relies on: only power can be lost, and a mount that finds both master sectors
-- erased finds no seal.
def SealCall (w : World) (c : Call) : Prop :=
  (∀ f ∈ c.faults, f.isError = false) ∧
    (c.op = .mount → MastersErased w.flash → Unsealed cfg w.flash)

-- A cut inside the window of a compaction, one inside the erase of a format, and a mount.
def sealedFormatRun : List Call :=
  [{ op := .format }, { op := .allocId }, { op := .update 2 (List.replicate 64 7) },
    { op := .update 2 (List.replicate 64 8) },
    { op := .update 2 (List.replicate 64 9), faults := [.none, .none, .none, .cut 0 false] },
    { op := .format, faults := [.none, .none, .cut 0 false] }, { op := .mount }]

end KeyValueDb.BlobDb
