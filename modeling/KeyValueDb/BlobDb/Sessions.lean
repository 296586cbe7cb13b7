import KeyValueDb.BlobDb.Adopt
import KeyValueDb.BlobDb.Runs

/-!
Sessions: an assertion about a mounted store, from the mount or the format that starts it to the end
of the session. What the operations need to know of it is collected once.
-/

namespace KeyValueDb.BlobDb

-- The RAM state does not matter.
def Durable (D : World → Prop) : Prop :=
  ∀ w w' : World, w'.flash = w.flash → w'.history = w.history → D w → D w'

-- `S` is kept by the operations on a mounted store, `D` is what the flash keeps of it.
structure SessionFrame (cfg : Cfg) (good : Event → Prop) (S D : World → Prop) : Prop extends
    OpFrame cfg good S D where
  durable : Durable D
  ram : ∀ w st, w.st.SameMaster st → st.ceilingReset = w.st.ceilingReset →
    w.st.nextId ≤ st.nextId → st.segOwner = w.st.segOwner → S w → S { w with st := st }
  rotate : Keeps good S D D (masterCommitRotate cfg)
  recover : Keeps good S D D (recoverCompaction cfg)

-- The state a mount has when it has adopted a master sector.
def St.adopting (st : St) (p : Pick) (rotGen : Nat) : St :=
  { st with
    activeMaster := p.active
    rotGen := rotGen
    logNext := p.log.endSlot
    logFailed := false
    ceilingReset := false
    nextIdHint := p.record.nextIdHint
    nextId := p.record.nextIdHint
    segOwner := p.record.segOwner
    fuses := p.record.fuses }

-- A session that a mount starts from a flash with `B`.
structure MountFrame (cfg : Cfg) (good : Event → Prop) (B S D : World → Prop) : Prop extends
    SessionFrame cfg good S D where
  start : Durable B
  shape : ∀ w, B w → MastersShape cfg w.flash
  refused : ∀ w, B w → D w
  adopt : ∀ w p, FeaturesOk cfg w.st → B w → Picked cfg w.flash (some p) →
    S { w with st := w.st.adopting p (masterHdrAt (w.flash p.active)).rotGen }
  unusable : ∀ fl, Picked cfg fl none →
    Spec (History good) (fun w => FeaturesOk cfg w.st ∧ Reading B fl w)
      (mountUnusable cfg (viewOf (fl 0)) (viewOf (fl 1))) (.exits S D D)

section

variable {cfg : Cfg} {good : Event → Prop} {B S D : World → Prop}

theorem Durable.stable (h : Durable D) : Stable D := fun w w' q hd => h w w' q.flash q.history hd

theorem Durable.ram (h : Durable D) (w : World) (st : St) (hd : D w) : D { w with st := st } :=
  h w _ rfl rfl hd

theorem mutate_masters {w : World} {sector : Nat} {r : Request} (hs : scratchSector ≤ sector) :
    ∀ s, s ≤ 1 → (w.mutate sector r).flash s = w.flash s := by
  intro s hle
  apply mutate_other
  unfold scratchSector at hs
  omega

theorem aside_true : Aside fun _ => True := ⟨fun _ _ _ _ _ => trivial, fun _ _ _ => trivial⟩

theorem SessionFrame.mono {D' : World → Prop} (F : SessionFrame cfg good S D)
    (hD : ∀ w, D w → D' w) (hdurable : Durable D') : SessionFrame cfg good S D' := by
  have hkeeps : ∀ {α : Type} {x : M α}, Keeps good S S D x → Keeps good S S D' x :=
    fun hx => hx.conseq (fun _ h => h) (fun _ _ h => h) (fun _ _ h => h) hD
  have hmount : ∀ {α : Type} {x : M α}, Keeps good S D D x → Keeps good S D' D' x :=
    fun hx => hx.conseq (fun _ h => h) (fun _ _ h => h) (fun _ w h => hD w h) hD
  exact {
    fails := F.fails
    lost := fun w h => hD w (F.lost w h)
    stable := F.stable
    stableFailed := F.stableFailed
    bucket := fun bid r => hkeeps (F.bucket bid r)
    compact := fun bid => hkeeps (F.compact bid)
    owner := F.owner
    commit := hkeeps F.commit
    alloc := hkeeps F.alloc
    durable := hdurable
    ram := F.ram
    rotate := hmount F.rotate
    recover := hmount F.recover }

/-! The steps of a mount -/

section

variable (F : SessionFrame cfg good S D)

include F

-- Where a mount fails, only the flash counts.
theorem keeps_mounting {α : Type} {x : M α} (hx : Keeps good S S D x) : Keeps good S D D x :=
  hx.conseq (fun _ h => h) (fun _ _ h => h) (fun _ w h => F.lost w h) fun _ h => h

theorem doubtScan_session : Keeps good S S D (doubtScan cfg) := by
  unfold doubtScan
  apply (read_reads _).seq
  intro st
  apply (scanBuckets_reads F.stable _ _ _).seq
  intro maxId
  apply modifySt_spec
  intro w h
  split
  . next hlt =>
    exact F.ram w _ ⟨rfl, rfl, rfl, rfl, rfl, rfl, rfl, rfl, rfl⟩ rfl (Nat.le_of_lt hlt) rfl h
  . exact h

theorem finishUpgrade_session (active : MasterHdr) :
    Keeps good S D D (finishUpgrade cfg active) := by
  unfold finishUpgrade
  apply F.rotate.seq
  intro _
  apply (keeps_mounting F (read_reads _)).seq
  intro st
  exact Spec.when (fun _ h => h) fun _ => F.rotate

theorem endDoubt_session (scanIds endByRotation rotated : Bool) :
    Keeps good S D D (endDoubt cfg scanIds endByRotation rotated) := by
  unfold endDoubt
  split
  . split
    . exact F.rotate
    . exact keeps_mounting F F.commit
  . exact ret_keeps _

theorem bindRootIfMissing_session : Keeps good S S D (bindRootIfMissing cfg) := by
  unfold bindRootIfMissing
  apply (rootIsLive_reads F.stable _).seq
  intro live
  split
  . exact ret_reads _
  . refine modifySt_bind (I := S) ?_ ?_
    . intro w h
      split
      . next hlt =>
        exact F.ram w _ ⟨rfl, rfl, rfl, rfl, rfl, rfl, rfl, rfl, rfl⟩ rfl (Nat.le_of_lt hlt) rfl h
      . exact h
    . intro _
      apply (read_reads _).seq
      intro st
      apply (when_reads F.commit).seq
      intro _
      exact bindRootEmpty_keeps F.toFrame

theorem segGeometryInit_session : Keeps good S S D (segGeometryInit cfg) := by
  unfold segGeometryInit
  apply Spec.seq (I := S)
  . exact Spec.ofExcept (fun _ h => h) fun _ h => h
  . intro ⟨sl, usable⟩
    apply modifySt_spec
    intro w h
    exact F.ram w _ ⟨rfl, rfl, rfl, rfl, rfl, rfl, rfl, rfl, rfl⟩ rfl (Nat.le_refl _) rfl h

theorem mountSegments_session : Keeps good S S D (mountSegments cfg) := by
  unfold mountSegments
  apply (segGeometryInit_session F).seq
  intro _
  apply (read_reads _).seq
  intro st
  exact when_reads (segSweep_keeps F.toOpFrame _)

theorem mounted_session (b : Bool) :
    Keeps good S S D (modifySt fun st => { st with mounted := b }) := by
  apply modifySt_spec
  intro w h
  exact F.ram w _ ⟨rfl, rfl, rfl, rfl, rfl, rfl, rfl, rfl, rfl⟩ rfl (Nat.le_refl _) rfl h

end

/-! Mount -/

section

variable (F : MountFrame cfg good B S D)

include F

theorem mountAdopted_session {fl : Flash} {p : Pick} (hp : Picked cfg fl (some p)) :
    Spec (History good) (fun w => FeaturesOk cfg w.st ∧ Reading B fl w)
      (mountAdopted cfg (viewOf (fl 0)) (viewOf (fl 1)) p) (.exits S D D) := by
  have F' := F.toSessionFrame
  have hrot : (if p.active = 0 then viewOf (fl 0) else viewOf (fl 1)).hdr.rotGen =
      (masterHdrAt (fl p.active)).rotGen := by
    have ha := hp.1.active
    have : p.active = 0 ∨ p.active = 1 := by omega
    rcases this with h | h <;> simp [h, viewOf]
  unfold mountAdopted
  simp only
  rw [hrot]
  refine Spec.seq (I := S) ?_ ?_
  . unfold adoptMaster
    apply modifySt_spec
    rintro w ⟨hf, hb, hfl⟩
    subst hfl
    exact F.adopt w p hf hb hp
  . intro _
    apply F.recover.seq
    intro _
    apply (keeps_mounting F' (read_reads _)).seq
    intro damage
    apply Spec.seq (I := S)
    . exact Spec.when (fun _ h => h) fun _ => keeps_mounting F' (doubtScan_session F')
    . intro _
      apply Spec.seq (I := S)
      . exact Spec.when (fun _ h => h) fun _ => finishUpgrade_session F' _
      . intro _
        exact endDoubt_session F' _ _ _

theorem mountOpened_session : Spec (History good) B (mountOpened cfg) (.exits S D D) := by
  have F' := F.toSessionFrame
  have hstable := F.start.stable
  have hgiven : ∀ w, B w → ∃ fl, Reading B fl w := fun w h => ⟨w.flash, h, rfl⟩
  refine Spec.pre (Spec.given fun fl => ?_) hgiven
  apply Spec.assuming (φ := MastersShape cfg fl)
  . exact fun w h => h.2 ▸ F.shape w h.1
  intro hs
  unfold mountOpened
  apply (masterClassify_answers (C := D) hstable masterASector).bind
  . intro a
    apply Spec.assuming (φ := a = (masterClassOf (fl 0), masterHdrAt (fl 0)))
    . exact fun _ h => h.1
    rintro rfl
    refine Spec.pre ?_ fun w h => h.2
    apply (masterClassify_answers (C := D) hstable masterBSector).bind
    . intro a
      apply Spec.assuming (φ := a = (masterClassOf (fl 1), masterHdrAt (fl 1)))
      . exact fun _ h => h.1
      rintro rfl
      refine Spec.pre ?_ fun w h => h.2
      apply Spec.seq (I := S)
      . apply mountViews_spec hstable F.start.ram hs
        . exact fun _ w h => F.refused w h.1
        . exact F.unusable fl
        . exact fun p hp => mountAdopted_session F hp
      . intro _
        apply (keeps_mounting F' (bindRootIfMissing_session F')).seq
        intro _
        apply (keeps_mounting F' (mounted_session F' true)).seq
        intro _
        exact keeps_mounting F' (when_reads (mountSegments_session F'))
    . exact fun _ w h => F.refused w h.1
    . exact fun _ h => h
  . exact fun _ w h => F.refused w h.1
  . exact fun _ h => h

end

def Unmounted (D : World → Prop) (w : World) : Prop := D w ∧ w.st.mounted = false

theorem Durable.unmounted (h : Durable D) : Stable (Unmounted D) :=
  fun w w' q hd => ⟨h.stable w w' q hd.1, q.mounted.trans hd.2⟩

-- A store that is not mounted is validated first.
theorem mountImpl_session (hB : Durable B) (hD : Durable D) (hrefused : ∀ w, B w → D w)
    (F : cfg.Valid → MountFrame cfg good B S D) :
    Spec (History good) (Unmounted B) (mountImpl cfg)
      (.exits (fun w => S w ∧ cfg.Valid) (Unmounted D) D) := by
  unfold mountImpl
  apply getSt_bind
  intro st
  split
  . exact Spec.fail fun w h => ⟨hrefused w h.2.1, h.2.2⟩
  . apply Spec.seq (I := Unmounted B)
    . exact (idxInvalidate_reads hB.unmounted).pre fun w h => h.2
    . intro _
      refine modifySt_bind (I := Unmounted B) (fun w h => ⟨hB.ram w _ h.1, h.2⟩) ?_
      intro _
      apply Spec.ofExcept_bind
      . exact fun _ _ w h => ⟨hrefused w h.1, h.2⟩
      . intro _ hvalid
        have hv := Cfg.valid_of_validate hvalid
        apply Spec.seq (I := Unmounted B) (sidx_reads hB.unmounted _)
        intro _
        apply Spec.caught (I := S) (E := D)
        . exact (mountOpened_session (F hv)).pre fun _ h => h.1
        . exact fun _ => Spec.ret fun _ h => ⟨h, hv⟩
        . intro e
          refine modifySt_bind (I := Unmounted D) (fun w h => ⟨hD.ram w _ h, rfl⟩) ?_
          intro _
          apply Spec.seq (I := Unmounted D) (sidx_reads hD.unmounted _)
          intro _
          exact Spec.fail fun _ h => h
        . exact fun _ h => h

theorem unmountImpl_session (hD : Durable D) :
    Spec (History good) D (unmountImpl cfg) (.exits (Unmounted D) (fun _ => False) D) := by
  unfold unmountImpl
  apply getSt_bind
  intro st
  split
  . next hm =>
    exact Spec.ret fun w h => ⟨h.2, by rw [h.1]; simpa using hm⟩
  . refine modifySt_bind (I := Unmounted D) (fun w h => ⟨hD.ram w _ h.2, rfl⟩) ?_
    intro _
    apply Spec.seq (I := Unmounted D) (idxInvalidate_reads hD.unmounted)
    intro _
    exact sidx_reads hD.unmounted _

/-! Format -/

def MastersNotOk (w : World) : Prop := NotOk (w.flash masterASector) ∧ NotOk (w.flash masterBSector)

theorem mastersNotOk_shape {w : World} (k : Prop) (h : MastersNotOk w) :
    k → MastersShape cfg w.flash :=
  fun _ => MastersShape.of_notOk (show masterASector ≤ 1 by decide) h.1 (.inl h.2)

theorem mastersNotOk_data (cfg : Cfg) {good : Event → Prop} (k : Prop) :
    DataFrame good MastersNotOk fun w => k → MastersShape cfg w.flash where
  lost _ h := mastersNotOk_shape k h
  stable w w' q h := by
    unfold MastersNotOk
    rw [q.flash]
    exact h
  data sector r hs := by
    have hkeep : ∀ w, MastersNotOk w → MastersNotOk (w.mutate sector r) := by
      intro w h
      unfold MastersNotOk
      rw [mutate_masters hs _ (by decide), mutate_masters hs _ (by decide)]
      exact h
    apply storeMutate_spec
    . exact fun w h _ _ => hkeep w h
    . exact fun w _ _ h _ _ => hkeep w h
    . exact fun w _ _ h _ _ => mastersNotOk_shape k (hkeep w h)
  wedge _ h := h

-- What a format does before it writes the master sectors. Where `k` fails, nothing is known of the
-- sectors before.
theorem storeEraseAll_masters (hv : cfg.Valid) (hgood : ∀ e, good e → MasterEventHonest cfg e)
    (k : Prop) :
    Spec (History good) (fun w => k → MastersShape cfg w.flash) (storeEraseAll cfg.nPebs 0)
      (.exits MastersNotOk (fun w => k → MastersShape cfg w.flash)
        fun w => k → MastersShape cfg w.flash) := by
  have hpebs : ∃ n, cfg.nPebs = n + 2 := ⟨cfg.nPebs - 2, by
    have := hv.pebs
    unfold firstBucket at this
    omega⟩
  obtain ⟨n, hn⟩ := hpebs
  have hA : Spec (History good)
      (fun w => (k → MastersShape cfg w.flash) ∧ True ∧ True) (storeErase masterASector) _ :=
    storeErase_shape hgood aside_true (show masterASector ≤ 1 by decide) fun _ => True
  have hB : Spec (History good)
      (fun w => (k → MastersShape cfg w.flash) ∧ w.flash masterASector = blank ∧ True)
      (storeErase masterBSector) _ :=
    storeErase_shape hgood aside_true (show masterBSector ≤ 1 by decide) (· = blank)
  rw [hn]
  unfold storeEraseAll
  apply (hA.pre fun w h => ⟨h, trivial, trivial⟩).bind
  . intro _
    unfold storeEraseAll
    apply (hB.pre fun w h => ⟨h.1, h.2.1.1, trivial⟩).bind
    . intro _
      apply (storeEraseAll_data (mastersNotOk_data cfg k) n _ (Nat.le_refl _)).conseq
      . intro w h
        have hA : w.flash masterASector = blank := h.2.1.2
        exact ⟨hA ▸ notOk_blank, h.2.1.1 ▸ notOk_blank⟩
      . exact fun _ _ h => h
      . exact fun _ w h => mastersNotOk_shape k h
      . exact fun _ h => h
    . exact fun _ _ h => h.1
    . exact fun _ h => h.1
  . exact fun _ _ h => h.1
  . exact fun _ h => h.1

section

variable (hv : cfg.Valid) (hgood : ∀ e, good e → MasterEventHonest cfg e)
  (F : Frame cfg good S S D) (hD : ∀ w, D w → MastersShape cfg w.flash)
  (hfresh : Spec (History good) MastersNotOk (masterFormat cfg)
    (.exits S (fun w => MastersShape cfg w.flash) fun w => MastersShape cfg w.flash))

include F hD in
theorem bindRootEmpty_format (k : Prop) :
    Spec (History good) S (bindRootEmpty cfg)
      (.exits S (fun w => k → MastersShape cfg w.flash) fun w => k → MastersShape cfg w.flash) :=
  (bindRootEmpty_keeps F).conseq (fun _ h => h) (fun _ _ h => h)
    (fun _ w h _ => hD w (F.lost w h)) fun w h _ => hD w h

include hfresh in
theorem masterFormat_format (k : Prop) :
    Spec (History good) MastersNotOk (masterFormat cfg)
      (.exits S (fun w => k → MastersShape cfg w.flash) fun w => k → MastersShape cfg w.flash) :=
  hfresh.conseq (fun _ h => h) (fun _ _ h => h) (fun _ _ h _ => h) fun _ h _ => h

include F hD hfresh

theorem formatMastersFresh_session :
    Spec (History good) MastersNotOk (formatMastersFresh cfg)
      (.exits S (fun w => True → MastersShape cfg w.flash)
        fun w => True → MastersShape cfg w.flash) := by
  have D : DataFrame good MastersNotOk fun w => True → MastersShape cfg w.flash :=
    mastersNotOk_data cfg True
  unfold formatMastersFresh
  apply Spec.seq (I := MastersNotOk)
  . apply (invalidateFrom_keeps D.frame _ _ _).conseq (fun _ h => h)
    . exact fun _ _ h => h
    . exact fun _ w h => mastersNotOk_shape True h
    . exact fun _ h => h
  . intro _
    apply (masterFormat_format hfresh True).seq
    intro _
    exact bindRootEmpty_format F hD True

include hv hgood

theorem formatWholeStore_session (k : Prop) :
    Spec (History good) (fun w => k → MastersShape cfg w.flash) (formatWholeStore cfg)
      (.exits S (fun w => k → MastersShape cfg w.flash) fun w => k → MastersShape cfg w.flash) := by
  have hstable : Stable fun w : World => k → MastersShape cfg w.flash := by
    intro w w' q h
    rw [q.flash]
    exact h
  unfold formatWholeStore
  apply (idxInvalidate_reads hstable).seq
  intro _
  apply (sidx_reads hstable _).seq
  intro _
  refine modifySt_bind (I := fun w => k → MastersShape cfg w.flash) (fun _ h => h) ?_
  intro _
  apply (storeEraseAll_masters hv hgood k).seq
  intro _
  apply (masterFormat_format hfresh k).seq
  intro _
  exact bindRootEmpty_format F hD k

theorem mountUnusable_session {fl : Flash} (hB : ∀ w, B w → MastersShape cfg w.flash)
    (hshape : ∀ w, MastersShape cfg w.flash → D w) :
    Spec (History good) (fun w => FeaturesOk cfg w.st ∧ Reading B fl w)
      (mountUnusable cfg (viewOf (fl 0)) (viewOf (fl 1))) (.exits S D D) := by
  unfold mountUnusable
  split
  . next herased =>
    have hnot : ∀ buf, (viewOf buf).cls = .erased → NotOk buf := by
      intro buf h
      have h : masterClassOf buf = .erased := h
      unfold NotOk
      rw [h]
      decide
    apply (formatMastersFresh_session F hD hfresh).conseq
    . intro w h
      unfold MastersNotOk
      rw [h.2.2]
      exact ⟨hnot _ herased.1, hnot _ herased.2⟩
    . exact fun _ _ h => h
    . exact fun _ w h => hshape w (h trivial)
    . exact fun w h => hshape w (h trivial)
  . split
    . apply (formatWholeStore_session hv hgood F hD hfresh True).conseq
      . exact fun w h _ => hB w h.2.1
      . exact fun _ _ h => h
      . exact fun _ w h => hshape w (h trivial)
      . exact fun w h => hshape w (h trivial)
    . exact Spec.fail fun w h => hshape w (hB w h.2.1)

end

/-! A format of a mounted store in which nothing reports an error before the masters are written -/

-- None of the next `n` writes and erases reports an error.
def NoErrors (n : Nat) (w : World) : Prop := ∀ f ∈ w.faults.take n, f.isError = false

theorem storeMutate_noErrors (n sector : Nat) (r : Request) :
    Spec (History good) (NoErrors (n + 1)) (storeMutate sector r)
      (.exits (NoErrors n) (fun _ => False) fun _ => True) := by
  have htail : ∀ w, NoErrors (n + 1) w → NoErrors n (w.mutate sector r) := by
    intro w h f hf
    apply h f
    show f ∈ w.faults.take (n + 1)
    have hf : f ∈ w.faults.tail.take n := hf
    cases hw : w.faults with
    | nil => simp [hw] at hf
    | cons g rest =>
      rw [hw] at hf
      exact List.mem_cons_of_mem _ hf
  apply storeMutate_spec
  . exact fun w h _ _ => htail w h
  . intro w part upper h hf _
    cases hw : w.faults with
    | nil => simp [World.nextFault, hw] at hf
    | cons g rest =>
      have hg : g = .error part upper := by simpa [World.nextFault, hw] using hf
      have := h g (by simp [hw])
      rw [hg] at this
      cases this
  . exact fun _ _ _ _ _ _ => trivial

-- The store writes that a replaced sector takes.
def replaceSteps (cfg : Cfg) : Nat := if cfg.replaceIsAtomic then 1 else 2

theorem storeReplace_noErrors (n sector : Nat) (data : List UInt8) :
    Spec (History good) (NoErrors (n + replaceSteps cfg)) (storeReplace cfg sector data)
      (.exits (NoErrors n) (fun _ => False) fun _ => True) := by
  unfold storeReplace replaceSteps
  split
  . exact storeMutate_noErrors n _ _
  . apply (storeMutate_noErrors (n + 1) _ _).seq
    intro _
    exact storeMutate_noErrors n _ _

theorem storeEraseAll_noErrors (k n sector : Nat) :
    Spec (History good) (NoErrors (k + n)) (storeEraseAll n sector)
      (.exits (NoErrors k) (fun _ => False) fun _ => True) := by
  induction n generalizing sector with
  | zero => exact ret_keeps _
  | succ n ih =>
    unfold storeEraseAll
    apply (storeMutate_noErrors (k + n) _ _).seq
    intro _
    exact ih _

theorem masterFormat_noErrors :
    Spec (History good) (NoErrors (2 * replaceSteps cfg)) (masterFormat cfg)
      (.exits (fun _ => True) (fun _ => False) fun _ => True) := by
  have hram : ∀ (n : Nat) (f : St → St) (α : Type) (g : Unit → M α) (I : World → Prop),
      (∀ a, Spec (History good) (NoErrors n) (g a) (.exits I (fun _ => False) fun _ => True)) →
      Spec (History good) (NoErrors n) (modifySt f >>= g)
        (.exits I (fun _ => False) fun _ => True) :=
    fun n f α g I hg => modifySt_bind (I := NoErrors n) (fun _ h => h) hg
  have hwrite : ∀ n slot rotGen r, Spec (History good) (NoErrors (n + replaceSteps cfg))
      (masterWriteSector cfg slot rotGen r)
      (.exits (NoErrors n) (fun _ => False) fun _ => True) := by
    intro n slot rotGen r
    unfold masterWriteSector
    apply getSt_bind
    intro st
    exact (storeReplace_noErrors n _ _).pre fun w h => h.2
  unfold masterFormat
  apply hram
  intro _
  apply getSt_bind
  intro st
  refine Spec.pre ?_ fun w h => h.2
  apply hram
  intro _
  rw [Nat.two_mul]
  apply (hwrite _ _ _ _).seq
  intro _
  have hlast := hwrite 0 masterASector 2 (masterRecFill st)
  rw [Nat.zero_add] at hlast
  apply hlast.seq
  intro _
  exact modifySt_spec fun _ _ => trivial

-- The store writes of a format up to the one that makes it.
def formatSteps (cfg : Cfg) : Nat := 2 * replaceSteps cfg + cfg.nPebs

theorem formatWholeStore_undisturbed (hv : cfg.Valid)
    (hgood : ∀ e, good e → MasterEventHonest cfg e) (F : Frame cfg good S S D)
    (hD : ∀ w, D w → MastersShape cfg w.flash)
    (hfresh : Spec (History good) MastersNotOk (masterFormat cfg)
      (.exits S (fun w => MastersShape cfg w.flash) fun w => MastersShape cfg w.flash)) :
    Spec (History good) (fun w => MastersShape cfg w.flash ∧ NoErrors (formatSteps cfg) w)
      (formatWholeStore cfg) (.exits S S fun w => MastersShape cfg w.flash) := by
  have hstable : Stable fun w : World =>
      MastersShape cfg w.flash ∧ NoErrors (formatSteps cfg) w := by
    intro w w' q h
    unfold NoErrors
    rw [q.flash, q.faults]
    exact h
  have hany : ∀ {x : M Unit} {P P' I I' J C C' : World → Prop},
      Spec (History good) P x (.exits I J C) →
      Spec (History good) P' x (.exits I' (fun _ => False) C') →
      Spec (History good) (fun w => P w ∧ P' w) x (.exits (fun w => I w ∧ I' w) S C) :=
    fun h h' => (h.both h').conseq (fun _ h => h) (fun _ _ h => h) (fun _ _ h => h.2.elim)
      fun _ h => h.1
  unfold formatWholeStore
  apply Spec.seq (idxInvalidate_reads hstable)
  intro _
  apply Spec.seq (sidx_reads hstable _)
  intro _
  refine modifySt_bind (I := fun w => MastersShape cfg w.flash ∧ NoErrors (formatSteps cfg) w)
    (fun _ h => h) ?_
  intro _
  have herase := hany (storeEraseAll_masters hv hgood True)
    (storeEraseAll_noErrors (2 * replaceSteps cfg) cfg.nPebs 0)
  apply Spec.seq (I := fun w => MastersNotOk w ∧ NoErrors (2 * replaceSteps cfg) w)
  . apply herase.conseq
    . exact fun w h => ⟨fun _ => h.1, h.2⟩
    . exact fun _ _ h => h
    . exact fun _ _ h => h
    . exact fun _ h => h trivial
  intro _
  apply Spec.seq (hany hfresh masterFormat_noErrors)
  intro _
  apply (bindRootEmpty_keeps F).conseq (fun _ h => h.1)
  . exact fun _ _ h => h
  . exact fun _ _ h => h
  . exact fun w h => hD w h

/-! A format and what comes before and after it -/

-- Between calls: the session while the store is mounted, what the flash keeps of it always.
structure Between (cfg : Cfg) (S D : World → Prop) (w : World) : Prop where
  durable : D w
  mounted : w.st.mounted = true → S w ∧ cfg.Valid

theorem Unmounted.between {w : World} (h : Unmounted D w) : Between cfg S D w := by
  refine ⟨h.1, ?_⟩
  intro hm
  rw [h.2] at hm
  cases hm

-- A format that fails leaves a store unmounted that was.
theorem mounted_data (b : Bool) :
    DataFrame good (fun w => w.st.mounted = b) fun _ => True where
  lost _ _ := trivial
  stable _ _ q h := q.mounted.trans h
  data _ _ _ := storeMutate_spec (fun _ h _ _ => h) (fun _ _ _ h _ _ => h) fun _ _ _ _ _ _ => trivial
  wedge _ h := h

theorem storeMutate_mounted (b : Bool) (sector : Nat) (r : Request) :
    Keeps good (fun w => w.st.mounted = b) (fun w => w.st.mounted = b) (fun _ => True)
      (storeMutate sector r) :=
  storeMutate_spec (fun _ h _ _ => h) (fun _ _ _ h _ _ => h) fun _ _ _ _ _ _ => trivial

theorem storeEraseAll_mounted (b : Bool) (n sector : Nat) :
    Keeps good (fun w => w.st.mounted = b) (fun w => w.st.mounted = b) (fun _ => True)
      (storeEraseAll n sector) := by
  induction n generalizing sector with
  | zero => exact ret_keeps _
  | succ n ih =>
    unfold storeEraseAll
    apply (storeMutate_mounted b _ _).seq
    intro _
    exact ih _

theorem masterFormat_mounted (b : Bool) :
    Keeps good (fun w => w.st.mounted = b) (fun w => w.st.mounted = b) (fun _ => True)
      (masterFormat cfg) := by
  have hwrite : ∀ slot rotGen r, Keeps good (fun w => w.st.mounted = b)
      (fun w => w.st.mounted = b) (fun _ => True) (masterWriteSector cfg slot rotGen r) := by
    intro slot rotGen r
    unfold masterWriteSector
    apply (read_reads _).seq
    intro st
    unfold storeReplace
    split
    . exact storeMutate_mounted b _ _
    . exact (storeMutate_mounted b _ _).seq fun _ => storeMutate_mounted b _ _
  unfold masterFormat
  refine modifySt_bind (I := fun w => w.st.mounted = b) (fun _ h => h) ?_
  intro _
  apply (read_reads _).seq
  intro st
  refine modifySt_bind (I := fun w => w.st.mounted = b) (fun _ h => h) ?_
  intro _
  apply (hwrite _ _ _).seq
  intro _
  apply (hwrite _ _ _).seq
  intro _
  exact modifySt_spec fun _ h => h

theorem formatWholeStore_mounted (b : Bool) :
    Keeps good (fun w => w.st.mounted = b) (fun w => w.st.mounted = b) (fun _ => True)
      (formatWholeStore cfg) := by
  have D : DataFrame good _ _ := mounted_data b
  unfold formatWholeStore
  apply (idxInvalidate_reads D.stable).seq
  intro _
  apply (sidx_reads D.stable _).seq
  intro _
  refine modifySt_bind (I := fun w => w.st.mounted = b) (fun _ h => h) ?_
  intro _
  apply (storeEraseAll_mounted b _ _).seq
  intro _
  apply (masterFormat_mounted b).seq
  intro _
  exact bindRootEmpty_keeps D.frame

section

variable (hgood : ∀ e, good e → MasterEventHonest cfg e)
  (F : cfg.Valid → SessionFrame cfg good S D) (hD : ∀ w, D w → MastersShape cfg w.flash)
  (hfresh : cfg.Valid → Spec (History good) MastersNotOk (masterFormat cfg)
    (.exits S (fun w => MastersShape cfg w.flash) fun w => MastersShape cfg w.flash))

include hgood F hD hfresh

theorem formatImpl_unmounted (k : Prop) :
    Spec (History good) (Unmounted fun w => k → MastersShape cfg w.flash) (formatImpl cfg)
      (.exits (fun w => S w ∧ cfg.Valid) (Unmounted fun w => k → MastersShape cfg w.flash)
        fun w => k → MastersShape cfg w.flash) := by
  unfold formatImpl
  apply getSt_bind
  intro st
  split
  . next hm =>
    intro w h
    have : w.st.mounted = false := h.2.2
    rw [h.1, hm] at this
    cases this
  . apply Spec.ofExcept_bind
    . exact fun _ _ w h => h.2
    . intro _ hvalid
      have hv := Cfg.valid_of_validate hvalid
      have F := F hv
      have hformat := (formatWholeStore_session hv hgood F.toFrame hD (hfresh hv) k).both
        (formatWholeStore_mounted false)
      apply Spec.seq (I := S)
      . apply hformat.conseq
        . exact fun w h => ⟨h.2.1, h.2.2⟩
        . exact fun _ _ h => h.1
        . exact fun _ _ h => h
        . exact fun _ h => h.1
      . intro _
        apply Spec.seq (I := S)
        . apply modifySt_spec
          intro w h
          exact F.ram w _ ⟨rfl, rfl, rfl, rfl, rfl, rfl, rfl, rfl, rfl⟩ rfl (Nat.le_refl _) rfl h
        . intro _
          unfold Proc.when
          split
          . apply (segGeometryInit_session F).caught
            . exact fun _ => Spec.ret fun _ h => ⟨h, hv⟩
            . intro e
              refine modifySt_bind (I := Unmounted fun w => k → MastersShape cfg w.flash) ?_ ?_
              . exact fun w h => ⟨fun _ => hD w (F.lost w h), rfl⟩
              . exact fun _ => Spec.fail fun _ h => h
            . exact fun w h _ => hD w h
          . exact Spec.ret fun _ h => ⟨h, hv⟩

theorem formatImpl_mounted (hv : cfg.Valid) :
    Spec (History good)
      (fun w => w.st.mounted = true ∧ MastersShape cfg w.flash ∧ NoErrors (formatSteps cfg) w)
      (formatImpl cfg) (.exits S S fun w => MastersShape cfg w.flash) := by
  unfold formatImpl
  apply getSt_bind
  intro st
  split
  . exact (formatWholeStore_undisturbed hv hgood (F hv).toFrame hD (hfresh hv)).pre
      fun w h => h.2.2
  . next hm =>
    intro w h
    exact absurd (h.1 ▸ h.2.1) hm

end

end

end KeyValueDb.BlobDb
