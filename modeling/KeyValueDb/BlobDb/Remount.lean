import KeyValueDb.BlobDb.Ceiling
import KeyValueDb.BlobDb.Commits
import KeyValueDb.BlobDb.Durability
import KeyValueDb.BlobDb.Picks
import KeyValueDb.BlobDb.Refusal

/-!
Mounts and formats of a store that outlives power cuts. A mount restores what a compaction left, ends a
doubt and finishes an upgrade, and serves the map the flash stores; a format serves the empty map with
the root bound. Both fail for no other reason than a rotation counter that has run out.
-/

namespace KeyValueDb.BlobDb

section

variable {cfg : Cfg} {good : Event → Prop} {m m' : Contents} {w : World} {fl : Flash} {C : World → Prop}

theorem Awake.ram {st : St} (h : Awake w) (ha : st.activeMaster ≤ 1) (hw : st.wedged = false) :
    Awake { w with st := st } := ⟨ha, h.reads, hw⟩

theorem Serving.ram {st : St} (h : Serving cfg m w) (ha : st.activeMaster ≤ 1) (hw : st.wedged = false) :
    Serving cfg m { w with st := st } := ⟨h.awake.ram ha hw, h.holds, h.scratch, h.unsealed⟩

theorem Resting.ram {st : St} (h : Resting cfg m w) (ha : st.activeMaster ≤ 1) (hw : st.wedged = false) :
    Resting cfg m { w with st := st } := ⟨h.1.ram ha hw, h.2⟩

-- A write to a master sector.
theorem Serving.master_write {slot : Nat} {r : Request} (hs : slot ≤ 1) (h : Serving cfg m w) :
    Serving cfg m (w.mutate slot r) := by
  have hscratch : (w.mutate slot r).flash scratchSector = w.flash scratchSector :=
    mutate_other (by unfold scratchSector; omega)
  have hbucket : ∀ b, (w.mutate slot r).flash (bucketSector b) = w.flash (bucketSector b) :=
    fun b => mutate_other (by unfold bucketSector firstBucket; omega)
  refine ⟨h.awake.mutate _ _, h.holds.congr hbucket, hscratch ▸ h.scratch, ?_⟩
  unfold Unsealed
  rw [hscratch]
  exact h.unsealed

theorem serving_neutral : Neutral good (Serving cfg m) fun w => Stores cfg m w.flash where
  active _ h := h.awake.active
  ram w st hst h := h.ram hst.active (hst.wedged.trans h.awake.wedged)
  note _ _ h := ⟨⟨h.awake.active, h.awake.reads, h.awake.wedged⟩, h.holds, h.scratch, h.unsealed⟩
  master slot r hs := by
    apply storeMutate_spec
    . exact fun _ h _ _ => h.master_write hs
    . exact fun _ _ _ h _ _ => h.master_write hs
    . exact fun _ _ _ h _ _ => (h.master_write hs).stores

/-! Commits -/

-- A step that fails only where the rotation counter has run out.
abbrev RunsOut (good : Event → Prop) {α : Type} (x : M α) : Prop :=
  Spec (History good) (fun _ => True) x
    ⟨fun _ _ => True, fun e w => e = .ENOSPC ∧ w.st.rotGen = 2 ^ 32 - 1, fun _ => True⟩

-- What a commit leaves of a store that serves `m`.
def Committing (cfg : Cfg) (m : Contents) {α : Type} : Post World Errno α :=
  ⟨fun _ => Serving cfg m, fun e w => (e = .ENOSPC ∧ w.st.rotGen = 2 ^ 32 - 1) ∧ Serving cfg m w,
    fun w => Stores cfg m w.flash⟩

theorem runsOut_of_neverFails {α : Type} {x : M α} (h : NeverFails good x) : RunsOut good x :=
  Spec.conseq h (fun _ h => h) (fun _ _ h => h) (fun _ _ h => h.elim) fun _ h => h

theorem RunsOut.seq {α β : Type} {x : M α} {g : α → M β} (hx : RunsOut good x) (hg : ∀ a, RunsOut good (g a)) :
    RunsOut good (x >>= g) :=
  Spec.bind hx hg (fun _ _ h => h) fun _ h => h

theorem committing_of {α : Type} {x : M α}
    (hn : Keeps good (Serving cfg m) (Serving cfg m) (fun w => Stores cfg m w.flash) x)
    (hx : RunsOut good x) : Spec (History good) (Serving cfg m) x (Committing cfg m) :=
  (hn.both hx).conseq (fun _ h => ⟨h, trivial⟩) (fun _ _ h => h.1) (fun _ _ h => ⟨h.2, h.1⟩) fun _ h => h.1

section

variable (hpow : ∀ u, good (.mutation u) → u.fault.isError = false)

include hpow

theorem masterRotate_runsOut (r : MasterRec) : RunsOut good (masterRotate cfg r) := by
  unfold masterRotate
  apply getSt_bind
  intro st
  simp only
  split
  . next hrot =>
    apply Spec.fail
    rintro w ⟨rfl, -⟩
    exact ⟨rfl, hrot⟩
  . refine Spec.pre ?_ fun _ _ => trivial
    have hwrite : RunsOut good (masterWriteSector cfg (1 - st.activeMaster) (st.rotGen + 1) r) := by
      unfold masterWriteSector
      apply getSt_bind
      intro st
      exact (runsOut_of_neverFails (storeReplace_neverFails hpow _ _)).pre fun _ _ => trivial
    exact hwrite.seq fun _ => modifySt_spec fun _ _ => trivial

theorem masterAppend_neverFails (r : MasterRec) : NeverFails good (masterAppend cfg r) := by
  unfold masterAppend
  apply getSt_bind
  intro st
  refine Spec.pre ?_ fun _ _ => trivial
  apply Spec.caught (storeMutate_neverFails hpow _ _)
  . intro _
    exact (modifySt_neverFails _).seq fun _ => Spec.ret fun _ h => h
  . exact fun e w h _ => h.elim
  . exact fun _ h => h

theorem masterCommitHow_runsOut (force : Bool) : RunsOut good (masterCommitHow cfg force) := by
  unfold masterCommitHow
  apply getSt_bind
  intro st
  refine Spec.pre ?_ fun _ _ => trivial
  have hcommit : RunsOut good (if force || (st.logFailed || cfg.logCap ≤ st.logNext)
      then masterRotate cfg (masterRecFill st) else masterAppend cfg (masterRecFill st)) := by
    split
    . exact masterRotate_runsOut hpow _
    . exact runsOut_of_neverFails (masterAppend_neverFails hpow _)
  apply hcommit.attempt.bind
  . rintro (e | _)
    . apply modifySt_bind (I := fun w => e = .ENOSPC ∧ w.st.rotGen = 2 ^ 32 - 1)
      . exact fun _ h => h
      . exact fun _ => Spec.fail fun _ h => h
    . exact (modifySt_neverFails _).bind
        (fun _ => runsOut_of_neverFails (modifySt_neverFails _)) (fun _ _ h => h.elim) fun _ h => h
  . exact fun _ _ h => h.elim
  . exact fun _ h => h

theorem masterCommitHow_serves (force : Bool) :
    Spec (History good) (Serving cfg m) (masterCommitHow cfg force) (Committing cfg m) :=
  committing_of (masterCommitHow_neutral serving_neutral force) (masterCommitHow_runsOut hpow force)

theorem finishUpgrade_serves (active : MasterHdr) :
    Spec (History good) (Serving cfg m) (finishUpgrade cfg active) (Committing cfg m) := by
  apply committing_of (finishUpgrade_neutral serving_neutral active)
  unfold finishUpgrade
  apply (masterCommitHow_runsOut hpow true).seq
  intro _
  apply getSt_bind
  intro st
  refine Spec.pre ?_ fun _ _ => trivial
  unfold Proc.when
  split
  . exact masterCommitHow_runsOut hpow true
  . exact Spec.ret fun _ h => h

theorem endDoubt_serves (scanIds endByRotation rotated : Bool) :
    Spec (History good) (Serving cfg m) (endDoubt cfg scanIds endByRotation rotated) (Committing cfg m) := by
  unfold endDoubt
  split
  . split
    . exact masterCommitHow_serves hpow true
    . exact masterCommitHow_serves hpow false
  . exact Spec.ret fun _ h => h

theorem allocIdImpl_serves :
    Steps good (Serving cfg m) (allocIdImpl cfg) (fun _ => Serving cfg m) fun w => Stores cfg m w.flash := by
  have hnever : NeverFails good (allocIdImpl cfg) := by
    unfold allocIdImpl
    apply getSt_bind
    intro st
    refine Spec.pre ?_ fun _ _ => trivial
    split
    . exact Spec.ret fun _ h => h
    have hcommit : RunsOut good (if st.nextIdHint ≤ st.nextId then persistNextIdHint cfg else pure ()) := by
      split
      . exact masterCommitHow_runsOut hpow false
      . exact Spec.ret fun _ h => h
    apply hcommit.attempt.bind
    . rintro (e | _)
      . exact Spec.ret fun _ _ => trivial
      . have hnote : NeverFails good (noteAlloc st.nextId) := noteAlloc_spec fun _ _ _ => trivial
        exact (modifySt_neverFails _).seq fun _ => hnote.seq fun _ => Spec.ret fun _ h => h
    . exact fun _ _ h => h.elim
    . exact fun _ h => h
  exact ((allocIdImpl_neutral serving_neutral).both hnever).conseq (fun _ h => ⟨h, trivial⟩) (fun _ _ h => h.1)
    (fun _ _ h => h.2) fun _ h => h.1

/-! The scan that ends a doubt -/

omit hpow

theorem scanBucketIds_shows (bid n cursor maxId : Nat) :
    Shows good cfg m fl C (scanBucketIds cfg bid n cursor maxId) fun _ => True := by
  induction n generalizing cursor maxId with
  | zero => exact tells_ret trivial
  | succ n ih =>
    unfold scanBucketIds
    split
    . exact tells_ret trivial
    apply tells_bind (storeRead_tells serving_stable.readClosed serving_failsTo _ _ _)
    intro raw _
    simp only
    split
    . exact tells_ret trivial
    apply tells_bind (sidx_when_tells serving_stable _ _)
    intro _ _
    split
    . exact tells_ret trivial
    apply tells_bind (storeRead_tells serving_stable.readClosed serving_failsTo _ _ _)
    intro rawId _
    apply tells_bind (sidx_tells serving_stable _)
    exact fun _ _ => ih _ _

theorem scanBuckets_shows (n bid maxId : Nat) :
    Shows good cfg m fl C (scanBuckets cfg n bid maxId) fun _ => True := by
  induction n generalizing bid maxId with
  | zero => exact tells_ret trivial
  | succ n ih =>
    unfold scanBuckets scanBucket
    have hone : Shows good cfg m fl C (do
        let hdr ← storeRead (bucketSector bid) 0 bucketDataOff
        if !bucketHdrValid (image hdr) bid then pure maxId
        else do
          sidxBegin cfg bid bucketDataOff
          scanBucketIds cfg bid cfg.pebSize bucketDataOff maxId) fun _ => True := by
      apply tells_bind (storeRead_tells serving_stable.readClosed serving_failsTo _ _ _)
      intro hdr _
      split
      . exact tells_ret trivial
      . apply tells_bind (sidx_tells serving_stable _)
        exact fun _ _ => scanBucketIds_shows _ _ _ _
    exact tells_bind hone fun _ _ => ih _ _

theorem doubtScan_serves :
    Steps good (Serving cfg m) (doubtScan cfg) (fun _ => Serving cfg m) C := by
  unfold doubtScan
  apply getSt_bind
  intro st w h
  have hscan : Shows good cfg m w.flash C (scanBuckets cfg cfg.nBuckets 0 (st.nextId - 1)) fun _ => True :=
    scanBuckets_shows _ _ _
  refine (hscan.andThen (R := ⟨fun _ => Serving cfg m, fun _ _ => False, C⟩) ?_) w (reading_serving h.2)
  intro maxId _
  apply modifySt_spec
  rintro w' ⟨h', -⟩
  split
  . exact h'.ram h'.awake.active h'.awake.wedged
  . exact h'

/-! Mount -/

theorem Adopts.pick {p : Pick} (h : Adopts cfg fl p) : pickOf cfg fl = some p := by
  have hread : ∀ w : World, w.readFaults = [] → w.readFaults.tail = [] := by
    intro w hw
    rw [hw]
    rfl
  have hnone : FailsTo (fun w => w.readFaults = []) fun _ => False := by
    intro w hw hf
    rw [hw] at hf
    cases hf
  have hspec : Tells AnyEvent (fun w => w.readFaults = []) (fun _ => False) fl (fun _ => False)
      (masterPick cfg (viewOf (fl 0)) (viewOf (fl 1))) (· = pickOf cfg fl) fun _ => False :=
    masterPick_tells hread hnone
  have hrun := hspec (World.fresh fl) ⟨rfl, rfl⟩ fun _ _ => trivial
  rw [h.picks] at hrun
  exact hrun.1.symm

theorem Steps.commit {α β : Type} {x : M α} {g : α → M β} {P : World → Prop}
    (hx : Steps good P x (fun _ => Serving cfg m) fun w => Stores cfg m w.flash)
    (hg : ∀ a, Spec (History good) (Serving cfg m) (g a) (Committing cfg m)) :
    Spec (History good) P (x >>= g) (Committing cfg m) :=
  Spec.bind hx hg (fun _ _ h => h.elim) fun _ h => h

theorem committing_bind {α β : Type} {x : M α} {g : α → M β} {P : World → Prop}
    (hx : Spec (History good) P x (Committing cfg m))
    (hg : ∀ a, Spec (History good) (Serving cfg m) (g a) (Committing cfg m)) :
    Spec (History good) P (x >>= g) (Committing cfg m) :=
  Spec.bind hx hg (fun _ _ h => h) fun _ h => h

theorem committing_when {c : Bool} {x : M Unit} (hx : Spec (History good) (Serving cfg m) x (Committing cfg m)) :
    Spec (History good) (Serving cfg m) (Proc.when c x) (Committing cfg m) := by
  unfold Proc.when
  split
  . exact hx
  . exact Spec.ret fun _ h => h

section

variable (hp : Plain cfg)

include hp hpow

theorem mountAdopted_serves {a b : MasterView} {p : Pick} (hactive : p.active ≤ 1) :
    Spec (History good) (Resting cfg m) (mountAdopted cfg a b p) (Committing cfg m) := by
  unfold mountAdopted adoptMaster
  simp only
  refine modifySt_bind (I := Resting cfg m) (fun w h => h.ram hactive h.1.wedged) ?_
  intro _
  apply (recoverCompaction_serves hpow hp.valid).commit
  intro _
  apply Spec.read_bind
  intro damage
  refine Spec.pre ?_ fun _ h => h.2
  have hscan : Spec (History good) (Serving cfg m) (doubtScan cfg) (Committing cfg m) :=
    doubtScan_serves.conseq (fun _ h => h) (fun _ _ h => h) (fun _ _ h => h.elim) fun _ h => h
  have hdoubt := committing_when (c := p.fellBack || (!(if p.active = 0 then b else a).isOk || damage) ||
    p.log.tailBad) hscan
  apply committing_bind hdoubt
  intro _
  apply committing_bind (committing_when (finishUpgrade_serves hpow _))
  intro _
  exact endDoubt_serves hpow _ _ _

omit hpow hp in
theorem acceptMaster_rests {buf : Sector} (hok : masterClassOf buf = .ok → masterAccept cfg (masterHdrAt buf) = true) :
    Steps good (Reading (Resting cfg m) fl) (acceptMaster cfg (viewOf buf)) (fun _ => Reading (Resting cfg m) fl)
      C := by
  unfold acceptMaster
  split
  . exact Spec.ret fun _ h => h
  . next hview =>
    have hclass : masterClassOf buf = .ok := viewOf_isOk.mp (by simpa using hview)
    have haccept : masterAccept cfg (viewOf buf).hdr = true := hok hclass
    rw [haccept]
    simp only [Bool.not_true, Bool.false_eq_true, if_false]
    apply modifySt_spec
    exact fun w h => ⟨h.1.ram h.1.1.active h.1.1.wedged, h.2⟩

-- The masters of a store that a format made are picked from, and nothing is formatted.
theorem mountViews_serves {p : Pick} (hadopts : Adopts cfg fl p) :
    Spec (History good) (Reading (Resting cfg m) fl) (mountViews cfg (viewOf (fl 0)) (viewOf (fl 1)))
      (Committing cfg m) := by
  have hcut : ∀ {x : M Unit}, Steps good (Reading (Resting cfg m) fl) x (fun _ => Reading (Resting cfg m) fl)
      (fun w => Stores cfg m w.flash) → ∀ {g : Unit → M Unit},
      Spec (History good) (Reading (Resting cfg m) fl) (g ()) (Committing cfg m) →
      Spec (History good) (Reading (Resting cfg m) fl) (x >>= g) (Committing cfg m) :=
    fun hx _ hg => Spec.bind hx (fun _ => hg) (fun _ _ h => h.elim) fun _ h => h
  have hnative : ¬((viewOf (fl 0)).cls = .foreign ∨ (viewOf (fl 1)).cls = .foreign) :=
    not_or.mpr hadopts.native
  unfold mountViews
  rw [if_neg hnative]
  refine modifySt_bind (I := Reading (Resting cfg m) fl)
    (fun w h => ⟨h.1.ram h.1.1.active h.1.1.wedged, h.2⟩) ?_
  intro _
  apply hcut (acceptMaster_rests (hadopts.accepted 0 (by decide)))
  apply hcut (acceptMaster_rests (hadopts.accepted 1 (by decide)))
  split
  . next hsame =>
    simp only [Bool.and_eq_true, beq_iff_eq, viewOf_isOk] at hsame
    exact absurd hsame.2.2 (hadopts.differ hsame.1 hsame.2.1)
  have hpick : Tells good (Resting cfg m) (fun w => Stores cfg m w.flash) fl (fun _ => False)
      (masterPick cfg (viewOf (fl 0)) (viewOf (fl 1))) (· = pickOf cfg fl) fun _ => False :=
    masterPick_tells resting_stable.readClosed resting_failsTo
  apply Spec.bind hpick
  . intro pick
    apply Spec.fact
    intro heq
    rw [heq, hadopts.pick]
    exact (mountAdopted_serves hpow hp (pickOf_active hadopts.pick)).pre fun _ h => h.1
  . rintro e w ⟨h | ⟨h, -⟩, -⟩
    . exact h.elim
    . exact h.elim
  . exact fun _ h => h

omit hpow in
-- The root that a format bound is found, and nothing is bound again.
theorem bindRootIfMissing_serves {payload : List UInt8} (hroot : m rootId = some payload) :
    Steps good (Serving cfg m) (bindRootIfMissing cfg) (fun _ => Serving cfg m) C := by
  intro w h
  have hholds := h.holds
  have hlive : Shows good cfg m w.flash C (rootIsLive cfg (cfg.idToBucket rootId)) (· = true) := by
    unfold rootIsLive
    apply tells_bind (readBucketHdr_shows hp.unindexed _)
    rintro _ rfl
    split
    . next hno =>
      have hnone : contentOf cfg w.flash rootId = none := contentOf_unformatted (by simpa using hno)
      rw [← hholds.contents] at hroot
      unfold contents at hroot
      rw [hnone] at hroot
      cases hroot
    . next hyes =>
      obtain ⟨es, fin, hl⟩ := hholds.logged (idToBucket_lt hp.valid rootId) (by simpa using hyes)
      apply tells_bind (findLiveSlot_shows hp hl hholds.contents)
      intro found hfound
      apply tells_ret
      have hpayload := hfound.payload
      rw [hroot] at hpayload
      obtain ⟨live, hsome, -⟩ := Option.map_eq_some_iff.mp hpayload
      rw [hsome]
      rfl
  have hspec : Spec (History good) (Reading (Serving cfg m) w.flash) (bindRootIfMissing cfg)
      ⟨fun _ => Serving cfg m, fun _ _ => False, C⟩ := by
    unfold bindRootIfMissing
    apply hlive.andThen
    rintro _ rfl
    exact Spec.ret fun _ h => h.1
  exact hspec w (reading_serving h)

-- A mount that is refused leaves the store unmounted.
theorem mountOpened_serves {payload : List UInt8} (hroot : m rootId = some payload) {R : MasterRec → Prop} :
    Spec (History good) (fun w => Resting cfg m w ∧ MastersOk cfg R w.flash) (mountOpened cfg)
      (Committing cfg m) := by
  rintro w ⟨h, hmasters⟩
  obtain ⟨p, hadopts, -⟩ := hmasters.adopts
  have hclassify : ∀ slot, Tells good (Resting cfg m) (fun w => Stores cfg m w.flash) w.flash (fun _ => False)
      (masterClassify slot) (· = (masterClassOf (w.flash slot), masterHdrAt (w.flash slot))) fun _ => False :=
    masterClassify_tells resting_stable.readClosed resting_failsTo
  have hspec : Spec (History good) (Reading (Resting cfg m) w.flash) (mountOpened cfg) (Committing cfg m) := by
    have hseq : ∀ {α β : Type} {x : M α} {g : α → M β} {a : α}, Tells good (Resting cfg m)
        (fun w => Stores cfg m w.flash) w.flash (fun _ => False) x (· = a) (fun _ => False) →
        Spec (History good) (Reading (Resting cfg m) w.flash) (g a) (Committing cfg m) →
        Spec (History good) (Reading (Resting cfg m) w.flash) (x >>= g) (Committing cfg m) := by
      intro α β x g a hx hg
      apply Spec.bind hx
      . intro a'
        apply Spec.fact
        rintro rfl
        exact hg
      . rintro e w ⟨h | ⟨h, -⟩, -⟩
        . exact h.elim
        . exact h.elim
      . exact fun _ h => h
    unfold mountOpened
    apply hseq (hclassify masterASector)
    apply hseq (hclassify masterBSector)
    apply committing_bind (mountViews_serves hpow hp hadopts)
    intro _
    apply (bindRootIfMissing_serves hp hroot).commit
    intro _
    refine modifySt_bind (I := Serving cfg m) (fun w h => h.ram h.awake.active h.awake.wedged) ?_
    intro _
    simp only [hp.inline, Proc.when, Bool.false_eq_true, if_false]
    exact Spec.ret fun _ h => h
  exact hspec w ⟨h, rfl⟩

-- A store that is not mounted, as the call before or a loss of power left it.
structure Dormant (cfg : Cfg) (m : Contents) (w : World) : Prop where
  unmounted : w.st.mounted = false
  active : w.st.activeMaster ≤ 1
  reads : w.readFaults = []
  stores : Stores cfg m w.flash

theorem mountImpl_serves (hopen : cfg.storeOpenAndValidate = .ok ()) {payload : List UInt8}
    (hroot : m rootId = some payload) {R : MasterRec → Prop} :
    Spec (History good) (fun w => Dormant cfg m w ∧ MastersOk cfg R w.flash) (mountImpl cfg)
      ⟨fun _ => Serving cfg m,
        fun e w => (e = .ENOSPC ∧ w.st.rotGen = 2 ^ 32 - 1) ∧ w.st.mounted = false ∧ Serving cfg m w,
        fun w => Stores cfg m w.flash⟩ := by
  unfold mountImpl
  apply getSt_bind
  intro st
  apply Spec.assuming (φ := st.mounted = false)
  . rintro w ⟨rfl, h, -⟩
    exact h.unmounted
  intro hmounted
  simp only [hmounted, hp.inline, idxInvalidate, Bool.false_eq_true, if_false]
  apply Spec.ret_bind
  refine modifySt_bind (I := fun w => Resting cfg m w ∧ MastersOk cfg R w.flash) ?_ ?_
  . rintro w ⟨-, h, hm⟩
    exact ⟨⟨⟨h.active, h.reads, rfl⟩, h.stores⟩, hm⟩
  intro _
  rw [hopen]
  apply Spec.ret_bind
  have hreset : Steps good (fun w => Resting cfg m w ∧ MastersOk cfg R w.flash) (sidxReset cfg)
      (fun _ w => Resting cfg m w ∧ MastersOk cfg R w.flash) fun w => Stores cfg m w.flash :=
    modifySidx_steps hp.unindexed _
  apply Spec.bind hreset
  . intro _
    apply (mountOpened_serves hpow hp hroot).attempt.bind
    . rintro (e | _)
      . refine modifySt_bind (I := fun w => (e = .ENOSPC ∧ w.st.rotGen = 2 ^ 32 - 1) ∧ w.st.mounted = false ∧
          Serving cfg m w) ?_ ?_
        . exact fun w h => ⟨h.1, rfl, h.2.ram h.2.awake.active h.2.awake.wedged⟩
        intro _
        apply (modifySidx_steps (C := fun w => Stores cfg m w.flash) hp.unindexed _).bind
        . exact fun _ => Spec.fail fun _ h => h
        . exact fun _ _ h => h.elim
        . exact fun _ h => h
      . exact Spec.ret fun _ h => h
    . exact fun _ _ h => h.elim
    . exact fun _ h => h
  . exact fun _ _ h => h.elim
  . exact fun _ h => h

/-! Format -/

omit hpow hp in
theorem holding_blank (hv : cfg.Valid) (h : ∀ s, s < cfg.nPebs → fl s = blank) :
    Holding cfg (fun _ => none) fl := by
  have hblank : ∀ bid, bid < cfg.nBuckets → Clean cfg (fl (bucketSector bid)) bucketDataOff := by
    intro bid hbid
    have hpebs := hv.pebs
    unfold Cfg.nBuckets at hbid
    rw [h _ (by unfold bucketSector; omega)]
    exact fun _ _ _ => rfl
  refine ⟨fun bid hbid => .inl (hblank bid hbid), ?_⟩
  funext id
  unfold contents
  rw [contentOf_empty hv (hblank _ (idToBucket_lt hv id)), Option.map_none]

omit hp in
theorem storeEraseAll_erases (n sector : Nat) :
    Steps good (fun w => Awake w ∧ ∀ t, t < sector → w.flash t = blank) (storeEraseAll n sector)
      (fun _ w => Awake w ∧ ∀ t, t < sector + n → w.flash t = blank) fun _ => True := by
  induction n generalizing sector with
  | zero => exact Spec.ret fun _ h => h
  | succ n ih =>
    unfold storeEraseAll
    have hone : Steps good (fun w => Awake w ∧ ∀ t, t < sector → w.flash t = blank) (storeErase sector)
        (fun _ w => Awake w ∧ ∀ t, t < sector + 1 → w.flash t = blank) fun _ => True := by
      apply storeMutate_steps hpow
      . rintro w ⟨h, hb⟩ hf
        refine ⟨h.mutate _ _, fun t ht => ?_⟩
        by_cases hs : t = sector
        . rw [hs, hf]
          rfl
        . rw [mutate_other hs]
          exact hb t (by omega)
      . exact fun _ _ _ _ _ _ _ => trivial
    apply hone.andThen
    intro _
    have hrest := ih (sector + 1)
    rw [show sector + 1 + n = sector + (n + 1) by omega] at hrest
    exact hrest

omit hpow hp in
-- Writes to the masters leave the buckets.
theorem Neutral.beside {I C : World → Prop} (N : Neutral good I C) (bid : Nat) (f : Sector) :
    Neutral good (fun w => I w ∧ w.flash (bucketSector bid) = f) C where
  active w h := N.active w h.1
  ram w st hst h := ⟨N.ram w st hst h.1, h.2⟩
  note w id h := ⟨N.note w id h.1, h.2⟩
  master slot r hs := by
    have hsame : ∀ w : World, w.flash (bucketSector bid) = f → (w.mutate slot r).flash (bucketSector bid) = f :=
      fun w h => (mutate_other (by unfold bucketSector firstBucket; omega)).trans h
    have hkeep : Spec (History good) (fun w => w.flash (bucketSector bid) = f) (storeMutate slot r)
        (.exits (fun w => w.flash (bucketSector bid) = f) (fun w => w.flash (bucketSector bid) = f)
          fun _ => True) := by
      apply storeMutate_spec
      . exact fun w h _ _ => hsame w h
      . exact fun w _ _ h _ _ => hsame w h
      . exact fun _ _ _ _ _ _ => trivial
    exact ((N.master slot r hs).both hkeep).conseq (fun _ h => h) (fun _ _ h => h) (fun _ _ h => h)
      fun _ h => h.1

omit hp in
theorem masterFormat_serves (bid : Nat) (f : Sector) :
    Steps good (fun w => Serving cfg m w ∧ w.flash (bucketSector bid) = f) (masterFormat cfg)
      (fun _ w => Serving cfg m w ∧ w.flash (bucketSector bid) = f) fun w => Stores cfg m w.flash := by
  have hwrite : ∀ slot rot r, slot ≤ 1 →
      Steps good (fun w => Serving cfg m w ∧ w.flash (bucketSector bid) = f) (masterWriteSector cfg slot rot r)
        (fun _ w => Serving cfg m w ∧ w.flash (bucketSector bid) = f) fun w => Stores cfg m w.flash := by
    intro slot rot r hs
    have hnever : NeverFails good (masterWriteSector cfg slot rot r) := by
      unfold masterWriteSector
      apply getSt_bind
      intro st
      exact (storeReplace_neverFails hpow _ _).pre fun _ _ => trivial
    exact ((masterWriteSector_neutral (serving_neutral.beside bid f) slot rot r hs).both hnever).conseq
      (fun _ h => ⟨h, trivial⟩) (fun _ _ h => h.1) (fun _ _ h => h.2) fun _ h => h.1
  unfold masterFormat
  refine modifySt_bind (I := fun w => Serving cfg m w ∧ w.flash (bucketSector bid) = f)
    (fun w h => ⟨h.1.ram h.1.awake.active h.1.awake.wedged, h.2⟩) ?_
  intro _
  apply getSt_bind
  intro st
  refine Spec.pre ?_ fun _ h => h.2
  refine modifySt_bind (I := fun w => Serving cfg m w ∧ w.flash (bucketSector bid) = f)
    (fun w h => ⟨h.1.ram h.1.awake.active h.1.awake.wedged, h.2⟩) ?_
  intro _
  apply (hwrite _ _ _ (by decide)).andThen
  intro _
  apply (hwrite _ _ _ (by decide)).andThen
  intro _
  exact modifySt_spec fun w h => ⟨h.1.ram (Nat.zero_le _) h.1.awake.wedged, h.2⟩

-- The map of a store that has just been formatted.
def formatted : Contents := Function.update (fun _ => none) rootId (some [])

theorem bindRootEmpty_serves (hgood : ∀ e, good e → SlotHonest e) :
    Steps good
      (fun w => Serving cfg (fun _ => none) w ∧ w.flash (bucketSector (cfg.idToBucket rootId)) = blank)
      (bindRootEmpty cfg) (fun _ => Serving cfg formatted) fun _ => True := by
  have hformat := formatBucket_serves (m := fun _ => none) hpow hp.valid (cfg.idToBucket rootId) hp.unindexed
  unfold bindRootEmpty
  simp only
  apply Spec.bind (hformat.pre ?_)
  . intro _
    have happend := append_changes (c := bucketDataOff) (m := fun _ => none) (E := fun _ => False) hp hpow hgood
      (.inl (rfl : (0 : UInt8) = 0)) (show rootId ≠ 0 by decide) (by decide)
      (show ([] : List UInt8).length ≤ _ from Nat.zero_le _)
    apply happend.conseq
    . rintro w ⟨h, hflash⟩
      have hempty := clean_image cfg (bucketHdrBytes_length (cfg.idToBucket rootId) 1).le
      have hhdr := bucketHdrValid_written (nBuckets_lt16 cfg (idToBucket_lt hp.valid rootId))
        (@image_header cfg _).1
      refine ⟨h, ?_, slotSizeFor_zero_le hp.valid⟩
      rw [hflash]
      exact ⟨[], hempty.logged hhdr, hempty⟩
    . exact fun _ _ h => h
    . exact fun _ _ h => h.1.elim
    . exact fun _ _ => trivial
  . exact fun _ _ h => h
  . exact fun _ _ => trivial
  . rintro w ⟨h, hblank⟩
    exact ⟨h, hblank ▸ fun _ _ _ => rfl⟩

theorem formatImpl_serves (hgood : ∀ e, good e → SlotHonest e) :
    Spec (History good)
      (fun w => w.st.mounted = false ∧ w.st.activeMaster ≤ 1 ∧ w.readFaults = []) (formatImpl cfg)
      ⟨fun _ => Serving cfg formatted, fun _ _ => True, fun _ => True⟩ := by
  unfold formatImpl
  apply getSt_bind
  intro st
  apply Spec.assuming (φ := st.mounted = false)
  . rintro w ⟨rfl, h, -⟩
    exact h
  intro hmounted
  simp only [hmounted, Bool.false_eq_true, if_false]
  refine Spec.bind (Q := ⟨fun _ w => w.st.activeMaster ≤ 1 ∧ w.readFaults = [], fun _ _ => True,
    fun _ => True⟩) ?_ ?_ (fun _ _ _ => trivial) fun _ _ => trivial
  . cases cfg.storeOpenAndValidate with
    | ok a => exact Spec.ret fun w h => ⟨h.2.2.1, h.2.2.2⟩
    | error e => exact Spec.fail fun _ _ => trivial
  intro _
  have hwhole : Steps good (fun w => w.st.activeMaster ≤ 1 ∧ w.readFaults = []) (formatWholeStore cfg)
      (fun _ => Serving cfg formatted) fun _ => True := by
    unfold formatWholeStore idxInvalidate
    simp only [hp.inline, Bool.false_eq_true, if_false]
    apply Spec.ret_bind
    apply (modifySidx_steps hp.unindexed _).andThen
    intro _
    refine modifySt_bind (I := fun w => Awake w ∧ ∀ t, t < 0 → w.flash t = blank)
      (fun w h => ⟨⟨h.1, h.2, rfl⟩, fun _ ht => absurd ht (Nat.not_lt_zero _)⟩) ?_
    intro _
    apply (storeEraseAll_erases hpow cfg.nPebs 0).andThen
    intro _
    apply Spec.bind ((masterFormat_serves (m := fun _ => none) hpow (cfg.idToBucket rootId) blank).pre ?_)
    . exact fun _ => bindRootEmpty_serves hpow hp hgood
    . exact fun _ _ h => h
    . exact fun _ _ => trivial
    . rintro w ⟨h, hblank⟩
      have hpebs := hp.valid.pebs
      have hroot := idToBucket_lt hp.valid rootId
      rw [Nat.zero_add] at hblank
      have hscratch : w.flash scratchSector = blank :=
        hblank _ (by unfold scratchSector; unfold firstBucket at hpebs; omega)
      unfold Cfg.nBuckets at hroot
      refine ⟨⟨h, holding_blank hp.valid hblank, ?_, ?_⟩, ?_⟩
      . rw [hscratch]
        exact scratched_blank cfg
      . unfold Unsealed
        rw [hscratch]
        exact scratchImage_blank cfg
      . exact hblank _ (by unfold bucketSector; omega)
  apply Spec.bind hwhole
  . intro _
    refine modifySt_bind (I := Serving cfg formatted)
      (fun w h => h.ram h.awake.active h.awake.wedged) ?_
    intro _
    simp only [hp.inline, Proc.when, Bool.false_eq_true, if_false]
    exact Spec.ret fun _ h => h
  . exact fun _ _ h => h.elim
  . exact fun _ h => h

end

end

end

end KeyValueDb.BlobDb
