import KeyValueDb.BlobDb.Commits
import KeyValueDb.BlobDb.Lookup

/-!
What a mount finds on any flash at all: which refusals its headers give, and which sector it picks.
-/

namespace KeyValueDb.BlobDb

variable (cfg : Cfg)

/-! The pick as a function of the flash -/

-- The end that the binary search finds, whatever the slots are.
def logEndOf (buf : Sector) : Nat → Nat → Nat → Nat
  | 0, lo, _ => lo
  | n + 1, lo, hi =>
    if lo < hi then
      let mid := lo + (hi - lo) / 2
      if recErased cfg buf mid then logEndOf buf n lo mid else logEndOf buf n (mid + 1) hi
    else lo

def masterLogOf (rotGen : Nat) (buf : Sector) : MasterLog :=
  let endSlot := logEndOf cfg buf (cfg.logCap + 1) 0 cfg.logCap
  .ofScan endSlot (newestBelow cfg rotGen buf endSlot)

-- The pick once the higher sector is known.
def pickOfHigh (fl : Flash) (hi : Nat) (hiView loView : MasterView) : Option Pick :=
  let log := masterLogOf cfg hiView.hdr.rotGen (fl hi)
  match log.newest with
  | some (_, r) => some ⟨hi, false, log, r⟩
  | none =>
    if loView.isOk then
      let log := masterLogOf cfg loView.hdr.rotGen (fl (1 - hi))
      match log.newest with
      | some (_, r) => some ⟨1 - hi, true, log, r⟩
      | none => none
    else none

def pickOf (fl : Flash) : Option Pick :=
  if !(viewOf (fl 0)).isOk && !(viewOf (fl 1)).isOk then none
  else pickOfHigh cfg fl (pickHigh fl) (viewOf (fl (pickHigh fl))) (viewOf (fl (1 - pickHigh fl)))

theorem pickHigh_le (fl : Flash) : pickHigh fl ≤ 1 := by
  unfold pickHigh
  split
  . split <;> decide
  . split <;> decide

-- The headers give no reason to refuse the store.
structure Passes (fl : Flash) : Prop where
  native : masterClassOf (fl 0) ≠ .foreign ∧ masterClassOf (fl 1) ≠ .foreign
  accepted : ∀ s, s ≤ 1 → masterClassOf (fl s) = .ok → masterAccept cfg (masterHdrAt (fl s)) = true
  differ : masterClassOf (fl 0) = .ok → masterClassOf (fl 1) = .ok →
    (masterHdrAt (fl 0)).rotGen ≠ (masterHdrAt (fl 1)).rotGen

-- The features of the headers that count, put together.
def unionOf (f : MasterHdr → Nat) (fl : Flash) : Nat :=
  (if (viewOf (fl 0)).isOk then f (masterHdrAt (fl 0)) else 0) |||
    if (viewOf (fl 1)).isOk then f (masterHdrAt (fl 1)) else 0

structure Accepted (fl : Flash) (st : St) : Prop where
  features : FeaturesOk cfg st
  incompat : st.incompat = unionOf MasterHdr.incompat fl
  roCompat : st.roCompat = unionOf MasterHdr.roCompat fl
  compat : st.compat = unionOf MasterHdr.compat fl

section

variable {cfg} {good : Event → Prop} {I C K : World → Prop} {fl : Flash} {E : Errno → Prop}
  (hI : ∀ w, I w → I { w with readFaults := w.readFaults.tail }) (hr : FailsTo I K)

include hI hr

theorem masterLogEnd_tells (slot n lo hi : Nat) :
    Tells good I C fl K (masterLogEnd cfg slot n lo hi) (· = logEndOf cfg (fl slot) n lo hi) E := by
  induction n generalizing lo hi with
  | zero => exact tells_ret rfl
  | succ n ih =>
    unfold masterLogEnd logEndOf
    split
    . apply tells_bind (storeRead_tells hI hr _ _ _)
      rintro buf rfl
      have hmid : (bytesAt (fl slot) (masterRecOff cfg (lo + (hi - lo) / 2)) cfg.recSize).all
          (· == 0xff) = recErased cfg (fl slot) (lo + (hi - lo) / 2) := rfl
      simp only
      rw [hmid]
      split
      . exact ih _ _
      . exact ih _ _
    . exact tells_ret rfl

theorem masterLogNewest_tells (slot rot n : Nat) :
    Tells good I C fl K (masterLogNewest cfg slot rot n)
      (· = newestBelow cfg rot (fl slot) n) E := by
  induction n with
  | zero => exact tells_ret rfl
  | succ n ih =>
    unfold masterLogNewest newestBelow
    apply tells_bind (storeRead_tells hI hr _ _ _)
    rintro buf rfl
    obtain ⟨hok, hat⟩ := masterRecOk_image cfg (fl slot) rot n
    rw [hok, hat]
    split
    . exact tells_ret rfl
    . exact ih

theorem masterLogLoad_tells (slot rot : Nat) :
    Tells good I C fl K (masterLogLoad cfg slot rot) (· = masterLogOf cfg rot (fl slot)) E := by
  unfold masterLogLoad
  apply tells_bind (masterLogEnd_tells hI hr _ _ _ _)
  rintro endSlot rfl
  apply tells_bind (masterLogNewest_tells hI hr _ _ _)
  rintro newest rfl
  exact tells_ret rfl

theorem masterPick_tells :
    Tells good I C fl K (masterPick cfg (viewOf (fl 0)) (viewOf (fl 1))) (· = pickOf cfg fl) E := by
  unfold masterPick pickOf
  split
  . exact tells_ret rfl
  . extract_lets hi hiView loView
    have hhi : hi = pickHigh fl := rfl
    have hcases : hi = 0 ∨ hi = 1 := by
      have := pickHigh_le fl
      omega
    have hhiView : hiView = viewOf (fl hi) := by
      rcases hcases with h | h <;> simp [hiView, h]
    have hloView : loView = viewOf (fl (1 - hi)) := by
      rcases hcases with h | h <;> simp [loView, h]
    rw [hhiView, hloView, ← hhi]
    unfold pickOfHigh
    apply tells_bind (masterLogLoad_tells hI hr _ _)
    rintro log rfl
    simp only
    cases (masterLogOf cfg (viewOf (fl hi)).hdr.rotGen (fl hi)).newest with
    | some r => exact tells_ret rfl
    | none =>
      simp only
      split
      . next hlo =>
        apply tells_bind (masterLogLoad_tells hI hr _ _)
        rintro log rfl
        cases (masterLogOf cfg (viewOf (fl (1 - hi))).hdr.rotGen (fl (1 - hi))).newest with
        | some r => exact tells_ret rfl
        | none => exact tells_ret rfl
      . next hlo => exact tells_ret rfl

theorem masterClassify_tells (slot : Nat) :
    Tells good I C fl K (masterClassify slot)
      (· = (masterClassOf (fl slot), masterHdrAt (fl slot))) E := by
  unfold masterClassify
  apply tells_bind (storeRead_tells hI hr _ _ _)
  rintro buf rfl
  rw [masterClassOf_image, masterHdrAt_image]
  exact tells_ret rfl

section

variable (hram : ∀ w st, st.sidx = w.st.sidx → I w → I { w with st := st })

omit hI hr

include hram

-- The first header has joined the features.
theorem acceptMaster_tells {buf : Sector} {f g h : Nat}
    (hf : bitsWithin f cfg.buildIncompat = true) (hg : bitsWithin g buildRoCompat = true)
    (hh : h < 256 ^ 4) :
    Spec (History good)
      (fun w => (w.st.incompat = f ∧ w.st.roCompat = g ∧ w.st.compat = h) ∧ Reading I fl w)
      (acceptMaster cfg (viewOf buf))
      ⟨fun _ w => (masterClassOf buf = .ok → masterAccept cfg (masterHdrAt buf) = true) ∧
          FeaturesOk cfg w.st ∧
          (w.st.incompat = f ||| (if (viewOf buf).isOk then (masterHdrAt buf).incompat else 0) ∧
          w.st.roCompat = g ||| (if (viewOf buf).isOk then (masterHdrAt buf).roCompat else 0) ∧
          w.st.compat = h ||| if (viewOf buf).isOk then (masterHdrAt buf).compat else 0) ∧
          Reading I fl w,
        fun e w => (masterClassOf buf = .ok ∧ masterAccept cfg (masterHdrAt buf) = false) ∧
          e = .ENOTSUP ∧ Reading I fl w, C⟩ := by
  unfold acceptMaster
  split
  . next hnot =>
    have hnot : (viewOf buf).isOk = false := by simpa using hnot
    apply Spec.ret
    intro w hw
    obtain ⟨⟨h1, h2, h3⟩, hreading⟩ := hw
    rw [hnot]
    refine ⟨?_, ⟨by rw [h1]; exact hf, by rw [h2]; exact hg, by rw [h3]; exact hh⟩, ?_, hreading⟩
    . intro hok
      rw [viewOf_isOk.mpr hok] at hnot
      cases hnot
    . simp [h1, h2, h3]
  . next hok =>
    have hok : (viewOf buf).isOk = true := by simpa using hok
    split
    . next ha =>
      apply Spec.fail
      exact fun w hw => ⟨⟨viewOf_isOk.mp hok, by simpa [viewOf] using ha⟩, rfl, hw.2⟩
    . next ha =>
      have ha : masterAccept cfg (masterHdrAt buf) = true := by simpa [viewOf] using ha
      apply modifySt_spec
      intro w hw
      obtain ⟨⟨h1, h2, h3⟩, hreading⟩ := hw
      have hfeat : FeaturesOk cfg w.st :=
        ⟨by rw [h1]; exact hf, by rw [h2]; exact hg, by rw [h3]; exact hh⟩
      refine ⟨fun _ => ha, hfeat.accept ha, ⟨?_, ?_, ?_⟩, hram w _ rfl hreading.1, hreading.2⟩
      . rw [← h1]
        rfl
      . rw [← h2]
        rfl
      . rw [← h3]
        rfl

end

include hI hr in
-- The way to the pick. What a mount finds in the headers makes it refuse, or it goes on.
theorem mountViews_tells (hram : ∀ w st, st.sidx = w.st.sidx → I w → I { w with st := st }) {Q : Post World Errno Unit}
    (hrefuse : ¬ Passes cfg fl → ∀ e w, Reading I fl w → Q.err e w)
    (hread : ∀ w, K w → Reading I fl w → Q.err Errno.EIO w)
    (hnone : Passes cfg fl → pickOf cfg fl = none →
      Spec (History good) (fun w => Accepted cfg fl w.st ∧ Reading I fl w)
        (mountUnusable cfg (viewOf (fl 0)) (viewOf (fl 1))) Q)
    (hsome : Passes cfg fl → ∀ p, pickOf cfg fl = some p →
      Spec (History good) (fun w => Accepted cfg fl w.st ∧ Reading I fl w)
        (mountAdopted cfg (viewOf (fl 0)) (viewOf (fl 1)) p) Q) :
    Spec (History good) (Reading I fl) (mountViews cfg (viewOf (fl 0)) (viewOf (fl 1))) Q := by
  unfold mountViews
  split
  . next hforeign =>
    apply Spec.fail
    intro w hw
    refine hrefuse ?_ _ w hw
    intro hp
    rcases hforeign with h | h
    . exact hp.native.1 h
    . exact hp.native.2 h
  . next hnative =>
    rw [not_or] at hnative
    refine modifySt_bind (I := fun w => (w.st.incompat = 0 ∧ w.st.roCompat = 0 ∧ w.st.compat = 0) ∧
      Reading I fl w) ?_ ?_
    . intro w h
      exact ⟨⟨rfl, rfl, rfl⟩, hram w _ rfl h.1, h.2⟩
    intro _
    have hzero : ∀ mask, bitsWithin 0 mask = true := by
      intro mask
      simp [bitsWithin]
    apply (acceptMaster_tells (C := Q.cut) hram (hzero _) (hzero _) (by decide)).bind
    . intro _
      apply Spec.assuming (φ := masterClassOf (fl 0) = .ok →
        masterAccept cfg (masterHdrAt (fl 0)) = true)
      . exact fun w h => h.1
      intro hacceptA
      have hstep : Spec (History good)
          (fun w => FeaturesOk cfg w.st ∧
            (w.st.incompat = 0 ||| (if (viewOf (fl 0)).isOk then (masterHdrAt (fl 0)).incompat else 0) ∧
            w.st.roCompat = 0 ||| (if (viewOf (fl 0)).isOk then (masterHdrAt (fl 0)).roCompat else 0) ∧
            w.st.compat = 0 ||| if (viewOf (fl 0)).isOk then (masterHdrAt (fl 0)).compat else 0) ∧
            Reading I fl w) (acceptMaster cfg (viewOf (fl 1)))
          ⟨fun _ w => (masterClassOf (fl 1) = .ok → masterAccept cfg (masterHdrAt (fl 1)) = true) ∧
            Accepted cfg fl w.st ∧ Reading I fl w,
            fun e w => (masterClassOf (fl 1) = .ok ∧ masterAccept cfg (masterHdrAt (fl 1)) = false) ∧
              e = .ENOTSUP ∧ Reading I fl w, Q.cut⟩ := by
        rintro w ⟨hf, ⟨h1, h2, h3⟩, hw⟩
        have hb : Spec (History good) (fun w => _ ∧ Reading I fl w) (acceptMaster cfg (viewOf (fl 1)))
          ⟨_, _, Q.cut⟩ := acceptMaster_tells hram hf.incompat hf.roCompat hf.compat
        refine Spec.conseq hb (fun _ h => h) ?_ ?_ ?_ w ⟨⟨rfl, rfl, rfl⟩, hw⟩
        . rintro _ w' ⟨ha, hf', ⟨h1', h2', h3'⟩, hw'⟩
          rw [h1, Nat.zero_or] at h1'
          rw [h2, Nat.zero_or] at h2'
          rw [h3, Nat.zero_or] at h3'
          exact ⟨ha, ⟨hf', h1', h2', h3'⟩, hw'⟩
        . exact fun _ _ h => h
        . exact fun _ h => h
      apply (hstep.pre fun w h => h.2).bind
      . intro _
        apply Spec.assuming (φ := masterClassOf (fl 1) = .ok →
          masterAccept cfg (masterHdrAt (fl 1)) = true)
        . exact fun w h => h.1
        intro hacceptB
        refine Spec.pre ?_ fun w h => h.2
        have haccepted : ∀ s, s ≤ 1 → masterClassOf (fl s) = .ok →
            masterAccept cfg (masterHdrAt (fl s)) = true := by
          intro s hs
          have : s = 0 ∨ s = 1 := by omega
          rcases this with rfl | rfl
          . exact hacceptA
          . exact hacceptB
        split
        . next hsame =>
          simp only [Bool.and_eq_true, viewOf_isOk, beq_iff_eq] at hsame
          apply Spec.fail
          intro w hw
          refine hrefuse ?_ _ w hw.2
          exact fun hp => hp.differ hsame.1 hsame.2.1 hsame.2.2
        . next hdiffer =>
          simp only [Bool.and_eq_true, viewOf_isOk, beq_iff_eq] at hdiffer
          have hpasses : Passes cfg fl :=
            ⟨hnative, haccepted, fun ha hb h => hdiffer ⟨ha, hb, h⟩⟩
          have hreads : ∀ w, Accepted cfg fl w.st ∧ I w →
              Accepted cfg fl w.st ∧ I { w with readFaults := w.readFaults.tail } :=
            fun w h => ⟨h.1, hI w h.2⟩
          have hfails : FailsTo (fun w => Accepted cfg fl w.st ∧ I w) K :=
            fun w h hf => hr w h.2 hf
          have hpick : Tells good _ Q.cut fl K (masterPick cfg (viewOf (fl 0)) (viewOf (fl 1)))
              (· = pickOf cfg fl) fun _ => False := masterPick_tells hreads hfails
          apply (hpick.pre fun w h => ⟨⟨h.1, h.2.1⟩, h.2.2⟩).bind
          . intro pick
            apply Spec.assuming (φ := pick = pickOf cfg fl)
            . exact fun _ h => h.1
            intro hpick
            cases pick with
            | none => exact (hnone hpasses hpick.symm).pre fun w h => ⟨h.2.1.1, h.2.1.2, h.2.2⟩
            | some p => exact (hsome hpasses p hpick.symm).pre fun w h => ⟨h.2.1.1, h.2.1.2, h.2.2⟩
          . intro e w h
            rcases h.1 with hno | ⟨hk, rfl⟩
            . exact hno.elim
            . exact hread w hk ⟨h.2.1.2, h.2.2⟩
          . exact fun _ h => h
      . intro e w h
        refine hrefuse ?_ e w h.2.2
        intro hp
        have := hp.accepted 1 (by decide) h.1.1
        rw [h.1.2] at this
        cases this
      . exact fun _ h => h
    . intro e w h
      refine hrefuse ?_ e w h.2.2
      intro hp
      have := hp.accepted 0 (by decide) h.1.1
      rw [h.1.2] at this
      cases this
    . exact fun _ h => h

end

end KeyValueDb.BlobDb
