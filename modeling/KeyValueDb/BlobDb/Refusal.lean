import KeyValueDb.BlobDb.Calm

/-!
A mount that refuses a store should not have written to it. The refusals that come late, of a root
bucket that a foreign slot closes and of a segment geometry that does not fit, can follow a repair.
-/

namespace KeyValueDb.BlobDb

variable (cfg : Cfg)

-- The build's segment geometry does not fit its payload cap: the last thing a mount looks at.
def LateGeometry : Prop := cfg.large = true ∧ segGeometry cfg = .error .ENOTSUP

instance : Decidable (LateGeometry cfg) := inferInstanceAs (Decidable (_ ∧ _))

-- What makes a mount that adopts a master sector write before it looks at the root: a compaction to
-- finish, a record that may be lost, features or a payload cap that differ.
def Mends (fl : Flash) (damage : Bool) (p : Pick) : Prop :=
  ¬ Unsealed cfg fl ∨
    (p.fellBack || (!(viewOf (fl (1 - p.active))).isOk || damage) || p.log.tailBad) = true ∨
    (featuresSplit (viewOf (fl 0)) (viewOf (fl 1)) ||
      decide (masterOldCap cfg (viewOf (fl 0)) (viewOf (fl 1)) < cfg.maxPayloadLen)) = true

instance (fl : Flash) (damage : Bool) (p : Pick) : Decidable (Mends cfg fl damage p) :=
  inferInstanceAs (Decidable (_ ∨ _))

-- No master is usable and the mount formats the store.
def Reformats (fl : Flash) : Prop :=
  pickOf cfg fl = none ∧ (MastersErased fl ∨ cfg.autoformatOnCorrupt = true)

-- The mount writes, and refuses the store after that.
def WritesThenRefuses (fl : Flash) (damage : Bool) : Prop :=
  cfg.storeOpenAndValidate = .ok () ∧ Passes cfg fl ∧
    ((Reformats cfg fl ∧ LateGeometry cfg) ∨
      ∃ p, pickOf cfg fl = some p ∧
        ((Mends cfg fl damage p ∧ (ClosedBucket cfg (restored cfg fl) (rootBid cfg) ∨ LateGeometry cfg)) ∨
        (¬ ClosedBucket cfg (restored cfg fl) (rootBid cfg) ∧ LateGeometry cfg ∧
          contentOf cfg fl rootId = none)))

-- The masters themselves are the reason: two of one generation, or none to use.
def MastersRefused (fl : Flash) : Prop :=
  (masterClassOf (fl 0) = .ok ∧ masterClassOf (fl 1) = .ok ∧
      (masterHdrAt (fl 0)).rotGen = (masterHdrAt (fl 1)).rotGen) ∨
    (pickOf cfg fl = none ∧ ¬ MastersErased fl ∧ cfg.autoformatOnCorrupt = false)

-- If the mount refuses the store, no byte of the flash has been written or erased.
def RefusesQuietly (w : World) (c : Call) : Prop :=
  ((callStep cfg w c).1 = .err .ENOTSUP ∨
    ((callStep cfg w c).1 = .err Errno.EIO ∧ MastersRefused cfg w.flash)) →
  (callStep cfg w c).2.flash = w.flash ∧ (callStep cfg w c).2.history = w.history

-- Nothing fails during the call, and the generation of the adopted sector leaves room for the
-- rotations of a mount.
structure CalmMount (fl : Flash) (c : Call) : Prop where
  faults : c.faults = []
  readFaults : c.readFaults = []
  room : ∀ p, pickOf cfg fl = some p → (masterHdrAt (fl p.active)).rotGen + 8 < 2 ^ 32

section

variable {cfg} {k bad refused : Prop} {fl : Flash} {past : List Event}

def Still (fl : Flash) (past : List Event) (w : World) : Prop := w.flash = fl ∧ w.history = past

-- How a mount ends, where `bad` says that it writes and then refuses.
def Ending (k bad refused : Prop) (fl : Flash) (past : List Event) : Post World Errno Unit where
  ok _ _ := ¬ (k ∧ bad)
  err e w := (e = .ENOTSUP → bad ∨ Still fl past w) ∧ (refused → Still fl past w) ∧
    (k → bad → e = .ENOTSUP ∧ past.length < w.history.length)
  cut _ := ¬ (k ∧ bad)

-- The store as the mount has left it before it looks at the root: `m` says that it wrote, `cl` that
-- a foreign slot closes the root's bucket.
structure Midway (cfg : Cfg) (k : Prop) (fl : Flash) (past : List Event) (m cl : Prop) (w : World) :
    Prop where
  calm : Calmly k w
  active : w.st.activeMaster ≤ 1
  room : k → w.st.rotGen + 2 < 2 ^ 32
  index : ¬ OpenBucket cfg w.flash (rootBid cfg) → Unknown cfg (rootBid cfg) w.st.sidx
  grown : past.length ≤ w.history.length
  wrote : m → past.length < w.history.length
  quiet : ¬ m → Still fl past w ∧ Unknown cfg (rootBid cfg) w.st.sidx
  closed : ClosedBucket cfg w.flash (rootBid cfg) ↔ cl

theorem segGeometry_error {e : Errno} (h : segGeometry cfg = .error e) : e = .ENOTSUP := by
  unfold segGeometry at h
  extract_lets chunkCap sl sl' idxCap usable at h
  generalize sl' = n at h
  split at h
  . injection h with h
    exact h.symm
  . split at h
    . injection h with h
      exact h.symm
    . cases h

theorem active_data : DataFrame AnyEvent (fun w => w.st.activeMaster ≤ 1) fun _ => True where
  lost _ _ := trivial
  stable w w' q h := by
    show w'.st.activeMaster ≤ 1
    rw [q.activeMaster]
    exact h
  data sector r _ := storeMutate_spec (fun _ h _ _ => h) (fun _ _ _ h _ _ => h)
    fun _ _ _ _ _ _ => trivial
  wedge _ h := h

theorem segSweep_noRefusal (owner : Nat) :
    Spec (History AnyEvent) (fun w => w.st.activeMaster ≤ 1) (segSweep cfg owner)
      ⟨fun _ _ => True, fun e _ => e ≠ .ENOTSUP, fun _ => True⟩ := by
  apply segSweep_rule active_data.stable (fun sid _ => segReleaseOne_keeps active_data.frame sid) ?_
    fun _ => trivial
  have hcommit : Advances False (fun w => w.st.activeMaster ≤ 1) (persistSegOwner cfg 0)
      fun _ _ => True := by
    intro w h hh
    have hstart : Committed False w.flash (fun _ => True) 0 1 w :=
      ⟨fun _ _ => rfl, trivial, Nat.zero_le _, h.2, fun h => h.elim⟩
    exact (persistSegOwner_committed 0).conseq (fun _ h => h) (fun _ _ _ => trivial)
      w ⟨h.1, hstart⟩ hh
  apply Spec.conseq hcommit
  . exact fun w h => ⟨fun h => h.elim, h⟩
  . exact fun _ _ _ => trivial
  . exact fun _ _ h => h.1
  . exact fun _ _ => trivial

theorem Quiet.committed {w w' : World} (q : Quiet w w') {n r : Nat}
    (h : Committed k w.flash (fun _ => True) n r w) :
    Committed k w.flash (fun _ => True) n r w' := by
  refine ⟨?_, trivial, ?_, ?_, ?_⟩
  . intro s _
    rw [q.flash]
  . rw [q.history]
    exact h.wrote
  . rw [q.activeMaster]
    exact h.active
  . intro hk
    rw [q.rotGen]
    exact h.room hk

-- The root is found or bound. Where it is bound the mount has written.
theorem bindRootIfMissing_ending (hv : cfg.Valid) {m cl : Prop}
    (hbad : bad ↔ (m ∧ (cl ∨ LateGeometry cfg)) ∨
      (¬ cl ∧ LateGeometry cfg ∧ contentOf cfg fl rootId = none)) (hrefused : ¬ refused) :
    Spec (History AnyEvent) (Midway cfg k fl past m cl) (bindRootIfMissing cfg)
      ⟨fun _ w => ¬ cl ∧ w.st.activeMaster ≤ 1 ∧ (m → past.length < w.history.length) ∧
          (¬ m → (contentOf cfg fl rootId ≠ none → Still fl past w) ∧
            (contentOf cfg fl rootId = none → past.length < w.history.length)),
        (Ending k bad refused fl past).err, (Ending k bad refused fl past).cut⟩ := by
  intro w₁ hmid hh
  refine (?_ : Spec (History AnyEvent) (fun w => w = w₁) (bindRootIfMissing cfg) _) w₁ rfl hh
  have hstop : ¬ k → ∀ e, e ≠ .ENOTSUP → ∀ w, (Ending k bad refused fl past).err e w := by
    intro hk e he w
    exact ⟨fun h => absurd h he, fun h => absurd h hrefused, fun h => absurd h hk⟩
  have hG : Stable (Quiet w₁) := fun w w' q h => h.trans q
  have hroot := rootIsLive_tells (k := k) hG hv
    (show ¬ OpenBucket cfg w₁.flash (rootBid cfg) →
      ¬ OpenBucket cfg w₁.flash (rootBid cfg) ∨ ¬ m from .inl)
  unfold bindRootIfMissing
  apply (hroot.pre ?_).bind
  . intro live
    apply Spec.assuming
    . exact fun _ h => h.1
    rintro ⟨hclosed, hlive⟩
    have hcl : ¬ cl := fun h => hclosed (hmid.closed.mpr h)
    refine Spec.pre ?_ fun w h => h.2
    split
    . next hyes =>
      apply Spec.ret
      rintro w ⟨⟨-, q⟩, -⟩
      refine ⟨hcl, by rw [q.activeMaster]; exact hmid.active, ?_, ?_⟩
      . intro hm
        rw [q.history]
        exact hmid.wrote hm
      . intro hm
        obtain ⟨⟨hfl, hpast⟩, -⟩ := hmid.quiet hm
        refine ⟨fun _ => ⟨by rw [q.flash, hfl], by rw [q.history, hpast]⟩, ?_⟩
        intro hnone
        have := hlive (.inr hm)
        rw [hfl, hnone, hyes] at this
        cases this
    . next hno =>
      have hno : live = false := by simpa using hno
      have hstart : Committed k w₁.flash (fun _ => True) past.length 2 w₁ :=
        ⟨fun _ _ => rfl, trivial, hmid.grown, hmid.active, hmid.room⟩
      have hbind : Advances k (Committed k w₁.flash (fun _ => True) past.length 2) (do
          modifySt fun st => if st.nextId < 2 then { st with nextId := 2 } else st
          let st ← getSt
          Proc.when (st.nextIdHint < 2) (persistNextIdHint cfg)
          bindRootEmpty cfg)
          fun _ w => w.st.activeMaster ≤ 1 ∧ past.length < w.history.length := by
        have hnext : Advances k (Committed k w₁.flash (fun _ => True) past.length 2)
            (modifySt fun st => if st.nextId < 2 then { st with nextId := 2 } else st)
            fun _ => Committed k w₁.flash (fun _ => True) past.length 2 := by
          apply modifySt_advances
          intro w h
          split
          . exact h.ram rfl rfl rfl
          . exact h
        apply hnext.bind
        intro _
        apply getSt_advances
        intro st
        have hhint : Advances k
            (fun w => w.st = st ∧ Committed k w₁.flash (fun _ => True) past.length 2 w)
            (Proc.when (st.nextIdHint < 2) (persistNextIdHint cfg))
            fun _ => Committed k w₁.flash (fun _ => True) past.length 1 := by
          apply Advances.when
          . exact fun w h => h.2.mono le_rfl (by omega)
          . intro _
            exact (masterCommitHow_committed false).conseq (fun w h => h.2)
              fun _ w h => h.mono (by omega) le_rfl
        apply hhint.bind
        intro _
        exact (bindRootEmpty_advances hv).conseq (fun _ h => h) fun _ w h => ⟨h.active, h.wrote⟩
      apply Spec.conseq hbind
      . exact fun w h => ⟨h.1.1, h.1.2.committed hstart⟩
      . rintro _ w ⟨-, hactive, hlen⟩
        refine ⟨hcl, hactive, fun _ => hlen, fun hm => ⟨?_, fun _ => hlen⟩⟩
        intro hsome
        have hl := hlive (.inr hm)
        rw [(hmid.quiet hm).1.1, hno] at hl
        cases hc : contentOf cfg fl rootId with
        | none => exact absurd hc hsome
        | some x =>
          rw [hc] at hl
          cases hl
      . exact fun e w h => hstop h.2 e h.1 w
      . exact fun w h hkb => h hkb.1
  . rintro e w ⟨⟨rfl, hclosed⟩ | ⟨hk, rfl⟩, ⟨-, q⟩, -⟩
    . have hcl := hmid.closed.mp hclosed
      refine ⟨fun _ => ?_, fun h => absurd h hrefused, fun _ hb => ⟨rfl, ?_⟩⟩
      . by_cases hm : m
        . exact .inl (hbad.mpr (.inl ⟨hm, .inl hcl⟩))
        . obtain ⟨⟨hfl, hpast⟩, -⟩ := hmid.quiet hm
          exact .inr ⟨by rw [q.flash, hfl], by rw [q.history, hpast]⟩
      . rw [q.history]
        rcases hbad.mp hb with ⟨hm, -⟩ | ⟨hno, -⟩
        . exact hmid.wrote hm
        . exact absurd hcl hno
    . exact hstop hk _ (by decide) w
  . exact fun _ h => h.elim
  . rintro w rfl
    refine ⟨⟨⟨hmid.calm, Quiet.refl _⟩, rfl⟩, ?_⟩
    rintro (h | h)
    . exact hmid.index h
    . exact (hmid.quiet h).2

-- What follows once the root is there.
theorem mountSegments_ending {m cl : Prop}
    (hbad : bad ↔ (m ∧ (cl ∨ LateGeometry cfg)) ∨
      (¬ cl ∧ LateGeometry cfg ∧ contentOf cfg fl rootId = none)) (hrefused : ¬ refused) :
    Spec (History AnyEvent)
      (fun w => ¬ cl ∧ w.st.activeMaster ≤ 1 ∧ (m → past.length < w.history.length) ∧
        (¬ m → (contentOf cfg fl rootId ≠ none → Still fl past w) ∧
          (contentOf cfg fl rootId = none → past.length < w.history.length)))
      (Proc.when cfg.large (mountSegments cfg)) (Ending k bad refused fl past) := by
  have hfine : ¬ cl → ¬ LateGeometry cfg → ¬ bad := by
    intro hcl hlate hb
    rcases hbad.mp hb with ⟨-, h | h⟩ | ⟨-, h, -⟩
    . exact hcl h
    . exact hlate h
    . exact hlate h
  apply Spec.assuming
  . exact fun w h => h.1
  intro hcl
  unfold Proc.when
  split
  . next hlarge =>
    unfold mountSegments segGeometryInit
    cases hgeo : segGeometry cfg with
    | error e =>
      obtain rfl := segGeometry_error hgeo
      have hlate : LateGeometry cfg := ⟨hlarge, hgeo⟩
      rintro w ⟨-, -, hwrote, hquiet⟩ -
      refine ⟨fun _ => ?_, fun h => absurd h hrefused, fun _ hb => ⟨rfl, ?_⟩⟩
      . by_cases hm : m
        . exact .inl (hbad.mpr (.inl ⟨hm, .inr hlate⟩))
        . by_cases hnone : contentOf cfg fl rootId = none
          . exact .inl (hbad.mpr (.inr ⟨hcl, hlate, hnone⟩))
          . exact .inr ((hquiet hm).1 hnone)
      . by_cases hm : m
        . exact hwrote hm
        . rcases hbad.mp hb with ⟨h, -⟩ | ⟨-, -, hnone⟩
          . exact absurd h hm
          . exact (hquiet hm).2 hnone
    | ok g =>
      have hnot : ¬ bad := by
        apply hfine hcl
        rintro ⟨-, h⟩
        rw [hgeo] at h
        cases h
      have hpost : Spec (History AnyEvent) (fun w => w.st.activeMaster ≤ 1) (do
          modifySt fun st => { st with segLen := g.1, segMax := g.2 }
          let st ← getSt
          Proc.when (st.segOwner != 0) (segSweep cfg st.segOwner))
          ⟨fun _ _ => True, fun e _ => e ≠ .ENOTSUP, fun _ => True⟩ := by
        refine modifySt_bind (I := fun w => w.st.activeMaster ≤ 1) (fun w h => h) ?_
        intro _
        apply getSt_bind
        intro st
        unfold Proc.when
        split
        . exact (segSweep_noRefusal _).pre fun w h => h.2
        . exact Spec.ret fun _ _ => trivial
      show Spec _ _ (do
        modifySt fun st => { st with segLen := g.1, segMax := g.2 }
        let st ← getSt
        Proc.when (st.segOwner != 0) (segSweep cfg st.segOwner)) _
      apply hpost.conseq
      . exact fun w h => h.2.1
      . exact fun _ _ _ h => hnot h.2
      . exact fun e w he => ⟨fun h => absurd h he, fun h => absurd h hrefused,
          fun _ hb => absurd hb hnot⟩
      . exact fun _ _ h => hnot h.2
  . next hlarge =>
    apply Spec.ret
    intro w _ hkb
    exact hfine hcl (fun h => hlarge h.1) hkb.2

/-! From the masters to the root -/

theorem pickOf_active {p : Pick} (h : pickOf cfg fl = some p) : p.active ≤ 1 := by
  unfold pickOf pickOfHigh at h
  have hhigh := pickHigh_le fl
  split at h
  . cases h
  . simp only at h
    split at h
    . cases h
      exact hhigh
    . split at h
      . split at h
        . cases h
          exact Nat.sub_le _ _
        . cases h
      . cases h

theorem damage_data (d : Bool) : DataFrame AnyEvent (fun w => w.damage = d) fun _ => True where
  lost _ _ := trivial
  stable w w' q h := by
    show w'.damage = d
    rw [q.damage]
    exact h
  data sector r _ := storeMutate_spec (fun _ h _ _ => h) (fun _ _ _ h _ _ => h)
    fun _ _ _ _ _ _ => trivial
  wedge _ h := h

theorem Committed.midway {f : Flash} {X : SlotIndex → Prop} {r : Nat} {m : Prop} {w : World}
    (h : Committed k f X past.length r w) (hcalm : Calmly k w) (hr : 2 ≤ r)
    (hX : ∀ t, X t → ¬ OpenBucket cfg f (rootBid cfg) → Unknown cfg (rootBid cfg) t)
    (hwrote : m → past.length < w.history.length)
    (hquiet : ¬ m → Still fl past w ∧ Unknown cfg (rootBid cfg) w.st.sidx) :
    Midway cfg k fl past m (ClosedBucket cfg f (rootBid cfg)) w := by
  have hsector := h.buckets (bucketSector (rootBid cfg)) (bucketSector_ge _)
  refine ⟨hcalm, h.active, fun hk => by have := h.room hk; omega, ?_, h.wrote, hwrote, hquiet, ?_⟩
  . intro hopen
    apply hX _ h.index
    unfold OpenBucket at *
    rwa [hsector] at hopen
  . unfold ClosedBucket
    rw [hsector]

-- A mount starts to read with a fresh index.
structure Opened (cfg : Cfg) (k : Prop) (past : List Event) (d : Bool) (w : World) : Prop where
  calm : Calmly k w
  history : w.history = past
  damage : w.damage = d
  index : Unknown cfg (rootBid cfg) w.st.sidx

theorem mountAdopted_midway (hv : cfg.Valid) {d : Bool} {p : Pick} (hp : p.active ≤ 1)
    (hroom : k → (masterHdrAt (fl p.active)).rotGen + 8 < 2 ^ 32) :
    Spec (History AnyEvent) (fun w => Reading (Opened cfg k past d) fl w)
      (mountAdopted cfg (viewOf (fl 0)) (viewOf (fl 1)) p)
      ⟨fun _ => Midway cfg k fl past (Mends cfg fl d p) (ClosedBucket cfg (restored cfg fl) (rootBid cfg)),
        fun e _ => e ≠ .ENOTSUP ∧ ¬ k, fun _ => ¬ k⟩ := by
  have hview : (if p.active = 0 then viewOf (fl 0) else viewOf (fl 1)) = viewOf (fl p.active) := by
    split
    . next h => rw [h]
    . next h => rw [show p.active = 1 by omega]
  have hother : (if p.active = 0 then viewOf (fl 1) else viewOf (fl 0)) =
      viewOf (fl (1 - p.active)) := by
    split
    . next h => rw [h]
    . next h => rw [show p.active = 1 by omega]
  unfold mountAdopted
  simp only [hview, hother]
  generalize hscan : (p.fellBack || (!(viewOf (fl (1 - p.active))).isOk || d)) = byRotation
  generalize hup : (featuresSplit (viewOf (fl 0)) (viewOf (fl 1)) ||
    decide (masterOldCap cfg (viewOf (fl 0)) (viewOf (fl 1)) < cfg.maxPayloadLen)) = upgrade
  have hmends : Mends cfg fl d p ↔ ¬ Unsealed cfg fl ∨ (byRotation || p.log.tailBad) = true ∨
      upgrade = true := by
    unfold Mends
    rw [hscan, hup]
  refine modifySt_bind (I := fun w => Calmly k w ∧ (w.flash = fl ∧ w.history = past ∧
    Committed k fl (Unknown cfg (rootBid cfg)) past.length 8 w) ∧ w.damage = d) ?_ ?_
  . rintro w ⟨h, rfl⟩
    exact ⟨h.calm, ⟨rfl, h.history, fun _ _ => rfl, h.index, by rw [← h.history], hp, hroom⟩,
      h.damage⟩
  intro _
  have hrecover : Advances k (fun w => w.flash = fl ∧ w.history = past ∧
      Committed k fl (Unknown cfg (rootBid cfg)) past.length 8 w) (recoverCompaction cfg) _ :=
    recoverCompaction_advances
  apply ((Spec.both hrecover (recoverCompaction_data (damage_data d))).pre
    fun w h => ⟨⟨h.1, h.2.1⟩, h.2.2⟩).bind
  . intro _
    apply Spec.read_bind
    intro d'
    apply Spec.assuming (φ := d' = d)
    . rintro w ⟨rfl, -, h⟩
      exact h
    rintro rfl
    rw [hscan]
    refine Spec.pre (P := fun w => Calmly k w ∧ Committed k (restored cfg fl)
      (Unknown cfg (rootBid cfg)) past.length 8 w ∧ (Unsealed cfg fl → w.flash = fl ∧ w.history = past) ∧
        (¬ Unsealed cfg fl → past.length + 1 ≤ w.history.length)) ?_ fun w h => ⟨h.2.1.1, h.2.1.2⟩
    cases hdo : (byRotation || p.log.tailBad) || upgrade with
    | false =>
      -- nothing more to mend
      rw [Bool.or_eq_false_iff] at hdo
      obtain ⟨hno, hno'⟩ := hdo
      rw [hno, hno']
      intro w ⟨hcalm, hc, hunsealed, hsealed⟩ _
      refine hc.midway hcalm (by decide) (fun t ht _ => ht) ?_ ?_
      . intro hm
        have hs : ¬ Unsealed cfg fl := by
          rcases hmends.mp hm with h | h | h
          . exact h
          . rw [hno] at h
            cases h
          . rw [hno'] at h
            cases h
        have := hsealed hs
        omega
      . intro hm
        have hs : Unsealed cfg fl := by
          by_contra hs
          exact hm (hmends.mpr (.inl hs))
        exact ⟨hunsealed hs, hc.index⟩
    | true =>
      have hm : Mends cfg fl d' p := by
        rw [hmends]
        rw [Bool.or_eq_true] at hdo
        exact .inr hdo
      have hrest : Advances k
          (Committed k (restored cfg fl) (Unknown cfg (rootBid cfg)) past.length 8) (do
            Proc.when (byRotation || p.log.tailBad) (doubtScan cfg)
            Proc.when upgrade (finishUpgrade cfg (viewOf (fl p.active)).hdr)
            endDoubt cfg (byRotation || p.log.tailBad) byRotation upgrade)
          fun _ => Committed k (restored cfg fl)
            (fun t => ¬ OpenBucket cfg (restored cfg fl) (rootBid cfg) → Unknown cfg (rootBid cfg) t)
            (past.length + 1) 2 := by
        have hdoubt : Advances k
            (Committed k (restored cfg fl) (Unknown cfg (rootBid cfg)) past.length 8)
            (Proc.when (byRotation || p.log.tailBad) (doubtScan cfg))
            fun _ => Committed k (restored cfg fl)
              (fun t => ¬ OpenBucket cfg (restored cfg fl) (rootBid cfg) →
                Unknown cfg (rootBid cfg) t) past.length 8 := by
          apply Advances.when
          . exact fun w h => ⟨h.buckets, fun _ => h.index, h.wrote, h.active, h.room⟩
          . exact fun _ => doubtScan_committed hv _
        apply hdoubt.bind
        intro _
        cases hu : upgrade with
        | true =>
          unfold Proc.when
          simp only [if_true]
          apply ((finishUpgrade_committed _).conseq (fun w h => h.mono le_rfl (by omega))
            fun _ _ h => h : Advances k _ _ fun _ => Committed k (restored cfg fl) _ _ 3).bind
          intro _
          apply (endDoubt_committed _ _ _).conseq
          . exact fun _ h => h
          . intro _ w h
            refine h.mono ?_ le_rfl
            simp
        | false =>
          rw [hu, Bool.or_false] at hdo
          unfold Proc.when
          simp only [Bool.false_eq_true, if_false]
          apply Spec.ret_bind
          rw [hdo]
          apply (endDoubt_committed _ _ _).conseq
          . exact fun w h => h.mono le_rfl (by decide : 3 ≤ 8)
          . intro _ w h
            exact h
      apply Spec.conseq hrest
      . exact fun w h => ⟨h.1, h.2.1⟩
      . rintro _ w ⟨hcalm, h⟩
        have hlen := h.wrote
        exact (h.mono (Nat.le_succ _) le_rfl).midway hcalm le_rfl (fun t ht => ht)
          (fun _ => by omega) fun hno => absurd hm hno
      . exact fun _ _ h => h
      . exact fun _ h => h
  . exact fun _ _ h => h.1
  . exact fun _ h => h.1

theorem mountUnusable_midway (hv : cfg.Valid) (hnone : pickOf cfg fl = none) {d : Bool}
    {Q : Post World Errno Unit}
    (hok : Reformats cfg fl → ∀ w, Midway cfg k fl past True False w → Q.ok () w)
    (hstop : Reformats cfg fl → ∀ e w, e ≠ .ENOTSUP → ¬ k → Q.err e w)
    (hcut : ¬ k → ∀ w, Q.cut w)
    (hno : ¬ Reformats cfg fl → ∀ w, Reading (Opened cfg k past d) fl w → Q.err Errno.EIO w) :
    Spec (History AnyEvent) (fun w => Reading (Opened cfg k past d) fl w)
      (mountUnusable cfg (viewOf (fl 0)) (viewOf (fl 1))) Q := by
  have herased : ((viewOf (fl 0)).cls = .erased ∧ (viewOf (fl 1)).cls = .erased) ↔
      MastersErased fl := by
    unfold MastersErased
    rw [← masterClassOf_erased, ← masterClassOf_erased]
    rfl
  have hpost : ∀ {x : M Unit}, Reformats cfg fl → Advances k (Wrote past.length) x
      (fun _ w => Committed k w.flash (fun _ => True) (past.length + 1) 8 w ∧
        OpenBucket cfg w.flash (rootBid cfg)) →
      Spec (History AnyEvent) (fun w => Reading (Opened cfg k past d) fl w) x Q := by
    intro x hre hx
    apply Spec.conseq hx
    . rintro w ⟨h, -⟩
      exact ⟨h.calm, by rw [Wrote, h.history]⟩
    . rintro _ w ⟨hcalm, hc, hopen⟩
      apply hok hre
      have hlen := hc.wrote
      have hmid : Midway cfg k fl past True _ w := (hc.mono (Nat.le_succ _) le_rfl).midway hcalm
        (by decide) (fun _ _ hno => absurd hopen hno) (fun _ => by omega) fun h => absurd trivial h
      have hclosed : ¬ ClosedBucket cfg w.flash (rootBid cfg) := by
        rintro ⟨-, hforeign⟩
        rw [hopen.2] at hforeign
        cases hforeign
      exact { hmid with closed := ⟨fun h => hclosed h, False.elim⟩ }
    . exact fun e w h => hstop hre e w h.1 h.2
    . exact fun w h => hcut h w
  unfold mountUnusable
  split
  . next h => exact hpost ⟨hnone, .inl (herased.mp h)⟩ (formatMastersFresh_advances hv)
  . next h =>
    split
    . next hauto => exact hpost ⟨hnone, .inr hauto⟩ (formatWholeStore_advances hv)
    . next hauto =>
      apply Spec.fail
      intro w hw
      refine hno ?_ w hw
      rintro ⟨-, he | ha⟩
      . exact h (herased.mpr he)
      . exact hauto ha

theorem not_refused_of_passes (hp : Passes cfg fl)
    (h : Reformats cfg fl ∨ ∃ p, pickOf cfg fl = some p) : ¬ MastersRefused cfg fl := by
  rintro (⟨ha, hb, hsame⟩ | ⟨hnone, herased, hauto⟩)
  . exact hp.differ ha hb hsame
  . rcases h with ⟨-, he | ha⟩ | ⟨p, hsome⟩
    . exact herased he
    . rw [hauto] at ha
      cases ha
    . rw [hnone] at hsome
      cases hsome

theorem mountOpened_ending (hv : cfg.storeOpenAndValidate = .ok ()) {d : Bool}
    (hroom : k → ∀ p, pickOf cfg fl = some p → (masterHdrAt (fl p.active)).rotGen + 8 < 2 ^ 32) :
    Spec (History AnyEvent) (fun w => Reading (Opened cfg k past d) fl w) (mountOpened cfg)
      (Ending k (WritesThenRefuses cfg fl d) (MastersRefused cfg fl) fl past) := by
  have hvalid := Cfg.valid_of_validate hv
  have hreads : ∀ w, Opened cfg k past d w →
      Opened cfg k past d { w with readFaults := w.readFaults.tail } := by
    intro w h
    refine ⟨fun hk => ⟨(h.calm hk).1, ?_⟩, h.history, h.damage, h.index⟩
    show w.readFaults.tail = []
    rw [(h.calm hk).2]
    rfl
  have hfails : FailsTo (Opened cfg k past d) fun _ => ¬ k := by
    intro w h hf hk
    rw [(h.calm hk).2] at hf
    cases hf
  have hstill : ∀ {e : Errno} {w : World}, Reading (Opened cfg k past d) fl w →
      ¬ (k ∧ WritesThenRefuses cfg fl d) →
      (Ending k (WritesThenRefuses cfg fl d) (MastersRefused cfg fl) fl past).err e w := by
    rintro e w ⟨h, hfl⟩ hno
    exact ⟨fun _ => .inr ⟨hfl, h.history⟩, fun _ => ⟨hfl, h.history⟩,
      fun hk hb => absurd ⟨hk, hb⟩ hno⟩
  unfold mountOpened
  have hclass : ∀ slot, Tells AnyEvent _ _ fl _ (masterClassify slot) _ _ := fun slot =>
    masterClassify_tells
      (C := (Ending k (WritesThenRefuses cfg fl d) (MastersRefused cfg fl) fl past).cut)
      (E := fun _ => False) hreads hfails slot
  have hclassErr : ∀ e w, ((False ∨ ¬ k ∧ e = Errno.EIO) ∧ Reading (Opened cfg k past d) fl w) →
      (Ending k (WritesThenRefuses cfg fl d) (MastersRefused cfg fl) fl past).err e w := by
    rintro e w ⟨h, hw⟩
    exact hstill hw fun hkb => (h.resolve_left not_false).1 hkb.1
  apply (hclass _).bind
  . intro a
    apply Spec.assuming
    . exact fun _ h => h.1
    rintro rfl
    apply ((hclass _).pre fun w h => h.2).bind
    . intro b
      apply Spec.assuming
      . exact fun _ h => h.1
      rintro rfl
      refine Spec.pre ?_ fun w h => h.2
      -- how the mount has fared when it gets to the root
      have hviews : Spec (History AnyEvent) (Reading (Opened cfg k past d) fl)
          (mountViews cfg (viewOf (fl 0)) (viewOf (fl 1)))
          ⟨fun _ w => ∃ m cl, ((WritesThenRefuses cfg fl d ↔ (m ∧ (cl ∨ LateGeometry cfg)) ∨
              (¬ cl ∧ LateGeometry cfg ∧ contentOf cfg fl rootId = none)) ∧
              ¬ MastersRefused cfg fl) ∧ Midway cfg k fl past m cl w,
            (Ending k (WritesThenRefuses cfg fl d) (MastersRefused cfg fl) fl past).err,
            (Ending k (WritesThenRefuses cfg fl d) (MastersRefused cfg fl) fl past).cut⟩ := by
        apply mountViews_tells hreads hfails
        . intro w st hs h
          exact ⟨h.calm, h.history, h.damage, by rw [hs]; exact h.index⟩
        . intro hpasses e w hw
          exact hstill hw fun hkb => hpasses hkb.2.2.1
        . intro w hk hw
          exact hstill hw fun hkb => hk hkb.1
        . intro hpasses hnone
          refine Spec.pre ?_ fun w h => h.2
          apply mountUnusable_midway hvalid hnone
          . intro hre w hmid
            refine ⟨True, False, ⟨?_, not_refused_of_passes hpasses (.inl hre)⟩, hmid⟩
            constructor
            . rintro ⟨-, -, ⟨-, hlate⟩ | ⟨p, hp, -⟩⟩
              . exact .inl ⟨trivial, .inr hlate⟩
              . rw [hnone] at hp
                cases hp
            . rintro (⟨-, h | hlate⟩ | ⟨-, hlate, -⟩)
              . exact h.elim
              . exact ⟨hv, hpasses, .inl ⟨hre, hlate⟩⟩
              . exact ⟨hv, hpasses, .inl ⟨hre, hlate⟩⟩
          . intro hre e w he hk
            exact ⟨fun h => absurd h he, fun h => absurd h (not_refused_of_passes hpasses (.inl hre)),
              fun h => absurd h hk⟩
          . exact fun hk w hkb => hk hkb.1
          . intro hre w hw
            refine hstill hw ?_
            rintro ⟨-, -, -, ⟨h, -⟩ | ⟨p, hp, -⟩⟩
            . exact hre h
            . rw [hnone] at hp
              cases hp
        . intro hpasses p hp
          have hnot := not_refused_of_passes hpasses (.inr ⟨p, hp⟩)
          have hadopt : Spec _ (Reading (Opened cfg k past d) fl) _ _ :=
            mountAdopted_midway hvalid (pickOf_active hp) fun hk => hroom hk p hp
          apply hadopt.conseq
          . exact fun _ h => h.2
          . intro _ w hmid
            refine ⟨_, _, ⟨?_, hnot⟩, hmid⟩
            constructor
            . rintro ⟨-, -, ⟨⟨hnone, -⟩, -⟩ | ⟨q, hq, h⟩⟩
              . rw [hp] at hnone
                cases hnone
              . rw [hp] at hq
                cases hq
                exact h
            . exact fun h => ⟨hv, hpasses, .inr ⟨p, hp, h⟩⟩
          . exact fun e w h => ⟨fun he => absurd he h.1, fun he => absurd he hnot,
              fun hk => absurd hk h.2⟩
          . exact fun w h hkb => h hkb.1
      apply hviews.bind
      . intro _
        apply Spec.given
        intro m
        apply Spec.given
        intro cl
        apply Spec.assuming
        . exact fun w h => h.1
        rintro ⟨hbad, hrefused⟩
        apply ((bindRootIfMissing_ending hvalid hbad hrefused).pre fun w h => h.2).bind
        . intro _
          refine modifySt_bind (fun w h => ?_) fun _ => mountSegments_ending hbad hrefused
          exact h
        . exact fun _ _ h => h
        . exact fun _ h => h
      . exact fun _ _ h => h
      . exact fun _ h => h
    . exact hclassErr
    . exact fun _ h => h
  . exact hclassErr
  . exact fun _ h => h

theorem reset_unknown (bid : Nat) : Unknown cfg bid (SlotIndex.reset cfg cfg.nBuckets) := by
  intro _
  apply cursorOf_none
  unfold SlotIndex.reset
  split <;> rfl

theorem mountImpl_ending {d : Bool}
    (hroom : k → ∀ p, pickOf cfg fl = some p → (masterHdrAt (fl p.active)).rotGen + 8 < 2 ^ 32) :
    Spec (History AnyEvent)
      (fun w => (Calmly k w ∧ w.damage = d ∧ Still fl past w) ∧ w.st.mounted = false) (mountImpl cfg)
      (Ending k (WritesThenRefuses cfg fl d) (MastersRefused cfg fl) fl past) := by
  unfold mountImpl
  apply getSt_bind
  intro st
  apply Spec.assuming (φ := st.mounted = false)
  . rintro w ⟨rfl, -, hm⟩
    exact hm
  intro hm
  rw [hm]
  simp only [Bool.false_eq_true, if_false]
  have hinv : ∀ J : World → Prop, (∀ w st, J w → J { w with st := st }) →
      Spec (History AnyEvent) J (idxInvalidate cfg) (.exits J (fun _ => False) fun _ => False) := by
    intro J hJ
    unfold idxInvalidate
    split
    . exact modifySt_spec fun w h => hJ w _ h
    . exact Spec.ret fun _ h => h
  have hram : ∀ (w : World) (st : St), (Calmly k w ∧ w.damage = d ∧ Still fl past w) →
      Calmly k { w with st := st } ∧ { w with st := st }.damage = d ∧
        Still fl past { w with st := st } := fun _ _ h => h
  apply ((hinv _ hram).pre fun w h => h.2.1).bind
  . intro _
    refine modifySt_bind (I := fun w => Calmly k w ∧ w.damage = d ∧ Still fl past w)
      (fun w h => h) ?_
    intro _
    apply Spec.ofExcept_bind
    . intro e he w h
      have hno : ¬ WritesThenRefuses cfg fl d := by
        rintro ⟨hv, -⟩
        rw [he] at hv
        cases hv
      exact ⟨fun _ => .inr h.2.2, fun _ => h.2.2, fun _ hb => absurd hb hno⟩
    . intro _ hv
      have hreset : Spec (History AnyEvent) (fun w => Calmly k w ∧ w.damage = d ∧ Still fl past w)
          (sidxReset cfg) (.exits (Reading (Opened cfg k past d) fl) (fun _ => False)
            fun _ => False) := by
        unfold sidxReset modifySidx
        split
        . exact modifySt_spec fun w h => ⟨⟨h.1, h.2.2.2, h.2.1, reset_unknown _⟩, h.2.2.1⟩
        . next hsi =>
          exact Spec.ret fun w h => ⟨⟨h.1, h.2.2.2, h.2.1, fun h => absurd h hsi⟩, h.2.2.1⟩
      apply hreset.bind
      . intro _
        apply (mountOpened_ending hv hroom).attempt.bind
        . intro rc
          cases rc with
          | ok a => exact Spec.ret fun _ h => h
          | error e =>
            refine modifySt_bind
              (I := (Ending k (WritesThenRefuses cfg fl d) (MastersRefused cfg fl) fl past).err e)
              (fun w h => h) ?_
            intro _
            have hdisable : Spec (History AnyEvent)
                ((Ending k (WritesThenRefuses cfg fl d) (MastersRefused cfg fl) fl past).err e)
                (sidxDisable cfg) (.exits
                  ((Ending k (WritesThenRefuses cfg fl d) (MastersRefused cfg fl) fl past).err e)
                  (fun _ => False) fun _ => False) := by
              unfold sidxDisable modifySidx
              split
              . exact modifySt_spec fun w h => h
              . exact Spec.ret fun _ h => h
            apply hdisable.bind
            . exact fun _ => Spec.fail fun _ h => h
            . exact fun _ _ h => h.elim
            . exact fun _ h => h.elim
        . exact fun _ _ h => h.elim
        . exact fun _ h => h
      . exact fun _ _ h => h.elim
      . exact fun _ h => h.elim
  . exact fun _ _ h => h.elim
  . exact fun _ h => h.elim

end

-- A build with a smaller cap refuses the store of another.
def unmountedStore : World :=
  (runCalls smallDevice (World.fresh blankFlash) [{ op := .mount }, { op := .unmount }]).2

end KeyValueDb.BlobDb
