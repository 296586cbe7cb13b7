import KeyValueDb.BlobDb.Masters

/-!
What a mount reads of the master sectors: the search for the end of a log finds it, and the sector
that is picked is the one whose newest record counts.
-/

namespace KeyValueDb.BlobDb

variable {cfg : Cfg} {good : Event → Prop} {I C : World → Prop} {fl : Flash}

-- While a mount reads, the flash is the one it started with.
abbrev Reading (I : World → Prop) (fl : Flash) (w : World) : Prop := I w ∧ w.flash = fl

theorem reading_stable (S : Stable I) : Stable (Reading I fl) :=
  fun w w' q h => ⟨S w w' q h.1, q.flash.trans h.2⟩

-- A reader's answer is `P`, whether or not every read of it succeeds.
abbrev Answers (good : Event → Prop) (I C : World → Prop) (fl : Flash) {α : Type} (x : M α)
    (P : α → Prop) : Prop :=
  Spec (History good) (Reading I fl) x
    ⟨fun a w => P a ∧ Reading I fl w, fun _ => Reading I fl, C⟩

theorem answers_ret {α : Type} {a : α} {P : α → Prop} (h : P a) :
    Answers good I C fl (pure a) P :=
  Spec.ret fun _ hw => ⟨h, hw⟩

theorem answers_bind {α β : Type} {x : M α} {f : α → M β} {P : α → Prop} {Q : β → Prop}
    (hx : Answers good I C fl x P) (hf : ∀ a, P a → Answers good I C fl (f a) Q) :
    Answers good I C fl (x >>= f) Q := by
  apply hx.bind
  . intro a
    apply Spec.assuming (φ := P a)
    . exact fun _ h => h.1
    . intro ha
      exact (hf a ha).pre fun _ h => h.2
  . exact fun _ _ h => h
  . exact fun _ h => h

theorem storeRead_answers (S : Stable I) (sector off len : Nat) :
    Answers good I C fl (storeRead sector off len) (· = bytesAt (fl sector) off len) := by
  apply (readFlash_spec (reading_stable S) _).conseq (fun _ h => h)
  . intro a w h
    refine ⟨?_, h.2⟩
    rw [h.1, h.2.2]
  . exact fun _ _ h => h
  . exact fun _ h => h

/-! The log of one sector -/

theorem masterLogEnd_answers (S : Stable I) {slot rot n : Nat} (hlog : Log cfg (fl slot) rot n)
    (k lo hi : Nat) (hlo : lo ≤ n) (hhi : n ≤ hi) (hcap : hi ≤ cfg.logCap) (hk : hi - lo < k) :
    Answers good I C fl (masterLogEnd cfg slot k lo hi) (· = n) := by
  induction k generalizing lo hi with
  | zero => omega
  | succ k ih =>
    unfold masterLogEnd
    split
    . simp only
      apply answers_bind (storeRead_answers S _ _ _)
      rintro buf rfl
      -- the middle slot reads erased or not: the end is on that side of it
      have hmid : (bytesAt (fl slot) (masterRecOff cfg (lo + (hi - lo) / 2)) cfg.recSize).all
          (· == 0xff) = recErased cfg (fl slot) (lo + (hi - lo) / 2) := rfl
      rw [hmid]
      split
      . next he =>
        apply ih
        . exact hlo
        . by_contra hlt
          rw [hlog.written _ (by omega)] at he
          cases he
        . omega
        . omega
      . next he =>
        apply ih
        . by_contra hlt
          exact he (hlog.erased _ (by omega) (by omega))
        . exact hhi
        . exact hcap
        . omega
    . exact answers_ret (by omega)

-- A slot read on its own verifies, and says, what it does in its sector.
theorem masterRecOk_image (cfg : Cfg) (buf : Sector) (rot i : Nat) :
    masterRecOk rot (image (bytesAt buf (masterRecOff cfg i) cfg.recSize)) 0 i =
      recOk cfg rot buf i ∧
    masterRecAt (image (bytesAt buf (masterRecOff cfg i) cfg.recSize)) 0 = recAt cfg buf i := by
  have hsize : masterRecLen ≤ cfg.recSize := recSize_ge
  unfold masterRecLen at hsize
  unfold recOk recAt masterRecOk masterRecAt leAt
  constructor
  . rw [bytesAt_image (by omega), bytesAt_image (by omega), bytesAt_image (by omega)]
    rfl
  . rw [bytesAt_image (by omega), bytesAt_image (by omega), bytesAt_image (by omega)]

theorem masterLogNewest_answers (S : Stable I) (slot rot n : Nat) :
    Answers good I C fl (masterLogNewest cfg slot rot n)
      (· = newestBelow cfg rot (fl slot) n) := by
  induction n with
  | zero => exact answers_ret rfl
  | succ n ih =>
    unfold masterLogNewest newestBelow
    apply answers_bind (storeRead_answers S _ _ _)
    rintro buf rfl
    obtain ⟨hok, hat⟩ := masterRecOk_image cfg (fl slot) rot n
    rw [hok, hat]
    split
    . exact answers_ret rfl
    . exact ih

theorem masterLogLoad_answers (S : Stable I) {slot rot n : Nat} (hlog : Log cfg (fl slot) rot n) :
    Answers good I C fl (masterLogLoad cfg slot rot) fun log =>
      log.endSlot = n ∧ log.newest = newestBelow cfg rot (fl slot) n := by
  unfold masterLogLoad
  apply answers_bind (masterLogEnd_answers S hlog _ _ _ (Nat.zero_le n) hlog.le (Nat.le_refl _)
    (by omega))
  rintro endSlot rfl
  apply answers_bind (masterLogNewest_answers S _ _ _)
  rintro newest rfl
  exact answers_ret ⟨rfl, rfl⟩

/-! Which sector is picked -/

def viewOf (buf : Sector) : MasterView := ⟨masterClassOf buf, masterHdrAt buf⟩

theorem masterClassify_answers (S : Stable I) (slot : Nat) :
    Answers good I C fl (masterClassify slot)
      (· = (masterClassOf (fl slot), masterHdrAt (fl slot))) := by
  unfold masterClassify
  apply answers_bind (storeRead_answers S _ _ _)
  rintro buf rfl
  rw [masterClassOf_image, masterHdrAt_image]
  exact answers_ret rfl

-- What the answer of the pick says of the flash.
def Picked (cfg : Cfg) (fl : Flash) : Option Pick → Prop
  | none => ∀ R, ¬ MastersOk cfg R fl
  | some p =>
    Masters cfg (· = p.record) fl p.active (masterHdrAt (fl p.active)).rotGen p.log.endSlot ∧
      Other cfg (fun _ => False) (masterHdrAt (fl p.active)).rotGen (fl (1 - p.active)) ∧
      ∀ R, MastersOk cfg R fl → R p.record

theorem MastersShape.sector (hs : MastersShape cfg fl) {a : Nat} (ha : a ≤ 1) :
    SectorShape cfg (fl a) := by
  have : a = 0 ∨ a = 1 := by omega
  rcases this with rfl | rfl
  . exact hs.a
  . exact hs.b

theorem SectorShape.log {buf : Sector} (hs : SectorShape cfg buf) (hok : masterClassOf buf = .ok) :
    ∃ n, Log cfg buf (masterHdrAt buf).rotGen n := by
  rcases hs with h | ⟨rot, n, hlog⟩
  . exact absurd hok h.1
  . rw [hlog.rot]
    exact ⟨n, hlog⟩

section

variable {hi n : Nat} (hhi : hi ≤ 1)
  (hlog : Log cfg (fl hi) (masterHdrAt (fl hi)).rotGen n)
  (hlow : masterClassOf (fl (1 - hi)) = .ok →
    (masterHdrAt (fl (1 - hi))).rotGen < (masterHdrAt (fl hi)).rotGen)

include hhi hlog hlow

-- The higher sector has a record.
theorem picked_high (hs : MastersShape cfg fl) {i : Nat} {r : MasterRec} {log : MasterLog}
    (hend : log.endSlot = n)
    (hnew : newestBelow cfg (masterHdrAt (fl hi)).rotGen (fl hi) n = some (i, r)) :
    Picked cfg fl (some ⟨hi, false, log, r⟩) := by
  have hother : Other cfg (fun _ => False) (masterHdrAt (fl hi)).rotGen (fl (1 - hi)) := by
    rcases hs.sector (show 1 - hi ≤ 1 by omega) with h | ⟨rot, k, hlo⟩
    . exact .inl h
    . have := hlow hlo.ok
      rw [hlo.rot] at this
      exact .inr ⟨rot, k, hlo, by omega, by omega⟩
  refine ⟨⟨hhi, ?_, ⟨i, r, ?_, rfl⟩, hother.mono fun _ h => h.elim⟩, hother, ?_⟩
  . rw [hend]
    exact hlog
  . rw [hend]
    exact hnew
  . intro R ⟨a, rotGen, k, hm⟩
    have ha := hm.active
    by_cases hahi : a = hi
    . subst hahi
      obtain ⟨hrot, hk⟩ := hlog.unique hm.log
      obtain ⟨i', r', hnew', hR⟩ := hm.newest
      rw [← hrot, ← hk, hnew] at hnew'
      cases hnew'
      exact hR
    . -- the other sector is the one known of: its records are candidates
      have hal : a = 1 - hi := by omega
      subst hal
      have hback : 1 - (1 - hi) = hi := by omega
      have hlt := hlow hm.log.ok
      rw [hm.log.rot] at hlt
      have hoth := hm.other
      rw [hback] at hoth
      rcases hoth with h | ⟨rot, k', hlog', _, hrec⟩
      . exact absurd hlog.ok h.1
      . obtain ⟨hrot, hk⟩ := hlog.unique hlog'
        obtain ⟨hin, hok, hat⟩ := newestBelow_some hnew
        rw [← hat]
        exact hrec (by omega) i (by omega) (by rw [← hrot]; exact hok)

variable (hnone : newestBelow cfg (masterHdrAt (fl hi)).rotGen (fl hi) n = none)

include hnone

-- It has none, so whatever is known is known of the lower one.
theorem masters_low {R : MasterRec → Prop} {a rotGen k : Nat} (hm : Masters cfg R fl a rotGen k) :
    a = 1 - hi := by
  have ha := hm.active
  by_contra hne
  have hahi : a = hi := by omega
  subst hahi
  obtain ⟨hrot, hk⟩ := hlog.unique hm.log
  obtain ⟨i, r, hnew, _⟩ := hm.newest
  rw [← hrot, ← hk, hnone] at hnew
  cases hnew

theorem picked_low {m i : Nat} {r : MasterRec} {log : MasterLog} (hend : log.endSlot = m)
    (hlo : Log cfg (fl (1 - hi)) (masterHdrAt (fl (1 - hi))).rotGen m)
    (hnew : newestBelow cfg (masterHdrAt (fl (1 - hi))).rotGen (fl (1 - hi)) m = some (i, r)) :
    Picked cfg fl (some ⟨1 - hi, true, log, r⟩) := by
  have hback : 1 - (1 - hi) = hi := by omega
  have hother : Other cfg (fun _ => False) (masterHdrAt (fl (1 - hi))).rotGen
      (fl (1 - (1 - hi))) := by
    rw [hback]
    have := hlow hlo.ok
    refine .inr ⟨_, n, hlog, by omega, ?_⟩
    intro _ j hj hok
    rw [newestBelow_none hnone j hj] at hok
    cases hok
  refine ⟨⟨by simp, ?_, ⟨i, r, ?_, rfl⟩, hother.mono fun _ h => h.elim⟩, hother, ?_⟩
  . rw [hend]
    exact hlo
  . rw [hend]
    exact hnew
  . intro R ⟨a, rotGen, k, hm⟩
    have hal := masters_low hhi hlog hlow hnone hm
    subst hal
    obtain ⟨hrot, hk⟩ := hlo.unique hm.log
    obtain ⟨i', r', hnew', hR⟩ := hm.newest
    rw [← hrot, ← hk, hnew] at hnew'
    cases hnew'
    exact hR

theorem picked_none
    (hlo : ∀ m, Log cfg (fl (1 - hi)) (masterHdrAt (fl (1 - hi))).rotGen m →
      newestBelow cfg (masterHdrAt (fl (1 - hi))).rotGen (fl (1 - hi)) m = none) :
    Picked cfg fl none := by
  intro R ⟨a, rotGen, k, hm⟩
  have hal := masters_low hhi hlog hlow hnone hm
  subst hal
  obtain ⟨i, r, hnew, _⟩ := hm.newest
  have hlogm := hm.log
  rw [← hlogm.rot] at hnew hlogm
  rw [hlo k hlogm] at hnew
  cases hnew

end

-- The slot the pick looks at first.
def pickHigh (fl : Flash) : Nat :=
  if (viewOf (fl 0)).isOk && (viewOf (fl 1)).isOk then
    (if (masterHdrAt (fl 1)).rotGen < (masterHdrAt (fl 0)).rotGen then 0 else 1)
  else if (viewOf (fl 0)).isOk then 0 else 1

theorem viewOf_isOk {buf : Sector} : (viewOf buf).isOk = true ↔ masterClassOf buf = .ok := by
  simp [viewOf, MasterView.isOk]

theorem pickHigh_spec (hs : MastersShape cfg fl)
    (hsome : masterClassOf (fl 0) = .ok ∨ masterClassOf (fl 1) = .ok) :
    pickHigh fl ≤ 1 ∧ masterClassOf (fl (pickHigh fl)) = .ok ∧
      (masterClassOf (fl (1 - pickHigh fl)) = .ok →
        (masterHdrAt (fl (1 - pickHigh fl))).rotGen < (masterHdrAt (fl (pickHigh fl))).rotGen) := by
  have hdiff := hs.differ
  simp only [masterASector, masterBSector] at hdiff
  unfold pickHigh
  simp only [Bool.and_eq_true, viewOf_isOk]
  split
  . next hboth =>
    have hne := hdiff hboth.1 hboth.2
    split
    . next hlt => exact ⟨by omega, hboth.1, fun _ => hlt⟩
    . exact ⟨by omega, hboth.2, fun _ => by simp only [Nat.sub_self]; omega⟩
  . next hboth =>
    split
    . next ha => exact ⟨by omega, ha, fun hb => absurd ⟨ha, hb⟩ hboth⟩
    . next ha => exact ⟨by omega, hsome.resolve_left ha, fun hb => absurd hb ha⟩

theorem masterPick_answers (S : Stable I) (hs : MastersShape cfg fl) :
    Answers good I C fl (masterPick cfg (viewOf (fl 0)) (viewOf (fl 1))) (Picked cfg fl) := by
  unfold masterPick
  split
  . next hnone =>
    simp only [Bool.and_eq_true, Bool.not_eq_true', ← Bool.not_eq_true, viewOf_isOk] at hnone
    apply answers_ret
    intro R ⟨a, rotGen, k, hm⟩
    have ha := hm.active
    have : a = 0 ∨ a = 1 := by omega
    rcases this with rfl | rfl
    . exact hnone.1 hm.log.ok
    . exact hnone.2 hm.log.ok
  . next hsome =>
    simp only [Bool.and_eq_true, Bool.not_eq_true', ← Bool.not_eq_true, viewOf_isOk, not_and_or,
      not_not] at hsome
    obtain ⟨hhi, hok, hlow⟩ := pickHigh_spec hs hsome
    extract_lets hi hiView loView
    have hhiEq : hi = pickHigh fl := rfl
    have hhiView : hiView = viewOf (fl hi) := by
      have : hi = 0 ∨ hi = 1 := by omega
      rcases this with h | h <;> simp [hiView, h]
    have hloView : loView = viewOf (fl (1 - hi)) := by
      have : hi = 0 ∨ hi = 1 := by omega
      rcases this with h | h <;> simp [loView, h]
    rw [hhiView, hloView]
    rw [← hhiEq] at hhi hok hlow
    obtain ⟨n, hlog⟩ := (hs.sector hhi).log hok
    apply answers_bind (masterLogLoad_answers S hlog)
    intro log ⟨hend, hnew⟩
    split
    . next i r heq =>
      rw [heq] at hnew
      exact answers_ret (picked_high hhi hlog hlow hs hend hnew.symm)
    . next heq =>
      rw [heq] at hnew
      split
      . next hlo =>
        obtain ⟨m, hlogLo⟩ := (hs.sector (show 1 - hi ≤ 1 by omega)).log (viewOf_isOk.mp hlo)
        apply answers_bind (masterLogLoad_answers S hlogLo)
        intro log' ⟨hend', hnew'⟩
        split
        . next i r heq' =>
          rw [heq'] at hnew'
          exact answers_ret (picked_low hhi hlog hlow hnew.symm hend' hlogLo hnew'.symm)
        . next heq' =>
          rw [heq'] at hnew'
          apply answers_ret
          apply picked_none hhi hlog hlow hnew.symm
          intro m' hm'
          rw [(hlogLo.unique hm').2.symm]
          exact hnew'.symm
      . next hlo =>
        apply answers_ret
        apply picked_none hhi hlog hlow hnew.symm
        intro m hm
        exact absurd (viewOf_isOk.mpr hm.ok) hlo

/-! A fresh pair of master sectors -/

-- A sector that a fresh write was made to: it does not count, or it is a log at `rot`.
def FreshShape (cfg : Cfg) (rot : Nat) (buf : Sector) : Prop := NotOk buf ∨ ∃ n, Log cfg buf rot n

theorem MastersShape.of_notOk {slot : Nat} (ha : slot ≤ 1) (h : NotOk (fl slot))
    (ho : SectorShape cfg (fl (1 - slot))) : MastersShape cfg fl := by
  have : slot = 0 ∨ slot = 1 := by omega
  rcases this with rfl | rfl
  . exact ⟨.inl h, ho, fun h' _ => absurd h' h.1⟩
  . exact ⟨ho, .inl h, fun _ h' => absurd h' h.1⟩

theorem FreshShape.shape {rot : Nat} {buf : Sector} (h : FreshShape cfg rot buf) :
    SectorShape cfg buf := by
  rcases h with h | ⟨n, h⟩
  . exact .inl h
  . exact .inr ⟨rot, n, h⟩

-- The state a format leaves.
def St.formatted (cfg : Cfg) (st : St) : St :=
  { st with
    nextId := 2
    segOwner := 0
    fuses := 0
    incompat := cfg.buildIncompat
    roCompat := buildRoCompat
    compat := 0
    ceilingReset := false
    activeMaster := masterASector
    rotGen := 2
    logNext := 1
    logFailed := false
    nextIdHint := 259 }

-- The state while it writes the sectors.
def St.formatting (cfg : Cfg) (st : St) : St :=
  { st with
    nextId := 2
    segOwner := 0
    fuses := 0
    incompat := cfg.buildIncompat
    roCompat := buildRoCompat
    compat := 0
    ceilingReset := false }

def formatRec : MasterRec := ⟨259, 0, 0⟩

theorem bitsWithin_refl (n : Nat) : bitsWithin n n = true := by
  simp [bitsWithin]

theorem formatting_features (cfg : Cfg) (st : St) : FeaturesOk cfg (st.formatting cfg) :=
  ⟨bitsWithin_refl _, bitsWithin_refl _, Nat.pow_pos (by decide)⟩

theorem formatRec_fits : formatRec.Fits := ⟨by decide, by decide, by decide⟩

theorem formatted_session (hv : cfg.Valid) {st : St} {w : World} (hw : w.st = st.formatted cfg)
    (ha : w.flash masterASector =
      program blank 0 (masterSectorImage cfg (st.formatting cfg) 2 formatRec))
    (hb : w.flash masterBSector =
      program blank 0 (masterSectorImage cfg (st.formatting cfg) 1 formatRec)) :
    MasterSession cfg (· = formatRec) w := by
  have hlogA := freshSector_log hv (formatting_features cfg st) (show 2 < 256 ^ 4 by decide)
    formatRec_fits
  have hlogB := freshSector_log hv (formatting_features cfg st) (show 1 < 256 ^ 4 by decide)
    formatRec_fits
  rw [← ha] at hlogA
  rw [← hb] at hlogB
  have hother : Other cfg (fun _ => False) 2 (w.flash masterBSector) :=
    .inr ⟨1, 1, hlogB.1, by omega, by omega⟩
  refine ⟨⟨?_, ?_, ?_⟩, ?_, ?_, ?_, ?_, ⟨1, ?_, ?_⟩, ?_⟩
  all_goals rw [hw]
  . exact (formatting_features cfg st).incompat
  . exact (formatting_features cfg st).roCompat
  . exact (formatting_features cfg st).compat
  . show 2 < 256 ^ 4
    decide
  . show 259 < 256 ^ 8
    decide
  . show 0 < 256 ^ 8
    decide
  . show 0 < 256 ^ 4
    decide
  . exact ⟨Nat.zero_le 1, hlogA.1, ⟨0, formatRec, hlogA.2, rfl⟩, hother.mono fun _ h => h.elim⟩
  . exact fun _ => rfl
  . exact fun _ _ => hother

section

variable {G : World → Prop} (hgood : ∀ e, good e → MasterEventHonest cfg e) (hG : Aside G)

include hgood hG

theorem masterWriteSector_fresh (hv : cfg.Valid) {st : St} {slot rot : Nat} {r : MasterRec}
    {other : Sector} (hslot : slot ≤ 1) (hst : FeaturesOk cfg st) (hrot : rot < 256 ^ 4)
    (hr : r.Fits) :
    Spec (History good)
      (fun w => w.st = st ∧ (NotOk (w.flash slot) ∧ w.flash (1 - slot) = other) ∧ G w)
      (masterWriteSector cfg slot rot r)
      (.exits
        (fun w => w.st = st ∧ (w.flash slot = program blank 0 (masterSectorImage cfg st rot r) ∧
          w.flash (1 - slot) = other) ∧ G w)
        (fun w => (FreshShape cfg rot (w.flash slot) ∧ w.flash (1 - slot) = other) ∧ G w)
        (fun w => (FreshShape cfg rot (w.flash slot) ∧ w.flash (1 - slot) = other) ∧ G w)) := by
  have hne : 1 - slot ≠ slot := one_sub_ne hslot
  unfold masterWriteSector
  apply getSt_bind
  intro st'
  apply Spec.assuming (φ := st' = st)
  . exact fun w h => h.1.symm.trans h.2.1
  rintro rfl
  unfold storeReplace
  split
  . apply storeMutate_partly
    . intro w h hflash _
      refine ⟨h.1, ⟨hflash.trans (image_eq_program _), ?_⟩, hG.mutate w _ _ hslot h.2.2.2⟩
      rw [mutate_other hne]
      exact h.2.2.1.2
    . intro w part upper h hflash _
      refine ⟨⟨?_, ?_⟩, hG.mutate w _ _ hslot h.2.2.2⟩
      . rw [hflash]
        simp only [Request.partly]
        split
        . exact .inl h.2.2.1.1
        . rw [image_eq_program]
          exact .inr ⟨1, (freshSector_log hv hst hrot hr).1⟩
      . rw [mutate_other hne]
        exact h.2.2.1.2
  . apply Spec.seq (I := fun w => w.st = st' ∧ (w.flash slot = blank ∧ w.flash (1 - slot) = other) ∧
      G w)
    . apply storeMutate_partly
      . intro w h hflash _
        refine ⟨h.1, ⟨hflash, ?_⟩, hG.mutate w _ _ hslot h.2.2.2⟩
        rw [mutate_other hne]
        exact h.2.2.1.2
      . intro w part upper h _ hg
        refine ⟨⟨.inl (h.2.2.1.1.of_honest (hgood _ hg hslot) notOk_blank), ?_⟩,
          hG.mutate w _ _ hslot h.2.2.2⟩
        rw [mutate_other hne]
        exact h.2.2.1.2
    . intro _
      apply storeMutate_partly
      . intro w h hflash _
        refine ⟨h.1, ⟨?_, ?_⟩, hG.mutate w _ _ hslot h.2.2⟩
        . rw [hflash, h.2.1.1]
          rfl
        . rw [mutate_other hne]
          exact h.2.1.2
      . intro w part upper h hflash hg
        refine ⟨⟨?_, ?_⟩, hG.mutate w _ _ hslot h.2.2⟩
        . have hh := hgood _ hg hslot
          rw [World.mutation_after] at hh
          simp only [World.mutation, hflash, Request.whole, Request.partly, h.2.1.1] at hh
          rw [hflash, h.2.1.1]
          rcases freshSector_part hv hst hrot hr hh with h | ⟨n, h, _⟩
          . exact .inl h
          . exact .inr ⟨n, h⟩
        . rw [mutate_other hne]
          exact h.2.1.2

theorem masterFormat_spec (hv : cfg.Valid) (st : St) :
    Spec (History good)
      (fun w => w.st = st ∧ (NotOk (w.flash masterASector) ∧ NotOk (w.flash masterBSector)) ∧ G w)
      (masterFormat cfg)
      (.exits
        (fun w => w.st = st.formatted cfg ∧ MasterSession cfg (· = formatRec) w ∧ G w)
        (fun w => MastersShape cfg w.flash ∧ G w)
        (fun w => MastersShape cfg w.flash ∧ G w)) := by
  unfold masterFormat
  refine modifySt_bind (I := fun w => w.st = { st.formatting cfg with ceilingReset := true } ∧
    (NotOk (w.flash masterASector) ∧ NotOk (w.flash masterBSector)) ∧ G w) ?_ ?_
  . intro w ⟨hw, hn, hg⟩
    refine ⟨?_, hn, hG.ram w _ hg⟩
    show St.mk .. = St.mk ..
    rw [hw]
    rfl
  intro _
  apply getSt_bind
  intro st'
  apply Spec.assuming (φ := st' = { st.formatting cfg with ceilingReset := true })
  . exact fun w h => h.1.symm.trans h.2.1
  rintro rfl
  have hrec : masterRecFill { st.formatting cfg with ceilingReset := true } = formatRec := rfl
  rw [hrec]
  refine modifySt_bind (I := fun w => w.st = st.formatting cfg ∧
    (NotOk (w.flash masterASector) ∧ NotOk (w.flash masterBSector)) ∧ G w) ?_ ?_
  . intro w ⟨_, hw, hn, hg⟩
    refine ⟨?_, hn, hG.ram w _ hg⟩
    show St.mk .. = St.mk ..
    rw [hw]
    rfl
  intro _
  have hgiven : ∀ w, (w.st = st.formatting cfg ∧
      (NotOk (w.flash masterASector) ∧ NotOk (w.flash masterBSector)) ∧ G w) →
      ∃ a : { a // NotOk a }, w.st = st.formatting cfg ∧
        (NotOk (w.flash masterBSector) ∧ w.flash masterASector = a) ∧ G w := by
    intro w ⟨hw, hn, hg⟩
    exact ⟨⟨_, hn.1⟩, hw, ⟨hn.2, rfl⟩, hg⟩
  refine Spec.pre (Spec.given fun ⟨a, ha⟩ => ?_) hgiven
  have hwriteB : Spec (History good)
      (fun w => w.st = st.formatting cfg ∧
        (NotOk (w.flash masterBSector) ∧ w.flash masterASector = a) ∧ G w)
      (masterWriteSector cfg masterBSector 1 formatRec)
      (.exits
        (fun w => w.st = st.formatting cfg ∧ (NotOk (w.flash masterASector) ∧
          w.flash masterBSector =
            program blank 0 (masterSectorImage cfg (st.formatting cfg) 1 formatRec)) ∧ G w)
        (fun w => MastersShape cfg w.flash ∧ G w)
        (fun w => MastersShape cfg w.flash ∧ G w)) := by
    have hshape : ∀ w : World, (FreshShape cfg 1 (w.flash masterBSector) ∧
        w.flash (1 - masterBSector) = a) ∧ G w → MastersShape cfg w.flash ∧ G w := by
      intro w ⟨⟨hb, hra⟩, hg⟩
      refine ⟨MastersShape.of_notOk (Nat.zero_le 1) ?_ hb.shape, hg⟩
      rw [← hra] at ha
      exact ha
    apply (masterWriteSector_fresh hgood hG hv (by decide) (formatting_features cfg st) (by decide)
      formatRec_fits).conseq (fun _ h => h)
    . intro _ w ⟨hw, ⟨hb, hra⟩, hg⟩
      rw [← hra] at ha
      exact ⟨hw, ⟨ha, hb⟩, hg⟩
    . exact fun _ => hshape
    . exact hshape
  apply hwriteB.seq
  intro _
  apply Spec.seq (I := fun w => w.st = st.formatting cfg ∧ (w.flash masterASector =
      program blank 0 (masterSectorImage cfg (st.formatting cfg) 2 formatRec) ∧
    w.flash masterBSector =
      program blank 0 (masterSectorImage cfg (st.formatting cfg) 1 formatRec)) ∧ G w)
  . have hlogB := freshSector_log hv (formatting_features cfg st)
      (show 1 < 256 ^ 4 by decide) formatRec_fits
    have hshape : ∀ w : World, (FreshShape cfg 2 (w.flash masterASector) ∧
        w.flash (1 - masterASector) =
          program blank 0 (masterSectorImage cfg (st.formatting cfg) 1 formatRec)) ∧ G w →
        MastersShape cfg w.flash ∧ G w := by
      intro w ⟨⟨ha, hb⟩, hg⟩
      have hb : Log cfg (w.flash masterBSector) 1 1 := by
        rw [show w.flash masterBSector = _ from hb]
        exact hlogB.1
      refine ⟨⟨ha.shape, .inr ⟨1, 1, hb⟩, ?_⟩, hg⟩
      intro hok _
      rcases ha with h | ⟨n, h⟩
      . exact absurd hok h.1
      . rw [h.rot, hb.rot]
        decide
    apply (masterWriteSector_fresh hgood hG hv (by decide) (formatting_features cfg st) (by decide)
      formatRec_fits).conseq
    . exact fun w ⟨hw, hn, hg⟩ => ⟨hw, ⟨hn.1, hn.2⟩, hg⟩
    . exact fun _ _ h => h
    . exact fun _ => hshape
    . exact hshape
  . intro _
    apply modifySt_spec
    intro w ⟨hw, ⟨ha, hb⟩, hg⟩
    have hst : { w with st := { w.st with
        activeMaster := masterASector
        rotGen := 2
        logNext := 1
        logFailed := false
        nextIdHint := formatRec.nextIdHint } }.st = st.formatted cfg := by
      show St.mk .. = St.mk ..
      rw [hw]
      rfl
    exact ⟨hst, formatted_session hv hst ha hb, hG.ram w _ hg⟩

end

/-! Erasing what a format replaces -/

-- What an erase that took effect in part leaves of a sector: if its header still counts, it is the
-- old one.
theorem SectorShape.erase_part {b : Sector} {part : Nat} {upper : Bool} (hb : SectorShape cfg b)
    (hh : MasterHonest cfg b blank (Request.partly b part upper .erase)) :
    SectorShape cfg (Request.partly b part upper .erase) ∧
      (masterClassOf (Request.partly b part upper .erase) = .ok → masterClassOf b = .ok ∧
        (masterHdrAt (Request.partly b part upper .erase)).rotGen = (masterHdrAt b).rotGen) := by
  rcases hb with hb | ⟨rot, n, hlog⟩
  . have h := hb.of_honest hh notOk_blank
    exact ⟨.inl h, fun hok => absurd hok h.1⟩
  . rcases hlog.erase_part hh with h | ⟨n', h, _⟩
    . exact ⟨.inl h, fun hok => absurd hok h.1⟩
    . exact ⟨.inr ⟨rot, n', h⟩, fun _ => ⟨hlog.ok, h.rot.trans hlog.rot.symm⟩⟩

theorem MastersShape.other (hs : MastersShape cfg fl) {slot : Nat} (hslot : slot ≤ 1) :
    masterClassOf (fl slot) = .ok → masterClassOf (fl (1 - slot)) = .ok →
      (masterHdrAt (fl slot)).rotGen ≠ (masterHdrAt (fl (1 - slot))).rotGen := by
  have : slot = 0 ∨ slot = 1 := by omega
  rcases this with rfl | rfl
  . exact hs.differ
  . exact fun h1 h2 => (hs.differ h2 h1).symm

theorem MastersShape.mk' {slot : Nat} (hslot : slot ≤ 1) (h1 : SectorShape cfg (fl slot))
    (h2 : SectorShape cfg (fl (1 - slot)))
    (h : masterClassOf (fl slot) = .ok → masterClassOf (fl (1 - slot)) = .ok →
      (masterHdrAt (fl slot)).rotGen ≠ (masterHdrAt (fl (1 - slot))).rotGen) :
    MastersShape cfg fl := by
  have : slot = 0 ∨ slot = 1 := by omega
  rcases this with rfl | rfl
  . exact ⟨h1, h2, h⟩
  . exact ⟨h2, h1, fun h3 h4 => (h h4 h3).symm⟩

section

variable {G : World → Prop} (hgood : ∀ e, good e → MasterEventHonest cfg e) (hG : Aside G)

include hgood hG

-- Where nothing is known of the sectors before, nothing but the erased one is known after.
theorem storeErase_shape {k : Prop} {slot : Nat} (hslot : slot ≤ 1) (other : Sector → Prop) :
    Spec (History good)
      (fun w => (k → MastersShape cfg w.flash) ∧ other (w.flash (1 - slot)) ∧ G w)
      (storeErase slot)
      (.exits
        (fun w => (k → MastersShape cfg w.flash) ∧
          (w.flash slot = blank ∧ other (w.flash (1 - slot))) ∧ G w)
        (fun w => (k → MastersShape cfg w.flash) ∧ G w)
        (fun w => (k → MastersShape cfg w.flash) ∧ G w)) := by
  have hne : 1 - slot ≠ slot := one_sub_ne hslot
  apply storeMutate_partly
  . intro w ⟨hs, ho, hg⟩ hflash _
    have hother : (w.mutate slot .erase).flash (1 - slot) = w.flash (1 - slot) := mutate_other hne
    refine ⟨?_, ⟨hflash, by rw [hother]; exact ho⟩, hG.mutate w _ _ hslot hg⟩
    intro hk
    refine MastersShape.of_notOk hslot ?_ ?_
    . rw [hflash]
      exact notOk_blank
    . rw [hother]
      exact (hs hk).sector (Nat.sub_le _ _)
  . intro w part upper ⟨hs, ho, hg⟩ hflash hev
    refine ⟨?_, hG.mutate w _ _ hslot hg⟩
    intro hk
    have hother : (w.mutate slot .erase).flash (1 - slot) = w.flash (1 - slot) := mutate_other hne
    have hh := hgood _ hev hslot
    rw [World.mutation_after] at hh
    simp only [World.mutation, hflash, Request.whole] at hh
    obtain ⟨h1, h2⟩ := ((hs hk).sector hslot).erase_part hh
    refine MastersShape.mk' hslot ?_ ?_ ?_
    . rw [hflash]
      exact h1
    . rw [hother]
      exact (hs hk).sector (Nat.sub_le _ _)
    . rw [hflash, hother]
      intro hok hok'
      obtain ⟨hb, hrot⟩ := h2 hok
      rw [hrot]
      exact (hs hk).other hslot hb hok'

end

/-! A mount up to the choice of a sector -/

theorem bitsWithin_or {a b mask : Nat} (ha : bitsWithin a mask = true)
    (hb : bitsWithin b mask = true) : bitsWithin (a ||| b) mask = true := by
  unfold bitsWithin at *
  rw [beq_iff_eq] at *
  rw [Nat.or_assoc, hb, ha]

theorem FeaturesOk.accept {st : St} (h : FeaturesOk cfg st) {buf : Sector}
    (ha : masterAccept cfg (masterHdrAt buf) = true) :
    FeaturesOk cfg { st with
      incompat := st.incompat ||| (masterHdrAt buf).incompat
      roCompat := st.roCompat ||| (masterHdrAt buf).roCompat
      compat := st.compat ||| (masterHdrAt buf).compat } := by
  unfold masterAccept at ha
  simp only [Bool.and_eq_true] at ha
  refine ⟨bitsWithin_or h.incompat ha.1, bitsWithin_or h.roCompat ha.2.1, ?_⟩
  have hlt : (masterHdrAt buf).compat < 256 ^ 4 := leAt_lt _ _ _
  have h32 : (256 : Nat) ^ 4 = 2 ^ 32 := by decide
  have hst := h.compat
  rw [h32] at hlt hst ⊢
  exact Nat.or_lt_two_pow hst hlt

theorem featuresOk_zero (st : St) :
    FeaturesOk cfg { st with incompat := 0, roCompat := 0, compat := 0 } :=
  ⟨by simp [bitsWithin], by simp [bitsWithin], Nat.pow_pos (by decide)⟩

theorem adopted_session {w : World} {p : Pick} (hf : FeaturesOk cfg w.st)
    (hp : Picked cfg w.flash (some p)) :
    MasterSession cfg (· = p.record) { w with st := { w.st with
      activeMaster := p.active
      rotGen := (masterHdrAt (w.flash p.active)).rotGen
      logNext := p.log.endSlot
      logFailed := false
      ceilingReset := false
      nextIdHint := p.record.nextIdHint
      nextId := p.record.nextIdHint
      segOwner := p.record.segOwner
      fuses := p.record.fuses } } := by
  obtain ⟨hm, ho, _⟩ := hp
  obtain ⟨i, r, hnew, hr⟩ := hm.newest
  have hrec := (newestBelow_some hnew).2.2
  rw [hr] at hrec
  refine ⟨⟨hf.incompat, hf.roCompat, hf.compat⟩, ?_, ?_, ?_, ?_, ⟨_, hm, fun _ => rfl⟩,
    fun _ _ => ho⟩
  . exact leAt_lt _ _ _
  . show p.record.nextIdHint < _
    rw [← hrec]
    exact leAt_lt _ _ _
  . show p.record.segOwner < _
    rw [← hrec]
    exact leAt_lt _ _ _
  . show p.record.fuses < _
    rw [← hrec]
    exact leAt_lt _ _ _

section

variable (S : Stable I) (hram : ∀ w st, I w → I { w with st := st })

include hram

theorem acceptMaster_spec {buf : Sector} {C : World → Prop} :
    Spec (History good) (fun w => FeaturesOk cfg w.st ∧ Reading I fl w)
      (acceptMaster cfg (viewOf buf))
      (.exits (fun w => FeaturesOk cfg w.st ∧ Reading I fl w) (Reading I fl) C) := by
  unfold acceptMaster
  split
  . exact ret_keeps _
  . split
    . exact Spec.fail fun _ h => h.2
    . next ha =>
      have ha : masterAccept cfg (masterHdrAt buf) = true := by simpa [viewOf] using ha
      apply modifySt_spec
      intro w h
      exact ⟨h.1.accept ha, hram w _ h.2.1, h.2.2⟩

include S

-- The way to the pick, for any assertion the RAM state does not matter to.
theorem mountViews_spec (hs : MastersShape cfg fl) {Q : Post World Errno Unit}
    (hfail : ∀ e w, Reading I fl w → Q.err e w)
    (hnone : Picked cfg fl none → Spec (History good) (fun w => FeaturesOk cfg w.st ∧ Reading I fl w)
      (mountUnusable cfg (viewOf (fl 0)) (viewOf (fl 1))) Q)
    (hsome : ∀ p, Picked cfg fl (some p) →
      Spec (History good) (fun w => FeaturesOk cfg w.st ∧ Reading I fl w)
        (mountAdopted cfg (viewOf (fl 0)) (viewOf (fl 1)) p) Q) :
    Spec (History good) (Reading I fl) (mountViews cfg (viewOf (fl 0)) (viewOf (fl 1))) Q := by
  have hstable : Stable fun w => FeaturesOk cfg w.st ∧ I w := by
    intro w w' q h
    refine ⟨⟨?_, ?_, ?_⟩, S w w' q h.2⟩
    . rw [q.incompat]
      exact h.1.incompat
    . rw [q.roCompat]
      exact h.1.roCompat
    . rw [q.compat]
      exact h.1.compat
  unfold mountViews
  split
  . exact Spec.fail fun w h => hfail _ w h
  . refine modifySt_bind (I := fun w => FeaturesOk cfg w.st ∧ Reading I fl w) ?_ ?_
    . intro w h
      exact ⟨featuresOk_zero _, hram w _ h.1, h.2⟩
    intro _
    apply (acceptMaster_spec (C := Q.cut) hram).bind
    . intro _
      apply (acceptMaster_spec (C := Q.cut) hram).bind
      . intro _
        split
        . exact Spec.fail fun w h => hfail _ w h.2
        . have hpick : Answers good (fun w => FeaturesOk cfg w.st ∧ I w) Q.cut fl
              (masterPick cfg (viewOf (fl 0)) (viewOf (fl 1))) (Picked cfg fl) :=
            masterPick_answers hstable hs
          refine Spec.bind (hpick.pre fun w h => ⟨⟨h.1, h.2.1⟩, h.2.2⟩) ?_ ?_ ?_
          . intro pick
            apply Spec.assuming (φ := Picked cfg fl pick)
            . exact fun _ h => h.1
            intro hpick
            cases pick with
            | none => exact (hnone hpick).pre fun w h => ⟨h.2.1.1, h.2.1.2, h.2.2⟩
            | some p => exact (hsome p hpick).pre fun w h => ⟨h.2.1.1, h.2.1.2, h.2.2⟩
          . exact fun e w h => hfail e w ⟨h.1.2, h.2⟩
          . exact fun _ h => h
      . exact fun e w h => hfail e w h
      . exact fun _ h => h
    . exact fun e w h => hfail e w h
    . exact fun _ h => h

end

end KeyValueDb.BlobDb
