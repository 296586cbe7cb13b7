import KeyValueDb.BlobDb.MasterLog
import KeyValueDb.BlobDb.Neutral

/-!
The two master sectors together: which record a mount adopts, and how a commit changes that. A
commit that took effect makes its record the one; one that was cut, or failed, makes it one of the
candidates.
-/

namespace KeyValueDb.BlobDb

variable (cfg : Cfg)

-- The sector that is not active. Should it win over the active one, its records are candidates.
def Other (R : MasterRec → Prop) (rotGen : Nat) (buf : Sector) : Prop :=
  NotOk buf ∨ ∃ rot n, Log cfg buf rot n ∧ rot ≠ rotGen ∧
    (rotGen < rot → ∀ i, i < n → recOk cfg rot buf i = true → R (recAt cfg buf i))

-- Sector `a` is a log at `rotGen` with `n` records, and whatever a mount adopts has `R`.
structure Masters (R : MasterRec → Prop) (flash : Flash) (a rotGen n : Nat) : Prop where
  active : a ≤ 1
  log : Log cfg (flash a) rotGen n
  newest : ∃ i r, newestBelow cfg rotGen (flash a) n = some (i, r) ∧ R r
  other : Other cfg R rotGen (flash (1 - a))

def MastersOk (R : MasterRec → Prop) (flash : Flash) : Prop := ∃ a rotGen n, Masters cfg R flash a rotGen n

-- What is known of the master sectors when nothing is known of their records.
def SectorShape (buf : Sector) : Prop := NotOk buf ∨ ∃ rot n, Log cfg buf rot n

structure MastersShape (flash : Flash) : Prop where
  a : SectorShape cfg (flash masterASector)
  b : SectorShape cfg (flash masterBSector)
  differ : masterClassOf (flash masterASector) = .ok → masterClassOf (flash masterBSector) = .ok →
    (masterHdrAt (flash masterASector)).rotGen ≠ (masterHdrAt (flash masterBSector)).rotGen

-- A session: the RAM state agrees with the active sector. While the log can be appended to, no
-- record of the other sector wins over it.
structure MasterSession (R : MasterRec → Prop) (w : World) : Prop where
  features : FeaturesOk cfg w.st
  rot : w.st.rotGen < 256 ^ 4
  hint : w.st.nextIdHint < 256 ^ 8
  owner : w.st.segOwner < 256 ^ 8
  fuses : w.st.fuses < 256 ^ 4
  masters : ∃ n, Masters cfg R w.flash w.st.activeMaster w.st.rotGen n ∧
    (w.st.logFailed = false → n = w.st.logNext)
  appendable : w.st.logFailed = false → w.st.logNext < cfg.logCap →
    Other cfg (fun _ => False) w.st.rotGen (w.flash (1 - w.st.activeMaster))

-- The assumption on interrupted master writes.
def MasterEventHonest : Event → Prop
  | .mutation m => m.sector ≤ masterBSector →
    MasterHonest cfg (m.before m.sector) (m.request.whole (m.before m.sector)) (m.after m.sector)
  | .alloc _ => True

section

variable {cfg} {R R' : MasterRec → Prop} {flash : Flash}

theorem Other.mono {rotGen : Nat} {buf : Sector} (h : Other cfg R rotGen buf)
    (hr : ∀ r, R r → R' r) : Other cfg R' rotGen buf := by
  rcases h with h | ⟨rot, n, hlog, hne, hrec⟩
  . exact .inl h
  . exact .inr ⟨rot, n, hlog, hne, fun hlt i hi hok => hr _ (hrec hlt i hi hok)⟩

theorem Masters.mono {a rotGen n : Nat} (h : Masters cfg R flash a rotGen n)
    (hr : ∀ r, R r → R' r) : Masters cfg R' flash a rotGen n := by
  obtain ⟨i, r, hnew, hR⟩ := h.newest
  exact ⟨h.active, h.log, ⟨i, r, hnew, hr r hR⟩, h.other.mono hr⟩

theorem MastersOk.mono (h : MastersOk cfg R flash) (hr : ∀ r, R r → R' r) :
    MastersOk cfg R' flash := by
  obtain ⟨a, rotGen, n, hm⟩ := h
  exact ⟨a, rotGen, n, hm.mono hr⟩

theorem MasterSession.mono {w : World} (h : MasterSession cfg R w) (hr : ∀ r, R r → R' r) :
    MasterSession cfg R' w := by
  obtain ⟨n, hm, hn⟩ := h.masters
  exact ⟨h.features, h.rot, h.hint, h.owner, h.fuses, ⟨n, hm.mono hr, hn⟩, h.appendable⟩

theorem MasterSession.ok {w : World} (h : MasterSession cfg R w) : MastersOk cfg R w.flash := by
  obtain ⟨n, hm, _⟩ := h.masters
  exact ⟨_, _, n, hm⟩

theorem Other.shape {rotGen : Nat} {buf : Sector} (h : Other cfg R rotGen buf) :
    SectorShape cfg buf := by
  rcases h with h | ⟨rot, n, hlog, _, _⟩
  . exact .inl h
  . exact .inr ⟨rot, n, hlog⟩

theorem Other.differs {rotGen : Nat} {buf : Sector} (h : Other cfg R rotGen buf)
    (hok : masterClassOf buf = .ok) : (masterHdrAt buf).rotGen ≠ rotGen := by
  rcases h with h | ⟨rot, n, hlog, hne, _⟩
  . exact absurd hok h.1
  . rw [hlog.rot]
    exact hne

theorem Masters.shape {a rotGen n : Nat} (h : Masters cfg R flash a rotGen n) :
    MastersShape cfg flash := by
  have ha := h.active
  have hother := h.other
  have hlog := h.log
  have : a = 0 ∨ a = 1 := by omega
  rcases this with rfl | rfl
  . refine ⟨.inr ⟨_, _, hlog⟩, hother.shape, ?_⟩
    intro _ hb
    have := hother.differs hb
    have hrot : (masterHdrAt (flash masterASector)).rotGen = rotGen := hlog.rot
    rw [hrot]
    exact this.symm
  . refine ⟨hother.shape, .inr ⟨_, _, hlog⟩, ?_⟩
    intro ha _
    have := hother.differs ha
    have hrot : (masterHdrAt (flash masterBSector)).rotGen = rotGen := hlog.rot
    rw [hrot]
    exact this

theorem MastersShape.congr {flash' : Flash} (h : MastersShape cfg flash)
    (hf : ∀ s, s ≤ 1 → flash' s = flash s) : MastersShape cfg flash' := by
  have ha := hf masterASector (by decide)
  have hb := hf masterBSector (by decide)
  refine ⟨?_, ?_, ?_⟩
  . rw [ha]
    exact h.a
  . rw [hb]
    exact h.b
  . rw [ha, hb]
    exact h.differ

-- Only the two master sectors matter.
theorem MastersOk.congr {flash' : Flash} (h : MastersOk cfg R flash)
    (hf : ∀ s, s ≤ 1 → flash' s = flash s) : MastersOk cfg R flash' := by
  obtain ⟨a, rotGen, n, hm⟩ := h
  have ha := hf a hm.active
  have hb := hf (1 - a) (by omega)
  refine ⟨a, rotGen, n, hm.active, ?_, ?_, ?_⟩
  . rw [ha]
    exact hm.log
  . rw [ha]
    exact hm.newest
  . rw [hb]
    exact hm.other

theorem Masters.congr {flash' : Flash} {a rotGen n : Nat} (h : Masters cfg R flash a rotGen n)
    (hf : ∀ s, s ≤ 1 → flash' s = flash s) : Masters cfg R flash' a rotGen n := by
  have ha := hf a h.active
  have hb := hf (1 - a) (by omega)
  refine ⟨h.active, ?_, ?_, ?_⟩
  . rw [ha]
    exact h.log
  . rw [ha]
    exact h.newest
  . rw [hb]
    exact h.other

-- The RAM state matters to a session in its master fields only.
structure St.SameMaster (st st' : St) : Prop where
  activeMaster : st'.activeMaster = st.activeMaster
  rotGen : st'.rotGen = st.rotGen
  logNext : st'.logNext = st.logNext
  logFailed : st'.logFailed = st.logFailed
  incompat : st'.incompat = st.incompat
  roCompat : st'.roCompat = st.roCompat
  compat : st'.compat = st.compat
  fuses : st'.fuses = st.fuses
  nextIdHint : st'.nextIdHint = st.nextIdHint

theorem St.SameMaster.refl (st : St) : st.SameMaster st :=
  ⟨rfl, rfl, rfl, rfl, rfl, rfl, rfl, rfl, rfl⟩

theorem Quiet.sameMaster {w w' : World} (q : Quiet w w') : w.st.SameMaster w'.st :=
  ⟨q.activeMaster, q.rotGen, q.logNext, q.logFailed, q.incompat, q.roCompat, q.compat,
    q.fuses, q.nextIdHint⟩

theorem MasterSession.congr {w w' : World} (h : MasterSession cfg R w)
    (hst : w.st.SameMaster w'.st) (hf : ∀ s, s ≤ 1 → w'.flash s = w.flash s)
    (hown : w'.st.segOwner < 256 ^ 8) : MasterSession cfg R w' := by
  obtain ⟨n, hm, hn⟩ := h.masters
  have ha := hm.active
  refine ⟨⟨?_, ?_, ?_⟩, ?_, ?_, hown, ?_, ⟨n, ?_, ?_⟩, ?_⟩
  . rw [hst.incompat]
    exact h.features.incompat
  . rw [hst.roCompat]
    exact h.features.roCompat
  . rw [hst.compat]
    exact h.features.compat
  . rw [hst.rotGen]
    exact h.rot
  . rw [hst.nextIdHint]
    exact h.hint
  . rw [hst.fuses]
    exact h.fuses
  . rw [hst.rotGen, hst.activeMaster]
    exact hm.congr hf
  . rw [hst.logFailed, hst.logNext]
    exact hn
  . rw [hst.logFailed, hst.logNext, hst.rotGen, hst.activeMaster, hf _ (by omega)]
    exact h.appendable

/-! Commits -/

-- The record `r` has joined the candidates.
abbrev orRec (R : MasterRec → Prop) (r : MasterRec) : MasterRec → Prop := fun r' => R r' ∨ r' = r

theorem masterRecFill_fits {w : World} (h : MasterSession cfg R w) : (masterRecFill w.st).Fits := by
  have hwant : u64 (w.st.nextId + 1 + idHintStep) < 256 ^ 8 :=
    lt_of_lt_of_eq (Nat.mod_lt _ (by decide)) (by decide)
  refine ⟨?_, h.owner, h.fuses⟩
  show (if w.st.ceilingReset then u64 (w.st.nextId + 1 + idHintStep)
    else max w.st.nextIdHint (u64 (w.st.nextId + 1 + idHintStep))) < 256 ^ 8
  split
  . exact hwant
  . exact Nat.max_lt.mpr ⟨h.hint, hwant⟩

-- An assertion that neither the master sectors nor the RAM state are part of.
structure Aside (G : World → Prop) : Prop where
  mutate : ∀ w slot r, slot ≤ masterBSector → G w → G (w.mutate slot r)
  ram : ∀ w st, G w → G { w with st := st }

theorem one_sub_ne {a : Nat} (ha : a ≤ 1) : 1 - a ≠ a := by omega

theorem appendRecord_masters {a rotGen n : Nat} {r : MasterRec} {w : World}
    (hm : Masters cfg R w.flash a rotGen n)
    (ho : Other cfg (fun _ => False) rotGen (w.flash (1 - a))) (hn : n < cfg.logCap) (hr : r.Fits)
    (hf : w.nextFault = .none) :
    Masters cfg (· = r)
      (w.mutate a (.write (masterRecOff cfg n) (masterRecImage cfg rotGen n r))).flash a rotGen
      (n + 1) := by
  obtain ⟨hl, hnew⟩ := hm.log.append hn hr
  refine ⟨hm.active, ?_, ⟨n, r, ?_, rfl⟩, ?_⟩
  . rw [mutate_whole hf]
    exact hl
  . rw [mutate_whole hf]
    exact hnew
  . rw [mutate_other (one_sub_ne hm.active)]
    exact ho.mono fun _ h => h.elim

theorem appendRecord_part {a rotGen n part : Nat} {upper : Bool} {r : MasterRec} {w : World}
    (hm : Masters cfg R w.flash a rotGen n) (hn : n < cfg.logCap) (hr : r.Fits)
    (hflash : (w.mutate a (.write (masterRecOff cfg n) (masterRecImage cfg rotGen n r))).flash a =
      Request.partly (w.flash a) part upper
        (.write (masterRecOff cfg n) (masterRecImage cfg rotGen n r)))
    (hh : MasterEventHonest cfg (.mutation (w.mutation a
      (.write (masterRecOff cfg n) (masterRecImage cfg rotGen n r))))) :
    ∃ n', Masters cfg (orRec R r)
      (w.mutate a (.write (masterRecOff cfg n) (masterRecImage cfg rotGen n r))).flash a rotGen
      n' := by
  have hh' := hh hm.active
  rw [World.mutation_after] at hh'
  simp only [World.mutation, hflash] at hh'
  obtain ⟨n', hl, hnew⟩ := hm.log.append_part hn hr hh'
  obtain ⟨i, r₀, hr₀, hR⟩ := hm.newest
  refine ⟨n', hm.active, ?_, ?_, ?_⟩
  . rw [hflash]
    exact hl
  . rw [hflash]
    rcases hnew with hnew | hnew
    . exact ⟨i, r₀, hnew.trans hr₀, .inl hR⟩
    . exact ⟨n, r, hnew, .inr rfl⟩
  . rw [mutate_other (one_sub_ne hm.active)]
    exact hm.other.mono fun _ h => .inl h

-- Nothing but the log position, the ceiling and the flag of its reset changed.
def St.BesidesLog (st st' : St) : Prop :=
  st' = { st with
    activeMaster := st'.activeMaster
    rotGen := st'.rotGen
    logNext := st'.logNext
    logFailed := st'.logFailed
    ceilingReset := st'.ceilingReset
    nextIdHint := st'.nextIdHint }

/-! Rotation: the other sector is erased and written afresh -/

section

variable {a rotGen n : Nat} {r : MasterRec} {w : World}

theorem Masters.setOther {flash' : Flash} (hm : Masters cfg R flash a rotGen n)
    (hsame : flash' a = flash a) (hR : ∀ r, R r → R' r)
    (ho : Other cfg R' rotGen (flash' (1 - a))) : Masters cfg R' flash' a rotGen n := by
  obtain ⟨i, r, hnew, hr⟩ := hm.newest
  refine ⟨hm.active, ?_, ⟨i, r, ?_, hR r hr⟩, ho⟩
  . rw [hsame]
    exact hm.log
  . rw [hsame]
    exact hnew

theorem sub_one_ne {a : Nat} (ha : a ≤ 1) : a ≠ 1 - a := by omega

theorem eraseOther_part {part : Nat} {upper : Bool} (hm : Masters cfg R w.flash a rotGen n)
    (hflash : (w.mutate (1 - a) .erase).flash (1 - a) =
      Request.partly (w.flash (1 - a)) part upper .erase)
    (hh : MasterEventHonest cfg (.mutation (w.mutation (1 - a) .erase))) :
    Masters cfg R (w.mutate (1 - a) .erase).flash a rotGen n := by
  have ha := hm.active
  have hh' := hh (show 1 - a ≤ masterBSector by unfold masterBSector; omega)
  rw [World.mutation_after] at hh'
  simp only [World.mutation, hflash, Request.whole] at hh'
  refine hm.setOther (mutate_other (sub_one_ne ha)) (fun _ h => h) ?_
  rw [hflash]
  rcases hm.other with hb | ⟨rot, k, hlog, hne, hrec⟩
  . exact .inl (hb.of_honest hh' notOk_blank)
  . rcases hlog.erase_part hh' with hb | ⟨k', hlog', hrec'⟩
    . exact .inl hb
    . refine .inr ⟨rot, k', hlog', hne, ?_⟩
      intro hlt i hi hok
      obtain ⟨hik, hok', heq⟩ := hrec' i hi hok
      rw [heq]
      exact hrec hlt i hik hok'

theorem eraseOther_whole (hm : Masters cfg R w.flash a rotGen n) (hf : w.nextFault = .none) :
    Masters cfg R (w.mutate (1 - a) .erase).flash a rotGen n ∧
      (w.mutate (1 - a) .erase).flash (1 - a) = blank := by
  have hflash : (w.mutate (1 - a) .erase).flash (1 - a) = blank := mutate_whole hf
  refine ⟨hm.setOther (mutate_other (sub_one_ne hm.active)) (fun _ h => h) ?_, hflash⟩
  rw [hflash]
  exact .inl notOk_blank

section

variable (hv : cfg.Valid) {st : St} (hst : FeaturesOk cfg st) (hrot : rotGen + 1 < 256 ^ 4)
  (hr : r.Fits)

include hv hst hrot hr

theorem freshOther_whole {flash' : Flash} (hm : Masters cfg R flash a rotGen n)
    (hsame : flash' a = flash a)
    (hflash : flash' (1 - a) = program blank 0 (masterSectorImage cfg st (rotGen + 1) r)) :
    Masters cfg (· = r) flash' (1 - a) (rotGen + 1) 1 ∧
      Other cfg (fun _ => False) (rotGen + 1) (flash' a) := by
  have ha := hm.active
  obtain ⟨hl, hnew⟩ := freshSector_log hv hst hrot hr
  have hother : Other cfg (fun _ => False) (rotGen + 1) (flash' a) := by
    rw [hsame]
    exact .inr ⟨rotGen, n, hm.log, by omega, by omega⟩
  refine ⟨⟨by omega, ?_, ⟨0, r, ?_, rfl⟩, ?_⟩, hother⟩
  . rw [hflash]
    exact hl
  . rw [hflash]
    exact hnew
  . rw [show 1 - (1 - a) = a by omega]
    exact hother.mono fun _ h => h.elim

theorem freshOther_candidate {flash' : Flash} (hm : Masters cfg R flash a rotGen n)
    (hsame : flash' a = flash a)
    (hflash : flash' (1 - a) = program blank 0 (masterSectorImage cfg st (rotGen + 1) r)) :
    Masters cfg (orRec R r) flash' a rotGen n := by
  obtain ⟨hl, hnew⟩ := freshSector_log hv hst hrot hr
  refine hm.setOther hsame (fun _ h => .inl h) ?_
  rw [hflash]
  refine .inr ⟨rotGen + 1, 1, hl, by omega, ?_⟩
  intro _ i hi _
  have hi : i = 0 := by omega
  rw [hi]
  exact .inr (newestBelow_some hnew).2.2

theorem freshOther_part {part : Nat} {upper : Bool} (hm : Masters cfg R w.flash a rotGen n)
    (hblank : w.flash (1 - a) = blank)
    (hflash : (w.mutate (1 - a) (.write 0 (masterSectorImage cfg st (rotGen + 1) r))).flash (1 - a) =
      Request.partly (w.flash (1 - a)) part upper
        (.write 0 (masterSectorImage cfg st (rotGen + 1) r)))
    (hh : MasterEventHonest cfg (.mutation (w.mutation (1 - a)
      (.write 0 (masterSectorImage cfg st (rotGen + 1) r))))) :
    Masters cfg (orRec R r)
      (w.mutate (1 - a) (.write 0 (masterSectorImage cfg st (rotGen + 1) r))).flash a rotGen n := by
  have ha := hm.active
  have hh' := hh (show 1 - a ≤ masterBSector by unfold masterBSector; omega)
  rw [World.mutation_after] at hh'
  simp only [World.mutation, hflash, Request.whole, Request.partly, hblank] at hh'
  refine hm.setOther (mutate_other (sub_one_ne ha)) (fun _ h => .inl h) ?_
  rw [hflash, hblank]
  rcases freshSector_part hv hst hrot hr hh' with hb | ⟨k, hlog, hrec⟩
  . exact .inl hb
  . exact .inr ⟨rotGen + 1, k, hlog, by omega, fun _ i hi hok => .inr (hrec i hi hok)⟩

end

end

-- The session after a rotation that took effect.
theorem rotated_session {st : St} {r : MasterRec} {w : World} (hr : r.Fits)
    (hst : FeaturesOk cfg st) (howner : st.segOwner < 256 ^ 8) (hfuses : st.fuses < 256 ^ 4)
    (hw : w.st = { st with
      activeMaster := 1 - st.activeMaster
      rotGen := st.rotGen + 1
      logNext := 1
      logFailed := false
      ceilingReset := false
      nextIdHint := r.nextIdHint })
    (hrot : st.rotGen + 1 < 256 ^ 4) (ha : st.activeMaster ≤ 1)
    (hm : Masters cfg (· = r) w.flash (1 - st.activeMaster) (st.rotGen + 1) 1)
    (ho : Other cfg (fun _ => False) (st.rotGen + 1) (w.flash st.activeMaster)) :
    MasterSession cfg (· = r) w := by
  have hback : 1 - (1 - st.activeMaster) = st.activeMaster := by omega
  refine ⟨⟨?_, ?_, ?_⟩, ?_, ?_, ?_, ?_, ⟨1, ?_, ?_⟩, ?_⟩
  all_goals rw [hw]
  . exact hst.incompat
  . exact hst.roCompat
  . exact hst.compat
  . exact hrot
  . exact hr.nextIdHint
  . exact howner
  . exact hfuses
  . exact hm
  . exact fun _ => rfl
  . intro _ _
    show Other cfg _ _ (w.flash (1 - (1 - st.activeMaster)))
    rw [hback]
    exact ho

-- The session after an append that took effect.
theorem appended_session {st : St} {r : MasterRec} {w : World} (hr : r.Fits)
    (hst : FeaturesOk cfg st) (hrot : st.rotGen < 256 ^ 4) (howner : st.segOwner < 256 ^ 8)
    (hfuses : st.fuses < 256 ^ 4)
    (hw : w.st = { st with
      logNext := st.logNext + 1
      ceilingReset := false
      nextIdHint := r.nextIdHint })
    (hm : Masters cfg (· = r) w.flash st.activeMaster st.rotGen (st.logNext + 1))
    (ho : Other cfg (fun _ => False) st.rotGen (w.flash (1 - st.activeMaster))) :
    MasterSession cfg (· = r) w := by
  refine ⟨⟨?_, ?_, ?_⟩, ?_, ?_, ?_, ?_, ⟨st.logNext + 1, ?_, ?_⟩, ?_⟩
  all_goals rw [hw]
  . exact hst.incompat
  . exact hst.roCompat
  . exact hst.compat
  . exact hrot
  . exact hr.nextIdHint
  . exact howner
  . exact hfuses
  . exact hm
  . exact fun _ => rfl
  . exact fun _ _ => ho

-- The session after a commit that failed: nothing is appended to the log any more.
theorem failed_session {st : St} {w : World} {n : Nat} (logNext : Nat) (logFailed : Bool)
    (hst : FeaturesOk cfg st) (hrot : st.rotGen < 256 ^ 4) (hhint : st.nextIdHint < 256 ^ 8)
    (howner : st.segOwner < 256 ^ 8) (hfuses : st.fuses < 256 ^ 4)
    (hw : w.st = { st with
      logNext := logNext
      logFailed := logFailed
      ceilingReset := false })
    (hm : Masters cfg R w.flash st.activeMaster st.rotGen n)
    (hn : logFailed = false → n = logNext ∧ cfg.logCap ≤ logNext) :
    MasterSession cfg R w := by
  refine ⟨⟨?_, ?_, ?_⟩, ?_, ?_, ?_, ?_, ⟨n, ?_, ?_⟩, ?_⟩
  all_goals rw [hw]
  . exact hst.incompat
  . exact hst.roCompat
  . exact hst.compat
  . exact hrot
  . exact hhint
  . exact howner
  . exact hfuses
  . exact hm
  . exact fun h => (hn h).1
  . intro h hlt
    exact absurd hlt (Nat.not_lt_of_le (hn h).2)

section

variable {good : Event → Prop} {G : World → Prop} (hgood : ∀ e, good e → MasterEventHonest cfg e)
  (hG : Aside G)

include hgood hG

theorem masterWriteSector_spec (hv : cfg.Valid) {st : St} {n : Nat} {r : MasterRec}
    (hst : FeaturesOk cfg st) (hrot : st.rotGen + 1 < 256 ^ 4) (hr : r.Fits) :
    Spec (History good)
      (fun w => w.st = st ∧ Masters cfg R w.flash st.activeMaster st.rotGen n ∧ G w)
      (masterWriteSector cfg (1 - st.activeMaster) (st.rotGen + 1) r)
      (.exits
        (fun w => w.st = st ∧ (Masters cfg (· = r) w.flash (1 - st.activeMaster) (st.rotGen + 1) 1 ∧
          Other cfg (fun _ => False) (st.rotGen + 1) (w.flash st.activeMaster)) ∧ G w)
        (fun w => w.st = st ∧ Masters cfg (orRec R r) w.flash st.activeMaster st.rotGen n ∧ G w)
        (fun w => MastersOk cfg (orRec R r) w.flash ∧ G w)) := by
  unfold masterWriteSector
  apply getSt_bind
  intro st'
  apply Spec.assuming (φ := st' = st)
  . exact fun w h => h.1.symm.trans h.2.1
  rintro rfl
  unfold storeReplace
  split
  . -- the backend replaces the sector at once
    have hpart : ∀ (w : World) part upper,
        Masters cfg R w.flash st'.activeMaster st'.rotGen n →
        (w.mutate (1 - st'.activeMaster) (.replace (masterSectorImage cfg st' (st'.rotGen + 1)
          r))).flash (1 - st'.activeMaster) = Request.partly (w.flash (1 - st'.activeMaster)) part
            upper (.replace (masterSectorImage cfg st' (st'.rotGen + 1) r)) →
        Masters cfg (orRec R r) (w.mutate (1 - st'.activeMaster) (.replace
          (masterSectorImage cfg st' (st'.rotGen + 1) r))).flash st'.activeMaster st'.rotGen n := by
      intro w part upper hm hflash
      have hsame := mutate_other (w := w) (r := .replace (masterSectorImage cfg st' (st'.rotGen + 1) r))
        (sub_one_ne hm.active)
      simp only [Request.partly] at hflash
      split at hflash
      . refine hm.setOther hsame (fun _ h => .inl h) ?_
        rw [hflash]
        exact hm.other.mono fun _ h => .inl h
      . rw [image_eq_program] at hflash
        exact freshOther_candidate hv hst hrot hr hm hsame hflash
    apply storeMutate_spec
    . intro w h hf _
      have hm := h.2.2.1
      have hflash : (w.mutate (1 - st'.activeMaster) (.replace (masterSectorImage cfg st'
          (st'.rotGen + 1) r))).flash (1 - st'.activeMaster) =
            program blank 0 (masterSectorImage cfg st' (st'.rotGen + 1) r) :=
        (mutate_whole hf).trans (image_eq_program _)
      exact ⟨h.1, freshOther_whole hv hst hrot hr hm (mutate_other (sub_one_ne hm.active)) hflash,
        hG.mutate w _ _ (Nat.sub_le _ _) h.2.2.2⟩
    . intro w part upper h hf _
      exact ⟨h.1, hpart w part upper h.2.2.1 (mutate_error hf),
        hG.mutate w _ _ (Nat.sub_le _ _) h.2.2.2⟩
    . intro w part upper h hf _
      exact ⟨⟨_, _, n, hpart w part upper h.2.2.1 (mutate_cut hf)⟩,
        hG.mutate w _ _ (Nat.sub_le _ _) h.2.2.2⟩
  . apply Spec.seq (I := fun w => w.st = st' ∧ Masters cfg R w.flash st'.activeMaster st'.rotGen n ∧
      w.flash (1 - st'.activeMaster) = blank ∧ G w)
    . apply storeMutate_spec
      . intro w h hf _
        obtain ⟨hm, hb⟩ := eraseOther_whole h.2.2.1 hf
        exact ⟨h.1, hm, hb, hG.mutate w _ _ (Nat.sub_le _ _) h.2.2.2⟩
      . intro w part upper h hf hg
        have hm := eraseOther_part h.2.2.1 (mutate_error hf) (hgood _ hg)
        exact ⟨h.1, hm.mono fun _ h => .inl h, hG.mutate w _ _ (Nat.sub_le _ _) h.2.2.2⟩
      . intro w part upper h hf hg
        have hm := eraseOther_part h.2.2.1 (mutate_cut hf) (hgood _ hg)
        exact ⟨⟨_, _, n, hm.mono fun _ h => .inl h⟩, hG.mutate w _ _ (Nat.sub_le _ _) h.2.2.2⟩
    . intro _
      apply storeMutate_spec
      . intro w h hf _
        have hm := h.2.1
        have hflash : (w.mutate (1 - st'.activeMaster) (.write 0 (masterSectorImage cfg st'
            (st'.rotGen + 1) r))).flash (1 - st'.activeMaster) =
              program (w.flash (1 - st'.activeMaster)) 0
                (masterSectorImage cfg st' (st'.rotGen + 1) r) := mutate_whole hf
        rw [h.2.2.1] at hflash
        exact ⟨h.1, freshOther_whole hv hst hrot hr hm (mutate_other (sub_one_ne hm.active)) hflash,
          hG.mutate w _ _ (Nat.sub_le _ _) h.2.2.2⟩
      . intro w part upper h hf hg
        have hm := freshOther_part hv hst hrot hr h.2.1 h.2.2.1 (mutate_error hf) (hgood _ hg)
        exact ⟨h.1, hm, hG.mutate w _ _ (Nat.sub_le _ _) h.2.2.2⟩
      . intro w part upper h hf hg
        have hm := freshOther_part hv hst hrot hr h.2.1 h.2.2.1 (mutate_cut hf) (hgood _ hg)
        exact ⟨⟨_, _, n, hm⟩, hG.mutate w _ _ (Nat.sub_le _ _) h.2.2.2⟩

theorem masterRotate_spec (hv : cfg.Valid) {st : St} {n : Nat} {r : MasterRec}
    (hst : FeaturesOk cfg st) (hrot : st.rotGen < 256 ^ 4) (hr : r.Fits) :
    Spec (History good)
      (fun w => w.st = st ∧ Masters cfg R w.flash st.activeMaster st.rotGen n ∧ G w)
      (masterRotate cfg r)
      (.exits
        (fun w => w.st = { st with
            activeMaster := 1 - st.activeMaster
            rotGen := st.rotGen + 1
            logNext := 1
            logFailed := false } ∧ st.rotGen + 1 < 256 ^ 4 ∧
          (Masters cfg (· = r) w.flash (1 - st.activeMaster) (st.rotGen + 1) 1 ∧
            Other cfg (fun _ => False) (st.rotGen + 1) (w.flash st.activeMaster)) ∧ G w)
        (fun w => w.st = st ∧ Masters cfg (orRec R r) w.flash st.activeMaster st.rotGen n ∧ G w)
        (fun w => MastersOk cfg (orRec R r) w.flash ∧ G w)) := by
  unfold masterRotate
  apply getSt_bind
  intro st'
  apply Spec.assuming (φ := st' = st)
  . exact fun w h => h.1.symm.trans h.2.1
  rintro rfl
  simp only
  split
  . exact Spec.fail fun w h => ⟨h.1, h.2.2.1.mono fun _ h => .inl h, h.2.2.2⟩
  . next hne =>
    have hrot' : st'.rotGen + 1 < 256 ^ 4 := by omega
    have hwrite := masterWriteSector_spec (R := R) (n := n) hgood hG hv hst hrot' hr
    apply (hwrite.pre fun w h => h.2).seq
    intro _
    apply modifySt_spec
    intro w h
    refine ⟨?_, hrot', h.2.1, hG.ram w _ h.2.2⟩
    show St.mk .. = St.mk ..
    rw [h.1]

theorem masterAppend_spec {st : St} {n : Nat} {r : MasterRec} (hn : n = st.logNext)
    (hcap : st.logNext < cfg.logCap) (hr : r.Fits) :
    Spec (History good)
      (fun w => w.st = st ∧ (Masters cfg R w.flash st.activeMaster st.rotGen n ∧
        Other cfg (fun _ => False) st.rotGen (w.flash (1 - st.activeMaster))) ∧ G w)
      (masterAppend cfg r)
      (.exits
        (fun w => w.st = { st with logNext := st.logNext + 1 } ∧
          (Masters cfg (· = r) w.flash st.activeMaster st.rotGen (n + 1) ∧
            Other cfg (fun _ => False) st.rotGen (w.flash (1 - st.activeMaster))) ∧ G w)
        (fun w => w.st = { st with logNext := st.logNext + 1, logFailed := true } ∧
          (∃ n', Masters cfg (orRec R r) w.flash st.activeMaster st.rotGen n') ∧ G w)
        (fun w => MastersOk cfg (orRec R r) w.flash ∧ G w)) := by
  subst hn
  unfold masterAppend
  apply getSt_bind
  intro st'
  apply Spec.assuming (φ := st' = st)
  . exact fun w h => h.1.symm.trans h.2.1
  rintro rfl
  have hwrite : Spec (History good)
      (fun w => w.st = st' ∧ w.st = st' ∧
        (Masters cfg R w.flash st'.activeMaster st'.rotGen st'.logNext ∧
          Other cfg (fun _ => False) st'.rotGen (w.flash (1 - st'.activeMaster))) ∧ G w)
      (storeWrite st'.activeMaster (masterRecOff cfg st'.logNext)
        (masterRecImage cfg st'.rotGen st'.logNext r))
      (.exits
        (fun w => w.st = st' ∧
          (Masters cfg (· = r) w.flash st'.activeMaster st'.rotGen (st'.logNext + 1) ∧
            Other cfg (fun _ => False) st'.rotGen (w.flash (1 - st'.activeMaster))) ∧ G w)
        (fun w => w.st = st' ∧
          (∃ n', Masters cfg (orRec R r) w.flash st'.activeMaster st'.rotGen n') ∧ G w)
        (fun w => MastersOk cfg (orRec R r) w.flash ∧ G w)) := by
    apply storeMutate_spec
    . intro w h hf _
      obtain ⟨hm, ho⟩ := h.2.2.1
      refine ⟨h.1, ⟨appendRecord_masters hm ho hcap hr hf, ?_⟩,
        hG.mutate w _ _ hm.active h.2.2.2⟩
      rw [mutate_other (one_sub_ne hm.active)]
      exact ho
    . intro w part upper h hf hg
      obtain ⟨hm, _⟩ := h.2.2.1
      exact ⟨h.1, appendRecord_part hm hcap hr (mutate_error hf) (hgood _ hg),
        hG.mutate w _ _ hm.active h.2.2.2⟩
    . intro w part upper h hf hg
      obtain ⟨hm, _⟩ := h.2.2.1
      obtain ⟨n', hm'⟩ := appendRecord_part hm hcap hr (mutate_cut hf) (hgood _ hg)
      exact ⟨⟨_, _, n', hm'⟩, hG.mutate w _ _ hm.active h.2.2.2⟩
  apply hwrite.caught
  . intro _
    refine modifySt_bind (I := fun w => w.st = { st' with logNext := st'.logNext + 1 } ∧
      (Masters cfg (· = r) w.flash st'.activeMaster st'.rotGen (st'.logNext + 1) ∧
        Other cfg (fun _ => False) st'.rotGen (w.flash (1 - st'.activeMaster))) ∧ G w) ?_ ?_
    . intro w h
      refine ⟨?_, h.2.1, hG.ram w _ h.2.2⟩
      show St.mk .. = St.mk ..
      rw [h.1]
    . intro _
      exact Spec.ret fun _ h => h
  . intro e
    refine modifySt_bind (I := fun w => w.st = { st' with logNext := st'.logNext + 1 } ∧
      (∃ n', Masters cfg (orRec R r) w.flash st'.activeMaster st'.rotGen n') ∧ G w) ?_ ?_
    . intro w h
      refine ⟨?_, h.2.1, hG.ram w _ h.2.2⟩
      show St.mk .. = St.mk ..
      rw [h.1]
    . intro _
      refine modifySt_bind (I := fun w =>
        w.st = { st' with logNext := st'.logNext + 1, logFailed := true } ∧
        (∃ n', Masters cfg (orRec R r) w.flash st'.activeMaster st'.rotGen n') ∧ G w) ?_ ?_
      . intro w h
        refine ⟨?_, h.2.1, hG.ram w _ h.2.2⟩
        show St.mk .. = St.mk ..
        rw [h.1]
      . intro _
        exact Spec.fail fun _ h => h
  . exact fun _ h => h

theorem masterCommitHow_spec (hv : cfg.Valid) (force : Bool) (st : St) :
    Spec (History good) (fun w => w.st = st ∧ MasterSession cfg R w ∧ G w)
      (masterCommitHow cfg force)
      (.exits
        (fun w => MasterSession cfg (· = masterRecFill st) w ∧ st.BesidesLog w.st ∧
          w.st.ceilingReset = false ∧ w.st.nextIdHint = (masterRecFill st).nextIdHint ∧ G w)
        (fun w => MastersOk cfg (orRec R (masterRecFill st)) w.flash ∧
          (force = false → MasterSession cfg (orRec R (masterRecFill st)) w) ∧
          st.BesidesLog w.st ∧ w.st.ceilingReset = false ∧ w.st.nextIdHint = st.nextIdHint ∧ G w)
        (fun w => MastersOk cfg (orRec R (masterRecFill st)) w.flash ∧ G w)) := by
  unfold masterCommitHow
  apply getSt_bind
  intro st'
  apply Spec.assuming (φ := st' = st)
  . exact fun w h => h.1.symm.trans h.2.1
  rintro rfl
  simp only
  apply Spec.assuming (φ := FeaturesOk cfg st' ∧ st'.rotGen < 256 ^ 4 ∧ st'.segOwner < 256 ^ 8 ∧
    st'.fuses < 256 ^ 4 ∧ st'.nextIdHint < 256 ^ 8 ∧ st'.activeMaster ≤ 1 ∧ (masterRecFill st').Fits)
  . intro w h
    obtain ⟨hw, _, hs, _⟩ := h
    rw [← hw]
    obtain ⟨n, hm, _⟩ := hs.masters
    exact ⟨hs.features, hs.rot, hs.owner, hs.fuses, hs.hint, hm.active, masterRecFill_fits hs⟩
  intro ⟨hfeat, hrot, howner, hfuses, hhint, hact, hfits⟩
  have hbody : Spec (History good) (fun w => w.st = st' ∧ w.st = st' ∧ MasterSession cfg R w ∧ G w)
      (if force || (st'.logFailed || cfg.logCap ≤ st'.logNext) then
        masterRotate cfg (masterRecFill st')
      else masterAppend cfg (masterRecFill st'))
      (.exits
        (fun w => MasterSession cfg (· = masterRecFill st')
            { w with st := { w.st with
              ceilingReset := false
              nextIdHint := (masterRecFill st').nextIdHint } } ∧ st'.BesidesLog w.st ∧ G w)
        (fun w => MastersOk cfg (orRec R (masterRecFill st')) w.flash ∧
          (force = false → MasterSession cfg (orRec R (masterRecFill st'))
            { w with st := { w.st with ceilingReset := false } }) ∧
          st'.BesidesLog w.st ∧ w.st.nextIdHint = st'.nextIdHint ∧ G w)
        (fun w => MastersOk cfg (orRec R (masterRecFill st')) w.flash ∧ G w)) := by
    split
    . next hwhy =>
      have hpre : ∀ w, (w.st = st' ∧ w.st = st' ∧ MasterSession cfg R w ∧ G w) →
          ∃ n : { n : Nat // st'.logFailed = false → n = st'.logNext },
            w.st = st' ∧ Masters cfg R w.flash st'.activeMaster st'.rotGen n ∧ G w := by
        intro w ⟨hw, _, hs, hg⟩
        obtain ⟨n, hm, hn⟩ := hs.masters
        rw [hw] at hm hn
        exact ⟨⟨n, hn⟩, hw, hm, hg⟩
      refine Spec.pre (Spec.given fun ⟨n, hn⟩ => ?_) hpre
      apply (masterRotate_spec hgood hG hv hfeat hrot hfits).conseq (fun _ h => h)
      . intro _ w ⟨hw, hrot', ⟨hm, ho⟩, hg⟩
        refine ⟨?_, ?_, hg⟩
        . refine rotated_session (w := { w with st := _ }) hfits hfeat howner hfuses ?_ hrot' hact
            hm ho
          rw [hw]
        . rw [hw]
          rfl
      . intro _ w ⟨hw, hm, hg⟩
        refine ⟨⟨_, _, n, hm⟩, ?_, ?_, ?_, hg⟩
        . intro hforce
          refine failed_session (w := { w with st := _ }) st'.logNext st'.logFailed hfeat hrot
            hhint howner hfuses ?_ hm ?_
          . rw [hw]
          . intro hok
            refine ⟨hn hok, ?_⟩
            simpa [hforce, hok] using hwhy
        . rw [hw]
          rfl
        . rw [hw]
      . exact fun _ h => h
    . next hwhy =>
      simp only [Bool.or_eq_true, decide_eq_true_eq, not_or, Bool.not_eq_true, Nat.not_le] at hwhy
      obtain ⟨hforce, hok, hcap⟩ := hwhy
      have hpre : ∀ w, (w.st = st' ∧ w.st = st' ∧ MasterSession cfg R w ∧ G w) →
          w.st = st' ∧ (Masters cfg R w.flash st'.activeMaster st'.rotGen st'.logNext ∧
            Other cfg (fun _ => False) st'.rotGen (w.flash (1 - st'.activeMaster))) ∧ G w := by
        intro w ⟨hw, _, hs, hg⟩
        obtain ⟨n, hm, hn⟩ := hs.masters
        have ho := hs.appendable
        rw [hw] at hm hn ho
        rw [hn hok] at hm
        exact ⟨hw, ⟨hm, ho hok hcap⟩, hg⟩
      apply (masterAppend_spec hgood hG rfl hcap hfits).conseq hpre
      . intro _ w ⟨hw, ⟨hm, ho⟩, hg⟩
        refine ⟨?_, ?_, hg⟩
        . refine appended_session (w := { w with st := _ }) hfits hfeat hrot howner hfuses ?_ hm ho
          rw [hw]
        . rw [hw]
          rfl
      . intro _ w ⟨hw, ⟨n, hm⟩, hg⟩
        refine ⟨⟨_, _, n, hm⟩, ?_, ?_, ?_, hg⟩
        . intro _
          refine failed_session (w := { w with st := _ }) (st'.logNext + 1) true hfeat hrot hhint
            howner hfuses ?_ hm (by simp)
          rw [hw]
        . rw [hw]
          rfl
        . rw [hw]
      . exact fun _ h => h
  apply hbody.caught
  . intro _
    refine modifySt_bind (I := fun w => MasterSession cfg (· = masterRecFill st')
            { w with st := { w.st with
              nextIdHint := (masterRecFill st').nextIdHint } } ∧ st'.BesidesLog w.st ∧
          w.st.ceilingReset = false ∧ G w) ?_ ?_
    . intro w ⟨hs, hb, hg⟩
      refine ⟨hs, ?_, rfl, hG.ram w _ hg⟩
      rw [hb]
      rfl
    . intro _
      apply modifySt_spec
      intro w ⟨hs, hb, hc, hg⟩
      refine ⟨hs, ?_, hc, rfl, hG.ram w _ hg⟩
      rw [hb]
      rfl
  . intro e
    refine modifySt_bind (I := fun w => MastersOk cfg (orRec R (masterRecFill st')) w.flash ∧
          (force = false → MasterSession cfg (orRec R (masterRecFill st')) w) ∧
          st'.BesidesLog w.st ∧ w.st.ceilingReset = false ∧ w.st.nextIdHint = st'.nextIdHint ∧ G w)
      ?_ ?_
    . intro w ⟨hm, hs, hb, hh, hg⟩
      refine ⟨hm, hs, ?_, rfl, hh, hG.ram w _ hg⟩
      rw [hb]
      rfl
    . intro _
      exact Spec.fail fun _ h => h
  . exact fun _ h => h

end

end

end KeyValueDb.BlobDb
