import KeyValueDb.BlobDb.Sessions

/-!
Ids across crashes. Below a bound that the durable ceiling never falls under, no id is handed out
twice; every id handed out raises the bound past it.
-/

namespace KeyValueDb.BlobDb

variable (cfg : Cfg)

-- While power can be lost: no store write fails, no checksum verifies by accident, and no id comes
-- within a step of the end of the 64-bit range.
def IdEvent : Event → Prop
  | .mutation m => m.fault.isError = false ∧ MasterEventHonest cfg (.mutation m)
  | .alloc id => id + 1 + idHintStep < 2 ^ 64

-- A mounted store with bound `b`. With bound 0 nothing is known of the ids.
structure IdSession (b : Nat) (w : World) : Prop where
  master : MasterSession cfg (fun r => 0 < b → w.st.nextIdHint ≤ r.nextIdHint) w
  noReset : w.st.ceilingReset = false
  next : b ≤ w.st.nextId
  hint : b ≤ w.st.nextIdHint

-- What the flash keeps of it.
structure IdDurable (b : Nat) (flash : Flash) : Prop where
  shape : MastersShape cfg flash
  masters : 0 < b → MastersOk cfg (fun r => b ≤ r.nextIdHint) flash

section

variable {cfg} {b : Nat}

theorem idEvent_honest (e : Event) (h : IdEvent cfg e) : MasterEventHonest cfg e := by
  cases e with
  | mutation m => exact h.2
  | alloc id => trivial

theorem IdSession.durable {w : World} (h : IdSession cfg b w) : IdDurable cfg b w.flash := by
  obtain ⟨n, hm, _⟩ := h.master.masters
  refine ⟨hm.shape, ?_⟩
  intro hb
  exact ⟨_, _, n, hm.mono fun r hr => Nat.le_trans h.hint (hr hb)⟩

theorem IdSession.congr {w w' : World} (h : IdSession cfg b w) (hst : w.st.SameMaster w'.st)
    (hreset : w'.st.ceilingReset = w.st.ceilingReset) (hnext : w'.st.nextId = w.st.nextId) (hf : ∀ s, s ≤ 1 → w'.flash s = w.flash s)
    (hown : w'.st.segOwner < 256 ^ 8) : IdSession cfg b w' := by
  refine ⟨?_, ?_, ?_, ?_⟩
  . rw [hst.nextIdHint]
    exact h.master.congr hst hf hown
  . rw [hreset]
    exact h.noReset
  . rw [hnext]
    exact h.next
  . rw [hst.nextIdHint]
    exact h.hint

theorem IdSession.ram {w : World} {st : St} (h : IdSession cfg b w) (hst : w.st.SameMaster st)
    (hreset : st.ceilingReset = w.st.ceilingReset) (hnext : st.nextId = w.st.nextId) (hown : st.segOwner < 256 ^ 8) :
    IdSession cfg b { w with st := st } :=
  h.congr hst hreset hnext (fun _ _ => rfl) hown

theorem idSession_stable : Stable (IdSession cfg b) := by
  intro w w' q h
  refine h.congr q.sameMaster q.ceilingReset q.nextId (fun s _ => by rw [q.flash]) ?_
  rw [q.segOwner]
  exact h.master.owner

theorem idDurable_congr {flash flash' : Flash} (h : IdDurable cfg b flash)
    (hf : ∀ s, s ≤ 1 → flash' s = flash s) : IdDurable cfg b flash' := by
  refine ⟨h.shape.congr hf, ?_⟩
  intro hb
  exact (h.masters hb).congr hf

theorem idSession_data {good : Event → Prop} :
    DataFrame good (IdSession cfg b) fun w => IdDurable cfg b w.flash where
  lost _ h := h.durable
  stable := idSession_stable
  data sector r hs := by
    have hkeep : ∀ w, IdSession cfg b w → IdSession cfg b (w.mutate sector r) :=
      fun w h => h.congr (.refl _) rfl rfl (mutate_masters hs) h.master.owner
    apply storeMutate_spec
    . exact fun w h _ _ => hkeep w h
    . exact fun w _ _ h _ _ => hkeep w h
    . exact fun w _ _ h _ _ => (hkeep w h).durable
  wedge w h := h.ram ⟨rfl, rfl, rfl, rfl, rfl, rfl, rfl, rfl, rfl⟩ rfl rfl h.master.owner

theorem masterRecFill_ge {st : St} (h : st.ceilingReset = false) :
    st.nextIdHint ≤ (masterRecFill st).nextIdHint := by
  unfold masterRecFill
  rw [h]
  exact Nat.le_max_left _ _

-- A record that joins the candidates does not lower the bound.
theorem commit_durable {st : St} {flash : Flash} (hreset : st.ceilingReset = false)
    (hb : b ≤ st.nextIdHint)
    (h : MastersOk cfg (orRec (fun r => 0 < b → st.nextIdHint ≤ r.nextIdHint) (masterRecFill st))
      flash) : IdDurable cfg b flash := by
  have hfill := masterRecFill_ge hreset
  constructor
  . obtain ⟨a, rotGen, n, hm⟩ := h
    exact hm.shape
  . intro hpos
    apply h.mono
    intro r hr
    rcases hr with hr | rfl
    . exact Nat.le_trans hb (hr hpos)
    . exact Nat.le_trans hb hfill

theorem idDurable_durable : Durable fun w : World => IdDurable cfg b w.flash := by
  intro w w' hf _ h
  show IdDurable cfg b w'.flash
  rw [hf]
  exact h

section

variable (hv : cfg.Valid)

include hv

theorem masterCommitHow_ids (force : Bool) (st : St) :
    Spec (History (IdEvent cfg)) (fun w => w.st = st ∧ IdSession cfg b w)
      (masterCommitHow cfg force)
      (.exits
        (fun w => IdSession cfg b w ∧ st.BesidesLog w.st ∧
          w.st.nextIdHint = (masterRecFill st).nextIdHint)
        (fun w => IdDurable cfg b w.flash ∧ (force = false → IdSession cfg b w))
        (fun w => IdDurable cfg b w.flash)) := by
  apply Spec.assuming (φ := st.ceilingReset = false ∧ b ≤ st.nextId ∧ b ≤ st.nextIdHint)
  . intro w ⟨hw, h⟩
    rw [← hw]
    exact ⟨h.noReset, h.next, h.hint⟩
  intro ⟨hreset, hnext, hhint⟩
  have hfill := masterRecFill_ge hreset
  have hcommit := masterCommitHow_spec (R := fun r => 0 < b → st.nextIdHint ≤ r.nextIdHint)
    idEvent_honest aside_true hv force st
  apply hcommit.conseq
  . intro w ⟨hw, h⟩
    refine ⟨hw, ?_, trivial⟩
    have := h.master
    rwa [hw] at this
  . intro _ w ⟨hs, hbesides, hr, hh, _⟩
    refine ⟨⟨hs.mono ?_, hr, ?_, ?_⟩, hbesides, hh⟩
    . rintro r rfl _
      rw [hh]
    . rw [hbesides]
      exact hnext
    . rw [hh]
      exact Nat.le_trans hhint hfill
  . intro _ w ⟨hm, hs, hbesides, hr, hh, _⟩
    refine ⟨commit_durable hreset hhint hm, ?_⟩
    intro hforce
    refine ⟨(hs hforce).mono ?_, hr, ?_, ?_⟩
    . intro r hr hpos
      rw [hh]
      rcases hr with hr | rfl
      . exact hr hpos
      . exact hfill
    . rw [hbesides]
      exact hnext
    . rw [hh]
      exact hhint
  . intro w ⟨hm, _⟩
    exact commit_durable hreset hhint hm

theorem masterCommit_ids :
    Keeps (IdEvent cfg) (IdSession cfg b) (IdSession cfg b) (fun w => IdDurable cfg b w.flash)
      (masterCommit cfg) := by
  have hgiven : ∀ w, IdSession cfg b w → ∃ st, w.st = st ∧ IdSession cfg b w :=
    fun w h => ⟨w.st, rfl, h⟩
  refine Spec.pre (Spec.given fun st => ?_) hgiven
  apply (masterCommitHow_ids hv false st).conseq (fun _ h => h)
  . exact fun _ _ h => h.1
  . exact fun _ _ h => h.2 rfl
  . exact fun _ h => h

theorem masterCommitRotate_ids :
    Keeps (IdEvent cfg) (IdSession cfg b) (fun w => IdDurable cfg b w.flash)
      (fun w => IdDurable cfg b w.flash) (masterCommitRotate cfg) := by
  have hgiven : ∀ w, IdSession cfg b w → ∃ st, w.st = st ∧ IdSession cfg b w :=
    fun w h => ⟨w.st, rfl, h⟩
  refine Spec.pre (Spec.given fun st => ?_) hgiven
  apply (masterCommitHow_ids hv true st).conseq (fun _ h => h)
  . exact fun _ _ h => h.1
  . exact fun _ _ h => h.1
  . exact fun _ h => h

-- An id that is handed out is at or above the bound, and the bound moves past it.
theorem allocIdImpl_ids :
    Spec (History (IdEvent cfg)) (IdSession cfg b) (allocIdImpl cfg)
      ⟨fun n w => IdSession cfg b w ∧ (n ≠ 0 → 0 < b → b ≤ n ∧ IdSession cfg (n + 1) w),
        fun _ => IdSession cfg b, fun w => IdDurable cfg b w.flash⟩ := by
  unfold allocIdImpl
  apply getSt_bind
  intro st
  split
  . exact Spec.ret fun w h => ⟨h.2, fun h => absurd rfl h⟩
  . have hreserve : Spec (History (IdEvent cfg)) (fun w => w.st = st ∧ IdSession cfg b w)
        (if st.nextIdHint ≤ st.nextId then persistNextIdHint cfg else pure ())
        (.exits
          (fun w => IdSession cfg b w ∧ w.st.nextId = st.nextId ∧
            (st.nextId + 1 + idHintStep < 2 ^ 64 → st.nextId < w.st.nextIdHint))
          (IdSession cfg b) (fun w => IdDurable cfg b w.flash)) := by
      split
      . apply (masterCommitHow_ids hv false st).conseq (fun _ h => h)
        . intro _ w ⟨hs, hbesides, hh⟩
          refine ⟨hs, by rw [hbesides], ?_⟩
          intro hlt
          have hwant : st.nextId + 1 + idHintStep ≤ (masterRecFill st).nextIdHint := by
            have hu : u64 (st.nextId + 1 + idHintStep) = st.nextId + 1 + idHintStep :=
              Nat.mod_eq_of_lt hlt
            unfold masterRecFill
            simp only [hu]
            split
            . exact Nat.le_refl _
            . exact Nat.le_max_right _ _
          rw [hh]
          omega
        . exact fun _ _ h => h.2 rfl
        . exact fun _ h => h
      . next hlt =>
        apply Spec.ret
        intro w ⟨hw, hs⟩
        refine ⟨hs, by rw [hw], fun _ => ?_⟩
        rw [hw]
        exact Nat.lt_of_not_le hlt
    apply hreserve.caught
    . intro _
      refine modifySt_bind (I := fun w =>
        (MasterSession cfg (fun r => 0 < b → w.st.nextIdHint ≤ r.nextIdHint) w ∧
          w.st.ceilingReset = false ∧ b ≤ w.st.nextIdHint ∧ b ≤ st.nextId) ∧
        w.st.nextId = u64 (st.nextId + 1) ∧
        (st.nextId + 1 + idHintStep < 2 ^ 64 → st.nextId < w.st.nextIdHint)) ?_ ?_
      . intro w ⟨hs, hnext, hlt⟩
        refine ⟨⟨?_, hs.noReset, hs.hint, ?_⟩, ?_, hlt⟩
        . exact hs.master.congr ⟨rfl, rfl, rfl, rfl, rfl, rfl, rfl, rfl, rfl⟩ (fun _ _ => rfl)
            hs.master.owner
        . rw [← hnext]
          exact hs.next
        . show u64 (w.st.nextId + 1) = _
          rw [hnext]
      . intro _
        apply Spec.bind (Q := ⟨fun _ w => IdSession cfg b w ∧
          (st.nextId ≠ 0 → 0 < b → b ≤ st.nextId ∧ IdSession cfg (st.nextId + 1) w),
          fun _ _ => False, fun _ => False⟩)
        . apply noteAlloc_spec
          intro w ⟨⟨hm, hr, hhint, hb⟩, hnext, hlt⟩ hgood
          -- the id handed out is far from the end of the range
          have hroom : st.nextId + 1 + idHintStep < 2 ^ 64 := hgood
          have hu : w.st.nextId = st.nextId + 1 := by
            rw [hnext]
            exact Nat.mod_eq_of_lt (by omega)
          have hm' : ∀ {R}, MasterSession cfg R w → MasterSession cfg R
              { w with history := .alloc st.nextId :: w.history } :=
            fun h => h.congr (.refl _) (fun _ _ => rfl) h.owner
          refine ⟨⟨hm' hm, hr, ?_, hhint⟩, ?_⟩
          . show b ≤ w.st.nextId
            omega
          . intro _ hpos
            refine ⟨hb, ⟨hm' (hm.mono fun r h _ => h hpos), hr, ?_, ?_⟩⟩
            . show st.nextId + 1 ≤ w.st.nextId
              omega
            . exact hlt hroom
        . intro _
          exact Spec.ret fun _ h => h
        . exact fun _ _ h => h.elim
        . exact fun _ h => h.elim
    . intro e
      exact Spec.ret fun w h => ⟨h, fun h => absurd rfl h⟩
    . exact fun _ h => h

theorem idSession_opFrame :
    OpFrame cfg (IdEvent cfg) (IdSession cfg b) fun w => IdDurable cfg b w.flash where
  toFrame := idSession_data.frame
  owner w o ho h := by
    refine h.ram ⟨rfl, rfl, rfl, rfl, rfl, rfl, rfl, rfl, rfl⟩ rfl rfl ?_
    rcases ho with ho | ⟨w₀, h₀, ho⟩
    . exact lt_of_lt_of_eq ho (by decide)
    . show o < 256 ^ 8
      rw [← ho]
      exact h₀.master.owner
  commit := masterCommit_ids hv
  alloc := (allocIdImpl_ids hv).conseq (fun _ h => h) (fun _ _ h => h.1) (fun _ _ h => h)
    fun _ h => h

theorem idSession_session :
    SessionFrame cfg (IdEvent cfg) (IdSession cfg b) fun w => IdDurable cfg b w.flash where
  toOpFrame := idSession_opFrame hv
  durable := idDurable_durable
  ram w st hst hreset hnext hown h := by
    refine ⟨?_, ?_, Nat.le_trans h.next hnext, ?_⟩
    . rw [hst.nextIdHint]
      exact h.master.congr hst (fun _ _ => rfl) (hown ▸ h.master.owner)
    . exact hreset.trans h.noReset
    . rw [hst.nextIdHint]
      exact h.hint
  rotate := masterCommitRotate_ids hv
  recover := (recoverCompaction_data idSession_data).conseq (fun _ h => h) (fun _ _ h => h)
    (fun _ _ h => h.durable) fun _ h => h

end

/-! Where no store write fails, a format of a device that suits the build does not -/

abbrev NeverFails (good : Event → Prop) {α : Type} (x : M α) : Prop :=
  Spec (History good) (fun _ => True) x (.exits (fun _ => True) (fun _ => False) fun _ => True)

section

variable {good : Event → Prop} (hpow : ∀ m, good (.mutation m) → m.fault.isError = false)

include hpow

theorem storeMutate_neverFails (sector : Nat) (r : Request) :
    NeverFails good (storeMutate sector r) := by
  apply storeMutate_spec
  . exact fun _ _ _ _ => trivial
  . intro w part upper _ hf hg
    have : w.nextFault.isError = false := hpow _ hg
    rw [hf] at this
    cases this
  . exact fun _ _ _ _ _ _ => trivial

theorem storeReplace_neverFails (sector : Nat) (data : List UInt8) :
    NeverFails good (storeReplace cfg sector data) := by
  unfold storeReplace
  split
  . exact storeMutate_neverFails hpow _ _
  . exact (storeMutate_neverFails hpow _ _).seq fun _ => storeMutate_neverFails hpow _ _

theorem storeEraseAll_neverFails (n sector : Nat) :
    NeverFails good (storeEraseAll n sector) := by
  induction n generalizing sector with
  | zero => exact ret_keeps _
  | succ n ih =>
    unfold storeEraseAll
    exact (storeMutate_neverFails hpow _ _).seq fun _ => ih _

omit hpow in
theorem modifySt_neverFails (f : St → St) : NeverFails good (modifySt f) :=
  modifySt_spec fun _ _ => trivial

omit hpow in
theorem modifySidx_neverFails (f : SlotIndex → SlotIndex) :
    NeverFails good (modifySidx cfg f) := by
  unfold modifySidx
  split
  . exact modifySt_neverFails _
  . exact ret_keeps _

omit hpow in
theorem idxInvalidate_neverFails : NeverFails good (idxInvalidate cfg) := by
  unfold idxInvalidate
  split
  . exact modifySt_neverFails _
  . exact ret_keeps _

theorem masterFormat_neverFails : NeverFails good (masterFormat cfg) := by
  have hwrite : ∀ slot rotGen r, NeverFails good (masterWriteSector cfg slot rotGen r) := by
    intro slot rotGen r
    unfold masterWriteSector
    exact Spec.seq (I := fun _ => True) (getSt_spec fun _ _ => trivial)
      fun _ => storeReplace_neverFails hpow _ _
  unfold masterFormat
  apply (modifySt_neverFails _).seq
  intro _
  apply Spec.seq (I := fun _ => True) (getSt_spec fun _ _ => trivial)
  intro st
  apply (modifySt_neverFails _).seq
  intro _
  apply (hwrite _ _ _).seq
  intro _
  apply (hwrite _ _ _).seq
  intro _
  exact modifySt_neverFails _

theorem bindRootEmpty_neverFails (hv : cfg.Valid) : NeverFails good (bindRootEmpty cfg) := by
  unfold bindRootEmpty
  apply Spec.seq (I := fun _ => True)
  . unfold formatBucket
    apply (storeReplace_neverFails hpow _ _).caught
    . exact fun _ => modifySidx_neverFails _
    . exact fun _ _ h => h.elim
    . exact fun _ h => h
  . intro _
    unfold appendSlot appendSlot2
    simp only
    split
    . next hlen => simp at hlen
    . split
      . next halign => exact absurd hv.align (Nat.not_le_of_lt halign)
      . apply idxInvalidate_neverFails.seq
        intro _
        apply (storeMutate_neverFails hpow _ _).caught
        . exact fun _ => modifySidx_neverFails _
        . exact fun _ _ h => h.elim
        . exact fun _ h => h

theorem formatWholeStore_neverFails (hv : cfg.Valid) : NeverFails good (formatWholeStore cfg) := by
  unfold formatWholeStore
  apply idxInvalidate_neverFails.seq
  intro _
  apply (modifySidx_neverFails _).seq
  intro _
  apply (modifySt_neverFails _).seq
  intro _
  apply (storeEraseAll_neverFails hpow _ _).seq
  intro _
  apply (masterFormat_neverFails hpow).seq
  intro _
  exact bindRootEmpty_neverFails hpow hv

end

/-! Format -/

theorem formatted_ids {st : St} {w : World} (hw : w.st = st.formatted cfg)
    (h : MasterSession cfg (· = formatRec) w) : IdSession cfg 2 w := by
  refine ⟨h.mono ?_, ?_, ?_, ?_⟩
  . rintro r rfl _
    rw [hw]
    exact Nat.le_refl _
  . rw [hw]
    rfl
  . rw [hw]
    exact Nat.le_refl _
  . rw [hw]
    show 2 ≤ 259
    decide

theorem IdSession.mono {c : Nat} {w : World} (h : IdSession cfg b w) (hc : c ≤ b) :
    IdSession cfg c w :=
  ⟨h.master.mono fun _ hr hpos => hr (Nat.lt_of_lt_of_le hpos hc), h.noReset,
    Nat.le_trans hc h.next, Nat.le_trans hc h.hint⟩

section

variable (hv : cfg.Valid)

include hv

theorem masterFormat_ids :
    Spec (History (IdEvent cfg)) MastersNotOk (masterFormat cfg)
      (.exits (IdSession cfg 2) (fun w => MastersShape cfg w.flash)
        fun w => MastersShape cfg w.flash) := by
  have hgiven : ∀ w : World, MastersNotOk w → ∃ st, w.st = st ∧ MastersNotOk w ∧ True :=
    fun w h => ⟨w.st, rfl, h, trivial⟩
  refine Spec.pre (Spec.given fun st => ?_) hgiven
  apply (masterFormat_spec idEvent_honest aside_true hv st).conseq (fun _ h => h)
  . exact fun _ w h => formatted_ids h.1 h.2.1
  . exact fun _ _ h => h.1
  . exact fun _ h => h.1

omit hv in
theorem idDurable_zero {flash : Flash} (h : MastersShape cfg flash) : IdDurable cfg 0 flash :=
  ⟨h, fun h => absurd h (Nat.lt_irrefl 0)⟩

theorem idSession_mount :
    MountFrame cfg (IdEvent cfg) (fun w => IdDurable cfg b w.flash) (IdSession cfg b)
      fun w => IdDurable cfg b w.flash where
  toSessionFrame := idSession_session hv
  start := idDurable_durable
  shape _ h := h.shape
  refused _ h := h
  adopt w p hf hd hp := by
    have hs := adopted_session hf hp
    have hge : b ≤ p.record.nextIdHint := by
      by_cases hb : 0 < b
      . exact hp.2.2 _ (hd.masters hb)
      . omega
    refine ⟨hs.mono ?_, rfl, hge, hge⟩
    rintro r rfl _
    exact Nat.le_refl _
  unusable fl hnone := by
    -- without a record on flash nothing is known of the ids
    by_cases hb : b = 0
    . subst hb
      have hfresh : Spec (History (IdEvent cfg)) MastersNotOk (masterFormat cfg)
          (.exits (IdSession cfg 0) (fun w => MastersShape cfg w.flash)
            fun w => MastersShape cfg w.flash) :=
        (masterFormat_ids hv).conseq (fun _ h => h) (fun _ _ h => h.mono (Nat.zero_le 2))
          (fun _ _ h => h) fun _ h => h
      exact mountUnusable_session hv idEvent_honest (idSession_session hv).toFrame
        (fun _ h => h.shape) hfresh (fun _ h => h.shape) fun _ h => idDurable_zero h
    . intro w h
      have hd : IdDurable cfg b fl := h.2.2 ▸ h.2.1
      exact absurd (hd.masters (Nat.pos_of_ne_zero hb)) (hnone _)

end

/-! Calls -/

-- What holds between two calls.
structure IdInv (cfg : Cfg) (b : Nat) (w : World) : Prop where
  durable : IdDurable cfg b w.flash
  mounted : w.st.mounted = true → IdSession cfg b w

theorem IdSession.inv {w : World} (h : IdSession cfg b w) : IdInv cfg b w :=
  ⟨h.durable, fun _ => h⟩

theorem idInv_stable : Stable (IdInv cfg b) := by
  intro w w' q h
  refine ⟨?_, ?_⟩
  . rw [q.flash]
    exact h.durable
  . intro hm
    exact idSession_stable w w' q (h.mounted (q.mounted ▸ hm))

theorem idUnmounted_inv {w : World} (h : Unmounted (fun w => IdDurable cfg b w.flash) w) :
    IdInv cfg b w := by
  refine ⟨h.1, ?_⟩
  intro hm
  rw [h.2] at hm
  cases hm

theorem mountImpl_ids :
    Keeps (IdEvent cfg) (IdInv cfg b) (IdInv cfg b) (fun w => IdDurable cfg b w.flash)
      (mountImpl cfg) := by
  intro w h hh
  by_cases hm : w.st.mounted = true
  . have hrun : mountImpl cfg w = (.err .EALREADY, w) := by
      simp [mountImpl, Proc.bind_run, getSt, Proc.step, hm]
    rw [hrun]
    exact h
  . have hmount : Spec (History (IdEvent cfg)) (Unmounted fun w => IdDurable cfg b w.flash)
        (mountImpl cfg) (.exits (IdInv cfg b) (IdInv cfg b) fun w => IdDurable cfg b w.flash) :=
      (mountImpl_session idDurable_durable idDurable_durable (fun _ h => h)
        fun hv => idSession_mount hv).conseq (fun _ h => h) (fun _ _ h => h.1.inv)
        (fun _ _ h => idUnmounted_inv h) fun _ h => h
    exact hmount w ⟨h.durable, by simpa using hm⟩ hh

theorem unmountImpl_ids :
    Keeps (IdEvent cfg) (IdInv cfg b) (IdInv cfg b) (fun w => IdDurable cfg b w.flash)
      (unmountImpl cfg) := by
  exact (unmountImpl_session idDurable_durable).conseq (fun _ h => h.durable)
    (fun _ _ h => idUnmounted_inv h) (fun _ _ h => h.elim) fun _ h => h

-- Where `k` fails, nothing is known of the flash before. A store that is not mounted is validated
-- first.
theorem formatImpl_ids {k : Prop} :
    Spec (History (IdEvent cfg))
      (fun w => (w.st.mounted = true → cfg.Valid) ∧ (k → IdInv cfg 0 w)) (formatImpl cfg)
      (.exits (IdSession cfg 2) (fun w => k → IdInv cfg 0 w) fun w => k → IdDurable cfg 0 w.flash) := by
  have hpow : ∀ m, IdEvent cfg (.mutation m) → m.fault.isError = false := fun _ h => h.1
  have hzero : ∀ w, (Unmounted (fun w => k → MastersShape cfg w.flash) w) → k → IdInv cfg 0 w :=
    fun w h hk => idUnmounted_inv ⟨idDurable_zero (h.1 hk), h.2⟩
  intro w h hh
  by_cases hm : w.st.mounted = true
  . have hv := h.1 hm
    have hrun : formatImpl cfg w = formatWholeStore cfg w := by
      unfold formatImpl
      rw [Proc.bind_ok (show getSt w = (.ok w.st, w) from rfl), if_pos hm]
    rw [hrun] at hh ⊢
    have hformat : Spec (History (IdEvent cfg)) (fun w => k → MastersShape cfg w.flash)
        (formatWholeStore cfg)
        (.exits (IdSession cfg 2) (fun w => k → IdInv cfg 0 w)
          fun w => k → IdDurable cfg 0 w.flash) := by
      apply ((formatWholeStore_session hv idEvent_honest (idSession_session hv).toFrame
        (fun _ h => h.shape) (masterFormat_ids hv) k).both
        (formatWholeStore_neverFails hpow hv)).conseq
      . exact fun w h => ⟨h, trivial⟩
      . exact fun _ _ h => h.1
      . exact fun _ _ h => h.2.elim
      . exact fun _ h hk => idDurable_zero (h.1 hk)
    exact hformat w (fun hk => (h.2 hk).durable.shape) hh
  . have hformat : Spec (History (IdEvent cfg)) (Unmounted fun w => k → MastersShape cfg w.flash)
        (formatImpl cfg)
        (.exits (IdSession cfg 2) (fun w => k → IdInv cfg 0 w)
          fun w => k → IdDurable cfg 0 w.flash) := by
      apply (formatImpl_unmounted idEvent_honest idSession_session (fun _ h => h.shape)
        masterFormat_ids k).conseq
      . exact fun w h => h
      . exact fun _ _ h => h.1
      . exact fun _ w h => hzero w h
      . exact fun _ h hk => idDurable_zero (h hk)
    exact hformat w ⟨fun hk => (h.2 hk).durable.shape, by simpa using hm⟩ hh

-- A failed erase_all may leave its record, so nothing is known of the bound.
theorem eraseAllImpl_ids (hv : cfg.Valid) :
    Spec (History (IdEvent cfg)) (IdSession cfg b) (eraseAllImpl cfg)
      (.exits (IdSession cfg 2) (IdSession cfg 0) fun w => IdDurable cfg 0 w.flash) := by
  have hlift : ∀ {α : Type} {x : M α}, Keeps (IdEvent cfg) (IdSession cfg b) (IdSession cfg b)
      (fun w => IdDurable cfg b w.flash) x →
      Spec (History (IdEvent cfg)) (IdSession cfg b) x
        (.exits (IdSession cfg b) (IdSession cfg 0) fun w => IdDurable cfg 0 w.flash) :=
    fun hx => hx.conseq (fun _ h => h) (fun _ _ h => h) (fun _ _ h => h.mono (Nat.zero_le b))
      fun _ h => idDurable_zero h.shape
  unfold eraseAllImpl
  apply (hlift (read_reads _)).seq
  intro st
  split
  . exact Spec.fail fun _ h => h.mono (Nat.zero_le b)
  . split
    . exact Spec.fail fun _ h => h.mono (Nat.zero_le b)
    . apply (hlift (idxInvalidate_reads idSession_stable)).seq
      intro _
      apply (hlift (sidx_reads idSession_stable _)).seq
      intro _
      apply (hlift (invalidateFrom_keeps idSession_data.frame _ _ _)).seq
      intro _
      apply (hlift (bindRootEmpty_keeps idSession_data.frame)).seq
      intro _
      refine modifySt_bind (I := fun w => ∃ st, w.st = st ∧
        MasterSession cfg (fun _ => True) w ∧ st.nextId = 2 ∧ st.ceilingReset = true) ?_ ?_
      . intro w h
        refine ⟨_, rfl, ?_, rfl, rfl⟩
        exact (h.master.mono fun _ _ => trivial).congr
          ⟨rfl, rfl, rfl, rfl, rfl, rfl, rfl, rfl, rfl⟩ (fun _ _ => rfl) h.master.owner
      intro _
      apply Spec.given
      intro st'
      apply Spec.assuming (φ := st'.nextId = 2 ∧ st'.ceilingReset = true)
      . exact fun w h => h.2.2
      intro ⟨hnext, hreset⟩
      have hfill : (masterRecFill st').nextIdHint = 259 := by
        simp [masterRecFill, hnext, hreset, u64, idHintStep]
      have hcommit := masterCommitHow_spec (R := fun _ => True) idEvent_honest aside_true hv false st'
      apply (hcommit.pre fun w h => ⟨h.1, h.2.1, trivial⟩).caught
      . intro _
        apply Spec.ret
        intro w ⟨hs, hbesides, hr, hh, _⟩
        refine ⟨hs.mono ?_, hr, ?_, ?_⟩
        . rintro r rfl _
          rw [hh]
        . rw [hbesides]
          exact Nat.le_of_eq hnext.symm
        . rw [hh, hfill]
          decide
      . intro e
        refine modifySt_bind (I := IdSession cfg 0) ?_ ?_
        . intro w ⟨_, hs, _, hr, _⟩
          refine ⟨?_, hr, Nat.zero_le _, Nat.zero_le _⟩
          exact ((hs rfl).mono fun _ _ h => absurd h (Nat.lt_irrefl 0)).congr
            ⟨rfl, rfl, rfl, rfl, rfl, rfl, rfl, rfl, rfl⟩ (fun _ _ => rfl) (hs rfl).owner
        . intro _
          exact Spec.fail fun _ h => h
      . intro w h
        obtain ⟨a, rotGen, n, hm⟩ := h.1
        exact idDurable_zero hm.shape

-- The ids that a run's calls of alloc_id return with success.
def allocIds (cfg : Cfg) (w : World) : List Call → List Nat
  | [] => []
  | c :: cs =>
    let r := callStep cfg w c
    (match c.op, r.1 with
      | .allocId, .ok (.id n) => if n = 0 then [] else [n]
      | _, _ => []) ++ allocIds cfg r.2 cs

-- The calls that start over with ids.
def Op.resetsIds : Op → Bool
  | .format | .eraseAll => true
  | _ => false

theorem format_ids {k : Prop} :
    Spec (History (IdEvent cfg))
      (fun w => (w.st.mounted = true → cfg.Valid) ∧ (k → IdInv cfg 0 w)) (Op.format.run cfg)
      (.exits (IdSession cfg 2) (fun w => k → IdInv cfg 0 w)
        fun w => k → IdDurable cfg 0 w.flash) := by
  apply formatImpl_ids.seq
  intro _
  apply Spec.seq (I := IdSession cfg 2) (maintReset_reads idSession_stable)
  intro _
  exact ret_keeps _

theorem op_ids (hv : cfg.Valid) (op : Op) (hop : op.resetsIds = false) :
    Spec (History (IdEvent cfg)) (IdInv cfg b) (op.run cfg)
      ⟨fun v w => IdInv cfg b w ∧ (op = .allocId → ∀ n, v = .id n → n ≠ 0 → 0 < b →
        b ≤ n ∧ IdInv cfg (n + 1) w), fun _ => IdInv cfg b, fun w => IdDurable cfg b w.flash⟩ := by
  have hkeeps : op ≠ .allocId → Keeps (IdEvent cfg) (IdInv cfg b) (IdInv cfg b)
      (fun w => IdDurable cfg b w.flash) (op.run cfg) := by
    intro _
    cases op with
    | mount =>
      apply mountImpl_ids.seq
      intro _
      apply (maintReset_reads idInv_stable).seq
      intro _
      exact ret_reads _
    | unmount => exact unmountImpl_ids.seq fun _ => ret_reads _
    | format => cases hop
    | eraseAll => cases hop
    | _ =>
      exact Op.run_between (idSession_opFrame hv) (fun _ h => h.mounted) (fun _ h => h.inv)
        (fun _ h => h.durable) _ rfl
  by_cases halloc : op = .allocId
  . subst halloc
    intro w h hh
    by_cases hm : w.st.mounted = true
    . have hspec : Spec (History (IdEvent cfg)) (IdSession cfg b) (Op.allocId.run cfg)
          ⟨fun v w => IdInv cfg b w ∧ (Op.allocId = .allocId → ∀ n, v = .id n → n ≠ 0 → 0 < b →
            b ≤ n ∧ IdInv cfg (n + 1) w), fun _ => IdInv cfg b,
            fun w => IdDurable cfg b w.flash⟩ := by
        apply (allocIdImpl_ids hv).bind
        . intro id
          apply Spec.ret
          intro w h
          refine ⟨h.1.inv, ?_⟩
          intro _ n hn hne hb
          cases hn
          exact ⟨(h.2 hne hb).1, (h.2 hne hb).2.inv⟩
        . exact fun _ _ h => h.inv
        . exact fun _ h => h
      exact hspec w (h.mounted hm) hh
    . have hrun : Op.allocId.run cfg w = (.ok (.id 0), w) := by
        simp [Op.run, Proc.bind_run, allocIdImpl_unmounted (Bool.not_eq_true _ ▸ hm), Proc.step]
      rw [hrun]
      refine ⟨h, ?_⟩
      intro _ n hn hne
      cases hn
      exact absurd rfl hne
  . apply (hkeeps halloc).conseq (fun _ h => h)
    . exact fun _ _ h => ⟨h, fun h' => absurd h' halloc⟩
    . exact fun _ _ h => h
    . exact fun _ h => h

/-! Runs -/

theorem IdInv.enter {w : World} (h : IdInv cfg b w) (c : Call) : IdInv cfg b (w.enter c) := by
  refine ⟨h.durable, ?_⟩
  intro hm
  have hs := h.mounted hm
  exact hs.congr (.refl _) rfl rfl (fun _ _ => rfl) hs.master.owner

theorem idInv_reboot {w : World} (h : IdDurable cfg b w.flash) : IdInv cfg b w.reboot :=
  idUnmounted_inv ⟨h, rfl⟩

section

variable {w : World} {c : Call} (hgood : ∀ e ∈ (callStep cfg w c).2.history, IdEvent cfg e)

include hgood

theorem callStep_ids (hv : cfg.Valid) (h : IdInv cfg b w) (hop : c.op.resetsIds = false) :
    IdInv cfg b (callStep cfg w c).2 ∧
      (c.op = .allocId → ∀ n, (callStep cfg w c).1 = .ok (.id n) → n ≠ 0 → 0 < b →
        b ≤ n ∧ IdInv cfg (n + 1) (callStep cfg w c).2) := by
  have hq := callStep_of_spec cfg (op_ids hv c.op hop) (h.enter c)
    fun e he => hgood e (by rw [callStep_history]; exact he)
  generalize callStep cfg w c = r at hq
  obtain ⟨o, w'⟩ := r
  cases o with
  | ok v =>
    refine ⟨hq.1, ?_⟩
    intro halloc n hn
    cases hn
    exact hq.2 halloc n rfl
  | err e => exact ⟨hq, fun _ n hn => nomatch hn⟩
  | cut =>
    obtain ⟨w'', hd, rfl⟩ := hq
    exact ⟨idInv_reboot hd, fun _ n hn => nomatch hn⟩

-- A call that starts over: it succeeded, and ids start at 2, or nothing is known of them.
theorem callStep_reset (hv : cfg.Valid) (h : IdInv cfg 0 w) (hop : c.op.resetsIds = true) :
    IdInv cfg 0 (callStep cfg w c).2 ∧
      ((∃ v, (callStep cfg w c).1 = .ok v) → IdInv cfg 2 (callStep cfg w c).2) := by
  have hspec : Spec (History (IdEvent cfg)) (IdInv cfg 0) (c.op.run cfg)
      (.exits (IdInv cfg 2) (IdInv cfg 0) fun w => IdDurable cfg 0 w.flash) := by
    cases hcop : c.op with
    | format =>
      apply (format_ids (k := True)).conseq
      . exact fun w h => ⟨fun _ => hv, fun _ => h⟩
      . exact fun _ _ h => h.inv
      . exact fun _ _ h => h trivial
      . exact fun _ h => h trivial
    | eraseAll =>
      intro w h hh
      by_cases hm : w.st.mounted = true
      . have hspec : Spec (History (IdEvent cfg)) (IdSession cfg 0) (Op.eraseAll.run cfg)
            (.exits (IdInv cfg 2) (IdInv cfg 0) fun w => IdDurable cfg 0 w.flash) := by
          apply Spec.seq (I := IdSession cfg 2)
          . exact (eraseAllImpl_ids hv).conseq (fun _ h => h) (fun _ _ h => h)
              (fun _ _ h => h.inv) fun _ h => h
          . intro _
            apply Spec.seq (I := IdSession cfg 2) (maintReset_reads idSession_stable)
            intro _
            exact Spec.ret fun _ h => h.inv
        exact hspec w (h.mounted hm) hh
      . have hrun : Op.eraseAll.run cfg w = (.err .ENODEV, w) := by
          simp [Op.run, Proc.bind_run, eraseAllImpl_unmounted (Bool.not_eq_true _ ▸ hm), Proc.step]
        rw [hrun]
        exact h
    | _ =>
      rw [hcop] at hop
      cases hop
  have hq := callStep_of_spec cfg hspec (h.enter c)
    fun e he => hgood e (by rw [callStep_history]; exact he)
  generalize callStep cfg w c = r at hq
  obtain ⟨o, w'⟩ := r
  cases o with
  | ok v => exact ⟨⟨idDurable_zero hq.durable.shape, fun hm => (hq.mounted hm).mono (Nat.zero_le 2)⟩,
      fun _ => hq⟩
  | err e => exact ⟨hq, by rintro ⟨_, ⟨⟩⟩⟩
  | cut =>
    obtain ⟨w'', hd, rfl⟩ := hq
    exact ⟨idInv_reboot hd, by rintro ⟨_, ⟨⟩⟩⟩

end

-- From bound `b` on, the ids of a run without a reset are at least `b` and increase.
theorem allocIds_increase (hv : cfg.Valid) {cs : List Call} {w : World} (hb : 0 < b)
    (h : IdInv cfg b w) (hcs : ∀ c ∈ cs, c.op.resetsIds = false)
    (hgood : ∀ e ∈ (runCalls cfg w cs).2.history, IdEvent cfg e) :
    (allocIds cfg w cs).Pairwise (· < ·) ∧ ∀ n ∈ allocIds cfg w cs, b ≤ n := by
  induction cs generalizing b w with
  | nil => exact ⟨List.Pairwise.nil, fun n hn => (List.not_mem_nil hn).elim⟩
  | cons c cs ih =>
    have hc := hcs c (List.mem_cons_self ..)
    have hrest := fun c' hc' => hcs c' (List.mem_cons_of_mem _ hc')
    obtain ⟨hinv, halloc⟩ := callStep_ids
      (fun e he => hgood e (List.IsSuffix.subset (runCalls_grows cfg _ cs) he)) hv h hc
    unfold allocIds
    simp only
    split
    . next n hop hr =>
      split
      . exact ih hb hinv hrest hgood
      . next hne =>
        obtain ⟨hbn, hinv'⟩ := halloc hop n hr hne hb
        obtain ⟨hpair, hge⟩ := ih (Nat.succ_pos n) hinv' hrest hgood
        rw [List.singleton_append]
        refine ⟨List.Pairwise.cons (fun m hm => hge m hm) hpair, ?_⟩
        intro m hm
        rcases List.mem_cons.mp hm with rfl | hm
        . exact hbn
        . have := hge m hm
          omega
    . exact ih hb hinv hrest hgood

-- A format of a store that is not mounted succeeds on a device that suits the build only.
theorem valid_of_format {w : World} {c : Call} (hm : w.st.mounted = false) (hop : c.op = .format)
    {v : Value} (h : (callStep cfg w c).1 = .ok v) : cfg.Valid := by
  cases hvalid : cfg.storeOpenAndValidate with
  | ok _ => exact Cfg.valid_of_validate hvalid
  | error e =>
    have hrun : c.op.run cfg (w.enter c) = (.err e, w.enter c) := by
      rw [hop]
      simp [Op.run, formatImpl, Proc.bind_run, getSt, Proc.step, World.enter, hm, hvalid,
        Proc.ofExcept]
    simp [callStep, hrun] at h

theorem idInv_of_format {flash : Flash} {c : Call} (hop : c.op = .format) {v : Value}
    (hok : (callStep cfg (World.fresh flash) c).1 = .ok v)
    (hgood : ∀ e ∈ (callStep cfg (World.fresh flash) c).2.history, IdEvent cfg e) :
    IdInv cfg 2 (callStep cfg (World.fresh flash) c).2 := by
  have hspec : Spec (History (IdEvent cfg)) _ (c.op.run cfg) _ := hop ▸ format_ids (k := False)
  have hunmounted : ((World.fresh flash).enter c).st.mounted = false := rfl
  have hq := callStep_of_spec cfg (w := World.fresh flash) hspec
    ⟨fun hm => absurd hm (by simp [hunmounted]), False.elim⟩
    fun e he => hgood e (by rw [callStep_history]; exact he)
  generalize callStep cfg (World.fresh flash) c = r at hq hok
  obtain ⟨o, w'⟩ := r
  simp only at hok
  subst hok
  exact hq.inv

end

-- A store is formatted once. From then on, after any later format or erase_all that succeeded, or
-- the first format itself, the ids that alloc_id returns up to the next one increase from 2 on.
theorem alloc_ids_increase (flash : Flash) (f c : Call) (cs before after : List Call)
    (hrun : f :: cs = before ++ c :: after) (hf : f.op = .format)
    (hfok : ∃ v, (callStep cfg (World.fresh flash) f).1 = .ok v) (hc : c.op.resetsIds = true)
    (hcok : ∃ v, (callStep cfg (runCalls cfg (World.fresh flash) before).2 c).1 = .ok v)
    (hafter : ∀ c ∈ after, c.op.resetsIds = false)
    (hgood : ∀ e ∈ (runCalls cfg (World.fresh flash) (f :: cs)).2.history, IdEvent cfg e) :
    (allocIds cfg (runCalls cfg (World.fresh flash) (before ++ [c])).2 after).Pairwise (· < ·) ∧
      ∀ n ∈ allocIds cfg (runCalls cfg (World.fresh flash) (before ++ [c])).2 after, 2 ≤ n := by
  obtain ⟨v, hfok⟩ := hfok
  have hv : cfg.Valid := valid_of_format rfl hf hfok
  have hfirst : IdInv cfg 2 (callStep cfg (World.fresh flash) f).2 :=
    idInv_of_format hf hfok fun e he =>
      hgood e (List.IsSuffix.subset (runCalls_grows cfg _ cs) he)
  have hstart : IdInv cfg 2 (runCalls cfg (World.fresh flash) (before ++ [c])).2 := by
    cases before with
    | nil =>
      cases hrun
      exact hfirst
    | cons f' before =>
      rw [List.cons_append, List.cons.injEq] at hrun
      obtain ⟨rfl, rfl⟩ := hrun
      -- every call in between keeps what is known without a bound
      have hzero : IdInv cfg 0 (callStep cfg (World.fresh flash) f).2 :=
        ⟨idDurable_zero hfirst.durable.shape, fun hm => (hfirst.mounted hm).mono (Nat.zero_le 2)⟩
      have hhist : ∀ e ∈ (runCalls cfg (callStep cfg (World.fresh flash) f).2
          (before ++ c :: after)).2.history, IdEvent cfg e := hgood
      rw [runCalls_append] at hhist
      have hbefore := EachCall.inv (I := IdInv cfg 0) ?_ hzero (eachCall_history fun e he =>
        hhist e (List.IsSuffix.subset (runCalls_grows cfg _ _) he))
      . have hstep := callStep_reset (fun e he =>
          hhist e (List.IsSuffix.subset (runCalls_grows cfg _ after) he)) hv hbefore hc
        rw [runCalls_append]
        exact hstep.2 hcok
      . intro w c' hw hc'
        cases hop : c'.op.resetsIds with
        | false => exact (callStep_ids hc' hv hw hop).1
        | true => exact (callStep_reset hc' hv hw hop).1
  have hsplit : before ++ c :: after = (before ++ [c]) ++ after := by simp
  rw [hrun, hsplit, runCalls_append] at hgood
  exact allocIds_increase hv (by decide) hstart hafter hgood

-- Every write of a master sector took effect as a whole.
def WholeMasters : Event → Prop
  | .mutation m => m.fault = .none ∨ (m.fault.isError = false ∧ masterBSector < m.sector)
  | .alloc id => id + 1 + idHintStep < 2 ^ 64

instance : DecidablePred WholeMasters := fun e =>
  match e with
  | .mutation _ => inferInstanceAs (Decidable (_ ∨ _))
  | .alloc _ => inferInstanceAs (Decidable (_ < _))

theorem idEvent_of_whole {e : Event} (h : WholeMasters e) : IdEvent cfg e := by
  cases e with
  | alloc id => exact h
  | mutation m =>
    rcases h with h | ⟨herr, hs⟩
    . refine ⟨by rw [h]; rfl, ?_⟩
      intro _
      have hafter : m.after m.sector = m.request.whole (m.before m.sector) := by
        simp [Mutation.after, Flash.set, h, Request.result]
      rw [hafter]
      exact ⟨fun _ => .inr rfl, fun _ => .inr rfl, fun _ _ => .inr rfl⟩
    . exact ⟨herr, fun hle => absurd hle (Nat.not_le_of_lt hs)⟩

def tornSlotRun : List Call :=
  [{ op := .allocId }, { op := .update 2 [1, 2, 3, 4], faults := [.cut 5 false] }, { op := .mount },
    { op := .allocId }, { op := .update 259 [5] }, { op := .delete 259 }, { op := .unmount },
    { op := .mount }, { op := .allocId }]

theorem alloc_ids_increase_after_torn_slot :
    allocIds smallDevice (runCalls smallDevice (World.fresh blankFlash) [{ op := .format }]).2
        tornSlotRun = [2, 259, 516] ∧
      (allocIds smallDevice (runCalls smallDevice (World.fresh blankFlash) [{ op := .format }]).2
        tornSlotRun).Pairwise (· < ·) := by
  have hok : ∃ v, (callStep smallDevice (World.fresh blankFlash) { op := .format }).1 = .ok v :=
    ⟨.unit, by decide +kernel⟩
  have hwhole : ∀ e ∈ (runCalls smallDevice (World.fresh blankFlash)
      ({ op := .format } :: tornSlotRun)).2.history, WholeMasters e := by decide +kernel
  refine ⟨by decide +kernel, ?_⟩
  exact (alloc_ids_increase smallDevice blankFlash { op := .format } { op := .format } tornSlotRun []
    tornSlotRun rfl rfl hok rfl hok (by decide) fun e he => idEvent_of_whole _ (hwhole e he)).1

-- Power is lost in an append, with one byte of the id written, and then in a master record. The
-- scan of the next mount takes the torn id for the highest, and the ceiling past it wraps around.
def tornIdRun : List Call :=
  [{ op := .allocId }, { op := .update 2 [1, 2, 3, 4], faults := [.cut 5 false] }, { op := .mount },
    { op := .allocId, faults := [.cut 9 false] }, { op := .mount }, { op := .allocId },
    { op := .unmount }, { op := .mount }, { op := .allocId }]

theorem alloc_id_falls_back :
    ¬ (allocIds smallDevice
      (callStep smallDevice (World.fresh blankFlash) { op := .format }).2 tornIdRun).Pairwise
        (· < ·) := by
  decide +kernel

end KeyValueDb.BlobDb
