import KeyValueDb.BlobDb.Sessions
import KeyValueDb.BlobDb.Seal

/-!
The master log over whole runs: its written slots stay a prefix, and a mount finds the record of the
last commit, or one of a later commit that failed or was cut.
-/

namespace KeyValueDb.BlobDb

variable (cfg : Cfg)

-- The record that a write or an erase of a master sector is part of the commit of. An erase is the
-- first step of a rotation, which commits what the RAM state says.
def Mutation.record (m : Mutation) : MasterRec :=
  match m.request with
  | .write 0 data => masterRecAt (image data) masterLogOff
  | .write _ data => masterRecAt (image data) 0
  | .replace data => masterRecAt (image data) masterLogOff
  | .erase => masterRecFill m.st

-- The record of the last commit that took effect, and of every one since that failed or was cut.
def candidates : List Event → List MasterRec
  | [] => []
  | .alloc _ :: es => candidates es
  | .mutation m :: es =>
    if masterBSector < m.sector then candidates es
    else if m.fault = .none ∧ m.request ≠ .erase then [m.record]
    else m.record :: candidates es

section

variable {cfg}

theorem candidates_data {w : World} {sector : Nat} {r : Request} (hs : scratchSector ≤ sector) :
    candidates (w.mutate sector r).history = candidates w.history := by
  rw [World.mutate_history, candidates, if_pos]
  exact Nat.lt_of_lt_of_le (by decide) hs

-- A write of a master sector: it took effect, or its record has joined the candidates.
theorem candidates_whole {w : World} {slot : Nat} {r : Request} (hs : slot ≤ 1)
    (hf : w.nextFault = .none) (hr : r ≠ .erase) :
    candidates (w.mutate slot r).history = [(w.mutation slot r).record] := by
  have hs : ¬ masterBSector < (w.mutation slot r).sector := Nat.not_lt_of_le hs
  have hf : (w.mutation slot r).fault = .none := hf
  rw [World.mutate_history, candidates, if_neg hs, if_pos ⟨hf, hr⟩]

theorem candidates_joined {w : World} {slot : Nat} {r : Request} (hs : slot ≤ 1)
    (h : w.nextFault ≠ .none ∨ r = .erase) :
    candidates (w.mutate slot r).history =
      (w.mutation slot r).record :: candidates w.history := by
  have hs : ¬ masterBSector < (w.mutation slot r).sector := Nat.not_lt_of_le hs
  have hn : ¬ ((w.mutation slot r).fault = .none ∧ (w.mutation slot r).request ≠ .erase) := by
    intro hn
    rcases h with h | h
    . exact h hn.1
    . exact hn.2 h
  rw [World.mutate_history, candidates, if_neg hs, if_neg hn]

/-! The record of a request -/

theorem record_append {w : World} {slot n rotGen recNo : Nat} {r : MasterRec} (hr : r.Fits)
    (hn : recNo < 256 ^ 4) :
    (w.mutation slot (.write (masterRecOff cfg n) (masterRecImage cfg rotGen recNo r))).record =
      r := by
  have hoff : ∃ k, masterRecOff cfg n = k + 1 := ⟨127 + n * cfg.recSize, by
    unfold masterRecOff masterLogOff masterHdrMax
    omega⟩
  obtain ⟨k, hk⟩ := hoff
  have hbytes : bytesAt (image (masterRecImage cfg rotGen recNo r)) 0 masterRecLen =
      masterRecBytes rotGen recNo r := by
    have h : bytesAt (program blank 0 (masterRecImage cfg rotGen recNo r)) 0
        (masterRecImage cfg rotGen recNo r).length = masterRecImage cfg rotGen recNo r :=
      bytesAt_program fun _ _ _ => rfl
    rw [image_eq_program, ← masterRecBytes_length rotGen recNo r]
    exact (bytesAt_split (a := masterRecBytes rotGen recNo r) (b := List.replicate _ _) h).1
  unfold Mutation.record
  simp only [World.mutation, hk]
  exact (masterRec_written hr hn hbytes).2

theorem record_sector {st : St} {rotGen : Nat} {r : MasterRec} (hr : r.Fits) :
    masterRecAt (image (masterSectorImage cfg st rotGen r)) masterLogOff = r := by
  have hbytes := (freshSector_bytes cfg st rotGen r).2
  have hoff : masterRecOff cfg 0 = masterLogOff := by simp [masterRecOff]
  rw [image_eq_program]
  rw [hoff] at hbytes
  exact (masterRec_written hr (by decide) hbytes).2

theorem record_write {w : World} {slot rotGen : Nat} {st : St} {r : MasterRec} (hr : r.Fits) :
    (w.mutation slot (.write 0 (masterSectorImage cfg st rotGen r))).record = r :=
  record_sector hr

theorem record_replace {w : World} {slot rotGen : Nat} {st : St} {r : MasterRec} (hr : r.Fits) :
    (w.mutation slot (.replace (masterSectorImage cfg st rotGen r))).record = r :=
  record_sector hr

/-! Commits -/

-- The candidates of before, and one more.
def Joined (l : List MasterRec) (r : MasterRec) (w : World) : Prop :=
  r ∈ candidates w.history ∧ ∀ x ∈ l, x ∈ candidates w.history

section

variable {good : Event → Prop} {l : List MasterRec} {r : MasterRec} {st : St}

theorem masterAppend_candidates (hr : r.Fits) (hn : st.logNext < 256 ^ 4)
    (ha : st.activeMaster ≤ 1) :
    Spec (History good) (fun w => w.st = st ∧ candidates w.history = l) (masterAppend cfg r)
      (.exits (fun w => candidates w.history = [r]) (Joined l r) (Joined l r)) := by
  unfold masterAppend
  apply getSt_bind
  intro st'
  apply Spec.assuming (φ := st' = st)
  . exact fun w h => h.1.symm.trans h.2.1
  rintro rfl
  have hwrite : Spec (History good) (fun w => w.st = st' ∧ w.st = st' ∧ candidates w.history = l)
      (storeWrite st'.activeMaster (masterRecOff cfg st'.logNext)
        (masterRecImage cfg st'.rotGen st'.logNext r))
      (.exits (fun w => candidates w.history = [r]) (Joined l r) (Joined l r)) := by
    have hjoin : ∀ w : World, candidates w.history = l → w.nextFault ≠ .none →
        Joined l r (w.mutate st'.activeMaster (.write (masterRecOff cfg st'.logNext)
          (masterRecImage cfg st'.rotGen st'.logNext r))) := by
      intro w h hf
      unfold Joined
      rw [candidates_joined ha (.inl hf), record_append hr hn, h]
      exact ⟨List.mem_cons_self, fun x hx => List.mem_cons_of_mem _ hx⟩
    apply storeMutate_spec
    . intro w h hf _
      show candidates _ = _
      rw [candidates_whole ha hf (by simp), record_append hr hn]
    . exact fun w _ _ h hf _ => hjoin w h.2.2 (by rw [hf]; simp)
    . exact fun w _ _ h hf _ => hjoin w h.2.2 (by rw [hf]; simp)
  apply hwrite.caught
  . intro _
    refine modifySt_bind (I := fun w => candidates w.history = [r]) (fun _ h => h) ?_
    exact fun _ => Spec.ret fun _ h => h
  . intro e
    refine modifySt_bind (I := Joined l r) (fun _ h => h) ?_
    intro _
    refine modifySt_bind (I := Joined l r) (fun _ h => h) ?_
    exact fun _ => Spec.fail fun _ h => h
  . exact fun _ h => h

theorem masterRotate_candidates (hr : r.Fits) (hfill : r = masterRecFill st)
    (hrot : st.rotGen ≠ 2 ^ 32 - 1) :
    Spec (History good) (fun w => w.st = st ∧ candidates w.history = l) (masterRotate cfg r)
      (.exits (fun w => candidates w.history = [r]) (Joined l r) (Joined l r)) := by
  have hjoin : ∀ (w : World) req l, (w.mutation (1 - st.activeMaster) req).record = r →
      w.nextFault ≠ .none ∨ req = .erase → (∀ x ∈ l, x ∈ candidates w.history) →
      Joined l r (w.mutate (1 - st.activeMaster) req) := by
    intro w req l hrec hf hl
    unfold Joined
    rw [candidates_joined (Nat.sub_le _ _) hf, hrec]
    exact ⟨List.mem_cons_self, fun x hx => List.mem_cons_of_mem _ (hl x hx)⟩
  unfold masterRotate
  apply getSt_bind
  intro st'
  apply Spec.assuming (φ := st' = st)
  . exact fun w h => h.1.symm.trans h.2.1
  rintro rfl
  simp only
  rw [if_neg hrot]
  apply Spec.seq (I := fun w => candidates w.history = [r])
  . unfold masterWriteSector
    apply getSt_bind
    intro st
    apply Spec.assuming (φ := st = st')
    . exact fun w h => h.1.symm.trans h.2.1
    rintro rfl
    unfold storeReplace
    split
    . apply storeMutate_spec
      . intro w h hf _
        show candidates _ = _
        rw [candidates_whole (Nat.sub_le _ _) hf (by simp), record_replace hr]
      . exact fun w _ _ h hf _ => hjoin w _ l (record_replace hr) (.inl (by rw [hf]; simp))
          (by simp [h.2.2.2])
      . exact fun w _ _ h hf _ => hjoin w _ l (record_replace hr) (.inl (by rw [hf]; simp))
          (by simp [h.2.2.2])
    . have herase : ∀ w : World, w.st = st → (w.mutation (1 - st.activeMaster) .erase).record =
          r := fun w h => by rw [hfill, ← h]; rfl
      apply Spec.seq (I := fun w => Joined l r w)
      . apply storeMutate_spec
        . exact fun w h _ _ => hjoin w _ l (herase w h.1) (.inr rfl) (by simp [h.2.2.2])
        . exact fun w _ _ h _ _ => hjoin w _ l (herase w h.1) (.inr rfl) (by simp [h.2.2.2])
        . exact fun w _ _ h _ _ => hjoin w _ l (herase w h.1) (.inr rfl) (by simp [h.2.2.2])
      . intro _
        apply storeMutate_spec
        . intro w h hf _
          show candidates _ = _
          rw [candidates_whole (Nat.sub_le _ _) hf (by simp), record_write hr]
        . exact fun w _ _ h hf _ => hjoin w _ l (record_write hr) (.inl (by rw [hf]; simp)) h.2
        . exact fun w _ _ h hf _ => hjoin w _ l (record_write hr) (.inl (by rw [hf]; simp)) h.2
  . intro _
    exact modifySt_spec fun _ h => h

-- A commit that needs a rotation the generation has no room for.
def commitStuck (cfg : Cfg) (force : Bool) (st : St) : Bool :=
  (force || (st.logFailed || cfg.logCap ≤ st.logNext)) && st.rotGen == 2 ^ 32 - 1

theorem masterRotate_stuck {w : World} (r : MasterRec) (h : w.st.rotGen = 2 ^ 32 - 1) :
    masterRotate cfg r w = (.err .ENOSPC, w) := by
  unfold masterRotate
  rw [Proc.bind_ok (show getSt w = (.ok w.st, w) from rfl)]
  simp only
  rw [if_pos h]
  rfl

theorem masterCommitHow_stuck {force : Bool} {w : World} (h : commitStuck cfg force w.st = true) :
    masterCommitHow cfg force w =
      (.err .ENOSPC, { w with st := { w.st with ceilingReset := false } }) := by
  unfold commitStuck at h
  rw [Bool.and_eq_true, beq_iff_eq] at h
  obtain ⟨hwhy, hrot⟩ := h
  unfold masterCommitHow
  rw [Proc.bind_ok (show getSt w = (.ok w.st, w) from rfl)]
  simp only
  rw [if_pos hwhy]
  have hcaught : Proc.attempt (masterRotate cfg (masterRecFill w.st)) w =
      (.ok (.error .ENOSPC), w) := by
    rw [Proc.attempt_run, masterRotate_stuck _ hrot]
    rfl
  rw [Proc.bind_ok hcaught]
  rfl

theorem masterCommitHow_candidates {force : Bool} (hr : (masterRecFill st).Fits)
    (ha : st.activeMaster ≤ 1) (hstuck : commitStuck cfg force st = false) :
    Spec (History good) (fun w => w.st = st ∧ candidates w.history = l)
      (masterCommitHow cfg force)
      (.exits (fun w => candidates w.history = [masterRecFill st]) (Joined l (masterRecFill st))
        (Joined l (masterRecFill st))) := by
  unfold masterCommitHow
  apply getSt_bind
  intro st'
  apply Spec.assuming (φ := st' = st)
  . exact fun w h => h.1.symm.trans h.2.1
  rintro rfl
  simp only
  have hbody : Spec (History good) (fun w => w.st = st' ∧ w.st = st' ∧ candidates w.history = l)
      (if force || (st'.logFailed || cfg.logCap ≤ st'.logNext) then
        masterRotate cfg (masterRecFill st')
      else masterAppend cfg (masterRecFill st'))
      (.exits (fun w => candidates w.history = [masterRecFill st']) (Joined l (masterRecFill st'))
        (Joined l (masterRecFill st'))) := by
    split
    . next hwhy =>
      refine (masterRotate_candidates hr rfl ?_).pre fun w h => h.2
      intro hrot
      simp [commitStuck, hwhy, hrot] at hstuck
    . next hwhy =>
      simp only [Bool.or_eq_true, decide_eq_true_eq, not_or, Nat.not_le] at hwhy
      exact (masterAppend_candidates hr (Nat.lt_trans hwhy.2.2 logCap_lt) ha).pre fun w h => h.2
  apply hbody.caught
  . intro _
    refine modifySt_bind (I := fun w => candidates w.history = [masterRecFill st'])
      (fun _ h => h) ?_
    exact fun _ => modifySt_spec fun _ h => h
  . intro e
    refine modifySt_bind (I := Joined l (masterRecFill st')) (fun _ h => h) ?_
    exact fun _ => Spec.fail fun _ h => h
  . exact fun _ h => h

theorem masterWriteSector_candidates {slot rotGen : Nat} (hs : slot ≤ 1) (hr : r.Fits) :
    Spec (History good) (fun _ => True) (masterWriteSector cfg slot rotGen r)
      (.exits (fun w => candidates w.history = [r]) (fun _ => True) fun _ => True) := by
  unfold masterWriteSector
  apply getSt_bind
  intro st
  unfold storeReplace
  split
  . apply storeMutate_spec
    . intro w _ hf _
      show candidates _ = _
      rw [candidates_whole hs hf (by simp), record_replace hr]
    . exact fun _ _ _ _ _ _ => trivial
    . exact fun _ _ _ _ _ _ => trivial
  . apply Spec.seq (I := fun _ => True)
    . exact storeMutate_spec (fun _ _ _ _ => trivial) (fun _ _ _ _ _ _ => trivial)
        fun _ _ _ _ _ _ => trivial
    . intro _
      apply storeMutate_spec
      . intro w _ hf _
        show candidates _ = _
        rw [candidates_whole hs hf (by simp), record_write hr]
      . exact fun _ _ _ _ _ _ => trivial
      . exact fun _ _ _ _ _ _ => trivial

theorem masterFormat_candidates :
    Spec (History good) (fun _ => True) (masterFormat cfg)
      (.exits (fun w => candidates w.history = [formatRec]) (fun _ => True) fun _ => True) := by
  unfold masterFormat
  refine modifySt_bind (I := fun w => masterRecFill w.st = formatRec) (fun _ _ => rfl) ?_
  intro _
  apply getSt_bind
  intro st
  apply Spec.assuming (φ := masterRecFill st = formatRec)
  . exact fun w h => h.1 ▸ h.2
  intro hfill
  rw [hfill]
  refine modifySt_bind (I := fun _ => True) (fun _ _ => trivial) ?_
  intro _
  apply Spec.seq (I := fun w => candidates w.history = [formatRec])
  . exact masterWriteSector_candidates (by decide) formatRec_fits
  . intro _
    apply Spec.seq (I := fun w => candidates w.history = [formatRec])
    . exact (masterWriteSector_candidates (by decide) formatRec_fits).pre fun _ _ => trivial
    . exact fun _ => modifySt_spec fun _ h => h

end

/-! Sessions -/

-- What a session knows of the record a mount would adopt. Where `k` fails, nothing.
def LogSession (cfg : Cfg) (k : Prop) (w : World) : Prop :=
  MasterSession cfg (fun r => k → r ∈ candidates w.history) w

structure LogDurable (cfg : Cfg) (k : Prop) (w : World) : Prop where
  shape : MastersShape cfg w.flash
  masters : k → MastersOk cfg (· ∈ candidates w.history) w.flash

section

variable {k : Prop}

theorem LogSession.durable {w : World} (h : LogSession cfg k w) : LogDurable cfg k w := by
  obtain ⟨n, hm, _⟩ := h.masters
  exact ⟨hm.shape, fun hk => ⟨_, _, n, hm.mono fun _ hr => hr hk⟩⟩

theorem logDurable_durable : Durable (LogDurable cfg k) := by
  intro w w' hf hh h
  refine ⟨?_, ?_⟩
  . rw [hf]
    exact h.shape
  . rw [hf, hh]
    exact h.masters

theorem LogSession.congr {w w' : World} (h : LogSession cfg k w) (hst : w.st.SameMaster w'.st)
    (hf : ∀ s, s ≤ 1 → w'.flash s = w.flash s) (hown : w'.st.segOwner < 256 ^ 8)
    (hc : candidates w'.history = candidates w.history) : LogSession cfg k w' := by
  unfold LogSession
  rw [hc]
  exact MasterSession.congr h hst hf hown

theorem LogSession.mono {k' : Prop} {w : World} (h : LogSession cfg k w) (hk : k' → k) :
    LogSession cfg k' w :=
  MasterSession.mono h fun _ hr hk' => hr (hk hk')

-- The last commit took effect.
theorem LogSession.of_last {w : World} {r : MasterRec} (h : MasterSession cfg (· = r) w)
    (hc : candidates w.history = [r]) : LogSession cfg k w := by
  unfold LogSession
  rw [hc]
  exact h.mono fun r hr _ => List.mem_singleton.mpr hr

theorem logSession_stable : Stable (LogSession cfg k) := by
  intro w w' q h
  refine h.congr q.sameMaster (fun s _ => by rw [q.flash]) ?_ (by rw [q.history])
  rw [q.segOwner]
  exact h.owner

theorem logSession_data {good : Event → Prop} :
    DataFrame good (LogSession cfg k) (LogDurable cfg k) where
  lost _ h := h.durable
  stable := logSession_stable
  data sector r hs := by
    have hkeep : ∀ w, LogSession cfg k w → LogSession cfg k (w.mutate sector r) :=
      fun w h => h.congr (.refl _) (mutate_masters hs) h.owner (candidates_data hs)
    apply storeMutate_spec
    . exact fun w h _ _ => hkeep w h
    . exact fun w _ _ h _ _ => hkeep w h
    . exact fun w _ _ h _ _ => (hkeep w h).durable
  wedge w h := h.congr ⟨rfl, rfl, rfl, rfl, rfl, rfl, rfl, rfl, rfl⟩ (fun _ _ => rfl) h.owner rfl

section

variable {good : Event → Prop} (hgood : ∀ e, good e → MasterEventHonest cfg e) (hv : cfg.Valid)

include hgood hv

theorem masterCommitHow_log (force : Bool) :
    Spec (History good) (LogSession cfg k) (masterCommitHow cfg force)
      (.exits (LogSession cfg k)
        (fun w => LogDurable cfg k w ∧ (force = false → LogSession cfg k w)) (LogDurable cfg k)) := by
  have hgiven : ∀ w, LogSession cfg k w → ∃ p : St × List MasterRec, (w.st = p.1 ∧
      MasterSession cfg (fun r => k → r ∈ p.2) w ∧ True) ∧ w.st = p.1 ∧
        candidates w.history = p.2 :=
    fun w h => ⟨(w.st, candidates w.history), ⟨rfl, h, trivial⟩, rfl, rfl⟩
  refine Spec.pre (Spec.given fun ⟨st, l⟩ => ?_) hgiven
  cases hstuck : commitStuck cfg force st with
  | true =>
    -- nothing is written
    intro w ⟨⟨hw, hs, _⟩, _, hl⟩ _
    simp only at hw hs hl
    rw [masterCommitHow_stuck (hw.symm ▸ hstuck)]
    have hkeep : LogSession cfg k { w with st := { w.st with ceilingReset := false } } := by
      unfold LogSession
      rw [hl]
      exact hs.congr ⟨rfl, rfl, rfl, rfl, rfl, rfl, rfl, rfl, rfl⟩ (fun _ _ => rfl) hs.owner
    exact ⟨hkeep.durable, fun _ => hkeep⟩
  | false =>
    apply Spec.assuming (φ := (masterRecFill st).Fits ∧ st.activeMaster ≤ 1)
    . intro w ⟨⟨hw, hs, _⟩, _⟩
      simp only at hw
      rw [← hw]
      obtain ⟨n, hm, _⟩ := hs.masters
      exact ⟨masterRecFill_fits hs, hm.active⟩
    intro ⟨hfits, hact⟩
    have hjoined : ∀ w, Joined l (masterRecFill st) w →
        ∀ r, orRec (fun r => k → r ∈ l) (masterRecFill st) r → k → r ∈ candidates w.history := by
      intro w hj r hr hk
      rcases hr with hr | rfl
      . exact hj.2 r (hr hk)
      . exact hj.1
    apply ((masterCommitHow_spec hgood aside_true hv force st).both
      (masterCommitHow_candidates (l := l) hfits hact hstuck)).conseq (fun _ h => h)
    . exact fun _ w h => LogSession.of_last h.1.1 h.2
    . intro _ w ⟨⟨hm, hs, _⟩, hj⟩
      refine ⟨⟨?_, ?_⟩, ?_⟩
      . obtain ⟨a, rotGen, n, hm⟩ := hm
        exact hm.shape
      . exact fun hk => hm.mono fun r hr => hjoined w hj r hr hk
      . exact fun hforce => (hs hforce).mono (hjoined w hj)
    . intro w ⟨⟨hm, _⟩, hj⟩
      refine ⟨?_, ?_⟩
      . obtain ⟨a, rotGen, n, hm⟩ := hm
        exact hm.shape
      . exact fun hk => hm.mono fun r hr => hjoined w hj r hr hk

theorem masterCommit_log :
    Keeps good (LogSession cfg k) (LogSession cfg k) (LogDurable cfg k) (masterCommit cfg) :=
  (masterCommitHow_log hgood hv false).conseq (fun _ h => h) (fun _ _ h => h)
    (fun _ _ h => h.2 rfl) fun _ h => h

theorem masterCommitRotate_log :
    Keeps good (LogSession cfg k) (LogDurable cfg k) (LogDurable cfg k) (masterCommitRotate cfg) :=
  (masterCommitHow_log hgood hv true).conseq (fun _ h => h) (fun _ _ h => h)
    (fun _ _ h => h.1) fun _ h => h

theorem allocIdImpl_log :
    Keeps good (LogSession cfg k) (LogSession cfg k) (LogDurable cfg k) (allocIdImpl cfg) := by
  unfold allocIdImpl
  apply (read_reads _).seq
  intro st
  split
  . exact ret_reads _
  . apply Spec.caught (I := LogSession cfg k) (E := LogSession cfg k)
    . split
      . exact masterCommit_log hgood hv
      . exact ret_reads _
    . intro _
      refine modifySt_bind (I := LogSession cfg k) ?_ ?_
      . intro w h
        exact h.congr ⟨rfl, rfl, rfl, rfl, rfl, rfl, rfl, rfl, rfl⟩ (fun _ _ => rfl) h.owner rfl
      . intro _
        apply Spec.seq (I := LogSession cfg k)
        . apply noteAlloc_spec
          exact fun w h _ => h.congr (.refl _) (fun _ _ => rfl) h.owner rfl
        . exact fun _ => ret_reads _
    . exact fun _ => ret_reads _
    . exact fun _ h => h

theorem logSession_session : SessionFrame cfg good (LogSession cfg k) (LogDurable cfg k) where
  toFrame := logSession_data.frame
  owner w o ho h := by
    refine h.congr ⟨rfl, rfl, rfl, rfl, rfl, rfl, rfl, rfl, rfl⟩ (fun _ _ => rfl) ?_ rfl
    rcases ho with ho | ⟨w₀, h₀, ho⟩
    . exact lt_of_lt_of_eq ho (by decide)
    . exact lt_of_eq_of_lt ho.symm h₀.owner
  commit := masterCommit_log hgood hv
  alloc := allocIdImpl_log hgood hv
  durable := logDurable_durable
  ram w st hst _ _ hown h := h.congr hst (fun _ _ => rfl) (hown ▸ h.owner) rfl
  rotate := masterCommitRotate_log hgood hv
  recover := (recoverCompaction_data logSession_data).conseq (fun _ h => h) (fun _ _ h => h)
    (fun _ _ h => h.durable) fun _ h => h

theorem masterFormat_log :
    Spec (History good) MastersNotOk (masterFormat cfg)
      (.exits (LogSession cfg True) (fun w => MastersShape cfg w.flash)
        fun w => MastersShape cfg w.flash) := by
  have hgiven : ∀ w : World, MastersNotOk w → ∃ st, (w.st = st ∧ MastersNotOk w ∧ True) ∧ True :=
    fun w h => ⟨w.st, ⟨rfl, h, trivial⟩, trivial⟩
  refine Spec.pre (Spec.given fun st => ?_) hgiven
  apply ((masterFormat_spec hgood aside_true hv st).both masterFormat_candidates).conseq
    (fun _ h => h)
  . exact fun _ w h => LogSession.of_last h.1.2.1 h.2
  . exact fun _ _ h => h.1.1
  . exact fun _ h => h.1.1

theorem eraseAllImpl_log :
    Keeps good (LogSession cfg k) (LogSession cfg k) (LogDurable cfg k) (eraseAllImpl cfg) := by
  have F := logSession_session (k := k) hgood hv
  unfold eraseAllImpl
  apply (read_reads _).seq
  intro st
  split
  . exact fail_reads _
  . split
    . exact fail_reads _
    . apply (idxInvalidate_reads F.stable).seq
      intro _
      apply (sidx_reads F.stable _).seq
      intro _
      apply (invalidateFrom_keeps F.toFrame _ _ _).seq
      intro _
      apply (bindRootEmpty_keeps F.toFrame).seq
      intro _
      refine modifySt_bind (I := LogSession cfg k) ?_ ?_
      . intro w h
        exact h.congr ⟨rfl, rfl, rfl, rfl, rfl, rfl, rfl, rfl, rfl⟩ (fun _ _ => rfl) h.owner rfl
      . intro _
        apply (masterCommit_log hgood hv).caught
        . exact fun _ => ret_reads _
        . intro e
          refine modifySt_bind (I := LogSession cfg k) ?_ ?_
          . intro w h
            exact h.congr ⟨rfl, rfl, rfl, rfl, rfl, rfl, rfl, rfl, rfl⟩ (fun _ _ => rfl) h.owner rfl
          . exact fun _ => fail_reads _
        . exact fun _ h => h

end

end

/-! What a mount reads when no read fails -/

-- A reader that answers and changes nothing.
def Sure {α : Type} (x : M α) : Prop := ∀ w : World, w.readFaults = [] → ∃ a, x w = (.ok a, w)

theorem sure_ret {α : Type} (a : α) : Sure (pure a : M α) := fun _ _ => ⟨a, rfl⟩

theorem sure_bind {α β : Type} {x : M α} {f : α → M β} (hx : Sure x) (hf : ∀ a, Sure (f a)) :
    Sure (x >>= f) := by
  intro w hw
  obtain ⟨a, ha⟩ := hx w hw
  rw [Proc.bind_ok ha]
  exact hf a w hw

theorem storeRead_sure (sector off len : Nat) : Sure (storeRead sector off len) := by
  intro w hw
  refine ⟨bytesAt (w.flash sector) off len, ?_⟩
  have hst : { w with readFaults := w.readFaults.tail } = w := by
    rw [hw, List.tail_nil, ← hw]
  show (if w.readFaults.headD false then _ else _, { w with readFaults := w.readFaults.tail }) = _
  rw [hst, hw]
  rfl

theorem masterLogEnd_sure (slot n lo hi : Nat) : Sure (masterLogEnd cfg slot n lo hi) := by
  induction n generalizing lo hi with
  | zero => exact sure_ret _
  | succ n ih =>
    unfold masterLogEnd
    split
    . apply sure_bind (storeRead_sure _ _ _)
      intro buf
      split
      . exact ih _ _
      . exact ih _ _
    . exact sure_ret _

theorem masterLogNewest_sure (slot rotGen n : Nat) : Sure (masterLogNewest cfg slot rotGen n) := by
  induction n with
  | zero => exact sure_ret _
  | succ n ih =>
    unfold masterLogNewest
    apply sure_bind (storeRead_sure _ _ _)
    intro buf
    split
    . exact sure_ret _
    . exact ih

theorem masterLogLoad_sure (slot rotGen : Nat) : Sure (masterLogLoad cfg slot rotGen) := by
  unfold masterLogLoad
  apply sure_bind (masterLogEnd_sure _ _ _ _)
  intro endSlot
  apply sure_bind (masterLogNewest_sure _ _ _)
  exact fun _ => sure_ret _

theorem masterPick_sure (a b : MasterView) : Sure (masterPick cfg a b) := by
  unfold masterPick
  split
  . exact sure_ret _
  . extract_lets hi hiView loView
    apply sure_bind (masterLogLoad_sure _ _)
    intro log
    split
    . exact sure_ret _
    . split
      . apply sure_bind (masterLogLoad_sure _ _)
        intro log
        split
        . exact sure_ret _
        . exact sure_ret _
      . exact sure_ret _

/-! The log by a linear scan of all slots -/

-- The slot after the last written one below slot `n`.
def writtenBelow (cfg : Cfg) (buf : Sector) : Nat → Nat
  | 0 => 0
  | n + 1 => if recErased cfg buf n then writtenBelow cfg buf n else n + 1

-- A log by where it ends and its newest record that verifies.
def MasterLog.ofScan (endSlot : Nat) (newest : Option (Nat × MasterRec)) : MasterLog :=
  let tailBad :=
    match newest with
    | some (i, _) => i + 1 != endSlot
    | none => endSlot != 0
  ⟨endSlot, newest, tailBad⟩

def linearLog (cfg : Cfg) (rotGen : Nat) (buf : Sector) : MasterLog :=
  .ofScan (writtenBelow cfg buf cfg.logCap) (newestBelow cfg rotGen buf cfg.logCap)

theorem writtenBelow_eq {buf : Sector} {n m : Nat} (hle : n ≤ m)
    (hw : ∀ i, i < n → recErased cfg buf i = false)
    (he : ∀ i, n ≤ i → i < m → recErased cfg buf i = true) : writtenBelow cfg buf m = n := by
  induction m with
  | zero =>
    unfold writtenBelow
    omega
  | succ m ih =>
    unfold writtenBelow
    by_cases hn : n = m + 1
    . rw [if_neg (by rw [hw m (by omega)]; simp)]
      exact hn.symm
    . rw [if_pos (he m (by omega) (by omega))]
      exact ih (by omega) fun i h1 h2 => he i h1 (by omega)

theorem newestBelow_cap {buf : Sector} {rot n m : Nat} (hle : n ≤ m) (hm : m ≤ cfg.logCap)
    (he : ∀ i, n ≤ i → i < m → recErased cfg buf i = true) :
    newestBelow cfg rot buf m = newestBelow cfg rot buf n := by
  induction m with
  | zero => rw [show n = 0 by omega]
  | succ m ih =>
    by_cases hn : n = m + 1
    . rw [hn]
    . have hbad : recOk cfg rot buf m = false := by
        cases hok : recOk cfg rot buf m with
        | false => rfl
        | true =>
          have hne := not_recErased_of_ok (by omega) hok
          rw [he m (by omega) (by omega)] at hne
          cases hne
      rw [newestBelow_succ, hbad]
      simp only [Bool.false_eq_true, if_false]
      exact ih (by omega) (by omega) fun i h1 h2 => he i h1 (by omega)

theorem Log.linear {buf : Sector} {rot n : Nat} (h : Log cfg buf rot n) :
    linearLog cfg rot buf = .ofScan n (newestBelow cfg rot buf n) := by
  unfold linearLog
  rw [writtenBelow_eq h.le h.written h.erased, newestBelow_cap h.le (Nat.le_refl _) h.erased]

end

-- The written slots of every sector with an ok header are a prefix, and the search for the end of
-- its log finds what a scan of all slots finds.
def PrefixLogs (fl : Flash) : Prop :=
  ∀ s, s ≤ 1 → masterClassOf (fl s) = .ok →
    (∃ n, ∀ i, i < cfg.logCap → (recErased cfg (fl s) i = false ↔ i < n)) ∧
      masterLogLoad cfg s (masterHdrAt (fl s)).rotGen (World.fresh fl) =
        (.ok (linearLog cfg (masterHdrAt (fl s)).rotGen (fl s)), World.fresh fl)

-- What a mount does with a flash up to the choice of a sector: no header makes it refuse, and it
-- picks `p`, whose record is the newest that verifies in a sector with an ok header.
structure Adopts (fl : Flash) (p : Pick) : Prop where
  native : masterClassOf (fl 0) ≠ .foreign ∧ masterClassOf (fl 1) ≠ .foreign
  accepted : ∀ s, s ≤ 1 → masterClassOf (fl s) = .ok → masterAccept cfg (masterHdrAt (fl s)) = true
  differ : masterClassOf (fl 0) = .ok → masterClassOf (fl 1) = .ok →
    (masterHdrAt (fl 0)).rotGen ≠ (masterHdrAt (fl 1)).rotGen
  picks : masterPick cfg (viewOf (fl 0)) (viewOf (fl 1)) (World.fresh fl) =
    (.ok (some p), World.fresh fl)
  ok : masterClassOf (fl p.active) = .ok
  newest : ∃ i, (linearLog cfg (masterHdrAt (fl p.active)).rotGen (fl p.active)).newest =
    some (i, p.record)

section

variable {cfg} {good : Event → Prop} {fl : Flash}

theorem masterLogLoad_scan (slot rotGen : Nat) :
    Spec (History good) (fun _ => True) (masterLogLoad cfg slot rotGen)
      ⟨fun log _ => log = .ofScan log.endSlot log.newest, fun _ _ => True, fun _ => True⟩ := by
  have S : Stable fun _ => True := fun _ _ _ _ => trivial
  unfold masterLogLoad
  apply (masterLogEnd_reads S slot _ 0 cfg.logCap).bind
  . intro endSlot
    apply (masterLogNewest_reads S slot rotGen endSlot).bind
    . exact fun newest => Spec.ret fun _ _ => rfl
    . exact fun _ _ _ => trivial
    . exact fun _ h => h
  . exact fun _ _ _ => trivial
  . exact fun _ h => h

-- What a specification says of a sure reader, on a flash at rest.
theorem Sure.spec {α : Type} {x : M α} (hx : Sure x) {P : World → Prop} {Q : Post World Errno α}
    (h : Spec (History AnyEvent) P x Q) (hp : P (World.fresh fl)) :
    ∃ a, x (World.fresh fl) = (.ok a, World.fresh fl) ∧ Q.ok a (World.fresh fl) := by
  obtain ⟨a, ha⟩ := hx (World.fresh fl) rfl
  have hq := h (World.fresh fl) hp fun _ _ => trivial
  rw [ha] at hq
  exact ⟨a, ha, hq⟩

theorem Log.load {s rot n : Nat} (h : Log cfg (fl s) rot n) :
    masterLogLoad cfg s rot (World.fresh fl) =
      (.ok (linearLog cfg rot (fl s)), World.fresh fl) := by
  have S : Stable fun _ => True := fun _ _ _ _ => trivial
  have hload : Spec (History AnyEvent) _ (masterLogLoad cfg s rot) _ :=
    masterLogLoad_answers (C := fun _ => True) S h
  have hspec := hload.both (masterLogLoad_scan s rot)
  obtain ⟨log, hrun, ⟨⟨hend, hnew⟩, _⟩, hscan⟩ :=
    (masterLogLoad_sure s rot).spec hspec ⟨⟨trivial, rfl⟩, trivial⟩
  have hscan : log = .ofScan log.endSlot log.newest := hscan
  rw [hrun, h.linear, hscan, hend, hnew]

theorem MastersShape.prefixLogs (h : MastersShape cfg fl) : PrefixLogs cfg fl := by
  intro s hs hok
  obtain ⟨n, hlog⟩ := (h.sector hs).log hok
  refine ⟨⟨n, ?_⟩, hlog.load⟩
  intro i hi
  constructor
  . intro hw
    by_contra hge
    rw [hlog.erased i (by omega) hi] at hw
    cases hw
  . exact hlog.written i

-- The record that a mount adopts is one of those it can be.
theorem MastersOk.adopts {R : MasterRec → Prop} (h : MastersOk cfg R fl) :
    ∃ p, Adopts cfg fl p ∧ R p.record := by
  have S : Stable fun _ => True := fun _ _ _ _ => trivial
  have hs : MastersShape cfg fl := by
    obtain ⟨a, rotGen, n, hm⟩ := h
    exact hm.shape
  have hspec : Spec (History AnyEvent) _ (masterPick cfg _ _) _ :=
    masterPick_answers (C := fun _ => True) S hs
  obtain ⟨pick, hrun, hpick, _⟩ := (masterPick_sure _ _).spec hspec ⟨trivial, rfl⟩
  cases pick with
  | none => exact absurd h (hpick R)
  | some p =>
    obtain ⟨hm, hother, hR⟩ := hpick
    obtain ⟨i, r, hnew, rfl⟩ := hm.newest
    have hsector : ∀ s, s ≤ 1 → masterClassOf (fl s) ≠ .foreign ∧
        (masterClassOf (fl s) = .ok → masterAccept cfg (masterHdrAt (fl s)) = true) := by
      intro s hle
      rcases hs.sector hle with hnot | ⟨rot, n, hlog⟩
      . exact ⟨hnot.2, fun hok => absurd hok hnot.1⟩
      . rw [hlog.ok]
        exact ⟨by decide, fun _ => hlog.accept⟩
    refine ⟨p, ⟨⟨(hsector 0 (by decide)).1, (hsector 1 (by decide)).1⟩,
      fun s hle hok => (hsector s hle).2 hok, hs.differ, hrun, hm.log.ok, i, ?_⟩, hR R h⟩
    rw [hm.log.linear]
    exact hnew

end

/-! Calls and runs -/

-- No sector holds a record that a mount would adopt: if it goes on, it formats the store.
def Unadoptable (fl : Flash) : Prop :=
  masterPick cfg (viewOf (fl 0)) (viewOf (fl 1)) (World.fresh fl) = (.ok none, World.fresh fl)

-- Whether the last format that was begun has been completed, by itself or by a mount.
def foundedAfter (k : Prop) (w : World) (c : Call) : Prop :=
  match c.op with
  | .format => ∃ v, (callStep cfg w c).1 = .ok v
  | .mount => k ∨ (Unadoptable cfg w.flash ∧ ∃ v, (callStep cfg w c).1 = .ok v)
  | _ => k

def Founded (k : Prop) (w : World) : List Call → Prop
  | [] => k
  | c :: cs => Founded (foundedAfter cfg k w c) (callStep cfg w c).2 cs

-- A format of a mounted store meets no error up to the write that makes it.
def FormatUndisturbed (w : World) (c : Call) : Prop :=
  c.op = .format → w.st.mounted = true → ∀ f ∈ c.faults.take (formatSteps cfg), f.isError = false

section

variable {cfg} {k : Prop} {good : Event → Prop}

abbrev LogBetween (cfg : Cfg) (k : Prop) : World → Prop :=
  Between cfg (LogSession cfg k) (LogDurable cfg k)

theorem Between.of_session {S D : World → Prop} {w : World} (hlost : ∀ w, S w → D w) (h : S w)
    (hv : cfg.Valid) : Between cfg S D w := ⟨hlost w h, fun _ => ⟨h, hv⟩⟩

theorem logDurable_false {w : World} (h : MastersShape cfg w.flash) : LogDurable cfg False w :=
  ⟨h, False.elim⟩

theorem LogDurable.mono {k' : Prop} {w : World} (h : LogDurable cfg k w) (hk : k' → k) :
    LogDurable cfg k' w := ⟨h.shape, fun hk' => h.masters (hk hk')⟩

theorem LogBetween.mono {k' : Prop} {w : World} (h : LogBetween cfg k w) (hk : k' → k) :
    LogBetween cfg k' w :=
  ⟨h.durable.mono hk, fun hm => ⟨(h.mounted hm).1.mono hk, (h.mounted hm).2⟩⟩

theorem LogBetween.enter {w : World} (h : LogBetween cfg k w) (c : Call) :
    LogBetween cfg k (w.enter c) := by
  refine ⟨logDurable_durable w _ rfl rfl h.durable, ?_⟩
  intro hm
  obtain ⟨hs, hv⟩ := h.mounted hm
  exact ⟨hs.congr (.refl _) (fun _ _ => rfl) hs.owner rfl, hv⟩

theorem logBetween_reboot {w : World} (h : LogDurable cfg k w) : LogBetween cfg k w.reboot :=
  Unmounted.between ⟨logDurable_durable w _ rfl rfl h, rfl⟩

theorem unadoptable_picked {fl : Flash} (h : Unadoptable cfg fl) (hs : MastersShape cfg fl) :
    Picked cfg fl none := by
  have S : Stable fun _ => True := fun _ _ _ _ => trivial
  have hspec : Spec (History AnyEvent) _ (masterPick cfg _ _) _ :=
    masterPick_answers (C := fun _ => True) S hs
  have hpick := hspec (World.fresh fl) ⟨trivial, rfl⟩ fun _ _ => trivial
  rw [h] at hpick
  exact hpick.1

theorem picked_unadoptable {fl : Flash} (h : Picked cfg fl none) (hs : MastersShape cfg fl) :
    Unadoptable cfg fl := by
  have S : Stable fun _ => True := fun _ _ _ _ => trivial
  have hspec : Spec (History AnyEvent) _ (masterPick cfg _ _) _ :=
    masterPick_answers (C := fun _ => True) S hs
  obtain ⟨pick, hrun, hpick, _⟩ := (masterPick_sure _ _).spec hspec ⟨trivial, rfl⟩
  cases pick with
  | none => exact hrun
  | some p => exact absurd ⟨_, _, _, hpick.1⟩ (h _)

section

variable (hgood : ∀ e, good e → MasterEventHonest cfg e)

include hgood

-- A mount of a store without a record to adopt starts a session of a fresh one.
theorem logSession_mount (hv : cfg.Valid) (fl₀ : Flash) :
    MountFrame cfg good (fun w => LogDurable cfg k w ∧ w.flash = fl₀)
      (LogSession cfg (k ∨ Unadoptable cfg fl₀)) (LogDurable cfg k) where
  toSessionFrame := (logSession_session hgood hv).mono (fun _ h => h.mono .inl) logDurable_durable
  start w w' hf hh h := ⟨logDurable_durable w w' hf hh h.1, hf.trans h.2⟩
  shape _ h := h.1.shape
  refused _ h := h.1
  adopt w p hf hb hp := by
    refine MasterSession.mono (adopted_session hf hp) ?_
    rintro r rfl hk
    rcases hk with hk | hno
    . exact hp.2.2 _ (hb.1.masters hk)
    . rw [← hb.2] at hno
      have hnone := unadoptable_picked hno hb.1.shape
      exact absurd ⟨_, _, _, hp.1⟩ (hnone _)
  unusable fl hnone := by
    by_cases hk : k
    . intro w h
      have hd := h.2.1.1.masters hk
      rw [h.2.2] at hd
      exact absurd hd (hnone _)
    . have F := (logSession_session (k := k ∨ Unadoptable cfg fl₀) hgood hv).mono
        (fun _ h => show LogDurable cfg k _ from h.mono .inl) logDurable_durable
      have hfresh : Spec (History good) MastersNotOk (masterFormat cfg)
          (.exits (LogSession cfg (k ∨ Unadoptable cfg fl₀)) (fun w => MastersShape cfg w.flash)
            fun w => MastersShape cfg w.flash) :=
        (masterFormat_log hgood hv).conseq (fun _ h => h) (fun _ _ h => h.mono fun _ => trivial)
          (fun _ _ h => h) fun _ h => h
      exact mountUnusable_session hv hgood F.toFrame (fun _ h => h.shape) hfresh
        (fun _ h => h.1.shape) fun _ h => ⟨h, fun h => absurd h hk⟩

theorem mount_log (fl₀ : Flash) :
    Spec (History good) (Unmounted fun w => LogDurable cfg k w ∧ w.flash = fl₀) (Op.mount.run cfg)
      (.exits (LogBetween cfg (k ∨ Unadoptable cfg fl₀)) (LogBetween cfg k)
        (LogDurable cfg k)) := by
  have hstart : Durable fun w => LogDurable cfg k w ∧ w.flash = fl₀ :=
    fun w₁ w₂ hf hh h => ⟨logDurable_durable w₁ w₂ hf hh h.1, hf.trans h.2⟩
  apply Spec.seq (I := fun w => LogSession cfg (k ∨ Unadoptable cfg fl₀) w ∧ cfg.Valid)
  . apply (mountImpl_session hstart logDurable_durable (fun _ h => h.1)
      fun hv => logSession_mount hgood hv fl₀).conseq
    . exact fun _ h => h
    . exact fun _ _ h => h
    . exact fun _ _ h => Unmounted.between h
    . exact fun _ h => h
  . intro _
    have S : Stable fun w => LogSession cfg (k ∨ Unadoptable cfg fl₀) w ∧ cfg.Valid :=
      fun w₁ w₂ q h => ⟨logSession_stable w₁ w₂ q h.1, h.2⟩
    apply (maintReset_reads S).seq
    intro _
    exact Spec.ret fun _ h => Between.of_session (fun _ h => h.durable) h.1 h.2

-- A format, from whatever flash it starts.
theorem format_log_unmounted (k : Prop) :
    Spec (History good) (Unmounted fun w => k → MastersShape cfg w.flash) (Op.format.run cfg)
      (.exits (LogBetween cfg True) (fun w => k → LogBetween cfg False w)
        fun w => k → LogDurable cfg False w) := by
  apply Spec.seq (I := fun w => LogSession cfg True w ∧ cfg.Valid)
  . apply (formatImpl_unmounted hgood (logSession_session hgood) (fun _ h => h.shape)
      (masterFormat_log hgood) k).conseq
    . exact fun _ h => h
    . exact fun _ _ h => h
    . exact fun _ _ h hk => Unmounted.between ⟨logDurable_false (h.1 hk), h.2⟩
    . exact fun _ h hk => logDurable_false (h hk)
  . intro _
    have S : Stable fun w => LogSession cfg True w ∧ cfg.Valid :=
      fun w₁ w₂ q h => ⟨logSession_stable w₁ w₂ q h.1, h.2⟩
    apply (maintReset_reads S).seq
    intro _
    exact Spec.ret fun _ h => Between.of_session (fun _ h => h.durable) h.1 h.2

theorem format_log_mounted (hv : cfg.Valid) :
    Spec (History good)
      (fun w => w.st.mounted = true ∧ MastersShape cfg w.flash ∧ NoErrors (formatSteps cfg) w)
      (Op.format.run cfg)
      (.exits (LogBetween cfg True) (LogBetween cfg False) (LogDurable cfg False)) := by
  have hback : ∀ {k w}, LogSession cfg k w → LogBetween cfg k w :=
    fun h => Between.of_session (fun _ h => h.durable) h hv
  apply Spec.seq (I := LogSession cfg True)
  . apply (formatImpl_mounted hgood (logSession_session hgood) (fun _ h => h.shape)
      (masterFormat_log hgood) hv).conseq
    . exact fun _ h => h
    . exact fun _ _ h => h
    . exact fun _ _ h => hback (h.mono fun _ => trivial)
    . exact fun _ h => logDurable_false h
  . intro _
    apply (maintReset_reads logSession_stable).seq
    intro _
    exact Spec.ret fun _ h => hback h

-- The calls that neither format a store nor mount it.
theorem op_log (hv : cfg.Valid) (op : Op) (hm : op ≠ .mount) (hf : op ≠ .format) :
    Keeps good (LogBetween cfg k) (LogBetween cfg k) (LogDurable cfg k) (op.run cfg) := by
  have hback : ∀ w, LogSession cfg k w → LogBetween cfg k w :=
    fun w h => Between.of_session (fun _ h => h.durable) h hv
  cases op with
  | mount => exact absurd rfl hm
  | format => exact absurd rfl hf
  | unmount =>
    apply Spec.seq (I := Unmounted (LogDurable cfg k))
    . apply (unmountImpl_session logDurable_durable).conseq
      . exact fun _ h => h.durable
      . exact fun _ _ h => h
      . exact fun _ _ h => h.elim
      . exact fun _ h => h
    . exact fun _ => Spec.ret fun _ h => Unmounted.between h
  | eraseAll =>
    intro w h hh
    by_cases hmounted : w.st.mounted = true
    . have hspec : Spec (History good) (LogSession cfg k) (Op.eraseAll.run cfg)
          (.exits (LogBetween cfg k) (LogBetween cfg k) (LogDurable cfg k)) := by
        apply Spec.seq (I := LogSession cfg k)
        . exact (eraseAllImpl_log hgood hv).conseq (fun _ h => h) (fun _ _ h => h)
            (fun _ w h => hback w h) fun _ h => h
        . intro _
          apply (maintReset_reads logSession_stable).seq
          intro _
          exact Spec.ret fun w h => hback w h
      exact hspec w (h.mounted hmounted).1 hh
    . have hrun : Op.eraseAll.run cfg w = (.err .ENODEV, w) := by
        simp [Op.run, Proc.bind_run, eraseAllImpl_unmounted (Bool.not_eq_true _ ▸ hmounted),
          Proc.step]
      rw [hrun]
      exact h
  | _ =>
    exact Op.run_between (logSession_session hgood hv).toOpFrame (fun _ h hm => (h.mounted hm).1)
      hback (fun _ h => h.durable) _ rfl

end

section

variable {w : World} {c : Call}
  (hgood : ∀ e ∈ (callStep cfg w c).2.history, MasterEventHonest cfg e)

include hgood

theorem callStep_format (hc : c.op = .format) {P : World → Prop}
    (hspec : Spec (History (MasterEventHonest cfg)) P (c.op.run cfg)
      (.exits (LogBetween cfg True) (LogBetween cfg False) (LogDurable cfg False)))
    (hp : P (w.enter c)) :
    LogBetween cfg (foundedAfter cfg k w c) (callStep cfg w c).2 := by
  have hq := callStep_of_spec cfg hspec hp fun e he => hgood e (by rw [callStep_history]; exact he)
  unfold foundedAfter
  rw [hc]
  simp only
  generalize callStep cfg w c = r at hq
  obtain ⟨o, w'⟩ := r
  cases o with
  | ok v => exact LogBetween.mono hq fun _ => trivial
  | err e => exact LogBetween.mono hq fun ⟨_, hv⟩ => nomatch hv
  | cut =>
    obtain ⟨w'', hd, rfl⟩ := hq
    exact (logBetween_reboot hd).mono fun ⟨_, hv⟩ => nomatch hv

theorem callStep_mount (hc : c.op = .mount) (h : LogBetween cfg k w) :
    LogBetween cfg (foundedAfter cfg k w c) (callStep cfg w c).2 := by
  unfold foundedAfter
  rw [hc]
  simp only
  by_cases hm : w.st.mounted = true
  . have hrun : callStep cfg w c = (.err .EALREADY, w.enter c) := by
      have hm' : (w.enter c).st.mounted = true := hm
      simp [callStep, hc, Op.run, mountImpl, Proc.bind_run, getSt, Proc.step, hm']
    rw [hrun]
    refine (h.enter c).mono ?_
    rintro (hk | ⟨_, _, hv⟩)
    . exact hk
    . cases hv
  . have hm' : w.st.mounted = false := by simpa using hm
    have hspec : Spec (History (MasterEventHonest cfg)) _ _ _ :=
      mount_log (k := k) (fun _ h => h) w.flash
    rw [← hc] at hspec
    have hq := callStep_of_spec cfg hspec ⟨⟨(h.enter c).durable, rfl⟩, hm'⟩
      fun e he => hgood e (by rw [callStep_history]; exact he)
    generalize callStep cfg w c = r at hq
    obtain ⟨o, w'⟩ := r
    cases o with
    | ok v =>
      refine LogBetween.mono hq ?_
      rintro (hk | ⟨hno, _⟩)
      . exact .inl hk
      . exact .inr hno
    | err e =>
      refine LogBetween.mono hq ?_
      rintro (hk | ⟨_, _, hv⟩)
      . exact hk
      . cases hv
    | cut =>
      obtain ⟨w'', hd, rfl⟩ := hq
      refine (logBetween_reboot hd).mono ?_
      rintro (hk | ⟨_, _, hv⟩)
      . exact hk
      . cases hv

theorem callStep_log (h : LogBetween cfg k w) (hc : FormatUndisturbed cfg w c) :
    LogBetween cfg (foundedAfter cfg k w c) (callStep cfg w c).2 := by
  by_cases hmount : c.op = .mount
  . exact callStep_mount hgood hmount h
  by_cases hformat : c.op = .format
  . by_cases hm : w.st.mounted = true
    . have hspec : Spec (History (MasterEventHonest cfg)) _ _ _ :=
        format_log_mounted (fun _ h => h) (h.mounted hm).2
      rw [← hformat] at hspec
      exact callStep_format hgood hformat hspec ⟨hm, h.durable.shape, hc hformat hm⟩
    . have hspec : Spec (History (MasterEventHonest cfg)) _ _ _ :=
        format_log_unmounted (fun _ h => h) True
      rw [← hformat] at hspec
      have hspec' := hspec.conseq (R := .exits (LogBetween cfg True) (LogBetween cfg False)
        (LogDurable cfg False)) (fun _ h => h) (fun _ _ h => h) (fun _ _ h => h trivial)
        fun _ h => h trivial
      have hm' : w.st.mounted = false := by simpa using hm
      exact callStep_format hgood hformat hspec' ⟨fun _ => h.durable.shape, hm'⟩
  . have hfounded : foundedAfter cfg k w c = k := by
      unfold foundedAfter
      split
      . next hop => exact absurd hop hformat
      . next hop => exact absurd hop hmount
      . rfl
    rw [hfounded]
    by_cases hm : w.st.mounted = true
    . have hspec : Spec (History (MasterEventHonest cfg)) _ _ _ :=
        op_log (k := k) (fun _ h => h) (h.mounted hm).2 c.op hmount hformat
      have hq := callStep_of_spec cfg hspec (h.enter c)
        fun e he => hgood e (by rw [callStep_history]; exact he)
      generalize callStep cfg w c = r at hq
      obtain ⟨o, w'⟩ := r
      cases o with
      | ok v => exact hq
      | err e => exact hq
      | cut =>
        obtain ⟨w'', hd, rfl⟩ := hq
        exact logBetween_reboot hd
    . have hm' : w.st.mounted = false := by simpa using hm
      have hrun := (Op.run_unmounted cfg (w := w.enter c) hm' c.op hmount hformat).1
      have hw : (callStep cfg w c).2 = w.enter c ∨ (callStep cfg w c).2 = (w.enter c).reboot := by
        unfold callStep
        generalize c.op.run cfg (w.enter c) = r at hrun
        obtain ⟨o, w'⟩ := r
        cases o with
        | ok v => exact .inl hrun
        | err e => exact .inl hrun
        | cut => exact .inr (congrArg World.reboot hrun)
      rcases hw with hw | hw
      . rw [hw]
        exact h.enter c
      . rw [hw]
        exact logBetween_reboot (h.enter c).durable

end

theorem runCalls_log {cs : List Call} {w : World} (h : LogBetween cfg k w)
    (hcalls : EachCall cfg (FormatUndisturbed cfg) w cs)
    (hgood : ∀ e ∈ (runCalls cfg w cs).2.history, MasterEventHonest cfg e) :
    LogBetween cfg (Founded cfg k w cs) (runCalls cfg w cs).2 := by
  induction cs generalizing k w with
  | nil => exact h
  | cons c cs ih =>
    have hstep := callStep_log
      (fun e he => hgood e (List.IsSuffix.subset (runCalls_grows cfg _ cs) he)) h hcalls.1
    exact ih hstep hcalls.2 hgood

end

-- A device that leaves the factory with erased master sectors, or any device that is formatted first.
def Starts (flash : Flash) (cs : List Call) : Prop :=
  (flash masterASector = blank ∧ flash masterBSector = blank) ∨
    ∃ f rest v, cs = f :: rest ∧ f.op = .format ∧ (callStep cfg (World.fresh flash) f).1 = .ok v

-- A write or an erase of a master sector took effect as a whole or not at all.
def AllOrNothing : Event → Prop
  | .mutation m => masterBSector < m.sector ∨ m.fault = .none ∨ m.fault = .error 0 false ∨
      m.fault = .cut 0 false
  | .alloc _ => True

instance : DecidablePred AllOrNothing := fun e =>
  match e with
  | .mutation _ => inferInstanceAs (Decidable (_ ∨ _))
  | .alloc _ => isTrue trivial

theorem partly_nothing (r : Request) (f : Sector) : r.partly f 0 false = f := by
  cases r with
  | write off data => exact program_nil f off
  | erase =>
    funext j
    simp [Request.partly, eraseBelow]
  | replace data => rfl

theorem AllOrNothing.honest {e : Event} (h : AllOrNothing e) : MasterEventHonest cfg e := by
  cases e with
  | alloc id => trivial
  | mutation m =>
    intro hs
    have hcases : m.after m.sector = m.request.whole (m.before m.sector) ∨
        m.after m.sector = m.before m.sector := by
      rcases h with h | h | h | h
      . exact absurd hs (Nat.not_le_of_lt h)
      . left
        simp [Mutation.after, Flash.set, h, Request.result]
      . right
        simp [Mutation.after, Flash.set, h, Request.result, partly_nothing]
      . right
        simp [Mutation.after, Flash.set, h, Request.result, partly_nothing]
    rcases hcases with hafter | hafter
    . rw [hafter]
      exact ⟨fun _ => .inr rfl, fun _ => .inr rfl, fun _ _ => .inr rfl⟩
    . rw [hafter]
      exact ⟨fun _ => .inl rfl, fun _ => .inl rfl, fun _ _ => .inl rfl⟩

-- A record that fails to be written, a rotation that is cut after its erase, and a mount.
def failedRecordRun : List Call :=
  [{ op := .format }, { op := .eraseAll, faults := [.none, .none, .none, .error 0 false] },
    { op := .eraseAll, faults := [.none, .none, .none, .none, .cut 0 false] }, { op := .mount }]

-- The second format fails when the header of the sector that makes it is written and its record is
-- not. The store stays mounted, and goes on appending where the log it has erased ended.
def failedFormatRun : List Call :=
  [{ op := .format },
    { op := .format, faults := List.replicate 7 .none ++ [.error 128 false] },
    { op := .eraseAll }]

end KeyValueDb.BlobDb
