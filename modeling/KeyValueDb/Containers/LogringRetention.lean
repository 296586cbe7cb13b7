import KeyValueDb.Containers.LogringHistory

/-!
How far a log can outgrow its capacity. A checkpoint evicts at most as many entries as were appended
since the one before it, whatever their size, so it keeps up only if the oldest ones are large enough.
-/

namespace KeyValueDb.Containers

variable {cfg : LogCfg} {g : LogId} {cap rand : UInt32} {w0 : LogWorld} {root : Nat}

-- The `k` oldest entries make up for the overshoot, or they are all but the last one.
def Covers (k capacity : Nat) (es : List LogEntry) : Prop :=
  recordBytes (es.drop k) ≤ capacity ∨ es.length ≤ k + 1

instance (k capacity : Nat) (es : List LogEntry) : Decidable (Covers k capacity es) :=
  inferInstanceAs (Decidable (_ ∨ _))

-- An append of `rec` to the entries `es`, from the state `w` with the handle `h`: the evictions that
-- make room and the checkpoint that is due can shed enough.
structure KeepsUp (cfg : LogCfg) (w : LogWorld) (h : Logring) (es : List LogEntry)
    (rec : List UInt8) : Prop where
  full : w.Refuses cfg.toStoreCfg h.nextFree (clogEntryHdr + rec.length) →
    Covers cfg.k h.capacityBytes.toNat es
  due : cfg.k ≤ (if w.Refuses cfg.toStoreCfg h.nextFree (clogEntryHdr + rec.length) then 0
      else h.sinceCkpt.toNat) + 1 →
    Covers cfg.k h.capacityBytes.toNat (es ++ [(h.nextFree, rec)])

def keepsUp (cfg : LogCfg) (w : LogWorld) (c : LogCall) : Prop :=
  match c.op, w.ram, logContents cfg w with
  | .append rec, some h, .ok (es, _) => KeepsUp cfg (w.enterLog c) h es rec
  | _, _, _ => True

-- So it is at every step of a run.
def AllKeepUp (cfg : LogCfg) (root : Nat) (w : LogWorld) : List LogCall → Prop
  | [] => True
  | c :: cs => keepsUp cfg w c ∧ AllKeepUp cfg root (logStep cfg root w c).2 cs

/-! Bytes of records -/

theorem recordBytes_append (es fs : List LogEntry) :
    recordBytes (es ++ fs) = recordBytes es + recordBytes fs := by
  simp [recordBytes]

theorem recordBytes_drop_le (es : List LogEntry) {m n : Nat} (h : m ≤ n) :
    recordBytes (es.drop n) ≤ recordBytes (es.drop m) := by
  obtain ⟨i, rfl⟩ := Nat.exists_eq_add_of_le h
  rw [← List.drop_drop]
  have := recordBytes_append ((es.drop m).take i) ((es.drop m).drop i)
  rw [List.take_append_drop] at this
  omega

theorem recordBytes_le {es : List LogEntry} {n : Nat} (h : ∀ e ∈ es, e.2.length ≤ n) :
    recordBytes es ≤ es.length * n := by
  induction es with
  | nil => simp [recordBytes]
  | cons e es ih =>
    have h1 := h e List.mem_cons_self
    have h2 := ih fun x hx => h x (List.mem_cons_of_mem _ hx)
    simp only [recordBytes, List.map_cons, List.sum_cons, List.length_cons, Nat.succ_mul] at h2 ⊢
    omega

theorem Covers.drop {k capacity : Nat} {es : List LogEntry} {e : LogEntry}
    (h : Covers k capacity (es ++ [e])) {n : Nat} (hn : n ≤ es.length) :
    Covers k capacity (es.drop n ++ [e]) := by
  rw [← List.drop_append_of_le_length hn]
  refine h.imp (fun h => ?_) fun h => ?_
  . rw [List.drop_drop]
    exact (recordBytes_drop_le _ (by omega)).trans h
  . rw [List.length_drop]
    omega

-- What is left once as many entries went as cover the overshoot.
theorem Covers.left {k capacity max n : Nat} {es : List LogEntry} (h : Covers k capacity es)
    (hmax : ∀ e ∈ es, e.2.length ≤ max) (hn : k ≤ n ∨ es.length ≤ n + 1) :
    recordBytes (es.drop n) ≤ capacity ∨ recordBytes (es.drop n) ≤ max := by
  have hshort : es.length ≤ n + 1 → recordBytes (es.drop n) ≤ max := by
    intro hlen
    have hle := recordBytes_le fun e he => hmax e (List.mem_of_mem_drop (i := n) he)
    have hone : (es.drop n).length ≤ 1 := by
      rw [List.length_drop]
      omega
    have := Nat.mul_le_mul_right max hone
    omega
  rcases hn with hn | hn
  . rcases h with h | h
    . exact .inl ((recordBytes_drop_le es hn).trans h)
    . exact .inr (hshort (by omega))
  . exact .inr (hshort hn)

/-! The bound over a run of appends -/

-- `c` appends after a checkpoint that kept up.
def Within (cfg : LogCfg) (capacity c bytes : Nat) : Prop :=
  bytes ≤ capacity + c * cfg.maxRecord ∨ bytes ≤ (c + 1) * cfg.maxRecord

theorem Within.add {capacity c bytes len : Nat} (h : Within cfg capacity c bytes)
    (hlen : len ≤ cfg.maxRecord) : Within cfg capacity (c + 1) (bytes + len) := by
  unfold Within at h ⊢
  rw [Nat.succ_mul c, Nat.succ_mul (c + 1)]
  omega

structure Bounded (cfg : LogCfg) (g : LogId) (v : LogView) (h : Logring) : Prop where
  since : h.sinceCkpt.toNat < cfg.k
  bytes : Within cfg g.capacityBytes.toNat h.sinceCkpt.toNat v.bytes

theorem Made.bounded {v : LogView} {h h' : Logring} {full : Prop} {n : Nat} (hcfg : cfg.Valid)
    (hm : Made cfg.k v h full n h') (hb : Bounded cfg g v h)
    (hmax : ∀ e ∈ v.entries, e.2.length ≤ cfg.maxRecord)
    (hfull : full → Covers cfg.k g.capacityBytes.toNat v.entries) : Bounded cfg g (v.drop n) h' := by
  rcases hm.2 with ⟨rfl, rfl⟩ | ⟨hf, hsince, hmuch⟩
  . rw [LogView.drop_zero]
    exact hb
  . have hk := hcfg.k_pos
    refine ⟨by rw [hsince]; exact hk, ?_⟩
    have := (hfull hf).left hmax hmuch
    rw [Within, hsince]
    simpa [LogView.bytes, LogView.drop, recordBytes] using this

-- What a checkpoint leaves that keeps up.
theorem Evicts.bounded {v : LogView} {h h' : Logring} {m : Nat} (hcfg : cfg.Valid)
    (he : Evicts cfg.k h false v m) (hs : Serves g h v) (hsmall : v.bytes < 2 ^ 32)
    (hmax : ∀ e ∈ v.entries, e.2.length ≤ cfg.maxRecord)
    (hcov : Covers cfg.k g.capacityBytes.toNat v.entries) (hsince : h'.sinceCkpt = 0) :
    Bounded cfg g (v.drop m) h' := by
  have hlive : h.liveBytes.toNat = v.bytes := by
    rw [hs.mirrors.bytes]
    exact UInt32.toNat_ofNat_of_lt' (by rw [UInt32.size]; exact hsmall)
  have hdrop : recordBytes (v.entries.drop m) = v.bytes - recordBytes (v.entries.take m) := by
    rw [v.bytes_drop m]
    simp only [recordBytes, LogView.bytes, LogView.drop]
    omega
  refine ⟨by rw [hsince]; exact hcfg.k_pos, ?_⟩
  have hleft : recordBytes (v.entries.drop m) ≤ g.capacityBytes.toNat ∨
      recordBytes (v.entries.drop m) ≤ cfg.maxRecord := by
    rcases Nat.lt_or_ge g.capacityBytes.toNat v.bytes with hover | hfits
    . have hlt : h.capacityBytes < h.liveBytes := by
        rw [UInt32.lt_iff_toNat_lt, hlive, hs.capacity]
        exact hover
      rcases he.enough (.inr hlt) with hk | hlen | ⟨_, hle⟩
      . exact hcov.left hmax (.inl hk.ge)
      . exact hcov.left hmax (.inr hlen)
      . left
        have htake : recordBytes (v.entries.take m) ≤ v.bytes := by
          rw [v.bytes_drop m]
          exact Nat.le_add_right _ _
        rw [hdrop]
        rw [UInt32.le_iff_toNat_le, hs.capacity, UInt32.toNat_sub_of_le, hlive,
          UInt32.toNat_ofNat_of_lt' (by rw [UInt32.size]; omega)] at hle
        . exact hle
        . rw [UInt32.le_iff_toNat_le, hlive,
            UInt32.toNat_ofNat_of_lt' (by rw [UInt32.size]; omega)]
          exact htake
    . left
      omega
  rw [Within, hsince]
  simpa [LogView.bytes, LogView.drop, recordBytes] using hleft

theorem Running.records {d v : LogView} {res : List Nat} {h : Logring} {w : LogWorld}
    (hw : Running cfg g d v res h w) : ∀ e ∈ v.entries, e.2.length ≤ cfg.maxRecord := by
  intro e he
  obtain ⟨n, hn⟩ := hw.1.chain.segment.node_mem he
  exact entryNode_len hn

theorem Running.nil_of_drop {d v : LogView} {res : List Nat} {h : Logring} {w : LogWorld} {n : Nat}
    (hw : Running cfg g d v res h w) (h0 : (v.drop n).tailId = 0) : (v.drop n).entries = [] := by
  rcases List.eq_nil_or_concat (v.drop n).entries with hnil | ⟨pre, e, he⟩
  . exact hnil
  . rw [List.concat_eq_append] at he
    have hdrop : e ∈ (v.drop n).entries := by simp [he]
    have hmem : e ∈ v.entries := List.mem_of_mem_drop hdrop
    have hle := hw.1.chain.segment.le_mem hmem
    have habove := hw.1.above
    rw [LogView.tailId_snoc he] at h0
    omega

-- One append.
theorem logringAppend_bounded (hcfg : cfg.Valid) {d v : LogView} {h : Logring} {w : LogWorld}
    {c : LogCall} {rec : List UInt8} (hw : Running cfg g d v [] h w) (hb : Bounded cfg g v h)
    (hop : c.op = .append rec) (hturns : ∀ t ∈ c.turns, ∀ landed, t ≠ .cut landed)
    (hkeeps : keepsUp cfg w c) (hf : faithful.holds (logStep cfg g.root w c).2)
    (hm : ¬ Mishap (logStep cfg g.root w c).2.history) :
    ∃ d' v' h', Running cfg g d' v' [] h' (logStep cfg g.root w c).2 ∧ Bounded cfg g v' h' := by
  have hmax := hw.records
  have hkeep : KeepsUp cfg (w.enterLog c) h v.entries rec := by
    have hcon := hw.contents (faithful.anti (logStep_grows cfg g.root w c) hf)
    simpa only [keepsUp, hop, hw.2.1, hcon] using hkeeps
  have hcap : h.capacityBytes = g.capacityBytes := hw.2.2.capacity
  have hnext : h.nextFree = v.frontier := hw.2.2.mirrors.next
  have hfull := hkeep.full
  have hdue := hkeep.due
  rw [hcap, hnext] at hfull hdue
  have hpost := logringAppend_spec hcfg rec _ (w.enterLog c) ⟨hw, Iff.rfl⟩
  have hnocut := logStep_uncut cfg g.root w (by rw [hop]; exact nofun) hturns
  simp only [logStep, hop, LogOp.run] at hf hm hnocut ⊢
  generalize logringAppend cfg rec (w.enterLog c) = o at hpost hf hm hnocut
  obtain ⟨o, s⟩ := o
  cases o with
  | cut => exact absurd rfl hnocut
  | err e =>
    obtain ⟨n, d', h', _, hmade, hr⟩ := hpost hf
    exact ⟨d', _, h', hr, (hmade.resolve_right hm).bounded hcfg hb hmax hfull⟩
  | ok id =>
    obtain ⟨rfl, hlen, n, r2, h1, hmade, hsince, hserves1, hserves, hsmall, hcases⟩ := hpost hf
    have hb1 := hmade.bounded hcfg hb hmax hfull
    have hk := hcfg.k_le
    have hadd : (h1.sinceCkpt + 1).toNat = h1.sinceCkpt.toNat + 1 := by
      have := hb1.since
      rw [UInt32.toNat_add, UInt32.toNat_one]
      omega
    rcases hcases with ⟨hnot, d', hr⟩ | ⟨m, h2, hdue1, hev, hr, h0⟩ | ⟨hmis, _⟩
    . refine ⟨d', _, _, hr, ?_, ?_⟩
      . have : ¬ cfg.k ≤ (h1.sinceCkpt + 1).toNat := fun hle => hnot (.inr hle)
        simp only [Logring.append]
        omega
      . simp only [Logring.append, hadd, LogView.bytes_bind]
        exact hb1.bytes.add hlen
    . have hn : n ≤ v.entries.length := by
        have := hmade.1
        omega
      have hcov : Covers cfg.k g.capacityBytes.toNat ((v.drop n).bind rec r2).entries := by
        rcases hdue1 with hz | hle
        . -- the log was empty
          rw [hserves1.mirrors.tail] at hz
          have hnil := hw.nil_of_drop hz
          refine .inr ?_
          rw [LogView.bind, hnil]
          simp
        . refine Covers.drop (hdue ?_) hn
          split
          . next hr => rw [hsince hr, UInt32.zero_add] at hle; exact hle
          . next hr =>
            rcases hmade.2 with ⟨_, rfl⟩ | ⟨hfull', _⟩
            . omega
            . exact absurd hfull' hr
      refine ⟨_, _, h2, hr, hev.bounded hcfg hserves hsmall ?_ hcov h0⟩
      intro e he
      rw [LogView.bind, List.mem_append, List.mem_singleton] at he
      rcases he with he | rfl
      . exact hmax e (List.mem_of_mem_drop he)
      . exact hlen
    . exact absurd hmis hm

theorem Mishap.later {hist hist' : List Event} (h : Mishap hist) (hs : hist <:+ hist') :
    Mishap hist' := by
  obtain ⟨e, err, landed, he, h⟩ := h
  exact ⟨e, err, landed, hs.subset he, h⟩

-- Appends that are not cut.
def Appends (cs : List LogCall) : Prop :=
  ∀ c ∈ cs, (∃ rec, c.op = .append rec) ∧ ∀ t ∈ c.turns, ∀ landed, t ≠ .cut landed

theorem runLog_bounded (hcfg : cfg.Valid) (cs : List LogCall) {d v : LogView} {h : Logring}
    {w : LogWorld} (hw : Running cfg g d v [] h w) (hb : Bounded cfg g v h) (happ : Appends cs)
    (hkeeps : AllKeepUp cfg g.root w cs) (hf : faithful.holds (runLog cfg g.root w cs).2)
    (hm : ¬ Mishap (runLog cfg g.root w cs).2.history) :
    ∃ d' v' h', Running cfg g d' v' [] h' (runLog cfg g.root w cs).2 ∧ Bounded cfg g v' h' := by
  induction cs generalizing d v h w with
  | nil => exact ⟨d, v, h, hw, hb⟩
  | cons c cs ih =>
    have hgrows := runLog_grows cfg g.root (logStep cfg g.root w c).2 cs
    obtain ⟨⟨rec, hop⟩, hturns⟩ := happ c List.mem_cons_self
    obtain ⟨d', v', h', hw', hb'⟩ := logringAppend_bounded hcfg hw hb hop hturns hkeeps.1
      (faithful.anti hgrows hf) fun hmis => hm (hmis.later hgrows)
    exact ih hw' hb' (fun x hx => happ x (List.mem_cons_of_mem _ hx)) hkeeps.2 hf hm

-- Where every checkpoint can shed the overshoot, a log that is only appended to stays within its
-- capacity and the records of one checkpoint interval.
theorem log_within_capacity (hc : Created cfg cap rand w0 root) (cs : List LogCall)
    (happ : Appends cs)
    (hkeeps : AllKeepUp cfg root (lifeOf cfg cap rand w0 root [⟨.open, [], [], []⟩]).2 cs)
    (hf : faithful.holds (lifeOf cfg cap rand w0 root (⟨.open, [], [], []⟩ :: cs)).2)
    (hm : ¬ Mishap (lifeOf cfg cap rand w0 root (⟨.open, [], [], []⟩ :: cs)).2.history) :
    ∃ st, logStats (lifeOf cfg cap rand w0 root (⟨.open, [], [], []⟩ :: cs)).2 = .ok st ∧
      (st.bytes.toNat ≤ cap.toNat + cfg.k * cfg.maxRecord ∨ st.count = 1) := by
  have hgrows := runLog_grows cfg root
    (logStep cfg root (logringCreate cfg cap rand w0).2 ⟨.open, [], [], []⟩).2 cs
  have hf1 := faithful.anti hgrows hf
  obtain ⟨g, first, rfl, rfl, huse⟩ := hc.inUse (faithful.anti (logStep_grows ..) hf1)
  have hnocut : (logStep cfg g.root (logringCreate cfg g.capacityBytes rand w0).2
      ⟨.open, [], [], []⟩).1 ≠ .cut := logStep_uncut cfg g.root _ nofun nofun
  rcases logringOpen_step huse.durable hf1 rfl with ⟨_, h, hrun, h0⟩ | ⟨hr, _⟩
  . have hb : Bounded cfg g ⟨[], first⟩ h :=
      ⟨by rw [h0]; exact hc.valid.k_pos, .inl (Nat.zero_le _)⟩
    obtain ⟨d', v', h', hrun', hb'⟩ := runLog_bounded hc.valid cs hrun hb happ hkeeps hf hm
    refine ⟨_, hrun'.stats, .inl ?_⟩
    have hsmall := LiveOn.small hc.valid hrun'.1
    have hlt := hb'.since
    rw [UInt32.toNat_ofNat_of_lt' (by rw [UInt32.size]; omega)]
    rcases hb'.bytes with hle | hle
    . exact hle.trans (Nat.add_le_add_left (Nat.mul_le_mul_right _ hlt.le) _)
    . exact hle.trans ((Nat.mul_le_mul_right _ hlt).trans (Nat.le_add_left _ _))
  . exact absurd hr hnocut

instance (cfg : LogCfg) (w : LogWorld) (h : Logring) (es : List LogEntry) (rec : List UInt8) :
    Decidable (KeepsUp cfg w h es rec) :=
  decidable_of_iff
    ((w.Refuses cfg.toStoreCfg h.nextFree (clogEntryHdr + rec.length) →
      Covers cfg.k h.capacityBytes.toNat es) ∧
    (cfg.k ≤ (if w.Refuses cfg.toStoreCfg h.nextFree (clogEntryHdr + rec.length) then 0
      else h.sinceCkpt.toNat) + 1 →
      Covers cfg.k h.capacityBytes.toNat (es ++ [(h.nextFree, rec)])))
    ⟨fun h => ⟨h.1, h.2⟩, fun h => ⟨h.1, h.2⟩⟩

instance (cfg : LogCfg) (w : LogWorld) (c : LogCall) : Decidable (keepsUp cfg w c) := by
  unfold keepsUp
  split <;> infer_instance

instance decidableAllKeepUp (cfg : LogCfg) (root : Nat) (w : LogWorld) :
    (cs : List LogCall) → Decidable (AllKeepUp cfg root w cs)
  | [] => .isTrue trivial
  | c :: cs =>
    haveI := decidableAllKeepUp cfg root (logStep cfg root w c).2 cs
    inferInstanceAs (Decidable (keepsUp cfg w c ∧ AllKeepUp cfg root (logStep cfg root w c).2 cs))

-- Whether an update or a delete of a blob that was there has reported an error.
def Event.mishap : Event → Bool
  | .edit ⟨id, _, .error _ _, b⟩ => (b id).isSome
  | _ => false

theorem mishap_iff (hist : List Event) : Mishap hist ↔ ∃ ev ∈ hist, ev.mishap = true := by
  constructor
  . rintro ⟨e, err, landed, he, ht, hb⟩
    refine ⟨_, he, ?_⟩
    obtain ⟨id, data, turn, before⟩ := e
    subst ht
    exact Option.isSome_iff_ne_none.mpr hb
  . rintro ⟨ev, hev, hm⟩
    match ev with
    | .edit ⟨id, data, .error err landed, b⟩ =>
      exact ⟨_, err, landed, hev, rfl, Option.isSome_iff_ne_none.mp hm⟩
    | .edit ⟨_, _, .done, _⟩ => cases hm
    | .edit ⟨_, _, .cut _, _⟩ => cases hm
    | .readError _ _ => cases hm

instance (hist : List Event) : Decidable (Mishap hist) :=
  decidable_of_iff _ (mishap_iff hist).symm

def appendsOf (recs : List (List UInt8)) : List LogCall := recs.map fun r => ⟨.append r, [], [], []⟩

theorem appendsOf_appends (recs : List (List UInt8)) : Appends (appendsOf recs) := by
  intro c hc
  obtain ⟨r, _, rfl⟩ := List.mem_map.mp hc
  exact ⟨⟨r, rfl⟩, nofun⟩

theorem log_within_capacity_even :
    ∃ st, logStats (lifeOf (smallLog 1) 4 7 (blankStore none) 2
        (⟨.open, [], [], []⟩ :: appendsOf [[1, 2], [3, 4], [5, 6], [7, 8]])).2 = .ok st ∧
      (st.bytes.toNat ≤ (4 : UInt32).toNat + (smallLog 1).k * (smallLog 1).maxRecord ∨
        st.count = 1) :=
  log_within_capacity (smallLog_created (by decide) (by decide +kernel)) _ (appendsOf_appends _)
    (by decide +kernel) (by decide +kernel) (by decide +kernel)

-- Three empty records, then two long ones: each checkpoint evicts one empty record.
theorem small_records_delay_eviction :
    logStats (lifeOf (smallLog 1) 1 7 (blankStore none) 2
      (⟨.open, [], [], []⟩ :: appendsOf [[], [], [], List.replicate 46 0, List.replicate 46 0])).2 =
      .ok ⟨5, 7, 3, 92⟩ ∧
    ¬ ((92 : UInt32).toNat ≤ (1 : UInt32).toNat + (smallLog 1).k * (smallLog 1).maxRecord ∨
      (3 : UInt32) = 1) := by
  decide +kernel

end KeyValueDb.Containers
