import KeyValueDb.Containers.LogringRuns

/-!
A log from its creation on: its statistics, what survives power cuts, and what survives failing
writes.
-/

namespace KeyValueDb.Containers

variable {cfg : LogCfg} {root : Nat} {g : LogId}

-- A log is created on a store in order, by a client that has no handle yet.
structure Created (cfg : LogCfg) (capacityBytes rand : UInt32) (w : LogWorld) (root : Nat) : Prop where
  valid : cfg.Valid
  sound : Sound cfg.toStoreCfg w
  closed : w.ram = none
  returned : (logringCreate cfg capacityBytes rand w).1 = .ok root

-- The calls that follow the create.
def lifeOf (cfg : LogCfg) (capacityBytes rand : UInt32) (w : LogWorld) (root : Nat)
    (cs : List LogCall) : List LogReply × LogWorld :=
  runLog cfg root (logringCreate cfg capacityBytes rand w).2 cs

-- A store with nothing in it but the id of the root registry.
def blankStore {ρ : Type} (ram : ρ) : World ρ := ⟨fun _ => none, 1, 0, [], [], [], ram, []⟩

theorem blankStore_sound (cfg : StoreCfg) : Sound cfg (blankStore none) where
  ids := fun _ h => absurd rfl h
  top_lt := by decide
  tallied := by
    refine ⟨Nat.zero_le _, fun ids _ => ?_⟩
    have hsize : ids.map (Blobs.size fun _ => none) = ids.map fun _ => 0 := rfl
    rw [blankStore, hsize]
    simp

instance : DecidablePred Event.Faithful
  | .edit ⟨_, _, .error e true, _⟩ => .isFalse fun h => h e rfl
  | .edit ⟨_, _, .error _ false, _⟩ => .isTrue nofun
  | .edit ⟨_, _, .done, _⟩ => .isTrue nofun
  | .edit ⟨_, _, .cut _, _⟩ => .isTrue nofun
  | .readError _ _ => .isFalse fun h => h

instance (w : LogWorld) : Decidable (faithful.holds w) :=
  inferInstanceAs (Decidable (∀ ev ∈ w.history, ev.Faithful))

-- Whether a payload is a root that neither evicts nor empties.
def idleRoot (data : List UInt8) : Bool :=
  match decodeRoot data with
  | .ok r => r.headId ≠ 0 ∧ r.evictFrom = 0
  | .error _ => false

theorem idleRoot_iff (data : List UInt8) :
    idleRoot data = true ↔ ∃ r, decodeRoot data = .ok r ∧ r.headId ≠ 0 ∧ r.evictFrom = 0 := by
  unfold idleRoot
  cases decodeRoot data <;> simp

instance : DecidablePred Event.Harmless
  | .edit ⟨_, _, .done, _⟩ => .isTrue nofun
  | .edit ⟨_, _, .cut _, _⟩ => .isTrue nofun
  | .edit ⟨_, none, .error _ _, _⟩ => .isTrue fun _ _ _ => .inl rfl
  | .edit ⟨id, some data, .error err landed, b⟩ =>
    decidable_of_iff (b id = none ∨ idleRoot data = true) (by
      rw [idleRoot_iff]
      simp [Event.Harmless])
  | .readError _ _ => .isFalse fun h => h

instance (w : LogWorld) : Decidable (Calm w.history) :=
  inferInstanceAs (Decidable (∀ ev ∈ w.history, ev.Harmless))

theorem runLog_append (w : LogWorld) (cs cs' : List LogCall) :
    runLog cfg root w (cs ++ cs') =
      ((runLog cfg root w cs).1 ++ (runLog cfg root (runLog cfg root w cs).2 cs').1,
        (runLog cfg root (runLog cfg root w cs).2 cs').2) := by
  induction cs generalizing w with
  | nil => rfl
  | cons c cs ih => simp only [List.cons_append, runLog, ih]

theorem Ledger.empty_tracks (first : Nat) : (Ledger.empty first).Tracks ⟨[], first⟩ := ⟨rfl, rfl⟩

variable {cap rand : UInt32} {w0 : LogWorld}

-- A create leaves the RAM of the client alone.
theorem logringCreate_ram (cfg : LogCfg) (cap rand : UInt32) {r : Option Logring} :
    Spec faithful (fun s => s.ram = r) (logringCreate cfg cap rand)
      (.exits (fun s => s.ram = r) (fun s => s.ram = r) fun s => s.ram = r) := by
  have halloc : Spec faithful (fun s : LogWorld => s.ram = r) blobDbAllocId
      (.exits (fun s => s.ram = r) (fun s => s.ram = r) fun s => s.ram = r) :=
    Spec.blobDbAllocId (fun _ _ hs _ => hs) fun _ hs => hs
  refine Spec.ite (fun _ => Spec.fail fun _ hs => hs) fun _ => ?_
  refine halloc.seq fun _ => halloc.seq fun _ => ?_
  refine Spec.ite (fun _ => Spec.fail fun _ hs => hs) fun _ => ?_
  refine Spec.seq (I := fun s => s.ram = r) ?_ fun _ => Spec.ret fun s (hs : s.ram = r) => hs
  exact Spec.blobDbUpdate (fun _ hs _ => hs) (fun _ _ _ hs _ => hs) (fun _ _ hs _ => hs)
    fun _ hs _ => hs

theorem Created.inUse (hc : Created cfg cap rand w0 root)
    (hf : faithful.holds (logringCreate cfg cap rand w0).2) :
    ∃ g first, g.root = root ∧ g.capacityBytes = cap ∧
      InUse cfg g ⟨[], first⟩ (logringCreate cfg cap rand w0).2 := by
  have hpost := logringCreate_spec cap rand w0 hc.sound hf
  have hret := hc.returned
  have hram := logringCreate_ram cfg cap rand w0 hc.closed hf
  generalize logringCreate cfg cap rand w0 = o at hpost hret hram
  obtain ⟨o, s⟩ := o
  subst hret
  obtain ⟨g, first, hroot, hcap, hd⟩ := hpost
  exact ⟨g, first, hroot, hcap, .inr ⟨hram, hd⟩⟩

-- What holds of a log over its life.
theorem lifeOf_stepped (hc : Created cfg cap rand w0 root) (cs : List LogCall)
    (hf : faithful.holds (lifeOf cfg cap rand w0 root cs).2) :
    ∃ g d, g.root = root ∧ g.capacityBytes = cap ∧ InUse cfg g d (lifeOf cfg cap rand w0 root cs).2 ∧
      (Calm (lifeOf cfg cap rand w0 root cs).2.history →
        ∃ first l, Ledger.Steps cs (lifeOf cfg cap rand w0 root cs).1 (.empty first) l ∧
          l.Tracks d) := by
  obtain ⟨g, first, rfl, hcap, huse⟩ := hc.inUse (faithful.anti (runLog_grows cfg root _ cs) hf)
  obtain ⟨d, hd, hl⟩ := runLog_stepped hc.valid cs huse hf
  exact ⟨g, d, rfl, hcap, hd, fun hcalm => ⟨first, hl hcalm _ (Ledger.empty_tracks first)⟩⟩

/-! Statistics -/

-- The statistics of an open log are those of what a full walk from its oldest entry delivers.
theorem logringStats_exact (hc : Created cfg cap rand w0 root) (cs : List LogCall)
    (hf : faithful.holds (lifeOf cfg cap rand w0 root cs).2)
    (hopen : (lifeOf cfg cap rand w0 root cs).2.ram ≠ none) :
    ∃ es st, logContents cfg (lifeOf cfg cap rand w0 root cs).2 = .ok (es, Errno.ENOENT) ∧
      logStats (lifeOf cfg cap rand w0 root cs).2 = .ok st ∧
      st.count.toNat = es.length ∧ st.bytes.toNat = recordBytes es ∧
      st.oldestId = (es.head?.map Prod.fst).getD 0 ∧
      st.newestId = (es.getLast?.map Prod.fst).getD 0 := by
  obtain ⟨g, d, rfl, _, huse, _⟩ := lifeOf_stepped hc cs hf
  rcases huse with ⟨v, h, hrun⟩ | ⟨hram, _⟩
  . have hsmall := LiveOn.small hc.valid hrun.1
    refine ⟨v.entries, _, hrun.contents hf, hrun.stats, ?_, ?_, ?_, ?_⟩
    . exact UInt32.toNat_ofNat_of_lt' (by rw [UInt32.size]; omega)
    . exact UInt32.toNat_ofNat_of_lt' (by rw [UInt32.size]; omega)
    . cases hv : v.entries <;> simp [LogView.headId, hv]
    . cases hv : v.entries.getLast? <;> simp [LogView.tailId, hv]
  . exact absurd hram hopen

-- The smallest log a build can have, on a small store.
def smallLog (k : Nat) : LogCfg := ⟨⟨56, 56, 400⟩, k⟩

theorem smallLog_created {k : Nat} (hk : 1 ≤ k ∧ k ≤ 64) {cap : UInt32}
    (hret : (logringCreate (smallLog k) cap 7 (blankStore none)).1 = .ok 2) :
    Created (smallLog k) cap 7 (blankStore none) 2 where
  valid := ⟨by simp [smallLog, clogRootLen], by simp [smallLog], by simp [smallLog], hk.1, hk.2,
    by simp [smallLog]⟩
  sound := blankStore_sound _
  closed := rfl
  returned := hret

-- Power is lost in the second append, once its entry is bound.
theorem logringStats_exact_cut :
    ∃ es st, logContents (smallLog 2)
        (lifeOf (smallLog 2) 100 7 (blankStore none) 2
          [⟨.open, [], [], []⟩, ⟨.append [1, 2, 3], [], [], []⟩,
            ⟨.append [4], [.cut true], [], []⟩, ⟨.open, [], [], []⟩]).2 = .ok (es, Errno.ENOENT) ∧
      logStats (lifeOf (smallLog 2) 100 7 (blankStore none) 2
          [⟨.open, [], [], []⟩, ⟨.append [1, 2, 3], [], [], []⟩,
            ⟨.append [4], [.cut true], [], []⟩, ⟨.open, [], [], []⟩]).2 = .ok st ∧
      st.count.toNat = es.length ∧ st.bytes.toNat = recordBytes es ∧
      st.oldestId = (es.head?.map Prod.fst).getD 0 ∧
      st.newestId = (es.getLast?.map Prod.fst).getD 0 :=
  logringStats_exact (smallLog_created (by decide) (by decide +kernel)) _ (by decide +kernel)
    (by decide +kernel)

/-! Power cuts -/

-- The log holds the last of the records since the last reset that returned, and it holds none only if
-- there are none or a reset was cut. Every record has an id of its own, and the ids ascend.
structure Ledger.Sane (l : Ledger) : Prop where
  kept : l.kept <:+ l.since
  since : l.since <:+ l.bound
  gone : l.kept = [] → l.since = [] ∨ l.resetCut = true
  ascending : l.bound.Pairwise fun a b => a.1 < b.1
  below : ∀ e ∈ l.bound, e.1 < l.next

theorem Ledger.empty_sane (first : Nat) : (Ledger.empty first).Sane :=
  ⟨List.suffix_rfl, List.suffix_rfl, fun _ => .inl rfl, .nil, nofun⟩

theorem Ledger.Sane.push {l : Ledger} (h : l.Sane) {rec : List UInt8} {next n : Nat}
    (hn : n ≤ l.kept.length) (hnext : l.next < next) : (l.push rec next n).Sane where
  kept := (List.drop_suffix n _).trans (by
    obtain ⟨pre, hpre⟩ := h.kept
    exact ⟨pre, by rw [Ledger.push, ← List.append_assoc, hpre]⟩)
  since := by
    obtain ⟨pre, hpre⟩ := h.since
    exact ⟨pre, by rw [Ledger.push, ← List.append_assoc, hpre]⟩
  gone := by
    intro hnil
    have := congrArg List.length hnil
    simp only [Ledger.push, List.length_drop, List.length_append, List.length_singleton,
      List.length_nil] at this
    omega
  ascending := by
    rw [Ledger.push, List.pairwise_append]
    refine ⟨h.ascending, List.pairwise_singleton .., fun a ha b hb => ?_⟩
    rw [List.mem_singleton.mp hb]
    exact h.below a ha
  below := by
    intro e he
    rw [Ledger.push, List.mem_append, List.mem_singleton] at he
    rcases he with he | rfl
    . exact (h.below e he).trans hnext
    . exact hnext

theorem Ledger.Sane.shrink {l : Ledger} (h : l.Sane) {n : Nat} (hn : n = 0 ∨ n < l.kept.length) :
    (l.shrink n).Sane where
  kept := (List.drop_suffix n _).trans h.kept
  since := h.since
  gone := by
    intro hnil
    have := congrArg List.length hnil
    simp only [Ledger.shrink, List.length_drop, List.length_nil] at this
    exact h.gone (List.length_eq_zero_iff.mp (by omega))
  ascending := h.ascending
  below := h.below

theorem Ledger.Step.sane {op : LogOp} {r : LogReply} {l m : Ledger} (hs : Ledger.Step op r l m)
    (h : l.Sane) : m.Sane := by
  cases hs with
  | appended _ rec next n hn hnext => exact h.push hn hnext
  | refused _ rec e n hn => exact h.shrink hn
  | cutAfter _ rec next n hn hnext => exact h.push hn hnext
  | cutBefore _ rec n hn => exact h.shrink hn
  | reset _ next hnext =>
    exact ⟨List.suffix_rfl, List.nil_suffix, fun _ => .inl rfl, h.ascending,
      fun e he => (h.below e he).trans hnext⟩
  | resetRefused _ e n hn => exact h.shrink hn
  | resetPart _ n hn => exact h.shrink hn
  | resetCut _ next hnext =>
    exact ⟨List.nil_suffix, h.since, fun _ => .inr rfl, h.ascending,
      fun e he => (h.below e he).trans hnext⟩
  | opened => exact h
  | openCut => exact h
  | powerOff => exact h

theorem Ledger.Steps.sane {cs : List LogCall} {rs : List LogReply} {l m : Ledger}
    (hs : Ledger.Steps cs rs l m) (h : l.Sane) : m.Sane := by
  induction hs with
  | nil => exact h
  | cons h1 _ ih => exact ih (h1.sane h)

-- What the log holds after some calls is new, or it held it before.
def Ledger.Follows (l m : Ledger) : Prop :=
  ∃ news, m.bound = l.bound ++ news ∧ ∀ e ∈ m.kept, e ∈ l.kept ∨ e ∈ news

theorem Ledger.Follows.refl (l : Ledger) : l.Follows l := ⟨[], by simp, fun _ he => .inl he⟩

theorem Ledger.Follows.trans {l m k : Ledger} (h : l.Follows m) (h' : m.Follows k) :
    l.Follows k := by
  obtain ⟨news, hb, hk⟩ := h
  obtain ⟨news', hb', hk'⟩ := h'
  refine ⟨news ++ news', by rw [hb', hb, List.append_assoc], fun e he => ?_⟩
  rcases hk' e he with hm | hn
  . exact (hk e hm).imp_right (List.mem_append_left _)
  . exact .inr (List.mem_append_right _ hn)

theorem Ledger.follows_push (l : Ledger) (rec : List UInt8) (next n : Nat) :
    l.Follows (l.push rec next n) := by
  refine ⟨[(l.next, rec)], rfl, fun x hx => ?_⟩
  exact List.mem_append.mp (List.mem_of_mem_drop hx)

theorem Ledger.follows_shrink (l : Ledger) (n : Nat) : l.Follows (l.shrink n) :=
  ⟨[], by simp [Ledger.shrink], fun _ hx => .inl (List.mem_of_mem_drop hx)⟩

theorem Ledger.Step.follows {op : LogOp} {r : LogReply} {l m : Ledger}
    (hs : Ledger.Step op r l m) : l.Follows m := by
  cases hs with
  | appended _ rec next n hn => exact l.follows_push rec next n
  | refused _ rec e n hn => exact l.follows_shrink n
  | cutAfter _ rec next n hn => exact l.follows_push rec next n
  | cutBefore _ rec n hn => exact l.follows_shrink n
  | reset => exact ⟨[], by simp [Ledger.reset], nofun⟩
  | resetRefused _ e n hn => exact l.follows_shrink n
  | resetPart _ n hn => exact l.follows_shrink n
  | resetCut => exact ⟨[], by simp [Ledger.cutReset], nofun⟩
  | opened => exact .refl l
  | openCut => exact .refl l
  | powerOff => exact .refl l

theorem Ledger.Steps.follows {cs : List LogCall} {rs : List LogReply} {l m : Ledger}
    (hs : Ledger.Steps cs rs l m) : l.Follows m := by
  induction hs with
  | nil => exact .refl _
  | cons h1 _ ih => exact h1.follows.trans ih

-- No read failed, what reported an error left its blob unchanged, and no root that evicts or empties
-- was refused.
structure Orderly (w : LogWorld) : Prop where
  faithful : faithful.holds w
  calm : Calm w.history

theorem Orderly.before {w w' : LogWorld} (h : Orderly w') (hle : w ≤ w') : Orderly w :=
  ⟨Containers.faithful.anti hle h.faithful, h.calm.of_suffix hle⟩

-- A log in order holds what the ledger says, open or not.
theorem InUse.contents {d : LogView} {w : LogWorld} {l : Ledger} (hw : InUse cfg g d w)
    (ho : Orderly w) (hl : l.Tracks d) (hopen : w.ram ≠ none) :
    logContents cfg w = .ok (l.kept, Errno.ENOENT) := by
  rcases hw with ⟨v, h, hrun⟩ | ⟨hram, _⟩
  . rw [hrun.contents ho.faithful, hl.kept, (hrun.1.in_step ho.calm).1]
  . exact absurd hram hopen

-- Whatever calls and power cuts there were, an open succeeds and finds the last of the records that
-- were bound since the last reset that returned; a record that is gone stays gone.
theorem log_survives_cuts (hc : Created cfg cap rand w0 root) (cs cs' : List LogCall)
    (ho : Orderly (lifeOf cfg cap rand w0 root (cs ++ cs')).2) :
    ∃ first l l', Ledger.Steps cs (lifeOf cfg cap rand w0 root cs).1 (.empty first) l ∧
      Ledger.Steps cs' (runLog cfg root (lifeOf cfg cap rand w0 root cs).2 cs').1 l l' ∧
      l'.Sane ∧ l.Follows l' ∧
      ∀ c, c.op = .open → (∀ t ∈ c.turns, ∀ landed, t ≠ .cut landed) →
        Orderly (logStep cfg root (lifeOf cfg cap rand w0 root (cs ++ cs')).2 c).2 →
        (logStep cfg root (lifeOf cfg cap rand w0 root (cs ++ cs')).2 c).1 = .ok 0 ∧
          logContents cfg (logStep cfg root (lifeOf cfg cap rand w0 root (cs ++ cs')).2 c).2 =
            .ok (l'.kept, Errno.ENOENT) := by
  unfold lifeOf at ho ⊢
  rw [runLog_append] at ho ⊢
  have hgrows := runLog_grows cfg root
    (runLog cfg root (logringCreate cfg cap rand w0).2 cs).2 cs'
  have ho1 := ho.before hgrows
  obtain ⟨g, first, rfl, _, huse⟩ := hc.inUse (ho1.before (runLog_grows cfg root _ cs)).faithful
  obtain ⟨d, hd, hl⟩ := runLog_stepped hc.valid cs huse ho1.faithful
  obtain ⟨l, hsteps, htracks⟩ := hl ho1.calm _ (Ledger.empty_tracks first)
  obtain ⟨d', hd', hl'⟩ := runLog_stepped hc.valid cs' hd ho.faithful
  obtain ⟨l', hsteps', htracks'⟩ := hl' ho.calm l htracks
  refine ⟨first, l, l', hsteps, hsteps', hsteps'.sane (hsteps.sane (Ledger.empty_sane first)),
    hsteps'.follows, ?_⟩
  intro c hop hturns hoc
  have hnocut := logStep_uncut cfg g.root
    (runLog cfg g.root (runLog cfg g.root (logringCreate cfg cap rand w0).2 cs).2 cs').2
    (by rw [hop]; exact nofun) hturns
  rcases logringOpen_step hd'.durable hoc.faithful hop with ⟨hr, h, hrun, _⟩ | ⟨hr, _⟩
  . exact ⟨hr, by rw [hrun.contents hoc.faithful, htracks'.kept]⟩
  . exact absurd hr hnocut

instance (w : LogWorld) : Decidable (Orderly w) :=
  decidable_of_iff (faithful.holds w ∧ Calm w.history) ⟨fun h => ⟨h.1, h.2⟩, fun h => ⟨h.1, h.2⟩⟩

-- An append that was cut, an open, one more append.
def cutThenAppend : List LogCall :=
  [⟨.open, [], [], []⟩, ⟨.append [1], [.cut true], [], []⟩, ⟨.open, [], [], []⟩,
    ⟨.append [2], [], [], []⟩]

theorem log_survives_cuts_once :
    ∃ first l l',
      Ledger.Steps cutThenAppend (lifeOf (smallLog 2) 100 7 (blankStore none) 2 cutThenAppend).1
        (.empty first) l ∧
      Ledger.Steps [] (runLog (smallLog 2) 2
        (lifeOf (smallLog 2) 100 7 (blankStore none) 2 cutThenAppend).2 []).1 l l' ∧
      l'.Sane ∧ l.Follows l' ∧
      ∀ c, c.op = .open → (∀ t ∈ c.turns, ∀ landed, t ≠ .cut landed) →
        Orderly (logStep (smallLog 2) 2
          (lifeOf (smallLog 2) 100 7 (blankStore none) 2 (cutThenAppend ++ [])).2 c).2 →
        (logStep (smallLog 2) 2
          (lifeOf (smallLog 2) 100 7 (blankStore none) 2 (cutThenAppend ++ [])).2 c).1 = .ok 0 ∧
          logContents (smallLog 2) (logStep (smallLog 2) 2
            (lifeOf (smallLog 2) 100 7 (blankStore none) 2 (cutThenAppend ++ [])).2 c).2 =
            .ok (l'.kept, Errno.ENOENT) :=
  log_survives_cuts (smallLog_created (by decide) (by decide +kernel)) _ [] (by decide +kernel)

-- The record whose append was cut stays, and stands before the acknowledged one.
theorem cut_record_stays :
    (lifeOf (smallLog 2) 100 7 (blankStore none) 2 cutThenAppend).1 = [.ok 0, .cut, .ok 0, .ok 4] ∧
      logContents (smallLog 2) (lifeOf (smallLog 2) 100 7 (blankStore none) 2 cutThenAppend).2 =
        .ok ([(3, [1]), (4, [2])], Errno.ENOENT) := by
  decide +kernel

/-! Failing writes -/

-- An append that returned is delivered by a reader of the open log and, unless the entry is evicted or
-- the log reset, after every later call. While the log is open, no other blob of it is live but those
-- whose delete failed.
theorem log_survives_errors (hc : Created cfg cap rand w0 root) (cs cs' : List LogCall)
    (c : LogCall) (rec : List UInt8) (id : Nat) (hop : c.op = .append rec)
    (hret : (logStep cfg root (lifeOf cfg cap rand w0 root cs).2 c).1 = .ok id)
    (ho : Orderly (lifeOf cfg cap rand w0 root (cs ++ [c] ++ cs')).2) :
    ∃ first l l',
      Ledger.Steps (cs ++ [c]) (lifeOf cfg cap rand w0 root (cs ++ [c])).1 (.empty first) l ∧
      l.kept.getLast? = some (id, rec) ∧
      logContents cfg (lifeOf cfg cap rand w0 root (cs ++ [c])).2 = .ok (l.kept, Errno.ENOENT) ∧
      Ledger.Steps cs' (runLog cfg root (lifeOf cfg cap rand w0 root (cs ++ [c])).2 cs').1 l l' ∧
      ((lifeOf cfg cap rand w0 root (cs ++ [c] ++ cs')).2.ram ≠ none →
        logContents cfg (lifeOf cfg cap rand w0 root (cs ++ [c] ++ cs')).2 =
            .ok (l'.kept, Errno.ENOENT) ∧
          ∀ i, root < i → (lifeOf cfg cap rand w0 root (cs ++ [c] ++ cs')).2.blobs i ≠ none →
            (∃ x, (i, x) ∈ l'.kept) ∨
              Undeleted (lifeOf cfg cap rand w0 root (cs ++ [c] ++ cs')).2.history i) := by
  unfold lifeOf at hret ho ⊢
  rw [runLog_append _ (cs ++ [c])] at ho ⊢
  have ho1 := ho.before (runLog_grows cfg root _ cs')
  rw [runLog_append _ cs] at ho1
  have hgrows := logStep_grows cfg root
    (runLog cfg root (logringCreate cfg cap rand w0).2 cs).2 c
  have ho0 := ho1.before hgrows
  obtain ⟨g, first, rfl, _, huse⟩ := hc.inUse (ho0.before (runLog_grows cfg root _ cs)).faithful
  obtain ⟨d, hd, hl⟩ := runLog_stepped hc.valid cs huse ho0.faithful
  obtain ⟨l, hsteps, htracks⟩ := hl ho0.calm _ (Ledger.empty_tracks first)
  -- the append
  obtain ⟨d1, hstepped⟩ := logStep_stepped hc.valid hd ho1.faithful
  obtain ⟨l1, hstep, htracks1⟩ := hstepped.ledger ho1.calm l htracks
  have hlast : l1.kept.getLast? = some (id, rec) := by
    rw [hop, hret] at hstep
    exact hstep.last
  have hsteps1 := hsteps.append (.cons hstep (.nil l1))
  -- what follows
  have huse1 : InUse cfg g d1
      (runLog cfg g.root (logringCreate cfg cap rand w0).2 (cs ++ [c])).2 := by
    rw [runLog_append]
    exact hstepped.inUse
  obtain ⟨d2, hd2, hl2⟩ := runLog_stepped hc.valid cs' huse1 ho.faithful
  obtain ⟨l2, hsteps2, htracks2⟩ := hl2 ho.calm l1 htracks1
  refine ⟨first, l1, l2, ?_, hlast, ?_, hsteps2, fun hopen => ⟨hd2.contents ho htracks2 hopen, ?_⟩⟩
  . rw [runLog_append]
    exact hsteps1
  . rw [runLog_append]
    exact hstepped.inUse.contents ho1 htracks1 (hstepped.handle _ hret)
  . intro i hi hb
    rcases hd2 with ⟨v, h, hrun⟩ | ⟨hram, _⟩
    . obtain ⟨hsame, hclean⟩ := hrun.1.in_step ho.calm
      rcases hclean i hi hb with hmem | ⟨_, hmem⟩ | hu
      . rw [htracks2.kept, hsame]
        exact .inl hmem
      . cases hmem
      . exact .inr hu
    . exact absurd hram hopen

-- An append that evicts, where the evicted entry cannot be deleted.
def failedDelete : LogCall := ⟨.append [2], [.done, .done, .error Errno.EIO false], [], []⟩

theorem log_survives_errors_once :
    ∃ first l l', Ledger.Steps ([⟨.open, [], [], []⟩, ⟨.append [1], [], [], []⟩] ++ [failedDelete])
        (lifeOf (smallLog 1) 1 7 (blankStore none) 2
          ([⟨.open, [], [], []⟩, ⟨.append [1], [], [], []⟩] ++ [failedDelete])).1 (.empty first) l ∧
      l.kept.getLast? = some (4, [2]) ∧
      logContents (smallLog 1) (lifeOf (smallLog 1) 1 7 (blankStore none) 2
          ([⟨.open, [], [], []⟩, ⟨.append [1], [], [], []⟩] ++ [failedDelete])).2 =
        .ok (l.kept, Errno.ENOENT) ∧
      Ledger.Steps [⟨.append [3], [], [], []⟩] (runLog (smallLog 1) 2
        (lifeOf (smallLog 1) 1 7 (blankStore none) 2
          ([⟨.open, [], [], []⟩, ⟨.append [1], [], [], []⟩] ++ [failedDelete])).2
        [⟨.append [3], [], [], []⟩]).1 l l' ∧
      ((lifeOf (smallLog 1) 1 7 (blankStore none) 2
          ([⟨.open, [], [], []⟩, ⟨.append [1], [], [], []⟩] ++ [failedDelete] ++
            [⟨.append [3], [], [], []⟩])).2.ram ≠ none →
        logContents (smallLog 1) (lifeOf (smallLog 1) 1 7 (blankStore none) 2
            ([⟨.open, [], [], []⟩, ⟨.append [1], [], [], []⟩] ++ [failedDelete] ++
              [⟨.append [3], [], [], []⟩])).2 = .ok (l'.kept, Errno.ENOENT) ∧
          ∀ i, 2 < i → (lifeOf (smallLog 1) 1 7 (blankStore none) 2
              ([⟨.open, [], [], []⟩, ⟨.append [1], [], [], []⟩] ++ [failedDelete] ++
                [⟨.append [3], [], [], []⟩])).2.blobs i ≠ none →
            (∃ x, (i, x) ∈ l'.kept) ∨
              Undeleted (lifeOf (smallLog 1) 1 7 (blankStore none) 2
                ([⟨.open, [], [], []⟩, ⟨.append [1], [], [], []⟩] ++ [failedDelete] ++
                  [⟨.append [3], [], [], []⟩])).2.history i) :=
  log_survives_errors (smallLog_created (by decide) (by decide +kernel)) _ _ failedDelete [2] 4 rfl
    (by decide +kernel) (by decide +kernel)

-- A reset whose root is refused, an append whose checkpoint is refused as well, a power cycle.
def failedReset : List LogCall :=
  [⟨.open, [], [], []⟩, ⟨.append [1], [], [], []⟩, ⟨.reset, [.error Errno.EIO false], [], []⟩,
    ⟨.append [2], [.done, .error Errno.EIO false], [], []⟩, ⟨.powerOff, [], [], []⟩,
    ⟨.open, [], [], []⟩]

-- Entry 3 could not be deleted, and two checkpoints later nothing leads to it. And an acknowledged
-- record is lost when the reset before it has failed.
theorem errors_leave_traces :
    ((lifeOf (smallLog 1) 1 7 (blankStore none) 2
        [⟨.open, [], [], []⟩, ⟨.append [1], [], [], []⟩, failedDelete,
          ⟨.append [3], [], [], []⟩]).1 = [.ok 0, .ok 3, .ok 4, .ok 5] ∧
      logContents (smallLog 1) (lifeOf (smallLog 1) 1 7 (blankStore none) 2
        [⟨.open, [], [], []⟩, ⟨.append [1], [], [], []⟩, failedDelete,
          ⟨.append [3], [], [], []⟩]).2 = .ok ([(5, [3])], Errno.ENOENT) ∧
      (lifeOf (smallLog 1) 1 7 (blankStore none) 2
        [⟨.open, [], [], []⟩, ⟨.append [1], [], [], []⟩, failedDelete,
          ⟨.append [3], [], [], []⟩]).2.blobs 2 = some (rootImage ⟨7, 1, 1, 1, 5, 5, 4, 5⟩) ∧
      (lifeOf (smallLog 1) 1 7 (blankStore none) 2
        [⟨.open, [], [], []⟩, ⟨.append [1], [], [], []⟩, failedDelete,
          ⟨.append [3], [], [], []⟩]).2.blobs 3 = some (entryImage 4 [1])) ∧
    (lifeOf (smallLog 1) 1 7 (blankStore none) 2 failedReset).1 =
        [.ok 0, .ok 3, .err Errno.EIO, .ok 5, .cut, .ok 0] ∧
      logContents (smallLog 1) (lifeOf (smallLog 1) 1 7 (blankStore none) 2 failedReset).2 =
        .ok ([(3, [1])], Errno.ENOENT) := by
  decide +kernel

end KeyValueDb.Containers
