import KeyValueDb.BlobDb.Remount

/-!
Runs through power cuts. A store that a format has made is mounted again after any cut, and what its
calls answer follows one map of payloads: each call that returns has done to the map what it says, each
call that is refused has left it, and a call that power was lost in has done all of it or nothing.
-/

namespace KeyValueDb.BlobDb

-- What a call makes of the map.
def Op.effect (m : Contents) : Op → Contents
  | .update id payload => Function.update m id.toNat (some payload)
  | .write id offset buf => m.written id.toNat offset buf
  | .delete id => Function.update m id.toNat none
  | _ => m

def Out.map {α β : Type} (k : α → β) : Out Errno α → Out Errno β
  | .ok a => .ok (k a)
  | .err e => .err e
  | .cut => .cut

-- What a call that reads a mounted store answers.
def Op.answer (m : Contents) : Op → Option Reply
  | .get id outSz => some (Out.map .bytes (m.reply id.toNat fun payload =>
      if outSz < payload.length then .err .ENOMEM else .ok payload))
  | .size id => some (Out.map .size (m.reply id.toNat fun payload => .ok payload.length))
  | .read id offset len => some (Out.map .bytes (m.reply id.toNat fun payload =>
      .ok ((payload.drop offset).take len)))
  | .exists id => some (.ok (.bool (m id.toNat).isSome))
  | _ => none

-- Why a call on a mounted store is refused.
def Op.Refuses (cfg : Cfg) (m : Contents) (st : St) (op : Op) (e : Errno) : Prop :=
  match op with
  | .mount => e = .EALREADY
  | .update id payload => UpdateRefuses cfg st id.toNat payload e
  | .write id offset buf => WriteRefuses cfg m id.toNat offset buf e
  | .delete id => DeleteRefuses m id.toNat e
  | op => op.answer m = some (.err e)

-- Why a call is refused; `st` is the state before it and `st'` the one after.
def Op.Refused (cfg : Cfg) (m : Contents) (st st' : St) (op : Op) (e : Errno) : Prop :=
  if st.mounted then op.Refuses cfg m st e
  else if op = .mount then e = .ENOSPC ∧ st'.rotGen = 2 ^ 32 - 1
  else e = .ENODEV

-- The calls that leave the store formatted and its root bound.
def Op.spares : Op → Bool
  | .format | .eraseAll => false
  | .delete id => id.toNat != rootId
  | _ => true

-- One call on a store that holds `m`, as the application sees it; `m'` is what the store holds after.
structure Abides (cfg : Cfg) (w : World) (c : Call) (m m' : Contents) : Prop where
  done : ∀ v, (callStep cfg w c).1 = .ok v → m' = c.op.effect m
  refused : ∀ e, (callStep cfg w c).1 = .err e →
    m' = m ∧ c.op.Refused cfg m w.st (callStep cfg w c).2.st e
  lost : (callStep cfg w c).1 = .cut → m' = m ∨ m' = c.op.effect m
  answered : w.st.mounted = true → ∀ r, c.op.answer m = some r → (callStep cfg w c).1 = r

-- A run of calls follows a map through its changes.
def Follows (cfg : Cfg) (w : World) (m : Contents) : List Call → Prop
  | [] => True
  | c :: cs => ∃ m', Abides cfg w c m m' ∧ Follows cfg (callStep cfg w c).2 m' cs

-- No step of the flash reports an error, and what is left of a torn master record or slot does not
-- pass for whole.
structure Honest (cfg : Cfg) (e : Event) : Prop where
  powered : ∀ u, e = .mutation u → u.fault.isError = false
  master : MasterEventHonest cfg e
  slot : SlotHonest e

-- Between calls.
structure Keeping (cfg : Cfg) (m : Contents) (w : World) : Prop where
  stores : Stores cfg m w.flash
  active : w.st.activeMaster ≤ 1
  mounted : w.st.mounted = true → Holding cfg m w.flash ∧ Unsealed cfg w.flash ∧ w.st.wedged = false
  masters : LogBetween cfg True w

-- What a call leaves, in the terms of `Abides`.
def Abiding (cfg : Cfg) (m : Contents) (st : St) (op : Op) : Post World Errno Value :=
  ⟨fun v w => Keeping cfg (op.effect m) w ∧ (st.mounted = true → ∀ r, op.answer m = some r → r = .ok v),
    fun e w => Keeping cfg m w ∧ op.Refused cfg m st w.st e,
    fun w => ((Stores cfg m w.flash ∨ Stores cfg (op.effect m) w.flash) ∧ LogDurable cfg True w) ∧
      (st.mounted = true → op.answer m = none)⟩

section

variable {cfg : Cfg} {m m' : Contents} {w : World} {st : St} {op : Op} {c : Call}

theorem Serving.keeping (h : Serving cfg m w) (hl : LogBetween cfg True w) : Keeping cfg m w :=
  ⟨h.stores, h.awake.active, fun _ => ⟨h.holds, h.unsealed, h.awake.wedged⟩, hl⟩

theorem Keeping.serving (h : Keeping cfg m w) (hm : w.st.mounted = true) (hr : c.readFaults = []) :
    Serving cfg m (w.enter c) :=
  ⟨⟨h.active, hr, (h.mounted hm).2.2⟩, (h.mounted hm).1, h.stores.scratch, (h.mounted hm).2.1⟩

theorem keeping_reboot (hs : Stores cfg m w.flash) (hl : LogDurable cfg True w) : Keeping cfg m w.reboot :=
  ⟨hs, Nat.zero_le 1, nofun, logBetween_reboot hl⟩

-- What a call on a mounted store leaves of it.
def Served (cfg : Cfg) (m : Contents) (st : St) (op : Op) : Post World Errno Value :=
  ⟨fun v w => Serving cfg (op.effect m) w ∧ ∀ r, op.answer m = some r → r = .ok v,
    fun e w => Serving cfg m w ∧ op.Refuses cfg m st e,
    fun w => (Stores cfg m w.flash ∨ Stores cfg (op.effect m) w.flash) ∧ op.answer m = none⟩

-- A call that reads: its answer is only wrapped up.
theorem reader_served {α : Type} {x : M α} {out : Out Errno α} {k : α → Value}
    (hx : Replies (Honest cfg) cfg m x out) (hmounted : st.mounted = true)
    (hanswer : op.answer m = some (Out.map k out)) (heffect : op.effect m = m)
    (hrefuses : ∀ e, op.answer m = some (.err e) → op.Refuses cfg m st e) :
    Spec (History (Honest cfg)) (fun w => w.st = st ∧ Serving cfg m w) (do let a ← x; pure (k a))
      (Served cfg m st op) := by
  have hx' : Spec (History (Honest cfg)) (fun w => w.st = st ∧ Serving cfg m w) x _ :=
    hx.pre fun w h => ⟨h.1 ▸ hmounted, h.2⟩
  apply hx'.bind
  . intro a
    apply Spec.ret
    rintro w ⟨rfl, h⟩
    refine ⟨heffect.symm ▸ h, fun r hr => ?_⟩
    rw [hanswer] at hr
    exact (Option.some.inj hr).symm
  . rintro e w ⟨rfl, h⟩
    exact ⟨h, hrefuses e hanswer⟩
  . exact fun _ h => h.elim

theorem writer_served {α : Type} {x : M α} {v : Value} {E : Errno → Prop}
    (hx : Spec (History (Honest cfg)) (fun w => w.st = st ∧ Serving cfg m w) x
      (Becomes cfg m (op.effect m) E)) (hanswer : op.answer m = none) (hrefuses : ∀ e, E e → op.Refuses cfg m st e) :
    Spec (History (Honest cfg)) (fun w => w.st = st ∧ Serving cfg m w) (do let _ ← x; pure v)
      (Served cfg m st op) := by
  apply hx.bind
  . intro _
    apply Spec.ret
    intro w h
    refine ⟨h, fun r hr => ?_⟩
    rw [hanswer] at hr
    cases hr
  . exact fun e w h => ⟨h.2, hrefuses e h.1⟩
  . exact fun w h => ⟨h, hanswer⟩

-- A call that changes nothing and always returns.
theorem idle_served {α : Type} {x : M α} {k : α → Value}
    (hx : Steps (Honest cfg) (fun w => w.st = st ∧ Serving cfg m w) x (fun _ => Serving cfg m)
      fun w => Stores cfg m w.flash) (hanswer : op.answer m = none) (heffect : op.effect m = m) :
    Spec (History (Honest cfg)) (fun w => w.st = st ∧ Serving cfg m w) (do let a ← x; pure (k a))
      (Served cfg m st op) := by
  apply Spec.bind hx
  . intro a
    apply Spec.ret
    intro w h
    refine ⟨heffect.symm ▸ h, fun r hr => ?_⟩
    rw [hanswer] at hr
    cases hr
  . exact fun _ _ h => h.elim
  . exact fun w h => ⟨.inl h, hanswer⟩

theorem Contents.reply_ne {α : Type} {id : Nat} {f : List UInt8 → Out Errno α} {e : Errno} (he : e ≠ .ENOENT)
    (hf : ∀ payload, f payload ≠ .err e) : m.reply id f ≠ .err e := by
  unfold Contents.reply
  split
  . intro h
    cases h
    exact he rfl
  . exact hf _

theorem op_served (hp : Plain cfg) (hmounted : st.mounted = true) (hspares : op.spares = true)
    (hop : op ≠ .mount) :
    Spec (History (Honest cfg)) (fun w => w.st = st ∧ Serving cfg m w) (op.run cfg)
      (Served cfg m st op) := by
  have hpow : ∀ u, Honest cfg (.mutation u) → u.fault.isError = false := fun u h => h.powered u rfl
  have hgood : ∀ e, Honest cfg e → SlotHonest e := fun e h => h.slot
  cases op with
  | mount => exact absurd rfl hop
  | format => cases hspares
  | eraseAll => cases hspares
  | unmount =>
    apply idle_served (k := fun _ => .unit) _ rfl rfl
    unfold unmountImpl
    apply getSt_bind
    intro st'
    refine Spec.pre ?_ fun _ h => h.2.2
    split
    . exact Spec.ret fun _ h => h
    . refine modifySt_bind (I := Serving cfg m) (fun w h => h.ram h.awake.active h.awake.wedged) ?_
      intro _
      simp only [idxInvalidate, hp.inline, Bool.false_eq_true, if_false]
      apply Spec.ret_bind
      exact modifySidx_steps hp.unindexed _
  | allocId =>
    apply idle_served (k := .id) _ rfl rfl
    exact (allocIdImpl_serves hpow).pre fun _ h => h.2
  | maintain budget =>
    apply idle_served (k := fun r : Nat × Bool => .steps r.1 r.2) _ rfl rfl
    exact maintainImpl_steps hp hpow hmounted budget
  | update id payload =>
    exact writer_served (updateImpl_changes hp hpow hgood hmounted id.toNat_lt payload) rfl fun _ h => h
  | write id offset buf =>
    exact writer_served (writeImpl_changes hp hpow hgood hmounted id.toNat_lt offset buf) rfl fun _ h => h
  | delete id =>
    exact writer_served (deleteImpl_changes hp hpow hgood hmounted id.toNat_lt) rfl fun _ h => h
  | get id outSz =>
    refine reader_served (readRc_replies (getImpl_replies hp _ _) (Contents.reply_ne (by decide) ?_)) hmounted
      rfl rfl fun _ h => h
    intro payload
    split <;> simp
  | size id =>
    exact reader_served (readRc_replies (sizeImpl_replies hp _) (Contents.reply_ne (by decide) fun _ => by simp))
      hmounted rfl rfl fun _ h => h
  | read id offset len =>
    exact reader_served (readRc_replies (readImpl_replies hp _ _ _)
      (Contents.reply_ne (by decide) fun _ => by simp)) hmounted rfl rfl fun _ h => h
  | «exists» id => exact reader_served (existsImpl_replies hp _) hmounted rfl rfl fun _ h => h

/-! One call -/

theorem readRc_nodev {α : Type} {x : M α} (h : x w = (.err .ENODEV, w)) :
    readRc x w = (.err .ENODEV, w) := by
  unfold readRc
  rw [Proc.bind_run, Proc.attempt_run, h]
  rfl

-- Without a mount every call but a mount and a format leaves the store and what it holds.
theorem Op.run_dormant (cfg : Cfg) (hmounted : w.st.mounted = false) (hop : op ≠ .mount) (hspares : op.spares = true) :
    ∃ r, op.run cfg w = (r, w) ∧ (r = .err .ENODEV ∨ (∃ v, r = .ok v) ∧ op.effect m = m) := by
  cases op with
  | mount => exact absurd rfl hop
  | format => cases hspares
  | eraseAll => cases hspares
  | unmount =>
    exact ⟨.ok .unit, by simp [Op.run, Proc.bind_run, unmountImpl_unmounted hmounted, Proc.step],
      .inr ⟨⟨_, rfl⟩, rfl⟩⟩
  | allocId =>
    exact ⟨.ok (.id 0), by simp [Op.run, Proc.bind_run, allocIdImpl_unmounted hmounted, Proc.step],
      .inr ⟨⟨_, rfl⟩, rfl⟩⟩
  | «exists» id =>
    exact ⟨.ok (.bool false), by simp [Op.run, Proc.bind_run, existsImpl_unmounted hmounted, Proc.step],
      .inr ⟨⟨_, rfl⟩, rfl⟩⟩
  | update id payload =>
    exact ⟨_, by simp [Op.run, Proc.bind_run, updateImpl_unmounted hmounted, Proc.step], .inl rfl⟩
  | write id offset buf =>
    exact ⟨_, by simp [Op.run, Proc.bind_run, writeImpl_unmounted hmounted, Proc.step], .inl rfl⟩
  | delete id =>
    exact ⟨_, by simp [Op.run, Proc.bind_run, deleteImpl_unmounted hmounted, Proc.step], .inl rfl⟩
  | maintain budget =>
    exact ⟨_, by simp [Op.run, Proc.bind_run, maintainImpl_unmounted hmounted, Proc.step], .inl rfl⟩
  | get id outSz =>
    have hget : readRc (getImpl cfg id.toNat outSz) w = _ := readRc_nodev (getImpl_unmounted hmounted _ _)
    exact ⟨_, by simp [Op.run, Proc.bind_run, hget, Proc.step], .inl rfl⟩
  | size id =>
    have hsize : readRc (sizeImpl cfg id.toNat) w = _ := readRc_nodev (sizeImpl_unmounted hmounted _)
    exact ⟨_, by simp [Op.run, Proc.bind_run, hsize, Proc.step], .inl rfl⟩
  | read id offset len =>
    have hread : readRc (readImpl cfg id.toNat offset len) w = _ :=
      readRc_nodev (readImpl_unmounted hmounted _ _ _)
    exact ⟨_, by simp [Op.run, Proc.bind_run, hread, Proc.step], .inl rfl⟩

theorem mount_served (hp : Plain cfg) (hopen : cfg.storeOpenAndValidate = .ok ()) {payload : List UInt8}
    (hroot : m rootId = some payload) {R : MasterRec → Prop} :
    Spec (History (Honest cfg)) (fun w => Dormant cfg m w ∧ MastersOk cfg R w.flash) (Op.mount.run cfg)
      ⟨fun _ => Serving cfg m,
        fun e w => (e = .ENOSPC ∧ w.st.rotGen = 2 ^ 32 - 1) ∧ w.st.mounted = false ∧ Serving cfg m w,
        fun w => Stores cfg m w.flash⟩ := by
  have hreset : Steps (Honest cfg) (Serving cfg m)
      (do
        maintReset cfg
        pure Value.unit) (fun _ => Serving cfg m) fun w => Stores cfg m w.flash :=
    Steps.andThen (quiet_steps fun _ => rfl) fun _ => Spec.ret fun _ h => h
  apply (mountImpl_serves (fun u h => h.powered u rfl) hp hopen hroot).bind
  . intro _
    exact hreset.conseq (fun _ h => h) (fun _ _ h => h) (fun _ _ h => h.elim) fun _ h => h
  . exact fun _ _ h => h
  . exact fun _ h => h

-- The specification that every call is an instance of.
theorem op_abides (hp : Plain cfg) (hopen : cfg.storeOpenAndValidate = .ok ()) (hroot : m rootId ≠ none)
    (h : Keeping cfg m w) (hspares : op.spares = true) (hr : c.readFaults = []) :
    Spec (History (Honest cfg)) (· = w.enter c) (op.run cfg) (Abiding cfg m w.st op) := by
  have hmaster : ∀ e, Honest cfg e → MasterEventHonest cfg e := fun e h => h.master
  have hpow : ∀ u, Honest cfg (.mutation u) → u.fault.isError = false := fun u h => h.powered u rfl
  have hlog := h.masters.enter c
  cases hm : w.st.mounted with
  | true =>
    have hserving := h.serving hm hr
    by_cases hop : op = .mount
    . -- a store that is mounted refuses a mount
      rintro _ rfl _
      have hrun : op.run cfg (w.enter c) = (.err .EALREADY, w.enter c) := by
        have hst : (w.enter c).st.mounted = true := hm
        rw [hop]
        simp [Op.run, mountImpl, Proc.bind_run, getSt, Proc.step, hst]
      rw [hrun]
      refine ⟨hserving.keeping hlog, ?_⟩
      unfold Op.Refused
      rw [if_pos hm, hop]
      exact rfl
    . have hne : op ≠ .format := by
        rintro rfl
        cases hspares
      have hboth := (op_served (m := m) hp hm hspares hop).both
        (op_log (k := True) hmaster hp.valid op hop hne)
      apply hboth.conseq
      . rintro _ rfl
        exact ⟨⟨rfl, hserving⟩, hlog⟩
      . exact fun v w' h => ⟨h.1.1.keeping h.2, fun _ => h.1.2⟩
      . intro e w' h
        refine ⟨h.1.1.keeping h.2, ?_⟩
        unfold Op.Refused
        rw [if_pos hm]
        exact h.1.2
      . exact fun w' h => ⟨⟨h.1.1, h.2⟩, fun _ => h.1.2⟩
  | false =>
    have hnot : w.st.mounted ≠ true := by simp [hm]
    by_cases hop : op = .mount
    . subst hop
      obtain ⟨payload, hpayload⟩ := Option.ne_none_iff_exists'.mp hroot
      have hmount := mount_served (R := (· ∈ candidates (w.enter c).history)) hp hopen hpayload
      apply (hmount.both (mount_log (k := True) hmaster w.flash)).conseq
      . rintro _ rfl
        exact ⟨⟨⟨hm, h.active, hr, h.stores⟩, hlog.durable.masters trivial⟩, ⟨hlog.durable, rfl⟩, hm⟩
      . exact fun v w' h => ⟨h.1.keeping (h.2.mono fun _ => .inl trivial), fun hm => absurd hm hnot⟩
      . intro e w' h
        refine ⟨h.1.2.2.keeping h.2, ?_⟩
        unfold Op.Refused
        rw [if_neg hnot, if_pos rfl]
        exact h.1.1
      . exact fun w' h => ⟨⟨.inl h.1, h.2⟩, fun hm => absurd hm hnot⟩
    . rintro _ rfl _
      have hm' : (w.enter c).st.mounted = false := hm
      obtain ⟨r, hrun, hr'⟩ := Op.run_dormant (m := m) cfg hm' hop hspares
      have hkeep : Keeping cfg m (w.enter c) :=
        ⟨h.stores, h.active, fun hmounted => absurd hmounted hnot, hlog⟩
      rw [hrun]
      rcases hr' with rfl | ⟨⟨v, rfl⟩, heffect⟩
      . refine ⟨hkeep, ?_⟩
        unfold Op.Refused
        rw [if_neg hnot, if_neg hop]
      . exact ⟨heffect.symm ▸ hkeep, fun hmounted => absurd hmounted hnot⟩

theorem effect_root (hspares : op.spares = true) (hroot : m rootId ≠ none) : op.effect m rootId ≠ none := by
  cases op with
  | update id payload =>
    simp only [Op.effect, Function.update_apply]
    split
    . simp
    . exact hroot
  | write id offset buf =>
    simp only [Op.effect, Contents.written]
    cases m id.toNat with
    | none => exact hroot
    | some old =>
      simp only
      split
      . exact hroot
      . simp only [Function.update_apply]
        split
        . simp
        . exact hroot
  | delete id =>
    have hne : rootId ≠ id.toNat := fun h => by simp [Op.spares, ← h] at hspares
    simp only [Op.effect, Function.update_apply, if_neg hne]
    exact hroot
  | _ => exact hroot

theorem refuses_answer {r : Reply} {e : Errno} (hanswer : op.answer m = some r) (h : op.Refuses cfg m st e) :
    r = .err e := by
  cases op with
  | get _ _ => exact Option.some.inj (hanswer.symm.trans h)
  | size _ => exact Option.some.inj (hanswer.symm.trans h)
  | read _ _ _ => exact Option.some.inj (hanswer.symm.trans h)
  | «exists» _ => exact Option.some.inj (hanswer.symm.trans h)
  | _ => cases hanswer

theorem callStep_abides (hp : Plain cfg) (hopen : cfg.storeOpenAndValidate = .ok ()) (hroot : m rootId ≠ none)
    (h : Keeping cfg m w) (hspares : c.op.spares = true) (hr : c.readFaults = [])
    (hhonest : ∀ e ∈ (callStep cfg w c).2.history, Honest cfg e) :
    ∃ m', Abides cfg w c m m' ∧ Keeping cfg m' (callStep cfg w c).2 ∧ m' rootId ≠ none := by
  have hhistory : ∀ e ∈ (c.op.run cfg (w.enter c)).2.history, Honest cfg e := by
    rw [← callStep_history]
    exact hhonest
  have hq := callStep_of_spec cfg (op_abides hp hopen hroot h hspares hr) rfl hhistory
  have hroot' := effect_root hspares hroot
  generalize hstep : callStep cfg w c = r at hq
  obtain ⟨o, w'⟩ := r
  cases o with
  | ok v =>
    obtain ⟨hkeep, hanswer⟩ := hq
    refine ⟨c.op.effect m, ⟨?_, ?_, ?_, ?_⟩, hkeep, hroot'⟩
    . exact fun _ _ => rfl
    . simp [hstep]
    . simp [hstep]
    . intro hm r hr
      rw [hstep, hanswer hm r hr]
  | err e =>
    obtain ⟨hkeep, hrefused⟩ := hq
    refine ⟨m, ⟨?_, ?_, ?_, ?_⟩, hkeep, hroot⟩
    . simp [hstep]
    . rw [hstep]
      rintro _ h
      cases h
      exact ⟨rfl, hrefused⟩
    . exact fun _ => .inl rfl
    . intro hm r hr
      unfold Op.Refused at hrefused
      rw [if_pos hm] at hrefused
      rw [hstep, refuses_answer hr hrefused]
  | cut =>
    obtain ⟨w'', ⟨⟨hstores, hlog⟩, hanswer⟩, rfl⟩ := hq
    have hboth : ∀ m', Stores cfg m' w''.flash → m' rootId ≠ none → (m' = m ∨ m' = c.op.effect m) →
        ∃ m', Abides cfg w c m m' ∧ Keeping cfg m' w''.reboot ∧ m' rootId ≠ none := by
      intro m' hs hne hm'
      refine ⟨m', ⟨?_, ?_, fun _ => hm', ?_⟩, keeping_reboot hs hlog, hne⟩
      . simp [hstep]
      . simp [hstep]
      . intro hm r hr
        rw [hanswer hm] at hr
        cases hr
    rcases hstores with hs | hs
    . exact hboth m hs hroot (.inl rfl)
    . exact hboth _ hs hroot' (.inr rfl)

theorem runCalls_follow (hp : Plain cfg) (hopen : cfg.storeOpenAndValidate = .ok ()) {cs : List Call}
    (hroot : m rootId ≠ none) (h : Keeping cfg m w) (hspares : ∀ c ∈ cs, c.op.spares = true)
    (hreads : ∀ c ∈ cs, c.readFaults = [])
    (hhonest : ∀ e ∈ (runCalls cfg w cs).2.history, Honest cfg e) : Follows cfg w m cs := by
  induction cs generalizing w m with
  | nil => trivial
  | cons c cs ih =>
    obtain ⟨hnow, hlater⟩ := eachCall_history hhonest
    obtain ⟨m', habides, hkeep, hroot'⟩ := callStep_abides hp hopen hroot h (hspares c (.head _))
      (hreads c (.head _)) hnow
    exact ⟨m', habides, ih hroot' hkeep (fun c hc => hspares c (.tail _ hc)) (fun c hc => hreads c (.tail _ hc))
      hhonest⟩

end

theorem opened_of_format {cfg : Cfg} {flash : Flash} {c : Call} (hop : c.op = .format) {v : Value}
    (h : (callStep cfg (World.fresh flash) c).1 = .ok v) : cfg.storeOpenAndValidate = .ok () := by
  cases hvalid : cfg.storeOpenAndValidate with
  | ok _ => rfl
  | error e =>
    have hrun : c.op.run cfg ((World.fresh flash).enter c) = (.err e, (World.fresh flash).enter c) := by
      rw [hop]
      simp [Op.run, formatImpl, Proc.bind_run, getSt, Proc.step, World.enter, World.fresh, St.boot, hvalid,
        Proc.ofExcept]
    simp [callStep, hrun] at h

-- A test that an event passes only if it is honest.
def passesHonest : Event → Bool
  | .mutation u =>
    !u.fault.isError && (decide (AllOrNothing (.mutation u)) &&
      match u.request, u.fault with
      | .write off _, .cut _ _ =>
        decide (u.sector < firstBucket) ||
          !slotIntactAt (u.after u.sector) off (slotHdrAt (u.after u.sector) off).valLen
      | _, _ => true)
  | .alloc _ => true

theorem honest_of_passes {cfg : Cfg} {e : Event} (h : passesHonest e = true) : Honest cfg e := by
  cases e with
  | alloc id => exact ⟨nofun, trivial, trivial⟩
  | mutation u =>
    unfold passesHonest at h
    simp only [Bool.and_eq_true, Bool.not_eq_true', decide_eq_true_eq] at h
    refine ⟨?_, h.2.1.honest cfg, ?_⟩
    . rintro _ ⟨rfl⟩
      exact h.1
    . intro off data part upper hreq hfault hsector hintact
      have hcheck := h.2.2
      rw [hreq, hfault] at hcheck
      simp only [Bool.or_eq_true, decide_eq_true_eq, Bool.not_eq_true'] at hcheck
      rcases hcheck with hlow | hno
      . exact absurd hlow (Nat.not_lt.mpr hsector)
      . rw [hno] at hintact
        cases hintact

-- An update is cut in its slot, one in the compaction it needs, and a mount in the recovery of that.
def cutRun : List Call :=
  [{ op := .allocId }, { op := .update 2 [1, 2, 3], faults := [.cut 5 false] }, { op := .mount },
    { op := .get 2 64 }, { op := .allocId }, { op := .update 2 (List.replicate 64 7) },
    { op := .write 2 1 [9, 8] },
    { op := .update 2 (List.replicate 60 5), faults := [.none, .none, .none, .none, .cut 20 false] },
    { op := .mount, faults := [.cut 100 true] }, { op := .mount }, { op := .read 2 0 4 },
    { op := .update 2 [4] }, { op := .delete 2 }, { op := .exists 2 }, { op := .size 1 }]

end KeyValueDb.BlobDb
