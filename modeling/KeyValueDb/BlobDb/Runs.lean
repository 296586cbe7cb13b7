import KeyValueDb.BlobDb.System
import KeyValueDb.BlobDb.Neutral

/-!
Runs of calls: what holds of every call in a run.
-/

namespace KeyValueDb.BlobDb

variable (cfg : Cfg)

-- Every call of the run, with the world it is made in.
def EachCall (P : World → Call → Prop) (w : World) : List Call → Prop
  | [] => True
  | c :: cs => P w c ∧ EachCall P (callStep cfg w c).2 cs

section

variable {cfg} {P Q : World → Call → Prop} {I : World → Prop}

theorem EachCall.imp_of_inv (hstep : ∀ w c, I w → P w c → Q w c ∧ I (callStep cfg w c).2)
    {w : World} {cs : List Call} (hw : I w) (h : EachCall cfg P w cs) : EachCall cfg Q w cs := by
  induction cs generalizing w with
  | nil => trivial
  | cons c cs ih =>
    have hc := hstep w c hw h.1
    exact ⟨hc.1, ih hc.2 h.2⟩

theorem EachCall.inv (hstep : ∀ w c, I w → P w c → I (callStep cfg w c).2) {w : World}
    {cs : List Call} (hw : I w) (h : EachCall cfg P w cs) : I (runCalls cfg w cs).2 := by
  induction cs generalizing w with
  | nil => exact hw
  | cons c cs ih => exact ih (hstep w c hw h.1) h.2

end

theorem runCalls_append (w : World) (cs cs' : List Call) :
    (runCalls cfg w (cs ++ cs')).2 = (runCalls cfg (runCalls cfg w cs).2 cs').2 := by
  induction cs generalizing w with
  | nil => rfl
  | cons c cs ih => exact ih _

theorem callStep_history (w : World) (c : Call) :
    (callStep cfg w c).2.history = (c.op.run cfg (w.enter c)).2.history := by
  unfold callStep
  split
  . next heq => rw [heq]; rfl
  . rfl

theorem callStep_grows (w : World) (c : Call) : w ≤ (callStep cfg w c).2 := by
  have h := (c.op.run cfg).grows (w.enter c)
  show w.history <:+ (callStep cfg w c).2.history
  rw [callStep_history]
  exact h

theorem runCalls_grows (w : World) (cs : List Call) : w ≤ (runCalls cfg w cs).2 := by
  induction cs generalizing w with
  | nil => exact le_refl w
  | cons c cs ih => exact le_trans (callStep_grows cfg w c) (ih _)

-- What is true of the whole history was true after every call.
theorem eachCall_history {cfg : Cfg} {good : Event → Prop} {w : World} {cs : List Call}
    (h : ∀ e ∈ (runCalls cfg w cs).2.history, good e) :
    EachCall cfg (fun w c => ∀ e ∈ (callStep cfg w c).2.history, good e) w cs := by
  induction cs generalizing w with
  | nil => trivial
  | cons c cs ih =>
    refine ⟨?_, ih h⟩
    intro e he
    exact h e (List.IsSuffix.subset (runCalls_grows cfg _ cs) he)

-- What a specification of an operation says of the call.
theorem callStep_of_spec {H : Hypothesis World} {P : World → Prop} {Q : Post World Errno Value}
    {w : World} {c : Call} (h : Spec H P (c.op.run cfg) Q) (hp : P (w.enter c))
    (hh : H.holds (c.op.run cfg (w.enter c)).2) :
    match callStep cfg w c with
    | (.ok v, w') => Q.ok v w'
    | (.err e, w') => Q.err e w'
    | (.cut, w') => ∃ w'', Q.cut w'' ∧ w' = w''.reboot := by
  have hq := h (w.enter c) hp hh
  unfold callStep
  generalize c.op.run cfg (w.enter c) = r at hq
  obtain ⟨o, w'⟩ := r
  cases o with
  | ok v => exact hq
  | err e => exact hq
  | cut => exact ⟨w', hq, rfl⟩

/-! Calls on a mounted store -/

-- The calls that neither start nor end a session and do not touch the ceiling on purpose.
def Op.ordinary : Op → Bool
  | .mount | .unmount | .format | .eraseAll => false
  | _ => true

theorem Op.run_keeps {cfg : Cfg} {good : Event → Prop} {I C : World → Prop}
    (F : OpFrame cfg good I C) (op : Op) (ho : op.ordinary = true) :
    Keeps good I I C (op.run cfg) := by
  cases op with
  | mount => cases ho
  | unmount => cases ho
  | format => cases ho
  | eraseAll => cases ho
  | allocId => exact F.alloc.seq fun _ => ret_reads _
  | update id payload => exact (updateImpl_keeps F id.toNat_lt payload).seq fun _ => ret_reads _
  | write id offset buf => exact (writeImpl_keeps F id.toNat_lt offset buf).seq fun _ => ret_reads _
  | delete id => exact (deleteImpl_keeps F id.toNat_lt).seq fun _ => ret_reads _
  | get id outSz =>
    exact (readRc_reads (getImpl_reads F.stable id.toNat outSz)).seq fun _ => ret_reads _
  | size id => exact (readRc_reads (sizeImpl_reads F.stable id.toNat)).seq fun _ => ret_reads _
  | read id offset len =>
    exact (readRc_reads (readImpl_reads F.stable id.toNat offset len)).seq fun _ => ret_reads _
  | «exists» id => exact (existsImpl_reads F.stable id.toNat).seq fun _ => ret_reads _
  | maintain budget => exact (maintainImpl_keeps F.toFrame budget).seq fun _ => ret_reads _

/-! Calls on a store that is not mounted -/

-- The calls that a store answers with success only when it is mounted.
def Op.mutates : Op → Bool
  | .mount | .format | .eraseAll | .update _ _ | .write _ _ _ | .delete _ | .maintain _ => true
  | _ => false

section

variable {cfg} {w : World} (h : w.st.mounted = false)

include h

theorem updateImpl_unmounted (id : Nat) (payload : List UInt8) :
    updateImpl cfg id payload w = (.err .ENODEV, w) := by
  simp [updateImpl, Proc.bind_run, getSt, Proc.step, h]

theorem writeImpl_unmounted (id offset : Nat) (buf : List UInt8) :
    writeImpl cfg id offset buf w = (.err .ENODEV, w) := by
  simp [writeImpl, Proc.bind_run, getSt, Proc.step, h]

theorem deleteImpl_unmounted (id : Nat) : deleteImpl cfg id w = (.err .ENODEV, w) := by
  simp [deleteImpl, Proc.bind_run, getSt, Proc.step, h]

theorem eraseAllImpl_unmounted : eraseAllImpl cfg w = (.err .ENODEV, w) := by
  simp [eraseAllImpl, Proc.bind_run, getSt, Proc.step, h]

theorem maintainImpl_unmounted (budget : Nat) :
    maintainImpl cfg budget w = (.err .ENODEV, w) := by
  simp [maintainImpl, Proc.bind_run, getSt, Proc.step, h]

theorem allocIdImpl_unmounted : allocIdImpl cfg w = (.ok 0, w) := by
  simp [allocIdImpl, Proc.bind_run, getSt, Proc.step, h]

theorem unmountImpl_unmounted : unmountImpl cfg w = (.ok (), w) := by
  simp [unmountImpl, Proc.bind_run, getSt, Proc.step, h]

theorem getImpl_unmounted (id outSz : Nat) :
    getImpl cfg id outSz w = (.err .ENODEV, w) := by
  simp [getImpl, Proc.bind_run, getSt, Proc.step, h]

theorem sizeImpl_unmounted (id : Nat) : sizeImpl cfg id w = (.err .ENODEV, w) := by
  simp [sizeImpl, Proc.bind_run, getSt, Proc.step, h]

theorem readImpl_unmounted (id offset len : Nat) :
    readImpl cfg id offset len w = (.err .ENODEV, w) := by
  simp [readImpl, Proc.bind_run, getSt, Proc.step, h]

theorem existsImpl_unmounted (id : Nat) : existsImpl cfg id w = (.ok false, w) := by
  simp [existsImpl, Proc.bind_run, getSt, Proc.step, h]

omit h in
theorem readRc_err {α : Type} {x : M α} {e : Errno} (hx : x w = (.err e, w)) :
    ∃ e', readRc x w = (.err e', w) := by
  unfold readRc
  rw [Proc.bind_run, Proc.attempt_run, hx]
  simp only [Proc.caught, Proc.step]
  split
  . next heq => cases heq
  . exact ⟨_, rfl⟩
  . exact ⟨_, rfl⟩

-- Without a mount only mount and format do anything.
variable (cfg) in
theorem Op.run_unmounted (op : Op) (hm : op ≠ .mount) (hf : op ≠ .format) :
    (op.run cfg w).2 = w ∧ (op.mutates = true → ∃ e, (op.run cfg w).1 = .err e) := by
  cases op with
  | mount => contradiction
  | format => contradiction
  | unmount => simp [Op.run, Op.mutates, Proc.bind_run, unmountImpl_unmounted h, Proc.step]
  | eraseAll => simp [Op.run, Proc.bind_run, eraseAllImpl_unmounted h, Proc.step]
  | allocId => simp [Op.run, Op.mutates, Proc.bind_run, allocIdImpl_unmounted h, Proc.step]
  | update id payload => simp [Op.run, Proc.bind_run, updateImpl_unmounted h, Proc.step]
  | write id offset buf => simp [Op.run, Proc.bind_run, writeImpl_unmounted h, Proc.step]
  | delete id => simp [Op.run, Proc.bind_run, deleteImpl_unmounted h, Proc.step]
  | maintain budget => simp [Op.run, Proc.bind_run, maintainImpl_unmounted h, Proc.step]
  | get id outSz =>
    have hget : getImpl cfg id.toNat outSz w = (.err .ENODEV, w) := getImpl_unmounted h _ _
    obtain ⟨e, he⟩ := readRc_err hget
    simp [Op.run, Op.mutates, Proc.bind_run, he, Proc.step]
  | size id =>
    have hsize : sizeImpl cfg id.toNat w = (.err .ENODEV, w) := sizeImpl_unmounted h _
    obtain ⟨e, he⟩ := readRc_err hsize
    simp [Op.run, Op.mutates, Proc.bind_run, he, Proc.step]
  | read id offset len =>
    have hread : readImpl cfg id.toNat offset len w = (.err .ENODEV, w) :=
      readImpl_unmounted h _ _ _
    obtain ⟨e, he⟩ := readRc_err hread
    simp [Op.run, Op.mutates, Proc.bind_run, he, Proc.step]
  | «exists» id => simp [Op.run, Op.mutates, Proc.bind_run, existsImpl_unmounted h, Proc.step]

end

-- What holds between calls and is the frame's assertion while the store is mounted.
theorem Op.run_between {cfg : Cfg} {good : Event → Prop} {I J C : World → Prop}
    (F : OpFrame cfg good I C) (hmounted : ∀ w, J w → w.st.mounted = true → I w)
    (hback : ∀ w, I w → J w) (hlost : ∀ w, J w → C w) (op : Op) (ho : op.ordinary = true) :
    Keeps good J J C (op.run cfg) := by
  intro w h hh
  by_cases hm : w.st.mounted = true
  . have hq := Op.run_keeps F op ho w (hmounted w h hm) hh
    generalize op.run cfg w = r at hq
    obtain ⟨o, w'⟩ := r
    cases o with
    | ok v => exact hback w' hq
    | err e => exact hback w' hq
    | cut => exact hq
  . have hne : op ≠ .mount ∧ op ≠ .format := by
      constructor
      . rintro rfl
        cases ho
      . rintro rfl
        cases ho
    have hw := (Op.run_unmounted cfg (Bool.not_eq_true _ ▸ hm) op hne.1 hne.2).1
    generalize op.run cfg w = r at hw
    obtain ⟨o, w'⟩ := r
    simp only at hw
    subst hw
    cases o with
    | ok v => exact h
    | err e => exact h
    | cut => exact hlost w' h

end KeyValueDb.BlobDb
