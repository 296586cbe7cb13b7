import KeyValueDb.BlobDb.IndexTable
import KeyValueDb.BlobDb.Iteration
import KeyValueDb.BlobDb.Staging

/-!
An iteration whose callback calls back into the library. What the calls of the callback put into the
buffer decides whether the walk still meets the slots of the bucket it is in.
-/

namespace KeyValueDb.BlobDb

/-! Apart from the buffer the calls are those of the library -/

def Erases {α : Type} (x : B α) (y : M α) : Prop :=
  ∀ s, (x s).1 = (y s.world).1 ∧ (x s).2.world = (y s.world).2

section

variable {α β : Type}

theorem erases_quietly (y : M α) : Erases (quietly y) y := fun _ => ⟨rfl, rfl⟩

theorem erases_pure (a : α) : Erases (pure a) (pure a) := fun _ => ⟨rfl, rfl⟩

theorem erases_fail (e : Errno) : Erases (Proc.fail e : B α) (Proc.fail e) := fun _ => ⟨rfl, rfl⟩

theorem Erases.bind {x : B α} {y : M α} {f : α → B β} {g : α → M β} (hx : Erases x y)
    (hf : ∀ a, Erases (f a) (g a)) : Erases (x >>= f) (y >>= g) := by
  intro s
  obtain ⟨hout, hworld⟩ := hx s
  rw [Proc.bind_run, Proc.bind_run]
  generalize x s = r at hout hworld
  generalize y s.world = r' at hout hworld
  obtain ⟨o, t⟩ := r
  obtain ⟨o', w⟩ := r'
  simp only at hout hworld
  subst hout hworld
  cases o with
  | ok a => exact hf a t
  | err e => exact ⟨rfl, rfl⟩
  | cut => exact ⟨rfl, rfl⟩

theorem Erases.attempt {x : B α} {y : M α} (hx : Erases x y) :
    Erases (Proc.attempt x) (Proc.attempt y) := by
  intro s
  obtain ⟨hout, hworld⟩ := hx s
  rw [Proc.attempt_run, Proc.attempt_run]
  generalize x s = r at hout hworld
  generalize y s.world = r' at hout hworld
  obtain ⟨o, t⟩ := r
  obtain ⟨o', w⟩ := r'
  simp only at hout hworld
  subst hout hworld
  cases o <;> exact ⟨rfl, rfl⟩

theorem Erases.ite {c : Prop} [Decidable c] {x x' : B α} {y y' : M α} (hx : Erases x y)
    (hx' : Erases x' y') : Erases (if c then x else x') (if c then y else y') := by
  split
  . exact hx
  . exact hx'

-- Staging changes nothing but the buffer.
theorem Erases.staged {x : B α} {y : M α} {payload : List UInt8} (hx : Erases x y) :
    Erases (stage payload >>= fun _ => x) y :=
  fun s => hx ⟨s.world, overlay s.buf payload⟩

theorem Erases.readRc {x : B α} {y : M α} (hx : Erases x y) :
    Erases (Buffered.readRc x) (readRc y) := by
  unfold Buffered.readRc BlobDb.readRc
  apply hx.attempt.bind
  intro r
  cases r with
  | ok a => exact erases_pure a
  | error e => cases e <;> exact erases_fail _

end

section

variable (cfg : Cfg)

theorem slotVerify_erases (bid : Nat) (t : Target) :
    Erases (Buffered.slotVerify bid t) (slotVerify bid t) := by
  unfold Buffered.slotVerify slotVerify
  apply (erases_quietly _).bind
  intro payload
  apply Erases.staged
  apply (erases_quietly _).bind
  intro stored
  exact .ite (erases_pure _) (erases_pure _)

theorem walkLiveSlotBelow_erases (bid id : Nat) (learn : Bool) (n limit : Nat) :
    Erases (Buffered.walkLiveSlotBelow cfg bid id learn n limit)
      (walkLiveSlotBelow cfg bid id learn n limit) := by
  induction n generalizing limit with
  | zero => exact erases_fail _
  | succ n ih =>
    unfold Buffered.walkLiveSlotBelow walkLiveSlotBelow
    apply (erases_quietly _).bind
    intro sc
    apply Erases.ite
    . exact erases_fail _
    . cases sc.target with
      | none => exact (erases_quietly _).bind fun _ => erases_pure _
      | some t =>
        apply (slotVerify_erases bid t).bind
        intro verified
        cases verified with
        | none => exact ih _
        | some payload =>
          apply Erases.ite
          . exact erases_pure _
          . exact (erases_quietly _).bind fun _ => erases_pure _

theorem findIndexedSlot_erases (bid id : Nat) :
    Erases (Buffered.findIndexedSlot cfg bid id) (findIndexedSlot cfg bid id) := by
  unfold Buffered.findIndexedSlot findIndexedSlot
  apply (erases_quietly _).bind
  intro hit
  cases hit with
  | none => exact erases_pure _
  | some hit =>
    apply Erases.ite
    . exact (erases_quietly _).bind fun _ => erases_pure _
    . apply (erases_quietly _).bind
      intro raw
      apply Erases.ite
      . exact (erases_quietly _).bind fun _ => erases_pure _
      . apply (slotVerify_erases bid _).bind
        intro verified
        cases verified with
        | none => exact erases_pure _
        | some payload => exact .ite (erases_pure _) (erases_pure _)

theorem findLiveSlot_erases (bid id : Nat) :
    Erases (Buffered.findLiveSlot cfg bid id) (findLiveSlot cfg bid id) := by
  unfold Buffered.findLiveSlot findLiveSlot
  apply (findIndexedSlot_erases cfg bid id).bind
  intro indexed
  cases indexed with
  | some found => exact erases_pure _
  | none => exact walkLiveSlotBelow_erases cfg bid id true _ _

theorem indexLoad_erases (id : Nat) : Erases (Buffered.indexLoad cfg id) (indexLoad cfg id) := by
  unfold Buffered.indexLoad indexLoad
  apply (erases_quietly _).bind
  intro formatted
  apply Erases.ite
  . exact erases_fail _
  . apply (findLiveSlot_erases cfg _ _).bind
    intro found
    cases found.live with
    | none => exact erases_fail _
    | some live =>
      apply Erases.ite
      . exact erases_pure _
      . apply Erases.ite
        . exact erases_fail _
        . apply (erases_quietly _).bind
          intro st
          exact .ite (erases_pure _) (erases_fail _)

theorem indexLoadCached_erases (id : Nat) :
    Erases (Buffered.indexLoadCached cfg id) (indexLoadCached cfg id) := by
  unfold Buffered.indexLoadCached indexLoadCached
  apply (erases_quietly _).bind
  intro st
  apply Erases.ite
  . exact erases_pure _
  . apply (indexLoad_erases cfg id).bind
    intro loaded
    cases loaded with
    | none => exact erases_pure _
    | some x => exact (erases_quietly _).bind fun _ => erases_pure _

theorem segChunkRead_erases (owner segId seq skip len : Nat) :
    Erases (Buffered.segChunkRead cfg owner segId seq skip len)
      (segChunkRead cfg owner segId seq skip len) := by
  unfold Buffered.segChunkRead segChunkRead
  apply (erases_quietly _).bind
  intro formatted
  apply Erases.ite
  . exact erases_fail _
  . apply (findLiveSlot_erases cfg _ _).bind
    intro found
    cases found.live with
    | none => exact erases_fail _
    | some live =>
      apply Erases.ite
      . exact erases_fail _
      . apply Erases.ite
        . exact erases_fail _
        . exact .ite (erases_fail _) (erases_pure _)

theorem segReadFrom_erases (id : Nat) (h : IndexHdr) (ids : List Nat) (n pos len : Nat) :
    Erases (Buffered.segReadFrom cfg id h ids n pos len) (segReadFrom cfg id h ids n pos len) := by
  induction n generalizing pos len with
  | zero => exact erases_pure _
  | succ n ih =>
    unfold Buffered.segReadFrom segReadFrom
    apply Erases.ite
    . exact erases_pure _
    . apply (segChunkRead_erases cfg _ _ _ _ _).bind
      intro chunk
      exact (ih _ _).bind fun _ => erases_pure _

theorem segReadRange_erases (id : Nat) (h : IndexHdr) (offset len : Nat) :
    Erases (Buffered.segReadRange cfg id h offset len) (segReadRange cfg id h offset len) := by
  unfold Buffered.segReadRange segReadRange
  apply (erases_quietly _).bind
  intro st
  exact .ite (erases_pure _) (segReadFrom_erases cfg _ _ _ _ _ _)

theorem readImpl_erases (id offset len : Nat) :
    Erases (Buffered.readImpl cfg id offset len) (readImpl cfg id offset len) := by
  unfold Buffered.readImpl readImpl
  apply (erases_quietly _).bind
  intro st
  apply Erases.ite
  . exact erases_fail _
  . apply Erases.ite
    . exact erases_fail _
    . apply Erases.ite
      . exact segReadRange_erases cfg _ _ _ _
      . apply (erases_quietly _).bind
        intro formatted
        apply Erases.ite
        . exact erases_fail _
        . apply (findLiveSlot_erases cfg _ _).bind
          intro found
          cases found.live with
          | none => exact erases_fail _
          | some live =>
            apply Erases.ite
            . exact erases_fail _
            . apply Erases.ite
              . apply (indexLoadCached_erases cfg id).bind
                intro loaded
                cases loaded with
                | none => exact erases_fail _
                | some x => exact segReadRange_erases cfg _ _ _ _
              . exact erases_pure _

theorem getImpl_erases (id outSz : Nat) :
    Erases (Buffered.getImpl cfg id outSz) (getImpl cfg id outSz) := by
  unfold Buffered.getImpl getImpl
  apply (erases_quietly _).bind
  intro st
  apply Erases.ite
  . exact erases_fail _
  . apply Erases.ite
    . exact erases_fail _
    . apply (erases_quietly _).bind
      intro formatted
      apply Erases.ite
      . exact erases_fail _
      . apply (findLiveSlot_erases cfg _ _).bind
        intro found
        cases found.live with
        | none => exact erases_fail _
        | some live =>
          apply Erases.ite
          . exact erases_fail _
          . apply Erases.ite
            . apply (indexLoadCached_erases cfg id).bind
              intro loaded
              cases loaded with
              | none => exact erases_fail _
              | some x => exact .ite (erases_fail _) (readImpl_erases cfg _ _ _).readRc
            . exact .ite (erases_fail _) (erases_pure _)

theorem sizeImpl_erases (id : Nat) : Erases (Buffered.sizeImpl cfg id) (sizeImpl cfg id) := by
  unfold Buffered.sizeImpl sizeImpl
  apply (erases_quietly _).bind
  intro st
  apply Erases.ite
  . exact erases_fail _
  . apply Erases.ite
    . exact erases_fail _
    . apply (erases_quietly _).bind
      intro formatted
      apply Erases.ite
      . exact erases_fail _
      . apply (findLiveSlot_erases cfg _ _).bind
        intro found
        cases found.live with
        | none => exact erases_fail _
        | some live =>
          apply Erases.ite
          . exact erases_fail _
          . apply Erases.ite
            . apply Erases.ite
              . exact erases_fail _
              . exact .ite (erases_pure _) (erases_fail _)
            . exact erases_pure _

theorem existsImpl_erases (id : Nat) : Erases (Buffered.existsImpl cfg id) (existsImpl cfg id) := by
  unfold Buffered.existsImpl existsImpl
  apply (erases_quietly _).bind
  intro st
  apply Erases.ite
  . exact erases_pure _
  . apply (erases_quietly _).attempt.bind
    intro formatted
    cases formatted with
    | error e => exact erases_pure _
    | ok formatted =>
      cases formatted with
      | false => exact erases_pure _
      | true =>
        apply (findLiveSlot_erases cfg _ _).attempt.bind
        intro found
        cases found with
        | error e => exact erases_pure _
        | ok found =>
          simp only
          cases found.live <;> exact erases_pure _

-- The count, without the buffer it works in.
def countedBy (buf : Sector) : M Nat := do
  let r ← countImpl cfg buf
  pure r.1

theorem countFrom_any {buf buf' : Sector} (n bid total : Nat) (w : World) :
    (countFrom cfg n bid total buf >>= fun r => pure r.1 : M Nat) w =
      (countFrom cfg n bid total buf' >>= fun r => pure r.1 : M Nat) w := by
  induction n generalizing bid total buf buf' w with
  | zero => rfl
  | succ n ih =>
    unfold countFrom
    simp only [Proc.bind_run, attempt_readBucket]
    cases w.readFaults.headD false with
    | true => exact ih _ _ _
    | false => rfl

theorem countedBy_any (buf buf' : Sector) (w : World) :
    countedBy cfg buf w = countedBy cfg buf' w := by
  unfold countedBy countImpl
  simp only [Proc.bind_run]
  have hst : getSt w = (.ok w.st, w) := rfl
  rw [hst]
  simp only [Proc.step]
  cases w.st.mounted with
  | false => rfl
  | true => exact countFrom_any cfg _ _ _ w

theorem countImpl_erases (buf : Sector) : Erases (Buffered.countImpl cfg) (countedBy cfg buf) := by
  intro s
  rw [countedBy_any cfg buf s.buf]
  unfold countedBy
  rw [Proc.bind_run]
  show (counted s.buf (countImpl cfg s.buf s.world)).1 = _ ∧
    (counted s.buf (countImpl cfg s.buf s.world)).2.world = _
  generalize countImpl cfg s.buf s.world = r
  obtain ⟨o, w⟩ := r
  cases o <;> exact ⟨rfl, rfl⟩

-- A call on its own, as the library answers it outside an iteration.
def ReadOp.plain : ReadOp → M Value
  | .get id outSz => Op.run cfg (.get id outSz)
  | .size id => Op.run cfg (.size id)
  | .read id offset len => Op.run cfg (.read id offset len)
  | .exists id => Op.run cfg (.exists id)
  | .count => do
    let n ← countedBy cfg blank
    pure (.size n)

theorem ReadOp.run_erases (op : ReadOp) : Erases (op.run cfg) (op.plain cfg) := by
  cases op with
  | get id outSz => exact (getImpl_erases cfg _ _).readRc.bind fun _ => erases_pure _
  | size id => exact (sizeImpl_erases cfg _).readRc.bind fun _ => erases_pure _
  | read id offset len => exact (readImpl_erases cfg _ _ _).readRc.bind fun _ => erases_pure _
  | «exists» id => exact (existsImpl_erases cfg _).bind fun _ => erases_pure _
  | count => exact (countImpl_erases cfg blank).bind fun _ => erases_pure _

end

/-! A slot index that says the truth goes on doing so -/

-- What the cursors and the cells of the slot index say of the flash is so.
structure IndexHolds (cfg : Cfg) (fl : Flash) (t : SlotIndex) : Prop where
  cursor : ∀ bid fin, t.cursorOf bid = some fin →
    bucketHdrValid (fl (bucketSector bid)) bid = true ∧
    ∃ es, BucketLog cfg (fl (bucketSector bid)) es fin ∧
      slotForeignAt cfg (fl (bucketSector bid)) fin = false
  cell : ∀ id off, t.Cell id off →
    ∃ es fin x, BucketLog cfg (fl (bucketSector (cfg.idToBucket id))) es fin ∧
      lastSat (fun y => y.head.id == id) es = some x ∧ x.off = off

section

variable {cfg : Cfg} {fl : Flash} {t : SlotIndex} {bid id fin : Nat} {es : List Entry}

theorem lookup_some {off : Nat} (hid : id ≠ 0) (h : t.lookup cfg bid id = some (off, fin)) :
    t.cursorOf bid = some fin ∧ t.Cell id off := by
  unfold SlotIndex.lookup at h
  split at h
  . cases h
  . next hon =>
    split at h
    . next i hfind =>
      cases h
      unfold SlotIndex.cursorOf
      rw [if_neg hon]
      exact ⟨rfl, find_cell hid hfind⟩
    . cases h

theorem IndexHolds.indexTrue (h : IndexHolds cfg fl t) {st : St} (hst : st.sidx = t) (hid : id ≠ 0) :
    IndexTrue cfg fl st (cfg.idToBucket id) id := by
  subst hst
  constructor
  . exact fun fin hc => (h.cursor _ fin hc).1
  . intro off fin hlook
    obtain ⟨hc, hcell⟩ := lookup_some hid hlook
    obtain ⟨-, es, hl, hnative⟩ := h.cursor _ _ hc
    obtain ⟨es', fin', x, hl', hx, hoff⟩ := h.cell _ _ hcell
    obtain ⟨rfl, rfl⟩ := hl.unique hl'
    exact ⟨es, x, hl, hnative, hx, hoff⟩

theorem IndexHolds.forget (h : IndexHolds cfg fl t) : IndexHolds cfg fl (t.forget cfg bid) := by
  constructor
  . intro b fin hc
    rw [forget_cursor] at hc
    split at hc
    . cases hc
    . exact h.cursor b fin hc
  . exact fun id off hcell => h.cell id off (forget_cell hcell)

theorem IndexHolds.learn (h : IndexHolds cfg fl t) {o : Option Nat}
    (hhdr : bucketHdrValid (fl (bucketSector (cfg.idToBucket id))) (cfg.idToBucket id) = true)
    (hl : BucketLog cfg (fl (bucketSector (cfg.idToBucket id))) es fin)
    (hnative : slotForeignAt cfg (fl (bucketSector (cfg.idToBucket id))) fin = false)
    (ho : ∀ off, o = some off → ∃ x, lastSat (fun y => y.head.id == id) es = some x ∧ x.off = off) :
    IndexHolds cfg fl (t.learn cfg (cfg.idToBucket id) id o fin) := by
  constructor
  . intro b fin' hc
    rcases learn_cursor hc with hold | ⟨rfl, rfl⟩
    . exact h.cursor b fin' hold
    . exact ⟨hhdr, es, hl, hnative⟩
  . intro id' off hcell
    rcases learn_cell hcell with hold | ⟨rfl, hoff⟩
    . exact h.cell id' off hold
    . obtain ⟨x, hx, hxoff⟩ := ho off hoff
      exact ⟨es, fin, x, hl, hx, hxoff⟩

end

/-! What the calls put into the buffer -/

-- Every byte of `b'` is the one of `b`, or one that `puts` says may be put there.
def Changes (puts : Nat → UInt8 → Prop) (b b' : Sector) : Prop :=
  ∀ j, b' j = b j ∨ puts j (b' j)

-- The state an iteration is in while its callback runs.
structure Ready (cfg : Cfg) (fl : Flash) (w : World) : Prop where
  reads : w.readFaults = []
  mounted : w.st.mounted = true
  index : cfg.slotIndex = true → IndexHolds cfg fl w.st.sidx
  cache : cfg.large = true → w.st.idxId = 0

def anyBuffer : Hypothesis Buffered where
  holds _ := True
  anti _ h := h

-- A call answers `P` or fails, never for a failed read, and puts only what it may into the buffer.
abbrev Stages (cfg : Cfg) (fl : Flash) (puts : Nat → UInt8 → Prop) (b : Sector) {α : Type} (x : B α)
    (P : α → Prop) : Prop :=
  Spec anyBuffer (fun s => Reading (Ready cfg fl) fl s.world ∧ Changes puts b s.buf) x
    ⟨fun a s => P a ∧ Reading (Ready cfg fl) fl s.world ∧ Changes puts b s.buf,
      fun _ s => Reading (Ready cfg fl) fl s.world ∧ Changes puts b s.buf, fun _ => False⟩

section

variable {cfg : Cfg} {fl : Flash} {puts : Nat → UInt8 → Prop} {b : Sector} {α β : Type}

theorem ready_readClosed : ReadClosed (Ready cfg fl) := by
  intro w h
  refine ⟨?_, h.mounted, h.index, h.cache⟩
  rw [h.reads]
  rfl

theorem ready_failsTo : FailsTo (Ready cfg fl) fun _ => False := by
  intro w h hfault
  rw [h.reads] at hfault
  cases hfault

theorem stages_ret {a : α} {P : α → Prop} (h : P a) : Stages cfg fl puts b (pure a) P :=
  Spec.ret fun _ hs => ⟨h, hs⟩

theorem stages_fail {e : Errno} {P : α → Prop} : Stages cfg fl puts b (Proc.fail e : B α) P :=
  Spec.fail fun _ hs => hs

theorem stages_bind {x : B α} {f : α → B β} {P : α → Prop} {Q : β → Prop}
    (hx : Stages cfg fl puts b x P) (hf : ∀ a, P a → Stages cfg fl puts b (f a) Q) :
    Stages cfg fl puts b (x >>= f) Q := by
  apply hx.bind
  . intro a
    apply Spec.assuming (φ := P a)
    . exact fun _ h => h.1
    . intro ha
      exact (hf a ha).pre fun _ h => h.2
  . exact fun _ _ h => h
  . exact fun _ h => h

theorem stages_mono {x : B α} {P Q : α → Prop} (hx : Stages cfg fl puts b x P)
    (hPQ : ∀ a, P a → Q a) : Stages cfg fl puts b x Q :=
  hx.conseq (fun _ h => h) (fun a _ h => ⟨hPQ a h.1, h.2⟩) (fun _ _ h => h) fun _ h => h

theorem stages_attempt {x : B α} {P : α → Prop} (hx : Stages cfg fl puts b x P) :
    Stages cfg fl puts b (Proc.attempt x) (fun r => ∀ a, r = .ok a → P a) := by
  apply hx.attempt.conseq
  . exact fun _ h => h
  . intro r s h
    cases r with
    | ok a =>
      refine ⟨?_, h.2⟩
      rintro a' ⟨⟩
      exact h.1
    | error e =>
      refine ⟨?_, h⟩
      intro a ha
      cases ha
  . exact fun _ _ h => h.elim
  . exact fun _ h => h

theorem stages_readRc {x : B α} {P : α → Prop} (hx : Stages cfg fl puts b x P) :
    Stages cfg fl puts b (Buffered.readRc x) P := by
  unfold Buffered.readRc
  apply stages_bind (stages_attempt hx)
  intro r hr
  cases r with
  | ok a => exact stages_ret (hr a rfl)
  | error e => cases e <;> exact stages_fail

theorem stages_ite {c : Prop} [Decidable c] {x y : B α} {P : α → Prop}
    (hx : c → Stages cfg fl puts b x P) (hy : ¬ c → Stages cfg fl puts b y P) :
    Stages cfg fl puts b (if c then x else y) P :=
  Spec.ite hx hy

-- A step of the library that tells, taken on the buffer's side.
theorem stages_tells {x : M α} {P : α → Prop} {E : Errno → Prop}
    (hx : Tells AnyEvent (Ready cfg fl) (fun _ => False) fl (fun _ => False) x P E) :
    Stages cfg fl puts b (quietly x) P := by
  intro s hs _
  have hpost := hx s.world hs.1 fun _ _ => trivial
  show Post.Holds _ ((x s.world).1, (⟨(x s.world).2, s.buf⟩ : Buffered))
  generalize x s.world = r at hpost
  obtain ⟨o, w⟩ := r
  cases o with
  | ok a => exact ⟨hpost.1, hpost.2, hs.2⟩
  | err e => exact ⟨hpost.2, hs.2⟩
  | cut => exact hpost

theorem stages_stage {payload : List UInt8}
    (h : ∀ j, j < payload.length → puts j (image payload j)) :
    Stages cfg fl puts b (stage payload) fun _ => True := by
  apply Spec.modify
  intro s hs
  refine ⟨trivial, hs.1, ?_⟩
  intro j
  simp only [overlay]
  split
  . next hj => exact .inr (h j hj)
  . exact hs.2 j

theorem stages_getSt : Stages cfg fl puts b (quietly getSt) fun st =>
    st.mounted = true ∧ (cfg.large = true → st.idxId = 0) :=
  stages_tells (E := fun _ => False)
    (Spec.read fun _ hw => ⟨⟨hw.1.mounted, hw.1.cache⟩, hw⟩)

theorem sidx_tells_ready {f : SlotIndex → SlotIndex} {E : Errno → Prop}
    (hf : ∀ t, IndexHolds cfg fl t → IndexHolds cfg fl (f t)) :
    Tells AnyEvent (Ready cfg fl) (fun _ => False) fl (fun _ => False) (modifySidx cfg f)
      (fun _ => True) E := by
  unfold modifySidx
  split
  . exact modifySt_spec fun w hw =>
      ⟨trivial, ⟨hw.1.reads, hw.1.mounted, fun hs => hf _ (hw.1.index hs), hw.1.cache⟩, hw.2⟩
  . exact tells_ret trivial

end

/-! The lookups -/

-- A lookup of `id` checks this slot, and so stages its payload.
structure Checked (cfg : Cfg) (fl : Flash) (id : Nat) (y : Entry) : Prop where
  id_pos : id ≠ 0
  formatted : bucketHdrValid (fl (bucketSector (cfg.idToBucket id))) (cfg.idToBucket id) = true
  native : endsForeign cfg (fl (bucketSector (cfg.idToBucket id))) = false
  mem : y ∈ bucketEntries cfg (fl (bucketSector (cfg.idToBucket id)))
  id_eq : y.head.id = id
  last : ∀ z ∈ bucketEntries cfg (fl (bucketSector (cfg.idToBucket id))), z.head.id = id →
    y.off < z.off → z.intact = false

def lookupPuts (cfg : Cfg) (fl : Flash) (id j : Nat) (v : UInt8) : Prop :=
  ∃ y, Checked cfg fl id y ∧ j < y.payload.length ∧ v = image y.payload j

section

variable {cfg : Cfg} {fl : Flash} {b : Sector} {id fin : Nat} {es : List Entry}

theorem slotVerify_stages {puts : Nat → UInt8 → Prop} {bid : Nat} {x : Entry}
    (hx : x = entryAt (fl (bucketSector bid)) x.off)
    (hputs : ∀ j, j < x.payload.length → puts j (image x.payload j)) :
    Stages cfg fl puts b (Buffered.slotVerify bid (x.target (fl (bucketSector bid))))
      (· = if x.intact then some x.payload else none) := by
  unfold Buffered.slotVerify
  rw [hx] at hputs ⊢
  apply stages_bind (stages_tells (E := fun _ => False)
    (slotPayload_tells ready_readClosed ready_failsTo bid x.off))
  rintro payload rfl
  apply stages_bind (stages_stage hputs)
  intro _ _
  apply stages_bind (stages_tells (E := fun _ => False)
    (storeRead_tells ready_readClosed ready_failsTo _ _ _))
  rintro stored rfl
  have hok := verify_eq_intact (fl (bucketSector bid)) x.off
  split
  . next h => exact stages_ret (if_pos (hok.symm.trans h)).symm
  . next h => exact stages_ret (if_neg fun hi => h (hok.trans hi)).symm

variable (hv : cfg.Valid) (hid : id ≠ 0)
  (hhdr : bucketHdrValid (fl (bucketSector (cfg.idToBucket id))) (cfg.idToBucket id) = true)
  (hl : BucketLog cfg (fl (bucketSector (cfg.idToBucket id))) es fin)

include hv hl in
theorem endsForeign_log : endsForeign cfg (fl (bucketSector (cfg.idToBucket id))) =
    slotForeignAt cfg (fl (bucketSector (cfg.idToBucket id))) fin := by
  unfold endsForeign
  rw [hl.path.logEndFrom hl.stop (hl.length_lt hv)]

include hv hid hhdr hl

theorem checked_of_rotten (hnative : slotForeignAt cfg (fl (bucketSector (cfg.idToBucket id))) fin = false)
    {limit : Nat} {x : Entry}
    (hrot : ∀ z ∈ es, z.head.id = id → limit ≤ z.off → z.intact = false)
    (hx : lastSat (fun y => y.head.id == id && decide (y.off < limit)) es = some x) :
    Checked cfg fl id x := by
  obtain ⟨a, c, hab, hpx, hc⟩ := lastSat_some hx
  have hent := hl.entries hv
  have hmem : x ∈ es := by simp [hab]
  have hcond : x.head.id = id ∧ x.off < limit := by simpa using hpx
  refine ⟨hid, hhdr, by rw [endsForeign_log hv hl]; exact hnative, by rw [hent]; exact hmem,
    hcond.1, ?_⟩
  intro z hz hzid hoff
  rw [hent] at hz
  by_cases hlim : limit ≤ z.off
  . exact hrot z hz hzid hlim
  . -- a slot of the id between the last one below the limit and the limit
    have hzc : z ∈ c := by
      rw [hab] at hz
      rcases List.mem_append.mp hz with hza | hz
      . have hbefore := Path.before (hab ▸ hl.path)
        have := hbefore.1 z hza
        omega
      . rcases List.mem_cons.mp hz with rfl | hz
        . exact absurd hoff (lt_irrefl _)
        . exact hz
    have hno := hc z hzc
    simp [hzid, Nat.lt_of_not_le hlim] at hno

theorem walkLiveSlotBelow_stages {n limit : Nat} (hn : limit < n) (hle : limit ≤ cfg.pebSize)
    (hrot : ∀ z ∈ es, z.head.id = id → limit ≤ z.off → z.intact = false) :
    Stages cfg fl (lookupPuts cfg fl id) b
      (Buffered.walkLiveSlotBelow cfg (cfg.idToBucket id) id true n limit) fun _ => True := by
  induction n generalizing limit with
  | zero => cases hn
  | succ n ih =>
    unfold Buffered.walkLiveSlotBelow
    apply stages_bind (stages_tells (E := fun _ => False)
      (scanBucketFor_tells ready_readClosed ready_failsTo hv id hl))
    rintro sc rfl
    apply stages_ite
    . exact fun _ => stages_fail
    . intro hf
      have hnative : slotForeignAt cfg (fl (bucketSector (cfg.idToBucket id))) fin = false := by
        simpa using hf
      cases hx : lastSat (fun y => y.head.id == id && decide (y.off < limit)) es with
      | none =>
        simp only [Option.map_none]
        refine stages_bind (P := fun _ => True) (stages_tells (E := fun _ => False) ?_)
          fun _ _ => stages_ret trivial
        unfold Proc.when
        split
        . exact sidx_tells_ready fun t h => h.learn hhdr hl hnative fun _ h => nomatch h
        . exact tells_ret trivial
      | some x =>
        simp only [Option.map_some]
        have hchecked := checked_of_rotten hv hid hhdr hl hnative hrot hx
        obtain ⟨a, c, hab, hpx, hc⟩ := lastSat_some hx
        have hmem : x ∈ es := by simp [hab]
        have hcond : x.head.id = id ∧ x.off < limit := by simpa using hpx
        obtain ⟨-, -, -, hat⟩ := hl.path.mem hmem
        apply stages_bind (slotVerify_stages hat fun j hj => ⟨x, hchecked, hj, rfl⟩)
        rintro verified rfl
        cases hi : x.intact with
        | false =>
          simp only [Bool.false_eq_true, if_false]
          have hbelow : x.off < n := by omega
          have hle' : x.off ≤ cfg.pebSize := by omega
          apply ih hbelow hle'
          . intro z hz hzid hlim
            by_cases hzx : z = x
            . rw [hzx]
              exact hi
            . have hpast : x.off < z.off := by
                rw [hab] at hz
                rcases List.mem_append.mp hz with hza | hz
                . have := (Path.before (hab ▸ hl.path)).1 z hza
                  omega
                . rcases List.mem_cons.mp hz with rfl | hz
                  . exact absurd rfl hzx
                  . exact (Path.before (hab ▸ hl.path)).2 z hz
              have hent := hl.entries hv
              exact hchecked.last z (by rw [hent]; exact hz) hzid hpast
        | true =>
          simp only [if_true]
          apply stages_ite
          . exact fun _ => stages_ret trivial
          . intro _
            refine stages_bind (P := fun _ => True) (stages_tells (E := fun _ => False) ?_)
              fun _ _ => stages_ret trivial
            unfold Proc.when
            split
            . next hlearn =>
              have hfull : limit = cfg.pebSize := by simpa using hlearn
              apply sidx_tells_ready
              intro t h
              apply h.learn hhdr hl hnative
              rintro off ⟨⟩
              refine ⟨x, ?_, rfl⟩
              rw [← hx]
              apply lastSat_congr
              intro y hy
              have hoff : y.off < limit := by
                obtain ⟨-, hfin, hw, -⟩ := hl.path.mem hy
                have := walkable_iff.mp hw
                unfold slotOverhead at this
                omega
              simp [hoff]
            . exact tells_ret trivial

theorem walkLiveSlot_stages :
    Stages cfg fl (lookupPuts cfg fl id) b
      (Buffered.walkLiveSlot cfg (cfg.idToBucket id) id true) fun _ => True := by
  unfold Buffered.walkLiveSlot
  apply walkLiveSlotBelow_stages hv hid hhdr hl (Nat.lt_succ_self _) le_rfl
  intro z hz _ hlim
  obtain ⟨-, -, hwz, -⟩ := hl.path.mem hz
  have := walkable_iff.mp hwz
  unfold slotOverhead at this
  omega

theorem findIndexedSlot_stages :
    Stages cfg fl (lookupPuts cfg fl id) b
      (Buffered.findIndexedSlot cfg (cfg.idToBucket id) id) fun _ => True := by
  have hlook : Stages cfg fl (lookupPuts cfg fl id) b
      (quietly (sidxLookup cfg (cfg.idToBucket id) id)) fun hit => ∀ off fin',
        hit = some (off, fin') → fin' = fin ∧
          slotForeignAt cfg (fl (bucketSector (cfg.idToBucket id))) fin = false ∧
          ∃ x, lastSat (fun y => y.head.id == id) es = some x ∧ x.off = off := by
    apply stages_tells (E := fun _ => False)
    unfold sidxLookup
    split
    . next hs =>
      apply Spec.read
      intro w hw
      refine ⟨?_, hw⟩
      intro off fin' hhit
      obtain ⟨es', x, hl', hnative, hx, hoff⟩ :=
        ((hw.1.index hs).indexTrue rfl hid).lookup off fin' hhit
      obtain ⟨rfl, rfl⟩ := hl.unique hl'
      exact ⟨rfl, hnative, x, hx, hoff⟩
    . exact tells_ret fun _ _ h => nomatch h
  have hforget : Stages cfg fl (lookupPuts cfg fl id) b
      (quietly (sidxForget cfg (cfg.idToBucket id))) fun _ => True :=
    stages_tells (E := fun _ => False) (sidx_tells_ready fun _ h => h.forget)
  unfold Buffered.findIndexedSlot
  apply stages_bind hlook
  intro hit hhit
  cases hit with
  | none => exact stages_ret trivial
  | some hit =>
    obtain ⟨off, fin'⟩ := hit
    obtain ⟨rfl, hnative, x, hx, rfl⟩ := hhit off fin' rfl
    obtain ⟨a, c, hab, hxid, -⟩ := lastSat_some hx
    obtain ⟨-, -, hw, hat⟩ := hl.path.mem (x := x) (by simp [hab])
    have hbelow : lastSat (fun y => y.head.id == id && decide (y.off < cfg.pebSize)) es = some x := by
      rw [← hx]
      apply lastSat_congr
      intro y hy
      have hoff : y.off < cfg.pebSize := by
        obtain ⟨-, -, hwy, -⟩ := hl.path.mem hy
        have := walkable_iff.mp hwy
        unfold slotOverhead at this
        omega
      simp [hoff]
    have hchecked : Checked cfg fl id x := by
      refine checked_of_rotten hv hid hhdr hl hnative ?_ hbelow
      intro z hz _ hlim
      obtain ⟨-, -, hwz, -⟩ := hl.path.mem hz
      have := walkable_iff.mp hwz
      unfold slotOverhead at this
      omega
    have hhead : slotHdrAt (fl (bucketSector (cfg.idToBucket id))) x.off = x.head := by
      rw [hat]
      rfl
    simp only
    split
    . exact stages_bind hforget fun _ _ => stages_ret trivial
    . apply stages_bind (stages_tells (E := fun _ => False)
        (storeRead_tells ready_readClosed ready_failsTo _ _ _))
      rintro raw rfl
      simp only [slotHdrAt_image, hhead]
      split
      . exact stages_bind hforget fun _ _ => stages_ret trivial
      . have hputs : ∀ j, j < x.payload.length → lookupPuts cfg fl id j (image x.payload j) :=
          fun j hj => ⟨x, hchecked, hj, rfl⟩
        apply stages_bind (slotVerify_stages hat hputs)
        intro verified _
        cases verified with
        | none => exact stages_ret trivial
        | some payload =>
          simp only
          split <;> exact stages_ret trivial

omit hv hid hhdr hl in
-- What the call of the library answers, the call with the buffer answers.
theorem stages_erases {α : Type} {puts : Nat → UInt8 → Prop} {x : B α} {y : M α} {P : α → Prop}
    (hx : Stages cfg fl puts b x fun _ => True) (he : Erases x y)
    (hy : ∀ w, Reading (Ready cfg fl) fl w → ∀ a w', y w = (.ok a, w') → P a) :
    Stages cfg fl puts b x P := by
  intro s hs hh
  have hpost := hx s hs hh
  obtain ⟨hout, hworld⟩ := he s
  generalize x s = r at hpost hout hworld
  obtain ⟨o, t⟩ := r
  cases o with
  | ok a => exact ⟨hy s.world hs.1 a t.world (Prod.ext hout.symm hworld.symm), hpost.2⟩
  | err e => exact hpost
  | cut => exact hpost

theorem findLiveSlot_stages :
    Stages cfg fl (lookupPuts cfg fl id) b (Buffered.findLiveSlot cfg (cfg.idToBucket id) id)
      fun found => Finds cfg (fl (bucketSector (cfg.idToBucket id))) es fin id found ∧
        slotForeignAt cfg (fl (bucketSector (cfg.idToBucket id))) fin = false := by
  have hfind : Stages cfg fl (lookupPuts cfg fl id) b
      (Buffered.findLiveSlot cfg (cfg.idToBucket id) id) fun _ => True := by
    unfold Buffered.findLiveSlot
    apply stages_bind (findIndexedSlot_stages hv hid hhdr hl)
    intro indexed _
    cases indexed with
    | some found => exact stages_ret trivial
    | none => exact walkLiveSlot_stages hv hid hhdr hl
  apply stages_erases hfind (findLiveSlot_erases cfg _ id)
  intro w hw found w' hrun
  have htells : Spec (History AnyEvent) _ (findLiveSlot cfg (cfg.idToBucket id) id) _ :=
    findLiveSlot_tells (C := fun _ => False) sound_stable sound_failsTo hv id hl
  have hpost := htells w ⟨⟨hw.1.reads, hw.2⟩, fun hs => (hw.1.index hs).indexTrue rfl hid⟩
    fun _ _ => trivial
  rw [hrun] at hpost
  exact hpost.1

end

/-! The calls -/

-- The bytes a call may put into the buffer, and where. A count leaves the last bucket in it.
def ReadOp.puts (cfg : Cfg) (fl : Flash) : ReadOp → Nat → UInt8 → Prop
  | .get id _ => lookupPuts cfg fl id.toNat
  | .size id => lookupPuts cfg fl id.toNat
  | .read id _ _ => lookupPuts cfg fl id.toNat
  | .exists id => lookupPuts cfg fl id.toNat
  | .count => fun j v => v = fl (bucketSector (cfg.nBuckets - 1)) j

-- No object the lookups find is a large one.
def AllInline (cfg : Cfg) (fl : Flash) : Prop := ∀ id s, Visible cfg fl id s → s.indexed cfg = false

section

variable {cfg : Cfg} {fl : Flash} {b : Sector} {id : Nat}

theorem readBucketHdr_stages (hid : id ≠ 0) {puts : Nat → UInt8 → Prop} :
    Stages cfg fl puts b (quietly (readBucketHdr cfg (cfg.idToBucket id)))
      (· = bucketHdrValid (fl (bucketSector (cfg.idToBucket id))) (cfg.idToBucket id)) := by
  apply stages_tells (E := fun _ => False)
  have hhdr : Spec (History AnyEvent) (Indexed cfg (Ready cfg fl) fl (cfg.idToBucket id) id)
      (readBucketHdr cfg (cfg.idToBucket id)) _ :=
    readBucketHdr_tells (C := fun _ => False) ready_readClosed ready_failsTo _ id
  apply hhdr.conseq
  . exact fun w hw => ⟨hw, fun hs => (hw.1.index hs).indexTrue rfl hid⟩
  . exact fun _ _ h => ⟨h.1, h.2.1⟩
  . exact fun _ _ h => h.1.1.elim
  . exact fun _ h => h

variable (hv : cfg.Valid) (hinline : AllInline cfg fl)

include hv hinline

-- A lookup of `id` and what follows it, where that only looks at the slot found.
theorem lookup_stages {α : Type} (hid : id ≠ 0) {none_ : B α} {some_ : Found → B α} {P : α → Prop}
    (hnone : Stages cfg fl (lookupPuts cfg fl id) b none_ P)
    (hsome : ∀ found, (∀ live, found.live = some live →
        ¬ (cfg.large && live.head.flags &&& slotSegment != 0) = true →
        (cfg.large && live.head.flags &&& slotIndexed != 0) = false) →
      Stages cfg fl (lookupPuts cfg fl id) b (some_ found) P) :
    Stages cfg fl (lookupPuts cfg fl id) b
      (quietly (readBucketHdr cfg (cfg.idToBucket id)) >>= fun formatted =>
        if !formatted then none_
        else Buffered.findLiveSlot cfg (cfg.idToBucket id) id >>= some_) P := by
  apply stages_bind (readBucketHdr_stages hid)
  rintro formatted rfl
  cases hhdr : bucketHdrValid (fl (bucketSector (cfg.idToBucket id))) (cfg.idToBucket id) with
  | false => exact hnone
  | true =>
    obtain ⟨es, fin, hl⟩ := exists_bucketLog cfg (fl (bucketSector (cfg.idToBucket id)))
    apply stages_bind (findLiveSlot_stages hv hid hhdr hl)
    rintro found ⟨hfinds, hnative⟩
    apply hsome
    intro live hlive hseg
    refine hinline id live.stored ⟨hid, (notForeign_iff hv hl).mpr hnative, ?_, ?_⟩
    . rw [(hfinds.content hv hl hhdr).1, hlive]
      rfl
    . exact Bool.eq_false_iff.mpr hseg

theorem getImpl_stages (id outSz : Nat) :
    Stages cfg fl (lookupPuts cfg fl id) b (Buffered.getImpl cfg id outSz) fun _ => True := by
  unfold Buffered.getImpl
  apply stages_bind stages_getSt
  rintro st ⟨hm, -⟩
  rw [hm]
  simp only [Bool.not_true, Bool.false_eq_true, if_false]
  apply stages_ite
  . exact fun _ => stages_fail
  . intro hid
    apply lookup_stages hv hinline hid stages_fail
    intro found hfound
    cases hlive : found.live with
    | none => exact stages_fail
    | some live =>
      simp only
      split
      . exact stages_fail
      . next hseg =>
        rw [hfound live hlive hseg]
        simp only [Bool.false_eq_true, if_false]
        split
        . exact stages_fail
        . exact stages_ret trivial

theorem sizeImpl_stages (id : Nat) :
    Stages cfg fl (lookupPuts cfg fl id) b (Buffered.sizeImpl cfg id) fun _ => True := by
  unfold Buffered.sizeImpl
  apply stages_bind stages_getSt
  rintro st ⟨hm, -⟩
  rw [hm]
  simp only [Bool.not_true, Bool.false_eq_true, if_false]
  apply stages_ite
  . exact fun _ => stages_fail
  . intro hid
    apply lookup_stages hv hinline hid stages_fail
    intro found hfound
    cases hlive : found.live with
    | none => exact stages_fail
    | some live =>
      simp only
      split
      . exact stages_fail
      . next hseg =>
        rw [hfound live hlive hseg]
        simp only [Bool.false_eq_true, if_false]
        exact stages_ret trivial

theorem readImpl_stages (id offset len : Nat) :
    Stages cfg fl (lookupPuts cfg fl id) b (Buffered.readImpl cfg id offset len) fun _ => True := by
  unfold Buffered.readImpl
  apply stages_bind stages_getSt
  rintro st ⟨hm, hcache⟩
  rw [hm]
  simp only [Bool.not_true, Bool.false_eq_true, if_false]
  apply stages_ite
  . exact fun _ => stages_fail
  . intro hid
    have hmiss : (cfg.large && st.idxId == id) = false := by
      cases hlarge : cfg.large with
      | false => rfl
      | true =>
        rw [hcache hlarge]
        simpa using fun h => hid h.symm
    rw [hmiss]
    simp only [Bool.false_eq_true, if_false]
    apply lookup_stages hv hinline hid stages_fail
    intro found hfound
    cases hlive : found.live with
    | none => exact stages_fail
    | some live =>
      simp only
      split
      . exact stages_fail
      . next hseg =>
        rw [hfound live hlive hseg]
        simp only [Bool.false_eq_true, if_false]
        exact stages_ret trivial

omit hinline in
theorem existsImpl_stages (id : Nat) :
    Stages cfg fl (lookupPuts cfg fl id) b (Buffered.existsImpl cfg id) fun _ => True := by
  unfold Buffered.existsImpl
  apply stages_bind stages_getSt
  rintro st ⟨hm, -⟩
  rw [hm]
  simp only [Bool.not_true, Bool.false_or]
  split
  . exact stages_ret trivial
  . next hid =>
    have hid : id ≠ 0 := by simpa using hid
    apply stages_bind (stages_attempt (readBucketHdr_stages hid))
    intro formatted hformatted
    cases formatted with
    | error e => exact stages_ret trivial
    | ok formatted =>
      have hformatted := hformatted formatted rfl
      cases formatted with
      | false => exact stages_ret trivial
      | true =>
        obtain ⟨es, fin, hl⟩ := exists_bucketLog cfg (fl (bucketSector (cfg.idToBucket id)))
        apply stages_bind (stages_attempt (findLiveSlot_stages hv hid hformatted.symm hl))
        intro found _
        cases found with
        | error e => exact stages_ret trivial
        | ok found =>
          simp only
          cases found.live <;> exact stages_ret trivial

omit hv hinline in
theorem tail_reads {w : World} (h : w.readFaults = []) :
    { w with readFaults := w.readFaults.tail } = w := by
  cases w
  cases h
  rfl

omit hv hinline in
theorem forEachLiveSlot_count (n cursor total : Nat) (buf : Sector) (w : World) :
    ∃ total', forEachLiveSlot cfg countVisitor n cursor total buf w = (.ok (0, total', buf), w) := by
  induction n generalizing cursor total with
  | zero => exact ⟨total, rfl⟩
  | succ n ih =>
    unfold forEachLiveSlot
    split
    . exact ⟨total, rfl⟩
    . split
      . exact ih _ _
      . extract_lets superseded internal
        split
        . exact ih _ _
        . exact ih _ _

omit hv hinline in
theorem countFrom_last (n bid total : Nat) (buf : Sector) (w : World) (hrf : w.readFaults = []) :
    ∃ total', countFrom cfg (n + 1) bid total buf w =
      (.ok (total', w.flash (bucketSector (bid + n))), w) := by
  induction n generalizing bid total buf with
  | zero =>
    unfold countFrom
    rw [Proc.bind_ok (attempt_readBucket bid w)]
    rw [tail_reads hrf, hrf]
    simp only [List.headD_nil, Bool.false_eq_true, if_false]
    split
    . exact ⟨total, rfl⟩
    . obtain ⟨total', hwalk⟩ := @forEachLiveSlot_count cfg cfg.pebSize bucketDataOff total
        (w.flash (bucketSector bid)) w
      rw [Proc.bind_ok hwalk]
      exact ⟨total', rfl⟩
  | succ n ih =>
    rw [countFrom, Proc.bind_ok (attempt_readBucket bid w)]
    rw [tail_reads hrf, hrf]
    simp only [List.headD_nil, Bool.false_eq_true, if_false]
    have hnext : bid + (n + 1) = bid + 1 + n := by omega
    rw [hnext]
    split
    . exact ih _ _ _
    . obtain ⟨total', hwalk⟩ := @forEachLiveSlot_count cfg cfg.pebSize bucketDataOff total
        (w.flash (bucketSector bid)) w
      rw [Proc.bind_ok hwalk]
      exact ih _ _ _

omit hinline in
theorem countImpl_stages :
    Stages cfg fl (ReadOp.count.puts cfg fl) b (Buffered.countImpl cfg) fun _ => True := by
  intro s hs _
  have hpos : cfg.nBuckets = cfg.nBuckets - 1 + 1 := by
    have := idToBucket_lt hv 0
    omega
  obtain ⟨total, hcount⟩ := @countFrom_last cfg (cfg.nBuckets - 1) 0 0 s.buf s.world
    hs.1.1.reads
  have hrun : countImpl cfg s.buf s.world =
      (.ok (total, fl (bucketSector (cfg.nBuckets - 1))), s.world) := by
    unfold countImpl
    rw [Proc.bind_ok (show getSt s.world = (.ok s.world.st, s.world) from rfl), hs.1.1.mounted]
    simp only [Bool.not_true, Bool.false_eq_true, if_false]
    rw [hpos, hcount, hs.1.2]
    simp
  show Post.Holds _ (counted s.buf (countImpl cfg s.buf s.world))
  rw [hrun]
  exact ⟨trivial, hs.1, fun j => .inr rfl⟩

theorem ReadOp.run_stages (op : ReadOp) :
    Stages cfg fl (op.puts cfg fl) b (op.run cfg) fun _ => True := by
  cases op with
  | get id outSz =>
    exact stages_bind (stages_readRc (getImpl_stages hv hinline _ _)) fun _ _ => stages_ret trivial
  | size id =>
    exact stages_bind (stages_readRc (sizeImpl_stages hv hinline _)) fun _ _ => stages_ret trivial
  | read id offset len =>
    exact stages_bind (stages_readRc (readImpl_stages hv hinline _ _ _)) fun _ _ =>
      stages_ret trivial
  | «exists» id => exact stages_bind (existsImpl_stages hv _) fun _ _ => stages_ret trivial
  | count => exact stages_bind (countImpl_stages hv) fun _ _ => stages_ret trivial

end

/-! Callbacks -/

-- The answer to a call outside an iteration. Power is not lost while the library reads.
def ReadOp.answer (cfg : Cfg) (op : ReadOp) (w : World) : Except Errno Value × World :=
  match op.plain cfg w with
  | (.ok v, w') => (.ok v, w')
  | (.err e, w') => (.error e, w')
  | (.cut, w') => (.error Errno.EIO, w')

-- What a callback comes to when its calls are answered as they are outside an iteration.
def Script.result {σ : Type} (cfg : Cfg) : Script σ → World → σ × World
  | .done result, w => (result, w)
  | .call op next, w => (next (op.answer cfg w).1).result cfg (op.answer cfg w).2

-- No call of the callback changes the bytes of bucket `bid` from `lim` on that the buffer holds.
def Script.Spares {σ : Type} (cfg : Cfg) (bid lim : Nat) : Script σ → World → Prop
  | .done _, _ => True
  | .call op next, w =>
    (∀ j v, lim ≤ j → op.puts cfg w.flash j v → v = w.flash (bucketSector bid) j) ∧
      (next (op.answer cfg w).1).Spares cfg bid lim (op.answer cfg w).2

-- The callback spares, at each slot it is handed, what follows the slot in the bucket.
def Undisturbed {σ : Type} (cfg : Cfg) (cb : σ → Nat → List UInt8 → Script σ) :
    List (Nat × Entry) → σ → World → Prop
  | [], _, _ => True
  | (bid, x) :: rest, user, w =>
    let script := cb user x.head.id x.payload
    script.Spares cfg bid (x.off + x.size cfg) w ∧
      Undisturbed cfg cb rest (script.result cfg w).1 (script.result cfg w).2

section

variable {cfg : Cfg} {fl : Flash} {σ : Type}

theorem play_spares (hv : cfg.Valid) (hinline : AllInline cfg fl) {bid lim : Nat} (script : Script σ)
    {w : World} {buf : Sector} (hw : Reading (Ready cfg fl) fl w) (hs : script.Spares cfg bid lim w)
    (hbuf : ∀ j, lim ≤ j → buf j = fl (bucketSector bid) j) :
    ∃ buf', script.play cfg ⟨w, buf⟩ =
        (.ok (script.result cfg w).1, ⟨(script.result cfg w).2, buf'⟩) ∧
      (∀ j, lim ≤ j → buf' j = fl (bucketSector bid) j) ∧
      Reading (Ready cfg fl) fl (script.result cfg w).2 := by
  induction script generalizing w buf with
  | done result => exact ⟨buf, rfl, hbuf, hw⟩
  | call op next ih =>
    obtain ⟨hspares, hnext⟩ := hs
    rw [hw.2] at hspares
    have hstage := ReadOp.run_stages (b := buf) hv hinline op ⟨w, buf⟩ ⟨hw, fun _ => .inl rfl⟩ trivial
    obtain ⟨hout, hworld⟩ := ReadOp.run_erases cfg op ⟨w, buf⟩
    -- the buffer after the call still holds the bucket from `lim` on
    have hkept : ∀ buf', Changes (op.puts cfg fl) buf buf' →
        ∀ j, lim ≤ j → buf' j = fl (bucketSector bid) j := by
      intro buf' hc j hj
      rcases hc j with h | h
      . rw [h, hbuf j hj]
      . exact hspares j _ hj h
    unfold Script.play Script.result
    rw [Proc.bind_run, Proc.attempt_run]
    unfold ReadOp.answer at hnext ⊢
    generalize op.run cfg ⟨w, buf⟩ = r at hstage hout hworld
    obtain ⟨o, t⟩ := r
    have hplain : op.plain cfg w = (o, t.world) := Prod.ext hout.symm hworld.symm
    rw [hplain] at hnext ⊢
    cases o with
    | ok v => exact ih (.ok v) hstage.2.1 hnext (hkept t.buf hstage.2.2)
    | err e => exact ih (.error e) hstage.1 hnext (hkept t.buf hstage.2)
    | cut => exact hstage.elim

theorem scripted_spec (hv : cfg.Valid) (hinline : AllInline cfg fl)
    {cb : σ → Nat → List UInt8 → Script σ} {vs : List (Nat × List UInt8)} {bid : Nat} {x : Entry}
    {rest : List (Nat × Entry)} {user : σ × List (Nat × List UInt8)} {buf : Sector} {rf : List Bool}
    (hbuf : ∀ j, x.off ≤ j → buf j = fl (bucketSector bid) j) :
    Spec (History AnyEvent)
      (fun w => (user.2 ++ ((bid, x) :: rest).map (fun s => s.2.visit) = vs ∧
        Undisturbed cfg cb ((bid, x) :: rest) user.1 w ∧ Ready cfg fl w) ∧ w.flash = fl ∧
        w.readFaults = rf)
      (scripted cfg cb user x.head.id x.payload buf)
      ⟨fun r w => r.1 = 0 ∧ (∀ j, x.off + x.size cfg ≤ j → r.2.2 j = fl (bucketSector bid) j) ∧
        (r.2.1.2 ++ rest.map (fun s => s.2.visit) = vs ∧ Undisturbed cfg cb rest r.2.1.1 w ∧
          Ready cfg fl w) ∧ w.flash = fl ∧ w.readFaults = rf, fun _ _ => False, fun _ => False⟩ := by
  rintro w ⟨⟨hseen, ⟨hspares, hrest⟩, hready⟩, hflash, hrf⟩ _
  have hbuf' : ∀ j, x.off + x.size cfg ≤ j → buf j = fl (bucketSector bid) j :=
    fun j hj => hbuf j (by omega)
  obtain ⟨buf', hplay, hkept, hready'⟩ :=
    play_spares hv hinline (cb user.1 x.head.id x.payload) ⟨hready, hflash⟩ hspares hbuf'
  have hon : onBuffer ((cb user.1 x.head.id x.payload).play cfg) buf w =
      (.ok (((cb user.1 x.head.id x.payload).result cfg w).1, buf'),
        ((cb user.1 x.head.id x.payload).result cfg w).2) := by
    show handBack ((cb user.1 x.head.id x.payload).play cfg ⟨w, buf⟩) = _
    rw [hplay]
    rfl
  unfold scripted
  rw [Proc.bind_ok hon]
  refine ⟨rfl, hkept, ⟨?_, hrest, hready'.1⟩, hready'.2, ?_⟩
  . rw [← hseen]
    simp [Entry.visit]
  . rw [hready'.1.reads, ← hrf, hready.reads]

-- The index cache, if it is set, is that of a large object.
def CacheTrue (cfg : Cfg) (w : World) : Prop :=
  cfg.large = true → w.st.idxId ≠ 0 → ∃ s, Visible cfg w.flash w.st.idxId s ∧ s.indexed cfg = true

-- The iteration returns. It has handed out each id that `get` finds once, with what `get` returns,
-- unless a foreign slot stopped it.
structure NestedAgrees (cfg : Cfg) (cb : σ → Nat → List UInt8 → Script σ) (user : σ) (w : World) :
    Prop where
  visits : ∀ r result seen,
    (iterateImpl cfg (scripted cfg cb) (user, []) w).1 = .ok (r, result, seen) →
    r = 0 ∧ (seen.map Prod.fst).Nodup ∧
      ∀ id payload, (id, payload) ∈ seen ↔ GetGives cfg w id payload
  stops : ∀ e, (iterateImpl cfg (scripted cfg cb) (user, []) w).1 = .err e → MeetsForeign cfg w
  returns : (iterateImpl cfg (scripted cfg cb) (user, []) w).1 ≠ .cut

-- No large object is live, and none of the calls the callback makes changes the part of the buffer
-- that the iteration has still to walk.
structure Considerate (cfg : Cfg) (cb : σ → Nat → List UInt8 → Script σ) (user : σ) (w : World) :
    Prop where
  inline : AllInline cfg w.flash
  spares : Undisturbed cfg cb (stopsFrom cfg w.flash [] cfg.nBuckets 0).1 user w

end

-- Payloads that end before the rest of the bucket begins disturb nothing.
theorem lookup_spares_of_short {cfg : Cfg} {fl : Flash} {id lim bid : Nat}
    (h : ∀ y ∈ bucketEntries cfg (fl (bucketSector (cfg.idToBucket id))), y.head.id = id →
      y.payload.length ≤ lim) :
    ∀ j v, lim ≤ j → lookupPuts cfg fl id j v → v = fl (bucketSector bid) j := by
  rintro j v hj ⟨y, hy, hlen, -⟩
  have := h y hy.mem hy.id_eq
  omega

def nestedRun : List Call :=
  [{ op := .format }, { op := .allocId }, { op := .allocId },
    { op := .update 2 (List.replicate 40 7) }, { op := .update 3 [4] }]

def nestedStore : World := (runCalls smallDevice (World.fresh blankFlash) nestedRun).2

-- A callback that asks for one object, whatever it is handed.
def asksFor (id : UInt64) : Unit → Nat → List UInt8 → Script Unit :=
  fun _ _ _ => .call (.get id 64) fun _ => .done ()

theorem asksFor_considerate : Considerate smallDevice (asksFor 3) () nestedStore := by
  have hstops : (stopsFrom smallDevice nestedStore.flash [] smallDevice.nBuckets 0).1 =
      [16, 32, 88].map fun off => (0, entryAt (nestedStore.flash 3) off) := by
    decide +kernel
  constructor
  . exact fun _ _ _ => rfl
  . rw [hstops]
    refine ⟨⟨lookup_spares_of_short ?_, trivial⟩, ⟨lookup_spares_of_short ?_, trivial⟩,
      ⟨lookup_spares_of_short ?_, trivial⟩, trivial⟩
    . decide +kernel
    . decide +kernel
    . decide +kernel

end KeyValueDb.BlobDb
