import KeyValueDb.BlobDb.IndexTable
import KeyValueDb.BlobDb.Picks
import KeyValueDb.BlobDb.Iteration

/-!
The steps of a mount that meet no fault: each of them gets where it should, and nothing but a fault
stops it. What is said of a step holds under a condition `k`, so that the same statements also tell
how a step can fail.
-/

namespace KeyValueDb.BlobDb

-- Where `k` holds, the device does what it is asked.
def Calmly (k : Prop) (w : World) : Prop := k → w.faults = [] ∧ w.readFaults = []

-- From `P` a step gets to `Q`. It never refuses the store, and nothing but a fault stops it.
abbrev Advances (k : Prop) (P : World → Prop) {α : Type} (x : M α) (Q : α → World → Prop) : Prop :=
  Spec (History AnyEvent) (fun w => Calmly k w ∧ P w) x
    ⟨fun a w => Calmly k w ∧ Q a w, fun e _ => e ≠ .ENOTSUP ∧ ¬ k, fun _ => ¬ k⟩

section

variable {k : Prop} {P P' : World → Prop} {α β : Type}

theorem Advances.ret {a : α} {Q : α → World → Prop} (h : ∀ w, P w → Q a w) :
    Advances k P (pure a) Q :=
  Spec.ret fun w hw => ⟨hw.1, h w hw.2⟩

theorem Advances.fail {e : Errno} {Q : α → World → Prop} (he : e ≠ .ENOTSUP)
    (h : ∀ w, P w → ¬ k) : Advances k P (Proc.fail e) Q :=
  Spec.fail fun w hw => ⟨he, h w hw.2⟩

theorem Advances.bind {x : M α} {f : α → M β} {Q : α → World → Prop} {R : β → World → Prop}
    (hx : Advances k P x Q) (hf : ∀ a, Advances k (Q a) (f a) R) : Advances k P (x >>= f) R :=
  Spec.bind hx hf (fun _ _ h => h) (fun _ h => h)

theorem Advances.conseq {x : M α} {Q R : α → World → Prop} (hx : Advances k P x Q)
    (hpre : ∀ w, P' w → P w) (hpost : ∀ a w, Q a w → R a w) : Advances k P' x R :=
  Spec.conseq hx (fun w hw => ⟨hw.1, hpre w hw.2⟩) (fun a w hw => ⟨hw.1, hpost a w hw.2⟩)
    (fun _ _ h => h) fun _ h => h

theorem Advances.assuming {x : M α} {Q : α → World → Prop} {φ : Prop} (hφ : ∀ w, P w → φ)
    (h : φ → Advances k P x Q) : Advances k P x Q :=
  Spec.assuming (fun w hw => hφ w hw.2) h

-- An error that is caught was a fault.
theorem Advances.caught {x : M α} {f : Except Errno α → M β} {Q : α → World → Prop}
    {R : β → World → Prop} (hx : Advances k P x Q) (hok : ∀ a, Advances k (Q a) (f (.ok a)) R)
    (herr : ∀ e, e ≠ .ENOTSUP → ¬ k → Advances k (fun _ => True) (f (.error e)) R) :
    Advances k P (Proc.attempt x >>= f) R := by
  apply (Spec.attempt hx).bind
  . intro r
    cases r with
    | ok a => exact hok a
    | error e =>
      apply Spec.assuming (φ := e ≠ .ENOTSUP ∧ ¬ k)
      . exact fun _ h => h
      rintro ⟨he, hk⟩
      exact Spec.pre (herr e he hk) fun w _ => ⟨fun h => absurd h hk, trivial⟩
  . exact fun _ _ h => h.elim
  . exact fun _ h => h

theorem storeMutate_advances {sector : Nat} {r : Request} {Q : Unit → World → Prop}
    (h : ∀ w, P w → w.nextFault = .none → Q () (w.mutate sector r)) :
    Advances k P (storeMutate sector r) Q := by
  have hcalm : ∀ w, Calmly k w → w.nextFault ≠ .none → ¬ k := by
    intro w hw hf hk
    unfold World.nextFault at hf
    rw [(hw hk).1] at hf
    exact hf rfl
  apply storeMutate_spec
  . rintro w ⟨hw, hp⟩ hf -
    refine ⟨fun hk => ⟨?_, (hw hk).2⟩, h w hp hf⟩
    show w.faults.tail = []
    rw [(hw hk).1]
    rfl
  . rintro w part upper ⟨hw, hp⟩ hf -
    exact ⟨by decide, hcalm w hw (by rw [hf]; exact Fault.noConfusion)⟩
  . rintro w part upper ⟨hw, hp⟩ hf -
    exact hcalm w hw (by rw [hf]; exact Fault.noConfusion)

theorem readFlash_advances {f : Flash → α} {Q : α → World → Prop}
    (h : ∀ w, P w → Q (f w.flash) { w with readFaults := w.readFaults.tail }) :
    Advances k P (readFlash f) Q := by
  rintro w ⟨hw, hp⟩ -
  have hrun : readFlash f w = (if w.readFaults.headD false then .err Errno.EIO else .ok (f w.flash),
    { w with readFaults := w.readFaults.tail }) := rfl
  rw [hrun]
  split
  . next hf =>
    refine ⟨by decide, fun hk => ?_⟩
    rw [(hw hk).2] at hf
    cases hf
  . refine ⟨fun hk => ⟨(hw hk).1, ?_⟩, h w hp⟩
    show w.readFaults.tail = []
    rw [(hw hk).2]
    rfl

theorem modifySt_advances {f : St → St} {Q : Unit → World → Prop}
    (h : ∀ w, P w → Q () { w with st := f w.st }) : Advances k P (modifySt f) Q :=
  modifySt_spec fun w hw => ⟨hw.1, h w hw.2⟩

theorem getSt_advances {f : St → M α} {Q : α → World → Prop}
    (h : ∀ st, Advances k (fun w => w.st = st ∧ P w) (f st) Q) : Advances k P (getSt >>= f) Q := by
  apply getSt_bind
  intro st
  exact Spec.pre (h st) fun w hw => ⟨hw.2.1, hw.1, hw.2.2⟩

theorem Advances.when {c : Bool} {x : M Unit} {Q : Unit → World → Prop} (hno : ∀ w, P w → Q () w)
    (hx : c = true → Advances k P x Q) : Advances k P (Proc.when c x) Q := by
  unfold Proc.when
  split
  . next h => exact hx h
  . exact Advances.ret hno

theorem modifySidx_advances {cfg : Cfg} {f : SlotIndex → SlotIndex} {Q : Unit → World → Prop}
    (hno : ∀ w, P w → Q () w)
    (h : ∀ w, P w → Q () { w with st := { w.st with sidx := f w.st.sidx } }) :
    Advances k P (modifySidx cfg f) Q := by
  unfold modifySidx
  split
  . exact modifySt_advances h
  . exact Advances.ret hno

theorem storeReplace_advances {cfg : Cfg} {sector : Nat} {data : List UInt8}
    {Q : Unit → World → Prop}
    (hatomic : ∀ w, P w → w.nextFault = .none → Q () (w.mutate sector (.replace data)))
    (h : ∀ w, P w → w.nextFault = .none → (w.mutate sector .erase).nextFault = .none →
      Q () ((w.mutate sector .erase).mutate sector (.write 0 data))) :
    Advances k P (storeReplace cfg sector data) Q := by
  unfold storeReplace
  split
  . exact storeMutate_advances hatomic
  . have herase : Advances k P (storeErase sector)
        fun _ w => ∃ w₀, P w₀ ∧ w₀.nextFault = .none ∧ w = w₀.mutate sector .erase :=
      storeMutate_advances fun w hw hf => ⟨w, hw, hf, rfl⟩
    apply herase.bind
    intro _
    apply storeMutate_advances
    rintro _ ⟨w, hw, hf, rfl⟩ hf'
    exact h w hw hf hf'

end

/-! Commits -/

-- The buckets are those of `f`; at least `n` events happened; `r` more rotations are possible.
structure Committed (k : Prop) (f : Flash) (X : SlotIndex → Prop) (n r : Nat) (w : World) : Prop where
  buckets : ∀ s, firstBucket ≤ s → w.flash s = f s
  index : X w.st.sidx
  wrote : n ≤ w.history.length
  active : w.st.activeMaster ≤ 1
  room : k → w.st.rotGen + r < 2 ^ 32

section

variable {cfg : Cfg} {k : Prop} {f : Flash} {X : SlotIndex → Prop} {n r : Nat} {w : World}

theorem Committed.mono {m q : Nat} (h : Committed k f X n r w) (hm : m ≤ n) (hq : q ≤ r) :
    Committed k f X m q w :=
  ⟨h.buckets, h.index, le_trans hm h.wrote, h.active, fun hk => by have := h.room hk; omega⟩

theorem Committed.ram {st : St} (h : Committed k f X n r w) (hs : st.sidx = w.st.sidx)
    (ha : st.activeMaster = w.st.activeMaster) (hr : st.rotGen = w.st.rotGen) :
    Committed k f X n r { w with st := st } :=
  ⟨h.buckets, by rw [hs]; exact h.index, h.wrote, by rw [ha]; exact h.active, by
    intro hk
    rw [hr]
    exact h.room hk⟩

theorem Committed.mutate {sector : Nat} {q : Request} (h : Committed k f X n r w)
    (hs : sector < firstBucket) : Committed k f X (n + 1) r (w.mutate sector q) := by
  refine ⟨?_, h.index, ?_, h.active, h.room⟩
  . intro s hle
    rw [mutate_other (by omega)]
    exact h.buckets s hle
  . rw [World.mutate_history, List.length_cons]
    have := h.wrote
    omega

theorem storeReplace_committed {slot : Nat} (hs : slot ≤ 1) (data : List UInt8) :
    Advances k (Committed k f X n r) (storeReplace cfg slot data)
      fun _ => Committed k f X (n + 1) r := by
  have hlt : slot < firstBucket := by
    unfold firstBucket
    omega
  apply storeReplace_advances
  . exact fun w h _ => h.mutate hlt
  . exact fun w h _ _ => ((h.mutate hlt).mutate hlt).mono (by omega) le_rfl

theorem masterRotate_committed (rec : MasterRec) :
    Advances k (Committed k f X n (r + 1)) (masterRotate cfg rec)
      fun _ => Committed k f X (n + 1) r := by
  unfold masterRotate
  apply getSt_advances
  intro st
  simp only
  split
  . next hfull =>
    apply Advances.fail (by decide)
    rintro w ⟨rfl, h⟩ hk
    have := h.room hk
    omega
  . have hother : 1 - st.activeMaster ≤ 1 := by omega
    have hwrite : Advances k (fun w => w.st = st ∧ Committed k f X n (r + 1) w)
        (masterWriteSector cfg (1 - st.activeMaster) (st.rotGen + 1) rec)
        fun _ => Committed k f X (n + 1) (r + 1) := by
      unfold masterWriteSector
      apply getSt_advances
      intro st'
      exact (storeReplace_committed hother _).conseq (fun w h => h.2.2) fun _ _ h => h
    apply hwrite.bind
    intro _
    apply modifySt_advances
    intro w h
    refine ⟨h.buckets, h.index, h.wrote, hother, fun hk => ?_⟩
    have := h.room hk
    show w.st.rotGen + 1 + r < 2 ^ 32
    omega

theorem masterAppend_committed (rec : MasterRec) :
    Advances k (Committed k f X n r) (masterAppend cfg rec)
      fun _ => Committed k f X (n + 1) r := by
  unfold masterAppend
  apply getSt_advances
  intro st
  have hwrite : Advances k (fun w => w.st = st ∧ Committed k f X n r w)
      (storeWrite st.activeMaster (masterRecOff cfg st.logNext)
        (masterRecImage cfg st.rotGen st.logNext rec)) fun _ => Committed k f X (n + 1) r := by
    apply storeMutate_advances
    rintro w ⟨rfl, h⟩ _
    apply h.mutate
    have := h.active
    unfold firstBucket
    omega
  apply hwrite.caught
  . intro _
    have hnext : Advances k (Committed k f X (n + 1) r)
        (modifySt fun st => { st with logNext := st.logNext + 1 })
        fun _ => Committed k f X (n + 1) r := modifySt_advances fun w h => h.ram rfl rfl rfl
    exact hnext.bind fun _ => Advances.ret fun _ h => h
  . intro e he hk
    have hstep : ∀ g : St → St, Advances k (fun _ => True) (modifySt g) fun _ _ => True :=
      fun g => modifySt_advances fun _ _ => trivial
    refine (hstep _).bind fun _ => ?_
    exact (hstep _).bind fun _ => Advances.fail he fun _ _ => hk

theorem masterCommitHow_committed (forceRotate : Bool) :
    Advances k (Committed k f X n (r + 1)) (masterCommitHow cfg forceRotate)
      fun _ => Committed k f X (n + 1) r := by
  unfold masterCommitHow
  apply getSt_advances
  intro st
  have hhow : Advances k (fun w => w.st = st ∧ Committed k f X n (r + 1) w)
      (if forceRotate || (st.logFailed || cfg.logCap ≤ st.logNext) then
        masterRotate cfg (masterRecFill st) else masterAppend cfg (masterRecFill st))
      fun _ => Committed k f X (n + 1) r := by
    split
    . exact (masterRotate_committed _).conseq (fun w h => h.2) fun _ _ h => h
    . exact (masterAppend_committed _).conseq (fun w h => h.2.mono le_rfl (by omega)) fun _ _ h => h
  apply hhow.caught
  . intro _
    have hreset : Advances k (Committed k f X (n + 1) r)
        (modifySt fun st => { st with ceilingReset := false })
        fun _ => Committed k f X (n + 1) r := modifySt_advances fun w h => h.ram rfl rfl rfl
    apply hreset.bind
    intro _
    exact modifySt_advances fun w h => h.ram rfl rfl rfl
  . intro e he hk
    have hstep : ∀ g : St → St, Advances k (fun _ => True) (modifySt g) fun _ _ => True :=
      fun g => modifySt_advances fun _ _ => trivial
    exact (hstep _).bind fun _ => Advances.fail he fun _ _ => hk

theorem persistSegOwner_committed (owner : Nat) :
    Advances k (Committed k f X n (r + 1)) (persistSegOwner cfg owner)
      fun _ => Committed k f X n r := by
  unfold persistSegOwner
  apply getSt_advances
  intro st
  split
  . exact Advances.ret fun w h => h.2.mono le_rfl (by omega)
  . have hset : Advances k (fun w => w.st = st ∧ Committed k f X n (r + 1) w)
        (modifySt fun st => { st with segOwner := owner }) fun _ => Committed k f X n (r + 1) :=
      modifySt_advances fun w h => h.2.ram rfl rfl rfl
    apply hset.bind
    intro _
    apply (masterCommitHow_committed false).caught
    . exact fun _ => Advances.ret fun w h => h.mono (by omega) le_rfl
    . intro e he hk
      have hback : Advances k (fun _ => True)
          (modifySt fun s => { s with segOwner := st.segOwner }) fun _ _ => True :=
        modifySt_advances fun _ _ => trivial
      exact hback.bind fun _ => Advances.fail he fun _ _ => hk

theorem finishUpgrade_committed (active : MasterHdr) :
    Advances k (Committed k f X n (r + 2)) (finishUpgrade cfg active)
      fun _ => Committed k f X (n + 1) r := by
  unfold finishUpgrade
  apply (masterCommitHow_committed true).bind
  intro _
  apply getSt_advances
  intro st
  apply Advances.when
  . exact fun w h => h.2.mono le_rfl (by omega)
  . intro _
    exact (masterCommitHow_committed true).conseq (fun w h => h.2)
      fun _ w h => h.mono (by omega) le_rfl

theorem endDoubt_committed (scanIds endByRotation rotated : Bool) :
    Advances k (Committed k f X n (r + 1)) (endDoubt cfg scanIds endByRotation rotated)
      fun _ => Committed k f X (if scanIds && !rotated then n + 1 else n) r := by
  unfold endDoubt
  split
  . split
    . exact masterCommitHow_committed true
    . exact masterCommitHow_committed false
  . exact Advances.ret fun w h => h.mono le_rfl (by omega)

end

/-! The slot index and the scan for ids -/

-- The slot index, where the build has one, knows nothing of bucket `bid`.
def Unknown (cfg : Cfg) (bid : Nat) (t : SlotIndex) : Prop :=
  cfg.slotIndex = true → t.cursorOf bid = none

section

variable {cfg : Cfg} {k : Prop} {f : Flash} {X Y : SlotIndex → Prop} {n r : Nat} {w : World}

theorem Committed.reindex {t : SlotIndex} (h : Committed k f X n r w) (ht : Y t) :
    Committed k f Y n r { w with st := { w.st with sidx := t } } :=
  ⟨h.buckets, ht, h.wrote, h.active, h.room⟩

theorem Committed.read {rf : List Bool} (h : Committed k f X n r w) :
    Committed k f X n r { w with readFaults := rf } :=
  ⟨h.buckets, h.index, h.wrote, h.active, h.room⟩

theorem bucketSector_ge (bid : Nat) : firstBucket ≤ bucketSector bid := Nat.le_add_right _ _

-- What is read of a bucket is what lies there.
theorem readBucket_committed {α : Type} {bid off len : Nat} {g : List UInt8 → M α}
    {Q : α → World → Prop}
    (hg : Advances k (Committed k f X n r) (g (bytesAt (f (bucketSector bid)) off len)) Q) :
    Advances k (Committed k f X n r) (storeRead (bucketSector bid) off len >>= g) Q := by
  have hread : Advances k (Committed k f X n r) (storeRead (bucketSector bid) off len)
      fun a w => a = bytesAt (f (bucketSector bid)) off len ∧ Committed k f X n r w := by
    apply readFlash_advances
    intro w h
    rw [h.buckets _ (bucketSector_ge bid)]
    exact ⟨rfl, h.read⟩
  apply hread.bind
  intro raw
  apply Advances.assuming
  . exact fun _ h => h.1
  rintro rfl
  exact hg.conseq (fun _ h => h.2) fun _ _ h => h

theorem sidx_committed {g : SlotIndex → SlotIndex} (hno : cfg.slotIndex = false → ∀ t, X t → Y t)
    (hg : cfg.slotIndex = true → ∀ t, X t → Y (g t)) :
    Advances k (Committed k f X n r) (modifySidx cfg g) fun _ => Committed k f Y n r := by
  unfold modifySidx
  split
  . next h => exact modifySt_advances fun w hw => hw.reindex (hg h _ hw.index)
  . next h =>
    exact Advances.ret fun w hw =>
      ⟨hw.buckets, hno (by simpa using h) _ hw.index, hw.wrote, hw.active, hw.room⟩

theorem slotHdrAt_short (g : Sector) (off : Nat) :
    (slotHdrAt (image (bytesAt g off 4)) 0).flags = (slotHdrAt g off).flags ∧
      (slotHdrAt (image (bytesAt g off 4)) 0).valLen = (slotHdrAt g off).valLen := by
  have h0 : image (bytesAt g off 4) 0 = g off := image_bytesAt (by decide)
  have h2 : bytesAt (image (bytesAt g off 4)) 2 2 = bytesAt g (off + 2) 2 :=
    bytesAt_image (by decide)
  refine ⟨h0, ?_⟩
  show leAt (image (bytesAt g off 4)) (0 + 2) 2 = leAt g (off + 2) 2
  unfold leAt
  rw [Nat.zero_add, h2]

theorem note_unknown (b bid id off size : Nat) (tombstone : Bool) :
    Advances k (Committed k f (Unknown cfg b) n r) (sidxNote cfg bid id off size tombstone)
      fun _ => Committed k f (Unknown cfg b) n r :=
  sidx_committed (fun _ _ h => h) fun hsi _ ht _ => note_cursor _ _ _ _ (ht hsi)

-- What the index does not know of a bucket it does not learn from a scan that meets it later, nor
-- from one of another bucket.
theorem scanBucketIds_unknown (b bid m cursor maxId : Nat) :
    Advances k (Committed k f (Unknown cfg b) n r) (scanBucketIds cfg bid m cursor maxId)
      fun _ => Committed k f (Unknown cfg b) n r := by
  induction m generalizing cursor maxId with
  | zero => exact Advances.ret fun _ h => h
  | succ m ih =>
    unfold scanBucketIds
    split
    . exact Advances.ret fun _ h => h
    . apply readBucket_committed
      simp only
      split
      . exact Advances.ret fun _ h => h
      . have hforget : ∀ c, Advances k (Committed k f (Unknown cfg b) n r)
            (Proc.when c (sidxForget cfg bid)) fun _ => Committed k f (Unknown cfg b) n r := by
          intro c
          apply Advances.when
          . exact fun _ h => h
          . intro _
            apply sidx_committed (fun _ _ h => h)
            intro hsi t ht hsi'
            rw [forget_cursor, ht hsi]
            exact ite_self _
        apply (hforget _).bind
        intro _
        split
        . exact Advances.ret fun _ h => h
        . apply readBucket_committed
          apply (note_unknown _ _ _ _ _ _).bind
          intro _
          exact ih _ _

-- A scan that meets a foreign slot forgets the bucket.
theorem scanBucketIds_foreign {bid cursor fin m : Nat} {es : List Entry} (maxId : Nat)
    (hp : Path cfg (f (bucketSector bid)) cursor es fin)
    (hforeign : slotForeignAt cfg (f (bucketSector bid)) fin = true) (hm : es.length < m) :
    Advances k (Committed k f X n r) (scanBucketIds cfg bid m cursor maxId)
      fun _ => Committed k f (Unknown cfg bid) n r := by
  induction hp generalizing m maxId X with
  | nil off =>
    cases m with
    | zero => exact absurd hm (by simp)
    | succ m =>
      unfold scanBucketIds
      have hroom : ¬ cfg.pebSize < off + slotOverhead := by
        intro hlt
        unfold slotForeignAt at hforeign
        rw [if_pos hlt] at hforeign
        cases hforeign
      rw [slotForeignAt_eq (by omega)] at hforeign
      simp only [slotForeignHead, Bool.and_eq_true, bne_iff_ne, ne_eq, decide_eq_true_eq] at hforeign
      obtain ⟨⟨hff, hsealed, hunknown, hlen, hfits⟩, -⟩ := hforeign
      rw [if_neg hroom]
      apply readBucket_committed
      obtain ⟨hflags, hval⟩ := slotHdrAt_short (f (bucketSector bid)) off
      simp only [hflags, hval]
      rw [if_neg (by simpa using ⟨hff, hsealed, hlen⟩)]
      have hforget : Advances k (Committed k f X n r)
          (Proc.when ((slotHdrAt (f (bucketSector bid)) off).flags &&& ~~~cfg.slotKnown != 0)
            (sidxForget cfg bid)) fun _ => Committed k f (Unknown cfg bid) n r := by
        unfold Proc.when
        rw [if_pos (by simpa using hunknown)]
        apply sidx_committed
        . intro hno t _ hsi
          rw [hno] at hsi
          cases hsi
        . intro _ t _ _
          rw [forget_cursor, if_pos rfl]
      apply hforget.bind
      intro _
      rw [if_neg (by omega)]
      apply readBucket_committed
      apply (note_unknown _ _ _ _ _ _).bind
      intro _
      exact scanBucketIds_unknown _ _ _ _ _
  | @cons off fin es hw rest ih =>
    cases m with
    | zero => exact absurd hm (by simp)
    | succ m =>
      unfold scanBucketIds
      obtain ⟨hroom, hhead, hfits⟩ := walkable_iff.mp hw
      simp only [headEndsLog, Bool.or_eq_false_iff, beq_eq_false_iff_ne, ne_eq, bne_eq_false_iff_eq,
        decide_eq_false_iff_not, Nat.not_lt] at hhead
      obtain ⟨hff, hsealed, hknown, hlen⟩ := hhead
      rw [if_neg (by omega)]
      apply readBucket_committed
      obtain ⟨hflags, hval⟩ := slotHdrAt_short (f (bucketSector bid)) off
      simp only [hflags, hval]
      rw [if_neg (by simpa using ⟨hff, hsealed, hlen⟩)]
      have hnot : Advances k (Committed k f X n r)
          (Proc.when ((slotHdrAt (f (bucketSector bid)) off).flags &&& ~~~cfg.slotKnown != 0)
            (sidxForget cfg bid)) fun _ => Committed k f X n r := by
        unfold Proc.when
        rw [if_neg (by simpa using hknown)]
        exact Advances.ret fun _ h => h
      apply hnot.bind
      intro _
      have hfits : ¬ cfg.pebSize < off + cfg.slotSizeFor (slotHdrAt (f (bucketSector bid)) off).valLen :=
        Nat.not_lt.mpr hfits
      rw [if_neg hfits]
      apply readBucket_committed
      have hnote : ∀ id size tomb, Advances k (Committed k f X n r)
          (sidxNote cfg bid id off size tomb) fun _ => Committed k f (fun _ => True) n r :=
        fun _ _ _ => sidx_committed (fun _ _ _ => trivial) fun _ _ _ => trivial
      apply (hnote _ _ _).bind
      intro _
      refine ih _ hforeign ?_
      simp only [List.length_cons] at hm
      omega

-- A formatted bucket that ends in a foreign slot, and one that does not.
def ClosedBucket (cfg : Cfg) (f : Flash) (bid : Nat) : Prop :=
  bucketHdrValid (f (bucketSector bid)) bid = true ∧ endsForeign cfg (f (bucketSector bid)) = true

def OpenBucket (cfg : Cfg) (f : Flash) (bid : Nat) : Prop :=
  bucketHdrValid (f (bucketSector bid)) bid = true ∧ endsForeign cfg (f (bucketSector bid)) = false

instance (cfg : Cfg) (f : Flash) (bid : Nat) : Decidable (ClosedBucket cfg f bid) :=
  inferInstanceAs (Decidable (_ ∧ _))

theorem endsForeign_iff (hv : cfg.Valid) {g : Sector} {es : List Entry} {fin : Nat}
    (hl : BucketLog cfg g es fin) : endsForeign cfg g = slotForeignAt cfg g fin := by
  unfold endsForeign
  rw [hl.path.logEndFrom hl.stop (hl.length_lt hv)]

theorem scanBucket_unknown (hv : cfg.Valid) {b : Nat} (hb : ¬ OpenBucket cfg f b) (bid maxId : Nat) :
    Advances k (Committed k f (Unknown cfg b) n r) (scanBucket cfg bid maxId)
      fun _ => Committed k f (Unknown cfg b) n r := by
  unfold scanBucket
  apply readBucket_committed
  split
  . exact Advances.ret fun _ h => h
  . next hvalid =>
    by_cases hbid : b = bid
    . subst hbid
      have hsame : bucketHdrValid (image (bytesAt (f (bucketSector b)) 0 bucketDataOff)) b =
          bucketHdrValid (f (bucketSector b)) b := by
        apply bucketHdrValid_congr
        intro j hj
        rw [image_bytesAt hj, Nat.zero_add]
      have hhdr : bucketHdrValid (f (bucketSector b)) b = true := by
        rw [← hsame]
        simpa using hvalid
      obtain ⟨es, fin, hl⟩ := exists_bucketLog cfg (f (bucketSector b))
      have hbegin : Advances k (Committed k f (Unknown cfg b) n r) (sidxBegin cfg b bucketDataOff)
          fun _ => Committed k f (fun _ => True) n r :=
        sidx_committed (fun _ _ _ => trivial) fun _ _ _ => trivial
      apply hbegin.bind
      intro _
      refine scanBucketIds_foreign _ hl.path ?_ (hl.length_lt hv)
      rw [← endsForeign_iff hv hl]
      cases hf : endsForeign cfg (f (bucketSector b)) with
      | true => rfl
      | false => exact absurd ⟨hhdr, hf⟩ hb
    . have hbegin : Advances k (Committed k f (Unknown cfg b) n r) (sidxBegin cfg bid bucketDataOff)
          fun _ => Committed k f (Unknown cfg b) n r := by
        apply sidx_committed (fun _ _ h => h)
        intro hsi t ht _
        rw [begin_cursor _ _ hbid]
        exact ht hsi
      apply hbegin.bind
      intro _
      exact scanBucketIds_unknown _ _ _ _ _

theorem scanBucket_committed (bid maxId : Nat) :
    Advances k (Committed k f (fun _ => True) n r) (scanBucket cfg bid maxId)
      fun _ => Committed k f (fun _ => True) n r := by
  have hsidx : ∀ g, Advances k (Committed k f (fun _ => True) n r) (modifySidx cfg g)
      fun _ => Committed k f (fun _ => True) n r :=
    fun g => sidx_committed (fun _ _ _ => trivial) fun _ _ _ => trivial
  have hids : ∀ m cursor maxId, Advances k (Committed k f (fun _ => True) n r)
      (scanBucketIds cfg bid m cursor maxId) fun _ => Committed k f (fun _ => True) n r := by
    intro m
    induction m with
    | zero => exact fun _ _ => Advances.ret fun _ h => h
    | succ m ih =>
      intro cursor maxId
      unfold scanBucketIds
      split
      . exact Advances.ret fun _ h => h
      . apply readBucket_committed
        simp only
        split
        . exact Advances.ret fun _ h => h
        . refine Advances.bind (Advances.when (fun _ h => h) fun _ => hsidx _) ?_
          intro _
          split
          . exact Advances.ret fun _ h => h
          . apply readBucket_committed
            refine (hsidx _).bind ?_
            intro _
            exact ih _ _
  unfold scanBucket
  apply readBucket_committed
  split
  . exact Advances.ret fun _ h => h
  . refine (hsidx _).bind ?_
    intro _
    exact hids _ _ _

theorem scanBuckets_each (h : ∀ bid maxId, Advances k (Committed k f X n r)
    (scanBucket cfg bid maxId) fun _ => Committed k f X n r) (m bid maxId : Nat) :
    Advances k (Committed k f X n r) (scanBuckets cfg m bid maxId)
      fun _ => Committed k f X n r := by
  induction m generalizing bid maxId with
  | zero => exact Advances.ret fun _ h => h
  | succ m ih =>
    unfold scanBuckets
    apply (h bid maxId).bind
    intro _
    exact ih _ _

-- The scan for ids leaves the index without a word on a bucket that is not open.
theorem doubtScan_committed (hv : cfg.Valid) (b : Nat) :
    Advances k (Committed k f (Unknown cfg b) n r) (doubtScan cfg)
      fun _ => Committed k f (fun t => ¬ OpenBucket cfg f b → Unknown cfg b t) n r := by
  unfold doubtScan
  apply getSt_advances
  intro st
  have hscan : Advances k (fun w => w.st = st ∧ Committed k f (Unknown cfg b) n r w)
      (scanBuckets cfg cfg.nBuckets 0 (st.nextId - 1))
      fun _ => Committed k f (fun t => ¬ OpenBucket cfg f b → Unknown cfg b t) n r := by
    by_cases hopen : OpenBucket cfg f b
    . exact (scanBuckets_each scanBucket_committed _ _ _).conseq
        (fun w h => ⟨h.2.buckets, trivial, h.2.wrote, h.2.active, h.2.room⟩)
        fun _ w h => ⟨h.buckets, fun hno => absurd hopen hno, h.wrote, h.active, h.room⟩
    . exact (scanBuckets_each (scanBucket_unknown hv hopen) _ _ _).conseq (fun _ h => h.2)
        fun _ w h => ⟨h.buckets, fun _ => h.index, h.wrote, h.active, h.room⟩
  apply hscan.bind
  intro maxId
  apply modifySt_advances
  intro w h
  split
  . exact h.ram rfl rfl rfl
  . exact h.ram rfl rfl rfl

/-! The recovery of an interrupted compaction -/

-- The flash as a mount leaves the buckets when it has finished a compaction.
def restored (cfg : Cfg) (fl : Flash) : Flash :=
  match scratchImage cfg (fl scratchSector) with
  | none => fl
  | some (bid, img) => fl.set (bucketSector bid) (program blank 0 img)

theorem scratchSealedBucket_advances {fl : Flash} {G : World → Prop}
    (hG : ∀ w rf, G w → G { w with readFaults := rf }) :
    Advances k (fun w => w.flash = fl ∧ G w) (scratchSealedBucket cfg)
      fun a w => a = scratchImage cfg (fl scratchSector) ∧ w.flash = fl ∧ G w := by
  have hread : ∀ {α : Type} (g : Flash → α), Advances k (fun w => w.flash = fl ∧ G w)
      (readFlash g) fun a w => a = g fl ∧ w.flash = fl ∧ G w := by
    intro α g
    apply readFlash_advances
    rintro w ⟨rfl, h⟩
    exact ⟨rfl, rfl, hG w _ h⟩
  unfold scratchSealedBucket
  apply (hread _).bind
  intro tail
  apply Advances.assuming
  . exact fun _ h => h.1
  rintro rfl
  rw [sealMagicOk_image]
  split
  . next hno =>
    apply Advances.ret
    intro w h
    exact ⟨(scratchImage_of_magic cfg (by simpa using hno)).symm, h.2⟩
  . refine Advances.conseq ?_ (fun w h => h.2) fun _ _ h => h
    apply (hread _).bind
    intro buf
    apply Advances.assuming
    . exact fun _ h => h.1
    rintro rfl
    unfold scratchImage
    cases hvalid : scratchSealValid cfg (fl scratchSector) with
    | none => exact Advances.ret fun w h => ⟨rfl, h.2⟩
    | some len =>
      simp only
      split
      . next hbid => exact Advances.ret fun w h => ⟨rfl, h.2⟩
      . next hbid => exact Advances.ret fun w h => ⟨rfl, h.2⟩

theorem recoverCompaction_advances {fl : Flash} {past : List Event} :
    Advances k (fun w => w.flash = fl ∧ w.history = past ∧ Committed k fl X n r w)
      (recoverCompaction cfg)
      fun _ w => Committed k (restored cfg fl) X n r w ∧
        (Unsealed cfg fl → w.flash = fl ∧ w.history = past) ∧
        (¬ Unsealed cfg fl → n + 1 ≤ w.history.length) := by
  unfold recoverCompaction
  apply (scratchSealedBucket_advances fun w rf h => ⟨h.1, h.2.read⟩).bind
  intro found
  apply Advances.assuming
  . exact fun _ h => h.1
  rintro rfl
  unfold restored Unsealed
  cases hi : scratchImage cfg (fl scratchSector) with
  | none =>
    apply Advances.ret
    intro w h
    exact ⟨h.2.2.2, fun _ => ⟨h.2.1, h.2.2.1⟩, fun hno => absurd rfl hno⟩
  | some found =>
    obtain ⟨bid, img⟩ := found
    have hbucket : firstBucket ≤ bucketSector bid := bucketSector_ge bid
    have herase : Advances k
        (fun w => some (bid, img) = some (bid, img) ∧ w.flash = fl ∧ w.history = past ∧
          Committed k fl X n r w)
        (storeErase (bucketSector bid))
        fun _ => Committed k (fl.set (bucketSector bid) blank) X (n + 1) r := by
      apply storeMutate_advances
      rintro w ⟨-, hfl, -, h⟩ hf
      refine ⟨?_, h.index, ?_, h.active, h.room⟩
      . intro s _
        unfold Flash.set
        split
        . next hs =>
          rw [hs, mutate_whole hf]
          rfl
        . next hs => rw [mutate_other hs, hfl]
      . rw [World.mutate_history, List.length_cons]
        have := h.wrote
        omega
    have hwrite : Advances k (Committed k (fl.set (bucketSector bid) blank) X (n + 1) r)
        (storeWrite (bucketSector bid) 0 img)
        fun _ => Committed k (fl.set (bucketSector bid) (program blank 0 img)) X (n + 1) r := by
      apply storeMutate_advances
      intro w h hf
      refine ⟨?_, h.index, ?_, h.active, h.room⟩
      . intro s hs
        unfold Flash.set
        split
        . next hb =>
          rw [hb, mutate_whole hf, h.buckets _ hbucket]
          simp [Flash.set, Request.whole]
        . next hb =>
          rw [mutate_other hb, h.buckets s hs]
          simp [Flash.set, hb]
      . rw [World.mutate_history, List.length_cons]
        have := h.wrote
        omega
    apply herase.bind
    intro _
    apply hwrite.bind
    intro _
    apply storeMutate_advances
    intro w h hf
    have hend := h.mutate (q := .erase) (show scratchSector < firstBucket by decide)
    exact ⟨hend.mono (by omega) le_rfl, by rintro ⟨⟩, fun _ => le_trans (by omega) hend.wrote⟩

/-! The root -/

theorem calmly_stable (G : World → Prop) (hG : Stable G) : Stable fun w => Calmly k w ∧ G w := by
  rintro w w' q ⟨h, hg⟩
  refine ⟨fun hk => ⟨?_, ?_⟩, hG w w' q hg⟩
  . rw [q.faults]
    exact (h hk).1
  . have := q.reads
    rw [(h hk).2] at this
    exact List.suffix_nil.mp this

theorem calmly_failsTo (G : World → Prop) : FailsTo (fun w => Calmly k w ∧ G w) fun _ => ¬ k := by
  rintro w ⟨h, -⟩ hf hk
  rw [(h hk).2] at hf
  cases hf

theorem findIndexedSlot_native {I C K : World → Prop} {good : Event → Prop} {fl : Flash}
    {E : Errno → Prop} (S : Stable I) (hr : FailsTo I K) (bid id : Nat) :
    Tells good I C fl K (findIndexedSlot cfg bid id) (fun _ => True) E := by
  have hlookup : Tells good I C fl K (sidxLookup cfg bid id) (fun _ => True) E := by
    unfold sidxLookup
    split
    . exact Spec.read fun w h => ⟨trivial, h⟩
    . exact tells_ret trivial
  have hforget : ∀ {α : Type} (a : α), Tells good I C fl K
      (sidxForget cfg bid >>= fun _ => (pure a : M α)) (fun _ => True) E :=
    fun a => tells_bind (sidx_tells S _) fun _ _ => tells_ret trivial
  unfold findIndexedSlot
  apply tells_bind hlookup
  intro hit _
  cases hit with
  | none => exact tells_ret trivial
  | some hit =>
    simp only
    split
    . exact hforget _
    . apply tells_bind (storeRead_tells S.readClosed hr _ _ _)
      intro raw _
      split
      . exact hforget _
      . have hverify : Tells good I C fl K
            (slotVerify bid ⟨hit.1, slotHdrAt (image raw) 0, raw⟩) (fun _ => True) E := by
          unfold slotVerify slotPayload
          have hpay : Tells good I C fl K
              (if 0 < (slotHdrAt (image raw) 0).valLen then
                storeRead (bucketSector bid) (hit.1 + slotHeadLen) (slotHdrAt (image raw) 0).valLen
              else pure []) (fun _ => True) E := by
            split
            . exact tells_mono (storeRead_tells S.readClosed hr _ _ _) (fun _ _ => trivial) fun _ h => h
            . exact tells_ret trivial
          apply tells_bind hpay
          intro payload _
          apply tells_bind (storeRead_tells S.readClosed hr _ _ _)
          intro stored _
          split
          . exact tells_ret trivial
          . exact tells_ret trivial
        apply tells_bind hverify
        intro verified _
        cases verified with
        | none => exact tells_ret trivial
        | some payload =>
          simp only
          split
          . exact tells_ret trivial
          . exact tells_ret trivial

-- A lookup in a bucket without a foreign slot is not refused, whatever the index says.
theorem findLiveSlot_native {I C K : World → Prop} {good : Event → Prop} {fl : Flash}
    (S : Stable I) (hr : FailsTo I K) (hv : cfg.Valid) {bid : Nat}
    (hnative : endsForeign cfg (fl (bucketSector bid)) = false) (id : Nat) :
    Tells good I C fl K (findLiveSlot cfg bid id) (fun _ => True) fun _ => False := by
  obtain ⟨es, fin, hl⟩ := exists_bucketLog cfg (fl (bucketSector bid))
  rw [endsForeign_iff hv hl] at hnative
  unfold findLiveSlot
  apply tells_bind (findIndexedSlot_native S hr bid id)
  intro r _
  cases r with
  | some found => exact tells_ret trivial
  | none =>
    apply tells_mono (walkLiveSlot_tells S hr hv id true hl)
    . exact fun _ _ => trivial
    . rintro e ⟨-, hforeign⟩
      rw [hnative] at hforeign
      cases hforeign

theorem readBucketHdr_native {I C K : World → Prop} {good : Event → Prop} {fl : Flash}
    {E : Errno → Prop} (S : Stable I) (hr : FailsTo I K) (bid : Nat) :
    Tells good I C fl K (readBucketHdr cfg bid) (fun _ => True) E := by
  have hcursor : Tells good I C fl K (sidxCursor cfg bid) (fun _ => True) E := by
    unfold sidxCursor
    split
    . exact Spec.read fun w h => ⟨trivial, h⟩
    . exact tells_ret trivial
  unfold readBucketHdr
  apply tells_bind hcursor
  intro known _
  cases known with
  | some cursor => exact tells_ret trivial
  | none =>
    apply tells_bind (storeRead_tells S.readClosed hr _ _ _)
    intro hdr _
    exact tells_ret trivial

theorem indexTrue_of_unknown {fl : Flash} {st : St} {bid id : Nat} (h : st.sidx.cursorOf bid = none) :
    IndexTrue cfg fl st bid id := by
  constructor
  . intro fin hfin
    rw [h] at hfin
    cases hfin
  . intro off fin hfin
    unfold SlotIndex.lookup at hfin
    split at hfin
    . cases hfin
    . next hknown =>
      unfold SlotIndex.cursorOf at h
      rw [if_neg hknown] at h
      cases h

def rootBid (cfg : Cfg) : Nat := rootId % cfg.nBuckets

-- The check of the root refuses a closed bucket, and nothing else. Where the index cannot mislead it
-- (`u`) its answer is the one of the flash.
theorem rootIsLive_tells {G : World → Prop} (hG : Stable G) (hv : cfg.Valid) {fl : Flash} {u : Prop}
    (hu : ¬ OpenBucket cfg fl (rootBid cfg) → u) :
    Spec (History AnyEvent)
      (fun w => Reading (fun w => Calmly k w ∧ G w) fl w ∧
        (u → Unknown cfg (rootBid cfg) w.st.sidx))
      (rootIsLive cfg (rootId % cfg.nBuckets))
      ⟨fun live w => (¬ ClosedBucket cfg fl (rootBid cfg) ∧
          (u → live = (contentOf cfg fl rootId).isSome)) ∧
          Reading (fun w => Calmly k w ∧ G w) fl w,
        fun e w => ((e = .ENOTSUP ∧ ClosedBucket cfg fl (rootBid cfg)) ∨ (¬ k ∧ e = Errno.EIO)) ∧
          Reading (fun w => Calmly k w ∧ G w) fl w, fun _ => False⟩ := by
  have hS := calmly_stable (k := k) G hG
  have hr := calmly_failsTo (k := k) G
  unfold rootIsLive
  by_cases hknown : u
  . obtain ⟨es, fin, hl⟩ := exists_bucketLog cfg (fl (bucketSector (cfg.idToBucket rootId)))
    have hclosed : ClosedBucket cfg fl (rootBid cfg) ↔
        bucketHdrValid (fl (bucketSector (rootBid cfg))) (rootBid cfg) = true ∧
        slotForeignAt cfg (fl (bucketSector (cfg.idToBucket rootId))) fin = true := by
      unfold ClosedBucket
      rw [← endsForeign_iff hv hl]
      rfl
    have hhdr : Spec (History AnyEvent) (Indexed cfg _ fl _ _) (readBucketHdr cfg _) _ :=
      readBucketHdr_tells (C := fun _ => False) hS.readClosed hr (cfg.idToBucket rootId) rootId
    refine Spec.bind (hhdr.pre ?_) ?_ ?_ ?_
    . exact fun w h => ⟨h.1, fun hsi => indexTrue_of_unknown (h.2 hknown hsi)⟩
    . intro formatted
      apply Spec.assuming
      . exact fun _ h => h.1
      intro hformatted
      refine Spec.pre ?_ fun w h => h.2
      split
      . next hno =>
        have hno : bucketHdrValid (fl (bucketSector (cfg.idToBucket rootId)))
            (cfg.idToBucket rootId) = false := by
          rw [← hformatted]
          simpa using hno
        apply Spec.ret
        intro w h
        refine ⟨⟨?_, ?_⟩, h.1⟩
        . rintro ⟨hyes, -⟩
          have hyes : bucketHdrValid (fl (bucketSector (cfg.idToBucket rootId)))
            (cfg.idToBucket rootId) = true := hyes
          rw [hno] at hyes
          cases hyes
        . intro _
          rw [contentOf_unformatted hno]
          rfl
      . next hyes =>
        have hyes : bucketHdrValid (fl (bucketSector (cfg.idToBucket rootId)))
            (cfg.idToBucket rootId) = true := by
          rw [← hformatted]
          simpa using hyes
        apply (findLiveSlot_tells hS hr hv rootId hl).bind
        . intro found
          apply Spec.ret
          rintro w ⟨⟨hfinds, hnative⟩, hw⟩
          refine ⟨⟨?_, ?_⟩, hw⟩
          . rw [hclosed, hnative]
            exact fun h => nomatch h.2
          . intro _
            rw [(hfinds.content hv hl hyes).1]
            cases found.live <;> rfl
        . rintro e w ⟨⟨he, hforeign⟩ | he, hw⟩
          . exact ⟨.inl ⟨he, hclosed.mpr ⟨hyes, hforeign⟩⟩, hw⟩
          . exact ⟨.inr he, hw⟩
        . exact fun _ h => h
    . exact fun e w h => ⟨.inr h.1, h.2⟩
    . exact fun _ h => h
  . have hopen : OpenBucket cfg fl (rootBid cfg) := by
      by_contra hno
      exact hknown (hu hno)
    have hnot : ¬ ClosedBucket cfg fl (rootBid cfg) := by
      rintro ⟨-, hforeign⟩
      rw [hopen.2] at hforeign
      cases hforeign
    have hpost : ∀ {α : Type} {x : M α},
        Tells AnyEvent (fun w => Calmly k w ∧ G w) (fun _ => False) fl (fun _ => ¬ k) x
          (fun _ => True) (fun _ => False) →
        Spec (History AnyEvent) (Reading (fun w => Calmly k w ∧ G w) fl) x
          ⟨fun _ w => Reading (fun w => Calmly k w ∧ G w) fl w,
            fun e w => ((e = .ENOTSUP ∧ ClosedBucket cfg fl (rootBid cfg)) ∨ (¬ k ∧ e = Errno.EIO)) ∧
              Reading (fun w => Calmly k w ∧ G w) fl w, fun _ => False⟩ := by
      intro α x hx
      apply hx.conseq
      . exact fun _ h => h
      . exact fun _ _ h => h.2
      . exact fun e w h => ⟨.inr (h.1.resolve_left not_false), h.2⟩
      . exact fun _ h => h
    refine Spec.bind ((hpost (readBucketHdr_native hS hr _)).pre fun _ h => h.1) ?_
      (fun _ _ h => h) (fun _ h => h)
    intro formatted
    split
    . exact Spec.ret fun w h => ⟨⟨hnot, fun h => absurd h hknown⟩, h⟩
    . refine Spec.bind (hpost (findLiveSlot_native hS hr hv hopen.2 _)) ?_ (fun _ _ h => h)
        (fun _ h => h)
      intro found
      exact Spec.ret fun w h => ⟨⟨hnot, fun h => absurd h hknown⟩, h⟩

/-! The root bound to an empty payload -/

theorem program_blank (data : List UInt8) : program blank 0 data = image data := by
  funext j
  unfold program image blank
  split
  . rw [erased_and, Nat.sub_zero]
  . next h =>
    rw [List.getD_eq_getElem?_getD, List.getElem?_eq_none (by omega)]
    rfl

theorem Clean.native {g : Sector} {fin : Nat} (h : Clean cfg g fin) :
    slotForeignAt cfg g fin = false := by
  by_cases hroom : cfg.pebSize < fin + slotOverhead
  . unfold slotForeignAt
    rw [if_pos hroom]
  . have hff : g fin = 0xff := h fin le_rfl (by unfold slotOverhead at hroom; omega)
    have hflags : (slotHdrAt g fin).flags = 0xff := hff
    rw [slotForeignAt_eq (by omega)]
    simp [slotForeignHead, hflags]

-- A bucket that holds nothing but its header.
theorem image_header {bid : Nat} :
    bytesAt (image (bucketHdrBytes bid 1)) 0 bucketDataOff = bucketHdrBytes bid 1 ∧
      Clean cfg (image (bucketHdrBytes bid 1)) bucketDataOff := by
  have hlen := bucketHdrBytes_length bid 1
  constructor
  . rw [← program_blank, ← hlen]
    exact bytesAt_program fun _ _ _ => rfl
  . intro j hj _
    unfold image
    rw [List.getD_eq_getElem?_getD, List.getElem?_eq_none (by omega)]
    rfl

def rootBound (cfg : Cfg) : Sector :=
  program (image (bucketHdrBytes (rootBid cfg) 1)) bucketDataOff
    (slotImage cfg (slotSealed ||| 0) rootId [])

theorem slotSizeFor_zero_le (hv : cfg.Valid) :
    bucketDataOff + cfg.slotSizeFor 0 ≤ cfg.pebSize := by
  have halign := hv.align
  have hlog := hv.log
  have hpos : 0 < cfg.writeAlign := writeAlign_pos
  have hround : cfg.slotSizeFor 0 ≤ slotOverhead + 0 + cfg.writeAlign := by
    unfold Cfg.slotSizeFor roundUp
    have := Nat.div_mul_le_self (slotOverhead + 0 + cfg.writeAlign - 1) cfg.writeAlign
    omega
  unfold bucketDataOff masterLogOff masterHdrMax maxWriteAlign slotOverhead at *
  omega

theorem rootBound_appendable (hv : cfg.Valid) :
    Appendable cfg (image (bucketHdrBytes (rootBid cfg) 1)) bucketDataOff (slotSealed ||| 0) rootId
      [] := by
  refine ⟨image_header.2, slotSizeFor_zero_le hv, ?_, by decide, Nat.zero_le _⟩
  unfold FlagsOk Cfg.slotKnown
  split <;> decide

theorem rootBid_lt (hv : cfg.Valid) : rootBid cfg < cfg.nBuckets := idToBucket_lt hv rootId

theorem rootBound_open (hv : cfg.Valid) {fl : Flash}
    (h : fl (bucketSector (rootBid cfg)) = rootBound cfg) : OpenBucket cfg fl (rootBid cfg) := by
  have happ := rootBound_appendable hv
  obtain ⟨hlog, hclean⟩ := BucketLog.append happ hv (.nil bucketDataOff)
  unfold OpenBucket
  rw [h]
  constructor
  . have hbid : rootBid cfg < 2 ^ 16 := by
      have h1 := rootBid_lt hv
      have h2 := cfg.pebs_range
      unfold Cfg.nBuckets at h1
      omega
    rw [← bucketHdrValid_written hbid (@image_header cfg _).1]
    apply bucketHdrValid_congr
    intro j hj
    exact program_of_lt hj
  . unfold rootBound
    rw [endsForeign_iff hv hlog]
    exact hclean.native

theorem formatBucket_advances {bid : Nat} :
    Advances k (Committed k f X n r) (formatBucket cfg bid)
      fun _ => Committed k (f.set (bucketSector bid) (image (bucketHdrBytes bid 1)))
        (fun _ => True) (n + 1) r := by
  have hsector : ∀ (w w' : World), Committed k f X n r w → w'.st = w.st →
      (∀ s, s ≠ bucketSector bid → w'.flash s = w.flash s) →
      w'.flash (bucketSector bid) = image (bucketHdrBytes bid 1) →
      w.history.length < w'.history.length →
      Committed k (f.set (bucketSector bid) (image (bucketHdrBytes bid 1))) X (n + 1) r w' := by
    intro w w' h hst hother hthis hlen
    refine ⟨?_, by rw [hst]; exact h.index, ?_, by rw [hst]; exact h.active, by
      intro hk
      rw [hst]
      exact h.room hk⟩
    . intro s hs
      unfold Flash.set
      split
      . next heq =>
        rw [heq]
        exact hthis
      . next hne =>
        rw [hother s hne]
        exact h.buckets s hs
    . have := h.wrote
      omega
  have hreplace : Advances k (Committed k f X n r)
      (storeReplace cfg (bucketSector bid) (bucketHdrBytes bid 1))
      fun _ => Committed k (f.set (bucketSector bid) (image (bucketHdrBytes bid 1))) X (n + 1) r := by
    apply storeReplace_advances
    . intro w h hf
      refine hsector w _ h rfl (fun s hs => mutate_other hs) ?_ (by simp [World.mutate_history])
      rw [mutate_whole hf]
      rfl
    . intro w h hf hf'
      refine hsector w _ h rfl ?_ ?_ (by simp only [World.mutate_history, List.length_cons]; omega)
      . intro s hs
        rw [mutate_other hs, mutate_other hs]
      . rw [mutate_whole hf', mutate_whole hf]
        exact program_blank _
  unfold formatBucket
  apply hreplace.caught
  . intro _
    exact sidx_committed (fun _ _ _ => trivial) fun _ _ _ => trivial
  . intro e he hk
    have hforget : Advances k (fun _ => True) (sidxForget cfg bid) fun _ _ => True :=
      modifySidx_advances (fun _ _ => trivial) fun _ _ => trivial
    exact hforget.bind fun _ => Advances.fail he fun _ _ => hk

theorem bindRootEmpty_advances (hv : cfg.Valid) :
    Advances k (Committed k f X n r) (bindRootEmpty cfg)
      fun _ => Committed k (f.set (bucketSector (rootBid cfg)) (rootBound cfg))
        (fun _ => True) (n + 1) r := by
  unfold bindRootEmpty
  simp only
  apply formatBucket_advances.bind
  intro _
  generalize hfl : f.set (bucketSector (rootId % cfg.nBuckets))
    (image (bucketHdrBytes (rootId % cfg.nBuckets) 1)) = fl
  have hset : f.set (bucketSector (rootBid cfg)) (rootBound cfg) =
      fl.set (bucketSector (rootBid cfg)) (rootBound cfg) := by
    funext s
    rw [← hfl]
    unfold Flash.set rootBid
    split <;> rfl
  unfold appendSlot appendSlot2
  simp only [List.length_nil, Nat.add_zero, List.append_nil]
  rw [if_neg (Nat.not_lt_zero _), if_neg (by have := hv.align; omega)]
  have hidx : Advances k (Committed k fl (fun _ => True) (n + 1) r) (idxInvalidate cfg)
      fun _ => Committed k fl (fun _ => True) (n + 1) r := by
    unfold idxInvalidate
    split
    . exact modifySt_advances fun w h => h.ram rfl rfl rfl
    . exact Advances.ret fun _ h => h
  apply hidx.bind
  intro _
  have hwrite : Advances k (Committed k fl (fun _ => True) (n + 1) r)
      (storeWrite (bucketSector (rootId % cfg.nBuckets)) bucketDataOff
        (slotImage cfg (slotSealed ||| 0) rootId []))
      fun _ => Committed k (fl.set (bucketSector (rootBid cfg)) (rootBound cfg))
        (fun _ => True) (n + 1) r := by
    apply storeMutate_advances
    intro w h hf
    refine ⟨?_, trivial, ?_, h.active, h.room⟩
    . intro s hs
      unfold Flash.set
      split
      . next heq =>
        rw [heq]
        unfold rootBid
        rw [mutate_whole hf, h.buckets _ (bucketSector_ge _), ← hfl]
        simp [Flash.set, Request.whole, rootBound, rootBid]
      . next hne =>
        rw [mutate_other (by exact hne)]
        exact h.buckets s hs
    . rw [World.mutate_history, List.length_cons]
      have := h.wrote
      omega
  rw [hset]
  apply hwrite.caught
  . intro _
    exact sidx_committed (fun _ _ _ => trivial) fun _ _ _ => trivial
  . intro e he hk
    have hforget : Advances k (fun _ => True) (sidxForget cfg (rootId % cfg.nBuckets))
        fun _ _ => True := modifySidx_advances (fun _ _ => trivial) fun _ _ => trivial
    exact hforget.bind fun _ => Advances.fail he fun _ _ => hk

/-! A format -/

-- At least `n` events happened.
def Wrote (n : Nat) (w : World) : Prop := n ≤ w.history.length

theorem storeMutate_wrote (sector : Nat) (q : Request) :
    Advances k (Wrote n) (storeMutate sector q) fun _ => Wrote (n + 1) := by
  apply storeMutate_advances
  intro w h _
  unfold Wrote at *
  rw [World.mutate_history, List.length_cons]
  omega

theorem Wrote.mono {m : Nat} (h : Wrote n w) (hm : m ≤ n) : Wrote m w := le_trans hm h

theorem storeReplace_wrote (sector : Nat) (data : List UInt8) :
    Advances k (Wrote n) (storeReplace cfg sector data) fun _ => Wrote (n + 1) := by
  unfold storeReplace
  split
  . exact storeMutate_wrote _ _
  . apply (storeMutate_wrote _ _).bind
    intro _
    exact (storeMutate_wrote _ _).conseq (fun _ h => h) fun _ w h => h.mono (by omega)

theorem storeEraseAll_wrote (m sector : Nat) :
    Advances k (Wrote n) (storeEraseAll m sector) fun _ => Wrote n := by
  induction m generalizing sector with
  | zero => exact Advances.ret fun _ h => h
  | succ m ih =>
    unfold storeEraseAll
    apply ((storeMutate_wrote _ _).conseq (fun _ h => h) fun _ w h => h.mono (Nat.le_succ n)).bind
    intro _
    exact ih _

theorem invalidateFrom_wrote (skip : Option Nat) (m bid : Nat) :
    Advances k (Wrote n) (invalidateFrom cfg skip m bid) fun _ => Wrote n := by
  induction m generalizing bid with
  | zero => exact Advances.ret fun _ h => h
  | succ m ih =>
    have hone : Advances k (Wrote n) (invalidateOne cfg bid) fun _ => Wrote n := by
      unfold invalidateOne
      have hread : Advances k (Wrote n) (storeRead (bucketSector bid) 0 4) fun _ => Wrote n :=
        readFlash_advances fun _ h => h
      apply hread.bind
      intro peek
      simp only
      split
      . exact Advances.ret fun _ h => h
      . split
        . exact (storeReplace_wrote _ _).conseq (fun _ h => h) fun _ w h => h.mono (Nat.le_succ n)
        . exact (storeMutate_wrote _ _).conseq (fun _ h => h) fun _ w h => h.mono (Nat.le_succ n)
    unfold invalidateFrom
    have hwhen : ∀ c, Advances k (Wrote n) (Proc.when c (invalidateOne cfg bid)) fun _ => Wrote n :=
      fun c => Advances.when (fun _ h => h) fun _ => hone
    apply (hwhen _).bind
    intro _
    exact ih _

theorem masterFormat_advances :
    Advances k (Wrote n) (masterFormat cfg)
      fun _ w => Committed k w.flash (fun _ => True) (n + 1) 8 w := by
  have hram : ∀ g : St → St, Advances k (Wrote n) (modifySt g) fun _ => Wrote n :=
    fun g => modifySt_advances fun _ h => h
  have hwrite : ∀ slot rot rec, Advances k (Wrote n) (masterWriteSector cfg slot rot rec)
      fun _ => Wrote (n + 1) := by
    intro slot rot rec
    unfold masterWriteSector
    apply getSt_advances
    intro st
    exact (storeReplace_wrote _ _).conseq (fun _ h => h.2) fun _ _ h => h
  unfold masterFormat
  apply (hram _).bind
  intro _
  apply getSt_advances
  intro st
  refine Advances.conseq ?_ (fun w h => h.2) fun _ _ h => h
  apply (hram _).bind
  intro _
  apply ((hwrite _ _ _).conseq (fun _ h => h) fun _ w h => h.mono (Nat.le_succ n)).bind
  intro _
  apply (hwrite _ _ _).bind
  intro _
  apply modifySt_advances
  intro w h
  exact ⟨fun _ _ => rfl, trivial, h, Nat.zero_le _, fun _ => show 2 + 8 < 2 ^ 32 by decide⟩

-- The root's bucket is open after a format.
theorem bindRootEmpty_formatted (hv : cfg.Valid) :
    Advances k (fun w => Committed k w.flash (fun _ => True) n r w) (bindRootEmpty cfg)
      fun _ w => Committed k w.flash (fun _ => True) n r w ∧ OpenBucket cfg w.flash (rootBid cfg) := by
  rintro w ⟨hcalm, h⟩ hh
  have hbind := bindRootEmpty_advances hv w ⟨hcalm, h⟩ hh
  generalize bindRootEmpty cfg w = res at hbind
  obtain ⟨o, w'⟩ := res
  cases o with
  | ok a =>
    obtain ⟨hcalm', h'⟩ := hbind
    refine ⟨hcalm', ⟨fun _ _ => rfl, trivial, le_trans (by omega) h'.wrote, h'.active, h'.room⟩, ?_⟩
    apply rootBound_open hv
    rw [h'.buckets _ (bucketSector_ge _)]
    simp [Flash.set]
  | err e => exact hbind
  | cut => exact hbind

theorem formatMastersFresh_advances (hv : cfg.Valid) :
    Advances k (Wrote n) (formatMastersFresh cfg)
      fun _ w => Committed k w.flash (fun _ => True) (n + 1) 8 w ∧
        OpenBucket cfg w.flash (rootBid cfg) := by
  unfold formatMastersFresh invalidateBuckets
  apply (invalidateFrom_wrote _ _ _).bind
  intro _
  apply masterFormat_advances.bind
  intro _
  exact bindRootEmpty_formatted hv

theorem formatWholeStore_advances (hv : cfg.Valid) :
    Advances k (Wrote n) (formatWholeStore cfg)
      fun _ w => Committed k w.flash (fun _ => True) (n + 1) 8 w ∧
        OpenBucket cfg w.flash (rootBid cfg) := by
  have hram : ∀ g : St → St, Advances k (Wrote n) (modifySt g) fun _ => Wrote n :=
    fun g => modifySt_advances fun _ h => h
  have hidx : Advances k (Wrote n) (idxInvalidate cfg) fun _ => Wrote n := by
    unfold idxInvalidate
    split
    . exact hram _
    . exact Advances.ret fun _ h => h
  unfold formatWholeStore
  apply hidx.bind
  intro _
  have hsidx : Advances k (Wrote n) (sidxReset cfg) fun _ => Wrote n :=
    modifySidx_advances (fun _ h => h) fun _ h => h
  apply hsidx.bind
  intro _
  apply (hram _).bind
  intro _
  apply (storeEraseAll_wrote _ _).bind
  intro _
  apply masterFormat_advances.bind
  intro _
  exact bindRootEmpty_formatted hv

/-! The sweep at the end of a mount -/

theorem segSweepBucket_silent (owner : Nat) (ids : List Nat) (bid m cursor : Nat) :
    Spec (History AnyEvent) (fun _ => True) (segSweepBucket cfg owner ids bid m cursor)
      (.exits (fun _ => True) (fun _ => False) fun _ => True) := by
  have hall : ∀ {α β : Type} (x : M α) {g : Except Errno α → M β},
      (∀ a, Spec (History AnyEvent) (fun _ => True) (g a)
        (.exits (fun _ => True) (fun _ => False) fun _ => True)) →
      Spec (History AnyEvent) (fun _ => True) (Proc.attempt x >>= g)
        (.exits (fun _ => True) (fun _ => False) fun _ => True) := by
    intro α β x g hg
    have hx : Spec (History AnyEvent) (fun _ => True) x
        (.exits (fun _ => True) (fun _ => True) fun _ => True) := by
      intro w _ _
      generalize x w = res
      obtain ⟨o, w'⟩ := res
      cases o <;> trivial
    exact hx.caught (fun a => hg (.ok a)) (fun e => hg (.error e)) fun _ _ => trivial
  induction m generalizing cursor with
  | zero => exact Spec.cut fun _ _ => trivial
  | succ m ih =>
    unfold segSweepBucket
    split
    . exact Spec.ret fun _ _ => trivial
    . apply hall
      intro raw
      cases raw with
      | error e => exact Spec.ret fun _ _ => trivial
      | ok raw =>
        simp only
        split
        . exact Spec.ret fun _ _ => trivial
        . split
          . exact Spec.ret fun _ _ => trivial
          . split
            . exact ih _
            . apply hall
              intro found
              split
              . apply hall
                intro rc
                split
                . exact ih _
                . exact ih _
                . exact ih _
                . exact Spec.ret fun _ _ => trivial
              . exact ih _

theorem segSweepFrom_silent (owner : Nat) (ids : List Nat) (m bid : Nat) :
    Spec (History AnyEvent) (fun _ => True) (segSweepFrom cfg owner ids m bid)
      (.exits (fun _ => True) (fun _ => False) fun _ => True) := by
  induction m generalizing bid with
  | zero => exact Spec.ret fun _ _ => trivial
  | succ m ih =>
    unfold segSweepFrom segSweepOne
    have hone : Spec (History AnyEvent) (fun _ => True) (readBucketHdr cfg bid)
        (.exits (fun _ => True) (fun _ => True) fun _ => True) :=
      readBucketHdr_reads (fun _ _ _ _ => trivial) bid
    refine Spec.seq (I := fun _ => True) ?_ fun _ => ih _
    apply hone.caught
    . intro formatted
      cases formatted with
      | false => exact Spec.ret fun _ _ => trivial
      | true =>
        apply Spec.read_bind
        intro patience
        exact (segSweepBucket_silent _ _ _ _ _).pre fun _ _ => trivial
    . exact fun e => Spec.ret fun _ _ => trivial
    . exact fun _ _ => trivial

theorem segSweepListed_silent {I : World → Prop} (S : Stable I) (owner : Nat) :
    Spec (History AnyEvent) I (segSweepListed cfg owner)
      (.exits I (fun _ => False) fun _ => True) := by
  have hload : Reads AnyEvent I (fun _ => True) (indexLoadCached cfg owner) :=
    indexLoadCached_reads S owner
  unfold segSweepListed
  apply hload.attempt.bind
  . intro r
    cases r with
    | error e => exact Spec.ret fun _ h => h
    | ok r =>
      cases r with
      | none => exact Spec.ret fun _ h => h
      | some x => exact Spec.ret fun _ h => h
  . exact fun _ _ h => h
  . exact fun _ h => h

-- A sweep keeps what its releases keep, and ends as its commit does.
theorem segSweep_rule {I : World → Prop} {Q : Post World Errno Unit} (S : Stable I)
    (hrel : ∀ sid, sid < 2 ^ 64 → Keeps AnyEvent I I (fun _ => True) (segReleaseOne cfg sid))
    (hend : Spec (History AnyEvent) I (persistSegOwner cfg 0) Q) (hcut : ∀ w, Q.cut w)
    (owner : Nat) : Spec (History AnyEvent) I (segSweep cfg owner) Q := by
  unfold segSweep
  apply (segSweepListed_silent S owner).bind
  . intro ids
    have hkeeps : Keeps _ _ _ _ (segSweepFrom cfg owner ids cfg.nBuckets 0) :=
      segSweepFrom_of_release S (fun _ _ => trivial) (fun sid hsid _ => hrel sid hsid) owner _ _
    apply (((segSweepFrom_silent owner ids cfg.nBuckets 0).both hkeeps).pre
      fun w h => ⟨trivial, h⟩).bind
    . intro _
      exact hend.pre fun w h => h.2
    . exact fun _ _ h => h.1.elim
    . exact fun w _ => hcut w
  . exact fun _ _ h => h.elim
  . exact fun w _ => hcut w

end

end KeyValueDb.BlobDb
