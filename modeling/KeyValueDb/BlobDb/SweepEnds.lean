import KeyValueDb.BlobDb.Rebind
import KeyValueDb.BlobDb.Sweep

/-!
The sweep ends, and where nothing fails it leaves no garbage behind. The walk of a bucket starts again
whenever a release compacted it, so what goes down is the number of live slots first, and only then
the way to the end of the bucket.
-/

namespace KeyValueDb.BlobDb

variable (cfg : Cfg)

-- What a true slot index believes of a bucket: nothing where a walk could not have learned it.
def onFlash (fl : Flash) (bid : Nat) : Believed :=
  let f := fl (bucketSector bid)
  ⟨bucketEntries cfg f,
    if bucketHdrValid f bid && !slotForeignAt cfg f (logEnd cfg f) then logEnd cfg f else 0⟩

-- What holds throughout a sweep: power stays, where `k` holds nothing fails, and what the slot index
-- says is true of the logs `log`.
structure Upheld (k : Prop) (log : Nat → Believed) (w : World) : Prop where
  power : ∀ f ∈ w.faults, f.outcome ≠ .cut
  calm : k → (∀ f ∈ w.faults, f = .none) ∧ ∀ b ∈ w.readFaults, b = false
  patience : cfg.pebSize * cfg.pebSize ≤ w.patience
  active : w.st.activeMaster ≤ 1
  truth : cfg.slotIndex = true → Indexes cfg log w.st.sidx

-- A stored value that is a segment of `owner`.
def Stored.segmentOf (owner : Nat) (s : Stored) : Bool :=
  s.flags &&& slotSegment != 0 && (segHdrLen ≤ s.payload.length &&
    (segHdrOf s.payload).ownerId == owner)

-- The live segments of `owner` in a log that `ids` does not list.
def Garbage (owner : Nat) (ids : List Nat) (es : List Entry) (id : Nat) : Prop :=
  ∃ s, liveIn es id = some s ∧ s.segmentOf owner = true ∧ id ∉ ids

-- A compaction of the bucket is possible: its tail may go and the image fits below the seal.
def Compactable (bid : Nat) (f : Sector) (es : List Entry) (fin : Nat) : Prop :=
  bucketHdrValid f bid = true ∧ compactionMayDropTail cfg f fin = .ok () ∧
    bucketDataOff + ((survivors es).map (Entry.size cfg)).sum ≤ cfg.scratchSealOff

-- The slots of a bucket that a sweep walks: the intact ones are at home, and so are all of them where
-- an index is told of them.
structure AtHome (bid : Nat) (es : List Entry) : Prop where
  intact : ∀ x ∈ es, x.intact = true → cfg.idToBucket x.head.id = bid
  indexed : cfg.slotIndex = true → ∀ x ∈ es, cfg.idToBucket x.head.id = bid ∧ x.head.id ≠ 0

-- And it leaves room for a tombstone.
def Roomy (bid : Nat) (f : Sector) (es : List Entry) (fin : Nat) : Prop :=
  Compactable cfg bid f es fin ∧
    bucketDataOff + ((survivors es).map (Entry.size cfg)).sum + cfg.slotSizeFor 0 ≤ cfg.pebSize

-- A bucket whose slots a sweep can tell apart: the intact ones lie in the bucket their ids hash to,
-- with an index the others too, and nothing is hidden behind an erased end.
def Sweepable (bid : Nat) (f : Sector) : Prop :=
  bucketHdrValid f bid = true → AtHome cfg bid (bucketEntries cfg f) ∧ Unhidden cfg f

-- A bucket that has room for a tombstone once it is compacted.
def TombstoneRoom (bid : Nat) (f : Sector) : Prop :=
  Roomy cfg bid f (bucketEntries cfg f) (logEnd cfg f)

-- What a sweep for `owner` may rely on when it starts.
structure SweepReady (owner : Nat) (w : World) : Prop where
  valid : cfg.Valid
  active : w.st.activeMaster ≤ 1
  owned : owner ≠ 0
  cache : w.st.idxId = owner →
    (contentOf cfg w.flash owner).bind (indexOf w.st) = some (w.st.idxHdr, w.st.segA)
  index : cfg.slotIndex = true → Indexes cfg (onFlash cfg w.flash) w.st.sidx
  homed : ∀ bid, bid < cfg.nBuckets → Sweepable cfg bid (w.flash (bucketSector bid))

abbrev Upright (k : Prop) (fl : Flash) (w : World) : Prop := Upheld cfg k (onFlash cfg fl) w

-- A step that ends where it should, with no loss of power.
abbrev Goes (P : World → Prop) {α : Type} (x : M α) (Q : α → World → Prop) (E : Errno → World → Prop) :
    Prop :=
  Spec (History AnyEvent) P x ⟨Q, E, fun _ => False⟩

theorem Goes.andThen {α β : Type} {x : M α} {f : α → M β} {P : World → Prop} {Q : α → World → Prop}
    {R : β → World → Prop} {E : Errno → World → Prop} (hx : Goes P x Q E)
    (hf : ∀ a, Goes (Q a) (f a) R E) : Goes P (x >>= f) R E :=
  Spec.bind hx hf (fun _ _ h => h) fun _ h => h

section

variable {cfg} {k : Prop} {fl : Flash} {es : List Entry} {fin bid id : Nat}

theorem BucketLog.onFlash (hl : BucketLog cfg (fl (bucketSector bid)) es fin) (hv : cfg.Valid) :
    BlobDb.onFlash cfg fl bid = ⟨es,
      if bucketHdrValid (fl (bucketSector bid)) bid &&
        !slotForeignAt cfg (fl (bucketSector bid)) fin then fin else 0⟩ := by
  unfold BlobDb.onFlash
  simp only
  rw [hl.entries hv, hl.logEnd hv]

-- An index with a cursor for a bucket was told by a walk that met no foreign slot.
theorem Indexes.knows {t : SlotIndex} (h : Indexes cfg (onFlash cfg fl) t) {c : Nat}
    (hc : t.cursorOf bid = some c) :
    bucketHdrValid (fl (bucketSector bid)) bid = true ∧
      slotForeignAt cfg (fl (bucketSector bid)) (logEnd cfg (fl (bucketSector bid))) = false ∧
      c = logEnd cfg (fl (bucketSector bid)) := by
  have hfin := (h.cursor bid c hc).1
  have hne := (cursorOf_on hc).2.2
  unfold onFlash at hfin
  simp only at hfin
  split at hfin
  . next hok =>
    rw [Bool.and_eq_true, Bool.not_eq_true'] at hok
    exact ⟨hok.1, hok.2, hfin.symm⟩
  . exact absurd hfin.symm hne

theorem Indexes.indexTrue {w : World} (hv : cfg.Valid) (hid : id ≠ 0)
    (h : Indexes cfg (onFlash cfg fl) w.st.sidx) :
    IndexTrue cfg fl w.st (cfg.idToBucket id) id where
  cursor c hc := (h.knows hc).1
  lookup off c hlook := by
    unfold SlotIndex.lookup at hlook
    split at hlook
    . cases hlook
    . next hon =>
      cases hfind : SlotIndex.find cfg w.st.sidx id with
      | none =>
        rw [hfind] at hlook
        cases hlook
      | some i =>
        rw [hfind] at hlook
        injection hlook with hlook
        injection hlook with hoff hcur
        have hc : w.st.sidx.cursorOf (cfg.idToBucket id) = some c := by
          unfold SlotIndex.cursorOf
          rw [if_neg hon, hcur]
        obtain ⟨-, hforeign, rfl⟩ := h.knows hc
        obtain ⟨x, hx, hxoff⟩ := h.cell id off (hoff ▸ find_cell hid hfind)
        obtain ⟨es, fin, hl⟩ := exists_bucketLog cfg (fl (bucketSector (cfg.idToBucket id)))
        rw [hl.onFlash hv] at hx
        rw [hl.logEnd hv] at hforeign ⊢
        exact ⟨es, x, hl, hforeign, hx, hxoff⟩

/-! Reads and caches -/

theorem upright_readClosed : ReadClosed (Upright cfg k fl) := by
  intro w h
  exact ⟨h.power, fun hk => ⟨(h.calm hk).1, fun b hb => (h.calm hk).2 b (List.mem_of_mem_tail hb)⟩,
    h.patience, h.active, h.truth⟩

theorem upright_failsTo : FailsTo (Upright cfg k fl) fun _ => ¬ k := by
  intro w h hfault hk
  have hall := (h.calm hk).2
  cases hr : w.readFaults with
  | nil => simp [hr] at hfault
  | cons b bs =>
    have hb := hall b (by simp [hr])
    simp [hr, hb] at hfault

-- The part of it that no cache matters to.
theorem unhurried_stable : Stable fun w => (∀ f ∈ w.faults, f.outcome ≠ .cut) ∧
    (k → (∀ f ∈ w.faults, f = .none) ∧ ∀ b ∈ w.readFaults, b = false) := by
  intro w w' q h
  rw [q.faults]
  exact ⟨h.1, fun hk => ⟨(h.2 hk).1, fun b hb => (h.2 hk).2 b (List.IsSuffix.subset q.reads hb)⟩⟩

theorem readFlash_upright {α : Type} {f : Flash → α} {good : Event → Prop} :
    Spec (History good) (Reading (Upright cfg k fl) fl) (readFlash f)
      ⟨fun a w => a = f fl ∧ Reading (Upright cfg k fl) fl w,
        fun e w => (e = Errno.EIO ∧ ¬ k) ∧ Reading (Upright cfg k fl) fl w, fun _ => False⟩ := by
  have h : Tells good (Upright cfg k fl) (fun _ => False) fl (fun _ => ¬ k) (readFlash f) (· = f fl)
      fun _ => False := readFlash_tells upright_readClosed upright_failsTo f
  apply h.conseq
  . exact fun _ h => h
  . exact fun _ _ h => h
  . rintro e w ⟨h | ⟨h1, h2⟩, h'⟩
    . exact h.elim
    . exact ⟨⟨h2, h1⟩, h'⟩
  . exact fun _ h => h

-- A change of the slot index, after which it is true of other logs.
theorem sidx_upheld {log log' : Nat → Believed} {g : Flash} {f : SlotIndex → SlotIndex}
    (hf : cfg.slotIndex = true → ∀ t, Indexes cfg log t → Indexes cfg log' (f t)) :
    Goes (Reading (Upheld cfg k log) g) (modifySidx cfg f) (fun _ => Reading (Upheld cfg k log') g)
      fun _ _ => False := by
  unfold modifySidx
  split
  . next hs =>
    apply modifySt_spec
    intro w h
    exact ⟨⟨h.1.power, h.1.calm, h.1.patience, h.1.active, fun _ => hf hs _ (h.1.truth hs)⟩, h.2⟩
  . next hs =>
    apply Spec.ret
    intro w h
    exact ⟨⟨h.1.power, h.1.calm, h.1.patience, h.1.active, fun hs' => absurd hs' hs⟩, h.2⟩

/-! Lookups -/

-- What a step that only reads and fills caches does.
abbrev Looks (cfg : Cfg) (k : Prop) (fl : Flash) {α : Type} (x : M α) : Prop :=
  Goes (Reading (Upright cfg k fl) fl) x (fun _ => Reading (Upright cfg k fl) fl)
    fun _ => Reading (Upright cfg k fl) fl

theorem looks_ret {α : Type} (a : α) : Looks cfg k fl (pure a : M α) := Spec.ret fun _ h => h

theorem looks_fail {α : Type} (e : Errno) : Looks cfg k fl (Proc.fail e : M α) :=
  Spec.fail fun _ h => h

theorem Looks.bind {α β : Type} {x : M α} {f : α → M β} (hx : Looks cfg k fl x)
    (hf : ∀ a, Looks cfg k fl (f a)) : Looks cfg k fl (x >>= f) :=
  Spec.bind hx hf (fun _ _ h => h) fun _ h => h

-- A step whose answer is known.
theorem looks_told {α β : Type} {x : M α} {f : α → M β} {a : α} {E : Errno → Prop}
    (hx : Tells AnyEvent (Upright cfg k fl) (fun _ => False) fl (fun _ => ¬ k) x (· = a) E)
    (hf : Looks cfg k fl (f a)) : Looks cfg k fl (x >>= f) := by
  apply Spec.bind hx
  . intro b
    apply Spec.assuming (φ := b = a)
    . exact fun _ h => h.1
    . rintro rfl
      exact hf.pre fun _ h => h.2
  . exact fun _ _ h => h.2
  . exact fun _ h => h

theorem readFlash_looks {α : Type} (f : Flash → α) : Looks cfg k fl (readFlash f) :=
  readFlash_upright.conseq (fun _ h => h) (fun _ _ h => h.2) (fun _ _ h => h.2) fun _ h => h

theorem slotVerify_looks (t : Target) : Looks cfg k fl (slotVerify bid t) := by
  unfold slotVerify slotPayload
  have hpay : Looks cfg k fl (if 0 < t.head.valLen then
      storeRead (bucketSector bid) (t.off + slotHeadLen) t.head.valLen else pure []) := by
    split
    . exact readFlash_looks _
    . exact looks_ret _
  apply hpay.bind
  intro payload
  apply (readFlash_looks _).bind
  intro stored
  split <;> exact looks_ret _

theorem sidx_looks {f : SlotIndex → SlotIndex}
    (hf : cfg.slotIndex = true → ∀ t, Indexes cfg (onFlash cfg fl) t → Indexes cfg (onFlash cfg fl) (f t)) :
    Looks cfg k fl (modifySidx cfg f) :=
  (sidx_upheld hf).conseq (fun _ h => h) (fun _ _ h => h) (fun _ _ h => h.elim) fun _ h => h

theorem sidxForget_looks (bid : Nat) : Looks cfg k fl (sidxForget cfg bid) :=
  sidx_looks fun _ _ h => h.forget fun _ _ => rfl

theorem looks_when {c : Bool} {x : M Unit} (hx : c = true → Looks cfg k fl x) :
    Looks cfg k fl (Proc.when c x) := by
  unfold Proc.when
  split
  . next h => exact hx h
  . exact looks_ret _

-- A bucket whose slots an index may learn: the ids it is asked for are those of the bucket.
structure Learnable (cfg : Cfg) (fl : Flash) (bid id : Nat) : Prop where
  header : bucketHdrValid (fl (bucketSector bid)) bid = true
  home : cfg.slotIndex = true → cfg.idToBucket id = bid ∧ id ≠ 0

theorem sidxLearn_looks (hv : cfg.Valid) (hl : BucketLog cfg (fl (bucketSector bid)) es fin)
    (h : Learnable cfg fl bid id) (hnative : slotForeignAt cfg (fl (bucketSector bid)) fin = false)
    {o : Option Nat} (ho : ∀ off, o = some off → ∃ x, lastOf id es = some x ∧ x.off = off) :
    Looks cfg k fl (sidxLearn cfg bid id o fin) := by
  apply sidx_looks
  intro hs t ht
  obtain ⟨rfl, hid⟩ := h.home hs
  have hbelieved := hl.onFlash hv
  rw [h.header, hnative] at hbelieved
  have hlen := hl.length_lt hv
  have hpeb : cfg.pebSize ≤ 65536 := hv.buf.trans cfg.sector_range.2
  apply ht.learn hid
  . rw [hbelieved]
    rfl
  . rw [hbelieved]
    exact hlen.trans_le hpeb
  . rw [hbelieved]
    exact ho

theorem walkLiveSlotBelow_looks (hv : cfg.Valid) (hl : BucketLog cfg (fl (bucketSector bid)) es fin)
    (h : Learnable cfg fl bid id) (learn : Bool) (n limit : Nat) :
    Looks cfg k fl (walkLiveSlotBelow cfg bid id learn n limit) := by
  induction n generalizing limit with
  | zero => exact looks_fail _
  | succ n ih =>
    unfold walkLiveSlotBelow
    apply looks_told (E := fun _ => False)
      (scanBucketFor_tells upright_readClosed upright_failsTo hv id hl)
    simp only
    split
    . exact looks_fail _
    . next hnative =>
      rw [Bool.not_eq_true] at hnative
      cases hx : lastSat (fun y => y.head.id == id && decide (y.off < limit)) es with
      | none =>
        simp only [Option.map_none]
        have hlearn : Looks cfg k fl (Proc.when (learn && limit == cfg.pebSize)
            (sidxLearn cfg bid id none fin)) :=
          looks_when fun _ => sidxLearn_looks hv hl h hnative fun _ h => by cases h
        exact hlearn.bind fun _ => looks_ret _
      | some x =>
        simp only [Option.map_some]
        apply (slotVerify_looks _).bind
        intro verified
        split
        . exact ih _
        . split
          . exact looks_ret _
          . have hlearn : Looks cfg k fl (Proc.when (learn && limit == cfg.pebSize)
                (sidxLearn cfg bid id (some x.off) fin)) := by
              apply looks_when
              intro hc
              rw [Bool.and_eq_true, beq_iff_eq] at hc
              obtain ⟨-, rfl⟩ := hc
              apply sidxLearn_looks hv hl h hnative
              rintro off ⟨⟩
              refine ⟨x, ?_, rfl⟩
              rw [← hx]
              apply lastSat_congr
              intro y hy
              have h1 := (hl.path.mem hy).2.1
              have h2 := hl.path.fin_le (bucketDataOff_le hv)
              have h3 := y.size_ge cfg
              unfold slotOverhead at h3
              simp [show y.off < cfg.pebSize by omega]
            exact hlearn.bind fun _ => looks_ret _

theorem findIndexedSlot_looks (bid id : Nat) : Looks cfg k fl (findIndexedSlot cfg bid id) := by
  unfold findIndexedSlot
  have hhit : Looks cfg k fl (sidxLookup cfg bid id) := by
    unfold sidxLookup
    split
    . exact Spec.read fun _ h => h
    . exact looks_ret _
  apply hhit.bind
  intro hit
  split
  . exact looks_ret _
  . split
    . exact (sidxForget_looks bid).bind fun _ => looks_ret _
    . apply (readFlash_looks _).bind
      intro raw
      simp only
      split
      . exact (sidxForget_looks bid).bind fun _ => looks_ret _
      . apply (slotVerify_looks _).bind
        intro verified
        split
        . exact looks_ret _
        . split <;> exact looks_ret _

theorem findLiveSlot_looks (hv : cfg.Valid) (h : Learnable cfg fl bid id) :
    Looks cfg k fl (findLiveSlot cfg bid id) := by
  obtain ⟨es, fin, hl⟩ := exists_bucketLog cfg (fl (bucketSector bid))
  unfold findLiveSlot
  apply (findIndexedSlot_looks bid id).bind
  intro indexed
  split
  . exact looks_ret _
  . exact walkLiveSlotBelow_looks hv hl h true _ _

-- A lookup answers from the newest slot. Where nothing fails only a foreign slot stops it.
theorem findLiveSlot_upright (hv : cfg.Valid) (hl : BucketLog cfg (fl (bucketSector bid)) es fin)
    (h : Learnable cfg fl bid id) :
    Goes (Reading (Upright cfg k fl) fl) (findLiveSlot cfg bid id)
      (fun found w => found.live = (newest id es).bind Entry.liveSlot ∧ Reading (Upright cfg k fl) fl w)
      fun _ w => (k → slotForeignAt cfg (fl (bucketSector bid)) fin = true) ∧
        Reading (Upright cfg k fl) fl w := by
  have hfails : FailsTo (fun w => (∀ f ∈ w.faults, f.outcome ≠ .cut) ∧
      (k → (∀ f ∈ w.faults, f = .none) ∧ ∀ b ∈ w.readFaults, b = false)) fun _ => ¬ k := by
    intro w h hfault hk
    have hall := (h.2 hk).2
    cases hr : w.readFaults with
    | nil => simp [hr] at hfault
    | cons b bs =>
      have hb := hall b (by simp [hr])
      simp [hr, hb] at hfault
  have htells := (@findLiveSlot_tells _ AnyEvent _ (fun _ => False)) unhurried_stable hfails hv id hl
  apply (htells.both (findLiveSlot_looks (k := k) hv h)).conseq
  . rintro w ⟨hw, rfl⟩
    refine ⟨⟨⟨⟨hw.power, hw.calm⟩, rfl⟩, fun hs => ?_⟩, hw, rfl⟩
    obtain ⟨rfl, hid⟩ := h.home hs
    exact (hw.truth hs).indexTrue hv hid
  . exact fun found w h => ⟨h.1.1.1.live, h.2⟩
  . rintro e w ⟨⟨⟨-, hforeign⟩ | ⟨hk, -⟩, -⟩, hw⟩
    . exact ⟨fun _ => hforeign, hw⟩
    . exact ⟨fun h => absurd h hk, hw⟩
  . exact fun _ h => h.1

theorem readBucketHdr_upright (bid : Nat) :
    Goes (Reading (Upright cfg k fl) fl) (readBucketHdr cfg bid)
      (fun r w => r = bucketHdrValid (fl (bucketSector bid)) bid ∧ Reading (Upright cfg k fl) fl w)
      fun e w => (e = Errno.EIO ∧ ¬ k) ∧ Reading (Upright cfg k fl) fl w := by
  have hread : Goes (Reading (Upright cfg k fl) fl)
      (do
        let hdr ← storeRead (bucketSector bid) 0 bucketDataOff
        pure (bucketHdrValid (image hdr) bid))
      (fun r w => r = bucketHdrValid (fl (bucketSector bid)) bid ∧ Reading (Upright cfg k fl) fl w)
      fun e w => (e = Errno.EIO ∧ ¬ k) ∧ Reading (Upright cfg k fl) fl w := by
    apply Spec.bind readFlash_upright
    . intro hdr
      apply Spec.ret
      rintro w ⟨rfl, h⟩
      exact ⟨bucketHdrValid_congr fun j hj => by rw [image_bytesAt hj, Nat.zero_add], h⟩
    . exact fun _ _ h => h
    . exact fun _ h => h
  unfold readBucketHdr sidxCursor
  split
  . next hs =>
    apply Spec.read_bind
    intro known
    cases known with
    | none => exact hread.pre fun _ h => h.2
    | some c => exact Spec.ret fun w h => ⟨((h.2.1.truth hs).knows h.1).1.symm, h.2⟩
  . exact Spec.ret_bind hread

-- A walk for the cursor answers where the log ends at an erased byte, or that the bucket is full.
theorem walkCursor_upright (hv : cfg.Valid) (hl : BucketLog cfg (fl (bucketSector bid)) es fin)
    (id : Nat) :
    Goes (Reading (Upright cfg k fl) fl) (walkCursor cfg bid id)
      (fun c w => ((c = fin ∧ (fin + slotOverhead ≤ cfg.pebSize → fl (bucketSector bid) fin = 0xff)) ∨
        (c = cfg.pebSize ∧ tornTail cfg (fl (bucketSector bid)) fin = true)) ∧
          Reading (Upright cfg k fl) fl w)
      fun e w => (e ≠ .ENOENT ∧ (k → slotForeignAt cfg (fl (bucketSector bid)) fin = true)) ∧
        Reading (Upright cfg k fl) fl w := by
  unfold walkCursor
  apply Spec.bind (scanBucketFor_tells (E := fun _ => False) upright_readClosed upright_failsTo hv id hl)
  . intro sc
    apply Spec.assuming
    . exact fun _ h => h.1
    rintro rfl
    refine Spec.pre (P := Reading (Upright cfg k fl) fl) ?_ fun w h => h.2
    unfold confirmCursor
    simp only [Bool.not_false, if_true]
    split
    . next hforeign => exact fun w h _ => ⟨⟨by decide, fun _ => hforeign⟩, h⟩
    . next hnative =>
      split
      . next htorn =>
        unfold cursorPastTornTail
        have hforget : Goes (Reading (Upright cfg k fl) fl) (sidxForget cfg bid)
            (fun _ => Reading (Upright cfg k fl) fl) fun _ _ => False :=
          sidx_upheld fun _ _ h => h.forget fun _ _ => rfl
        rw [Proc.bind_assoc]
        apply Spec.bind hforget
        . exact fun _ => Spec.ret fun w h => ⟨.inr ⟨rfl, htorn⟩, h⟩
        . exact fun _ _ h => h.elim
        . exact fun _ h => h
      . next hwhole =>
        apply Spec.ret_bind
        apply Spec.ret
        intro w h
        refine ⟨.inl ⟨rfl, ?_⟩, h⟩
        intro hroom
        simpa [tornTail, hroom, hnative] using hwhole
  . rintro e w ⟨h | ⟨hk, rfl⟩, hw⟩
    . exact h.elim
    . exact ⟨⟨by decide, fun h => absurd h hk⟩, hw⟩
  . exact fun _ h => h

/-! Writes -/

-- A store write or erase, whatever the device makes of it.
theorem storeMutate_upright {sector : Nat} {r : Request} {P Q R : World → Prop}
    (hok : ∀ w, P w → w.nextFault = .none → Q (w.mutate sector r))
    (herr : ∀ w, P w → R (w.mutate sector r)) :
    Goes (fun w => Upright cfg k fl w ∧ P w) (storeMutate sector r)
      (fun _ w => Upright cfg k fl w ∧ Q w)
      fun e w => (e = Errno.EIO ∧ ¬ k) ∧ Upright cfg k fl w ∧ R w := by
  have hkeep : ∀ w, Upright cfg k fl w → Upright cfg k fl (w.mutate sector r) := by
    intro w h
    exact ⟨fun f hf => h.power f (List.mem_of_mem_tail hf),
      fun hk => ⟨fun f hf => (h.calm hk).1 f (List.mem_of_mem_tail hf), (h.calm hk).2⟩,
      h.patience, h.active, h.truth⟩
  have hnext : ∀ w : World, w.nextFault ≠ .none → w.nextFault ∈ w.faults := by
    intro w hne
    unfold World.nextFault at hne ⊢
    cases hf : w.faults with
    | nil => simp [hf] at hne
    | cons f fs => exact List.mem_cons_self ..
  apply storeMutate_spec
  . exact fun w h hf _ => ⟨hkeep w h.1, hok w h.2 hf⟩
  . intro w part upper h hf _
    refine ⟨⟨rfl, fun hk => ?_⟩, hkeep w h.1, herr w h.2⟩
    have hmem := hnext w (by rw [hf]; exact Fault.noConfusion)
    rw [(h.1.calm hk).1 _ hmem] at hf
    cases hf
  . intro w part upper h hf _
    have hmem := hnext w (by rw [hf]; exact Fault.noConfusion)
    apply h.1.power _ hmem
    rw [hf]
    rfl

-- All but bucket `bid` and the scratch sector is as it was.
def Apart (bid : Nat) (fl fl' : Flash) : Prop :=
  ∀ s, s ≠ bucketSector bid → s ≠ scratchSector → fl' s = fl s

theorem Apart.refl (bid : Nat) (fl : Flash) : Apart bid fl fl := fun _ _ _ => rfl

theorem Apart.trans {fl' fl'' : Flash} (h : Apart bid fl fl') (h' : Apart bid fl' fl'') :
    Apart bid fl fl'' :=
  fun s h1 h2 => (h' s h1 h2).trans (h s h1 h2)

theorem Apart.mutate {w : World} {sector : Nat} {r : Request}
    (hs : sector = bucketSector bid ∨ sector = scratchSector) (h : Apart bid fl w.flash) :
    Apart bid fl (w.mutate sector r).flash := by
  intro s h1 h2
  rw [mutate_other, h s h1 h2]
  rcases hs with rfl | rfl
  . exact h1
  . exact h2

theorem bucketSector_ne_scratch (bid : Nat) : bucketSector bid ≠ scratchSector := by
  unfold bucketSector firstBucket scratchSector
  omega

theorem Apart.bucket {fl' : Flash} (h : Apart bid fl fl') {b : Nat} (hb : b ≠ bid) :
    fl' (bucketSector b) = fl (bucketSector b) :=
  h _ (by unfold bucketSector; omega) (bucketSector_ne_scratch b)

-- What an index may believe of the other buckets does not change.
theorem Apart.onFlash {fl' : Flash} (h : Apart bid fl fl') {b : Nat} (hb : b ≠ bid) :
    BlobDb.onFlash cfg fl' b = BlobDb.onFlash cfg fl b := by
  unfold BlobDb.onFlash
  rw [h.bucket hb]

-- How the commit of a compacted image of `n` bytes fails: where nothing else does, for want of room.
def CommitFails (cfg : Cfg) (k : Prop) (fl : Flash) (bid n : Nat) (e : Errno) (w : World) : Prop :=
  (e ≠ .ENOENT ∧ (k → cfg.scratchSealOff < n)) ∧ Upright cfg k fl w ∧ Apart bid fl w.flash

-- A step of the commit, which leaves what lies apart alone.
theorem storeMutate_commit {sector n : Nat} {q : Request} {P Q : World → Prop}
    (hs : sector = bucketSector bid ∨ sector = scratchSector) (hP : ∀ w, P w → Apart bid fl w.flash)
    (hQ : ∀ w, P w → w.nextFault = .none → Q (w.mutate sector q)) :
    Goes (fun w => Upright cfg k fl w ∧ P w) (storeMutate sector q)
      (fun _ w => Upright cfg k fl w ∧ Q w) (CommitFails cfg k fl bid n) := by
  have h : Goes (fun w => Upright cfg k fl w ∧ P w) (storeMutate sector q)
      (fun _ w => Upright cfg k fl w ∧ Q w)
      fun e w => (e = Errno.EIO ∧ ¬ k) ∧ Upright cfg k fl w ∧ Apart bid fl w.flash :=
    storeMutate_upright hQ fun w h => (hP w h).mutate hs
  apply Spec.conseq h
  . exact fun _ h => h
  . exact fun _ _ h => h
  . rintro e w ⟨⟨rfl, hk⟩, h⟩
    exact ⟨⟨by decide, fun h => absurd h hk⟩, h⟩
  . exact fun _ h => h

theorem compactOrWedge_commit {n : Nat} {x : M Unit} {P Q : World → Prop}
    (hx : Goes (fun w => Upright cfg k fl w ∧ P w) x (fun _ w => Upright cfg k fl w ∧ Q w)
      (CommitFails cfg k fl bid n)) :
    Goes (fun w => Upright cfg k fl w ∧ P w) (compactOrWedge x)
      (fun _ w => Upright cfg k fl w ∧ Q w) (CommitFails cfg k fl bid n) := by
  unfold compactOrWedge
  apply hx.attempt.bind
  . rintro (e | _)
    . apply modifySt_bind (I := CommitFails cfg k fl bid n e)
      . rintro w ⟨he, h, ha⟩
        exact ⟨he, ⟨h.power, h.calm, h.patience, h.active, h.truth⟩, ha⟩
      . exact fun _ => Spec.fail fun _ h => h
    . exact Spec.ret fun _ h => h
  . exact fun _ _ h => h.elim
  . exact fun _ h => h

theorem compactCommit_upright (bid : Nat) (img : List UInt8) :
    Goes (Reading (Upright cfg k fl) fl) (compactCommit cfg bid img)
      (fun _ w => Upright cfg k fl w ∧ w.flash (bucketSector bid) = image img ∧ Apart bid fl w.flash)
      (CommitFails cfg k fl bid img.length) := by
  unfold compactCommit
  split
  . next hfull =>
    apply Spec.fail
    rintro w ⟨h, rfl⟩
    exact ⟨⟨by decide, fun _ => hfull⟩, h, Apart.refl _ _⟩
  . split
    . next hatomic =>
      unfold storeReplace
      rw [if_pos hatomic]
      apply storeMutate_commit (P := fun w => w.flash = fl) (.inl rfl)
      . rintro w rfl
        exact Apart.refl _ _
      . rintro w rfl hf
        exact ⟨by rw [mutate_whole hf]; rfl, (Apart.refl _ _).mutate (.inl rfl)⟩
    . have hscratch : ∀ q, Goes (fun w => Upright cfg k fl w ∧ Apart bid fl w.flash)
          (storeMutate scratchSector q) (fun _ w => Upright cfg k fl w ∧ Apart bid fl w.flash)
          (CommitFails cfg k fl bid img.length) :=
        fun q => storeMutate_commit (.inr rfl) (fun _ h => h) fun w h _ => h.mutate (.inr rfl)
      have hstart : Goes (Reading (Upright cfg k fl) fl) (storeErase scratchSector)
          (fun _ w => Upright cfg k fl w ∧ Apart bid fl w.flash)
          (CommitFails cfg k fl bid img.length) :=
        Spec.pre (hscratch .erase) fun w h => ⟨h.1, h.2 ▸ Apart.refl _ _⟩
      apply hstart.andThen
      intro _
      apply (hscratch _).andThen
      intro _
      apply (hscratch _).andThen
      intro _
      have herase : Goes (fun w => Upright cfg k fl w ∧ Apart bid fl w.flash)
          (storeErase (bucketSector bid))
          (fun _ w => Upright cfg k fl w ∧ w.flash (bucketSector bid) = blank ∧ Apart bid fl w.flash)
          (CommitFails cfg k fl bid img.length) :=
        storeMutate_commit (.inl rfl) (fun _ h => h) fun w h hf =>
          ⟨by rw [mutate_whole hf]; rfl, h.mutate (.inl rfl)⟩
      apply (compactOrWedge_commit herase).andThen
      intro _
      have hwrite : Goes
          (fun w => Upright cfg k fl w ∧ w.flash (bucketSector bid) = blank ∧ Apart bid fl w.flash)
          (storeWrite (bucketSector bid) 0 img)
          (fun _ w => Upright cfg k fl w ∧ w.flash (bucketSector bid) = image img ∧
            Apart bid fl w.flash) (CommitFails cfg k fl bid img.length) := by
        apply storeMutate_commit (.inl rfl) (fun _ h => h.2)
        rintro w ⟨hblank, ha⟩ hf
        refine ⟨?_, ha.mutate (.inl rfl)⟩
        rw [mutate_whole hf, hblank]
        exact program_blank _
      apply (compactOrWedge_commit hwrite).andThen
      intro _
      apply compactOrWedge_commit
      apply storeMutate_commit (.inr rfl) (fun _ h => h.2)
      rintro w ⟨himg, ha⟩ hf
      exact ⟨by rw [mutate_other (bucketSector_ne_scratch bid), himg], ha.mutate (.inr rfl)⟩

/-! Compaction -/

theorem compactionMayDropTail_congr {f g : Sector} {stop : Nat} (h : ∀ j, stop ≤ j → g j = f j) :
    compactionMayDropTail cfg g stop = compactionMayDropTail cfg f stop := by
  have hat : ∀ o n, stop ≤ o → bytesAt g o n = bytesAt f o n := by
    intro o n ho
    apply bytesAt_congr
    intro j hj _
    exact h j (by omega)
  have hhead : slotHdrAt g stop = slotHdrAt f stop := by
    unfold slotHdrAt leAt
    rw [h stop (by omega), h (stop + 1) (by omega), hat _ _ (by omega), hat _ _ (by omega)]
  have hforeign : slotForeignAt cfg g stop = slotForeignAt cfg f stop := by
    unfold slotForeignAt slotIntactAt leAt
    simp only [hhead]
    rw [hat _ _ (by omega), hat _ _ (by omega), hat _ _ (by omega), hat _ _ (by omega)]
  unfold compactionMayDropTail allErased
  rw [hforeign]
  simp only
  rw [hat _ _ (by omega)]

-- The slots that the index notes of a compacted image.
theorem noteImage_upheld (hv : cfg.Valid) {buf : Sector} {newLen n off : Nat} {pre rest : List Entry}
    {log : Nat → Believed} {g : Flash} (hp : Path cfg buf off rest newLen) (hn : rest.length ≤ n)
    (hintact : ∀ x ∈ rest, x.intact = true)
    (hhome : cfg.slotIndex = true → ∀ x ∈ rest, cfg.idToBucket x.head.id = bid ∧ x.head.id ≠ 0)
    (hcount : pre.length + rest.length < 65536) (hend : newLen ≤ cfg.pebSize)
    (hlog : log bid = ⟨pre, off⟩) :
    Goes (Reading (Upheld cfg k log) g) (noteImage cfg bid buf newLen n off)
      (fun off' w => off' = newLen ∧
        Reading (Upheld cfg k (Function.update log bid ⟨pre ++ rest, newLen⟩)) g w)
      fun _ _ => False := by
  induction n generalizing off pre rest log with
  | zero =>
    cases List.eq_nil_of_length_eq_zero (Nat.le_zero.mp hn)
    cases hp
    apply Spec.ret
    intro w h
    rw [List.append_nil, ← hlog, Function.update_eq_self]
    exact ⟨rfl, h⟩
  | succ n ih =>
    unfold noteImage
    cases hp with
    | nil =>
      rw [if_neg (Nat.lt_irrefl _)]
      apply Spec.ret
      intro w h
      rw [List.append_nil, ← hlog, Function.update_eq_self]
      exact ⟨rfl, h⟩
    | @cons _ _ rest hw hrest =>
      have hsize := (entryAt buf off).size_ge cfg
      have hle := hrest.le
      have hpeb : cfg.pebSize ≤ 65536 := hv.buf.trans cfg.sector_range.2
      unfold slotOverhead at hsize
      simp only [List.length_cons] at hn hcount
      rw [if_pos (by omega), slotWalkAt_eq, if_pos hw, hintact _ (List.mem_cons_self ..)]
      simp only
      have hnote : Goes (Reading (Upheld cfg k log) g)
          (sidxNote cfg bid (slotHdrAt buf off).id off ((entryAt buf off).size cfg)
            ((slotHdrAt buf off).flags &&& slotTombstone != 0))
          (fun _ => Reading (Upheld cfg k (Function.update log bid
            ⟨pre ++ [entryAt buf off], off + (entryAt buf off).size cfg⟩)) g) fun _ _ => False := by
        apply sidx_upheld
        intro hs t ht
        obtain ⟨hb, hid⟩ := hhome hs _ (List.mem_cons_self ..)
        apply ht.note hid hb (by omega)
        . exact fun b hne => Function.update_of_ne hne _ _
        . rw [Function.update_self, hlog]
          rfl
        . rw [hlog]
          simp only
          omega
        . show off + _ < _
          omega
      apply Spec.bind hnote
      . intro _
        have hself : Function.update log bid ⟨pre ++ [entryAt buf off], off + (entryAt buf off).size cfg⟩ bid =
            ⟨pre ++ [entryAt buf off], off + (entryAt buf off).size cfg⟩ := Function.update_self ..
        have hrec := ih hrest (by omega) (fun x hx => hintact x (List.mem_cons_of_mem _ hx))
          (fun hs x hx => hhome hs x (List.mem_cons_of_mem _ hx))
          (by simp only [List.length_append, List.length_cons, List.length_nil]; omega) hself
        apply Spec.conseq hrec
        . exact fun _ h => h
        . rintro off' w ⟨rfl, h⟩
          rw [Function.update_idem, List.append_assoc] at h
          exact ⟨rfl, h⟩
        . exact fun _ _ h => h
        . exact fun _ h => h
      . exact fun _ _ h => h.elim
      . exact fun _ h => h

theorem AtHome.survivors (h : AtHome cfg bid es) (off : Nat) :
    AtHome cfg bid (repack cfg off (survivors es)) := by
  constructor
  . intro x hx hi
    obtain ⟨y, hy, hhead, -, hintact⟩ := mem_repack hx
    rw [hhead]
    exact h.intact y (mem_survivors hy) (hintact ▸ hi)
  . intro hs x hx
    obtain ⟨y, hy, hhead, -, -⟩ := mem_repack hx
    rw [hhead]
    exact h.indexed hs y (mem_survivors hy)

theorem survivors_intact {off : Nat} {x : Entry} (h : x ∈ repack cfg off (survivors es)) :
    x.intact = true := by
  obtain ⟨y, hy, -, -, hintact⟩ := mem_repack h
  exact hintact.trans (mem_survivors_live hy).1

-- What a compaction leaves: the live slots moved together, and nothing behind them.
structure Packed (cfg : Cfg) (bid : Nat) (es : List Entry) (f : Sector) : Prop where
  header : bucketHdrValid f bid = true
  log : BucketLog cfg f (repack cfg bucketDataOff (survivors es))
    (bucketDataOff + ((survivors es).map (Entry.size cfg)).sum)
  clean : Clean cfg f (bucketDataOff + ((survivors es).map (Entry.size cfg)).sum)

theorem sidxForget_upright {g : Flash} (h : Apart bid fl g) :
    Goes (Reading (Upright cfg k fl) g) (sidxForget cfg bid) (fun _ => Reading (Upright cfg k g) g)
      fun _ _ => False :=
  sidx_upheld fun _ _ ht => ht.forget fun _ hb => h.onFlash hb

-- The index is told the slots of the image one by one, or forgets the bucket.
theorem noteImage_upright (hv : cfg.Valid) {buf : Sector} {len : Nat} {g : Flash}
    (hhome : AtHome cfg bid es) (hapart : Apart bid fl g) (hpacked : Packed cfg bid es (g (bucketSector bid)))
    (hlen : len = bucketDataOff + ((survivors es).map (Entry.size cfg)).sum)
    (hbuf : ∀ j, bucketDataOff ≤ j → j < len → g (bucketSector bid) j = buf j) :
    Goes (Reading (Upright cfg k fl) g)
      (do
        sidxBegin cfg bid bucketDataOff
        let off ← noteImage cfg bid buf len cfg.pebSize bucketDataOff
        Proc.when (off != len) (sidxForget cfg bid))
      (fun _ => Reading (Upright cfg k g) g) fun _ _ => False := by
  subst hlen
  have hcount := hpacked.log.length_lt hv
  have hpeb : cfg.pebSize ≤ 65536 := hv.buf.trans cfg.sector_range.2
  have hnative := hpacked.clean.not_foreign
  have hbelieved := hpacked.log.onFlash hv
  rw [hpacked.header, hnative] at hbelieved
  have hbegin : Goes (Reading (Upright cfg k fl) g) (sidxBegin cfg bid bucketDataOff)
      (fun _ => Reading (Upheld cfg k (Function.update (onFlash cfg g) bid ⟨[], bucketDataOff⟩)) g)
      fun _ _ => False := by
    apply sidx_upheld
    intro _ t ht
    apply ht.begin
    . intro b hb
      rw [Function.update_of_ne hb, hapart.onFlash hb]
    . exact Function.update_self ..
  apply hbegin.andThen
  intro _
  have hpath := hpacked.log.path.congr hbuf
  have hself : Function.update (onFlash cfg g) bid ⟨[], bucketDataOff⟩ bid = ⟨[], bucketDataOff⟩ :=
    Function.update_self ..
  have hnotes := noteImage_upheld (k := k) (g := g) hv hpath hcount.le
    (fun _ hx => survivors_intact hx) (hhome.survivors bucketDataOff).indexed
    (by simp only [List.length_nil]; omega) (hpacked.log.path.fin_le (bucketDataOff_le hv)) hself
  apply hnotes.andThen
  intro off
  apply Spec.assuming
  . exact fun _ h => h.1
  rintro rfl
  rw [Function.update_idem, List.nil_append]
  have hid : Function.update (onFlash cfg g) bid ⟨repack cfg bucketDataOff (survivors es),
      bucketDataOff + ((survivors es).map (Entry.size cfg)).sum⟩ = onFlash cfg g := by
    apply Function.update_eq_self_iff.mpr
    rw [hbelieved]
    rfl
  rw [hid]
  unfold Proc.when
  rw [if_neg (by simp)]
  exact Spec.ret fun w h => h.2

theorem compactBucket_upright (hv : cfg.Valid) (hbid : bid < 2 ^ 16)
    (hl : BucketLog cfg (fl (bucketSector bid)) es fin) (hhome : AtHome cfg bid es) :
    Goes (Reading (Upright cfg k fl) fl) (compactBucket cfg bid)
      (fun _ w => ∃ g, Reading (Upright cfg k g) g w ∧ Apart bid fl g ∧
        Packed cfg bid es (g (bucketSector bid)))
      fun e w => (e ≠ .ENOENT ∧ (k → ¬ Compactable cfg bid (fl (bucketSector bid)) es fin)) ∧
        ∃ g, Reading (Upright cfg k g) g w ∧ Apart bid fl g := by
  obtain ⟨img, len, hb, hlog, hclean, hbytes, htail⟩ := buildCompactedImage_spec hv hl bid
  have hlen : len = bucketDataOff + ((survivors es).map (Entry.size cfg)).sum := by
    rw [← hlog.path.sum_size, sum_repack]
  have hsame : ∀ w, Reading (Upright cfg k fl) fl w →
      ∃ g, Reading (Upright cfg k g) g w ∧ Apart bid fl g := fun w h => ⟨fl, h, Apart.refl _ _⟩
  have hread : Goes (Reading (Upright cfg k fl) fl) (readBucket bid)
      (fun buf w => buf = fl (bucketSector bid) ∧ Reading (Upright cfg k fl) fl w)
      fun e w => (e = Errno.EIO ∧ ¬ k) ∧ Reading (Upright cfg k fl) fl w :=
    readFlash_upright (f := fun flash => flash (bucketSector bid))
  unfold compactBucket
  apply Spec.bind hread
  . intro buf
    apply Spec.assuming (φ := buf = fl (bucketSector bid))
    . exact fun _ h => h.1
    rintro rfl
    refine Spec.pre (P := Reading (Upright cfg k fl) fl) ?_ fun w h => h.2
    split
    . next hbad =>
      apply Spec.fail
      intro w h
      refine ⟨⟨by decide, fun _ hc => ?_⟩, hsame w h⟩
      rw [hc.1] at hbad
      cases hbad
    . simp only [hb]
      rw [compactionMayDropTail_congr htail]
      apply Spec.ofExcept_bind
      . intro e he w h
        refine ⟨⟨?_, fun _ hc => ?_⟩, hsame w h⟩
        . rintro rfl
          unfold compactionMayDropTail at he
          split at he
          . cases he
          . simp only at he
            split at he <;> cases he
        . rw [hc.2.1] at he
          cases he
      intro _ _
      apply (compactCommit_upright bid (bytesAt img 0 len)).attempt.bind
      . rintro (e | _)
        . have hgiven : ∀ w, CommitFails cfg k fl bid (bytesAt img 0 len).length e w →
              ∃ g, ((e ≠ .ENOENT ∧ (k → cfg.scratchSealOff < (bytesAt img 0 len).length)) ∧
                Apart bid fl g) ∧ Reading (Upright cfg k fl) g w :=
            fun w h => ⟨w.flash, ⟨h.1, h.2.2⟩, h.2.1, rfl⟩
          refine Spec.pre (Spec.given fun g => Spec.fact fun ⟨⟨he, hfull⟩, hapart⟩ => ?_) hgiven
          apply Spec.bind (sidxForget_upright hapart)
          . intro _
            apply Spec.fail
            intro w h
            refine ⟨⟨he, fun hk hc => ?_⟩, g, h, hapart⟩
            have := hfull hk
            rw [bytesAt_length] at this
            have := hc.2.2
            omega
          . exact fun _ _ h => h.elim
          . exact fun _ h => h
        . have hgiven : ∀ w, Upright cfg k fl w ∧
              w.flash (bucketSector bid) = image (bytesAt img 0 len) ∧ Apart bid fl w.flash →
              ∃ g, (g (bucketSector bid) = image (bytesAt img 0 len) ∧ Apart bid fl g) ∧
                Reading (Upright cfg k fl) g w := fun w h => ⟨w.flash, h.2, h.1, rfl⟩
          refine Spec.pre (Spec.given fun g => Spec.fact fun ⟨himg, hapart⟩ => ?_) hgiven
          have hpacked : Packed cfg bid es (g (bucketSector bid)) := by
            rw [himg]
            refine ⟨?_, hlen ▸ hlog, hlen ▸ hclean⟩
            have hhdr := bucketHdrBytes_length bid (leAt (fl (bucketSector bid)) 8 4 + 1)
            apply bucketHdrValid_written hbid
            rw [hbytes, ← program_blank, ← hhdr]
            exact (bytesAt_split (bytesAt_program fun _ _ _ => rfl)).1
          have hbuf : ∀ j, bucketDataOff ≤ j → j < len → g (bucketSector bid) j = img j := by
            intro j _ hj
            rw [himg, image_bytesAt hj, Nat.zero_add]
          apply (noteImage_upright hv hhome hapart hpacked hlen hbuf).conseq
          . exact fun _ h => h
          . exact fun _ w h => ⟨g, h, hapart, hpacked⟩
          . exact fun _ _ h => h.elim
          . exact fun _ h => h
      . exact fun _ _ h => h.elim
      . exact fun _ h => h
  . rintro e w ⟨⟨rfl, hk⟩, h⟩
    exact ⟨⟨by decide, fun h => absurd h hk⟩, hsame w h⟩
  . exact fun _ h => h

/-! A release -/

-- A bucket between two steps of a sweep: nothing is hidden behind its log.
structure Settled (cfg : Cfg) (bid : Nat) (f : Sector) (es : List Entry) (fin : Nat) : Prop where
  header : bucketHdrValid f bid = true
  log : BucketLog cfg f es fin
  home : AtHome cfg bid es
  tail : f fin = 0xff → Clean cfg f fin

def segTombstone (off sid : Nat) : Entry :=
  appended off (slotSealed ||| (slotTombstone ||| slotSegment)) sid []

theorem Packed.settled {g : Flash} (h : Packed cfg bid es (g (bucketSector bid)))
    (hhome : AtHome cfg bid es) :
    Settled cfg bid (g (bucketSector bid)) (repack cfg bucketDataOff (survivors es))
      (bucketDataOff + ((survivors es).map (Entry.size cfg)).sum) :=
  ⟨h.header, h.log, hhome.survivors _, fun _ => h.clean⟩

theorem Clean.mayDropTail {f : Sector} (h : Clean cfg f fin) :
    compactionMayDropTail cfg f fin = .ok () := by
  unfold compactionMayDropTail
  rw [h.not_foreign]
  simp only [Bool.false_eq_true, if_false]
  rw [if_pos]
  rw [allErased_iff]
  intro j h1 h2
  exact h j (by omega) (by omega)

theorem Clean.not_torn {f : Sector} (h : Clean cfg f fin) : tornTail cfg f fin = false := by
  unfold tornTail
  by_cases hroom : fin + slotOverhead ≤ cfg.pebSize
  . have herased := h fin (Nat.le_refl _) (by unfold slotOverhead at hroom; omega)
    simp [herased]
  . simp [hroom]

-- Where slots may be released the build knows them.
theorem large_of_segment {f : Sector} {off : Nat} (hw : walkable cfg f off = true)
    (hseg : (slotHdrAt f off).flags &&& slotSegment ≠ 0) : cfg.large = true := by
  by_contra hlarge
  have hends := (walkable_iff.mp hw).2.1
  unfold headEndsLog Cfg.slotKnown at hends
  rw [if_neg hlarge] at hends
  generalize slotHdrAt f off = h at hends hseg
  simp only [Bool.or_eq_false_iff, bne_eq_false_iff_eq] at hends
  have hunknown := hends.2.2.1
  have hsub : ~~~(slotSealed ||| slotTombstone) &&& slotSegment = slotSegment := by decide
  apply hseg
  rw [← hsub, ← UInt8.and_assoc, hunknown, UInt8.zero_and]

-- What a compaction keeps after a tombstone of `id` is what it kept before, but for `id`.
theorem survivors_snoc {y : Entry} (hi : y.intact = true) (ht : y.tombstone = true) :
    survivors (es ++ [y]) = (survivors es).filter fun x => x.head.id != y.head.id := by
  induction es with
  | nil => simp [survivors, ht]
  | cons x es ih =>
    have hnew : newest x.head.id (es ++ [y]) = none ↔
        newest x.head.id es = none ∧ x.head.id ≠ y.head.id := by
      rw [newest_append, Option.or_eq_none_iff, newest_cons, newest_nil, Option.none_or]
      by_cases hid : y.head.id = x.head.id
      . simp [hi, hid]
      . simp [hid, Ne.symm hid]
    rw [List.cons_append, survivors, survivors, ih]
    by_cases hkeep : x.intact && (!x.tombstone && (newest x.head.id es).isNone)
    . rw [if_pos hkeep, List.filter_cons]
      rw [Bool.and_eq_true, Bool.and_eq_true, Option.isNone_iff_eq_none] at hkeep
      by_cases hid : x.head.id = y.head.id
      . have hgone : newest x.head.id (es ++ [y]) ≠ none := fun h => (hnew.mp h).2 hid
        rw [if_neg, if_neg (by simp [hid])]
        simp [hgone]
      . rw [if_pos, if_pos (by simp [hid])]
        simp [hkeep, hnew, hid]
    . rw [if_neg hkeep, if_neg]
      intro hkeep'
      apply hkeep
      rw [Bool.and_eq_true, Bool.and_eq_true, Option.isNone_iff_eq_none] at hkeep' ⊢
      exact ⟨hkeep'.1, hkeep'.2.1, (hnew.mp hkeep'.2.2).1⟩

theorem survivor_of_live (h : liveIn es id ≠ none) : ∃ x ∈ survivors es, x.head.id = id := by
  rw [← liveIn_survivors] at h
  unfold liveIn at h
  cases hn : newest id (survivors es) with
  | none =>
    rw [hn] at h
    exact absurd rfl h
  | some x => exact ⟨x, (newest_some hn).1, (newest_some hn).2.2⟩

@[simp]
theorem segTombstone_tombstone (off sid : Nat) : (segTombstone off sid).tombstone = true := by
  show ((slotSealed ||| (slotTombstone ||| slotSegment)) &&& slotTombstone != 0) = true
  decide

-- A tombstone of a live id leaves one slot less to keep.
theorem survivors_released {off sid : Nat} (h : liveIn es sid ≠ none) :
    (survivors (es ++ [segTombstone off sid])).length < (survivors es).length := by
  rw [survivors_snoc rfl (segTombstone_tombstone off sid)]
  apply List.length_filter_lt_length_iff_exists.mpr
  obtain ⟨x, hx, hid⟩ := survivor_of_live h
  exact ⟨x, hx, by simp [segTombstone, appended, hid]⟩

theorem repack_length (off : Nat) (es : List Entry) : (repack cfg off es).length = es.length := by
  induction es generalizing off with
  | nil => rfl
  | cons x es ih => rw [repack, List.length_cons, List.length_cons, ih]

-- So does a compaction with the tombstone behind it.
theorem survivors_moved {off off' sid : Nat} (h : liveIn es sid ≠ none) :
    (survivors (repack cfg off (survivors es) ++ [segTombstone off' sid])).length <
      (survivors es).length := by
  have hlive : liveIn (repack cfg off (survivors es)) sid ≠ none := by
    rw [liveIn_repack, liveIn_survivors]
    exact h
  have h1 : (survivors (repack cfg off (survivors es) ++ [segTombstone off' sid])).length <
      (survivors (repack cfg off (survivors es))).length := survivors_released hlive
  have h2 := survivors_length_le (repack cfg off (survivors es))
  rw [repack_length] at h2
  omega

theorem liveIn_snoc (off sid : Nat) :
    liveIn (es ++ [segTombstone off sid]) id = if id = sid then none else liveIn es id := by
  unfold liveIn
  rw [newest_append, newest_cons, newest_nil, Option.none_or]
  by_cases hid : id = sid
  . subst hid
    have hnew : ((segTombstone off id).intact && (segTombstone off id).head.id == id) = true := by
      simp [segTombstone, appended]
    rw [if_pos hnew, Option.some_or, Option.bind_some, if_pos rfl]
    unfold Entry.stored
    rw [if_pos (segTombstone_tombstone off id)]
  . have hne : ((segTombstone off sid).head.id == id) = false := by
      simpa [segTombstone, appended] using Ne.symm hid
    simp [hne, hid]

-- The bytes that a compaction keeps do not become more.
theorem liveSize_moved (off off' sid : Nat) :
    ((survivors (repack cfg off (survivors es) ++ [segTombstone off' sid])).map (Entry.size cfg)).sum ≤
      ((survivors es).map (Entry.size cfg)).sum := by
  have h1 : ((survivors (repack cfg off (survivors es) ++ [segTombstone off' sid])).map
      (Entry.size cfg)).sum ≤ ((survivors (repack cfg off (survivors es))).map (Entry.size cfg)).sum :=
    survivors_tombstone (segTombstone_tombstone off' sid)
  have h2 : ((survivors (repack cfg off (survivors es))).map (Entry.size cfg)).sum ≤
      ((repack cfg off (survivors es)).map (Entry.size cfg)).sum := sum_survivors_le _
  rw [sum_repack] at h2
  omega

theorem Settled.append (hv : cfg.Valid) (hlarge : cfg.large = true) {f : Sector}
    (h : Settled cfg bid f es fin) {sid : Nat} (hsid : sid < 2 ^ 64) (hhome : cfg.idToBucket sid = bid)
    (hnamed : cfg.slotIndex = true → sid ≠ 0) (hend : f fin = 0xff)
    (hroom : fin + cfg.slotSizeFor 0 ≤ cfg.pebSize) :
    Settled cfg bid (program f fin (slotImage cfg (slotSealed ||| (slotTombstone ||| slotSegment)) sid []))
        (es ++ [segTombstone fin sid]) (fin + cfg.slotSizeFor 0) ∧
      Clean cfg (program f fin (slotImage cfg (slotSealed ||| (slotTombstone ||| slotSegment)) sid []))
        (fin + cfg.slotSizeFor 0) := by
  have hflags : FlagsOk cfg (slotSealed ||| (slotTombstone ||| slotSegment)) := by
    unfold FlagsOk Cfg.slotKnown
    rw [if_pos hlarge]
    decide
  have happ : Appendable cfg f fin (slotSealed ||| (slotTombstone ||| slotSegment)) sid [] :=
    ⟨h.tail hend, hroom, hflags, hsid, Nat.zero_le _⟩
  obtain ⟨hlog, hclean⟩ := BucketLog.append happ hv h.log.path
  have hfin := h.log.path.le
  refine ⟨⟨?_, hlog, ⟨?_, ?_⟩, fun _ => hclean⟩, hclean⟩
  . rw [← h.header]
    apply bucketHdrValid_congr
    intro j hj
    rw [program_of_lt (by omega)]
  . intro x hx hi
    rcases List.mem_append.mp hx with hx | hx
    . exact h.home.intact x hx hi
    . rw [List.mem_singleton.mp hx]
      exact hhome
  . intro hs x hx
    rcases List.mem_append.mp hx with hx | hx
    . exact h.home.indexed hs x hx
    . rw [List.mem_singleton.mp hx]
      exact ⟨hhome, hnamed hs⟩

theorem Settled.onFlash (hv : cfg.Valid) (h : Settled cfg bid (fl (bucketSector bid)) es fin)
    (hclean : Clean cfg (fl (bucketSector bid)) fin) : BlobDb.onFlash cfg fl bid = ⟨es, fin⟩ := by
  have hnative := hclean.not_foreign
  rw [h.log.onFlash hv, h.header, hnative]
  rfl

-- The tombstone of a release where the log ends at an erased byte.
theorem appendTombstone_upright (hv : cfg.Valid) (hlarge : cfg.large = true)
    (h : Settled cfg bid (fl (bucketSector bid)) es fin) {sid : Nat} (hsid : sid < 2 ^ 64)
    (hhome : cfg.idToBucket sid = bid) (hnamed : cfg.slotIndex = true → sid ≠ 0)
    (hend : fl (bucketSector bid) fin = 0xff) (hroom : fin + cfg.slotSizeFor 0 ≤ cfg.pebSize) :
    Goes (Reading (Upright cfg k fl) fl)
      (appendSlot2 cfg bid fin sid (slotTombstone ||| slotSegment) [] [])
      (fun _ w => ∃ g, Reading (Upright cfg k g) g w ∧ Apart bid fl g ∧
        Settled cfg bid (g (bucketSector bid)) (es ++ [segTombstone fin sid]) (fin + cfg.slotSizeFor 0) ∧
        Clean cfg (g (bucketSector bid)) (fin + cfg.slotSizeFor 0) ∧
        ∀ j, j < fin → g (bucketSector bid) j = fl (bucketSector bid) j)
      fun e w => (e ≠ .ENOENT ∧ ¬ k) ∧ ∃ g, Reading (Upright cfg k g) g w ∧ Apart bid fl g := by
  obtain ⟨hsettled, hclean⟩ := h.append hv hlarge hsid hhome hnamed hend hroom
  have hold := h.onFlash hv (h.tail hend)
  have hcount := hsettled.log.length_lt hv
  have hpeb : cfg.pebSize ≤ 65536 := hv.buf.trans cfg.sector_range.2
  have hpos := slotSizeFor_ge cfg 0
  have hinvalidate : Goes (Reading (Upright cfg k fl) fl) (idxInvalidate cfg)
      (fun _ => Reading (Upright cfg k fl) fl) fun _ _ => False := by
    unfold idxInvalidate
    rw [if_pos hlarge]
    apply modifySt_spec
    intro w h
    exact ⟨⟨h.1.power, h.1.calm, h.1.patience, h.1.active, h.1.truth⟩, h.2⟩
  have hwrite : Goes (Reading (Upright cfg k fl) fl)
      (storeWrite (bucketSector bid) fin
        (slotImage cfg (slotSealed ||| (slotTombstone ||| slotSegment)) sid ([] ++ [])))
      (fun _ w => Upright cfg k fl w ∧ w.flash (bucketSector bid) = program (fl (bucketSector bid)) fin
        (slotImage cfg (slotSealed ||| (slotTombstone ||| slotSegment)) sid []) ∧ Apart bid fl w.flash)
      fun e w => (e = Errno.EIO ∧ ¬ k) ∧ Upright cfg k fl w ∧ Apart bid fl w.flash := by
    apply storeMutate_upright (P := fun w => w.flash = fl)
    . rintro w rfl hf
      exact ⟨by rw [mutate_whole hf]; rfl, (Apart.refl _ _).mutate (.inl rfl)⟩
    . rintro w rfl
      exact (Apart.refl _ _).mutate (.inl rfl)
  have halign := hv.align
  unfold appendSlot2
  simp only
  rw [if_neg (by simp), if_neg (by omega)]
  apply Spec.bind hinvalidate
  . intro _
    apply hwrite.attempt.bind
    . rintro (e | _)
      . have hgiven : ∀ w, (e = Errno.EIO ∧ ¬ k) ∧ Upright cfg k fl w ∧ Apart bid fl w.flash →
            ∃ g, ((e = Errno.EIO ∧ ¬ k) ∧ Apart bid fl g) ∧ Reading (Upright cfg k fl) g w :=
          fun w h => ⟨w.flash, ⟨h.1, h.2.2⟩, h.2.1, rfl⟩
        refine Spec.pre (Spec.given fun g => Spec.fact fun ⟨⟨he, hk⟩, hapart⟩ => ?_) hgiven
        subst he
        apply Spec.bind (sidxForget_upright hapart)
        . intro _
          apply Spec.fail
          intro w h
          exact ⟨⟨by decide, hk⟩, g, h, hapart⟩
        . exact fun _ _ h => h.elim
        . exact fun _ h => h
      . have hgiven : ∀ w, Upright cfg k fl w ∧
            w.flash (bucketSector bid) = program (fl (bucketSector bid)) fin
              (slotImage cfg (slotSealed ||| (slotTombstone ||| slotSegment)) sid []) ∧
            Apart bid fl w.flash →
            ∃ g, (g (bucketSector bid) = program (fl (bucketSector bid)) fin
              (slotImage cfg (slotSealed ||| (slotTombstone ||| slotSegment)) sid []) ∧
              Apart bid fl g) ∧ Reading (Upright cfg k fl) g w := fun w h => ⟨w.flash, h.2, h.1, rfl⟩
        refine Spec.pre (Spec.given fun g => Spec.fact fun ⟨hbytes, hapart⟩ => ?_) hgiven
        rw [← hbytes] at hsettled hclean
        have hnew := hsettled.onFlash hv hclean
        have hnote : Goes (Reading (Upright cfg k fl) g)
            (sidxNote cfg bid sid fin (cfg.slotSizeFor 0)
              ((slotTombstone ||| slotSegment) &&& slotTombstone != 0))
            (fun _ => Reading (Upright cfg k g) g) fun _ _ => False := by
          apply sidx_upheld
          intro hs t ht
          have htomb : ((slotTombstone ||| slotSegment) &&& slotTombstone != 0) =
              (segTombstone fin sid).tombstone := (segTombstone_tombstone fin sid).symm
          rw [htomb]
          have hsnoc : (BlobDb.onFlash cfg fl bid).slots.length + 1 < 65536 := by
            rw [hold]
            rw [List.length_append] at hcount
            exact hcount.trans_le hpeb
          have hbelieved : BlobDb.onFlash cfg g bid = ⟨(BlobDb.onFlash cfg fl bid).slots ++
              [segTombstone fin sid], (segTombstone fin sid).off + cfg.slotSizeFor 0⟩ := by
            rw [hnew, hold]
            rfl
          exact ht.note (hnamed hs) hhome (by unfold slotOverhead at hpos; omega)
            (fun b hb => hapart.onFlash hb) hbelieved hsnoc (by show fin + _ < _; omega)
        apply Spec.conseq hnote
        . exact fun _ h => h
        . intro _ w h
          refine ⟨g, h, hapart, hsettled, hclean, ?_⟩
          intro j hj
          rw [hbytes, program_of_lt hj]
        . exact fun _ _ h => h.elim
        . exact fun _ h => h
    . exact fun _ _ h => h.elim
    . exact fun _ h => h
  . exact fun _ _ h => h.elim
  . exact fun _ h => h

-- What a release of `sid` made of its bucket. Where it did not compact, the old slots lie where they
-- were.
structure Released (cfg : Cfg) (bid : Nat) (fl : Flash) (es : List Entry) (fin sid : Nat) (moved : Bool)
    (g : Flash) (es' : List Entry) (fin' : Nat) : Prop where
  apart : Apart bid fl g
  settled : Settled cfg bid (g (bucketSector bid)) es' fin'
  clean : Clean cfg (g (bucketSector bid)) fin'
  fewer : (survivors es').length < (survivors es).length
  bytes : ((survivors es').map (Entry.size cfg)).sum ≤ ((survivors es).map (Entry.size cfg)).sum
  live : ∀ id, liveIn es' id = if id = sid then none else liveIn es id
  inPlace : moved = false → es' = es ++ [segTombstone fin sid] ∧ fin' = fin + cfg.slotSizeFor 0 ∧
    ∀ j, j < fin → g (bucketSector bid) j = fl (bucketSector bid) j

-- A compaction and a release leave a roomy bucket roomy.
-- No foreign slot ends the log of a roomy bucket.
theorem Roomy.native {f : Sector} (h : Roomy cfg bid f es fin) : slotForeignAt cfg f fin = false := by
  obtain ⟨⟨-, hdrop, -⟩, -⟩ := h
  cases hf : slotForeignAt cfg f fin with
  | false => rfl
  | true =>
    unfold compactionMayDropTail at hdrop
    rw [hf, if_pos rfl] at hdrop
    cases hdrop

theorem Released.roomy {g : Flash} {es' : List Entry} {fin' sid : Nat} {moved : Bool}
    (h : Released cfg bid fl es fin sid moved g es' fin')
    (hroomy : Roomy cfg bid (fl (bucketSector bid)) es fin) :
    Roomy cfg bid (g (bucketSector bid)) es' fin' := by
  obtain ⟨⟨-, -, hfits⟩, hslot⟩ := hroomy
  have hbytes := h.bytes
  exact ⟨⟨h.settled.header, h.clean.mayDropTail, by omega⟩, by omega⟩

-- The tombstone proper, where a walk found the cursor.
theorem segReleaseOne_append (hv : cfg.Valid) (hlarge : cfg.large = true)
    (h : Settled cfg bid (fl (bucketSector bid)) es fin) {sid c : Nat} (hsid : sid < 2 ^ 64)
    (hhome : cfg.idToBucket sid = bid) (hnamed : cfg.slotIndex = true → sid ≠ 0)
    (hc : (c = fin ∧ (fin + slotOverhead ≤ cfg.pebSize → fl (bucketSector bid) fin = 0xff)) ∨
      (c = cfg.pebSize ∧ tornTail cfg (fl (bucketSector bid)) fin = true))
    (hroom : ¬ cfg.pebSize < c + cfg.slotSizeFor 0) (moved : Bool) :
    Goes (Reading (Upright cfg k fl) fl)
      (do
        appendSlot2 cfg bid c sid (slotTombstone ||| slotSegment) [] []
        pure moved)
      (fun m w => m = moved ∧ ∃ g, Reading (Upright cfg k g) g w ∧ Apart bid fl g ∧
        Settled cfg bid (g (bucketSector bid)) (es ++ [segTombstone fin sid]) (fin + cfg.slotSizeFor 0) ∧
        Clean cfg (g (bucketSector bid)) (fin + cfg.slotSizeFor 0) ∧
        ∀ j, j < fin → g (bucketSector bid) j = fl (bucketSector bid) j)
      fun e w => (e ≠ .ENOENT ∧ ¬ k) ∧ ∃ g, Reading (Upright cfg k g) g w ∧ Apart bid fl g := by
  have hpos := slotSizeFor_ge cfg 0
  unfold slotOverhead at hpos hc
  rcases hc with ⟨rfl, hend⟩ | ⟨rfl, -⟩
  . apply (appendTombstone_upright hv hlarge h hsid hhome hnamed (hend (by omega)) (by omega)).andThen
    intro _
    exact Spec.ret fun w h => ⟨rfl, h⟩
  . omega

theorem segReleaseOne_upright (hv : cfg.Valid) (hlarge : cfg.large = true)
    (h : Settled cfg bid (fl (bucketSector bid)) es fin) {sid : Nat} (hsid : sid < 2 ^ 64)
    (hhome : cfg.idToBucket sid = bid) (hnamed : cfg.slotIndex = true → sid ≠ 0)
    (hlive : liveIn es sid ≠ none) :
    Goes (Reading (Upright cfg k fl) fl) (segReleaseOne cfg sid)
      (fun moved w => ∃ g es' fin', Reading (Upright cfg k g) g w ∧
        Released cfg bid fl es fin sid moved g es' fin')
      fun e w => (e ≠ .ENOENT ∧ (k → ¬ Roomy cfg bid (fl (bucketSector bid)) es fin)) ∧
        ∃ g, Reading (Upright cfg k g) g w ∧ Apart bid fl g := by
  have hsame : ∀ w, Reading (Upright cfg k fl) fl w →
      ∃ g, Reading (Upright cfg k g) g w ∧ Apart bid fl g := fun w h => ⟨fl, h, Apart.refl _ _⟩
  unfold segReleaseOne
  simp only [hhome]
  apply Spec.bind (readBucketHdr_upright bid)
  . intro formatted
    apply Spec.assuming
    . exact fun _ h => h.1
    rintro rfl
    refine Spec.pre (P := Reading (Upright cfg k fl) fl) ?_ fun w h => h.2
    rw [h.header, if_neg (by decide)]
    apply Spec.bind (walkCursor_upright hv h.log sid)
    . intro c
      apply Spec.assuming
      . exact fun _ h => h.1
      intro hc
      refine Spec.pre (P := Reading (Upright cfg k fl) fl) ?_ fun w h => h.2
      split
      . apply Spec.bind (compactBucket_upright hv (hhome ▸ idToBucket_lt16 hv sid) h.log h.home)
        . intro _
          have hgiven : ∀ w, (∃ g, Reading (Upright cfg k g) g w ∧ Apart bid fl g ∧
              Packed cfg bid es (g (bucketSector bid))) → ∃ g, (Apart bid fl g ∧
              Packed cfg bid es (g (bucketSector bid))) ∧ Reading (Upright cfg k g) g w :=
            fun w ⟨g, h1, h2⟩ => ⟨g, h2, h1⟩
          refine Spec.pre (Spec.given fun g => Spec.fact fun ⟨hapart, hpacked⟩ => ?_) hgiven
          have hsettled := hpacked.settled h.home
          apply Spec.bind (walkCursor_upright hv hpacked.log sid)
          . intro c'
            apply Spec.assuming
            . exact fun _ h => h.1
            intro hc'
            refine Spec.pre (P := Reading (Upright cfg k g) g) ?_ fun w h => h.2
            split
            . next hfull =>
              apply Spec.fail
              intro w hw
              refine ⟨⟨by decide, fun _ hroomy => ?_⟩, g, hw, hapart⟩
              have hslot := hroomy.2
              rcases hc' with ⟨rfl, -⟩ | ⟨-, htorn⟩
              . omega
              . have hwhole := hpacked.clean.not_torn
                rw [hwhole] at htorn
                cases htorn
            . next hroom =>
              apply Spec.conseq (segReleaseOne_append hv hlarge hsettled hsid hhome hnamed hc' hroom true)
              . exact fun _ h => h
              . rintro moved w ⟨rfl, g', hw, hapart', hsettled', hclean, -⟩
                refine ⟨g', _, _, hw, hapart.trans hapart', hsettled', hclean, survivors_moved hlive,
                  liveSize_moved _ _ _, ?_, nofun⟩
                intro id
                rw [liveIn_snoc, liveIn_repack, liveIn_survivors]
              . rintro e w ⟨⟨he, hk⟩, g', hw, hapart'⟩
                exact ⟨⟨he, fun h => absurd h hk⟩, g', hw, hapart.trans hapart'⟩
              . exact fun _ h => h
          . rintro e w ⟨⟨he, hf⟩, hw⟩
            refine ⟨⟨he, fun hk _ => ?_⟩, g, hw, hapart⟩
            have hnative := hpacked.clean.not_foreign
            rw [hnative] at hf
            exact absurd (hf hk) (by decide)
          . exact fun _ h => h
        . rintro e w ⟨⟨he, hno⟩, hg⟩
          exact ⟨⟨he, fun hk hroomy => hno hk hroomy.1⟩, hg⟩
        . exact fun _ h => h
      . next hroom =>
        apply Spec.conseq (segReleaseOne_append hv hlarge h hsid hhome hnamed hc hroom false)
        . exact fun _ h => h
        . rintro moved w ⟨rfl, g, hw, hapart, hsettled, hclean, hkept⟩
          exact ⟨g, _, _, hw, hapart, hsettled, hclean, survivors_released hlive,
            survivors_tombstone (segTombstone_tombstone fin sid), fun id => liveIn_snoc fin sid,
            fun _ => ⟨rfl, rfl, hkept⟩⟩
        . rintro e w ⟨⟨he, hk⟩, hg⟩
          exact ⟨⟨he, fun h => absurd h hk⟩, hg⟩
        . exact fun _ h => h
    . rintro e w ⟨⟨he, hf⟩, hw⟩
      refine ⟨⟨he, fun hk hroomy => ?_⟩, hsame w hw⟩
      have hnative := hroomy.native
      rw [hf hk] at hnative
      cases hnative
    . exact fun _ h => h
  . rintro e w ⟨⟨rfl, hk⟩, hw⟩
    exact ⟨⟨by decide, fun h => absurd h hk⟩, hsame w hw⟩
  . exact fun _ h => h

/-! The walk of a bucket -/

theorem segOrphan_iff {f : Sector} {off owner : Nat} {ids : List Nat} {found : Found}
    (hp : Path cfg f off es fin) (hlive : found.live = (newest id es).bind Entry.liveSlot) :
    segOrphan owner ids id (.ok found) = true ↔ Garbage owner ids es id := by
  unfold segOrphan Garbage liveIn
  simp only
  rw [hlive]
  cases hn : newest id es with
  | none => simp
  | some x =>
    obtain ⟨-, -, -, hat⟩ := hp.mem (newest_some hn).1
    have hlen : x.payload.length = x.head.valLen := by
      rw [hat]
      exact bytesAt_length ..
    cases ht : x.tombstone with
    | true => simp [Entry.liveSlot, Entry.stored, ht]
    | false => simp [Entry.liveSlot, Entry.stored, ht, Stored.segmentOf, hlen, and_assoc]

-- The walk has passed the slots `a` and comes to `b`. Where `q` holds the bucket is roomy, and all the
-- garbage is still ahead.
structure Walking (cfg : Cfg) (q : Prop) (owner : Nat) (ids : List Nat) (bid : Nat) (f : Sector) (c : Nat)
    (a b : List Entry) (fin : Nat) : Prop where
  settled : Settled cfg bid f (a ++ b) fin
  path : Path cfg f c b fin
  roomy : q → Roomy cfg bid f (a ++ b) fin
  ahead : q → ∀ id, Garbage owner ids (a ++ b) id → newest id b ≠ none

section

variable {q : Prop} {owner c : Nat} {ids : List Nat} {f : Sector} {a b : List Entry}

theorem Walking.advance (h : Walking cfg q owner ids bid f c a (entryAt f c :: b) fin)
    (hrest : Path cfg f (c + (entryAt f c).size cfg) b fin)
    (hskip : q → (entryAt f c).intact = true → newest (entryAt f c).head.id b = none →
      ¬ Garbage owner ids (a ++ entryAt f c :: b) (entryAt f c).head.id) :
    Walking cfg q owner ids bid f (c + (entryAt f c).size cfg) (a ++ [entryAt f c]) b fin := by
  have hes : a ++ [entryAt f c] ++ b = a ++ entryAt f c :: b := by simp
  refine ⟨hes ▸ h.settled, hrest, fun hq => hes ▸ h.roomy hq, ?_⟩
  rw [hes]
  intro hq id hg hnone
  have hnew := h.ahead hq id hg
  rw [newest_cons, hnone, Option.none_or] at hnew
  split at hnew
  . next hy =>
    rw [Bool.and_eq_true, beq_iff_eq] at hy
    obtain ⟨hi, rfl⟩ := hy
    exact hskip hq hi hnone hg
  . exact hnew rfl

-- The slot that a walk passes is not garbage unless its head says that it is a segment.
theorem garbage_head {x : Entry} (hp : ∃ off, Path cfg f off (a ++ x :: b) fin) (hi : x.intact = true)
    (hnone : newest x.head.id b = none) (hg : Garbage owner ids (a ++ x :: b) x.head.id) :
    segHeadIsSegment x.head = true := by
  obtain ⟨s, hs, hseg, -⟩ := hg
  obtain ⟨off, hp⟩ := hp
  obtain ⟨-, -, -, hat⟩ := hp.mem (x := x) (by simp)
  have hlen : x.payload.length = x.head.valLen := by
    rw [hat]
    exact bytesAt_length ..
  unfold liveIn at hs
  rw [newest_append, newest_cons, hnone, Option.none_or, if_pos (by simp [hi]), Option.some_or,
    Option.bind_some] at hs
  unfold Entry.stored at hs
  split at hs
  . cases hs
  . next ht =>
    cases hs
    unfold Stored.segmentOf at hseg
    rw [Bool.and_eq_true, Bool.and_eq_true, hlen] at hseg
    have ht' : x.head.flags &&& slotTombstone = 0 := by simpa [Entry.tombstone] using ht
    unfold segHeadIsSegment
    simp [hseg.1, hseg.2.1, ht']

-- A release in place leaves what the walk has passed and what it comes to in place.
theorem Walking.released {g : Flash} {es' : List Entry} {fin' sid : Nat}
    (hsettled : Settled cfg bid (fl (bucketSector bid)) (a ++ b) fin)
    (hpath : Path cfg (fl (bucketSector bid)) c b fin)
    (hroomy : q → Roomy cfg bid (fl (bucketSector bid)) (a ++ b) fin)
    (hr : Released cfg bid fl (a ++ b) fin sid false g es' fin')
    (hahead : q → ∀ id, id ≠ sid → Garbage owner ids (a ++ b) id → newest id b ≠ none) :
    es' = a ++ (b ++ [segTombstone fin sid]) ∧
      Walking cfg q owner ids bid (g (bucketSector bid)) c a (b ++ [segTombstone fin sid]) fin' := by
  obtain ⟨rfl, rfl, hkept⟩ := hr.inPlace rfl
  have hes : a ++ (b ++ [segTombstone fin sid]) = a ++ b ++ [segTombstone fin sid] :=
    (List.append_assoc ..).symm
  have hpath' : Path cfg (g (bucketSector bid)) c (b ++ [segTombstone fin sid])
      (fin + cfg.slotSizeFor 0) := by
    have hnew := hr.settled.log.path
    rw [← hes] at hnew
    obtain ⟨mid, hp1, hp2⟩ := hnew.split
    obtain ⟨mid', hp1', hp2'⟩ := hsettled.log.path.split
    have h1 := hp1.sum_size
    have h2 := hp1'.sum_size
    have h3 := hp2'.sum_size
    have h4 := hpath.sum_size
    have hmid : mid = c := by omega
    exact hmid ▸ hp2
  refine ⟨hes.symm, hes ▸ hr.settled, hpath', fun hq => hes ▸ hr.roomy (hroomy hq), ?_⟩
  rw [hes]
  rintro hq id ⟨s, hs, hseg, hnot⟩
  rw [liveIn_snoc] at hs
  split at hs
  . cases hs
  . next hid =>
    have hb := hahead hq id hid ⟨s, hs, hseg, hnot⟩
    rw [newest_append]
    intro hnone
    rw [Option.or_eq_none_iff] at hnone
    exact hb hnone.2

theorem newest_of_garbage (h : Garbage owner ids b id) : newest id b ≠ none := by
  obtain ⟨s, hs, -⟩ := h
  intro hnone
  unfold liveIn at hs
  rw [hnone] at hs
  cases hs

-- At the first slot all the garbage is ahead.
theorem Settled.walking {es : List Entry} (h : Settled cfg bid f es fin)
    (hroomy : q → Roomy cfg bid f es fin) :
    Walking cfg q owner ids bid f bucketDataOff [] es fin :=
  ⟨h, h.log.path, hroomy, fun _ _ => newest_of_garbage⟩

-- At the end of the log there is none.
theorem Walking.done (h : Walking cfg q owner ids bid f c a [] fin) (hv : cfg.Valid) :
    q → ∀ id, ¬ Garbage owner ids (bucketEntries cfg f) id := by
  intro hq id hg
  rw [h.settled.log.entries hv] at hg
  exact h.ahead hq id hg rfl

-- How far a walk is from its end: each slot that a release can take away is one more walk.
def wayLeft (cfg : Cfg) (c : Nat) (es : List Entry) : Nat :=
  (survivors es).length * cfg.pebSize + (cfg.pebSize - c)

-- A bucket as the walk at `c` finds it, with fewer than `n` steps to go.
structure Underway (cfg : Cfg) (q : Prop) (owner : Nat) (ids : List Nat) (bid : Nat) (start : Flash)
    (c n : Nat) (fl : Flash) (a b : List Entry) (fin : Nat) : Prop where
  apart : Apart bid start fl
  walking : Walking cfg q owner ids bid (fl (bucketSector bid)) c a b fin
  left : wayLeft cfg c (a ++ b) < n

-- A bucket that the walk is done with.
def Swept (cfg : Cfg) (k q : Prop) (owner : Nat) (ids : List Nat) (bid : Nat) (start : Flash) (w : World) :
    Prop :=
  ∃ g, (Apart bid start g ∧ (q → ∀ id, ¬ Garbage owner ids (bucketEntries cfg (g (bucketSector bid))) id)) ∧
    Reading (Upright cfg k g) g w

-- A segment to release: the walk goes on behind it, starts again, or the release failed.
theorem segSweepBucket_orphan (hv : cfg.Valid) (hq : q → k) {start : Flash} {n : Nat} {y : Entry}
    (hapart : Apart bid start fl)
    (hwalk : Walking cfg q owner ids bid (fl (bucketSector bid)) c a (y :: b) fin)
    (hrest : Path cfg (fl (bucketSector bid)) (c + y.size cfg) b fin) (hid : y.head.id < 2 ^ 64)
    (hfits : c + y.size cfg ≤ cfg.pebSize) (hlarge : cfg.large = true)
    (hg : Garbage owner ids (a ++ y :: b) y.head.id)
    (ih : ∀ c, Goes (fun w => ∃ fl a b fin, Underway cfg q owner ids bid start c n fl a b fin ∧
        Reading (Upright cfg k fl) fl w)
      (segSweepBucket cfg owner ids bid n c) (fun _ => Swept cfg k q owner ids bid start)
      fun _ _ => False)
    (hleft : wayLeft cfg c (a ++ y :: b) < n + 1) :
    Goes (Reading (Upright cfg k fl) fl)
      (do
        let rc ← Proc.attempt (segReleaseOne cfg y.head.id)
        match rc with
        | .ok true => segSweepBucket cfg owner ids bid n bucketDataOff
        | .ok false => segSweepBucket cfg owner ids bid n (c + cfg.slotSizeFor y.head.valLen)
        | .error .ENOENT => segSweepBucket cfg owner ids bid n (c + cfg.slotSizeFor y.head.valLen)
        | .error _ => pure ())
      (fun _ => Swept cfg k q owner ids bid start) fun _ _ => False := by
  have hsize := y.size_ge cfg
  unfold slotOverhead at hsize
  have hes : a ++ [y] ++ b = a ++ y :: b := by simp
  have hlive : liveIn (a ++ y :: b) y.head.id ≠ none := by
    obtain ⟨s, hs, -⟩ := hg
    rw [hs]
    exact nofun
  have hhome : cfg.idToBucket y.head.id = bid := by
    obtain ⟨x, hx⟩ := Option.ne_none_iff_exists'.mp (newest_of_garbage hg)
    obtain ⟨hxm, hi, hxid⟩ := newest_some hx
    rw [← hxid]
    exact hwalk.settled.home.intact x hxm hi
  have hrelease := segReleaseOne_upright (k := k) hv hlarge hwalk.settled hid hhome
    (fun hs => (hwalk.settled.home.indexed hs y (by simp)).2) hlive
  apply hrelease.attempt.bind
  . rintro (e | moved)
    . apply Spec.assuming
      . exact fun _ h => h.1
      rintro ⟨he, hno⟩
      have hstop : Goes (fun w => ∃ g, Reading (Upright cfg k g) g w ∧ Apart bid fl g) (pure () : M Unit)
          (fun _ => Swept cfg k q owner ids bid start) fun _ _ => False := by
        apply Spec.ret
        rintro w ⟨g, hwg, hag⟩
        exact ⟨g, ⟨hapart.trans hag, fun h => absurd (hwalk.roomy h) (hno (hq h))⟩, hwg⟩
      cases e with
      | ENOENT => exact absurd rfl he
      | _ => exact hstop.pre fun _ h => h.2
    . refine Spec.given fun g => Spec.given fun es' => Spec.given fun fin' => ?_
      have hpre : ∀ w, Reading (Upright cfg k g) g w ∧
          Released cfg bid fl (a ++ y :: b) fin y.head.id moved g es' fin' →
          Released cfg bid fl (a ++ y :: b) fin y.head.id moved g es' fin' ∧
            Reading (Upright cfg k g) g w := fun w h => ⟨h.2, h.1⟩
      refine Spec.pre (Spec.fact fun hr => ?_) hpre
      have hmul := Nat.mul_le_mul_right cfg.pebSize (Nat.succ_le_of_lt hr.fewer)
      rw [Nat.succ_mul] at hmul
      cases moved with
      | true =>
        apply (ih bucketDataOff).pre
        intro w hwg
        refine ⟨g, [], es', fin', ⟨hapart.trans hr.apart,
          hr.settled.walking fun h => hr.roomy (hwalk.roomy h), ?_⟩, hwg⟩
        unfold wayLeft at hleft ⊢
        unfold bucketDataOff
        rw [List.nil_append]
        omega
      | false =>
        rw [← hes] at hr
        have hahead : q → ∀ id, id ≠ y.head.id → Garbage owner ids (a ++ [y] ++ b) id →
            newest id b ≠ none := by
          rw [hes]
          intro h id hne hgid hnone
          have hnew := hwalk.ahead h id hgid
          have hne' : (y.head.id == id) = false := by simpa using Ne.symm hne
          rw [newest_cons, hnone, Option.none_or, if_neg (by simp [hne'])] at hnew
          exact hnew rfl
        obtain ⟨rfl, hwalk'⟩ := Walking.released (hes ▸ hwalk.settled) hrest (hes ▸ hwalk.roomy) hr hahead
        apply (ih (c + y.size cfg)).pre
        intro w hwg
        refine ⟨g, _, _, fin', ⟨hapart.trans hr.apart, hwalk', ?_⟩, hwg⟩
        unfold wayLeft at hleft ⊢
        omega
  . exact fun _ _ h => h.elim
  . exact fun _ h => h

-- The head of the next slot, or a read that failed.
theorem readHead_upright (bid c : Nat) :
    Goes (Reading (Upright cfg k fl) fl)
      (Proc.attempt (storeRead (bucketSector bid) c slotHeadLen))
      (fun r w => ((∃ e, r = .error e ∧ ¬ k) ∨
        r = .ok (bytesAt (fl (bucketSector bid)) c slotHeadLen)) ∧ Reading (Upright cfg k fl) fl w)
      fun _ _ => False := by
  have hread : Goes (Reading (Upright cfg k fl) fl) (storeRead (bucketSector bid) c slotHeadLen)
      (fun raw w => raw = bytesAt (fl (bucketSector bid)) c slotHeadLen ∧ Reading (Upright cfg k fl) fl w)
      fun e w => (e = Errno.EIO ∧ ¬ k) ∧ Reading (Upright cfg k fl) fl w :=
    readFlash_upright (f := fun flash => bytesAt (flash (bucketSector bid)) c slotHeadLen)
  apply hread.attempt.conseq
  . exact fun _ h => h
  . rintro (e | raw) w hw
    . exact ⟨.inl ⟨e, rfl, hw.1.2⟩, hw.2⟩
    . exact ⟨.inr (congrArg Except.ok hw.1), hw.2⟩
  . exact fun _ _ h => h
  . exact fun _ h => h

theorem segSweepBucket_upright (hv : cfg.Valid) (hq : q → k) (owner : Nat) (ids : List Nat)
    (start : Flash) (n c : Nat) :
    Goes (fun w => ∃ fl a b fin, Underway cfg q owner ids bid start c n fl a b fin ∧
        Reading (Upright cfg k fl) fl w)
      (segSweepBucket cfg owner ids bid n c) (fun _ => Swept cfg k q owner ids bid start)
      fun _ _ => False := by
  induction n generalizing c with
  | zero =>
    rintro w ⟨fl, a, b, fin, h, -⟩
    exact absurd h.left (Nat.not_lt_zero _)
  | succ n ih =>
    refine Spec.given fun fl => Spec.given fun a => Spec.given fun b => Spec.given fun fin =>
      Spec.fact fun h => ?_
    obtain ⟨hapart, hwalk, hleft⟩ := h
    have hpath := hwalk.settled.log.path
    -- a walk that ends here is done, or met a fault
    have hend : (q → b = []) → Goes (Reading (Upright cfg k fl) fl) (pure () : M Unit)
        (fun _ => Swept cfg k q owner ids bid start) fun _ _ => False := by
      intro hb
      apply Spec.ret
      intro w hw
      refine ⟨fl, ⟨hapart, fun h => ?_⟩, hw⟩
      cases hb h
      exact hwalk.done hv h
    unfold segSweepBucket
    split
    . next hroom =>
      apply hend
      intro _
      cases hwalk.path with
      | nil => rfl
      | cons hw _ => exact absurd (walkable_iff.mp hw).1 (Nat.not_le.mpr hroom)
    . next hroom =>
      apply (readHead_upright bid c).andThen
      intro r
      apply Spec.assuming
      . exact fun _ h => h.1
      rintro (⟨e, rfl, hk⟩ | rfl)
      . exact (hend fun h => absurd (hq h) hk).pre fun w hw => hw.2
      . refine Spec.pre (P := Reading (Upright cfg k fl) fl) ?_ fun w hw => hw.2
        simp only [slotHdrAt_image]
        cases hwalk.path with
        | nil =>
          have hstop := hwalk.settled.log.stop
          split
          . exact hend fun _ => rfl
          . next hends =>
            have hbig : cfg.pebSize <
                c + cfg.slotSizeFor (slotHdrAt (fl (bucketSector bid)) c).valLen := by
              by_contra hfit
              rw [Bool.not_eq_true] at hends
              have hon := walkable_iff.mpr ⟨Nat.not_lt.mp hroom, hends, Nat.not_lt.mp hfit⟩
              rw [hon] at hstop
              cases hstop
            rw [if_pos hbig]
            exact hend fun _ => rfl
        | @cons _ _ b hw hrest =>
          obtain ⟨-, hends, hfits⟩ := walkable_iff.mp hw
          have hlarge : ∀ h : (slotHdrAt (fl (bucketSector bid)) c).flags &&& slotSegment ≠ 0,
              cfg.large = true := fun h => large_of_segment hw h
          have hid : (slotHdrAt (fl (bucketSector bid)) c).id < 2 ^ 64 := leAt_lt _ _ 8
          have hhead : slotHdrAt (fl (bucketSector bid)) c = (entryAt (fl (bucketSector bid)) c).head := rfl
          rw [hhead] at hends hlarge hid ⊢
          have hpass : (q → (entryAt (fl (bucketSector bid)) c).intact = true →
              newest (entryAt (fl (bucketSector bid)) c).head.id b = none →
              ¬ Garbage owner ids (a ++ entryAt (fl (bucketSector bid)) c :: b)
                (entryAt (fl (bucketSector bid)) c).head.id) →
              Walking cfg q owner ids bid (fl (bucketSector bid))
                (c + (entryAt (fl (bucketSector bid)) c).size cfg) (a ++ [entryAt (fl (bucketSector bid)) c])
                b fin := hwalk.advance hrest
          generalize entryAt (fl (bucketSector bid)) c = y at *
          have hsize := y.size_ge cfg
          unfold slotOverhead at hsize
          have hes : a ++ [y] ++ b = a ++ y :: b := by simp
          -- the walk goes on behind the slot
          have hnext : (q → y.intact = true → newest y.head.id b = none →
              ¬ Garbage owner ids (a ++ y :: b) y.head.id) →
              Goes (Reading (Upright cfg k fl) fl)
                (segSweepBucket cfg owner ids bid n (c + cfg.slotSizeFor y.head.valLen))
                (fun _ => Swept cfg k q owner ids bid start) fun _ _ => False := by
            intro hskip
            apply (ih (c + y.size cfg)).pre
            intro w hwd
            refine ⟨fl, _, b, fin, ⟨hapart, hpass hskip, ?_⟩, hwd⟩
            rw [hes]
            unfold wayLeft at hleft ⊢
            omega
          have hfits' : ¬ cfg.pebSize < c + cfg.slotSizeFor y.head.valLen := Nat.not_lt.mpr hfits
          rw [hends, if_neg (by decide), if_neg hfits']
          split
          . next hnot =>
            apply hnext
            intro _ hi hnone hg
            have hseg := garbage_head ⟨_, hpath⟩ hi hnone hg
            rw [hseg] at hnot
            cases hnot
          . next hseg =>
            have hlarge : cfg.large = true := by
              apply hlarge
              unfold segHeadIsSegment at hseg
              simp only [Bool.not_eq_true', Bool.not_eq_false, Bool.and_eq_true, bne_iff_ne] at hseg
              exact hseg.1
            have hlearn : Learnable cfg fl bid y.head.id :=
              ⟨hwalk.settled.header, fun hs => hwalk.settled.home.indexed hs y (by simp)⟩
            apply (findLiveSlot_upright (k := k) hv hwalk.settled.log hlearn).attempt.bind
            . rintro (e | found)
              . simp only [segOrphan, Bool.false_eq_true, if_false]
                apply Spec.assuming
                . exact fun _ h => h.1
                intro hforeign
                apply (hnext fun h _ _ _ => ?_).pre fun w hw => hw.2
                have hnative := (hwalk.roomy h).native
                rw [hforeign (hq h)] at hnative
                cases hnative
              . apply Spec.assuming (φ := found.live = (newest y.head.id (a ++ y :: b)).bind Entry.liveSlot)
                . exact fun _ h => h.1
                intro hlive
                refine Spec.pre (P := Reading (Upright cfg k fl) fl) ?_ fun w hw => hw.2
                have horphan : segOrphan owner ids y.head.id (.ok found) = true ↔
                    Garbage owner ids (a ++ y :: b) y.head.id := segOrphan_iff hpath hlive
                split
                . next ho =>
                  exact segSweepBucket_orphan hv hq hapart hwalk hrest hid hfits hlarge (horphan.mp ho) ih
                    hleft
                . next ho => exact hnext fun _ _ _ hg => ho (horphan.mpr hg)
            . exact fun _ _ h => h.elim
            . exact fun _ h => h

end

/-! The whole sweep -/

theorem segSweepOne_upright (hv : cfg.Valid) (owner : Nat) (ids : List Nat)
    (hhomed : Sweepable cfg bid (fl (bucketSector bid))) :
    Goes (Reading (Upright cfg k fl) fl) (segSweepOne cfg owner ids bid)
      (fun _ => Swept cfg k (k ∧ TombstoneRoom cfg bid (fl (bucketSector bid))) owner ids bid fl)
      fun _ _ => False := by
  obtain ⟨es, fin, hl⟩ := exists_bucketLog cfg (fl (bucketSector bid))
  have hskip : ∀ {φ : Prop}, φ → (φ → ¬ (k ∧ TombstoneRoom cfg bid (fl (bucketSector bid)))) →
      Goes (Reading (Upright cfg k fl) fl) (pure () : M Unit)
        (fun _ => Swept cfg k (k ∧ TombstoneRoom cfg bid (fl (bucketSector bid))) owner ids bid fl)
        fun _ _ => False := by
    intro φ hφ hno
    exact Spec.ret fun w hw => ⟨fl, ⟨Apart.refl _ _, fun h => absurd h (hno hφ)⟩, hw⟩
  unfold segSweepOne
  apply (readBucketHdr_upright bid).attempt.bind
  . rintro (e | formatted)
    . apply Spec.assuming (φ := ¬ k)
      . exact fun _ h => h.1.2
      intro hk
      exact (hskip hk fun hk h => hk h.1).pre fun w h => h.2
    . apply Spec.assuming
      . exact fun _ h => h.1
      rintro rfl
      refine Spec.pre (P := Reading (Upright cfg k fl) fl) ?_ fun w h => h.2
      cases hhdr : bucketHdrValid (fl (bucketSector bid)) bid with
      | false =>
        apply hskip hhdr
        rintro hno ⟨-, ⟨hyes, -⟩, -⟩
        rw [hno] at hyes
        cases hyes
      | true =>
        obtain ⟨hhome, htail⟩ := hhomed hhdr
        unfold Unhidden at htail
        rw [hl.entries hv] at hhome
        rw [hl.logEnd hv] at htail
        have hsettled : Settled cfg bid (fl (bucketSector bid)) es fin := ⟨hhdr, hl, hhome, htail⟩
        apply Spec.read_bind
        intro patience
        apply (segSweepBucket_upright hv (fun h => h.1) owner ids fl patience bucketDataOff).pre
        rintro w ⟨rfl, hw⟩
        refine ⟨fl, [], es, fin, ⟨Apart.refl _ _, hsettled.walking ?_, ?_⟩, hw⟩
        . rintro ⟨-, hroom⟩
          unfold TombstoneRoom at hroom
          rw [hl.entries hv, hl.logEnd hv] at hroom
          exact hroom
        . have hlen := hl.length_lt hv
          have hless := survivors_length_le es
          have hpatience := hw.1.patience
          have hmul : ((survivors es).length + 1) * cfg.pebSize ≤ cfg.pebSize * cfg.pebSize :=
            Nat.mul_le_mul_right _ (by omega)
          rw [Nat.succ_mul] at hmul
          unfold wayLeft bucketDataOff
          rw [List.nil_append]
          omega
  . exact fun _ _ h => h.elim
  . exact fun _ h => h

-- Where nothing fails, a bucket below `n` that had room has no garbage left.
def Clear (cfg : Cfg) (k : Prop) (owner : Nat) (ids : List Nat) (start : Flash) (n : Nat) (g : Flash) :
    Prop :=
  ∀ bid, bid < n → k → TombstoneRoom cfg bid (start (bucketSector bid)) →
    ∀ id, ¬ Garbage owner ids (bucketEntries cfg (g (bucketSector bid))) id

theorem segSweepFrom_upright (hv : cfg.Valid) (owner : Nat) (ids : List Nat) {start : Flash}
    (hhomed : ∀ bid, bid < cfg.nBuckets → Sweepable cfg bid (start (bucketSector bid)))
    (n bid : Nat) (hn : bid + n = cfg.nBuckets) :
    Goes (fun w => ∃ g, ((∀ b, bid ≤ b → g (bucketSector b) = start (bucketSector b)) ∧
        Clear cfg k owner ids start bid g) ∧ Reading (Upright cfg k g) g w)
      (segSweepFrom cfg owner ids n bid)
      (fun _ w => ∃ g, Clear cfg k owner ids start cfg.nBuckets g ∧ Reading (Upright cfg k g) g w)
      fun _ _ => False := by
  induction n generalizing bid with
  | zero =>
    rw [Nat.add_zero] at hn
    subst hn
    apply Spec.ret
    rintro w ⟨g, ⟨-, hclear⟩, hw⟩
    exact ⟨g, hclear, hw⟩
  | succ n ih =>
    refine Spec.given fun g => Spec.fact fun ⟨hsame, hclear⟩ => ?_
    have hone := segSweepOne_upright (k := k) hv owner ids
      (show Sweepable cfg bid (g (bucketSector bid)) from hsame bid le_rfl ▸ hhomed bid (by omega))
    unfold segSweepFrom
    apply hone.andThen
    intro _
    apply (ih (bid + 1) (by omega)).pre
    rintro w ⟨g', ⟨hapart, hgone⟩, hw⟩
    refine ⟨g', ⟨?_, ?_⟩, hw⟩
    . intro b hb
      rw [hapart.bucket (by omega), hsame b (by omega)]
    . intro b hb hk hroom
      by_cases hbid : b = bid
      . subst hbid
        exact hgone ⟨hk, by rw [hsame b le_rfl]; exact hroom⟩
      . rw [hapart.bucket hbid]
        exact hclear b (by omega) hk hroom

theorem indexLoadCached_looks (hv : cfg.Valid) {owner : Nat} (hown : owner ≠ 0) :
    Looks cfg k fl (indexLoadCached cfg owner) := by
  have hload : Looks cfg k fl (indexLoad cfg owner) := by
    unfold indexLoad
    simp only
    apply Spec.bind (readBucketHdr_upright _)
    . intro formatted
      apply Spec.assuming
      . exact fun _ h => h.1
      rintro rfl
      refine Spec.pre (P := Reading (Upright cfg k fl) fl) ?_ fun w h => h.2
      cases hhdr : bucketHdrValid (fl (bucketSector (cfg.idToBucket owner))) (cfg.idToBucket owner) with
      | false => exact looks_fail _
      | true =>
        have hfind : Looks cfg k fl (findLiveSlot cfg (cfg.idToBucket owner) owner) :=
          findLiveSlot_looks hv ⟨hhdr, fun _ => ⟨rfl, hown⟩⟩
        simp only [Bool.not_true, Bool.false_eq_true, if_false]
        apply hfind.bind
        intro found
        split
        . exact looks_fail _
        . split
          . exact looks_ret _
          . split
            . exact looks_fail _
            . apply getSt_bind
              intro st
              refine Spec.pre (P := Reading (Upright cfg k fl) fl) ?_ fun w h => h.2
              split
              . exact looks_ret _
              . exact looks_fail _
    . exact fun _ _ h => h.2
    . exact fun _ h => h
  unfold indexLoadCached
  apply getSt_bind
  intro st
  refine Spec.pre (P := Reading (Upright cfg k fl) fl) ?_ fun w h => h.2
  split
  . exact looks_ret _
  . apply hload.bind
    intro loaded
    split
    . exact looks_ret _
    . have hcache : ∀ f : St → St, (∀ st, (f st).activeMaster = st.activeMaster) →
          (∀ st, (f st).sidx = st.sidx) → Looks cfg k fl (modifySt f) := by
        intro f hactive hsidx
        apply modifySt_spec
        rintro w ⟨hw, rfl⟩
        refine ⟨⟨hw.power, hw.calm, hw.patience, ?_, fun hs => ?_⟩, rfl⟩
        . rw [hactive]
          exact hw.active
        . rw [hsidx]
          exact hw.truth hs
      apply Looks.bind
      . apply hcache
        . exact fun _ => rfl
        . exact fun _ => rfl
      . exact fun _ => looks_ret _

theorem SweepReady.start {owner : Nat} {w : World} (h : SweepReady cfg owner w) : SweepStart cfg owner w :=
  ⟨h.valid, h.active, h.cache, fun hs => (h.index hs).indexTrue h.valid h.owned⟩

-- The list that a sweep goes by is that of the index on flash, or empty.
theorem segSweepListed_upright {owner : Nat} {w₀ : World} (h : SweepReady cfg owner w₀)
    (hup : Upright cfg k w₀.flash w₀) :
    Goes (fun w => w = w₀) (segSweepListed cfg owner)
      (fun ids w => (ids = [] ∨ ids = listed cfg w₀.st w₀.flash owner) ∧
        Reading (Upright cfg k w₀.flash) w₀.flash w) fun _ _ => False := by
  have hload := (indexLoadCached_tells h.start).both
    (show Looks cfg k w₀.flash (indexLoadCached cfg owner) from indexLoadCached_looks h.valid h.owned)
  unfold segSweepListed
  apply Spec.bind (hload.attempt.pre ?_)
  . rintro (e | r)
    . exact Spec.ret fun w hw => ⟨.inl rfl, hw.2⟩
    . apply Spec.assuming
      . exact fun w hw => hw.1.1
      rintro rfl
      refine Spec.pre (P := Reading (Upright cfg k w₀.flash) w₀.flash) ?_ fun w hw => hw.2
      unfold listed
      cases (contentOf cfg w₀.flash owner).bind (indexOf w₀.st) with
      | none => exact Spec.ret fun w hw => ⟨.inl rfl, hw⟩
      | some x => exact Spec.ret fun w hw => ⟨.inr rfl, hw⟩
  . exact fun _ _ h => h.elim
  . exact fun _ h => h.1
  . rintro w rfl
    exact ⟨rfl, hup, rfl⟩

-- While a master record is written, the buckets stay what they are.
structure Parked (g : Flash) (w : World) : Prop where
  power : ∀ f ∈ w.faults, f.outcome ≠ .cut
  active : w.st.activeMaster ≤ 1
  buckets : ∀ bid, w.flash (bucketSector bid) = g (bucketSector bid)

theorem parked_neutral {g : Flash} : Neutral AnyEvent (Parked g) fun _ => False where
  active _ h := h.active
  ram _ _ hst h := ⟨h.power, hst.active, h.buckets⟩
  note _ _ h := ⟨h.power, h.active, h.buckets⟩
  master slot r hs := by
    have hkeep : ∀ w, Parked g w → Parked g (w.mutate slot r) := by
      intro w h
      refine ⟨fun f hf => h.power f (List.mem_of_mem_tail hf), h.active, fun bid => ?_⟩
      rw [mutate_other (by unfold bucketSector firstBucket; omega)]
      exact h.buckets bid
    apply storeMutate_spec
    . exact fun w h _ _ => hkeep w h
    . exact fun w _ _ h _ _ => hkeep w h
    . intro w part upper h hf _
      have hne : w.nextFault ∈ w.faults := by
        unfold World.nextFault at hf ⊢
        cases hw : w.faults with
        | nil =>
          rw [hw] at hf
          cases hf
        | cons f fs => exact List.mem_cons_self ..
      apply h.power _ hne
      rw [hf]
      rfl

theorem persistSegOwner_parked {g : Flash} (owner : Nat) :
    Keeps AnyEvent (Parked g) (Parked g) (fun _ => False) (persistSegOwner cfg owner) := by
  unfold persistSegOwner
  apply getSt_bind
  intro st
  split
  . exact Spec.ret fun _ h => h.2
  . refine modifySt_bind (I := Parked g) (fun w h => ⟨h.2.power, h.2.active, h.2.buckets⟩) ?_
    intro _
    apply (masterCommitHow_neutral parked_neutral false).caught
    . exact fun _ => ret_reads _
    . intro e
      refine modifySt_bind (I := Parked g) (fun w h => ⟨h.power, h.active, h.buckets⟩) ?_
      exact fun _ => fail_reads _
    . exact fun _ h => h

theorem Clear.listed {owner : Nat} {ids ids' : List Nat} {start g : Flash} {n : Nat}
    (h : Clear cfg k owner ids start n g) (hids : ∀ id ∈ ids, id ∈ ids') :
    Clear cfg k owner ids' start n g := by
  rintro bid hbid hk hroom id ⟨s, hs, hseg, hnot⟩
  exact h bid hbid hk hroom id ⟨s, hs, hseg, fun hid => hnot (hids id hid)⟩

theorem segSweep_upright {owner : Nat} {w₀ : World} (h : SweepReady cfg owner w₀)
    (hup : Upright cfg k w₀.flash w₀) :
    Spec (History AnyEvent) (fun w => w = w₀) (segSweep cfg owner)
      (.exits (fun w => Clear cfg k owner (listed cfg w₀.st w₀.flash owner) w₀.flash cfg.nBuckets w.flash)
        (fun w => Clear cfg k owner (listed cfg w₀.st w₀.flash owner) w₀.flash cfg.nBuckets w.flash)
        fun _ => False) := by
  unfold segSweep
  apply Spec.bind (segSweepListed_upright h hup)
  . intro ids
    apply Spec.assuming (φ := ids = [] ∨ ids = listed cfg w₀.st w₀.flash owner)
    . exact fun _ h => h.1
    intro hids
    have hsub : ∀ id ∈ ids, id ∈ listed cfg w₀.st w₀.flash owner := by
      rcases hids with rfl | rfl
      . exact nofun
      . exact fun _ h => h
    have hfrom := (segSweepFrom_upright (k := k) h.valid owner ids h.homed cfg.nBuckets 0 (Nat.zero_add _)).pre
      fun w (hw : (ids = [] ∨ ids = listed cfg w₀.st w₀.flash owner) ∧
        Reading (Upright cfg k w₀.flash) w₀.flash w) => ⟨w₀.flash, ⟨fun _ _ => rfl, fun _ hb => absurd hb (Nat.not_lt_zero _)⟩, hw.2⟩
    apply Spec.bind hfrom
    . intro _
      refine Spec.given fun g => Spec.fact fun hclear => ?_
      have hend : ∀ w, Parked g w →
          Clear cfg k owner (listed cfg w₀.st w₀.flash owner) w₀.flash cfg.nBuckets w.flash := by
        intro w hw bid hbid hk hroom
        rw [hw.buckets bid]
        exact hclear.listed hsub bid hbid hk hroom
      apply (persistSegOwner_parked (g := g) 0).conseq
      . rintro w ⟨hw, rfl⟩
        exact ⟨hw.power, hw.active, fun _ => rfl⟩
      . exact fun _ w hw => hend w hw
      . exact fun _ w hw => hend w hw
      . exact fun _ h => h
    . exact fun _ _ h => h.elim
    . exact fun _ h => h
  . exact fun _ _ h => h.elim
  . exact fun _ h => h

-- The sweep ends, whatever reads and writes fail. Where none does, no live segment of the owner that
-- its index does not list is left in a bucket that had room for a tombstone after compaction.
theorem segSweep_ends {owner : Nat} {w : World} (h : SweepReady cfg owner w)
    (hpower : ∀ f ∈ w.faults, f.outcome ≠ .cut) (hpatience : cfg.pebSize * cfg.pebSize ≤ w.patience) :
    (segSweep cfg owner w).1 ≠ .cut ∧
      ((∀ f ∈ w.faults, f = .none) → (∀ b ∈ w.readFaults, b = false) → ∀ bid, bid < cfg.nBuckets →
        TombstoneRoom cfg bid (w.flash (bucketSector bid)) →
        ∀ id, ¬ Garbage owner (listed cfg w.st w.flash owner)
          (bucketEntries cfg ((segSweep cfg owner w).2.flash (bucketSector bid))) id) := by
  have hup : Upright cfg ((∀ f ∈ w.faults, f = .none) ∧ ∀ b ∈ w.readFaults, b = false) w.flash w :=
    ⟨hpower, fun hk => hk, hpatience, h.active, h.index⟩
  have hq := segSweep_upright h hup w rfl fun _ _ => trivial
  generalize segSweep cfg owner w = r at hq
  obtain ⟨o, w'⟩ := r
  cases o with
  | ok a => exact ⟨nofun, fun hf hr bid hbid => hq bid hbid ⟨hf, hr⟩⟩
  | err e => exact ⟨nofun, fun hf hr bid hbid => hq bid hbid ⟨hf, hr⟩⟩
  | cut => exact hq.elim

instance (f : Sector) (es : List Entry) : Decidable (Compactable cfg bid f es fin) :=
  inferInstanceAs (Decidable (_ ∧ _))

instance (f : Sector) (es : List Entry) : Decidable (Roomy cfg bid f es fin) :=
  inferInstanceAs (Decidable (_ ∧ _))

instance (f : Sector) : Decidable (TombstoneRoom cfg bid f) := inferInstanceAs (Decidable (Roomy ..))

instance (owner : Nat) (ids : List Nat) : Decidable (Garbage owner ids es id) :=
  decidable_of_iff ((liveIn es id).any (Stored.segmentOf owner) = true ∧ id ∉ ids) (by
    unfold Garbage
    cases liveIn es id <;> simp)

-- What a flash image has to be for `Sweepable`, as the check of every bucket.
theorem sweepable_of_scan {f : Sector} (hindex : cfg.slotIndex = false)
    (hhome : ∀ x ∈ bucketEntries cfg f, x.intact = true → cfg.idToBucket x.head.id = bid)
    (herased : allErased f (logEnd cfg f) (cfg.pebSize - logEnd cfg f) = true) : Sweepable cfg bid f := by
  intro _
  refine ⟨⟨hhome, fun hs => ?_⟩, fun _ j h1 h2 => ?_⟩
  . rw [hindex] at hs
    cases hs
  . exact allErased_iff.mp herased j h1 (by omega)

end

def orphanedLong : World := { orphaned with patience := 65536 }

theorem segSweep_ends_orphaned :
    (TombstoneRoom largeDevice 0 (orphanedLong.flash (bucketSector 0)) ∧
      Garbage 2 (listed largeDevice orphanedLong.st orphanedLong.flash 2)
        (bucketEntries largeDevice (orphanedLong.flash (bucketSector 0))) 6) ∧
    (segSweep largeDevice 2 orphanedLong).1 ≠ .cut ∧
      ((∀ f ∈ orphanedLong.faults, f = .none) → (∀ b ∈ orphanedLong.readFaults, b = false) →
        ∀ bid, bid < largeDevice.nBuckets →
        TombstoneRoom largeDevice bid (orphanedLong.flash (bucketSector bid)) →
        ∀ id, ¬ Garbage 2 (listed largeDevice orphanedLong.st orphanedLong.flash 2)
          (bucketEntries largeDevice ((segSweep largeDevice 2 orphanedLong).2.flash (bucketSector bid))) id) := by
  refine ⟨by decide +kernel, ?_⟩
  apply segSweep_ends
  . refine ⟨Cfg.valid_of_validate (by decide +kernel), by decide +kernel, by decide, ?_, nofun, ?_⟩
    . intro hc
      exact absurd hc (by decide +kernel)
    . intro bid hbid
      have hbid : bid = 0 ∨ bid = 1 := by
        have : largeDevice.nBuckets = 2 := rfl
        omega
      rcases hbid with rfl | rfl
      . exact sweepable_of_scan rfl (by decide +kernel) (by decide +kernel)
      . exact sweepable_of_scan rfl (by decide +kernel) (by decide +kernel)
  . decide +kernel
  . decide +kernel

-- A byte is programmed behind the erased end of the log: the first tombstone comes out rotten.
def hiddenByte : World :=
  { orphanedLong with
    flash := orphanedLong.flash.set (bucketSector 0)
      (program (orphanedLong.flash (bucketSector 0)) 220 [0]) }

-- Bucket 0 is full. Bucket 1 has a slot whose payload holds the image of a slot of id 4, where bucket 0
-- has its slot of id 4, and a rotten slot whose head says id 4.
def strayBuckets : Flash := fun s =>
  if s = bucketSector 0 then
    image (bucketHdrBytes 0 1 ++ (slotImage strayDevice slotSealed 6 [1, 2] ++
      (slotImage strayDevice (slotSealed ||| slotSegment) 4 (segHdrBytes ⟨9, 0⟩ ++ List.replicate 52 1) ++
      (slotImage strayDevice slotSealed 8 (List.replicate 64 1) ++
      slotImage strayDevice slotSealed 10 (List.replicate 48 1)))))
  else if s = bucketSector 1 then
    image (bucketHdrBytes 1 1 ++
      (slotImage strayDevice slotSealed 1
        (List.replicate 4 0 ++ slotImage strayDevice (slotSealed ||| slotSegment) 4 (segHdrBytes ⟨2, 0⟩)) ++
      (slotImage strayDevice (slotSealed ||| slotSegment) 5 (segHdrBytes ⟨9, 0⟩) ++
      (slotHeadBytes (slotSealed ||| slotSegment) 4 12 ++ (List.replicate 16 0 ++
      slotImage strayDevice (slotSealed ||| slotSegment) 7 (segHdrBytes ⟨2, 1⟩))))))
  else blank

def strayHead : World :=
  { World.fresh strayBuckets with
    st := { St.boot with sidx := SlotIndex.empty 2 }
    patience := 65536 }

-- All that a flash image is asked for: its intact slots lie in the buckets their ids hash to.
def IntactAtHome (cfg : Cfg) (fl : Flash) : Prop :=
  ∀ bid, bid < cfg.nBuckets → ∀ x ∈ bucketEntries cfg (fl (bucketSector bid)), x.intact = true →
    cfg.idToBucket x.head.id = bid

instance (cfg : Cfg) (fl : Flash) : Decidable (IntactAtHome cfg fl) :=
  inferInstanceAs (Decidable (∀ _, _ → _))

-- Without the two conditions on the image that `Sweepable` adds a sweep in which nothing fails can
-- leave garbage in a bucket with room.
theorem segSweep_leaves_garbage :
    ((largeDevice.storeOpenAndValidate = .ok () ∧ IntactAtHome largeDevice hiddenByte.flash ∧
        hiddenByte.faults = [] ∧ hiddenByte.readFaults = []) ∧
      TombstoneRoom largeDevice 0 (hiddenByte.flash (bucketSector 0)) ∧
      Garbage 2 (listed largeDevice hiddenByte.st hiddenByte.flash 2)
        (bucketEntries largeDevice ((segSweep largeDevice 2 hiddenByte).2.flash (bucketSector 0))) 6) ∧
    (strayDevice.storeOpenAndValidate = .ok () ∧ IntactAtHome strayDevice strayHead.flash ∧
        strayHead.faults = [] ∧ strayHead.readFaults = []) ∧
      TombstoneRoom strayDevice 1 (strayHead.flash (bucketSector 1)) ∧
      Garbage 2 (listed strayDevice strayHead.st strayHead.flash 2)
        (bucketEntries strayDevice ((segSweep strayDevice 2 strayHead).2.flash (bucketSector 1))) 7 := by
  decide +kernel

end KeyValueDb.BlobDb
