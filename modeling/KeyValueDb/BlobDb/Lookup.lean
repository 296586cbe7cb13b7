import KeyValueDb.BlobDb.Adopt
import KeyValueDb.BlobDb.BucketLog

/-!
What the lookups answer: the walk of a bucket on flash meets the slots of its log, and the slot it
settles on is the newest one of the id whose checksum verifies.
-/

namespace KeyValueDb.BlobDb

-- A read that fails in a world with `I` leaves one with `K`.
def FailsTo (I K : World → Prop) : Prop :=
  ∀ w, I w → w.readFaults.headD false = true → K { w with readFaults := w.readFaults.tail }

-- A read that is made changes nothing `I` looks at.
def ReadClosed (I : World → Prop) : Prop :=
  ∀ w, I w → I { w with readFaults := w.readFaults.tail }

theorem Stable.readClosed {I : World → Prop} (S : Stable I) : ReadClosed I :=
  fun w h => S w _ ⟨rfl, rfl, rfl, rfl, rfl, rfl, List.tail_suffix _⟩ h

-- A reader's answer is `P`. It fails with `E` or, where a read fails, with an I/O error.
abbrev Tells (good : Event → Prop) (I C : World → Prop) (fl : Flash) (K : World → Prop) {α : Type} (x : M α)
    (P : α → Prop) (E : Errno → Prop) : Prop :=
  Spec (History good) (Reading I fl) x
    ⟨fun a w => P a ∧ Reading I fl w, fun e w => (E e ∨ (K w ∧ e = Errno.EIO)) ∧ Reading I fl w, C⟩

-- Whether something that is neither a slot this build knows nor erased follows the log.
def tornTail (cfg : Cfg) (f : Sector) (fin : Nat) : Bool :=
  decide (fin + slotOverhead ≤ cfg.pebSize) && (f fin != 0xff && !slotForeignAt cfg f fin)

def Entry.target (f : Sector) (x : Entry) : Target := ⟨x.off, x.head, bytesAt f x.off slotHeadLen⟩

def Entry.liveSlot (x : Entry) : Option LiveSlot :=
  if x.tombstone then none else some ⟨x.off, x.head, x.payload⟩

-- The answer of a lookup of `id` in a log.
structure Finds (cfg : Cfg) (f : Sector) (es : List Entry) (fin id : Nat) (found : Found) : Prop where
  cursor : found.scan.writeCursor = fin
  foreign : found.scan.foreign = false
  torn : found.scan.fromIndex = false → found.scan.tailTorn = tornTail cfg f fin
  live : found.live = (newest id es).bind Entry.liveSlot

-- What the slot index says of a bucket, and of one id in it, is so.
structure IndexTrue (cfg : Cfg) (fl : Flash) (st : St) (bid id : Nat) : Prop where
  cursor : ∀ fin, st.sidx.cursorOf bid = some fin →
    bucketHdrValid (fl (bucketSector bid)) bid = true
  lookup : ∀ off fin, st.sidx.lookup cfg bid id = some (off, fin) →
    ∃ es x, BucketLog cfg (fl (bucketSector bid)) es fin ∧
      slotForeignAt cfg (fl (bucketSector bid)) fin = false ∧
      lastSat (fun y => y.head.id == id) es = some x ∧ x.off = off

-- A lookup starts with an index that says the truth about it.
def Indexed (cfg : Cfg) (I : World → Prop) (fl : Flash) (bid id : Nat) (w : World) : Prop :=
  Reading I fl w ∧ (cfg.slotIndex = true → IndexTrue cfg fl w.st bid id)

section

variable {cfg : Cfg} {good : Event → Prop} {I C : World → Prop} {fl : Flash} {K : World → Prop}
  {E : Errno → Prop}

theorem tells_ret {α : Type} {a : α} {P : α → Prop} (h : P a) : Tells good I C fl K (pure a) P E :=
  Spec.ret fun _ hw => ⟨h, hw⟩

theorem tells_fail {α : Type} {e : Errno} {P : α → Prop} (h : E e) :
    Tells good I C fl K (Proc.fail e : M α) P E :=
  Spec.fail fun _ hw => ⟨.inl h, hw⟩

theorem tells_bind {α β : Type} {x : M α} {f : α → M β} {P : α → Prop} {Q : β → Prop}
    (hx : Tells good I C fl K x P E) (hf : ∀ a, P a → Tells good I C fl K (f a) Q E) :
    Tells good I C fl K (x >>= f) Q E := by
  apply hx.bind
  . intro a
    apply Spec.assuming (φ := P a)
    . exact fun _ h => h.1
    . intro ha
      exact (hf a ha).pre fun _ h => h.2
  . exact fun _ _ h => h
  . exact fun _ h => h

theorem tells_mono {α : Type} {x : M α} {P Q : α → Prop} {E' : Errno → Prop}
    (hx : Tells good I C fl K x P E) (hP : ∀ a, P a → Q a) (hE : ∀ e, E e → E' e) :
    Tells good I C fl K x Q E' :=
  hx.conseq (fun _ h => h) (fun a _ h => ⟨hP a h.1, h.2⟩)
    (fun e _ h => ⟨h.1.imp_left (hE e), h.2⟩) fun _ h => h

variable (S : Stable I)

include S

-- A step that changes caches only.
theorem tells_reads {α : Type} {x : M α} (hx : ∀ J : World → Prop, Stable J →
    Spec (History good) J x (.exits J (fun _ => False) C)) :
    Tells good I C fl K x (fun _ => True) E :=
  (hx _ (reading_stable S)).conseq (fun _ h => h) (fun _ _ h => ⟨trivial, h⟩)
    (fun _ _ h => h.elim) fun _ h => h

theorem sidx_tells (f : SlotIndex → SlotIndex) :
    Tells good I C fl K (modifySidx cfg f) (fun _ => True) E :=
  tells_reads S fun _ SJ => sidx_reads SJ f

theorem sidx_when_tells (c : Bool) (f : SlotIndex → SlotIndex) :
    Tells good I C fl K (Proc.when c (modifySidx cfg f)) (fun _ => True) E :=
  tells_reads S fun _ SJ => Spec.when (fun _ h => h) fun _ => sidx_reads SJ f

variable (R : ReadClosed I) (hr : FailsTo I K)

include hr

section

omit S

include R

theorem readFlash_tells {α : Type} (f : Flash → α) :
    Tells good I C fl K (readFlash f) (· = f fl) E := by
  intro w h _
  have h' : Reading I fl { w with readFaults := w.readFaults.tail } := ⟨R w h.1, h.2⟩
  have hrun : readFlash f w = (if w.readFaults.headD false then .err Errno.EIO else .ok (f w.flash),
    { w with readFaults := w.readFaults.tail }) := rfl
  rw [hrun]
  split
  . next hfault =>
    exact ⟨.inr ⟨hr w h.1 hfault, rfl⟩, h'⟩
  . exact ⟨by rw [h.2], h'⟩

theorem storeRead_tells (sector off len : Nat) :
    Tells good I C fl K (storeRead sector off len) (· = bytesAt (fl sector) off len) E :=
  readFlash_tells R hr _

/-! The walk -/

omit R hr in
theorem slotHdrAt_image (f : Sector) (off : Nat) :
    slotHdrAt (image (bytesAt f off slotHeadLen)) 0 = slotHdrAt f off := by
  have h0 : image (bytesAt f off slotHeadLen) 0 = f off := image_bytesAt (by decide)
  have h1 : image (bytesAt f off slotHeadLen) (0 + 1) = f (off + 1) := image_bytesAt (by decide)
  unfold slotHdrAt leAt
  rw [h0, h1, bytesAt_image (by decide), bytesAt_image (by decide)]

theorem crcOnFlash_tells (bid n at_ left c : Nat) (hn : left < n) :
    Tells good I C fl K (crcOnFlash bid n at_ left c)
      (· = (crc16Ccitt c (bytesAt (fl (bucketSector bid)) at_ left), at_ + left)) E := by
  induction n generalizing at_ left c with
  | zero => omega
  | succ n ih =>
    unfold crcOnFlash
    split
    . next h =>
      subst h
      exact tells_ret rfl
    . simp only
      apply tells_bind (storeRead_tells R hr _ _ _)
      rintro chunk rfl
      have hmin : min left 64 + (left - min left 64) = left := by omega
      apply tells_mono (ih _ _ _ (by omega))
      . rintro r rfl
        rw [← crc16Ccitt_append, ← bytesAt_append, hmin, Nat.add_assoc, hmin]
      . exact fun _ h => h

theorem slotCrcOkOnFlash_tells (bid off n : Nat) :
    Tells good I C fl K
      (slotCrcOkOnFlash bid off (bytesAt (fl (bucketSector bid)) off slotHeadLen) n)
      (· = slotIntactAt (fl (bucketSector bid)) off n) E := by
  unfold slotCrcOkOnFlash
  simp only
  apply tells_bind (crcOnFlash_tells R hr _ _ _ _ _ (Nat.lt_succ_self _))
  rintro r rfl
  apply tells_bind (storeRead_tells R hr _ _ _)
  rintro stored rfl
  apply tells_ret
  have hsplit : bytesAt (fl (bucketSector bid)) off slotHeadLen =
      bytesAt (fl (bucketSector bid)) off 4 ++ bytesAt (fl (bucketSector bid)) (off + 4) 8 :=
    bytesAt_append _ off 4 8
  rw [hsplit, List.take_left' (bytesAt_length ..), List.drop_left' (bytesAt_length ..)]
  rfl

omit R hr in
theorem slotForeignAt_eq {f : Sector} {off : Nat} (h : off + slotOverhead ≤ cfg.pebSize) :
    slotForeignAt cfg f off =
      (slotForeignHead cfg (slotHdrAt f off) off && slotIntactAt f off (slotHdrAt f off).valLen) := by
  simp [slotForeignAt, Nat.not_lt.mpr h]

theorem scanBucketFrom_tells {bid limit n cursor fin : Nat} {es : List Entry} (id : Nat)
    (target : Option Target) (hp : Path cfg (fl (bucketSector bid)) cursor es fin)
    (hs : walkable cfg (fl (bucketSector bid)) fin = false) (hn : es.length < n) :
    Tells good I C fl K (scanBucketFrom cfg bid id limit n cursor target)
      (· = ⟨fin, ((lastSat (fun x => x.head.id == id && decide (x.off < limit)) es).map
          (Entry.target (fl (bucketSector bid)))).or target, false,
        tornTail cfg (fl (bucketSector bid)) fin,
        slotForeignAt cfg (fl (bucketSector bid)) fin⟩) E := by
  induction n generalizing es cursor target with
  | zero => cases hn
  | succ n ih =>
    unfold scanBucketFrom
    cases hp with
    | nil =>
      split
      . next h =>
        apply tells_ret
        simp [lastSat, tornTail, slotForeignAt, Nat.not_le.mpr h, h]
      . next h =>
        have hroom : fin + slotOverhead ≤ cfg.pebSize := Nat.not_lt.mp h
        have hflags : (slotHdrAt (fl (bucketSector bid)) fin).flags = fl (bucketSector bid) fin := rfl
        apply tells_bind (storeRead_tells R hr _ _ _)
        rintro raw rfl
        simp only [slotHdrAt_image]
        split
        . split
          . next hf =>
            apply tells_bind (slotCrcOkOnFlash_tells R hr _ _ _)
            rintro ok rfl
            apply tells_ret
            rw [tornTail, slotForeignAt_eq hroom, hf, hflags]
            simp [lastSat, hroom, Bool.and_comm]
          . next hf =>
            apply tells_ret
            rw [Bool.not_eq_true] at hf
            rw [tornTail, slotForeignAt_eq hroom, hf, hflags]
            simp [lastSat, hroom]
        . next he =>
          -- the header is one of this build, so the slot does not fit
          rw [Bool.not_eq_true] at he
          have hbig : cfg.pebSize <
              fin + cfg.slotSizeFor (slotHdrAt (fl (bucketSector bid)) fin).valLen := by
            by_contra hfit
            rw [walkable_iff.mpr ⟨hroom, he, Nat.not_lt.mp hfit⟩] at hs
            cases hs
          rw [if_pos hbig]
          apply tells_ret
          have hf : slotForeignHead cfg (slotHdrAt (fl (bucketSector bid)) fin) fin = false := by
            simp [slotForeignHead, Nat.not_le.mpr hbig]
          have hne : fl (bucketSector bid) fin ≠ 0xff := by
            intro h0
            simp [headEndsLog, hflags, h0] at he
          rw [tornTail, slotForeignAt_eq hroom, hf]
          simp [lastSat, hroom, hne]
    | @cons _ _ es hw rest =>
      obtain ⟨h1, h2, h3⟩ := walkable_iff.mp hw
      rw [if_neg (Nat.not_lt.mpr h1)]
      apply tells_bind (storeRead_tells R hr _ _ _)
      rintro raw rfl
      simp only [slotHdrAt_image]
      have hfit : ¬ cfg.pebSize <
          cursor + cfg.slotSizeFor (slotHdrAt (fl (bucketSector bid)) cursor).valLen :=
        Nat.not_lt.mpr h3
      rw [if_neg (by rw [h2]; decide), if_neg hfit]
      apply tells_mono (ih _ rest (Nat.lt_of_succ_lt_succ hn))
      . rintro r rfl
        rw [lastSat]
        have hx : (entryAt (fl (bucketSector bid)) cursor).head.id =
          (slotHdrAt (fl (bucketSector bid)) cursor).id := rfl
        have hoff : (entryAt (fl (bucketSector bid)) cursor).off = cursor := rfl
        cases lastSat (fun x => x.head.id == id && decide (x.off < limit)) es with
        | some y => simp
        | none =>
          by_cases hc : (slotHdrAt (fl (bucketSector bid)) cursor).id = id ∧ cursor < limit
          . simp [hx, hoff, hc]
            rfl
          . have hc' : ¬ ((slotHdrAt (fl (bucketSector bid)) cursor).id == id &&
                decide (cursor < limit)) = true := by simpa using hc
            simp only [hx, hoff, if_neg hc, if_neg hc', Option.none_or, Option.map_none]
      . exact fun _ h => h

theorem scanBucketFor_tells {bid limit fin : Nat} {es : List Entry} (hv : cfg.Valid) (id : Nat)
    (hl : BucketLog cfg (fl (bucketSector bid)) es fin) :
    Tells good I C fl K (scanBucketFor cfg bid id limit)
      (· = ⟨fin, (lastSat (fun x => x.head.id == id && decide (x.off < limit)) es).map
          (Entry.target (fl (bucketSector bid))), false, tornTail cfg (fl (bucketSector bid)) fin,
        slotForeignAt cfg (fl (bucketSector bid)) fin⟩) E := by
  apply tells_mono (scanBucketFrom_tells R hr id none hl.path hl.stop (hl.length_lt hv))
  . rintro sc rfl
    rw [Option.or_none]
  . exact fun _ h => h

theorem slotPayload_tells (bid off : Nat) :
    Tells good I C fl K
      (slotPayload bid ((entryAt (fl (bucketSector bid)) off).target (fl (bucketSector bid))))
      (· = (entryAt (fl (bucketSector bid)) off).payload) E := by
  unfold slotPayload
  split
  . exact storeRead_tells R hr _ _ _
  . next h =>
    apply tells_ret
    have hz : (slotHdrAt (fl (bucketSector bid)) off).valLen = 0 := Nat.eq_zero_of_not_pos h
    show [] = bytesAt _ _ (slotHdrAt (fl (bucketSector bid)) off).valLen
    rw [hz]
    rfl

-- The checksum over the head as it was read decides whether the slot is intact.
omit R hr in
theorem verify_eq_intact (f : Sector) (off : Nat) :
    (slotCrc16 ((bytesAt f off slotHeadLen).take 4) ((bytesAt f off slotHeadLen).drop 4)
        (entryAt f off).payload ==
      leNat (bytesAt f (off + slotHeadLen + (slotHdrAt f off).valLen) 2)) =
      (entryAt f off).intact := by
  have hsplit : bytesAt f off slotHeadLen = bytesAt f off 4 ++ bytesAt f (off + 4) 8 :=
    bytesAt_append _ off 4 8
  rw [hsplit, List.take_left' (bytesAt_length ..), List.drop_left' (bytesAt_length ..)]
  rfl

theorem slotVerify_tells (bid off : Nat) :
    Tells good I C fl K
      (slotVerify bid ((entryAt (fl (bucketSector bid)) off).target (fl (bucketSector bid))))
      (· = if (entryAt (fl (bucketSector bid)) off).intact then
        some (entryAt (fl (bucketSector bid)) off).payload else none) E := by
  unfold slotVerify
  apply tells_bind (slotPayload_tells R hr bid off)
  rintro payload rfl
  apply tells_bind (storeRead_tells R hr _ _ _)
  rintro stored rfl
  have hok := verify_eq_intact (fl (bucketSector bid)) off
  split
  . next h => exact tells_ret (if_pos (hok.symm.trans h)).symm
  . next h => exact tells_ret (if_neg fun hi => h (hok.trans hi)).symm

theorem slotVerify_entry {bid : Nat} {x : Entry} (hx : x = entryAt (fl (bucketSector bid)) x.off) :
    Tells good I C fl K (slotVerify bid (x.target (fl (bucketSector bid))))
      (· = if x.intact then some x.payload else none) E := by
  rw [hx]
  exact slotVerify_tells R hr bid x.off

end

omit S hr in
theorem Path.before {f : Sector} {off fin : Nat} {a b : List Entry} {x : Entry}
    (h : Path cfg f off (a ++ x :: b) fin) :
    (∀ y ∈ a, y.off < x.off) ∧ ∀ y ∈ b, x.off < y.off := by
  obtain ⟨mid, ha, hb⟩ := h.split
  cases hb with
  | cons hw rest =>
    constructor
    . intro y hy
      have := (ha.mem hy).2.1
      have := y.size_ge cfg
      unfold slotOverhead at this
      show y.off < mid
      omega
    . intro y hy
      have := (rest.mem hy).1
      have := (entryAt f mid).size_ge cfg
      unfold slotOverhead at this
      show mid < y.off
      omega

-- Below a slot that fails its checksum the answer is the same.
omit S hr in
theorem newest_below {f : Sector} {es : List Entry} {off fin limit id : Nat} {x : Entry}
    (h : Path cfg f off es fin)
    (hx : lastSat (fun y => y.head.id == id && decide (y.off < limit)) es = some x)
    (hi : x.intact = false) :
    lastSat (fun y => y.intact && (y.head.id == id && decide (y.off < limit))) es =
      lastSat (fun y => y.intact && (y.head.id == id && decide (y.off < x.off))) es := by
  obtain ⟨a, b, rfl, hpx, hb⟩ := lastSat_some hx
  obtain ⟨hlow, hhigh⟩ := h.before
  have hlim : x.off < limit := by simp at hpx; exact hpx.2
  apply lastSat_congr
  intro y hy
  rcases List.mem_append.mp hy with hy | hy
  . have := hlow y hy
    simp [show y.off < limit by omega, this]
  . rcases List.mem_cons.mp hy with rfl | hy
    . simp [hi]
    . have h1 := hb y hy
      have h2 := hhigh y hy
      simp only [h1, Bool.and_false, Bool.false_eq]
      simp [show ¬ y.off < x.off by omega]

theorem walkLiveSlotBelow_tells {bid n limit fin : Nat} {es : List Entry} (hv : cfg.Valid) (id : Nat)
    (learn : Bool) (hl : BucketLog cfg (fl (bucketSector bid)) es fin) (hn : limit < n) :
    Tells good I C fl K (walkLiveSlotBelow cfg bid id learn n limit)
      (fun found => found.scan.writeCursor = fin ∧ found.scan.foreign = false ∧
        found.scan.fromIndex = false ∧
        found.scan.tailTorn = tornTail cfg (fl (bucketSector bid)) fin ∧
        found.live = (lastSat (fun y => y.intact && (y.head.id == id && decide (y.off < limit)))
          es).bind Entry.liveSlot ∧
        slotForeignAt cfg (fl (bucketSector bid)) fin = false)
      fun e => e = .ENOTSUP ∧ slotForeignAt cfg (fl (bucketSector bid)) fin = true := by
  induction n generalizing limit with
  | zero => cases hn
  | succ n ih =>
    unfold walkLiveSlotBelow
    apply tells_bind (scanBucketFor_tells S.readClosed hr hv id hl)
    rintro sc rfl
    simp only
    split
    . next hf => exact tells_fail ⟨rfl, hf⟩
    . next hf =>
      rw [Bool.not_eq_true] at hf
      cases hx : lastSat (fun y => y.head.id == id && decide (y.off < limit)) es with
      | none =>
        simp only [Option.map_none]
        apply tells_bind (sidx_when_tells S _ _)
        intro _ _
        apply tells_ret
        refine ⟨rfl, hf, rfl, rfl, ?_, hf⟩
        rw [lastSat_none.mpr]
        . rfl
        . intro y hy
          rw [lastSat_none.mp hx y hy, Bool.and_false]
      | some x =>
        simp only [Option.map_some]
        obtain ⟨a, b, hab, hpx, hb⟩ := lastSat_some hx
        have hmem : x ∈ es := by simp [hab]
        obtain ⟨-, -, -, hat⟩ := hl.path.mem hmem
        apply tells_bind (slotVerify_entry S.readClosed hr hat)
        rintro verified rfl
        cases hi : x.intact with
        | false =>
          have hlim : x.off < limit := by simp at hpx; exact hpx.2
          simp only [Bool.false_eq_true, if_false]
          have hbelow : x.off < n := by omega
          apply tells_mono (ih hbelow)
          . intro found hfound
            rw [newest_below hl.path hx hi]
            exact hfound
          . exact fun _ h => h
        | true =>
          have hnew : lastSat (fun y => y.intact && (y.head.id == id && decide (y.off < limit))) es =
              some x := by
            rw [hab, lastSat_append, lastSat, lastSat_none.mpr]
            . rw [Bool.and_eq_true] at hpx
              simp [hi, hpx]
            . intro y hy
              rw [hb y hy, Bool.and_false]
          simp only [if_true]
          have hflags : (x.head.flags &&& slotTombstone != 0) = x.tombstone := rfl
          simp only [Entry.target, hflags]
          split
          . next ht =>
            apply tells_ret
            refine ⟨rfl, hf, rfl, rfl, ?_, hf⟩
            simp [hnew, Entry.liveSlot, ht]
          . next ht =>
            apply tells_bind (sidx_when_tells S _ _)
            intro _ _
            apply tells_ret
            refine ⟨rfl, hf, rfl, rfl, ?_, hf⟩
            simp [hnew, Entry.liveSlot, ht]

theorem walkLiveSlot_tells {bid fin : Nat} {es : List Entry} (hv : cfg.Valid) (id : Nat)
    (learn : Bool) (hl : BucketLog cfg (fl (bucketSector bid)) es fin) :
    Tells good I C fl K (walkLiveSlot cfg bid id learn)
      (fun found => Finds cfg (fl (bucketSector bid)) es fin id found ∧
        slotForeignAt cfg (fl (bucketSector bid)) fin = false)
      fun e => e = .ENOTSUP ∧ slotForeignAt cfg (fl (bucketSector bid)) fin = true := by
  apply tells_mono (walkLiveSlotBelow_tells S hr hv id learn hl (Nat.lt_succ_self _))
  . intro found ⟨h1, h2, h3, h4, h5, h6⟩
    refine ⟨⟨h1, h2, fun _ => h4, ?_⟩, h6⟩
    rw [h5, newest]
    congr 1
    apply lastSat_congr
    intro y hy
    have h7 := (hl.path.mem hy).2.1
    have h8 := hl.path.fin_le (bucketDataOff_le hv)
    have h9 := y.size_ge cfg
    unfold slotOverhead at h9
    simp [show y.off < cfg.pebSize by omega]
  . exact fun _ h => h

omit S hr in
theorem newest_of_last {es : List Entry} {id : Nat} {x : Entry}
    (h : lastSat (fun y => y.head.id == id) es = some x) (hi : x.intact = true) :
    newest id es = some x := by
  obtain ⟨a, b, rfl, hx, hb⟩ := lastSat_some h
  rw [newest_append, newest_cons, newest, lastSat_none.mpr]
  . simp [hi, hx]
  . intro y hy
    rw [hb y hy, Bool.and_false]

-- The index's answer is the newest slot, if that verifies.
theorem findIndexedSlot_tells {bid fin : Nat} {es : List Entry} (id : Nat)
    (hl : BucketLog cfg (fl (bucketSector bid)) es fin) :
    Spec (History good) (Indexed cfg I fl bid id) (findIndexedSlot cfg bid id)
      ⟨fun r w => (∀ found, r = some found → Finds cfg (fl (bucketSector bid)) es fin id found ∧
          slotForeignAt cfg (fl (bucketSector bid)) fin = false) ∧ Reading I fl w,
        fun e w => (False ∨ (K w ∧ e = Errno.EIO)) ∧ Reading I fl w, C⟩ := by
  unfold findIndexedSlot sidxLookup
  split
  . next hs =>
    apply Spec.read_bind
    intro hit
    cases hit with
    | none => exact Spec.ret fun w h => ⟨(fun _ h => nomatch h), h.2.1⟩
    | some hit =>
      obtain ⟨off, fin'⟩ := hit
      apply Spec.assuming
      . intro w h
        exact (h.2.2 hs).lookup off fin' h.1
      . rintro ⟨es', x, hl', hforeign, hx, rfl⟩
        obtain ⟨rfl, rfl⟩ := hl.unique hl'
        obtain ⟨a, b, hab, hid, -⟩ := lastSat_some hx
        obtain ⟨-, hfin, hwalk, hat⟩ := hl.path.mem (x := x) (by simp [hab])
        obtain ⟨-, hends, -⟩ := walkable_iff.mp hwalk
        have hhead : slotHdrAt (fl (bucketSector bid)) x.off = x.head := by
          rw [hat]
          rfl
        have hsize := x.size_ge cfg
        refine Spec.pre ?_ fun w h => h.2.1
        simp only
        rw [if_neg (by omega)]
        apply tells_bind (storeRead_tells S.readClosed hr _ _ _)
        rintro raw rfl
        simp only [slotHdrAt_image]
        rw [hhead] at hends ⊢
        have hidx : (x.head.id != id) = false := by simpa using hid
        have hroom : decide (fin < x.off + cfg.slotSizeFor x.head.valLen) = false :=
          decide_eq_false (Nat.not_lt.mpr hfin)
        simp only [hidx, hends, hroom, Bool.or_false, Bool.false_eq_true, if_false]
        apply tells_bind (slotVerify_entry S.readClosed hr hat)
        rintro verified rfl
        cases hi : x.intact with
        | false => exact tells_ret fun _ h => nomatch h
        | true =>
          have hnew := newest_of_last hx hi
          have hflags : (x.head.flags &&& slotTombstone != 0) = x.tombstone := rfl
          simp only [if_true, hflags]
          split
          . next htomb =>
            apply tells_ret
            rintro found ⟨⟩
            refine ⟨⟨rfl, rfl, (fun h => nomatch h), ?_⟩, hforeign⟩
            simp [hnew, Entry.liveSlot, htomb]
          . next htomb =>
            apply tells_ret
            rintro found ⟨⟩
            refine ⟨⟨rfl, rfl, (fun h => nomatch h), ?_⟩, hforeign⟩
            simp [hnew, Entry.liveSlot, htomb]
  . apply Spec.ret_bind
    exact Spec.ret fun w h => ⟨(fun _ h => nomatch h), h.1⟩

theorem findLiveSlot_tells {bid fin : Nat} {es : List Entry} (hv : cfg.Valid) (id : Nat)
    (hl : BucketLog cfg (fl (bucketSector bid)) es fin) :
    Spec (History good) (Indexed cfg I fl bid id) (findLiveSlot cfg bid id)
      ⟨fun found w => (Finds cfg (fl (bucketSector bid)) es fin id found ∧
          slotForeignAt cfg (fl (bucketSector bid)) fin = false) ∧ Reading I fl w,
        fun e w => ((e = .ENOTSUP ∧ slotForeignAt cfg (fl (bucketSector bid)) fin = true) ∨
          (K w ∧ e = Errno.EIO)) ∧ Reading I fl w, C⟩ := by
  unfold findLiveSlot
  apply (findIndexedSlot_tells S hr id hl).bind
  . intro r
    cases r with
    | some found => exact Spec.ret fun w h => ⟨h.1 found rfl, h.2⟩
    | none => exact (walkLiveSlot_tells S hr hv id true hl).pre fun _ h => h.2
  . exact fun e w h => ⟨.inr (h.1.resolve_left not_false), h.2⟩
  . exact fun _ h => h

omit S in
include R in
theorem readBucketHdr_tells (bid id : Nat) :
    Spec (History good) (Indexed cfg I fl bid id) (readBucketHdr cfg bid)
      ⟨fun r w => r = bucketHdrValid (fl (bucketSector bid)) bid ∧ Indexed cfg I fl bid id w,
        fun e w => (K w ∧ e = Errno.EIO) ∧ Reading I fl w, C⟩ := by
  have hread : Spec (History good) (Indexed cfg I fl bid id)
      (do
        let hdr ← storeRead (bucketSector bid) 0 bucketDataOff
        pure (bucketHdrValid (image hdr) bid))
      ⟨fun r w => r = bucketHdrValid (fl (bucketSector bid)) bid ∧ Indexed cfg I fl bid id w,
        fun e w => (K w ∧ e = Errno.EIO) ∧ Reading I fl w, C⟩ := by
    -- a read of the flash leaves the index alone
    have hst : Tells good (fun w => I w ∧ (cfg.slotIndex = true → IndexTrue cfg fl w.st bid id)) C fl K
        (storeRead (bucketSector bid) 0 bucketDataOff)
        (· = bytesAt (fl (bucketSector bid)) 0 bucketDataOff) (fun _ => False) := by
      apply readFlash_tells
      . exact fun w h => ⟨R w h.1, h.2⟩
      . exact fun w h => hr w h.1
    have hx : Spec (History good) (Indexed cfg I fl bid id)
        (storeRead (bucketSector bid) 0 bucketDataOff)
        ⟨fun r w => r = bytesAt (fl (bucketSector bid)) 0 bucketDataOff ∧ Indexed cfg I fl bid id w,
          fun e w => (K w ∧ e = Errno.EIO) ∧ Reading I fl w, C⟩ :=
      hst.conseq (fun w h => ⟨⟨h.1.1, h.2⟩, h.1.2⟩) (fun _ w h => ⟨h.1, ⟨h.2.1.1, h.2.2⟩, h.2.1.2⟩)
        (fun e w h => ⟨h.1.resolve_left not_false, h.2.1.1, h.2.2⟩) fun _ h => h
    apply hx.bind
    . intro hdr
      apply Spec.ret
      rintro w ⟨rfl, h⟩
      exact ⟨bucketHdrValid_congr fun j hj => by rw [image_bytesAt hj, Nat.zero_add], h⟩
    . exact fun _ _ h => h
    . exact fun _ h => h
  unfold readBucketHdr sidxCursor
  split
  . next hs =>
    apply Spec.read_bind
    intro known
    cases known with
    | none => exact hread.pre fun _ h => h.2
    | some fin => exact Spec.ret fun w h => ⟨((h.2.2 hs).cursor fin h.1).symm, h.2⟩
  . exact Spec.ret_bind hread

/-! What the answers say of the contents -/

-- The value a live slot carries.
def LiveSlot.stored (live : LiveSlot) : Stored := ⟨live.head.flags, live.payload⟩

omit S hr in
theorem Finds.content {id fin : Nat} {es : List Entry} {found : Found} (hv : cfg.Valid)
    (hl : BucketLog cfg (fl (bucketSector (cfg.idToBucket id))) es fin)
    (hhdr : bucketHdrValid (fl (bucketSector (cfg.idToBucket id))) (cfg.idToBucket id) = true)
    (h : Finds cfg (fl (bucketSector (cfg.idToBucket id))) es fin id found) :
    contentOf cfg fl id = found.live.map LiveSlot.stored ∧
      ∀ live, found.live = some live → live.head.valLen = live.payload.length := by
  have hlive := h.live
  unfold contentOf liveIn
  simp only [hhdr, if_true, hl.entries hv]
  rw [hlive]
  cases hn : newest id es with
  | none => exact ⟨rfl, fun _ h => by cases h⟩
  | some x =>
    simp only [Option.bind_some, Entry.stored, Entry.liveSlot]
    split
    . exact ⟨rfl, fun _ h => by cases h⟩
    . refine ⟨rfl, ?_⟩
      rintro live ⟨⟩
      obtain ⟨-, -, -, hat⟩ := hl.path.mem (newest_some hn).1
      simp only
      rw [hat]
      simp [entryAt]

omit S hr in
theorem contentOf_unformatted {id : Nat}
    (h : bucketHdrValid (fl (bucketSector (cfg.idToBucket id))) (cfg.idToBucket id) = false) :
    contentOf cfg fl id = none := by
  simp [contentOf, h]

end

end KeyValueDb.BlobDb
