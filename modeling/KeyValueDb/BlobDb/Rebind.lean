import KeyValueDb.BlobDb.Refusal
import KeyValueDb.BlobDb.Inspect
import KeyValueDb.BlobDb.IndexTruth

/-!
An update of the only live id of a bucket. The geometry check bounds payloads, and slots are rounded
up to the write unit: the old slot and the new one may not fit behind the header together.
-/

namespace KeyValueDb.BlobDb

variable (cfg : Cfg)

-- No other id has a live slot in the bucket of `id`.
def OnlyLive (fl : Flash) (id : Nat) : Prop :=
  ∀ other, other ≠ id →
    liveIn (bucketEntries cfg (fl (bucketSector (cfg.idToBucket id)))) other = none

-- The bytes of the slots of a bucket that a compaction keeps.
def liveSize (f : Sector) : Nat := ((survivors (bucketEntries cfg f)).map (Entry.size cfg)).sum

-- Where the log of a bucket ends at an erased byte, nothing is written behind it.
def Unhidden (f : Sector) : Prop := f (logEnd cfg f) = 0xff → Clean cfg f (logEnd cfg f)

section

variable {cfg} {f : Sector} {es : List Entry} {fin : Nat}

theorem mem_survivors_live {x : Entry} (h : x ∈ survivors es) :
    x.intact = true ∧ x.tombstone = false := by
  induction es with
  | nil => cases h
  | cons y es ih =>
    rw [survivors] at h
    split at h
    . next hy =>
      cases h with
      | head =>
        simp only [Bool.and_eq_true, Bool.not_eq_true'] at hy
        exact ⟨hy.1, hy.2.1⟩
      | tail _ h => exact ih h
    . exact ih h

-- What a compaction keeps is live.
theorem liveIn_of_survivor {x : Entry} (h : x ∈ survivors es) : liveIn es x.head.id ≠ none := by
  rw [← liveIn_survivors]
  unfold liveIn
  cases hn : newest x.head.id (survivors es) with
  | none =>
    have := (lastSat_none.mp hn) x h
    simp [(mem_survivors_live h).1] at this
  | some y =>
    obtain ⟨hy, -, -⟩ := newest_some hn
    simp [Entry.stored, (mem_survivors_live hy).2]

-- One id has at most one slot that a compaction keeps.
theorem survivors_single {id : Nat} (h : ∀ x ∈ survivors es, x.head.id = id) :
    survivors es = (newest id (survivors es)).toList := by
  induction es with
  | nil => rfl
  | cons x es ih =>
    rw [survivors] at h ⊢
    split
    . next hkeep =>
      rw [if_pos hkeep] at h
      have hid : x.head.id = id := h x (List.mem_cons_self ..)
      have hrest := ih fun y hy => h y (List.mem_cons_of_mem _ hy)
      simp only [Bool.and_eq_true, Bool.not_eq_true', Option.isNone_iff_eq_none] at hkeep
      obtain ⟨hintact, -, hnone⟩ := hkeep
      rw [hid] at hnone
      have hgone : newest id (survivors es) = none := by
        rw [newest_survivors, hnone]
        rfl
      rw [hgone] at hrest
      rw [newest_cons, hgone, hrest]
      simp [hintact, hid]
    . next hdrop =>
      rw [if_neg hdrop] at h
      exact ih h

theorem BucketLog.liveSize (hl : BucketLog cfg f es fin) (hv : cfg.Valid) :
    BlobDb.liveSize cfg f = ((survivors es).map (Entry.size cfg)).sum := by
  unfold BlobDb.liveSize
  rw [hl.entries hv]

-- The live bytes of a bucket with one live id are those of its slot.
theorem OnlyLive.liveSize {fl : Flash} {id L : Nat} (hv : cfg.Valid) (h : OnlyLive cfg fl id)
    (hhdr : bucketHdrValid (fl (bucketSector (cfg.idToBucket id))) (cfg.idToBucket id) = true)
    (hL : ∀ s, contentOf cfg fl id = some s → cfg.slotSizeFor s.payload.length ≤ L) :
    BlobDb.liveSize cfg (fl (bucketSector (cfg.idToBucket id))) ≤ L := by
  unfold OnlyLive at h
  unfold contentOf at hL
  rw [if_pos hhdr] at hL
  unfold BlobDb.liveSize
  generalize fl (bucketSector (cfg.idToBucket id)) = f at h hL
  generalize hes : bucketEntries cfg f = es at h hL
  have hids : ∀ x ∈ survivors es, x.head.id = id := by
    intro x hx
    by_contra hne
    exact liveIn_of_survivor hx (h _ hne)
  rw [survivors_single hids]
  cases hn : newest id (survivors es) with
  | none => simp
  | some x =>
    obtain ⟨hx, -, -⟩ := newest_some hn
    have hlive : liveIn es id = some ⟨x.head.flags, x.payload⟩ := by
      rw [← liveIn_survivors]
      simp [liveIn, hn, Entry.stored, (mem_survivors_live hx).2]
    have hlen : x.payload.length = x.head.valLen := by
      obtain ⟨es', fin, hl⟩ := exists_bucketLog cfg f
      rw [hl.entries hv] at hes
      subst hes
      obtain ⟨-, -, -, hat⟩ := hl.path.mem (mem_survivors hx)
      rw [hat]
      exact bytesAt_length ..
    have := hL _ hlive
    simpa [Entry.size, hlen] using this

-- A tombstone at the end of a log adds nothing that a compaction keeps.
theorem survivors_tombstone {y : Entry} (hy : y.tombstone = true) :
    ((survivors (es ++ [y])).map (Entry.size cfg)).sum ≤
      ((survivors es).map (Entry.size cfg)).sum := by
  induction es with
  | nil => simp [survivors, hy]
  | cons x es ih =>
    rw [List.cons_append, survivors, survivors]
    split
    . next hkeep =>
      simp only [Bool.and_eq_true, Bool.not_eq_true', Option.isNone_iff_eq_none] at hkeep
      obtain ⟨hintact, htomb, hnone⟩ := hkeep
      rw [newest_append, Option.or_eq_none_iff] at hnone
      rw [if_pos (by simp [hintact, htomb, hnone.2])]
      simp only [List.map_cons, List.sum_cons]
      omega
    . split
      . simp only [List.map_cons, List.sum_cons]
        omega
      . exact ih

theorem sum_repack (off : Nat) (es : List Entry) :
    ((repack cfg off es).map (Entry.size cfg)).sum = (es.map (Entry.size cfg)).sum := by
  induction es generalizing off with
  | nil => rfl
  | cons x es ih =>
    rw [repack, List.map_cons, List.sum_cons, List.map_cons, List.sum_cons, ih]
    rfl

/-! A compaction that meets no fault -/

-- The flash after bucket `bid` was compacted: its image, and all but the scratch sector as before.
structure Compacted (cfg : Cfg) (fl : Flash) (bid : Nat) (es : List Entry) (w : World) : Prop where
  was : bucketHdrValid (fl (bucketSector bid)) bid = true
  other : ∀ s, s ≠ bucketSector bid → s ≠ scratchSector → w.flash s = fl s
  header : bucketHdrValid (w.flash (bucketSector bid)) bid = true
  log : BucketLog cfg (w.flash (bucketSector bid)) (repack cfg bucketDataOff (survivors es))
    (bucketDataOff + ((survivors es).map (Entry.size cfg)).sum)
  clean : Clean cfg (w.flash (bucketSector bid))
    (bucketDataOff + ((survivors es).map (Entry.size cfg)).sum)

theorem compactCommit_advances {bid : Nat} {img : List UInt8} {fl : Flash} {I : World → Prop}
    (hI : ∀ w sector q, I w → I (w.mutate sector q)) (hlen : img.length ≤ cfg.scratchSealOff) :
    Advances True (fun w => w.flash = fl ∧ I w) (compactCommit cfg bid img)
      fun _ w => (w.flash (bucketSector bid) = image img ∧
        ∀ s, s ≠ bucketSector bid → s ≠ scratchSector → w.flash s = fl s) ∧ I w := by
  have hne : bucketSector bid ≠ scratchSector := by
    unfold bucketSector firstBucket scratchSector
    omega
  -- what the sectors hold besides the scratch sector
  have hscratch : ∀ q, Advances True
      (fun w => (∀ s, s ≠ scratchSector → w.flash s = fl s) ∧ I w) (storeMutate scratchSector q)
      fun _ w => (∀ s, s ≠ scratchSector → w.flash s = fl s) ∧ I w := by
    intro q
    apply storeMutate_advances
    intro w h _
    exact ⟨fun s hs => by rw [mutate_other hs, h.1 s hs], hI _ _ _ h.2⟩
  have hwedge : ∀ {x : M Unit} {P Q : World → Prop}, Advances True P x (fun _ => Q) →
      Advances True P (compactOrWedge x) fun _ => Q := by
    intro x P Q hx
    unfold compactOrWedge
    apply hx.caught
    . exact fun _ => Advances.ret fun _ h => h
    . exact fun e _ hk => absurd trivial hk
  unfold compactCommit
  rw [if_neg (by omega)]
  split
  . apply storeReplace_advances
    . intro w h hf
      refine ⟨⟨by rw [mutate_whole hf]; rfl, fun s hs _ => by rw [mutate_other hs, h.1]⟩,
        hI _ _ _ h.2⟩
    . intro w h hf hf'
      refine ⟨⟨?_, fun s hs _ => by rw [mutate_other hs, mutate_other hs, h.1]⟩,
        hI _ _ _ (hI _ _ _ h.2)⟩
      rw [mutate_whole hf', mutate_whole hf]
      exact program_blank _
  . have hstart : Advances True (fun w => w.flash = fl ∧ I w) (storeErase scratchSector)
        fun _ w => (∀ s, s ≠ scratchSector → w.flash s = fl s) ∧ I w :=
      (hscratch _).conseq (fun w h => ⟨fun s _ => by rw [h.1], h.2⟩) fun _ _ h => h
    apply hstart.bind
    intro _
    apply (hscratch _).bind
    intro _
    have hseal : Advances True (fun w => (∀ s, s ≠ scratchSector → w.flash s = fl s) ∧ I w)
        (scratchSealWrite cfg img)
        fun _ w => (∀ s, s ≠ scratchSector → w.flash s = fl s) ∧ I w := hscratch _
    apply hseal.bind
    intro _
    have herase : Advances True (fun w => (∀ s, s ≠ scratchSector → w.flash s = fl s) ∧ I w)
        (storeErase (bucketSector bid))
        fun _ w => (w.flash (bucketSector bid) = blank ∧
          ∀ s, s ≠ bucketSector bid → s ≠ scratchSector → w.flash s = fl s) ∧ I w := by
      apply storeMutate_advances
      intro w h hf
      refine ⟨⟨by rw [mutate_whole hf]; rfl, ?_⟩, hI _ _ _ h.2⟩
      intro s hs hs'
      rw [mutate_other hs, h.1 s hs']
    apply (hwedge herase).bind
    intro _
    have hwrite : Advances True
        (fun w => (w.flash (bucketSector bid) = blank ∧
          ∀ s, s ≠ bucketSector bid → s ≠ scratchSector → w.flash s = fl s) ∧ I w)
        (storeWrite (bucketSector bid) 0 img)
        fun _ w => (w.flash (bucketSector bid) = image img ∧
          ∀ s, s ≠ bucketSector bid → s ≠ scratchSector → w.flash s = fl s) ∧ I w := by
      apply storeMutate_advances
      intro w h hf
      refine ⟨⟨?_, fun s hs hs' => by rw [mutate_other hs, h.1.2 s hs hs']⟩, hI _ _ _ h.2⟩
      rw [mutate_whole hf, h.1.1]
      exact program_blank _
    apply (hwedge hwrite).bind
    intro _
    apply hwedge
    apply storeMutate_advances
    intro w h _
    refine ⟨⟨by rw [mutate_other hne, h.1.1], ?_⟩, hI _ _ _ h.2⟩
    intro s hs hs'
    rw [mutate_other hs', h.1.2 s hs hs']

/-! What the index knows of a compacted bucket -/

-- The append cursor of a bucket, where the index has one.
def Knows (cfg : Cfg) (bid off : Nat) (w : World) : Prop :=
  cfg.slotIndex = true → ∀ fin, w.st.sidx.cursorOf bid = some fin → fin = off

theorem begin_knows (t : SlotIndex) {bid dataOff fin : Nat}
    (h : (t.begin cfg bid dataOff).cursorOf bid = some fin) : fin = dataOff := by
  unfold SlotIndex.begin at h
  split at h
  . exact ((cursorOf_on h).2.1.symm.trans (if_pos rfl))
  . next hoff => exact absurd (cursorOf_on h).1 hoff

theorem note_knows {t : SlotIndex} {bid id off size fin : Nat} {tombstone : Bool}
    (h : (t.note cfg bid id off size tombstone).cursorOf bid = some fin) :
    fin = (off + size) % 2 ^ 32 := by
  unfold SlotIndex.note at h
  split at h
  . next hunknown =>
    unfold SlotIndex.cursorOf at h
    rw [if_pos hunknown] at h
    cases h
  . split at h
    . rw [forget_cursor, if_pos rfl] at h
      cases h
    . have hset : ∀ t' : SlotIndex, t'.cursor = SlotIndex.set t.cursor bid ((off + size) % 2 ^ 32) →
          t'.cursorOf bid = some fin → fin = (off + size) % 2 ^ 32 := by
        intro t' hc h'
        have := (cursorOf_on h').2.1
        rw [hc] at this
        exact this.symm.trans (if_pos rfl)
      simp only at h
      split at h
      . exact hset _ (drop_cursor _ _).1 h
      . exact hset _ (put_cursor _ _ _).1 h

theorem sidx_knows {f : SlotIndex → SlotIndex} {I : World → Prop} (S : Stable I) {bid off : Nat}
    (hf : ∀ t fin, (f t).cursorOf bid = some fin → fin = off) :
    Advances True I (modifySidx cfg f) fun _ w => Knows cfg bid off w ∧ I w := by
  unfold modifySidx
  split
  . apply modifySt_advances
    intro w h
    exact ⟨fun _ => hf _, S w _ ⟨rfl, rfl, rfl, rfl, rfl, rfl, List.suffix_rfl⟩ h⟩
  . next hs => exact Advances.ret fun w h => ⟨fun hs' => absurd hs' hs, h⟩

theorem slotWalkAt_fits {buf : Sector} {off : Nat} {sv : SlotView} {intact : Bool}
    (h : slotWalkAt cfg buf off = some (sv, intact)) : off + sv.totalSize ≤ cfg.pebSize := by
  rw [slotWalkAt_eq] at h
  split at h
  . next hw =>
    cases h
    exact (walkable_iff.mp hw).2.2
  . cases h

theorem noteImage_knows (hv : cfg.Valid) {I : World → Prop} (S : Stable I) (bid : Nat) (buf : Sector)
    (newLen n : Nat) {off : Nat} :
    Advances True (fun w => Knows cfg bid off w ∧ I w) (noteImage cfg bid buf newLen n off)
      fun off' w => Knows cfg bid off' w ∧ I w := by
  induction n generalizing off with
  | zero => exact Advances.ret fun _ h => h
  | succ n ih =>
    unfold noteImage
    have hpeb : cfg.pebSize ≤ 65536 := hv.buf.trans cfg.sector_range.2
    have hnote : ∀ id size tombstone, off + size ≤ cfg.pebSize →
        Advances True (fun w => Knows cfg bid off w ∧ I w) (sidxNote cfg bid id off size tombstone)
          fun _ w => Knows cfg bid (off + size) w ∧ I w := by
      intro id size tombstone hfits
      have hmod : (off + size) % 2 ^ 32 = off + size := Nat.mod_eq_of_lt (by omega)
      exact (sidx_knows S fun _ _ h => (note_knows h).trans hmod).conseq (fun _ h => h.2)
        fun _ _ h => h
    split
    . split
      . next hwalk => exact (hnote _ _ _ (slotWalkAt_fits hwalk)).bind fun _ => ih
      . exact Advances.ret fun _ h => h
    . exact Advances.ret fun _ h => h

-- A compaction that meets no fault ends with the image of the live slots, or changes nothing. It
-- has no room for the image only where that reaches into the seal.
theorem compactBucket_calm (hv : cfg.Valid) {bid : Nat} (hbid : bid < 2 ^ 16) {fl : Flash}
    (hl : BucketLog cfg (fl (bucketSector bid)) es fin) {I : World → Prop} (S : Stable I)
    (hI : ∀ w sector q, I w → I (w.mutate sector q)) :
    Spec (History AnyEvent) (fun w => Calmly True w ∧ w.flash = fl ∧ I w) (compactBucket cfg bid)
      ⟨fun _ w => Calmly True w ∧ Compacted cfg fl bid es w ∧
          Knows cfg bid (bucketDataOff + ((survivors es).map (Entry.size cfg)).sum) w ∧ I w,
        fun e w => (e = .ENOSPC → bucketHdrValid (fl (bucketSector bid)) bid = true ∧
            cfg.scratchSealOff < bucketDataOff + ((survivors es).map (Entry.size cfg)).sum) ∧
          Calmly True w ∧ w.flash = fl ∧ I w,
        fun _ => False⟩ := by
  obtain ⟨img, len, hb, hlog, hclean, hbytes, -⟩ := buildCompactedImage_spec hv hl bid
  have hlen : len = bucketDataOff + ((survivors es).map (Entry.size cfg)).sum := by
    rw [← hlog.path.sum_size, sum_repack]
  have hkeep : Stable fun w => Calmly True w ∧ w.flash = fl ∧ I w :=
    calmly_stable _ fun w w' q h => ⟨q.flash.trans h.1, S w w' q h.2⟩
  unfold compactBucket
  have hread : Advances True (fun w => w.flash = fl ∧ I w) (readBucket bid)
      fun buf w => buf = fl (bucketSector bid) ∧ w.flash = fl ∧ I w := by
    unfold readBucket readSector
    apply readFlash_advances
    rintro w ⟨rfl, h⟩
    exact ⟨rfl, rfl, S w _ ⟨rfl, rfl, rfl, rfl, rfl, rfl, List.tail_suffix _⟩ h⟩
  apply Spec.bind hread
  . intro buf
    apply Spec.assuming (φ := buf = fl (bucketSector bid))
    . exact fun _ h => h.2.1
    rintro rfl
    refine Spec.pre (P := fun w => Calmly True w ∧ w.flash = fl ∧ I w) ?_ fun w h => ⟨h.1, h.2.2⟩
    split
    . exact Spec.fail fun w h => ⟨by rintro ⟨⟩, h⟩
    . next hwas =>
      have hwas : bucketHdrValid (fl (bucketSector bid)) bid = true := by simpa using hwas
      simp only [hb]
      apply Spec.ofExcept_bind
      . intro e he w h
        refine ⟨?_, h⟩
        rintro rfl
        unfold compactionMayDropTail at he
        split at he
        . cases he
        . simp only at he
          split at he <;> cases he
      intro _ _
      by_cases hroom : len ≤ cfg.scratchSealOff
      . have hcommit := (@compactCommit_advances _ bid _ fl) hI
          (show (bytesAt img 0 len).length ≤ cfg.scratchSealOff by rw [bytesAt_length]; exact hroom)
        have hstate : ∀ w, (w.flash (bucketSector bid) = image (bytesAt img 0 len) ∧
            ∀ s, s ≠ bucketSector bid → s ≠ scratchSector → w.flash s = fl s) ∧ I w →
            Compacted cfg fl bid es w ∧ I w := by
          rintro w ⟨⟨himg, hother⟩, h⟩
          refine ⟨⟨hwas, hother, ?_, ?_, ?_⟩, h⟩
          . rw [himg]
            have hhdr := bucketHdrBytes_length bid (leAt (fl (bucketSector bid)) 8 4 + 1)
            apply bucketHdrValid_written hbid
            rw [hbytes, ← program_blank, ← hhdr]
            exact (bytesAt_split (bytesAt_program fun _ _ _ => rfl)).1
          . rw [himg, ← hlen]
            exact hlog
          . rw [himg, ← hlen]
            exact hclean
        have hkept : Stable fun w => Compacted cfg fl bid es w ∧ I w := by
          rintro w w' q ⟨⟨h1, h2, h3, h4, h5⟩, h⟩
          rw [← q.flash] at h2 h3 h4 h5
          exact ⟨⟨h1, h2, h3, h4, h5⟩, S w w' q h⟩
        refine Spec.conseq (show Advances True (fun w => w.flash = fl ∧ I w) _
          fun _ w => Knows cfg bid len w ∧ Compacted cfg fl bid es w ∧ I w from ?_) ?_ ?_ ?_ ?_
        . apply hcommit.caught
          . intro _
            have hbegin := (@sidx_knows cfg (fun t => t.begin cfg bid bucketDataOff) _ hkept)
              fun t _ h => begin_knows t h
            apply (hbegin.conseq (fun w h => hstate w h) fun _ _ h => h).bind
            intro _
            apply (noteImage_knows hv hkept _ _ _ _).bind
            intro off
            unfold Proc.when
            split
            . have hforget := (@sidx_knows cfg (fun t => t.forget cfg bid) _ hkept bid len) fun t fin h => by
                  rw [forget_cursor, if_pos rfl] at h
                  cases h
              exact hforget.conseq (fun _ h => h.2) fun _ _ h => h
            . next heq =>
              have heq : off = len := by simpa using heq
              rw [heq]
              exact Advances.ret fun _ h => h
          . exact fun e _ hk => absurd trivial hk
        . exact fun _ h => h
        . rintro _ w ⟨h1, h2, h3, h4⟩
          rw [← hlen]
          exact ⟨h1, h3, h2, h4⟩
        . exact fun e w h => absurd trivial h.2
        . exact fun w h => absurd trivial h
      . have hfull : compactCommit cfg bid (bytesAt img 0 len) = Proc.fail .ENOSPC := by
          unfold compactCommit
          rw [bytesAt_length, if_pos (by omega)]
        rw [hfull]
        have hforget : Spec (History AnyEvent) (fun w => Calmly True w ∧ w.flash = fl ∧ I w)
            (sidxForget cfg bid)
            (.exits (fun w => Calmly True w ∧ w.flash = fl ∧ I w) (fun _ => False)
              fun _ => False) := sidx_reads hkeep _
        show Spec _ _ (sidxForget cfg bid >>= fun _ => Proc.fail Errno.ENOSPC) _
        apply hforget.bind
        . intro _
          exact Spec.fail fun w h => ⟨fun _ => ⟨hwas, by omega⟩, h⟩
        . exact fun _ _ h => h.elim
        . exact fun _ h => h
  . exact fun e w h => absurd trivial h.2
  . exact fun w h => absurd trivial h

/-! The pending sweep -/

-- The log of bucket `bid` hides nothing and no more than `L` bytes of it are live.
def Tidy (cfg : Cfg) (bid L : Nat) (f : Sector) : Prop :=
  bucketHdrValid f bid = true → Unhidden cfg f ∧ liveSize cfg f ≤ L

-- What a sweep keeps of bucket `bid`.
structure Settling (cfg : Cfg) (bid L r : Nat) (w : World) : Prop where
  active : w.st.activeMaster ≤ 1
  room : w.st.rotGen + r < 2 ^ 32
  tidy : Tidy cfg bid L (w.flash (bucketSector bid))

variable {bid L r : Nat}

theorem settling_stable : Stable (Settling cfg bid L r) := by
  intro w w' q h
  refine ⟨?_, ?_, ?_⟩
  . rw [q.activeMaster]
    exact h.active
  . rw [q.rotGen]
    exact h.room
  . rw [q.flash]
    exact h.tidy

theorem tidy_clean (hv : cfg.Valid) (hl : BucketLog cfg f es fin) (hc : Clean cfg f fin)
    (hL : ((survivors es).map (Entry.size cfg)).sum ≤ L) : Tidy cfg bid L f := by
  intro _
  refine ⟨fun _ => ?_, ?_⟩
  . rw [hl.logEnd hv]
    exact hc
  . rw [hl.liveSize hv]
    exact hL

theorem sum_survivors_le (es : List Entry) :
    ((survivors es).map (Entry.size cfg)).sum ≤ (es.map (Entry.size cfg)).sum := by
  induction es with
  | nil => exact Nat.le_refl _
  | cons x es ih =>
    rw [survivors, List.map_cons, List.sum_cons]
    split
    . rw [List.map_cons, List.sum_cons]
      omega
    . omega

-- A compacted bucket.
theorem Compacted.tidy (hv : cfg.Valid) {fl : Flash} {w : World} (h : Compacted cfg fl bid es w)
    (hL : ((survivors es).map (Entry.size cfg)).sum ≤ L) :
    Tidy cfg bid L (w.flash (bucketSector bid)) := by
  apply tidy_clean hv h.log h.clean
  have := (@sum_survivors_le cfg) (repack cfg bucketDataOff (survivors es))
  rw [sum_repack] at this
  exact this.trans hL

-- A tombstone where the log ended at an erased byte.
theorem Tidy.tombstone (hv : cfg.Valid) (h : Tidy cfg bid L f) (hl : BucketLog cfg f es fin)
    (hend : f fin = 0xff) {flags : UInt8} {id : Nat} (hid : id < 2 ^ 64) (hflags : FlagsOk cfg flags)
    (htomb : flags &&& slotTombstone ≠ 0) (hroom : fin + cfg.slotSizeFor 0 ≤ cfg.pebSize) :
    Tidy cfg bid L (program f fin (slotImage cfg flags id [])) := by
  intro hhdr
  have hfin := hl.path.le
  have hold : bucketHdrValid f bid = true := by
    rw [← hhdr]
    apply bucketHdrValid_congr
    intro j hj
    rw [program_of_lt (by omega)]
  obtain ⟨hhide, hL⟩ := h hold
  have hclean : Clean cfg f fin := by
    unfold Unhidden at hhide
    rw [hl.logEnd hv] at hhide
    exact hhide hend
  have happ : Appendable cfg f fin flags id [] := ⟨hclean, hroom, hflags, hid, Nat.zero_le _⟩
  obtain ⟨hlog, hclean'⟩ := BucketLog.append happ hv hl.path
  rw [hl.liveSize hv] at hL
  have hless : ((survivors (es ++ [appended fin flags id []])).map (Entry.size cfg)).sum ≤
      ((survivors es).map (Entry.size cfg)).sum := survivors_tombstone (by simpa [Entry.tombstone, appended] using htomb)
  exact tidy_clean hv hlog hclean' (hless.trans hL) hhdr

theorem cursorPastTornTail_full {J : World → Prop} (SJ : Stable J) (b : Nat) (sc : BucketScan) :
    Spec (History AnyEvent) J (cursorPastTornTail cfg b sc)
      ⟨fun sc w => sc.writeCursor = cfg.pebSize ∧ J w, fun _ _ => False, fun _ => False⟩ := by
  unfold cursorPastTornTail
  have hforget : Spec (History AnyEvent) J (sidxForget cfg b)
      (.exits J (fun _ => False) fun _ => False) := sidx_reads SJ _
  apply hforget.bind
  . exact fun _ => Spec.ret fun w h => ⟨rfl, h⟩
  . exact fun _ _ h => h.elim
  . exact fun _ h => h

-- A walk for the cursor answers where the log ends at an erased byte, or that the bucket is full.
theorem walkCursor_calm (hv : cfg.Valid) {b : Nat} {fl : Flash}
    (hl : BucketLog cfg (fl (bucketSector b)) es fin) {I : World → Prop} (S : Stable I) (id : Nat) :
    Spec (History AnyEvent) (fun w => (Calmly True w ∧ I w) ∧ w.flash = fl) (walkCursor cfg b id)
      ⟨fun c w => ((c = fin ∧ (fin + slotOverhead ≤ cfg.pebSize → fl (bucketSector b) fin = 0xff)) ∨
          c = cfg.pebSize) ∧ (Calmly True w ∧ I w) ∧ w.flash = fl,
        fun e w => e ≠ .ENOSPC ∧ (Calmly True w ∧ I w) ∧ w.flash = fl, fun _ => False⟩ := by
  have hS : Stable fun w => Calmly True w ∧ I w := calmly_stable I S
  have hfails : FailsTo (fun w => Calmly True w ∧ I w) fun _ => False := by
    rintro w ⟨hcalm, -⟩ hfault
    rw [(hcalm trivial).2] at hfault
    cases hfault
  unfold walkCursor
  apply Spec.bind (scanBucketFor_tells (E := fun _ => False) hS.readClosed hfails hv id hl)
  . intro sc
    apply Spec.assuming
    . exact fun _ h => h.1
    rintro rfl
    refine Spec.pre (P := fun w => (Calmly True w ∧ I w) ∧ w.flash = fl) ?_ fun w h => h.2
    unfold confirmCursor
    simp only [Bool.not_false, if_true]
    split
    . exact fun w h _ => ⟨by decide, h⟩
    . next hnative =>
      split
      . apply Spec.bind (cursorPastTornTail_full (reading_stable hS) b _)
        . intro sc
          apply Spec.ret
          exact fun w h => ⟨.inr h.1, h.2⟩
        . exact fun _ _ h => h.elim
        . exact fun _ h => h
      . next hwhole =>
        apply Spec.ret_bind
        apply Spec.ret
        intro w h
        refine ⟨.inl ⟨rfl, ?_⟩, h⟩
        intro hroom
        simpa [tornTail, hroom, hnative] using hwhole
  . exact fun e w h => (h.1.elim (fun h => h) fun h => h.1).elim
  . exact fun _ h => h

theorem idToBucket_lt16 (hv : cfg.Valid) (id : Nat) : cfg.idToBucket id < 2 ^ 16 := by
  have h1 := idToBucket_lt hv id
  have h2 := cfg.pebs_range
  unfold Cfg.nBuckets at h1
  omega

-- What a compaction of any bucket leaves of bucket `bid`.
theorem Compacted.settling (hv : cfg.Valid) {b : Nat} {fl : Flash} {w : World}
    (h : Compacted cfg fl b es w) (hl : BucketLog cfg (fl (bucketSector b)) es fin)
    (htidy : Tidy cfg bid L (fl (bucketSector bid))) :
    Tidy cfg bid L (w.flash (bucketSector bid)) := by
  by_cases hb : b = bid
  . subst hb
    have hL := (htidy h.was).2
    rw [hl.liveSize hv] at hL
    exact h.tidy hv hL
  . rw [h.other]
    . exact htidy
    . unfold bucketSector
      omega
    . unfold bucketSector firstBucket scratchSector
      omega

-- The tombstone of a release where the log ends at an erased byte.
theorem appendTombstone_settling (hv : cfg.Valid) (hlarge : cfg.large = true) {b sid : Nat}
    (hsid : sid < 2 ^ 64) {fl : Flash} (hl : BucketLog cfg (fl (bucketSector b)) es fin)
    (hend : fl (bucketSector b) fin = 0xff) (hroom : fin + cfg.slotSizeFor 0 ≤ cfg.pebSize) :
    Advances True (fun w => Settling cfg bid L r w ∧ w.flash = fl)
      (appendSlot2 cfg b fin sid (slotTombstone ||| slotSegment) [] [])
      fun _ => Settling cfg bid L r := by
  have hS : Stable fun w => Calmly True w ∧ Settling cfg bid L r w ∧ w.flash = fl :=
    calmly_stable _ fun w w' q h => ⟨settling_stable w w' q h.1, q.flash.trans h.2⟩
  have hflags : FlagsOk cfg (slotSealed ||| (slotTombstone ||| slotSegment)) := by
    unfold FlagsOk Cfg.slotKnown
    rw [if_pos hlarge]
    decide
  have hwrite : Advances True (fun w => Settling cfg bid L r w ∧ w.flash = fl)
      (storeWrite (bucketSector b) fin
        (slotImage cfg (slotSealed ||| (slotTombstone ||| slotSegment)) sid ([] ++ [])))
      fun _ => Settling cfg bid L r := by
    apply storeMutate_advances
    rintro w ⟨h, rfl⟩ hf
    refine ⟨h.active, h.room, ?_⟩
    by_cases hb : b = bid
    . subst hb
      rw [mutate_whole hf]
      exact h.tidy.tombstone hv hl hend hsid hflags (by decide) hroom
    . rw [mutate_other (by unfold bucketSector; omega)]
      exact h.tidy
  have hcache : ∀ {x : M Unit}, (∀ {J : World → Prop}, Stable J →
      Spec (History AnyEvent) J x (.exits J (fun _ => False) fun _ => False)) →
      ∀ {P : World → Prop}, Stable P → Advances True P x fun _ => P := by
    intro x hx P hP
    apply (hx (calmly_stable P hP)).conseq
    . exact fun _ h => h
    . exact fun _ _ h => h
    . exact fun _ _ h => h.elim
    . exact fun _ h => h.elim
  unfold appendSlot2
  simp only
  rw [if_neg (by simp), if_neg (by have := hv.align; omega)]
  apply (hcache idxInvalidate_reads fun w w' q h =>
    ⟨settling_stable w w' q h.1, q.flash.trans h.2⟩).bind
  intro _
  apply hwrite.caught
  . intro _
    exact hcache (fun SJ => sidx_reads SJ _) settling_stable
  . exact fun e _ hk => absurd trivial hk

theorem segReleaseOne_settling (hv : cfg.Valid) (hlarge : cfg.large = true) {sid : Nat}
    (hsid : sid < 2 ^ 64) :
    Keeps AnyEvent (fun w => Calmly True w ∧ Settling cfg bid L r w)
      (fun w => Calmly True w ∧ Settling cfg bid L r w) (fun _ => True) (segReleaseOne cfg sid) := by
  have hS : Stable fun w => Calmly True w ∧ Settling cfg bid L r w := calmly_stable _ settling_stable
  have hgiven : ∀ w, Calmly True w ∧ Settling cfg bid L r w → ∃ fl : Flash,
      (Calmly True w ∧ Settling cfg bid L r w) ∧ w.flash = fl := fun w h => ⟨w.flash, h, rfl⟩
  have hram : Stable fun w => w.st.activeMaster ≤ 1 ∧ w.st.rotGen + r < 2 ^ 32 := by
    intro w w' q h
    rw [q.activeMaster, q.rotGen]
    exact h
  have hmut : ∀ (w : World) sector q, w.st.activeMaster ≤ 1 ∧ w.st.rotGen + r < 2 ^ 32 →
      (w.mutate sector q).st.activeMaster ≤ 1 ∧ (w.mutate sector q).st.rotGen + r < 2 ^ 32 :=
    fun _ _ _ h => h
  unfold segReleaseOne
  extract_lets b ssz
  have hssz : slotOverhead ≤ ssz := slotSizeFor_ge cfg 0
  -- the release proper, at a cursor that has room
  have happend : ∀ {fl : Flash} {es : List Entry} {fin c : Nat} (moved : Bool),
      BucketLog cfg (fl (bucketSector b)) es fin →
      ((c = fin ∧ (fin + slotOverhead ≤ cfg.pebSize → fl (bucketSector b) fin = 0xff)) ∨
        c = cfg.pebSize) → c + ssz ≤ cfg.pebSize →
      Spec (History AnyEvent) (fun w => (Calmly True w ∧ Settling cfg bid L r w) ∧ w.flash = fl)
        (do
          appendSlot2 cfg b c sid (slotTombstone ||| slotSegment) [] []
          pure moved)
        (.exits (fun w => Calmly True w ∧ Settling cfg bid L r w)
          (fun w => Calmly True w ∧ Settling cfg bid L r w) fun _ => True) := by
    intro fl es fin c moved hl hc hroom
    unfold slotOverhead at hssz hc
    rcases hc with ⟨rfl, hend⟩ | rfl
    . have happ := (@appendTombstone_settling _ _ _ bid L r) hv hlarge hsid hl
        (hend (by omega)) hroom
      have happ' : Spec (History AnyEvent)
          (fun w => (Calmly True w ∧ Settling cfg bid L r w) ∧ w.flash = fl) _ _ :=
        happ.pre fun w h => ⟨h.1.1, h.1.2, h.2⟩
      apply happ'.bind
      . exact fun _ => Spec.ret fun _ h => h
      . exact fun e w h => absurd trivial h.2
      . exact fun w h => trivial
    . omega
  -- where a compaction ends, in terms of the flash it leaves
  have hcompacted : ∀ {fl : Flash} {es : List Entry} {fin : Nat},
      BucketLog cfg (fl (bucketSector b)) es fin → Tidy cfg bid L (fl (bucketSector bid)) → ∀ w,
      Calmly True w ∧ Compacted cfg fl b es w ∧
        Knows cfg b (bucketDataOff + ((survivors es).map (Entry.size cfg)).sum) w ∧
        w.st.activeMaster ≤ 1 ∧ w.st.rotGen + r < 2 ^ 32 →
      ∃ fl' : Flash, (BucketLog cfg (fl' (bucketSector b)) (repack cfg bucketDataOff (survivors es))
          (bucketDataOff + ((survivors es).map (Entry.size cfg)).sum) ∧ True) ∧
        (Calmly True w ∧ Settling cfg bid L r w) ∧ w.flash = fl' := by
    rintro fl es fin hl htidy w ⟨hcalm, hc, -, h⟩
    exact ⟨w.flash, ⟨hc.log, trivial⟩, ⟨hcalm, h.1, h.2, hc.settling hv hl htidy⟩, rfl⟩
  apply (readBucketHdr_reads hS b).seq
  intro formatted
  split
  . exact fail_reads _
  . refine Spec.pre (Spec.given fun fl => ?_) hgiven
    obtain ⟨es, fin, hl⟩ := exists_bucketLog cfg (fl (bucketSector b))
    apply Spec.bind (walkCursor_calm hv hl settling_stable sid)
    . intro c
      apply Spec.assuming
      . exact fun _ h => h.1
      intro hc
      refine Spec.pre (P := fun w => (Calmly True w ∧ Settling cfg bid L r w) ∧ w.flash = fl) ?_
        fun w h => h.2
      split
      . apply Spec.assuming (φ := Tidy cfg bid L (fl (bucketSector bid)))
        . exact fun w h => h.2 ▸ h.1.2.tidy
        intro htidy
        apply Spec.bind ((compactBucket_calm hv (idToBucket_lt16 hv sid) hl hram hmut).pre ?_)
        . intro _
          refine Spec.pre (Spec.given fun fl' => Spec.fact fun ⟨hl', _⟩ => ?_) (hcompacted hl htidy)
          apply Spec.bind (walkCursor_calm hv hl' settling_stable sid)
          . intro c'
            apply Spec.assuming
            . exact fun _ h => h.1
            intro hc'
            refine Spec.pre (P := fun w => (Calmly True w ∧ Settling cfg bid L r w) ∧ w.flash = fl')
              ?_ fun w h => h.2
            split
            . exact Spec.fail fun _ h => h.1
            . exact happend true hl' hc' (by omega)
          . exact fun e w h => h.2.1
          . exact fun _ h => h.elim
        . rintro e w ⟨-, hcalm, rfl, h⟩
          exact ⟨hcalm, h.1, h.2, htidy⟩
        . exact fun _ h => h.elim
        . exact fun w h => ⟨h.1.1, h.2, h.1.2.active, h.1.2.room⟩
      . exact happend false hl hc (by omega)
    . exact fun e w h => h.2.1
    . exact fun _ h => h.elim

/-! Steps that never are short of space -/

def Modest {α : Type} (x : M α) : Prop := ∀ w, (x w).1 ≠ .err .ENOSPC

namespace Modest

variable {α β : Type}

theorem ret (a : α) : Modest (pure a : M α) := fun _ => nofun

theorem fail {e : Errno} (h : e ≠ .ENOSPC) : Modest (Proc.fail e : M α) := by
  intro w he
  injection he with he
  exact h he

theorem bind {x : M α} {f : α → M β} (hx : Modest x) (hf : ∀ a, Modest (f a)) :
    Modest (x >>= f) := by
  intro w
  have h := hx w
  rw [Proc.bind_run]
  generalize x w = r at h
  obtain ⟨o, w'⟩ := r
  cases o with
  | ok a => exact hf a w'
  | err e =>
    rintro ⟨⟩
    exact h rfl
  | cut => exact nofun

-- What is caught is no error any more.
theorem attempt (x : M α) : Modest (Proc.attempt x) := by
  intro w
  rw [Proc.attempt_run]
  generalize x w = r
  obtain ⟨o, w'⟩ := r
  cases o <;> exact nofun

theorem caught {x : M α} {f : Except Errno α → M β} (hx : Modest x)
    (hok : ∀ a, Modest (f (.ok a))) (herr : ∀ e, e ≠ .ENOSPC → Modest (f (.error e))) :
    Modest (Proc.attempt x >>= f) := by
  intro w
  have h := hx w
  rw [Proc.bind_run, Proc.attempt_run]
  generalize x w = r at h
  obtain ⟨o, w'⟩ := r
  cases o with
  | ok a => exact hok a w'
  | err e => exact herr e (fun he => h (by rw [he])) w'
  | cut => exact nofun

theorem ite {c : Prop} [Decidable c] {x y : M α} (hx : Modest x) (hy : Modest y) :
    Modest (if c then x else y) := by
  split
  . exact hx
  . exact hy

theorem when {c : Bool} {x : M Unit} (hx : Modest x) : Modest (Proc.when c x) := ite hx (ret ())

theorem readFlash (f : Flash → α) : Modest (BlobDb.readFlash f) := by
  intro w
  show (if w.readFaults.headD false then Out.err Errno.EIO else _) ≠ _
  split <;> exact nofun

theorem storeMutate (sector : Nat) (q : Request) : Modest (BlobDb.storeMutate sector q) := by
  intro w
  show w.nextFault.outcome ≠ _
  cases w.nextFault <;> exact nofun

theorem read (f : World → α) : Modest (Proc.read f : M α) := fun _ => nofun

theorem modifySt (f : St → St) : Modest (BlobDb.modifySt f) := fun _ => nofun

theorem modifySidx (f : SlotIndex → SlotIndex) : Modest (BlobDb.modifySidx cfg f) :=
  ite (modifySt _) (ret ())

end Modest

theorem readBucketHdr_modest (bid : Nat) : Modest (readBucketHdr cfg bid) := by
  unfold readBucketHdr
  apply Modest.bind (Modest.ite (.read _) (.ret none))
  intro known
  split
  . exact .ret _
  . exact Modest.bind (.readFlash _) fun _ => .ret _

theorem crcOnFlash_modest (bid n at_ left c : Nat) : Modest (crcOnFlash bid n at_ left c) := by
  induction n generalizing at_ left c with
  | zero => exact .ret _
  | succ n ih =>
    unfold crcOnFlash
    split
    . exact .ret _
    . exact Modest.bind (.readFlash _) fun _ => ih _ _ _

theorem scanBucketFrom_modest (bid targetId limit n cursor : Nat) (target : Option Target) :
    Modest (scanBucketFrom cfg bid targetId limit n cursor target) := by
  induction n generalizing cursor target with
  | zero => exact .ret _
  | succ n ih =>
    unfold scanBucketFrom
    apply Modest.ite (.ret _)
    apply Modest.bind (.readFlash _)
    intro raw
    simp only
    apply Modest.ite
    . apply Modest.ite
      . unfold slotCrcOkOnFlash
        refine Modest.bind (Modest.bind (crcOnFlash_modest _ _ _ _ _) fun _ => ?_) fun _ => .ret _
        exact Modest.bind (.readFlash _) fun _ => .ret _
      . exact .ret _
    . exact Modest.ite (.ret _) (ih _ _)

theorem slotVerify_modest (bid : Nat) (t : Target) : Modest (slotVerify bid t) := by
  unfold slotVerify slotPayload
  apply Modest.bind (Modest.ite (.readFlash _) (.ret _))
  intro payload
  apply Modest.bind (.readFlash _)
  intro stored
  exact Modest.ite (.ret _) (.ret _)

theorem walkLiveSlotBelow_modest (bid id : Nat) (learn : Bool) (n limit : Nat) :
    Modest (walkLiveSlotBelow cfg bid id learn n limit) := by
  induction n generalizing limit with
  | zero => exact .fail (by decide)
  | succ n ih =>
    unfold walkLiveSlotBelow scanBucketFor
    apply Modest.bind (scanBucketFrom_modest _ _ _ _ _ _)
    intro sc
    apply Modest.ite (.fail (by decide))
    split
    . exact Modest.bind (.when (.modifySidx _)) fun _ => .ret _
    . apply Modest.bind (slotVerify_modest _ _)
      intro verified
      split
      . exact ih _
      . apply Modest.ite (.ret _)
        exact Modest.bind (.when (.modifySidx _)) fun _ => .ret _

theorem findLiveSlot_modest (bid id : Nat) : Modest (findLiveSlot cfg bid id) := by
  have hindexed : Modest (findIndexedSlot cfg bid id) := by
    unfold findIndexedSlot
    apply Modest.bind (Modest.ite (.read _) (.ret none))
    intro hit
    split
    . exact .ret _
    . apply Modest.ite
      . exact Modest.bind (.modifySidx _) fun _ => .ret _
      . apply Modest.bind (.readFlash _)
        intro raw
        simp only
        apply Modest.ite
        . exact Modest.bind (.modifySidx _) fun _ => .ret _
        . apply Modest.bind (slotVerify_modest _ _)
          intro verified
          split
          . exact .ret _
          . exact Modest.ite (.ret _) (.ret _)
  unfold findLiveSlot
  apply hindexed.bind
  intro indexed
  split
  . exact .ret _
  . exact walkLiveSlotBelow_modest _ _ _ _ _

theorem confirmCursor_modest (bid id : Nat) (sc : BucketScan) :
    Modest (confirmCursor cfg bid id sc) := by
  have htorn : ∀ sc, Modest (cursorPastTornTail cfg bid sc) :=
    fun sc => Modest.bind (.modifySidx _) fun _ => .ret _
  unfold confirmCursor
  apply Modest.ite
  . exact Modest.ite (.fail (by decide)) (Modest.ite (htorn _) (.ret _))
  . simp only
    apply Modest.ite (.ret _)
    apply Modest.bind (.readFlash _)
    intro head
    apply Modest.ite (.ret _)
    apply Modest.bind (.modifySidx _)
    intro _
    apply Modest.bind (scanBucketFrom_modest _ _ _ _ _ _)
    intro walk
    apply Modest.ite (.fail (by decide))
    exact Modest.ite (htorn _) (.ret _)

theorem bucketCursor_modest (bid id : Nat) : Modest (bucketCursor cfg bid id) := by
  unfold bucketCursor
  apply Modest.bind (Modest.ite (.read _) (.ret none))
  intro known
  split
  . exact .ret _
  . apply Modest.bind (scanBucketFrom_modest _ _ _ _ _ _)
    intro sc
    exact Modest.bind (.when (.modifySidx _)) fun _ => .ret _

theorem storeReplace_modest (sector : Nat) (data : List UInt8) :
    Modest (storeReplace cfg sector data) := by
  unfold storeReplace
  apply Modest.ite (.storeMutate _ _)
  exact Modest.bind (.storeMutate _ _) fun _ => .storeMutate _ _

theorem formatBucket_modest (bid : Nat) : Modest (formatBucket cfg bid) := by
  unfold formatBucket
  apply Modest.caught (storeReplace_modest _ _)
  . exact fun _ => .modifySidx _
  . exact fun e he => Modest.bind (.modifySidx _) fun _ => .fail he

theorem updateCursor_modest (bid id : Nat) : Modest (updateCursor cfg bid id) := by
  unfold updateCursor
  apply Modest.ite
  . apply Modest.bind (findLiveSlot_modest _ _)
    intro found
    apply Modest.ite (.fail (by decide))
    apply Modest.bind (confirmCursor_modest _ _ _)
    intro sc
    apply Modest.ite _ (.ret _)
    apply Modest.bind (.attempt _)
    intro loaded
    split <;> exact .ret _
  . apply Modest.bind (bucketCursor_modest _ _)
    intro sc
    exact Modest.bind (confirmCursor_modest _ _ _) fun _ => .ret _

theorem appendSlot_modest (bid cursor id : Nat) (payload : List UInt8) :
    Modest (appendSlot cfg bid cursor id 0 payload) := by
  unfold appendSlot appendSlot2
  simp only
  apply Modest.ite (.fail (by decide))
  apply Modest.ite (.fail (by decide))
  have hdrop : Modest (idxInvalidate cfg) := Modest.ite (.modifySt _) (.ret ())
  apply hdrop.bind
  intro _
  apply Modest.caught (.storeMutate _ _)
  . exact fun _ => .modifySidx _
  . exact fun e he => Modest.bind (.modifySidx _) fun _ => .fail he

theorem segRelease_modest (ids : List Nat) : Modest (segRelease cfg ids) := by
  induction ids with
  | nil => exact .ret _
  | cons sid rest ih => exact Modest.bind (.attempt _) fun _ => ih

/-! The room an update finds -/

theorem confirmedCursor_calm (hv : cfg.Valid) {fl : Flash} {cur : Nat}
    (hl : BucketLog cfg (fl (bucketSector bid)) es cur) (hc : Clean cfg (fl (bucketSector bid)) cur)
    {I : World → Prop} (S : Stable I) (id : Nat) :
    Spec (History AnyEvent)
      (fun w => Knows cfg bid cur w ∧ (Calmly True w ∧ I w) ∧ w.flash = fl)
      (do
        let sc ← bucketCursor cfg bid id
        confirmCursor cfg bid id sc)
      ⟨fun sc w => sc.writeCursor = cur ∧ Calmly True w ∧ I w, fun _ _ => False, fun _ => False⟩ := by
  have hS : Stable fun w => Calmly True w ∧ I w := calmly_stable I S
  have hfails : FailsTo (fun w => Calmly True w ∧ I w) fun _ => False := by
    rintro w ⟨hcalm, -⟩ hfault
    rw [(hcalm trivial).2] at hfault
    cases hfault
  have htorn : tornTail cfg (fl (bucketSector bid)) cur = false := by
    unfold tornTail
    by_cases hroom : cur + slotOverhead ≤ cfg.pebSize
    . have hff := hc cur (Nat.le_refl _) (by unfold slotOverhead at hroom; omega)
      simp [hff]
    . simp [hroom]
  -- the cursor is known, or found by a walk
  have hcursor : Spec (History AnyEvent)
      (fun w => Knows cfg bid cur w ∧ (Calmly True w ∧ I w) ∧ w.flash = fl) (bucketCursor cfg bid id)
      ⟨fun sc w => (sc.writeCursor = cur ∧ sc.tailTorn = false ∧ sc.foreign = false) ∧
          (Calmly True w ∧ I w) ∧ w.flash = fl, fun _ _ => False, fun _ => False⟩ := by
    have hknown : Spec (History AnyEvent)
        (fun w => Knows cfg bid cur w ∧ (Calmly True w ∧ I w) ∧ w.flash = fl)
        (sidxCursor cfg bid)
        ⟨fun known w => (∀ c, known = some c → c = cur) ∧ (Calmly True w ∧ I w) ∧ w.flash = fl,
          fun _ _ => False, fun _ => False⟩ := by
      unfold sidxCursor
      split
      . next hs => exact Spec.read fun w h => ⟨h.1 hs, h.2⟩
      . exact Spec.ret fun w h => ⟨nofun, h.2⟩
    unfold bucketCursor
    apply hknown.bind
    . intro known
      apply Spec.assuming
      . exact fun _ h => h.1
      intro hcur
      refine Spec.pre (P := fun w => (Calmly True w ∧ I w) ∧ w.flash = fl) ?_ fun w h => h.2
      split
      . next c => exact Spec.ret fun w h => ⟨⟨hcur c rfl, rfl, rfl⟩, h⟩
      . apply Spec.bind
          (scanBucketFor_tells (C := fun _ => False) (E := fun _ => False) hS.readClosed hfails hv id hl)
        . intro sc
          apply Spec.assuming
          . exact fun _ h => h.1
          rintro rfl
          refine Spec.pre (P := fun w => (Calmly True w ∧ I w) ∧ w.flash = fl) ?_ fun w h => h.2
          have hlearn : Spec (History AnyEvent) (fun w => (Calmly True w ∧ I w) ∧ w.flash = fl)
              (Proc.when (!slotForeignAt cfg (fl (bucketSector bid)) cur)
                (sidxLearn cfg bid id none cur))
              (.exits (fun w => (Calmly True w ∧ I w) ∧ w.flash = fl) (fun _ => False)
                fun _ => False) :=
            Spec.when (fun _ h => h) fun _ => sidx_reads (reading_stable hS) _
          apply hlearn.bind
          . exact fun _ => Spec.ret fun w h => ⟨⟨rfl, htorn, hc.not_foreign⟩, h⟩
          . exact fun _ _ h => h.elim
          . exact fun _ h => h
        . exact fun e w h => (h.1.elim (fun h => h) fun h => h.1).elim
        . exact fun _ h => h
    . exact fun _ _ h => h.elim
    . exact fun _ h => h
  apply hcursor.bind
  . intro sc
    apply Spec.assuming
    . exact fun _ h => h.1
    rintro ⟨hcur, htail, hforeign⟩
    refine Spec.pre (P := fun w => (Calmly True w ∧ I w) ∧ w.flash = fl) ?_ fun w h => h.2
    unfold confirmCursor
    split
    . rw [hforeign, htail]
      exact Spec.ret fun w h => ⟨hcur, h.1⟩
    . simp only
      split
      . exact Spec.ret fun w h => ⟨hcur, h.1⟩
      . next hroom =>
        apply Spec.bind
          (storeRead_tells (C := fun _ => False) (E := fun _ => False) hS.readClosed hfails _ _ _)
        . intro head
          apply Spec.assuming
          . exact fun _ h => h.1
          rintro rfl
          have herased : (bytesAt (fl (bucketSector bid)) sc.writeCursor slotHeadLen).all (· == 0xff) =
              true := by
            apply allErased_iff.mpr
            intro j hj hlt
            exact hc j (by omega) (by omega)
          rw [if_pos herased]
          exact Spec.ret fun w h => ⟨hcur, h.2.1⟩
        . exact fun e w h => (h.1.elim (fun h => h) fun h => h.1).elim
        . exact fun _ h => h
  . exact fun _ _ h => h.elim
  . exact fun _ h => h

-- The live slots of the bucket and `ssz` more bytes fit behind its header.
structure HasRoom (cfg : Cfg) (fl : Flash) (bid ssz : Nat) : Prop where
  slot : bucketDataOff + ssz ≤ cfg.pebSize
  slots : bucketHdrValid (fl (bucketSector bid)) bid = true →
    bucketDataOff + liveSize cfg (fl (bucketSector bid)) + ssz ≤ cfg.pebSize
  image : bucketHdrValid (fl (bucketSector bid)) bid = true →
    bucketDataOff + liveSize cfg (fl (bucketSector bid)) ≤ cfg.scratchSealOff

theorem updateRoom_calm (hv : cfg.Valid) (hbid : bid < 2 ^ 16) {fl : Flash} {ssz : Nat}
    (hroom : HasRoom cfg fl bid ssz) {I : World → Prop} (S : Stable I)
    (hI : ∀ w sector q, I w → I (w.mutate sector q)) (id cursor : Nat) :
    Spec (History AnyEvent) (fun w => Calmly True w ∧ w.flash = fl ∧ I w)
      (updateRoom cfg bid id ssz cursor)
      ⟨fun _ w => Calmly True w ∧ I w, fun e _ => e ≠ .ENOSPC, fun _ => True⟩ := by
  obtain ⟨es, fin, hl⟩ := exists_bucketLog cfg (fl (bucketSector bid))
  have hsize := hl.liveSize hv
  unfold updateRoom
  split
  . apply (compactBucket_calm hv hbid hl S hI).bind
    . intro _
      apply Spec.assuming (φ := bucketHdrValid (fl (bucketSector bid)) bid = true)
      . exact fun w h => h.2.1.was
      intro hwas
      have hfit := hroom.slots hwas
      rw [hsize] at hfit
      generalize hcur : bucketDataOff + ((survivors es).map (Entry.size cfg)).sum = cur at hfit
      have hgiven : ∀ w, Calmly True w ∧ Compacted cfg fl bid es w ∧ Knows cfg bid cur w ∧ I w →
          ∃ fl' : Flash, (BucketLog cfg (fl' (bucketSector bid))
              (repack cfg bucketDataOff (survivors es)) cur ∧
              Clean cfg (fl' (bucketSector bid)) cur) ∧
            Knows cfg bid cur w ∧ (Calmly True w ∧ I w) ∧ w.flash = fl' := by
        rintro w ⟨hcalm, hc, hknows, h⟩
        rw [← hcur]
        exact ⟨w.flash, ⟨hc.log, hc.clean⟩, hcur ▸ hknows, ⟨hcalm, h⟩, rfl⟩
      refine Spec.pre (Spec.given fun fl' => Spec.fact fun ⟨hlog, hclean⟩ => ?_) hgiven
      have hconfirmed := confirmedCursor_calm hv hlog hclean S id
      have hend : Spec (History AnyEvent)
          (fun w => Knows cfg bid cur w ∧ (Calmly True w ∧ I w) ∧ w.flash = fl')
          ((do
            let sc ← bucketCursor cfg bid id
            confirmCursor cfg bid id sc) >>= fun sc =>
            if cfg.pebSize < sc.writeCursor + ssz then Proc.fail .ENOSPC else pure sc.writeCursor)
          ⟨fun _ w => Calmly True w ∧ I w, fun e _ => e ≠ .ENOSPC, fun _ => True⟩ := by
        apply hconfirmed.bind
        . intro sc
          apply Spec.assuming
          . exact fun _ h => h.1
          intro hsc
          rw [if_neg (by omega)]
          exact Spec.ret fun w h => h.2
        . exact fun _ _ h => h.elim
        . exact fun _ _ => trivial
      rw [Proc.bind_assoc] at hend
      exact hend
    . rintro e w ⟨hfull, -⟩ he
      obtain ⟨hwas, hlt⟩ := hfull he
      have := hroom.image hwas
      omega
    . exact fun _ _ => trivial
  . exact Spec.ret fun w h => ⟨h.1, h.2.2⟩

/-! The update -/

-- How a large build enters a mutation: the pending sweep leaves no more of the bucket live.
theorem segFinishPending_calm (hv : cfg.Valid) (hlarge : cfg.large = true) {bid L r : Nat} :
    Spec (History AnyEvent)
      (fun w => Calmly True w ∧ w.st.activeMaster ≤ 1 ∧ w.st.rotGen + (r + 1) < 2 ^ 32 ∧
        (bucketHdrValid (w.flash (bucketSector bid)) bid = true →
          liveSize cfg (w.flash (bucketSector bid)) ≤ L) ∧
        (w.st.segOwner ≠ 0 → Unhidden cfg (w.flash (bucketSector bid))))
      (segFinishPending cfg)
      ⟨fun _ w => Calmly True w ∧ w.st.activeMaster ≤ 1 ∧ w.st.rotGen + r < 2 ^ 32 ∧
          (bucketHdrValid (w.flash (bucketSector bid)) bid = true →
            liveSize cfg (w.flash (bucketSector bid)) ≤ L),
        fun e _ => e ≠ .ENOSPC, fun _ => True⟩ := by
  unfold segFinishPending
  apply getSt_bind
  intro st
  split
  . exact Spec.ret fun w h => ⟨h.2.1, h.2.2.1, by have := h.2.2.2.1; omega, h.2.2.2.2.1⟩
  . next hpending =>
    have hS : Stable fun w => Calmly True w ∧ Settling cfg bid L (r + 1) w :=
      calmly_stable _ settling_stable
    refine Spec.pre (segSweep_rule hS (fun sid hsid => segReleaseOne_settling hv hlarge hsid) ?_
      (fun _ => trivial) st.segOwner) ?_
    . rintro w ⟨hcalm, h⟩ hh
      have hstart : Committed True w.flash (fun _ => True) 0 (r + 1) w :=
        ⟨fun _ _ => rfl, trivial, Nat.zero_le _, h.active, fun _ => h.room⟩
      have hend := (@persistSegOwner_committed cfg) 0 w ⟨hcalm, hstart⟩ hh
      generalize persistSegOwner cfg 0 w = res at hend
      obtain ⟨o, w'⟩ := res
      cases o with
      | ok a =>
        obtain ⟨hcalm', hc⟩ := hend
        refine ⟨hcalm', hc.active, hc.room trivial, ?_⟩
        rw [hc.buckets _ (bucketSector_ge bid)]
        exact fun hhdr => (h.tidy hhdr).2
      | err e => exact absurd trivial hend.2
      | cut => trivial
    . rintro w ⟨rfl, hcalm, hactive, hroom, hlive, hhidden⟩
      exact ⟨hcalm, hactive, hroom, fun hhdr => ⟨hhidden hpending, hlive hhdr⟩⟩

-- Nothing fails, and a build that commits owners has `r` rotations of the master log left.
structure Spare (cfg : Cfg) (r : Nat) (w : World) : Prop where
  active : w.st.activeMaster ≤ 1
  room : cfg.large = true → w.st.rotGen + r < 2 ^ 32

theorem spare_stable (r : Nat) : Stable (Spare cfg r) := by
  intro w w' q h
  refine ⟨?_, ?_⟩
  . rw [q.activeMaster]
    exact h.active
  . rw [q.rotGen]
    exact h.room

theorem spare_data (r : Nat) :
    DataFrame AnyEvent (fun w => Calmly True w ∧ Spare cfg r w) fun _ => True where
  lost _ _ := trivial
  stable := calmly_stable _ (spare_stable r)
  data sector q _ := by
    have hstep : Advances True (Spare cfg r) (storeMutate sector q) fun _ => Spare cfg r :=
      storeMutate_advances fun w h _ => ⟨h.active, h.room⟩
    apply Spec.conseq hstep
    . exact fun _ h => h
    . exact fun _ _ h => h
    . exact fun e w h => absurd trivial h.2
    . exact fun _ _ => trivial
  wedge _ h := ⟨h.1, h.2.active, h.2.room⟩

theorem Modest.spec {α : Type} {x : M α} (hx : Modest x) {P : World → Prop}
    {Q : Post World Errno α} (h : Spec (History AnyEvent) P x Q) :
    Spec (History AnyEvent) P x ⟨Q.ok, fun e w => e ≠ .ENOSPC ∧ Q.err e w, Q.cut⟩ := by
  intro w hp hh
  have hq := h w hp hh
  have he := hx w
  generalize x w = r at hq he
  obtain ⟨o, w'⟩ := r
  cases o with
  | ok a => exact hq
  | err e => exact ⟨fun h => he (by rw [h]), hq⟩
  | cut => exact hq

-- An owner is committed while there are rotations left.
theorem persistSegOwner_spare (hlarge : cfg.large = true) (owner r : Nat) :
    Advances True (Spare cfg (r + 1)) (persistSegOwner cfg owner) fun _ => Spare cfg r := by
  rintro w ⟨hcalm, h⟩ hh
  have hstart : Committed True w.flash (fun _ => True) 0 (r + 1) w :=
    ⟨fun _ _ => rfl, trivial, Nat.zero_le _, h.active, fun _ => h.room hlarge⟩
  exact (persistSegOwner_committed owner).conseq (fun _ h => h)
    (fun _ w hc => ⟨hc.active, fun _ => hc.room trivial⟩) w ⟨hcalm, hstart⟩ hh

theorem updateInline_calm {P : World → Prop} {bid id cursor : Nat} {payload : List UInt8}
    {oldIds : List Nat} (hold : oldIds.isEmpty = false → cfg.large = true)
    (hroom : Spec (History AnyEvent) P (updateRoom cfg bid id (cfg.slotSizeFor payload.length) cursor)
      ⟨fun _ w => Calmly True w ∧ Spare cfg 2 w, fun e _ => e ≠ .ENOSPC, fun _ => True⟩) :
    Spec (History AnyEvent) P (updateInline cfg bid id payload cursor oldIds)
      ⟨fun _ _ => True, fun e _ => e ≠ .ENOSPC, fun _ => True⟩ := by
  have hnever : ∀ {r : Nat} {x : M Unit}, Advances True (Spare cfg (r + 1)) x (fun _ => Spare cfg r) →
      Spec (History AnyEvent) (fun w => Calmly True w ∧ Spare cfg (r + 1) w) x
        ⟨fun _ w => Calmly True w ∧ Spare cfg r w, fun e _ => e ≠ .ENOSPC, fun _ => True⟩ := by
    intro r x hx
    apply Spec.conseq hx
    . exact fun _ h => h
    . exact fun _ _ h => h
    . exact fun e w h => absurd trivial h.2
    . exact fun _ _ => trivial
  have hless : ∀ w, Calmly True w ∧ Spare cfg 2 w → Calmly True w ∧ Spare cfg 1 w :=
    fun w h => ⟨h.1, h.2.active, fun hl => by have := h.2.room hl; omega⟩
  unfold updateInline
  apply hroom.bind
  . intro cursor
    apply Spec.bind (Q := ⟨fun _ w => Calmly True w ∧ Spare cfg 1 w, fun e _ => e ≠ .ENOSPC,
      fun _ => True⟩)
    . unfold Proc.when
      split
      . next h =>
        exact hnever (persistSegOwner_spare (hold (by simpa using h)) id 1)
      . exact Spec.ret hless
    . intro _
      have happend : Keeps AnyEvent (fun w => Calmly True w ∧ Spare cfg 1 w)
          (fun w => Calmly True w ∧ Spare cfg 1 w) (fun _ => True) (appendSlot cfg bid cursor id 0 payload) :=
        appendSlot_keeps (spare_data 1).frame _ _ _ _ _
      apply ((appendSlot_modest bid cursor id payload).spec happend).bind
      . intro _
        unfold Proc.when
        split
        . next h =>
          have hrelease : Keeps AnyEvent (fun w => Calmly True w ∧ Spare cfg 1 w)
              (fun w => Calmly True w ∧ Spare cfg 1 w) (fun _ => True) (segRelease cfg oldIds) :=
            segRelease_keeps (spare_data 1).frame oldIds
          apply ((segRelease_modest oldIds).spec hrelease).bind
          . intro _
            apply (hnever (persistSegOwner_spare (hold (by simpa using h)) 0 0)).conseq
            . exact fun _ h => h
            . exact fun _ _ _ => trivial
            . exact fun _ _ h => h
            . exact fun _ h => h
          . exact fun _ _ h => h.1
          . exact fun _ h => h
        . exact Spec.ret fun _ _ => trivial
      . exact fun _ _ h => h.1
      . exact fun _ h => h
    . exact fun _ _ h => h
    . exact fun _ h => h
  . exact fun _ _ h => h
  . exact fun _ h => h

-- A bucket that is formatted is only read before the room is looked for. One that is not is empty
-- once it is.
theorem updatePlace_calm {bid : Nat} {fl : Flash} (id : Nat) (formatted : Bool) :
    Spec (History AnyEvent) (Reading (fun w => Calmly True w ∧ Spare cfg 2 w) fl)
      (updatePlace cfg formatted bid id)
      ⟨fun place w => ((place.2.isEmpty = false → cfg.large = true) ∧
          (formatted = false → place.1 = bucketDataOff)) ∧ (Calmly True w ∧ Spare cfg 2 w) ∧
          (formatted = true → w.flash = fl),
        fun e _ => e ≠ .ENOSPC, fun _ => True⟩ := by
  have hS : Stable (Reading (fun w => Calmly True w ∧ Spare cfg 2 w) fl) :=
    reading_stable (calmly_stable _ (spare_stable 2))
  cases formatted with
  | false =>
    have hkeeps : Keeps AnyEvent (fun w => Calmly True w ∧ Spare cfg 2 w)
        (fun w => Calmly True w ∧ Spare cfg 2 w) (fun _ => True) (formatBucket cfg bid) :=
      formatBucket_keeps (spare_data 2).frame bid
    apply ((formatBucket_modest bid).spec (hkeeps.pre fun w h => h.1)).bind
    . exact fun _ => Spec.ret fun w h => ⟨⟨nofun, fun _ => rfl⟩, h, nofun⟩
    . exact fun _ _ h => h.1
    . exact fun _ h => h
  | true =>
    have hreads : Reads AnyEvent (Reading (fun w => Calmly True w ∧ Spare cfg 2 w) fl)
        (fun _ => True) (updateCursor cfg bid id) := updateCursor_reads hS bid id
    have hids : Spec (History AnyEvent) (fun _ => True) (updateCursor cfg bid id)
        ⟨fun place _ => place.2.isEmpty = false → cfg.large = true, fun _ _ => True,
          fun _ => True⟩ := by
      have hany : ∀ {α : Type} (x : M α), Spec (History AnyEvent) (fun _ => True) x
          ⟨fun _ _ => True, fun _ _ => True, fun _ => True⟩ :=
        fun x => (Spec.run x).conseq (fun _ h => h) (fun _ _ _ => trivial) (fun _ _ _ => trivial)
          fun _ _ => trivial
      by_cases hlarge : cfg.large = true
      . apply (hany _).conseq
        . exact fun _ h => h
        . exact fun _ _ _ _ => hlarge
        . exact fun _ _ h => h
        . exact fun _ h => h
      . unfold updateCursor
        rw [if_neg hlarge]
        refine (hany _).bind (fun sc => (hany _).bind (fun sc => ?_) ?_ ?_) ?_ ?_
        . exact Spec.ret fun _ _ => nofun
        all_goals exact fun _ => by simp
    have hmodest : Modest (updateCursor cfg bid id) := updateCursor_modest bid id
    apply Spec.conseq (hmodest.spec (hreads.both hids))
    . exact fun w h => ⟨h, trivial⟩
    . exact fun place w h => ⟨⟨h.2, nofun⟩, h.1.1, fun _ => h.1.2⟩
    . exact fun e w h => h.1
    . exact fun _ _ => trivial

-- One slot of any size leaves room for the seal of a compaction.
theorem slot_below_seal (hv : cfg.Valid) {n : Nat} (hn : n ≤ cfg.maxPayloadLen) :
    bucketDataOff + cfg.slotSizeFor n ≤ cfg.scratchSealOff := by
  have h1 : roundUp (slotOverhead + n) cfg.writeAlign ≤ _ := roundUp_lt
  have h2 : roundUp scratchSealSize cfg.writeAlign ≤ _ := roundUp_lt
  have hrec := (@recSize_ge cfg)
  have hpos : 0 < cfg.writeAlign := writeAlign_pos
  have halign := hv.align
  have hlog := hv.log
  have hpay := hv.payload
  unfold Cfg.scratchSealOff Cfg.scratchSealLen Cfg.slotSizeFor
  unfold masterLogOff masterHdrMax masterRecLen maxWriteAlign bucketDataOff slotOverhead
    scratchSealSize at *
  omega

-- The payload of `id` and a new one of `len` bytes have room together: their slots, both rounded up
-- to the write unit, fit behind the header of the bucket. In a build with large payloads the master
-- log can also rotate as often as an update may ask for and, where a sweep is pending, nothing is
-- hidden behind the log of the bucket.
structure Rebinds (cfg : Cfg) (w : World) (id len : Nat) : Prop where
  slots : ∀ s, contentOf cfg w.flash id = some s →
    bucketDataOff + cfg.slotSizeFor s.payload.length + cfg.slotSizeFor len ≤ cfg.pebSize
  rotations : cfg.large = true → w.st.rotGen + 3 < 2 ^ 32
  log : cfg.large = true → w.st.segOwner ≠ 0 →
    Unhidden cfg (w.flash (bucketSector (cfg.idToBucket id)))

theorem payload_le_of_content (hv : cfg.Valid) {fl : Flash} {id : Nat} {s : Stored}
    (h : contentOf cfg fl id = some s) : s.payload.length ≤ cfg.maxPayloadLen := by
  unfold contentOf at h
  simp only at h
  split at h
  . obtain ⟨es, fin, hl⟩ := exists_bucketLog cfg (fl (bucketSector (cfg.idToBucket id)))
    rw [hl.entries hv, liveIn] at h
    obtain ⟨x, hx, hs⟩ := Option.bind_eq_some_iff.mp h
    obtain ⟨hmem, -, -⟩ := newest_some hx
    obtain ⟨-, -, hw, hat⟩ := hl.path.mem hmem
    have hends := (walkable_iff.mp hw).2.1
    unfold Entry.stored at hs
    split at hs
    . cases hs
    . injection hs with hs
      subst hs
      rw [hat]
      show (bytesAt _ _ _).length ≤ _
      rw [bytesAt_length]
      unfold headEndsLog at hends
      simp only [Bool.or_eq_false_iff, decide_eq_false_iff_not] at hends
      omega
  . cases h

theorem updateImpl_calm (hv : cfg.Valid) {id : Nat} {payload : List UInt8}
    (hlen : payload.length ≤ cfg.maxPayloadLen) :
    Spec (History AnyEvent)
      (fun w => Calmly True w ∧ w.st.activeMaster ≤ 1 ∧ OnlyLive cfg w.flash id ∧
        Rebinds cfg w id payload.length)
      (updateImpl cfg id payload) ⟨fun _ _ => True, fun e _ => e ≠ .ENOSPC, fun _ => True⟩ := by
  generalize hbid : cfg.idToBucket id = bid
  generalize hssz : cfg.slotSizeFor payload.length = ssz
  have hslot : bucketDataOff + ssz ≤ cfg.scratchSealOff := hssz ▸ slot_below_seal hv hlen
  have hseal : cfg.scratchSealOff ≤ cfg.pebSize := Nat.sub_le _ _
  have hgiven : ∀ w, Calmly True w ∧ w.st.activeMaster ≤ 1 ∧ OnlyLive cfg w.flash id ∧
      Rebinds cfg w id payload.length → ∃ L : Nat,
      (bucketDataOff + L + ssz ≤ cfg.pebSize ∧ bucketDataOff + L ≤ cfg.scratchSealOff) ∧
        Calmly True w ∧ Spare cfg 3 w ∧
        (bucketHdrValid (w.flash (bucketSector bid)) bid = true →
          liveSize cfg (w.flash (bucketSector bid)) ≤ L) ∧
        (cfg.large = true → w.st.segOwner ≠ 0 → Unhidden cfg (w.flash (bucketSector bid))) := by
    rintro w ⟨hcalm, hactive, honly, h⟩
    subst hbid
    cases hc : contentOf cfg w.flash id with
    | none =>
      refine ⟨0, ⟨by omega, by omega⟩, hcalm, ⟨hactive, h.rotations⟩, ?_, h.log⟩
      exact fun hhdr => honly.liveSize hv hhdr fun s hs => by rw [hc] at hs; cases hs
    | some s =>
      refine ⟨cfg.slotSizeFor s.payload.length, ⟨hssz ▸ h.slots s hc, ?_⟩, hcalm,
        ⟨hactive, h.rotations⟩, ?_, h.log⟩
      . exact slot_below_seal hv (payload_le_of_content hv hc)
      . intro hhdr
        apply honly.liveSize hv hhdr
        intro s' hs'
        rw [hc] at hs'
        injection hs' with hs'
        rw [hs']
  refine Spec.pre (Spec.given fun L => Spec.fact fun hL => ?_) hgiven
  have hfail : ∀ {P : World → Prop} {e : Errno}, e ≠ .ENOSPC → Spec (History AnyEvent) P
      (Proc.fail e : M Unit) ⟨fun _ _ => True, fun e _ => e ≠ .ENOSPC, fun _ => True⟩ :=
    fun he => Spec.fail fun _ _ => he
  unfold updateImpl
  apply getSt_bind
  intro st
  refine Spec.ite (fun _ => hfail (by decide)) fun _ => ?_
  refine Spec.ite (fun _ => hfail (by decide)) fun _ => ?_
  refine Spec.ite (fun _ => hfail (by decide)) fun _ => ?_
  refine Spec.ite (fun _ => hfail (by decide)) fun _ => ?_
  have hpending : Spec (History AnyEvent)
      (fun w => w.st = st ∧ Calmly True w ∧ Spare cfg 3 w ∧
        (bucketHdrValid (w.flash (bucketSector bid)) bid = true →
          liveSize cfg (w.flash (bucketSector bid)) ≤ L) ∧
        (cfg.large = true → w.st.segOwner ≠ 0 → Unhidden cfg (w.flash (bucketSector bid))))
      (Proc.when cfg.large (segFinishPending cfg))
      ⟨fun _ w => Calmly True w ∧ Spare cfg 2 w ∧
          (bucketHdrValid (w.flash (bucketSector bid)) bid = true →
            liveSize cfg (w.flash (bucketSector bid)) ≤ L),
        fun e _ => e ≠ .ENOSPC, fun _ => True⟩ := by
    unfold Proc.when
    split
    . next hlarge =>
      apply (@segFinishPending_calm _ hv hlarge bid L 2).conseq
      . exact fun w h => ⟨h.2.1, h.2.2.1.active, h.2.2.1.room hlarge, h.2.2.2.1, h.2.2.2.2 hlarge⟩
      . exact fun _ w h => ⟨h.1, ⟨h.2.1, fun _ => h.2.2.1⟩, h.2.2.2⟩
      . exact fun _ _ h => h
      . exact fun _ h => h
    . next hsmall =>
      apply Spec.ret
      rintro w ⟨-, hcalm, h, hlive, -⟩
      exact ⟨hcalm, ⟨h.active, fun hl => absurd hl hsmall⟩, hlive⟩
  apply hpending.bind
  . intro _
    rw [hbid]
    have hgiven' : ∀ w, Calmly True w ∧ Spare cfg 2 w ∧
        (bucketHdrValid (w.flash (bucketSector bid)) bid = true →
          liveSize cfg (w.flash (bucketSector bid)) ≤ L) →
        ∃ fl : Flash, HasRoom cfg fl bid ssz ∧ (Calmly True w ∧ Spare cfg 2 w) ∧ w.flash = fl := by
      rintro w ⟨hcalm, h, hlive⟩
      refine ⟨w.flash, ⟨by omega, ?_, ?_⟩, ⟨hcalm, h⟩, rfl⟩
      . intro hhdr
        have := hlive hhdr
        omega
      . intro hhdr
        have := hlive hhdr
        omega
    refine Spec.pre (Spec.given fun fl => Spec.fact fun hroom => ?_) hgiven'
    have hS : Stable (Reading (fun w => Calmly True w ∧ Spare cfg 2 w) fl) :=
      reading_stable (calmly_stable _ (spare_stable 2))
    have hhdr : Keeps AnyEvent (Reading (fun w => Calmly True w ∧ Spare cfg 2 w) fl)
        (Reading (fun w => Calmly True w ∧ Spare cfg 2 w) fl) (fun _ => True)
        (readBucketHdr cfg bid) := readBucketHdr_reads hS bid
    apply ((readBucketHdr_modest bid).spec hhdr).bind
    . intro formatted
      apply (updatePlace_calm id formatted).bind
      . intro place
        apply Spec.assuming (φ := (place.2.isEmpty = false → cfg.large = true) ∧
          (formatted = false → place.1 = bucketDataOff))
        . exact fun _ h => h.1
        rintro ⟨hold, hplace⟩
        rw [if_neg (by omega)]
        apply updateInline_calm hold
        rw [hssz]
        cases formatted with
        | false =>
          rw [hplace rfl]
          unfold updateRoom
          rw [if_neg (by have := hroom.slot; omega)]
          exact Spec.ret fun w h => h.2.1
        | true =>
          have hbid16 : bid < 2 ^ 16 := hbid ▸ idToBucket_lt16 hv id
          apply (updateRoom_calm hv hbid16 hroom (spare_stable 2) (fun w sector q h =>
            ⟨h.active, h.room⟩) id place.1).pre
          exact fun w h => ⟨h.2.1.1, h.2.2 rfl, h.2.1.2⟩
      . exact fun _ _ h => h
      . exact fun _ h => h
    . exact fun _ _ h => h.1
    . exact fun _ h => h
  . exact fun _ _ h => h
  . exact fun _ h => h

/-! The active master is one of the two -/

-- What holds of a call besides a mount and a format.
abbrev ActiveOk (w : World) : Prop := w.st.activeMaster ≤ 1

theorem activeOk_mutate (sector : Nat) (q : Request) :
    Keeps AnyEvent ActiveOk ActiveOk (fun _ => True) (storeMutate sector q) :=
  storeMutate_spec (fun _ h _ _ => h) (fun _ _ _ h _ _ => h) fun _ _ _ _ _ _ => trivial

theorem activeOk_neutral : Neutral AnyEvent ActiveOk fun _ => True where
  active _ h := h
  ram _ _ hst _ := hst.active
  note _ _ h := h
  master slot q _ := activeOk_mutate slot q

theorem activeOk_opFrame : OpFrame cfg AnyEvent ActiveOk fun _ => True where
  toFrame := active_data.frame
  owner _ _ _ h := h
  commit := masterCommitHow_neutral activeOk_neutral false
  alloc := allocIdImpl_neutral activeOk_neutral

theorem masterFormat_activeOk :
    Keeps AnyEvent ActiveOk ActiveOk (fun _ => True) (masterFormat cfg) := by
  unfold masterFormat
  refine modifySt_bind (I := ActiveOk) (fun _ h => h) ?_
  intro _
  apply (read_reads _).seq
  intro st
  refine modifySt_bind (I := ActiveOk) (fun _ h => h) ?_
  intro _
  apply (masterWriteSector_neutral activeOk_neutral _ _ _ (by decide)).seq
  intro _
  apply (masterWriteSector_neutral activeOk_neutral _ _ _ (by decide)).seq
  intro _
  exact modifySt_spec fun _ _ => Nat.zero_le 1

theorem formatWholeStore_activeOk :
    Keeps AnyEvent ActiveOk ActiveOk (fun _ => True) (formatWholeStore cfg) := by
  have S : Stable ActiveOk := active_data.stable
  have herase : ∀ n sector, Keeps AnyEvent ActiveOk ActiveOk (fun _ => True)
      (storeEraseAll n sector) := by
    intro n
    induction n with
    | zero => exact fun _ => ret_reads _
    | succ n ih =>
      intro sector
      exact (activeOk_mutate sector _).seq fun _ => ih _
  unfold formatWholeStore
  apply (idxInvalidate_reads S).seq
  intro _
  apply (sidx_reads S _).seq
  intro _
  refine modifySt_bind (I := ActiveOk) (fun _ h => h) ?_
  intro _
  apply (herase _ _).seq
  intro _
  apply masterFormat_activeOk.seq
  intro _
  exact bindRootEmpty_keeps active_data.frame

theorem segGeometryInit_activeOk :
    Keeps AnyEvent ActiveOk ActiveOk (fun _ => True) (segGeometryInit cfg) := by
  unfold segGeometryInit
  have hof : ∀ r : Except Errno (Nat × Nat), Keeps AnyEvent ActiveOk ActiveOk (fun _ => True)
      (Proc.ofExcept r) := fun r => Spec.ofExcept (fun _ h => h) fun _ h => h
  apply (hof _).seq
  intro g
  exact modifySt_spec fun _ h => h

theorem mountViews_activeOk (a b : MasterView) :
    Keeps AnyEvent ActiveOk ActiveOk (fun _ => True) (mountViews cfg a b) := by
  have S : Stable ActiveOk := active_data.stable
  have haccept : ∀ v, Keeps AnyEvent ActiveOk ActiveOk (fun _ => True) (acceptMaster cfg v) := by
    intro v
    unfold acceptMaster
    split
    . exact ret_reads _
    . split
      . exact fail_reads _
      . exact modifySt_spec fun _ h => h
  have hunusable : Keeps AnyEvent ActiveOk ActiveOk (fun _ => True) (mountUnusable cfg a b) := by
    unfold mountUnusable
    split
    . unfold formatMastersFresh
      apply (invalidateFrom_keeps active_data.frame _ _ _).seq
      intro _
      apply masterFormat_activeOk.seq
      intro _
      exact bindRootEmpty_keeps active_data.frame
    . split
      . exact formatWholeStore_activeOk
      . exact fail_reads _
  have hadopted : ∀ p : Pick, p.active ≤ 1 →
      Keeps AnyEvent ActiveOk ActiveOk (fun _ => True) (mountAdopted cfg a b p) := by
    intro p hp
    unfold mountAdopted adoptMaster
    simp only
    refine modifySt_bind (I := ActiveOk) (fun _ _ => hp) ?_
    intro _
    apply (recoverCompaction_data active_data).seq
    intro _
    apply (read_reads _).seq
    intro damage
    apply (when_reads (doubtScan_neutral activeOk_neutral S)).seq
    intro _
    apply (when_reads (finishUpgrade_neutral activeOk_neutral _)).seq
    intro _
    exact endDoubt_neutral activeOk_neutral _ _ _
  unfold mountViews
  split
  . exact fail_reads _
  . refine modifySt_bind (I := ActiveOk) (fun _ h => h) ?_
    intro _
    apply (haccept a).seq
    intro _
    apply (haccept b).seq
    intro _
    split
    . exact fail_reads _
    . apply (masterPick_active (C := fun _ => True) S a b).bind
      . intro pick
        split
        . exact hunusable.pre fun _ h => h.1
        . next p =>
          apply Spec.assuming (φ := p.active ≤ 1)
          . exact fun w h => h.2 p rfl
          . exact fun hp => (hadopted p hp).pre fun _ h => h.1
      . exact fun _ _ h => h
      . exact fun _ h => h

theorem Op.run_activeOk (op : Op) : Keeps AnyEvent ActiveOk ActiveOk (fun _ => True) (op.run cfg) := by
  have S : Stable ActiveOk := active_data.stable
  have hend : ∀ {x : M Unit}, Keeps AnyEvent ActiveOk ActiveOk (fun _ => True) x →
      Keeps AnyEvent ActiveOk ActiveOk (fun _ => True) (do x; maintReset cfg; pure Value.unit) := by
    intro x hx
    apply hx.seq
    intro _
    exact (maintReset_reads S).seq fun _ => ret_reads _
  cases hop : op.ordinary with
  | true => exact Op.run_keeps activeOk_opFrame op hop
  | false =>
    cases op with
    | mount =>
      apply hend
      unfold mountImpl mountOpened mountSegments
      apply (read_reads _).seq
      intro st
      split
      . exact fail_reads _
      . apply (idxInvalidate_reads S).seq
        intro _
        refine modifySt_bind (I := ActiveOk) (fun _ h => h) ?_
        intro _
        have hof : Keeps AnyEvent ActiveOk ActiveOk (fun _ => True)
            (Proc.ofExcept cfg.storeOpenAndValidate : M Unit) :=
          Spec.ofExcept (fun _ h => h) fun _ h => h
        apply hof.seq
        intro _
        apply (sidx_reads S _).seq
        intro _
        apply attempt_reads
        . have hclass : ∀ slot, Keeps AnyEvent ActiveOk ActiveOk (fun _ => True)
              (masterClassify slot) :=
            fun slot => (storeRead_reads S _ _ _).seq fun _ => ret_reads _
          apply (hclass _).seq
          intro a
          apply (hclass _).seq
          intro b
          apply (mountViews_activeOk _ _).seq
          intro _
          apply (bindRootIfMissing_neutral activeOk_neutral active_data.frame).seq
          intro _
          refine modifySt_bind (I := ActiveOk) (fun _ h => h) ?_
          intro _
          apply when_reads
          apply segGeometryInit_activeOk.seq
          intro _
          apply (read_reads _).seq
          intro st
          exact when_reads (segSweep_keeps activeOk_opFrame _)
        . intro rc
          split
          . exact ret_reads _
          . refine modifySt_bind (I := ActiveOk) (fun _ h => h) ?_
            intro _
            exact (sidx_reads S _).seq fun _ => fail_reads _
    | format =>
      apply hend
      unfold formatImpl
      apply (read_reads _).seq
      intro st
      split
      . exact formatWholeStore_activeOk
      . have hof : Keeps AnyEvent ActiveOk ActiveOk (fun _ => True)
            (Proc.ofExcept cfg.storeOpenAndValidate : M Unit) :=
          Spec.ofExcept (fun _ h => h) fun _ h => h
        apply hof.seq
        intro _
        apply formatWholeStore_activeOk.seq
        intro _
        refine modifySt_bind (I := ActiveOk) (fun _ h => h) ?_
        intro _
        apply when_reads
        apply attempt_reads segGeometryInit_activeOk
        intro rc
        split
        . exact ret_reads _
        . refine modifySt_bind (I := ActiveOk) (fun _ h => h) ?_
          exact fun _ => fail_reads _
    | eraseAll => exact hend (eraseAllImpl_neutral activeOk_neutral active_data.frame)
    | unmount =>
      unfold Op.run unmountImpl
      refine Spec.seq (I := ActiveOk) ?_ fun _ => ret_reads _
      apply (read_reads _).seq
      intro st
      split
      . exact ret_reads _
      . refine modifySt_bind (I := ActiveOk) (fun _ h => h) ?_
        intro _
        apply (idxInvalidate_reads S).seq
        intro _
        exact sidx_reads S _
    | _ => cases hop

theorem callStep_activeOk {w : World} (c : Call) (h : ActiveOk w) : ActiveOk (callStep cfg w c).2 := by
  have hq := callStep_of_spec cfg (c := c) (w := w) (Op.run_activeOk c.op) h fun _ _ => trivial
  generalize callStep cfg w c = r at hq
  obtain ⟨o, w'⟩ := r
  cases o with
  | ok v => exact hq
  | err e => exact hq
  | cut =>
    obtain ⟨w'', -, rfl⟩ := hq
    exact Nat.zero_le 1

end

/-! Runs -/

-- A call that updates the only live id of a bucket, by no more than a payload may hold, while
-- nothing fails on the device.
structure RebindsOnly (w : World) (c : Call) (id : UInt64) (payload : List UInt8) : Prop where
  op : c.op = .update id payload
  faults : c.faults = []
  readFaults : c.readFaults = []
  len : payload.length ≤ cfg.maxPayloadLen
  only : OnlyLive cfg w.flash id.toNat

theorem rebind_has_room (hv : cfg.storeOpenAndValidate = .ok ()) (flash : Flash) (cs : List Call)
    (h : EachCall cfg (fun w c => ∀ id payload, RebindsOnly cfg w c id payload →
      Rebinds cfg w id.toNat payload.length) (World.fresh flash) cs) :
    EachCall cfg (fun w c => ∀ id payload, RebindsOnly cfg w c id payload →
      (callStep cfg w c).1 ≠ .err .ENOSPC) (World.fresh flash) cs := by
  have hvalid := Cfg.valid_of_validate hv
  refine EachCall.imp_of_inv (I := ActiveOk) ?_ (Nat.zero_le 1) h
  intro w c hactive hc
  refine ⟨?_, callStep_activeOk c hactive⟩
  intro id payload hcall
  have hroom := hc id payload hcall
  obtain ⟨hop, hfaults, hreads, hlen, honly⟩ := hcall
  have hupdate : Spec (History AnyEvent)
      (fun w => Calmly True w ∧ ActiveOk w ∧ OnlyLive cfg w.flash id.toNat ∧
        Rebinds cfg w id.toNat payload.length) (c.op.run cfg)
      ⟨fun _ _ => True, fun e _ => e ≠ .ENOSPC, fun _ => True⟩ := by
    rw [hop]
    apply (updateImpl_calm hvalid hlen).bind
    . exact fun _ => Spec.ret fun _ _ => trivial
    . exact fun _ _ h => h
    . exact fun _ h => h
  have hq := callStep_of_spec cfg hupdate
    ⟨fun _ => ⟨hfaults, hreads⟩, hactive, honly, hroom.slots, hroom.rotations, hroom.log⟩
    fun _ _ => trivial
  generalize callStep cfg w c = r at hq
  obtain ⟨o, w'⟩ := r
  cases o with
  | ok v => exact nofun
  | err e =>
    rintro ⟨⟩
    exact hq rfl
  | cut => exact nofun

section

variable {cfg}

theorem slotSizeFor_mono {n m : Nat} (h : n ≤ m) : cfg.slotSizeFor n ≤ cfg.slotSizeFor m := by
  unfold Cfg.slotSizeFor roundUp
  apply Nat.mul_le_mul_right
  apply Nat.div_le_div_right
  omega

-- Two slots of the largest payload always have room where their rounded sizes do.
theorem rebinds_of_geometry (hv : cfg.Valid) (hlarge : cfg.large = false)
    (hgeo : bucketDataOff + 2 * cfg.slotSizeFor cfg.maxPayloadLen ≤ cfg.pebSize) (w : World) (id : Nat)
    {len : Nat} (hlen : len ≤ cfg.maxPayloadLen) : Rebinds cfg w id len := by
  refine ⟨?_, fun h => ?_, fun h => ?_⟩
  . intro s hs
    have h1 := (@slotSizeFor_mono cfg) (payload_le_of_content hv hs)
    have h2 := (@slotSizeFor_mono cfg) hlen
    omega
  . rw [hlarge] at h
    cases h
  . rw [hlarge] at h
    cases h

theorem onlyLive_of_ids {fl : Flash} {id : Nat}
    (h : ∀ x ∈ bucketEntries cfg (fl (bucketSector (cfg.idToBucket id))), x.head.id = id) :
    OnlyLive cfg fl id := by
  intro other hne
  have hnone : newest other (bucketEntries cfg (fl (bucketSector (cfg.idToBucket id)))) = none := by
    apply lastSat_none.mpr
    intro x hx
    simp [h x hx, Ne.symm hne]
  unfold liveIn
  rw [hnone]
  rfl

end

theorem rebind_has_room_small :
    EachCall smallDevice (fun w c => ∀ id payload, RebindsOnly smallDevice w c id payload →
      (callStep smallDevice w c).1 ≠ .err .ENOSPC) (World.fresh blankFlash)
      [{ op := .format }, { op := .update 1 (List.replicate 64 7) },
        { op := .update 1 (List.replicate 64 8) }, { op := .update 1 (List.replicate 64 9) }] := by
  have hv : smallDevice.storeOpenAndValidate = .ok () := by decide
  have hrebinds : ∀ w c id payload, RebindsOnly smallDevice w c id payload →
      Rebinds smallDevice w id.toNat payload.length :=
    fun w c id payload h => rebinds_of_geometry (Cfg.valid_of_validate hv) rfl (by decide) w _ h.len
  exact rebind_has_room smallDevice hv blankFlash _
    ⟨hrebinds _ _, hrebinds _ _, hrebinds _ _, hrebinds _ _, trivial⟩

def raggedRun : List Call :=
  [{ op := .format }, { op := .update 1 (List.replicate 106 7) },
    { op := .update 1 (List.replicate 106 8) }]

theorem rebind_full :
    raggedDevice.storeOpenAndValidate = .ok () ∧
      ¬ EachCall raggedDevice (fun w c => ∀ id payload, RebindsOnly raggedDevice w c id payload →
        (callStep raggedDevice w c).1 ≠ .err .ENOSPC) (World.fresh blankFlash) raggedRun := by
  refine ⟨by decide, ?_⟩
  intro h
  refine h.2.2.1 1 (List.replicate 106 8) ⟨rfl, rfl, rfl, by decide, onlyLive_of_ids ?_⟩ ?_
  . decide +kernel
  . decide +kernel

end KeyValueDb.BlobDb
