import KeyValueDb.BlobDb.Recovered

/-!
The writes of a store through power cuts. From a store that serves a map of payloads, an append, a
format of a bucket and a compaction leave one that serves the map they should; cut at any byte, they
leave one that a mount restores to the map before or to the map after.
-/

namespace KeyValueDb.BlobDb

-- No read fails, and no compaction has failed.
structure Awake (w : World) : Prop where
  active : w.st.activeMaster ≤ 1
  reads : w.readFaults = []
  wedged : w.st.wedged = false

-- A store that no compaction was interrupted in, and whose buckets hold `m`.
structure Serving (cfg : Cfg) (m : Contents) (w : World) : Prop where
  awake : Awake w
  holds : Holding cfg m w.flash
  scratch : Scratched cfg (w.flash scratchSector)
  unsealed : Unsealed cfg w.flash

-- Inside the window of a compaction: the sealed image makes up for whatever the bucket holds.
structure Window (cfg : Cfg) (m : Contents) (bid : Nat) (img : List UInt8) (w : World) : Prop where
  awake : Awake w
  holds : Holding cfg m (w.flash.set (bucketSector bid) (program blank 0 img))
  scratch : Scratched cfg (w.flash scratchSector)
  vouches : scratchImage cfg (w.flash scratchSector) = some (bid, img)

def Formatted (bid : Nat) (w : World) : Prop := bucketHdrValid (w.flash (bucketSector bid)) bid = true

-- A step without errors, from `P` to `Q` or, where power is lost, to `C`.
abbrev Steps (good : Event → Prop) (P : World → Prop) {α : Type} (x : M α) (Q : α → World → Prop)
    (C : World → Prop) : Prop :=
  Spec (History good) P x ⟨Q, fun _ _ => False, C⟩

section

variable {cfg : Cfg} {good : Event → Prop} {m m' : Contents} {w : World} {bid : Nat}
  {img : List UInt8} {fl : Flash}

theorem Steps.andThen {α β : Type} {x : M α} {f : α → M β} {P C : World → Prop} {Q : α → World → Prop}
    {R : β → World → Prop} (hx : Steps good P x Q C) (hf : ∀ a, Steps good (Q a) (f a) R C) :
    Steps good P (x >>= f) R C :=
  Spec.bind hx hf (fun _ _ h => h) fun _ h => h

theorem Awake.mutate (h : Awake w) (sector : Nat) (r : Request) : Awake (w.mutate sector r) :=
  ⟨h.active, h.reads, h.wedged⟩

theorem awake_stable : Stable Awake := by
  intro w w' q h
  refine ⟨q.activeMaster ▸ h.active, ?_, q.wedged.trans h.wedged⟩
  have hs := q.reads
  rw [h.reads] at hs
  exact List.suffix_nil.mp hs

theorem serving_stable : Stable (Serving cfg m) := by
  intro w w' q h
  refine ⟨awake_stable w w' q h.awake, ?_, ?_, ?_⟩
  . rw [q.flash]
    exact h.holds
  . rw [q.flash]
    exact h.scratch
  . rw [q.flash]
    exact h.unsealed

theorem serving_failsTo : FailsTo (Serving cfg m) fun _ => False := by
  intro w h hf
  rw [h.awake.reads] at hf
  cases hf

theorem set_same {s : Nat} {f : Sector} (h : fl s = f) : fl.set s f = fl := by
  funext t
  unfold Flash.set
  split
  . next ht => rw [ht, h]
  . rfl

theorem restored_unsealed (h : Unsealed cfg fl) : restored cfg fl = fl := by
  unfold restored
  rw [h]

theorem Serving.stores (h : Serving cfg m w) : Stores cfg m w.flash :=
  ⟨by rw [restored_unsealed h.unsealed]; exact h.holds, h.scratch⟩

theorem Window.stores (h : Window cfg m bid img w) : Stores cfg m w.flash := by
  refine ⟨?_, h.scratch⟩
  unfold restored
  rw [h.vouches]
  exact h.holds

/-! Single writes -/

-- A write of the scratch sector that leaves no seal.
theorem Serving.scratch_write {r : Request} (h : Serving cfg m w)
    (hs : Scratched cfg ((w.mutate scratchSector r).flash scratchSector))
    (hno : scratchImage cfg ((w.mutate scratchSector r).flash scratchSector) = none) :
    Serving cfg m (w.mutate scratchSector r) :=
  ⟨h.awake.mutate _ _, h.holds.congr fun b => mutate_other (bucketSector_ne_scratch b), hs, hno⟩

-- A write or erase of the bucket inside the window, however much of it takes effect.
theorem Window.bucket_write {r : Request} (h : Window cfg m bid img w) :
    Window cfg m bid img (w.mutate (bucketSector bid) r) := by
  have hs := mutate_other (w := w) (r := r) (bucketSector_ne_scratch bid).symm
  refine ⟨h.awake.mutate _ _, ?_, hs ▸ h.scratch, hs ▸ h.vouches⟩
  have hflash : (w.mutate (bucketSector bid) r).flash.set (bucketSector bid) (program blank 0 img) =
      w.flash.set (bucketSector bid) (program blank 0 img) := by
    funext s
    unfold Flash.set
    split
    . rfl
    . next hne => exact mutate_other hne
  rw [hflash]
  exact h.holds

theorem Window.lost {r : Request} (h : Window cfg m bid img w) :
    Stores cfg m (w.mutate (bucketSector bid) r).flash := h.bucket_write.stores

-- A write or erase of a bucket leaves the scratch sector as it was.
theorem Serving.bucket_write {r : Request} (h : Serving cfg m w)
    (hholds : Holding cfg m' (w.mutate (bucketSector bid) r).flash) :
    Serving cfg m' (w.mutate (bucketSector bid) r) := by
  have hs := mutate_other (w := w) (r := r) (bucketSector_ne_scratch bid).symm
  refine ⟨h.awake.mutate _ _, hholds, hs ▸ h.scratch, ?_⟩
  unfold Unsealed
  rw [hs]
  exact h.unsealed

theorem mutate_bucket_other {r : Request} {b : Nat} (hne : b ≠ bid) :
    (w.mutate (bucketSector bid) r).flash (bucketSector b) = w.flash (bucketSector b) := by
  apply mutate_other
  unfold bucketSector
  omega

-- A bucket without slots, whatever is written of its header.
theorem Serving.reformat (hv : cfg.Valid) {r : Request} (h : Serving cfg m w)
    (hc : Clean cfg (w.flash (bucketSector bid)) bucketDataOff)
    (hc' : Clean cfg ((w.mutate (bucketSector bid) r).flash (bucketSector bid)) bucketDataOff) :
    Serving cfg m (w.mutate (bucketSector bid) r) :=
  h.bucket_write (h.holds.reformat hv (fun _ hne => mutate_bucket_other hne) hc hc')

-- A bucket of a store that serves, with a header: it has a log.
theorem Holding.logged (h : Holding cfg m fl) (hbid : bid < cfg.nBuckets)
    (hf : bucketHdrValid (fl (bucketSector bid)) bid = true) :
    ∃ es fin, Logged cfg bid (fl (bucketSector bid)) es fin := (h.kempt bid hbid).logged hf

theorem Holding.blank (h : Holding cfg m fl) (hbid : bid < cfg.nBuckets)
    (hf : bucketHdrValid (fl (bucketSector bid)) bid = false) :
    Clean cfg (fl (bucketSector bid)) bucketDataOff := (h.kempt bid hbid).blank hf

theorem nBuckets_lt16 (cfg : Cfg) (hbid : bid < cfg.nBuckets) : bid < 2 ^ 16 := by
  have := cfg.pebs_range
  unfold Cfg.nBuckets at hbid
  omega

-- The flags of the slots that a build without large payloads writes.
theorem flagsOk_plain (hinline : cfg.large = false) {extra : UInt8} (h : extra = 0 ∨ extra = slotTombstone) :
    FlagsOk cfg (slotSealed ||| extra) := by
  unfold FlagsOk Cfg.slotKnown
  rw [if_neg (by simp [hinline])]
  rcases h with rfl | rfl
  . decide
  . decide

/-! Steps that write nothing -/

-- In a build without the index its calls do nothing.
theorem modifySidx_steps {P C : World → Prop} (hidx : cfg.slotIndex = false) (f : SlotIndex → SlotIndex) :
    Steps good P (modifySidx cfg f) (fun _ => P) C := by
  unfold modifySidx
  rw [if_neg (by simp [hidx])]
  exact Spec.ret fun _ h => h

theorem noteImage_steps {P C : World → Prop} (hidx : cfg.slotIndex = false) (bid : Nat) (buf : Sector)
    (newLen n off : Nat) : Steps good P (noteImage cfg bid buf newLen n off) (fun _ => P) C := by
  induction n generalizing off with
  | zero => exact Spec.ret fun _ h => h
  | succ n ih =>
    unfold noteImage
    split
    . split
      . exact (modifySidx_steps hidx _).andThen fun _ => ih _
      . exact Spec.ret fun _ h => h
    . exact Spec.ret fun _ h => h

theorem compactOrWedge_steps {x : M Unit} {P Q C : World → Prop}
    (hx : Steps good P x (fun _ => Q) C) : Steps good P (compactOrWedge x) (fun _ => Q) C := by
  unfold compactOrWedge
  apply hx.attempt.bind
  . rintro (e | _)
    . exact fun w h _ => h.elim
    . exact Spec.ret fun _ h => h
  . exact fun _ _ h => h.elim
  . exact fun _ h => h

-- A store as a power cut leaves it.
def Resting (cfg : Cfg) (m : Contents) (w : World) : Prop := Awake w ∧ Stores cfg m w.flash

theorem resting_stable : Stable (Resting cfg m) := by
  intro w w' q h
  refine ⟨awake_stable w w' q h.1, ?_⟩
  rw [q.flash]
  exact h.2

theorem resting_failsTo : FailsTo (Resting cfg m) fun _ => False := by
  intro w h hf
  rw [h.1.reads] at hf
  cases hf

theorem scratchSealedBucket_tells {I C K : World → Prop} {E : Errno → Prop} (R : ReadClosed I)
    (hr : FailsTo I K) :
    Tells good I C fl K (scratchSealedBucket cfg) (· = scratchImage cfg (fl scratchSector)) E := by
  unfold scratchSealedBucket
  apply tells_bind (readFlash_tells R hr _)
  rintro tail rfl
  rw [sealMagicOk_image]
  split
  . next hno => exact tells_ret (scratchImage_of_magic cfg (by simpa using hno)).symm
  . apply tells_bind (readFlash_tells R hr fun flash => flash scratchSector)
    rintro buf rfl
    unfold scratchImage
    cases hvalid : scratchSealValid cfg (fl scratchSector) with
    | none => exact tells_ret rfl
    | some len =>
      simp only
      split
      . exact tells_ret rfl
      . exact tells_ret rfl

/-! The window of a compaction -/

section

variable (hpow : ∀ u, good (.mutation u) → u.fault.isError = false)

include hpow

-- A store write or erase that reports no error.
theorem storeMutate_steps {P Q C : World → Prop} {sector : Nat} {r : Request}
    (hok : ∀ w, P w → (w.mutate sector r).flash sector = r.whole (w.flash sector) →
      Q (w.mutate sector r))
    (hcut : ∀ w part upper, P w → w.nextFault = .cut part upper →
      (w.mutate sector r).flash sector = r.partly (w.flash sector) part upper →
      good (.mutation (w.mutation sector r)) → C (w.mutate sector r)) :
    Steps good P (storeMutate sector r) (fun _ => Q) C := by
  apply storeMutate_spec
  . exact fun w h hf _ => hok w h (mutate_whole hf)
  . intro w part upper _ hf hg
    have herr := hpow _ hg
    simp [World.mutation, hf, Fault.isError] at herr
  . exact fun w part upper h hf hg => hcut w part upper h hf (mutate_cut hf) hg

variable (hv : cfg.Valid)

include hv

theorem eraseScratch_serves :
    Steps good (Serving cfg m) (storeErase scratchSector)
      (fun _ w => Serving cfg m w ∧ w.flash scratchSector = blank) fun w => Stores cfg m w.flash := by
  apply storeMutate_steps hpow
  . intro w h hf
    refine ⟨h.scratch_write ?_ ?_, hf⟩
    . rw [hf]
      exact scratched_blank cfg
    . rw [hf]
      exact scratchImage_blank cfg
  . intro w part upper h _ hf _
    obtain ⟨hs, hi⟩ := h.scratch.erase_part hv part upper
    rw [← hf] at hs hi
    apply (h.scratch_write hs _).stores
    rcases hi with hi | hi
    . exact hi.trans h.unsealed
    . exact hi

theorem stage_serves {gen : Nat} {rest : List UInt8} (hbid : bid < cfg.nBuckets) (himg : img = bucketHdrBytes bid gen ++ rest)
    (hmax : img.length ≤ cfg.scratchSealOff)
    (hhold : ∀ fl', (∀ b, b ≠ bid → fl' (bucketSector b) = fl (bucketSector b)) →
      fl' (bucketSector bid) = program blank 0 img → Holding cfg m fl') :
    Steps good (fun w => Serving cfg m w ∧ ∀ b, w.flash (bucketSector b) = fl (bucketSector b))
      (do
        storeErase scratchSector
        storeWrite scratchSector 0 img
        scratchSealWrite cfg img)
      (fun _ => Window cfg m bid img) fun w => Stores cfg m w.flash := by
  have hhdr := bucketHdrBytes_length bid gen
  have hmin : bucketDataOff ≤ img.length := by
    rw [himg, List.length_append]
    omega
  have hbuckets : ∀ (w : World) (r : Request), (∀ b, w.flash (bucketSector b) = fl (bucketSector b)) →
      ∀ b, (w.mutate scratchSector r).flash (bucketSector b) = fl (bucketSector b) :=
    fun w r h b => (mutate_other (bucketSector_ne_scratch b)).trans (h b)
  have herase : Steps good
      (fun w => Serving cfg m w ∧ ∀ b, w.flash (bucketSector b) = fl (bucketSector b))
      (storeErase scratchSector)
      (fun _ w => (Serving cfg m w ∧ w.flash scratchSector = blank) ∧
        ∀ b, w.flash (bucketSector b) = fl (bucketSector b)) fun w => Stores cfg m w.flash := by
    have hkeep : Spec (History good) (fun w => ∀ b, w.flash (bucketSector b) = fl (bucketSector b))
        (storeErase scratchSector)
        (.exits (fun w => ∀ b, w.flash (bucketSector b) = fl (bucketSector b)) (fun _ => True)
          fun _ => True) :=
      storeMutate_partly (fun w h _ _ => hbuckets w _ h) fun _ _ _ _ _ _ => trivial
    exact ((eraseScratch_serves hpow hv).both hkeep).conseq (fun _ h => h) (fun _ _ h => h)
      (fun _ _ h => h.1) fun _ h => h.1
  apply herase.andThen
  intro _
  have hstage : Steps good
      (fun w => (Serving cfg m w ∧ w.flash scratchSector = blank) ∧
        ∀ b, w.flash (bucketSector b) = fl (bucketSector b))
      (storeWrite scratchSector 0 img)
      (fun _ w => (Serving cfg m w ∧ w.flash scratchSector = program blank 0 img) ∧
        ∀ b, w.flash (bucketSector b) = fl (bucketSector b)) fun w => Stores cfg m w.flash := by
    apply storeMutate_steps hpow
    . rintro w ⟨⟨h, hblank⟩, hb⟩ hf
      rw [hblank] at hf
      have hstop : (w.mutate scratchSector (.write 0 img)).flash scratchSector cfg.scratchSealOff = 0xff := by
        rw [hf]
        exact staging_unsealed hmax
      exact ⟨⟨h.scratch_write (.stop hstop) (scratchImage_stop hstop), hf⟩, hbuckets w _ hb⟩
    . rintro w part upper ⟨⟨h, hblank⟩, -⟩ - hf -
      rw [hblank] at hf
      have hstop : (w.mutate scratchSector (.write 0 img)).flash scratchSector cfg.scratchSealOff = 0xff := by
        rw [hf]
        apply staging_unsealed
        simp only [List.length_take]
        omega
      exact (h.scratch_write (.stop hstop) (scratchImage_stop hstop)).stores
  apply hstage.andThen
  intro _
  have hset : ∀ w : World, (∀ b, w.flash (bucketSector b) = fl (bucketSector b)) →
      Holding cfg m (w.flash.set (bucketSector bid) (program blank 0 img)) := by
    intro w hb
    apply hhold
    . intro b hne
      have hs : bucketSector b ≠ bucketSector bid := by
        unfold bucketSector
        omega
      simp [Flash.set, hs, hb b]
    . simp [Flash.set]
  have hwindow : ∀ w r, Serving cfg m w → (∀ b, w.flash (bucketSector b) = fl (bucketSector b)) →
      Scratched cfg ((w.mutate scratchSector r).flash scratchSector) →
      scratchImage cfg ((w.mutate scratchSector r).flash scratchSector) = some (bid, img) →
      Window cfg m bid img (w.mutate scratchSector r) :=
    fun w r h hb hs hi => ⟨h.awake.mutate _ _, hset _ (hbuckets w r hb), hs, hi⟩
  apply storeMutate_steps hpow
  . rintro w ⟨⟨h, hstaged⟩, hb⟩ hf
    rw [hstaged] at hf
    have hs := scratched_sealing hmax (padTo cfg.scratchSealLen (scratchSealBytes img)).length hmin
    have hsector : (w.mutate scratchSector (.write cfg.scratchSealOff
        (padTo cfg.scratchSealLen (scratchSealBytes img)))).flash scratchSector = stagedScratch cfg img := hf
    unfold sealing at hs
    rw [List.take_length] at hs
    apply hwindow w _ h hb
    . rw [hsector]
      exact hs
    . rw [hsector]
      exact scratchImage_staged hv hbid himg hmax
  . rintro w part upper ⟨⟨h, hstaged⟩, hb⟩ - hf -
    rw [hstaged] at hf
    have hs := scratched_sealing hmax part hmin
    have hi := scratchImage_sealing hmax part hv hmin
    have hsector : (w.mutate scratchSector (.write cfg.scratchSealOff
        (padTo cfg.scratchSealLen (scratchSealBytes img)))).flash scratchSector = sealing cfg img part := hf
    rw [← hsector] at hs hi
    rcases hi with hi | hi
    . exact (h.scratch_write hs hi).stores
    . rw [scratchImage_staged hv hbid himg hmax] at hi
      exact (hwindow w _ h hb hs hi).stores

omit hv in
theorem window_erase :
    Steps good (Window cfg m bid img) (storeErase (bucketSector bid))
      (fun _ w => Window cfg m bid img w ∧ w.flash (bucketSector bid) = blank)
      fun w => Stores cfg m w.flash :=
  storeMutate_steps hpow (fun _ h hf => ⟨h.bucket_write, hf⟩)
    fun _ _ _ h _ _ _ => h.lost

omit hv in
theorem window_write :
    Steps good (fun w => Window cfg m bid img w ∧ w.flash (bucketSector bid) = blank)
      (storeWrite (bucketSector bid) 0 img)
      (fun _ w => Window cfg m bid img w ∧ w.flash (bucketSector bid) = program blank 0 img)
      fun w => Stores cfg m w.flash := by
  apply storeMutate_steps hpow
  . rintro w ⟨h, hblank⟩ hf
    rw [hblank] at hf
    exact ⟨h.bucket_write, hf⟩
  . exact fun _ _ _ h _ _ _ => h.1.lost

-- The window closes once the bucket holds the image: with the seal or without it the store is the same.
theorem window_close :
    Steps good (fun w => Window cfg m bid img w ∧ w.flash (bucketSector bid) = program blank 0 img)
      (storeErase scratchSector)
      (fun _ w => Serving cfg m w ∧ w.flash (bucketSector bid) = program blank 0 img)
      fun w => Stores cfg m w.flash := by
  have hholds : ∀ w : World, Window cfg m bid img w → w.flash (bucketSector bid) = program blank 0 img →
      Holding cfg m (w.mutate scratchSector .erase).flash := by
    intro w h hb
    have hold := h.holds
    rw [set_same hb] at hold
    exact hold.congr fun b => mutate_other (bucketSector_ne_scratch b)
  apply storeMutate_steps hpow
  . rintro w ⟨h, hb⟩ hf
    have hf : (w.mutate scratchSector .erase).flash scratchSector = blank := hf
    refine ⟨⟨h.awake.mutate _ _, hholds w h hb, ?_, ?_⟩, ?_⟩
    . rw [hf]
      exact scratched_blank cfg
    . unfold Unsealed
      rw [hf]
      exact scratchImage_blank cfg
    . rw [mutate_other (bucketSector_ne_scratch bid), hb]
  . rintro w part upper ⟨h, hb⟩ - hf -
    obtain ⟨hs, hi⟩ := h.scratch.erase_part hv part upper
    rw [← hf] at hs hi
    refine ⟨?_, hs⟩
    rcases hi with hi | hi
    . unfold restored
      rw [hi, h.vouches]
      simp only
      rw [set_same ((mutate_other (bucketSector_ne_scratch bid)).trans hb)]
      exact hholds w h hb
    . rw [restored_unsealed hi]
      exact hholds w h hb

/-! Compaction and recovery -/

-- Whatever the bucket holds, a mount restores it from the image.
theorem compactCommit_serves {gen : Nat} {rest : List UInt8} (hbid : bid < cfg.nBuckets)
    (himg : img = bucketHdrBytes bid gen ++ rest)
    (hhold : ∀ fl', (∀ b, b ≠ bid → fl' (bucketSector b) = fl (bucketSector b)) →
      fl' (bucketSector bid) = program blank 0 img → Holding cfg m fl') :
    Spec (History good) (Reading (Serving cfg m) fl) (compactCommit cfg bid img)
      ⟨fun _ w => Serving cfg m w ∧ w.flash (bucketSector bid) = program blank 0 img,
        fun e w => e = .ENOSPC ∧ Reading (Serving cfg m) fl w, fun w => Stores cfg m w.flash⟩ := by
  unfold compactCommit
  split
  . exact Spec.fail fun _ h => ⟨rfl, h⟩
  next hmax =>
  have hlift : ∀ {x : M Unit}, Steps good (Reading (Serving cfg m) fl) x
      (fun _ w => Serving cfg m w ∧ w.flash (bucketSector bid) = program blank 0 img)
      (fun w => Stores cfg m w.flash) → _ :=
    fun {x} hx => Spec.conseq (R := ⟨fun _ w => Serving cfg m w ∧
      w.flash (bucketSector bid) = program blank 0 img, fun e w => e = .ENOSPC ∧
      Reading (Serving cfg m) fl w, fun w => Stores cfg m w.flash⟩) hx (fun _ h => h) (fun _ _ h => h)
      (fun _ _ h => h.elim) fun _ h => h
  split
  . next hatomic =>
    apply hlift
    unfold storeReplace
    rw [if_pos hatomic]
    have hafter : ∀ w : World, Reading (Serving cfg m) fl w →
        (w.mutate (bucketSector bid) (.replace img)).flash (bucketSector bid) = program blank 0 img →
        Serving cfg m (w.mutate (bucketSector bid) (.replace img)) := by
      rintro w ⟨h, rfl⟩ hf
      have hs := mutate_other (w := w) (r := .replace img) (bucketSector_ne_scratch bid).symm
      refine ⟨h.awake.mutate _ _, hhold _ ?_ hf, hs ▸ h.scratch, ?_⟩
      . intro b hne
        apply mutate_other
        unfold bucketSector
        omega
      . unfold Unsealed
        rw [hs]
        exact h.unsealed
    apply storeMutate_steps hpow
    . intro w h hf
      have hf : (w.mutate (bucketSector bid) (.replace img)).flash (bucketSector bid) = image img := hf
      rw [← program_blank] at hf
      exact ⟨hafter w h hf, hf⟩
    . intro w part upper h _ hf _
      by_cases hpart : part = 0
      . have hsame : (w.mutate (bucketSector bid) (.replace img)).flash = w.flash := by
          funext s
          by_cases hs : s = bucketSector bid
          . rw [hs, hf]
            exact if_pos hpart
          . exact mutate_other hs
        rw [hsame]
        exact h.1.stores
      . have hwhole : (w.mutate (bucketSector bid) (.replace img)).flash (bucketSector bid) = image img :=
          hf.trans (if_neg hpart)
        rw [← program_blank] at hwhole
        exact (hafter w h hwhole).stores
  . apply hlift
    have hstage := stage_serves hpow hv hbid himg (Nat.not_lt.mp hmax) hhold
    have hclose : Steps good (Window cfg m bid img)
        (do
          compactOrWedge (storeErase (bucketSector bid))
          compactOrWedge (storeWrite (bucketSector bid) 0 img)
          compactOrWedge (storeErase scratchSector))
        (fun _ w => Serving cfg m w ∧ w.flash (bucketSector bid) = program blank 0 img)
        fun w => Stores cfg m w.flash :=
      (compactOrWedge_steps (window_erase hpow)).andThen fun _ =>
        (compactOrWedge_steps (window_write hpow)).andThen fun _ =>
          compactOrWedge_steps (window_close hpow hv)
    have hall := hstage.andThen fun _ => hclose
    simp only [Proc.bind_assoc] at hall
    exact hall.pre fun w h => ⟨h.1, fun b => by rw [h.2]⟩

-- A compaction of a bucket with a header fails for want of room only, and then nothing has changed.
theorem compactBucket_serves (hidx : cfg.slotIndex = false) (hbid : bid < cfg.nBuckets)
    (hf : bucketHdrValid (fl (bucketSector bid)) bid = true) :
    Spec (History good) (Reading (Serving cfg m) fl) (compactBucket cfg bid)
      ⟨fun _ w => Serving cfg m w ∧ Formatted bid w,
        fun e w => e = .ENOSPC ∧ Reading (Serving cfg m) fl w, fun w => Stores cfg m w.flash⟩ := by
  apply Spec.assuming (φ := Holding cfg m fl)
  . exact fun w h => h.2 ▸ h.1.holds
  intro hholds
  obtain ⟨es, fin, hl⟩ := hholds.logged hbid hf
  obtain ⟨buf, len, hb, hdrop, hmin, hlen, ⟨rest, himg⟩, hpacked⟩ := hl.image hv (nBuckets_lt16 cfg hbid)
  have hlog := hpacked.logged hl.home
  have hhold : ∀ fl', (∀ b, b ≠ bid → fl' (bucketSector b) = fl (bucketSector b)) →
      fl' (bucketSector bid) = program blank 0 (bytesAt buf 0 len) → Holding cfg m fl' := by
    intro fl' hother hbucket
    rw [program_blank] at hbucket
    rw [← hbucket] at hlog
    exact hholds.relog hv hother hl hlog (Packed.liveIn es)
  have hread : Tells good (Serving cfg m) (fun w => Stores cfg m w.flash) fl (fun _ => False)
      (readBucket bid) (· = fl (bucketSector bid)) fun _ => False :=
    readFlash_tells serving_stable.readClosed serving_failsTo fun flash => flash (bucketSector bid)
  unfold compactBucket
  apply hread.bind
  . intro f
    apply Spec.assuming (φ := f = fl (bucketSector bid))
    . exact fun _ h => h.1
    rintro rfl
    simp only [hf, hb, hdrop, Bool.not_true, Bool.false_eq_true, if_false]
    have hcommit := compactCommit_serves hpow hv hbid himg hhold
    apply (hcommit.attempt.pre fun w h => h.2).bind
    . rintro (e | _)
      . apply Spec.bind (modifySidx_steps hidx _)
        . exact fun _ => Spec.fail fun _ h => h
        . exact fun _ _ h => h.elim
        . exact fun _ h => h
      . have hnote : Steps good
            (fun w => Serving cfg m w ∧ w.flash (bucketSector bid) = program blank 0 (bytesAt buf 0 len))
            (do
              sidxBegin cfg bid bucketDataOff
              let off ← noteImage cfg bid buf len cfg.pebSize bucketDataOff
              Proc.when (off != len) (sidxForget cfg bid))
            (fun _ w => Serving cfg m w ∧ w.flash (bucketSector bid) = program blank 0 (bytesAt buf 0 len))
            fun w => Stores cfg m w.flash := by
          apply Steps.andThen (modifySidx_steps hidx _)
          intro _
          apply Steps.andThen (noteImage_steps hidx _ _ _ _ _)
          intro off
          exact Spec.when (fun _ h => h) fun _ => modifySidx_steps hidx _
        apply hnote.conseq
        . exact fun _ h => h
        . rintro _ w ⟨h, hfl⟩
          refine ⟨h, ?_⟩
          unfold Formatted
          rw [hfl, program_blank]
          exact hpacked.header
        . exact fun _ _ h => h.elim
        . exact fun _ h => h
    . exact fun _ _ h => h.elim
    . exact fun _ h => h
  . rintro e w ⟨h | ⟨h, -⟩, -⟩
    . exact h.elim
    . exact h.elim
  . exact fun _ h => h

-- A mount restores the image that is vouched for, and may itself be cut while it does.
theorem recoverCompaction_serves :
    Steps good (Resting cfg m) (recoverCompaction cfg) (fun _ => Serving cfg m)
      fun w => Stores cfg m w.flash := by
  have hfixed : ∀ fl, Steps good (Reading (Resting cfg m) fl) (recoverCompaction cfg)
      (fun _ => Serving cfg m) fun w => Stores cfg m w.flash := by
    intro fl
    have hfound : Tells good (Resting cfg m) (fun w => Stores cfg m w.flash) fl (fun _ => False)
        (scratchSealedBucket cfg) (· = scratchImage cfg (fl scratchSector)) fun _ => False :=
      scratchSealedBucket_tells resting_stable.readClosed resting_failsTo
    unfold recoverCompaction
    apply hfound.bind
    . intro found
      cases found with
      | none =>
        apply Spec.ret
        rintro w ⟨hi, ⟨ha, hs⟩, rfl⟩
        have hno : Unsealed cfg w.flash := hi.symm
        have hholds := hs.holds
        rw [restored_unsealed hno] at hholds
        exact ⟨ha, hholds, hs.scratch, hno⟩
      | some found =>
        obtain ⟨bid, img⟩ := found
        have hwindow : Steps good (Window cfg m bid img)
            (do
              storeErase (bucketSector bid)
              storeWrite (bucketSector bid) 0 img
              storeErase scratchSector)
            (fun _ w => Serving cfg m w ∧ w.flash (bucketSector bid) = program blank 0 img)
            fun w => Stores cfg m w.flash :=
          (window_erase hpow).andThen fun _ => (window_write hpow).andThen fun _ => window_close hpow hv
        apply hwindow.conseq
        . rintro w ⟨hi, ⟨ha, hs⟩, rfl⟩
          have hholds := hs.holds
          unfold restored at hholds
          rw [← hi] at hholds
          exact ⟨ha, hholds, hs.scratch, hi.symm⟩
        . exact fun _ _ h => h.1
        . exact fun _ _ h => h
        . exact fun _ h => h
    . rintro e w ⟨h | ⟨h, -⟩, -⟩
      . exact h
      . exact h
    . exact fun _ h => h
  exact (Spec.given hfixed).pre fun w h => ⟨w.flash, h, rfl⟩

/-! Formats and appends -/

theorem formatBucket_serves (bid : Nat) (hidx : cfg.slotIndex = false) :
    Steps good (fun w => Serving cfg m w ∧ Clean cfg (w.flash (bucketSector bid)) bucketDataOff)
      (formatBucket cfg bid)
      (fun _ w => Serving cfg m w ∧ w.flash (bucketSector bid) = image (bucketHdrBytes bid 1))
      fun w => Stores cfg m w.flash := by
  have hhdr := bucketHdrBytes_length bid 1
  have hreplace : Steps good
      (fun w => Serving cfg m w ∧ Clean cfg (w.flash (bucketSector bid)) bucketDataOff)
      (storeReplace cfg (bucketSector bid) (bucketHdrBytes bid 1))
      (fun _ w => Serving cfg m w ∧ w.flash (bucketSector bid) = image (bucketHdrBytes bid 1))
      fun w => Stores cfg m w.flash := by
    unfold storeReplace
    split
    . apply storeMutate_steps hpow
      . intro w h hf
        have hf' : (w.mutate (bucketSector bid) (.replace (bucketHdrBytes bid 1))).flash
            (bucketSector bid) = image (bucketHdrBytes bid 1) := hf
        exact ⟨h.1.reformat hv h.2 (hf' ▸ clean_image cfg hhdr.le), hf'⟩
      . intro w part upper h _ hf _
        apply (h.1.reformat hv h.2 _).stores
        rw [hf]
        simp only [Request.partly]
        split
        . exact h.2
        . exact clean_image cfg hhdr.le
    . have herase : Steps good
          (fun w => Serving cfg m w ∧ Clean cfg (w.flash (bucketSector bid)) bucketDataOff)
          (storeErase (bucketSector bid))
          (fun _ w => Serving cfg m w ∧ w.flash (bucketSector bid) = blank)
          fun w => Stores cfg m w.flash := by
        apply storeMutate_steps hpow
        . intro w h hf
          have hf' : (w.mutate (bucketSector bid) .erase).flash (bucketSector bid) = blank := hf
          exact ⟨h.1.reformat hv h.2 (hf' ▸ fun _ _ _ => rfl), hf'⟩
        . intro w part upper h _ hf _
          exact (h.1.reformat hv h.2 (hf ▸ h.2.erase_part part upper)).stores
      apply herase.andThen
      intro _
      apply storeMutate_steps hpow
      . rintro w ⟨h, hblank⟩ hf
        have hf' : (w.mutate (bucketSector bid) (.write 0 (bucketHdrBytes bid 1))).flash
            (bucketSector bid) = program (w.flash (bucketSector bid)) 0 (bucketHdrBytes bid 1) := hf
        rw [hblank, program_blank] at hf'
        exact ⟨h.reformat hv (hblank ▸ fun _ _ _ => rfl) (hf' ▸ clean_image cfg hhdr.le), hf'⟩
      . rintro w part upper ⟨h, hblank⟩ - hf -
        rw [hblank] at hf
        have hlen : ((bucketHdrBytes bid 1).take part).length ≤ bucketDataOff := by
          simp only [List.length_take]
          omega
        exact (h.reformat hv (hblank ▸ fun _ _ _ => rfl) (hf ▸ clean_header cfg hlen)).stores
  unfold formatBucket
  apply hreplace.attempt.bind
  . rintro (e | _)
    . exact fun w h _ => h.elim
    . exact modifySidx_steps hidx _
  . exact fun _ _ h => h.elim
  . exact fun _ h => h

-- An append leaves the map with the new value or, cut, the one map or the other.
omit hv in
theorem appendSlot_serves (hp : Plain cfg) (hgood : ∀ e, good e → SlotHonest e) {id fin : Nat}
    {es : List Entry} {extra : UInt8} {payload : List UInt8}
    (hl : Logged cfg (cfg.idToBucket id) (fl (bucketSector (cfg.idToBucket id))) es fin)
    (hc : Clean cfg (fl (bucketSector (cfg.idToBucket id))) fin)
    (hroom : fin + cfg.slotSizeFor payload.length ≤ cfg.pebSize)
    (hextra : extra = 0 ∨ extra = slotTombstone) (hid : id ≠ 0) (hid64 : id < 2 ^ 64)
    (hlen : payload.length ≤ cfg.maxPayloadLen) :
    Steps good (Reading (Serving cfg m) fl) (appendSlot cfg (cfg.idToBucket id) fin id extra payload)
      (fun _ => Serving cfg (Function.update m id (Stored.ofAppend (slotSealed ||| extra) payload)))
      fun w => Stores cfg m w.flash ∨
        Stores cfg (Function.update m id (Stored.ofAppend (slotSealed ||| extra) payload)) w.flash := by
  have ha : Appendable cfg (fl (bucketSector (cfg.idToBucket id))) fin (slotSealed ||| extra) id payload :=
    ⟨hc, hroom, flagsOk_plain hp.inline hextra, hid64, hlen⟩
  have hfrom : firstBucket ≤ bucketSector (cfg.idToBucket id) := bucketSector_ge _
  have hafter : ∀ w : World, Reading (Serving cfg m) fl w → ∀ r,
      (w.mutate (bucketSector (cfg.idToBucket id)) r).flash (bucketSector (cfg.idToBucket id)) =
        program (fl (bucketSector (cfg.idToBucket id))) fin (slotImage cfg (slotSealed ||| extra) id payload) →
      Serving cfg (Function.update m id (Stored.ofAppend (slotSealed ||| extra) payload))
        (w.mutate (bucketSector (cfg.idToBucket id)) r) := by
    rintro w ⟨h, rfl⟩ r hf
    exact h.bucket_write (h.holds.append hp.valid (fun _ hne => mutate_bucket_other hne) hl ha hid hf)
  have hwrite : Steps good (Reading (Serving cfg m) fl)
      (storeWrite (bucketSector (cfg.idToBucket id)) fin (slotImage cfg (slotSealed ||| extra) id payload))
      (fun _ => Serving cfg (Function.update m id (Stored.ofAppend (slotSealed ||| extra) payload)))
      fun w => Stores cfg m w.flash ∨
        Stores cfg (Function.update m id (Stored.ofAppend (slotSealed ||| extra) payload)) w.flash := by
    apply storeMutate_steps hpow
    . intro w h hf
      rw [h.2] at hf
      exact hafter w h _ hf
    . intro w part upper h hcut hf hg
      have hhonest := hgood _ hg fin _ part upper rfl hcut hfrom
      rw [World.mutation_after] at hhonest
      rw [h.2] at hf
      have hf : _ = program (fl (bucketSector (cfg.idToBucket id))) fin
          ((slotImage cfg (slotSealed ||| extra) id payload).take part) := hf
      rcases hl.interrupted hp.valid ha hf fun hi => h.2 ▸ hhonest hi with hwhole | ⟨es', fin', hl', hlive⟩
      . exact .inr (hafter w h _ hwhole).stores
      . obtain ⟨hs, rfl⟩ := h
        exact .inl (hs.bucket_write (hs.holds.relog hp.valid (fun _ hne => mutate_bucket_other hne) hl hl'
          hlive)).stores
  unfold appendSlot appendSlot2
  simp only [List.length_nil, Nat.zero_add, List.nil_append]
  rw [if_neg (Nat.not_lt.mpr hlen), if_neg (Nat.not_lt.mpr hp.valid.align)]
  unfold idxInvalidate
  rw [if_neg (by simp [hp.inline])]
  apply Spec.ret_bind
  apply hwrite.attempt.bind
  . rintro (e | _)
    . exact fun w h _ => h.elim
    . exact modifySidx_steps hp.unindexed _
  . exact fun _ _ h => h.elim
  . exact fun _ h => h

end

end

end KeyValueDb.BlobDb
