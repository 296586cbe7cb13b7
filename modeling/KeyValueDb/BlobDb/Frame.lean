import KeyValueDb.BlobDb.Ops

/-!
What a call keeps. An assertion is stable if the caches do not matter to it: every lookup keeps it.
A frame is one that in addition survives writes to a bucket and compactions. What an operation keeps
is read off its control flow, once for all frames.
-/

namespace KeyValueDb.BlobDb

-- Assume `good` of everything in the history.
def History (good : Event → Prop) : Hypothesis World where
  holds w := ∀ e ∈ w.history, good e
  anti h1 h2 := fun e he => h2 e (List.IsSuffix.subset h1 he)

-- The part of the RAM state that is not a cache.
def St.hard (st : St) : St :=
  { st with
    maintStart := 0
    maintScanned := 0
    idxId := 0
    idxHdr := ⟨[], 0, 0, 0, 0, 0, 0⟩
    segA := []
    sidx := SlotIndex.empty 0 }

-- Nothing but caches and the schedule of failing reads changed.
structure Quiet (w w' : World) : Prop where
  flash : w'.flash = w.flash
  hard : w'.st.hard = w.st.hard
  faults : w'.faults = w.faults
  damage : w'.damage = w.damage
  patience : w'.patience = w.patience
  history : w'.history = w.history
  reads : w'.readFaults <:+ w.readFaults

theorem Quiet.refl (w : World) : Quiet w w :=
  ⟨rfl, rfl, rfl, rfl, rfl, rfl, List.suffix_rfl⟩

theorem Quiet.trans {w w' w'' : World} (h1 : Quiet w w') (h2 : Quiet w' w'') : Quiet w w'' :=
  ⟨h2.flash.trans h1.flash, h2.hard.trans h1.hard, h2.faults.trans h1.faults,
    h2.damage.trans h1.damage, h2.patience.trans h1.patience, h2.history.trans h1.history,
    h2.reads.trans h1.reads⟩

namespace Quiet

variable {w w' : World} (q : Quiet w w')

include q

theorem mounted : w'.st.mounted = w.st.mounted :=
  show w'.st.hard.mounted = w.st.hard.mounted by rw [q.hard]

theorem activeMaster : w'.st.activeMaster = w.st.activeMaster :=
  show w'.st.hard.activeMaster = w.st.hard.activeMaster by rw [q.hard]

theorem rotGen : w'.st.rotGen = w.st.rotGen :=
  show w'.st.hard.rotGen = w.st.hard.rotGen by rw [q.hard]

theorem logNext : w'.st.logNext = w.st.logNext :=
  show w'.st.hard.logNext = w.st.hard.logNext by rw [q.hard]

theorem logFailed : w'.st.logFailed = w.st.logFailed :=
  show w'.st.hard.logFailed = w.st.hard.logFailed by rw [q.hard]

theorem ceilingReset : w'.st.ceilingReset = w.st.ceilingReset :=
  show w'.st.hard.ceilingReset = w.st.hard.ceilingReset by rw [q.hard]

theorem incompat : w'.st.incompat = w.st.incompat :=
  show w'.st.hard.incompat = w.st.hard.incompat by rw [q.hard]

theorem roCompat : w'.st.roCompat = w.st.roCompat :=
  show w'.st.hard.roCompat = w.st.hard.roCompat by rw [q.hard]

theorem compat : w'.st.compat = w.st.compat :=
  show w'.st.hard.compat = w.st.hard.compat by rw [q.hard]

theorem nextId : w'.st.nextId = w.st.nextId :=
  show w'.st.hard.nextId = w.st.hard.nextId by rw [q.hard]

theorem nextIdHint : w'.st.nextIdHint = w.st.nextIdHint :=
  show w'.st.hard.nextIdHint = w.st.hard.nextIdHint by rw [q.hard]

theorem segOwner : w'.st.segOwner = w.st.segOwner :=
  show w'.st.hard.segOwner = w.st.hard.segOwner by rw [q.hard]

theorem wedged : w'.st.wedged = w.st.wedged :=
  show w'.st.hard.wedged = w.st.hard.wedged by rw [q.hard]

theorem segLen : w'.st.segLen = w.st.segLen :=
  show w'.st.hard.segLen = w.st.hard.segLen by rw [q.hard]

theorem segMax : w'.st.segMax = w.st.segMax :=
  show w'.st.hard.segMax = w.st.hard.segMax by rw [q.hard]

theorem fuses : w'.st.fuses = w.st.fuses :=
  show w'.st.hard.fuses = w.st.hard.fuses by rw [q.hard]

end Quiet

def Stable (I : World → Prop) : Prop := ∀ w w', Quiet w w' → I w → I w'

def World.mutation (w : World) (sector : Nat) (r : Request) : Mutation :=
  ⟨sector, r, w.nextFault, w.flash, w.st⟩

theorem World.mutation_after (w : World) (sector : Nat) (r : Request) :
    (w.mutation sector r).after = (w.mutate sector r).flash := rfl

section

variable {good : Event → Prop}

theorem World.mutate_history (w : World) (sector : Nat) (r : Request) :
    (w.mutate sector r).history = .mutation (w.mutation sector r) :: w.history := rfl

-- The rule for a store write or erase: one case for each thing the device may do.
theorem storeMutate_spec {P : World → Prop} {sector : Nat} {r : Request} {Q : Post World Errno Unit}
    (hok : ∀ w, P w → w.nextFault = .none → good (.mutation (w.mutation sector r)) →
      Q.ok () (w.mutate sector r))
    (herr : ∀ w part upper, P w → w.nextFault = .error part upper →
      good (.mutation (w.mutation sector r)) → Q.err Errno.EIO (w.mutate sector r))
    (hcut : ∀ w part upper, P w → w.nextFault = .cut part upper →
      good (.mutation (w.mutation sector r)) → Q.cut (w.mutate sector r)) :
    Spec (History good) P (storeMutate sector r) Q := by
  intro w hp hh
  have hg := hh _ (List.mem_cons_self ..)
  have hrun : storeMutate sector r w = (w.nextFault.outcome, w.mutate sector r) := rfl
  rw [hrun]
  cases h : w.nextFault with
  | none => exact hok w hp h hg
  | error part upper => exact herr w part upper hp h hg
  | cut part upper => exact hcut w part upper hp h hg

-- A successful request leaves the sector as asked.
theorem mutate_whole {w : World} {sector : Nat} {r : Request} (hf : w.nextFault = .none) :
    (w.mutate sector r).flash sector = r.whole (w.flash sector) := by
  simp [World.mutate, Flash.set, hf, Request.result]

theorem mutate_other {w : World} {sector s : Nat} {r : Request} (hs : s ≠ sector) :
    (w.mutate sector r).flash s = w.flash s := by
  simp [World.mutate, Flash.set, hs]

-- A failed or cut one leaves it in part.
theorem mutate_error {w : World} {sector part : Nat} {upper : Bool} {r : Request}
    (hf : w.nextFault = .error part upper) :
    (w.mutate sector r).flash sector = r.partly (w.flash sector) part upper := by
  simp [World.mutate, Flash.set, hf, Request.result]

theorem mutate_cut {w : World} {sector part : Nat} {upper : Bool} {r : Request}
    (hf : w.nextFault = .cut part upper) :
    (w.mutate sector r).flash sector = r.partly (w.flash sector) part upper := by
  simp [World.mutate, Flash.set, hf, Request.result]

-- The rule where it does not matter whether the device reports an error or loses power.
theorem storeMutate_partly {P I E : World → Prop} {sector : Nat} {r : Request}
    (hok : ∀ w, P w → (w.mutate sector r).flash sector = r.whole (w.flash sector) →
      good (.mutation (w.mutation sector r)) → I (w.mutate sector r))
    (hpart : ∀ w part upper, P w →
      (w.mutate sector r).flash sector = r.partly (w.flash sector) part upper →
      good (.mutation (w.mutation sector r)) → E (w.mutate sector r)) :
    Spec (History good) P (storeMutate sector r) (.exits I E E) := by
  apply storeMutate_spec
  . exact fun w hp hf hg => hok w hp (mutate_whole hf) hg
  . exact fun w part upper hp hf hg => hpart w part upper hp (mutate_error hf) hg
  . exact fun w part upper hp hf hg => hpart w part upper hp (mutate_cut hf) hg

theorem noteAlloc_spec {P : World → Prop} {id : Nat} {Q : Post World Errno Unit}
    (h : ∀ w, P w → good (.alloc id) → Q.ok () { w with history := .alloc id :: w.history }) :
    Spec (History good) P (noteAlloc id) Q :=
  fun w hp hh => h w hp (hh _ (List.mem_cons_self ..))

theorem modifySt_spec {P : World → Prop} {f : St → St} {Q : Post World Errno Unit}
    (h : ∀ w, P w → Q.ok () { w with st := f w.st }) :
    Spec (History good) P (modifySt f) Q :=
  Spec.modify h

theorem modifySt_bind {H : Hypothesis World} {P I : World → Prop} {α : Type} {f : St → St}
    {g : Unit → M α} {Q : Post World Errno α} (hf : ∀ w, P w → I { w with st := f w.st })
    (hg : ∀ a, Spec H I (g a) Q) : Spec H P (modifySt f >>= g) Q :=
  fun w hp hh => hg () _ (hf w hp) hh

theorem getSt_spec {P : World → Prop} {Q : Post World Errno St} (h : ∀ w, P w → Q.ok w.st w) :
    Spec (History good) P getSt Q :=
  Spec.read h

end

-- The state a procedure reads first is the one it runs in.
theorem getSt_bind {H : Hypothesis World} {P : World → Prop} {α : Type} {f : St → M α}
    {Q : Post World Errno α} (hf : ∀ st, Spec H (fun w => w.st = st ∧ P w) (f st) Q) :
    Spec H P (getSt >>= f) Q :=
  fun w hp hh => hf w.st w ⟨rfl, hp⟩ hh

/-! Lookups -/

section

variable {cfg : Cfg} {good : Event → Prop} {I E C : World → Prop}

abbrev Reads (good : Event → Prop) (I C : World → Prop) {α : Type} (x : M α) : Prop :=
  Spec (History good) I x (.exits I I C)

theorem ret_reads {α : Type} (a : α) : Reads good I C (pure a : M α) := Spec.ret fun _ h => h

theorem fail_reads {α : Type} (e : Errno) : Reads good I C (Proc.fail e : M α) :=
  Spec.fail fun _ h => h

theorem read_reads {α : Type} (f : World → α) : Reads good I C (Proc.read f : M α) :=
  Spec.read fun _ h => h

theorem attempt_reads {α β : Type} {x : M α} {f : Except Errno α → M β} (hx : Reads good I C x)
    (hf : ∀ r, Reads good I C (f r)) : Reads good I C (Proc.attempt x >>= f) :=
  hx.caught (fun a => hf (.ok a)) (fun e => hf (.error e)) fun _ h => h

theorem when_reads {c : Bool} {x : M Unit} (hx : Reads good I C x) :
    Reads good I C (Proc.when c x) :=
  Spec.when (fun _ h => h) fun _ => hx

theorem sidxLookup_reads (bid id : Nat) : Reads good I C (sidxLookup cfg bid id) := by
  unfold sidxLookup
  split
  . exact read_reads _
  . exact ret_reads none

theorem sidxCursor_reads (bid : Nat) : Reads good I C (sidxCursor cfg bid) := by
  unfold sidxCursor
  split
  . exact read_reads _
  . exact ret_reads none

theorem readRc_reads {α : Type} {x : M α} (hx : Reads good I C x) : Reads good I C (readRc x) := by
  unfold readRc
  apply attempt_reads hx
  intro r
  split
  . exact ret_reads _
  . exact fail_reads _
  . exact fail_reads _

variable (S : Stable I)

include S

theorem cache_reads {f : St → St} (hf : ∀ st, (f st).hard = st.hard) :
    Spec (History good) I (modifySt f) (.exits I E C) := by
  apply modifySt_spec
  intro w h
  exact S w _ ⟨rfl, hf w.st, rfl, rfl, rfl, rfl, List.suffix_rfl⟩ h

theorem sidx_reads (f : SlotIndex → SlotIndex) :
    Spec (History good) I (modifySidx cfg f) (.exits I E C) := by
  unfold modifySidx
  split
  . exact cache_reads S fun _ => rfl
  . exact Spec.ret fun _ h => h

theorem idxInvalidate_reads : Spec (History good) I (idxInvalidate cfg) (.exits I E C) := by
  unfold idxInvalidate
  split
  . exact cache_reads S fun _ => rfl
  . exact Spec.ret fun _ h => h

theorem maintReset_reads : Spec (History good) I (maintReset cfg) (.exits I E C) := by
  unfold maintReset
  exact cache_reads S fun _ => rfl

theorem readFlash_reads {α : Type} (f : Flash → α) : Reads good I C (readFlash f) := by
  intro w h _
  have h' := S w { w with readFaults := w.readFaults.tail }
    ⟨rfl, rfl, rfl, rfl, rfl, rfl, List.tail_suffix _⟩ h
  have hrun : readFlash f w = (if w.readFaults.headD false then .err Errno.EIO else .ok (f w.flash),
    { w with readFaults := w.readFaults.tail }) := rfl
  rw [hrun]
  split <;> exact h'

-- What a read hands over is what the flash holds.
theorem readFlash_spec {α : Type} (f : Flash → α) :
    Spec (History good) I (readFlash f) ⟨fun a w => a = f w.flash ∧ I w, fun _ => I, C⟩ := by
  intro w h _
  have h' := S w { w with readFaults := w.readFaults.tail }
    ⟨rfl, rfl, rfl, rfl, rfl, rfl, List.tail_suffix _⟩ h
  have hrun : readFlash f w = (if w.readFaults.headD false then .err Errno.EIO else .ok (f w.flash),
    { w with readFaults := w.readFaults.tail }) := rfl
  rw [hrun]
  split
  . exact h'
  . exact ⟨rfl, h'⟩

theorem storeRead_reads (sector off len : Nat) : Reads good I C (storeRead sector off len) :=
  readFlash_reads S _

theorem readSector_reads (sector : Nat) : Reads good I C (readSector sector) :=
  readFlash_reads S _

theorem readBucketHdr_reads (bid : Nat) : Reads good I C (readBucketHdr cfg bid) := by
  unfold readBucketHdr
  apply (sidxCursor_reads bid).seq
  intro known
  split
  . exact ret_reads true
  . apply (storeRead_reads S _ _ _).seq
    intro hdr
    exact ret_reads _

theorem crcOnFlash_reads (bid n at_ left c : Nat) :
    Reads good I C (crcOnFlash bid n at_ left c) := by
  induction n generalizing at_ left c with
  | zero => exact ret_reads _
  | succ n ih =>
    unfold crcOnFlash
    split
    . exact ret_reads _
    . apply (storeRead_reads S _ _ _).seq
      intro chunk
      exact ih _ _ _

theorem slotCrcOkOnFlash_reads (bid off : Nat) (raw : List UInt8) (valLen : Nat) :
    Reads good I C (slotCrcOkOnFlash bid off raw valLen) := by
  unfold slotCrcOkOnFlash
  apply (crcOnFlash_reads S _ _ _ _ _).seq
  intro ⟨c, at_⟩
  apply (storeRead_reads S _ _ _).seq
  intro stored
  exact ret_reads _

theorem scanBucketFrom_reads (bid targetId limit n cursor : Nat) (target : Option Target) :
    Reads good I C (scanBucketFrom cfg bid targetId limit n cursor target) := by
  induction n generalizing cursor target with
  | zero => exact ret_reads _
  | succ n ih =>
    unfold scanBucketFrom
    split
    . exact ret_reads _
    . apply (storeRead_reads S _ _ _).seq
      intro raw
      simp only
      split
      . split
        . apply (slotCrcOkOnFlash_reads S _ _ _ _).seq
          intro ok
          exact ret_reads _
        . exact ret_reads _
      . split
        . exact ret_reads _
        . exact ih _ _

theorem scanBucketFor_reads (bid targetId limit : Nat) :
    Reads good I C (scanBucketFor cfg bid targetId limit) :=
  scanBucketFrom_reads S _ _ _ _ _ _

theorem slotVerify_reads (bid : Nat) (t : Target) : Reads good I C (slotVerify bid t) := by
  have hpayload : Reads good I C (slotPayload bid t) := by
    unfold slotPayload
    split
    . exact storeRead_reads S _ _ _
    . exact ret_reads _
  unfold slotVerify
  apply hpayload.seq
  intro payload
  apply (storeRead_reads S _ _ _).seq
  intro stored
  split <;> exact ret_reads _

theorem walkLiveSlotBelow_reads (bid id : Nat) (learn : Bool) (n limit : Nat) :
    Reads good I C (walkLiveSlotBelow cfg bid id learn n limit) := by
  induction n generalizing limit with
  | zero => exact fail_reads _
  | succ n ih =>
    unfold walkLiveSlotBelow
    apply (scanBucketFor_reads S _ _ _).seq
    intro sc
    split
    . exact fail_reads _
    . split
      . apply (when_reads (sidx_reads S _)).seq
        intro _
        exact ret_reads _
      . next t _ =>
        apply (slotVerify_reads S bid t).seq
        intro verified
        split
        . exact ih _
        . split
          . exact ret_reads _
          . apply (when_reads (sidx_reads S _)).seq
            intro _
            exact ret_reads _

theorem findIndexedSlot_reads (bid id : Nat) : Reads good I C (findIndexedSlot cfg bid id) := by
  unfold findIndexedSlot
  apply (sidxLookup_reads bid id).seq
  intro hit
  split
  . exact ret_reads none
  . split
    . apply (sidx_reads S _).seq
      intro _
      exact ret_reads none
    . apply (storeRead_reads S _ _ _).seq
      intro raw
      simp only
      split
      . apply (sidx_reads S _).seq
        intro _
        exact ret_reads none
      . apply (slotVerify_reads S _ _).seq
        intro verified
        split
        . exact ret_reads none
        . split <;> exact ret_reads _

theorem findLiveSlot_reads (bid id : Nat) : Reads good I C (findLiveSlot cfg bid id) := by
  unfold findLiveSlot
  apply (findIndexedSlot_reads S bid id).seq
  intro indexed
  split
  . exact ret_reads _
  . exact walkLiveSlotBelow_reads S _ _ _ _ _

theorem bucketCursor_reads (bid id : Nat) : Reads good I C (bucketCursor cfg bid id) := by
  unfold bucketCursor
  apply (sidxCursor_reads bid).seq
  intro known
  split
  . exact ret_reads _
  . apply (scanBucketFor_reads S _ _ _).seq
    intro sc
    apply (when_reads (sidx_reads S _)).seq
    intro _
    exact ret_reads _

theorem cursorPastTornTail_reads (bid : Nat) (sc : BucketScan) :
    Reads good I C (cursorPastTornTail cfg bid sc) := by
  unfold cursorPastTornTail
  apply (sidx_reads S _).seq
  intro _
  exact ret_reads _

theorem confirmCursor_reads (bid id : Nat) (sc : BucketScan) :
    Reads good I C (confirmCursor cfg bid id sc) := by
  unfold confirmCursor
  split
  . split
    . exact fail_reads _
    . split
      . exact cursorPastTornTail_reads S _ _
      . exact ret_reads _
  . simp only
    split
    . exact ret_reads _
    . apply (storeRead_reads S _ _ _).seq
      intro head
      split
      . exact ret_reads _
      . apply (sidx_reads S _).seq
        intro _
        apply (scanBucketFor_reads S _ _ _).seq
        intro walk
        split
        . exact fail_reads _
        . split
          . exact cursorPastTornTail_reads S _ _
          . exact ret_reads _

theorem walkCursor_reads (bid id : Nat) : Reads good I C (walkCursor cfg bid id) := by
  unfold walkCursor
  apply (scanBucketFor_reads S _ _ _).seq
  intro sc
  apply (confirmCursor_reads S _ _ _).seq
  intro sc
  exact ret_reads _

theorem masterLogEnd_reads (slot n lo hi : Nat) :
    Reads good I C (masterLogEnd cfg slot n lo hi) := by
  induction n generalizing lo hi with
  | zero => exact ret_reads _
  | succ n ih =>
    unfold masterLogEnd
    split
    . apply (storeRead_reads S _ _ _).seq
      intro buf
      split <;> exact ih _ _
    . exact ret_reads _

theorem masterLogNewest_reads (slot rotGen n : Nat) :
    Reads good I C (masterLogNewest cfg slot rotGen n) := by
  induction n with
  | zero => exact ret_reads _
  | succ n ih =>
    unfold masterLogNewest
    apply (storeRead_reads S _ _ _).seq
    intro buf
    split
    . exact ret_reads _
    . exact ih

theorem masterLogLoad_reads (slot rotGen : Nat) : Reads good I C (masterLogLoad cfg slot rotGen) := by
  unfold masterLogLoad
  apply (masterLogEnd_reads S _ _ _ _).seq
  intro endSlot
  apply (masterLogNewest_reads S _ _ _).seq
  intro newest
  exact ret_reads _

theorem noteImage_reads (bid : Nat) (buf : Sector) (newLen n off : Nat) :
    Reads good I C (noteImage cfg bid buf newLen n off) := by
  induction n generalizing off with
  | zero => exact ret_reads _
  | succ n ih =>
    unfold noteImage
    split
    . split
      . apply (sidx_reads S _).seq
        intro _
        exact ih _
      . exact ret_reads _
    . exact ret_reads _

theorem indexLoad_reads (id : Nat) : Reads good I C (indexLoad cfg id) := by
  unfold indexLoad
  apply (readBucketHdr_reads S _).seq
  intro formatted
  split
  . exact fail_reads _
  . apply (findLiveSlot_reads S _ _).seq
    intro found
    split
    . exact fail_reads _
    . split
      . exact ret_reads _
      . split
        . exact fail_reads _
        . apply (read_reads _).seq
          intro st
          simp only
          split
          . exact ret_reads _
          . exact fail_reads _

theorem indexLoadCached_reads (id : Nat) : Reads good I C (indexLoadCached cfg id) := by
  unfold indexLoadCached
  apply (read_reads _).seq
  intro st
  split
  . exact ret_reads _
  . apply (indexLoad_reads S id).seq
    intro loaded
    split
    . exact ret_reads _
    . refine Spec.seq (cache_reads S ?_) ?_
      . intro _
        rfl
      . intro _
        exact ret_reads _

theorem segChunkRead_reads (owner segId seq skip len : Nat) :
    Reads good I C (segChunkRead cfg owner segId seq skip len) := by
  unfold segChunkRead
  apply (readBucketHdr_reads S _).seq
  intro formatted
  split
  . exact fail_reads _
  . apply (findLiveSlot_reads S _ _).seq
    intro found
    split
    . exact fail_reads _
    . split
      . exact fail_reads _
      . simp only
        split
        . exact fail_reads _
        . split
          . exact fail_reads _
          . exact ret_reads _

theorem oldBytes_reads (owner : Nat) (h : IndexHdr) (ids : List Nat) (n pos len : Nat) :
    Reads good I C (oldBytes cfg owner h ids n pos len) := by
  induction n generalizing pos len with
  | zero => exact ret_reads _
  | succ n ih =>
    unfold oldBytes
    split
    . exact ret_reads _
    . simp only
      split
      . exact ret_reads _
      . apply (segChunkRead_reads S _ _ _ _ _).seq
        intro chunk
        apply (ih _ _).seq
        intro rest
        exact ret_reads _

theorem segReadFrom_reads (id : Nat) (h : IndexHdr) (ids : List Nat) (n pos len : Nat) :
    Reads good I C (segReadFrom cfg id h ids n pos len) := by
  induction n generalizing pos len with
  | zero => exact ret_reads _
  | succ n ih =>
    unfold segReadFrom
    split
    . exact ret_reads _
    . apply (segChunkRead_reads S _ _ _ _ _).seq
      intro chunk
      apply (ih _ _).seq
      intro rest
      exact ret_reads _

theorem readImpl_reads (id offset len : Nat) : Reads good I C (readImpl cfg id offset len) := by
  have hrange : ∀ h offset len, Reads good I C (segReadRange cfg id h offset len) := by
    intro h offset len
    unfold segReadRange
    apply (read_reads _).seq
    intro st
    split
    . exact ret_reads _
    . exact segReadFrom_reads S _ _ _ _ _ _
  unfold readImpl
  apply (read_reads _).seq
  intro st
  split
  . exact fail_reads _
  . split
    . exact fail_reads _
    . split
      . exact hrange _ _ _
      . apply (readBucketHdr_reads S _).seq
        intro formatted
        split
        . exact fail_reads _
        . apply (findLiveSlot_reads S _ _).seq
          intro found
          split
          . exact fail_reads _
          . split
            . exact fail_reads _
            . split
              . apply (indexLoadCached_reads S id).seq
                intro loaded
                split
                . exact fail_reads _
                . exact hrange _ _ _
              . exact ret_reads _

theorem getImpl_reads (id outSz : Nat) : Reads good I C (getImpl cfg id outSz) := by
  unfold getImpl
  apply (read_reads _).seq
  intro st
  split
  . exact fail_reads _
  . split
    . exact fail_reads _
    . apply (readBucketHdr_reads S _).seq
      intro formatted
      split
      . exact fail_reads _
      . apply (findLiveSlot_reads S _ _).seq
        intro found
        split
        . exact fail_reads _
        . split
          . exact fail_reads _
          . split
            . apply (indexLoadCached_reads S id).seq
              intro loaded
              split
              . exact fail_reads _
              . split
                . exact fail_reads _
                . exact readRc_reads (readImpl_reads S _ _ _)
            . split
              . exact fail_reads _
              . exact ret_reads _

theorem sizeImpl_reads (id : Nat) : Reads good I C (sizeImpl cfg id) := by
  unfold sizeImpl
  apply (read_reads _).seq
  intro st
  split
  . exact fail_reads _
  . split
    . exact fail_reads _
    . apply (readBucketHdr_reads S _).seq
      intro formatted
      split
      . exact fail_reads _
      . apply (findLiveSlot_reads S _ _).seq
        intro found
        split
        . exact fail_reads _
        . split
          . exact fail_reads _
          . split
            . split
              . exact fail_reads _
              . simp only
                split
                . exact ret_reads _
                . exact fail_reads _
            . exact ret_reads _

theorem existsImpl_reads (id : Nat) : Reads good I C (existsImpl cfg id) := by
  unfold existsImpl
  apply (read_reads _).seq
  intro st
  split
  . exact ret_reads _
  . apply attempt_reads (readBucketHdr_reads S _)
    intro formatted
    split
    . apply attempt_reads (findLiveSlot_reads S _ _)
      intro found
      split
      . split <;> exact ret_reads _
      . exact ret_reads _
    . exact ret_reads _

end

end KeyValueDb.BlobDb
