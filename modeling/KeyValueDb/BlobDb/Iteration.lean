import KeyValueDb.BlobDb.Iterate
import KeyValueDb.BlobDb.Sweep

/-!
Iteration against lookup: which slots a walk of the store hands to its callback, and when these are
the ids that `get` finds with the payloads it returns.
-/

namespace KeyValueDb.BlobDb

variable (cfg : Cfg)

-- A chunk of a large object, which is no object itself.
def Entry.internal (x : Entry) : Bool := cfg.large && x.head.flags &&& slotSegment != 0

-- The slots of a log that a walk hands to its callback.
def shown (es : List Entry) : List Entry := (survivors es).filter fun x => !x.internal cfg

def Entry.visit (x : Entry) : Nat × List UInt8 := (x.head.id, x.payload)

def endsForeign (f : Sector) : Bool :=
  slotForeignAt cfg f (logEndFrom cfg f cfg.pebSize bucketDataOff)

-- What a walk of `n` buckets from `bid` on hands out where the reads fail as `rf` says; nothing
-- where a foreign slot stops it.
def visitsFrom (fl : Flash) : List Bool → Nat → Nat → Option (List (Nat × List UInt8))
  | _, 0, _ => some []
  | rf, n + 1, bid =>
    let f := fl (bucketSector bid)
    if rf.headD false || !bucketHdrValid f bid then visitsFrom fl rf.tail n (bid + 1)
    else if endsForeign cfg f then none
    else (visitsFrom fl rf.tail n (bid + 1)).map ((shown cfg (bucketEntries cfg f)).map Entry.visit ++ ·)

section

variable {cfg} {f buf : Sector} {es : List Entry} {cursor fin : Nat}

theorem imageLogEnd_eq (n off : Nat) : imageLogEnd cfg f n off = logEndFrom cfg f n off := by
  induction n generalizing off with
  | zero => rfl
  | succ n ih =>
    unfold imageLogEnd logEndFrom
    rw [slotWalkAt_eq]
    by_cases h : walkable cfg f off = true
    . simp only [h, if_true]
      exact ih _
    . simp only [h, Bool.false_eq_true, if_false]

theorem bucketImageEndsForeign_eq (f : Sector) :
    bucketImageEndsForeign cfg f = endsForeign cfg f := by
  unfold bucketImageEndsForeign endsForeign
  rw [imageLogEnd_eq]

theorem shown_cons (x : Entry) (es : List Entry) :
    shown cfg (x :: es) =
      if x.intact && (!x.tombstone && ((newest x.head.id es).isNone && !x.internal cfg)) then
        x :: shown cfg es
      else shown cfg es := by
  unfold shown
  rw [survivors]
  cases x.intact <;> cases x.tombstone <;> cases (newest x.head.id es).isNone <;>
    cases hs : x.internal cfg <;> simp [hs]

-- A walk whose callback always returns 0 and leaves alone what the walk has still to read hands out
-- the slots of the log, whatever else the callback does.
theorem forEachLiveSlot_spec {σ : Type} {cb : Visitor σ} {H : Hypothesis World}
    {V : List Entry → σ → World → Prop} {E : Errno → World → Prop} {C : World → Prop}
    (hcb : ∀ x rest user buf, (∀ j, x.off ≤ j → buf j = f j) →
      Spec H (V (x :: rest) user) (cb user x.head.id x.payload buf)
        ⟨fun r w => r.1 = 0 ∧ (∀ j, x.off + x.size cfg ≤ j → r.2.2 j = f j) ∧ V rest r.2.1 w, E, C⟩)
    (hp : Path cfg f cursor es fin) (hs : walkable cfg f fin = false) {n : Nat}
    (hn : es.length < n) (hpeb : es.length < cfg.pebSize) (user : σ)
    (hbuf : ∀ j, cursor ≤ j → buf j = f j) :
    Spec H (V (shown cfg es) user) (forEachLiveSlot cfg cb n cursor user buf)
      ⟨fun r w => r.1 = 0 ∧ V [] r.2.1 w, E, C⟩ := by
  induction hp generalizing n user buf with
  | nil off =>
    cases n with
    | zero => exact absurd hn (by simp)
    | succ n =>
      unfold forEachLiveSlot
      have hend : walkable cfg buf off = false := by
        rw [← hs]
        exact walkable_congr fun j hj _ => (hbuf j hj).symm
      rw [slotWalkAt_eq, hend]
      apply Spec.ret
      exact fun w hw => ⟨rfl, hw⟩
  | @cons off fin es hw rest ih =>
    cases n with
    | zero => exact absurd hn (by simp)
    | succ n =>
      have hpath : Path cfg buf (off + (entryAt f off).size cfg) es fin :=
        rest.congr fun j hj _ => (hbuf j (by omega)).symm
      have hstop : walkable cfg buf fin = false := by
        rw [← hs]
        have := rest.le
        exact walkable_congr fun j hj _ => (hbuf j (by omega)).symm
      have hentry : entryAt buf off = entryAt f off :=
        entryAt_congr cfg fun j hj _ => (hbuf j hj).symm
      have hwalk : walkable cfg buf off = true := by
        rw [← hw]
        exact walkable_congr fun j hj _ => (hbuf j hj).symm
      have hhdr : slotHdrAt buf off = (entryAt f off).head := by
        rw [← hentry]
        rfl
      have hlen : es.length < cfg.pebSize := by
        simp only [List.length_cons] at hpeb
        omega
      have hlen' : es.length < n := by
        simp only [List.length_cons] at hn
        omega
      unfold forEachLiveSlot
      rw [slotWalkAt_eq, hwalk]
      simp only [if_true, hentry, hhdr]
      have hsup : slotSuperseded cfg buf off
          ⟨(entryAt f off).head.id, (entryAt f off).head.flags, (entryAt f off).head.valLen,
            (entryAt f off).size cfg⟩ = (newest (entryAt f off).head.id es).isSome :=
        slotSupersededFrom_eq hpath hstop _ hlen
      have hgo : ∀ user buf, (∀ j, off + (entryAt f off).size cfg ≤ j → buf j = f j) →
          Spec H (V (shown cfg es) user)
            (forEachLiveSlot cfg cb n (off + (entryAt f off).size cfg) user buf)
            ⟨fun r w => r.1 = 0 ∧ V [] r.2.1 w, E, C⟩ := by
        intro user buf hb
        exact ih hs hlen' hlen user hb
      have hrest : ∀ j, off + (entryAt f off).size cfg ≤ j → buf j = f j := by
        intro j hj
        exact hbuf j (by omega)
      cases hint : (entryAt f off).intact with
      | false =>
        rw [shown_cons, hint]
        simp only [Bool.not_false, Bool.false_and, Bool.false_eq_true, if_true, if_false]
        exact hgo user buf hrest
      | true =>
        simp only [Bool.not_true, Bool.false_eq_true, if_false]
        rw [hsup]
        have htomb : ((entryAt f off).head.flags &&& slotTombstone == 0) =
            !(entryAt f off).tombstone := by
          simp [Entry.tombstone, bne]
        have hcond : (!(newest (entryAt f off).head.id es).isSome &&
            (!(cfg.large && (entryAt f off).head.flags &&& slotSegment != 0) &&
              ((entryAt f off).head.flags &&& slotTombstone == 0))) =
            ((entryAt f off).intact && (!(entryAt f off).tombstone &&
              ((newest (entryAt f off).head.id es).isNone && !(entryAt f off).internal cfg))) := by
          rw [hint, htomb]
          have hinternal : (cfg.large && (entryAt f off).head.flags &&& slotSegment != 0) =
            (entryAt f off).internal cfg := rfl
          rw [hinternal]
          cases (newest (entryAt f off).head.id es) <;> cases (entryAt f off).tombstone <;> simp
        rw [shown_cons]
        simp only [hcond]
        split
        . next hshow =>
          have hpay : bytesAt buf (off + slotHeadLen) (entryAt f off).head.valLen =
              (entryAt f off).payload := by
            rw [← hentry]
            rfl
          rw [hpay]
          have hvisit := hcb (entryAt f off) (shown cfg es) user buf hbuf
          apply hvisit.bind
          . rintro ⟨r, user', buf'⟩
            apply Spec.assuming (φ := r = 0 ∧ ∀ j, off + (entryAt f off).size cfg ≤ j → buf' j = f j)
            . intro w hw
              exact ⟨hw.1, hw.2.1⟩
            rintro ⟨rfl, hb⟩
            simp only [ne_eq, not_true_eq_false, if_false]
            exact (hgo user' buf' hb).pre fun w hw => hw.2.2
          . exact fun _ _ h => h
          . exact fun _ h => h
        . next hhide => exact hgo user buf hrest

theorem attempt_readBucket (bid : Nat) (w : World) :
    Proc.attempt (readBucket bid) w =
      (.ok (if w.readFaults.headD false then .error Errno.EIO
        else .ok (w.flash (bucketSector bid))),
        { w with readFaults := w.readFaults.tail }) := by
  rw [Proc.attempt_run]
  show Proc.caught (if w.readFaults.headD false then .err Errno.EIO
    else .ok (w.flash (bucketSector bid)), { w with readFaults := w.readFaults.tail }) = _
  cases w.readFaults.headD false <;> rfl

-- The slots a walk of `n` buckets from `bid` on hands out, each with its bucket, and whether a
-- foreign slot stops it.
def stopsFrom (cfg : Cfg) (fl : Flash) : List Bool → Nat → Nat → List (Nat × Entry) × Bool
  | _, 0, _ => ([], false)
  | rf, n + 1, bid =>
    let f := fl (bucketSector bid)
    let rest := stopsFrom cfg fl rf.tail n (bid + 1)
    if rf.headD false || !bucketHdrValid f bid then rest
    else if endsForeign cfg f then ([], true)
    else ((shown cfg (bucketEntries cfg f)).map (bid, ·) ++ rest.1, rest.2)

theorem visitsFrom_eq (fl : Flash) (rf : List Bool) (n bid : Nat) :
    visitsFrom cfg fl rf n bid =
      if (stopsFrom cfg fl rf n bid).2 then none
      else some ((stopsFrom cfg fl rf n bid).1.map fun s => s.2.visit) := by
  induction n generalizing rf bid with
  | zero => rfl
  | succ n ih =>
    unfold visitsFrom stopsFrom
    extract_lets f rest
    rw [ih]
    split
    . rfl
    . split
      . rfl
      . show Option.map _ (if rest.2 = true then none else some (rest.1.map fun s => s.2.visit)) = _
        cases rest.2 with
        | true => rfl
        | false => simp [Function.comp_def]

-- A walk whose callback always returns 0 and leaves the rest of each bucket alone hands out the
-- slots of the store.
theorem iterateFrom_spec {σ : Type} {cb : Visitor σ} {H : Hypothesis World} {fl : Flash}
    {V : List (Nat × Entry) → σ → World → Prop} {E : Errno → World → Prop} {C : World → Prop}
    (hv : cfg.Valid) (hV : ∀ rest user, ReadClosed (V rest user))
    (n bid : Nat) {rf : List Bool}
    (hcb : ∀ rf' bid x rest user buf, rf' <:+ rf →
      (∀ j, x.off ≤ j → buf j = fl (bucketSector bid) j) →
      Spec H (fun w => V ((bid, x) :: rest) user w ∧ w.flash = fl ∧ w.readFaults = rf')
        (cb user x.head.id x.payload buf)
        ⟨fun r w => r.1 = 0 ∧
          (∀ j, x.off + x.size cfg ≤ j → r.2.2 j = fl (bucketSector bid) j) ∧
          V rest r.2.1 w ∧ w.flash = fl ∧ w.readFaults = rf', E, C⟩)
    (user : σ) :
    Spec H (fun w => V (stopsFrom cfg fl rf n bid).1 user w ∧ w.flash = fl ∧ w.readFaults = rf)
      (iterateFrom cfg cb n bid user)
      ⟨fun r w => r.1 = 0 ∧ (stopsFrom cfg fl rf n bid).2 = false ∧ V [] r.2 w,
        fun e w => (stopsFrom cfg fl rf n bid).2 = true ∨ E e w, C⟩ := by
  induction n generalizing bid rf user with
  | zero =>
    apply Spec.ret
    exact fun w hw => ⟨rfl, rfl, hw.1⟩
  | succ n ih =>
    have hnext : ∀ user, Spec H (fun w => V (stopsFrom cfg fl rf.tail n (bid + 1)).1 user w ∧
          w.flash = fl ∧ w.readFaults = rf.tail)
        (iterateFrom cfg cb n (bid + 1) user)
        ⟨fun r w => r.1 = 0 ∧ (stopsFrom cfg fl rf.tail n (bid + 1)).2 = false ∧ V [] r.2 w,
          fun e w => (stopsFrom cfg fl rf.tail n (bid + 1)).2 = true ∨ E e w, C⟩ := by
      intro user
      refine ih (bid + 1) ?_ user
      intro rf' bid x rest user buf hrf
      exact hcb rf' bid x rest user buf (hrf.trans (List.tail_suffix rf))
    intro w hw
    obtain ⟨hVw, rfl, rfl⟩ := hw
    have hstart := hV _ user w hVw
    unfold iterateFrom
    rw [Proc.bind_ok (attempt_readBucket bid w)]
    rw [stopsFrom] at hstart ⊢
    cases hread : w.readFaults.headD false with
    | true =>
      simp only [hread, if_true, Bool.true_or] at hstart ⊢
      exact hnext user _ ⟨hstart, rfl, rfl⟩
    | false =>
      simp only [hread, Bool.false_eq_true, if_false, Bool.false_or] at hstart ⊢
      cases hhdr : bucketHdrValid (w.flash (bucketSector bid)) bid with
      | false =>
        simp only [hhdr, Bool.not_false, if_true] at hstart ⊢
        exact hnext user _ ⟨hstart, rfl, rfl⟩
      | true =>
        simp only [hhdr, Bool.not_true, Bool.false_eq_true, if_false, bucketImageEndsForeign_eq]
          at hstart ⊢
        cases hforeign : endsForeign cfg (w.flash (bucketSector bid)) with
        | true =>
          simp only [if_true]
          exact fun _ => Or.inl trivial
        | false =>
          simp only [hforeign, Bool.false_eq_true, if_false] at hstart ⊢
          obtain ⟨es, fin, hl⟩ := exists_bucketLog cfg (w.flash (bucketSector bid))
          rw [hl.entries hv] at hstart
          have hwalk := forEachLiveSlot_spec (f := w.flash (bucketSector bid))
            (V := fun rest user w' => V (rest.map (bid, ·) ++
              (stopsFrom cfg w.flash w.readFaults.tail n (bid + 1)).1) user w' ∧
              w'.flash = w.flash ∧ w'.readFaults = w.readFaults.tail)
            (fun x rest user buf => hcb w.readFaults.tail bid x _ user buf (List.tail_suffix _))
            hl.path hl.stop (hl.length_lt hv) (hl.length_lt hv) user
            (show ∀ j, _ → w.flash (bucketSector bid) j = _ from fun _ _ => rfl)
          refine hwalk.bind (R := ⟨_, fun e w' => _ ∨ E e w', C⟩) ?_ (fun _ _ h => Or.inr h)
            (fun _ h => h) _ ⟨hstart, rfl, rfl⟩
          rintro ⟨r, user', buf'⟩
          apply Spec.assuming (φ := r = 0)
          . exact fun w hw => hw.1
          rintro rfl
          simp only [ne_eq, not_true_eq_false, if_false]
          exact (hnext user').pre fun w hw => hw.2

/-! What a lookup of an inline object answers -/

-- The slot index, where the build has one, says the truth.
def IndexSound (cfg : Cfg) (w : World) : Prop :=
  cfg.slotIndex = true → ∀ id, id ≠ 0 → IndexTrue cfg w.flash w.st (cfg.idToBucket id) id

-- What `get` hands over, into a buffer that is large enough, when no read fails.
def GetGives (cfg : Cfg) (w : World) (id : Nat) (payload : List UInt8) : Prop :=
  ∃ outSz, (readRc (getImpl cfg id outSz) { w with readFaults := [] }).1 = .ok payload

def Stored.segment (cfg : Cfg) (s : Stored) : Bool := cfg.large && s.flags &&& slotSegment != 0

def Stored.indexed (cfg : Cfg) (s : Stored) : Bool := cfg.large && s.flags &&& slotIndexed != 0

-- The objects that a lookup finds are those whose bucket has no foreign slot.
structure Visible (cfg : Cfg) (fl : Flash) (id : Nat) (s : Stored) : Prop where
  id_pos : id ≠ 0
  native : NotForeign cfg fl id
  content : contentOf cfg fl id = some s
  object : s.segment cfg = false

-- The answer of `get` when no read fails: for an index record it takes more to tell.
inductive Gets (cfg : Cfg) (fl : Flash) (id outSz : Nat) : Out Errno (List UInt8) → Prop where
  | inline {s : Stored} (h : Visible cfg fl id s) (hi : s.indexed cfg = false)
      (hlen : s.payload.length ≤ outSz) : Gets cfg fl id outSz (.ok s.payload)
  | short {s : Stored} (h : Visible cfg fl id s) (hlen : outSz < s.payload.length) :
      Gets cfg fl id outSz (.err .ENOMEM)
  | hidden {e : Errno} (h : ∀ s, ¬ Visible cfg fl id s) : Gets cfg fl id outSz (.err e)
  | large {s : Stored} (r : Out Errno (List UInt8)) (h : Visible cfg fl id s)
      (hi : s.indexed cfg = true) : Gets cfg fl id outSz r

theorem Gets.holds_iff {fl : Flash} {id outSz : Nat} {r : Out Errno (List UInt8) × World}
    : Post.Holds ⟨fun p _ => Gets cfg fl id outSz (.ok p), fun e _ => Gets cfg fl id outSz (.err e),
      fun _ => Gets cfg fl id outSz .cut⟩ r ↔ Gets cfg fl id outSz r.1 := by
  obtain ⟨o, w⟩ := r
  cases o <;> exact Iff.rfl

-- No read fails.
def Sound (w : World) : Prop := w.readFaults = []

theorem sound_stable : Stable Sound := by
  intro w w' q h
  have := q.reads
  rw [h] at this
  exact List.suffix_nil.mp this

theorem sound_failsTo : FailsTo Sound fun _ => False := by
  intro w h hf
  rw [h] at hf
  cases hf

theorem notForeign_iff {fl : Flash} {id : Nat} (hv : cfg.Valid)
    (hl : BucketLog cfg (fl (bucketSector (cfg.idToBucket id))) es fin) :
    NotForeign cfg fl id ↔ slotForeignAt cfg (fl (bucketSector (cfg.idToBucket id))) fin = false := by
  unfold NotForeign
  rw [hl.path.logEndFrom hl.stop (hl.length_lt hv)]

theorem getImpl_gets {w : World} (hv : cfg.Valid) (hm : w.st.mounted = true)
    (hindex : IndexSound cfg w) (hrf : w.readFaults = []) (id outSz : Nat) :
    Gets cfg w.flash id outSz (getImpl cfg id outSz w).1 := by
  apply Gets.holds_iff.mp
  refine (?_ : Spec (History AnyEvent) (fun w' => w' = w) (getImpl cfg id outSz) _) w rfl
    fun _ _ => trivial
  unfold getImpl
  apply getSt_bind
  intro st
  apply Spec.assuming (φ := st = w.st)
  . rintro w' ⟨rfl, rfl⟩
    rfl
  rintro rfl
  rw [hm]
  simp only [Bool.not_true, Bool.false_eq_true, if_false]
  split
  . next hid =>
    apply Spec.fail
    intro _ _
    exact .hidden fun s h => h.id_pos hid
  . next hid =>
    obtain ⟨es, fin, hl⟩ := exists_bucketLog cfg (w.flash (bucketSector (cfg.idToBucket id)))
    have hhdr : Spec (History AnyEvent) (Indexed cfg _ w.flash _ _) (readBucketHdr cfg _) _ :=
      readBucketHdr_tells (C := fun _ => False) sound_stable.readClosed sound_failsTo (cfg.idToBucket id) id
    apply (hhdr.pre ?_).bind
    . intro formatted
      apply Spec.assuming
      . exact fun _ h => h.1
      intro hformatted
      refine Spec.pre ?_ fun w' h => h.2
      split
      . next hno =>
        have hno : bucketHdrValid (w.flash (bucketSector (cfg.idToBucket id)))
            (cfg.idToBucket id) = false := by
          rw [← hformatted]
          simpa using hno
        apply Spec.fail
        intro _ _
        refine .hidden fun s h => ?_
        have := h.content
        rw [contentOf_unformatted hno] at this
        cases this
      . next hyes =>
        have hyes : bucketHdrValid (w.flash (bucketSector (cfg.idToBucket id)))
            (cfg.idToBucket id) = true := by
          rw [← hformatted]
          simpa using hyes
        have hfind : Spec (History AnyEvent) _ (findLiveSlot cfg _ id) _ :=
          findLiveSlot_tells (C := fun _ => False) sound_stable sound_failsTo hv id hl
        apply hfind.bind
        . intro found
          apply Spec.assuming
          . exact fun _ h => h.1
          intro hfound
          obtain ⟨hfinds, hnative⟩ := hfound
          obtain ⟨hcontent, hlen⟩ := hfinds.content hv hl hyes
          have hvis : ∀ live, found.live = some live → live.stored.segment cfg = false →
              Visible cfg w.flash id live.stored := by
            intro live hlive hseg
            refine ⟨hid, (notForeign_iff hv hl).mpr hnative, ?_, hseg⟩
            rw [hcontent, hlive]
            rfl
          cases hlive : found.live with
          | none =>
            apply Spec.fail
            intro _ _
            refine .hidden fun s h => ?_
            have := h.content
            rw [hcontent, hlive] at this
            cases this
          | some live =>
            simp only
            split
            . next hseg =>
              apply Spec.fail
              intro _ _
              refine .hidden fun s h => ?_
              have hs := h.content
              rw [hcontent, hlive] at hs
              cases hs
              have hobj := h.object
              rw [show live.stored.segment cfg = true from hseg] at hobj
              cases hobj
            . next hseg =>
              have hvisible := hvis live hlive (Bool.eq_false_iff.mpr hseg)
              split
              . next hidx => exact fun w' _ _ => Gets.holds_iff.mpr (.large _ hvisible hidx)
              . next hidx =>
                have hidx : live.stored.indexed cfg = false := Bool.eq_false_iff.mpr hidx
                split
                . next hshort =>
                  rw [hlen live hlive] at hshort
                  exact Spec.fail fun _ _ => .short hvisible hshort
                . next hroom =>
                  rw [hlen live hlive] at hroom
                  exact Spec.ret fun _ _ => .inline hvisible hidx (Nat.not_lt.mp hroom)
        . rintro e w' ⟨⟨-, hforeign⟩ | hk, -⟩
          . refine .hidden fun s h => ?_
            have := (notForeign_iff hv hl).mp h.native
            rw [hforeign] at this
            cases this
          . exact hk.1.elim
        . exact fun _ h => h.elim
    . exact fun e w' h => h.1.1.elim
    . exact fun _ h => h.elim
    . rintro w' ⟨-, rfl⟩
      exact ⟨⟨hrf, rfl⟩, fun h => hindex h id hid⟩

theorem readRc_ok {α : Type} {x : M α} {w : World} {a : α} :
    (readRc x w).1 = .ok a ↔ (x w).1 = .ok a := by
  unfold readRc
  rw [Proc.bind_run, Proc.attempt_run]
  generalize x w = r
  obtain ⟨o, w'⟩ := r
  cases o with
  | ok b => exact Iff.rfl
  | err e =>
    constructor
    . intro h
      cases e <;> cases h
    . intro h
      cases h
  | cut => exact Iff.rfl

section

variable {w : World} {id : Nat} {s : Stored} {payload : List UInt8}

theorem Visible.unique {fl : Flash} {s' : Stored} (h : Visible cfg fl id s)
    (h' : Visible cfg fl id s') : s = s' := by
  have := h.content
  rw [h'.content] at this
  exact (Option.some.inj this).symm

variable (hv : cfg.Valid) (hm : w.st.mounted = true) (hindex : IndexSound cfg w)

include hv hm hindex

theorem GetGives.visible (h : GetGives cfg w id payload) :
    ∃ s, Visible cfg w.flash id s ∧ (s.indexed cfg = false → payload = s.payload) := by
  obtain ⟨outSz, h⟩ := h
  rw [readRc_ok] at h
  have hgets := getImpl_gets (w := { w with readFaults := [] }) hv hm hindex rfl id outSz
  rw [h] at hgets
  cases hgets with
  | inline hs hi hlen => exact ⟨_, hs, fun _ => rfl⟩
  | @large s r hs hi =>
    refine ⟨s, hs, fun hno => ?_⟩
    rw [hi] at hno
    cases hno

theorem Visible.getGives (h : Visible cfg w.flash id s) (hi : s.indexed cfg = false) :
    GetGives cfg w id s.payload := by
  refine ⟨s.payload.length, ?_⟩
  rw [readRc_ok]
  have hgets := getImpl_gets (w := { w with readFaults := [] }) hv hm hindex rfl id s.payload.length
  generalize (getImpl cfg id s.payload.length { w with readFaults := [] }).1 = r at hgets
  cases hgets with
  | inline hs _ _ => rw [h.unique hs]
  | short hs hlen =>
    rw [h.unique hs] at hlen
    omega
  | hidden hno => exact (hno s h).elim
  | large _ hs hi' =>
    rw [h.unique hs, hi'] at hi
    cases hi

end

/-! The slots a walk shows -/

theorem mem_survivors_iff {x : Entry} :
    x ∈ survivors es ↔ newest x.head.id es = some x ∧ x.tombstone = false := by
  induction es with
  | nil => simp [survivors]
  | cons y es ih =>
    rw [newest_cons, survivors]
    constructor
    . intro hx
      split at hx
      . next hy =>
        simp only [Bool.and_eq_true, Bool.not_eq_true', Option.isNone_iff_eq_none] at hy
        rcases List.mem_cons.mp hx with rfl | hx
        . rw [hy.2.2, hy.1]
          simp [hy.2.1]
        . rw [(ih.mp hx).1]
          exact ⟨rfl, (ih.mp hx).2⟩
      . rw [(ih.mp hx).1]
        exact ⟨rfl, (ih.mp hx).2⟩
    . rintro ⟨hx, ht⟩
      cases hn : newest x.head.id es with
      | some z =>
        rw [hn] at hx
        have hmem : x ∈ survivors es := ih.mpr ⟨by rw [hn]; simpa using hx, ht⟩
        split
        . exact List.mem_cons_of_mem _ hmem
        . exact hmem
      | none =>
        rw [hn, Option.none_or] at hx
        split at hx
        . next hy =>
          cases hx
          simp only [Bool.and_eq_true, beq_iff_eq] at hy
          simp [hy.1, ht, hn]
        . cases hx

theorem survivors_nodup (es : List Entry) : ((survivors es).map fun x => x.head.id).Nodup := by
  induction es with
  | nil => simp [survivors]
  | cons y es ih =>
    rw [survivors]
    split
    . next hy =>
      simp only [Bool.and_eq_true, Option.isNone_iff_eq_none] at hy
      rw [List.map_cons, List.nodup_cons]
      refine ⟨?_, ih⟩
      intro hmem
      obtain ⟨x, hx, hid⟩ := List.mem_map.mp hmem
      have := (mem_survivors_iff.mp hx).1
      rw [hid, hy.2.2] at this
      cases this
    . exact ih

theorem mem_shown {x : Entry} :
    x ∈ shown cfg es ↔ newest x.head.id es = some x ∧ x.tombstone = false ∧ x.internal cfg = false := by
  unfold shown
  rw [List.mem_filter, mem_survivors_iff]
  simp [and_assoc]

theorem shown_nodup (es : List Entry) :
    (((shown cfg es).map Entry.visit).map Prod.fst).Nodup := by
  rw [List.map_map]
  exact (survivors_nodup es).sublist (List.filter_sublist.map _)

/-! What a walk of all buckets hands out -/

-- The walk meets bucket `bid` and finds it formatted.
def Met (fl : Flash) (rf : List Bool) (start bid i : Nat) : Prop :=
  start + i = bid ∧ rf.getD i false = false ∧ bucketHdrValid (fl (bucketSector bid)) bid = true

theorem getD_tail (rf : List Bool) (i : Nat) : rf.tail.getD i false = rf.getD (i + 1) false := by
  cases rf <;> rfl

theorem headD_eq_getD (rf : List Bool) : rf.headD false = rf.getD 0 false := by
  cases rf <;> rfl

theorem met_zero {fl : Flash} {rf : List Bool} {bid b : Nat} :
    Met fl rf bid b 0 ↔
      b = bid ∧ (rf.headD false || !bucketHdrValid (fl (bucketSector bid)) bid) = false := by
  unfold Met
  rw [headD_eq_getD, Bool.or_eq_false_iff, Bool.not_eq_false']
  constructor
  . rintro ⟨rfl, h⟩
    exact ⟨rfl, h⟩
  . rintro ⟨rfl, h⟩
    exact ⟨rfl, h⟩

theorem met_succ {fl : Flash} {rf : List Bool} {bid b i : Nat} :
    Met fl rf bid b (i + 1) ↔ Met fl rf.tail (bid + 1) b i := by
  unfold Met
  rw [getD_tail, show bid + 1 + i = bid + (i + 1) from by omega]

theorem exists_met {fl : Flash} {rf : List Bool} {n bid : Nat} {P : Nat → Prop} :
    (∃ i b, i < n + 1 ∧ Met fl rf bid b i ∧ P b) ↔
      (((rf.headD false || !bucketHdrValid (fl (bucketSector bid)) bid) = false ∧ P bid) ∨
        ∃ i b, i < n ∧ Met fl rf.tail (bid + 1) b i ∧ P b) := by
  constructor
  . rintro ⟨i, b, hi, hmet, hp⟩
    cases i with
    | zero =>
      obtain ⟨rfl, h⟩ := met_zero.mp hmet
      exact .inl ⟨h, hp⟩
    | succ i => exact .inr ⟨i, b, by omega, met_succ.mp hmet, hp⟩
  . rintro (⟨h, hp⟩ | ⟨i, b, hi, hmet, hp⟩)
    . exact ⟨0, bid, by omega, met_zero.mpr ⟨rfl, h⟩, hp⟩
    . exact ⟨i + 1, b, by omega, met_succ.mpr hmet, hp⟩

theorem visitsFrom_none {fl : Flash} {rf : List Bool} {n bid : Nat} :
    visitsFrom cfg fl rf n bid = none ↔
      ∃ i b, i < n ∧ Met fl rf bid b i ∧ endsForeign cfg (fl (bucketSector b)) = true := by
  induction n generalizing rf bid with
  | zero => simp [visitsFrom]
  | succ n ih =>
    rw [exists_met, visitsFrom]
    cases hskip : (rf.headD false || !bucketHdrValid (fl (bucketSector bid)) bid) with
    | true => simp [ih]
    | false =>
      cases hforeign : endsForeign cfg (fl (bucketSector bid)) with
      | true => simp
      | false => simp [ih]

theorem mem_visitsFrom {fl : Flash} {rf : List Bool} {n bid : Nat} {vs : List (Nat × List UInt8)}
    (h : visitsFrom cfg fl rf n bid = some vs) {v : Nat × List UInt8} :
    v ∈ vs ↔ ∃ i b, i < n ∧ Met fl rf bid b i ∧
      ∃ x ∈ shown cfg (bucketEntries cfg (fl (bucketSector b))), x.visit = v := by
  induction n generalizing rf bid vs with
  | zero =>
    cases h
    simp
  | succ n ih =>
    rw [exists_met]
    rw [visitsFrom] at h
    cases hskip : (rf.headD false || !bucketHdrValid (fl (bucketSector bid)) bid) with
    | true =>
      rw [hskip] at h
      simp only [if_true] at h
      rw [ih h]
      simp
    | false =>
      rw [hskip] at h
      simp only [Bool.false_eq_true, if_false] at h
      split at h
      . cases h
      . obtain ⟨rest, hrest, rfl⟩ := Option.map_eq_some_iff.mp h
        rw [List.mem_append, List.mem_map, ih hrest]
        simp

-- Every live slot lies in the bucket that its id belongs to.
def Homed (cfg : Cfg) (fl : Flash) : Prop :=
  ∀ bid, bid < cfg.nBuckets → bucketHdrValid (fl (bucketSector bid)) bid = true →
    ∀ x ∈ shown cfg (bucketEntries cfg (fl (bucketSector bid))),
      x.head.id ≠ 0 ∧ cfg.idToBucket x.head.id = bid

theorem visitsFrom_nodup {fl : Flash} (hh : Homed cfg fl) {rf : List Bool} {n bid : Nat}
    {vs : List (Nat × List UInt8)} (hn : bid + n ≤ cfg.nBuckets)
    (h : visitsFrom cfg fl rf n bid = some vs) : (vs.map Prod.fst).Nodup := by
  induction n generalizing rf bid vs with
  | zero =>
    cases h
    simp
  | succ n ih =>
    rw [visitsFrom] at h
    split at h
    . exact ih (by omega) h
    . next hmeet =>
      split at h
      . cases h
      . obtain ⟨rest, hrest, rfl⟩ := Option.map_eq_some_iff.mp h
        rw [List.map_append, List.nodup_append]
        refine ⟨shown_nodup _, ih (by omega) hrest, ?_⟩
        have hhdr : bucketHdrValid (fl (bucketSector bid)) bid = true := by
          simp only [Bool.or_eq_true, Bool.not_eq_true', not_or, Bool.not_eq_false] at hmeet
          exact hmeet.2
        -- ids of the buckets that follow belong to those
        intro a ha b hb hab
        subst hab
        obtain ⟨v, hv, rfl⟩ := List.mem_map.mp ha
        obtain ⟨x, hx, rfl⟩ := List.mem_map.mp hv
        obtain ⟨v', hv', hid⟩ := List.mem_map.mp hb
        obtain ⟨i, b, hi, ⟨hb, -, hhdr'⟩, y, hy, rfl⟩ := (mem_visitsFrom hrest).mp hv'
        have hx' := (hh bid (by omega) hhdr x hx).2
        have hy' := (hh b (by omega) hhdr' y hy).2
        have hxy : y.head.id = x.head.id := hid
        rw [hxy, hx'] at hy'
        omega

/-! Iteration against lookup -/

-- A callback that always returns 0 and calls nothing: it notes what it is handed.
def noteVisit : Visitor (List (Nat × List UInt8)) :=
  fun seen id payload buf => pure (0, seen ++ [(id, payload)], buf)

-- If a walk returns 0, it has handed out each id that `get` finds once, with what `get` returns.
def IterationAgrees (cfg : Cfg) (w : World) : Prop :=
  ∀ seen, (iterateImpl cfg noteVisit [] w).1 = .ok (0, seen) →
    (seen.map Prod.fst).Nodup ∧ ∀ id payload, (id, payload) ∈ seen ↔ GetGives cfg w id payload

-- The read of bucket `bid` that a walk makes fails.
def Unreadable (w : World) (bid : Nat) : Prop := w.readFaults.getD bid false = true

-- A bucket that can be read ends in a foreign slot: the walk does not return 0.
def MeetsForeign (cfg : Cfg) (w : World) : Prop :=
  ∃ bid, bid < cfg.nBuckets ∧ ¬ Unreadable w bid ∧
    bucketHdrValid (w.flash (bucketSector bid)) bid = true ∧
    endsForeign cfg (w.flash (bucketSector bid)) = true

-- No read fails of a bucket that holds an object.
def HidesNothing (cfg : Cfg) (w : World) : Prop :=
  ∀ id payload, Unreadable w (cfg.idToBucket id) → ¬ GetGives cfg w id payload

-- No large object is shown, unless it consists of the bytes of its own index record.
def ShowsNoRecord (cfg : Cfg) (w : World) : Prop :=
  ∀ id s, Visible cfg w.flash id s → ¬ Unreadable w (cfg.idToBucket id) →
    s.indexed cfg = true → GetGives cfg w id s.payload

theorem iterateImpl_visits {w : World} (hv : cfg.Valid) (hm : w.st.mounted = true) :
    match visitsFrom cfg w.flash w.readFaults cfg.nBuckets 0 with
    | some vs => (iterateImpl cfg noteVisit [] w).1 = .ok (0, vs)
    | none => ∃ e, (iterateImpl cfg noteVisit [] w).1 = .err e := by
  have hrun : iterateImpl cfg noteVisit [] w = iterateFrom cfg noteVisit cfg.nBuckets 0 [] w := by
    unfold iterateImpl
    rw [Proc.bind_ok (show getSt w = (.ok w.st, w) from rfl), hm]
    rfl
  have hspec := @iterateFrom_spec cfg _ noteVisit (History AnyEvent) w.flash
    (fun rest seen _ => seen ++ rest.map (fun s => s.2.visit) =
      (stopsFrom cfg w.flash w.readFaults cfg.nBuckets 0).1.map fun s => s.2.visit)
    (fun _ _ => False) (fun _ => False) hv (fun _ _ _ h => h) cfg.nBuckets 0 w.readFaults
    (fun rf' bid x rest user buf _ hbuf => Spec.ret fun w' hw' =>
      ⟨rfl, fun j hj => hbuf j (by omega), by rw [← hw'.1]; simp [Entry.visit], hw'.2.1, hw'.2.2⟩)
    [] w ⟨rfl, rfl, rfl⟩ fun _ _ => trivial
  rw [hrun, visitsFrom_eq]
  generalize iterateFrom cfg noteVisit cfg.nBuckets 0 [] w = r at hspec
  obtain ⟨o, w'⟩ := r
  cases o with
  | ok a =>
    obtain ⟨r, user⟩ := a
    obtain ⟨rfl, hnative, hseen⟩ := hspec
    rw [hnative]
    simp only [List.map_nil, List.append_nil] at hseen
    simp only [Bool.false_eq_true, if_false]
    rw [hseen]
  | err e =>
    rcases hspec with hforeign | hno
    . rw [hforeign]
      exact ⟨e, rfl⟩
    . exact hno.elim
  | cut => exact hspec.elim

-- A larger buffer does not change what a lookup hands over.
theorem getImpl_mono {w w' : World} {id outSz outSz' : Nat} {payload : List UInt8}
    (hle : outSz ≤ outSz') (h : getImpl cfg id outSz w = (.ok payload, w')) :
    getImpl cfg id outSz' w = (.ok payload, w') := by
  unfold getImpl at h ⊢
  obtain ⟨st, w₁, hst, h⟩ := Proc.bind_eq_ok h
  rw [Proc.bind_ok hst]
  split at h
  . cases h
  . next hm =>
    rw [if_neg hm]
    split at h
    . cases h
    . next hid =>
      rw [if_neg hid]
      obtain ⟨formatted, w₂, hf, h⟩ := Proc.bind_eq_ok h
      rw [Proc.bind_ok hf]
      split at h
      . cases h
      . next hyes =>
        rw [if_neg hyes]
        obtain ⟨found, w₃, hfound, h⟩ := Proc.bind_eq_ok h
        rw [Proc.bind_ok hfound]
        cases hlive : found.live with
        | none =>
          rw [hlive] at h
          cases h
        | some live =>
          simp only [hlive] at h ⊢
          split at h
          . cases h
          . next hseg =>
            rw [if_neg hseg]
            split at h
            . next hidx =>
              rw [if_pos hidx]
              obtain ⟨loaded, w₄, hload, h⟩ := Proc.bind_eq_ok h
              rw [Proc.bind_ok hload]
              cases loaded with
              | none => cases h
              | some x =>
                simp only at h ⊢
                split at h
                . cases h
                . next hroom =>
                  rw [if_neg (by omega)]
                  exact h
            . next hidx =>
              rw [if_neg hidx]
              split at h
              . cases h
              . next hroom =>
                rw [if_neg (by omega)]
                exact h

theorem GetGives.unique {w : World} {id : Nat} {p q : List UInt8} (hp : GetGives cfg w id p)
    (hq : GetGives cfg w id q) : p = q := by
  obtain ⟨n, hp⟩ := hp
  obtain ⟨m, hq⟩ := hq
  rw [readRc_ok] at hp hq
  have hp' := getImpl_mono (Nat.le_max_left n m) (Prod.ext hp rfl)
  have hq' := getImpl_mono (Nat.le_max_right n m) (Prod.ext hq rfl)
  rw [hp'] at hq'
  injection hq' with h _
  injection h

theorem idToBucket_lt (hv : cfg.Valid) (id : Nat) : cfg.idToBucket id < cfg.nBuckets := by
  have hpebs := hv.pebs
  apply Nat.mod_lt
  unfold Cfg.nBuckets
  omega

def Entry.value (x : Entry) : Stored := ⟨x.head.flags, x.payload⟩

theorem liveIn_iff {id : Nat} {s : Stored} :
    liveIn es id = some s ↔ ∃ x ∈ survivors es, x.head.id = id ∧ x.value = s := by
  unfold liveIn
  rw [Option.bind_eq_some_iff]
  constructor
  . rintro ⟨x, hx, hs⟩
    have hid := (newest_some hx).2.2
    unfold Entry.stored at hs
    split at hs
    . cases hs
    . next ht =>
      refine ⟨x, mem_survivors_iff.mpr ⟨by rw [hid]; exact hx, by simpa using ht⟩, hid, ?_⟩
      exact Option.some.inj hs
  . rintro ⟨x, hx, rfl, rfl⟩
    obtain ⟨hn, ht⟩ := mem_survivors_iff.mp hx
    refine ⟨x, hn, ?_⟩
    simp [Entry.stored, ht, Entry.value]

-- The slots shown of a bucket are its visible objects.
theorem visible_iff {fl : Flash} {id : Nat} {s : Stored} (hid : id ≠ 0) :
    Visible cfg fl id s ↔
      bucketHdrValid (fl (bucketSector (cfg.idToBucket id))) (cfg.idToBucket id) = true ∧
      endsForeign cfg (fl (bucketSector (cfg.idToBucket id))) = false ∧
      ∃ x ∈ shown cfg (bucketEntries cfg (fl (bucketSector (cfg.idToBucket id)))),
        x.head.id = id ∧ x.value = s := by
  constructor
  . rintro ⟨-, hnative, hcontent, hobject⟩
    unfold contentOf at hcontent
    simp only at hcontent
    split at hcontent
    . next hhdr =>
      obtain ⟨x, hx, hxid, rfl⟩ := liveIn_iff.mp hcontent
      have hshown : x.internal cfg = false := hobject
      exact ⟨hhdr, hnative, x, List.mem_filter.mpr ⟨hx, by rw [hshown]; rfl⟩, hxid, rfl⟩
    . cases hcontent
  . rintro ⟨hhdr, hnative, x, hx, hxid, rfl⟩
    obtain ⟨hsurvives, hshown⟩ := List.mem_filter.mp hx
    have hobject : x.internal cfg = false := by simpa using hshown
    refine ⟨hid, hnative, ?_, hobject⟩
    unfold contentOf
    simp only [hhdr, if_true]
    exact liveIn_iff.mpr ⟨x, hsurvives, hxid, rfl⟩

end

-- An id was deleted, and the update of another was torn.
def iteratedRun : List Call :=
  [{ op := .format }, { op := .allocId }, { op := .allocId }, { op := .update 2 [1, 2, 3] },
    { op := .update 3 [4] }, { op := .delete 2 },
    { op := .update 3 [5, 6], faults := [.error 6 false] }]

def iterated : World := (runCalls smallDevice (World.fresh blankFlash) iteratedRun).2

end KeyValueDb.BlobDb
