import KeyValueDb.BlobDb.Serving

/-!
What a store that serves a map finds and answers: a lookup finds the payload the map has, a cursor
stands where a slot can be appended, and the calls that read answer from the map.
-/

namespace KeyValueDb.BlobDb

-- The end of a log with nothing but erased flash after it.
def OpenAt (cfg : Cfg) (bid : Nat) (f : Sector) (c : Nat) : Prop :=
  ∃ es, Logged cfg bid f es c ∧ Clean cfg f c

-- An append cursor. Behind a torn slot it is past the sector.
def CursorAt (cfg : Cfg) (bid : Nat) (f : Sector) (c : Nat) : Prop :=
  c = cfg.pebSize ∨ OpenAt cfg bid f c

structure ScanOf (cfg : Cfg) (bid : Nat) (f : Sector) (sc : BucketScan) : Prop where
  walked : sc.fromIndex = false
  native : sc.foreign = false
  log : ∃ es, Logged cfg bid f es sc.writeCursor
  torn : sc.tailTorn = tornTail cfg f sc.writeCursor

-- What a lookup of `id` finds in a store that holds `m`.
structure Located (cfg : Cfg) (m : Contents) (fl : Flash) (id : Nat) (found : Found) : Prop where
  payload : found.live.map LiveSlot.payload = m id
  length : ∀ live, found.live = some live → live.head.valLen = live.payload.length
  inline : ∀ live, found.live = some live → live.head.flags &&& slotSegment = 0
  scan : ScanOf cfg (cfg.idToBucket id) (fl (bucketSector (cfg.idToBucket id))) found.scan

section

variable {cfg : Cfg} {good : Event → Prop} {m : Contents} {w : World} {fl : Flash} {f : Sector}
  {C : World → Prop} {bid id c ssz fin : Nat} {es : List Entry}

-- What a store that serves `m` tells a procedure that only reads.
abbrev Shows (good : Event → Prop) (cfg : Cfg) (m : Contents) (fl : Flash) (C : World → Prop) {α : Type}
    (x : M α) (P : α → Prop) : Prop :=
  Tells good (Serving cfg m) C fl (fun _ => False) x P fun _ => False

theorem Shows.andThen {α β : Type} {x : M α} {f : α → M β} {P : α → Prop} {R : Post World Errno β}
    (hx : Shows good cfg m fl R.cut x P)
    (hf : ∀ a, P a → Spec (History good) (Reading (Serving cfg m) fl) (f a) R) :
    Spec (History good) (Reading (Serving cfg m) fl) (x >>= f) R := by
  apply Spec.bind hx
  . exact fun a => Spec.fact fun h => hf a h
  . rintro e w ⟨h | ⟨h, -⟩, -⟩
    . exact h.elim
    . exact h.elim
  . exact fun _ h => h

theorem OpenAt.room (h : CursorAt cfg bid f c) (hroom : ¬ cfg.pebSize < c + ssz) (hpos : 0 < ssz) :
    OpenAt cfg bid f c := by
  rcases h with rfl | h
  . omega
  . exact h

theorem Logged.cursor (hv : cfg.Valid) (h : Logged cfg bid f es fin) (ht : tornTail cfg f fin = false) :
    OpenAt cfg bid f fin := by
  rcases h.tail with hc | htorn
  . exact ⟨es, h, hc⟩
  . rw [htorn.tail hv] at ht
    cases ht

-- No blob has the id 0.
theorem Holding.zero (hv : cfg.Valid) (h : Holding cfg m fl) : m 0 = none := by
  rw [← h.contents]
  unfold BlobDb.contents
  cases hf : bucketHdrValid (fl (bucketSector (cfg.idToBucket 0))) (cfg.idToBucket 0) with
  | false => rw [contentOf_unformatted hf, Option.map_none]
  | true =>
    obtain ⟨es, fin, hl⟩ := h.logged (idToBucket_lt hv 0) hf
    rw [contentOf_logged hv hl]
    unfold liveIn
    cases hx : newest 0 es with
    | none => rfl
    | some x =>
      obtain ⟨hmem, hintact, hid⟩ := newest_some hx
      exact absurd hid (hl.home x hmem hintact).2

theorem readBucketHdr_shows (hidx : cfg.slotIndex = false) (bid : Nat) :
    Shows good cfg m fl C (readBucketHdr cfg bid) (· = bucketHdrValid (fl (bucketSector bid)) bid) := by
  have hspec : Spec (History good) (Indexed cfg (Serving cfg m) fl bid 0) (readBucketHdr cfg bid) _ :=
    readBucketHdr_tells (C := C) serving_stable.readClosed serving_failsTo bid 0
  apply hspec.conseq
  . exact fun w h => ⟨h, fun hindex => absurd hindex (by simp [hidx])⟩
  . exact fun _ _ h => ⟨h.1, h.2.1⟩
  . exact fun _ _ h => ⟨.inr h.1, h.2⟩
  . exact fun _ h => h

theorem scanBucketFor_shows (hv : cfg.Valid) (hl : Logged cfg bid (fl (bucketSector bid)) es fin)
    (id limit : Nat) :
    Shows good cfg m fl C (scanBucketFor cfg bid id limit)
      (ScanOf cfg bid (fl (bucketSector bid))) := by
  apply tells_mono (scanBucketFor_tells serving_stable.readClosed serving_failsTo hv id hl.log)
  . rintro sc rfl
    exact ⟨rfl, hl.native hv, ⟨es, hl⟩, rfl⟩
  . exact fun _ h => h

theorem findLiveSlot_shows (hp : Plain cfg)
    (hl : Logged cfg (cfg.idToBucket id) (fl (bucketSector (cfg.idToBucket id))) es fin)
    (hm : contents cfg fl = m) :
    Shows good cfg m fl C (findLiveSlot cfg (cfg.idToBucket id) id) (Located cfg m fl id) := by
  have hplain : findLiveSlot cfg (cfg.idToBucket id) id = walkLiveSlot cfg (cfg.idToBucket id) id true := by
    unfold findLiveSlot findIndexedSlot sidxLookup
    simp only [hp.unindexed, Bool.false_eq_true, if_false]
    rfl
  rw [hplain]
  have hwalk : Tells good (Serving cfg m) C fl (fun _ => False)
      (walkLiveSlot cfg (cfg.idToBucket id) id true) _ _ :=
    walkLiveSlotBelow_tells serving_stable serving_failsTo hp.valid id true hl.log
      (Nat.lt_succ_self cfg.pebSize)
  apply tells_mono hwalk
  . rintro found ⟨hcursor, hforeign, hwalked, htorn, hlive, -⟩
    have hnewest : found.live = (newest id es).bind Entry.liveSlot := by
      rw [hlive]
      congr 1
      unfold newest
      apply lastSat_congr
      intro y hy
      obtain ⟨-, hend, -⟩ := hl.log.path.mem hy
      have hge := y.size_ge cfg
      have hfin := hl.log.path.fin_le (bucketDataOff_le hp.valid)
      unfold slotOverhead at hge
      have hlt : y.off < cfg.pebSize := by omega
      simp [hlt]
    have hfinds : Finds cfg (fl (bucketSector (cfg.idToBucket id))) es fin id found :=
      ⟨hcursor, hforeign, fun _ => htorn, hnewest⟩
    obtain ⟨hcontent, hlen⟩ := hfinds.content hp.valid hl.log hl.header
    refine ⟨?_, hlen, ?_, ⟨hwalked, hforeign, ⟨es, hcursor ▸ hl⟩, hcursor ▸ htorn⟩⟩
    . rw [← hm]
      unfold contents
      rw [hcontent, Option.map_map]
      rfl
    . intro live hsome
      rw [hnewest] at hsome
      obtain ⟨x, hx, hslot⟩ := Option.bind_eq_some_iff.mp hsome
      obtain ⟨-, -, hw, hat⟩ := hl.log.path.mem (newest_some hx).1
      unfold Entry.liveSlot at hslot
      split at hslot
      . cases hslot
      . cases hslot
        by_contra hseg
        rw [hat] at hseg
        have hlarge := large_of_segment hw hseg
        rw [hp.inline] at hlarge
        cases hlarge
  . rintro e ⟨-, hforeign⟩
    rw [hl.native hp.valid] at hforeign
    cases hforeign

theorem confirmCursor_shows (hp : Plain cfg) {sc : BucketScan} (h : ScanOf cfg bid (fl (bucketSector bid)) sc)
    (id : Nat) :
    Shows good cfg m fl C (confirmCursor cfg bid id sc) fun sc' =>
      CursorAt cfg bid (fl (bucketSector bid)) sc'.writeCursor := by
  obtain ⟨es, hl⟩ := h.log
  unfold confirmCursor
  simp only [h.walked, h.native, Bool.not_false, Bool.false_eq_true, if_true, if_false]
  split
  . unfold cursorPastTornTail
    apply tells_bind (sidx_tells serving_stable _)
    exact fun _ _ => tells_ret (.inl rfl)
  . next hwhole =>
    have htorn : tornTail cfg (fl (bucketSector bid)) sc.writeCursor = false := by
      rw [← h.torn]
      simpa using hwhole
    exact tells_ret (.inr (hl.cursor hp.valid htorn))

theorem bucketCursor_shows (hp : Plain cfg) (hl : Logged cfg bid (fl (bucketSector bid)) es fin) (id : Nat) :
    Shows good cfg m fl C (bucketCursor cfg bid id) (ScanOf cfg bid (fl (bucketSector bid))) := by
  unfold bucketCursor sidxCursor
  simp only [hp.unindexed, Bool.false_eq_true, if_false]
  apply Spec.ret_bind
  apply tells_bind (scanBucketFor_shows hp.valid hl id _)
  intro sc hsc
  apply tells_bind (sidx_when_tells serving_stable _ _)
  exact fun _ _ => tells_ret hsc

/-! The calls that read -/

-- The calls on a blob begin with a lookup of it.
theorem lookup_rule (hp : Plain cfg) {α : Type} {g : Found → LiveSlot → M α} {R : Post World Errno α}
    (hnone : m id = none → ∀ w, Serving cfg m w → R.err .ENOENT w)
    (hsome : ∀ found live, found.live = some live → Located cfg m fl id found →
      bucketHdrValid (fl (bucketSector (cfg.idToBucket id))) (cfg.idToBucket id) = true →
      Spec (History good) (Reading (Serving cfg m) fl) (g found live) R) :
    Spec (History good) (Reading (Serving cfg m) fl)
      (do
        let formatted ← readBucketHdr cfg (cfg.idToBucket id)
        if !formatted then Proc.fail .ENOENT
        else do
          let found ← findLiveSlot cfg (cfg.idToBucket id) id
          match found.live with
          | none => Proc.fail .ENOENT
          | some live => g found live) R := by
  apply Spec.assuming (φ := Holding cfg m fl)
  . rintro w ⟨h, rfl⟩
    exact h.holds
  intro hholds
  apply (readBucketHdr_shows hp.unindexed _).andThen
  rintro _ rfl
  split
  . next hno =>
    apply Spec.fail
    rintro w ⟨h, -⟩
    refine hnone ?_ w h
    rw [← hholds.contents]
    unfold contents
    rw [contentOf_unformatted (by simpa using hno), Option.map_none]
  . next hyes =>
    have hyes : bucketHdrValid (fl (bucketSector (cfg.idToBucket id))) (cfg.idToBucket id) = true := by
      simpa using hyes
    obtain ⟨es, fin, hl⟩ := hholds.logged (idToBucket_lt hp.valid id) hyes
    apply (findLiveSlot_shows hp hl hholds.contents).andThen
    intro found hfound
    cases hlive : found.live with
    | none =>
      apply Spec.fail
      rintro w ⟨h, -⟩
      refine hnone ?_ w h
      rw [← hfound.payload, hlive]
      rfl
    | some live => exact hsome found live hlive hfound hyes

-- The answer of a call that changes nothing is `out`.
abbrev Replies (good : Event → Prop) (cfg : Cfg) (m : Contents) {α : Type} (x : M α) (out : Out Errno α) :
    Prop :=
  Spec (History good) (fun w => w.st.mounted = true ∧ Serving cfg m w) x
    ⟨fun a w => out = .ok a ∧ Serving cfg m w, fun e w => out = .err e ∧ Serving cfg m w, fun _ => False⟩

-- A reader of the blob `id`, by what it makes of its payload.
def Contents.reply {α : Type} (m : Contents) (id : Nat) (f : List UInt8 → Out Errno α) : Out Errno α :=
  match m id with
  | none => .err .ENOENT
  | some payload => f payload

theorem Located.some {found : Found} {live : LiveSlot} (h : Located cfg m fl id found)
    (hlive : found.live = some live) : m id = .some live.payload := by
  rw [← h.payload, hlive]
  rfl

-- The calls look at the session first.
theorem replies_of_state {α : Type} {g : St → M α} {out : Out Errno α}
    (hg : ∀ st fl, st.mounted = true → Spec (History good) (Reading (Serving cfg m) fl) (g st)
      ⟨fun a w => out = .ok a ∧ Serving cfg m w, fun e w => out = .err e ∧ Serving cfg m w,
        fun _ => False⟩) :
    Replies good cfg m (getSt >>= g) out := by
  apply getSt_bind
  intro st
  apply Spec.assuming (φ := st.mounted = true)
  . rintro w ⟨rfl, h, -⟩
    exact h
  intro hmounted
  apply (Spec.given fun fl => hg st fl hmounted).pre
  exact fun w h => ⟨w.flash, h.2.2, rfl⟩

theorem reader_replies (hp : Plain cfg) {α : Type} {g : LiveSlot → M α} {f : List UInt8 → Out Errno α}
    (hg : ∀ live, m id = some live.payload → live.head.valLen = live.payload.length →
      Spec (History good) (Reading (Serving cfg m) fl) (g live)
        ⟨fun a w => f live.payload = .ok a ∧ Serving cfg m w,
          fun e w => f live.payload = .err e ∧ Serving cfg m w, fun _ => False⟩) :
    Spec (History good) (Reading (Serving cfg m) fl)
      (do
        let formatted ← readBucketHdr cfg (cfg.idToBucket id)
        if !formatted then Proc.fail .ENOENT
        else do
          let found ← findLiveSlot cfg (cfg.idToBucket id) id
          match found.live with
          | none => Proc.fail .ENOENT
          | some live => g live)
      ⟨fun a w => m.reply id f = .ok a ∧ Serving cfg m w,
        fun e w => m.reply id f = .err e ∧ Serving cfg m w, fun _ => False⟩ := by
  apply lookup_rule hp (g := fun _ => g)
  . intro hm w h
    unfold Contents.reply
    rw [hm]
    exact ⟨rfl, h⟩
  . intro found live hlive hfound _
    unfold Contents.reply
    rw [hfound.some hlive]
    exact hg live (hfound.some hlive) (hfound.length live hlive)

theorem zero_replies (hp : Plain cfg) {α : Type} {f : List UInt8 → Out Errno α} (hid : id = 0) :
    Spec (History good) (Reading (Serving cfg m) fl) (Proc.fail .ENOENT : M α)
      ⟨fun a w => m.reply id f = .ok a ∧ Serving cfg m w,
        fun e w => m.reply id f = .err e ∧ Serving cfg m w, fun _ => False⟩ := by
  apply Spec.fail
  rintro w ⟨h, -⟩
  unfold Contents.reply
  rw [hid, h.holds.zero hp.valid]
  exact ⟨rfl, h⟩

theorem readImpl_replies (hp : Plain cfg) (id offset len : Nat) :
    Replies good cfg m (readImpl cfg id offset len)
      (m.reply id fun payload => .ok ((payload.drop offset).take len)) := by
  unfold readImpl
  apply replies_of_state
  intro st fl hmounted
  simp only [hmounted, hp.inline, Bool.not_true, Bool.false_and, Bool.false_eq_true, if_false]
  split
  . next hid => exact zero_replies hp hid
  . apply reader_replies hp
    intro live _ _
    exact Spec.ret fun w h => ⟨rfl, h.1⟩

theorem getImpl_replies (hp : Plain cfg) (id outSz : Nat) :
    Replies good cfg m (getImpl cfg id outSz)
      (m.reply id fun payload => if outSz < payload.length then .err .ENOMEM else .ok payload) := by
  unfold getImpl
  apply replies_of_state
  intro st fl hmounted
  simp only [hmounted, hp.inline, Bool.not_true, Bool.false_and, Bool.false_eq_true, if_false]
  split
  . next hid => exact zero_replies hp hid
  . apply reader_replies hp
    intro live _ hlen
    rw [hlen]
    split
    . exact Spec.fail fun w h => ⟨rfl, h.1⟩
    . exact Spec.ret fun w h => ⟨rfl, h.1⟩

theorem sizeImpl_replies (hp : Plain cfg) (id : Nat) :
    Replies good cfg m (sizeImpl cfg id) (m.reply id fun payload => .ok payload.length) := by
  unfold sizeImpl
  apply replies_of_state
  intro st fl hmounted
  simp only [hmounted, hp.inline, Bool.not_true, Bool.false_and, Bool.false_eq_true, if_false]
  split
  . next hid => exact zero_replies hp hid
  . apply reader_replies hp
    intro live _ hlen
    rw [hlen]
    exact Spec.ret fun w h => ⟨rfl, h.1⟩

-- An error that is caught: there is none.
theorem Shows.attemptThen {α β : Type} {x : M α} {g : Except Errno α → M β} {P : α → Prop}
    {R : Post World Errno β} (hx : Shows good cfg m fl R.cut x P)
    (hg : ∀ a, P a → Spec (History good) (Reading (Serving cfg m) fl) (g (.ok a)) R) :
    Spec (History good) (Reading (Serving cfg m) fl) (Proc.attempt x >>= g) R := by
  apply hx.attempt.bind
  . rintro (e | a)
    . rintro w ⟨h | ⟨h, -⟩, -⟩
      . exact h.elim
      . exact h.elim
    . exact Spec.fact fun h => hg a h
  . exact fun _ _ h => h.elim
  . exact fun _ h => h

theorem existsImpl_replies (hp : Plain cfg) (id : Nat) :
    Replies good cfg m (existsImpl cfg id) (.ok (m id).isSome) := by
  unfold existsImpl
  apply replies_of_state
  intro st fl hmounted
  simp only [hmounted, hp.inline, Bool.not_true, Bool.false_or, Bool.false_and]
  apply Spec.assuming (φ := Holding cfg m fl)
  . rintro w ⟨h, rfl⟩
    exact h.holds
  intro hholds
  split
  . next hid =>
    apply Spec.ret
    rintro w ⟨h, -⟩
    rw [beq_iff_eq.mp hid, hholds.zero hp.valid]
    exact ⟨rfl, h⟩
  . apply (readBucketHdr_shows hp.unindexed _).attemptThen
    rintro formatted hformatted
    cases formatted with
    | false =>
      apply Spec.ret
      rintro w ⟨h, -⟩
      refine ⟨?_, h⟩
      rw [← hholds.contents]
      unfold contents
      rw [contentOf_unformatted hformatted.symm, Option.map_none]
      rfl
    | true =>
      obtain ⟨es, fin, hl⟩ := hholds.logged (idToBucket_lt hp.valid id) hformatted.symm
      apply (findLiveSlot_shows hp hl hholds.contents).attemptThen
      intro found hfound
      simp only
      rw [← hfound.payload]
      cases found.live with
      | none => exact Spec.ret fun w h => ⟨rfl, h.1⟩
      | some live => exact Spec.ret fun w h => ⟨rfl, h.1⟩

theorem readRc_replies {α : Type} {x : M α} {out : Out Errno α} (hx : Replies good cfg m x out)
    (hno : out ≠ .err .ENOTSUP) : Replies good cfg m (readRc x) out := by
  unfold readRc
  apply hx.attempt.bind
  . rintro (e | a)
    . cases e with
      | ENOTSUP => exact fun w h => absurd h.1 hno
      | _ => exact Spec.fail fun _ h => h
    . exact Spec.ret fun _ h => h
  . exact fun _ _ h => h.elim
  . exact fun _ h => h

end

end KeyValueDb.BlobDb
