import KeyValueDb.BlobDb.Answers

/-!
The calls that write, through power cuts: from a store that serves a map an update, a write and a
delete leave one that serves the map they should, or refuse and leave the map; cut at any point, they
leave a store that a mount restores to the one or to the other.
-/

namespace KeyValueDb.BlobDb

-- A call from a store that serves `m` to one that serves `m'`. The errors it refuses with are `E`.
def Becomes (cfg : Cfg) (m m' : Contents) (E : Errno → Prop) {α : Type} : Post World Errno α :=
  ⟨fun _ => Serving cfg m', fun e w => E e ∧ Serving cfg m w,
    fun w => Stores cfg m w.flash ∨ Stores cfg m' w.flash⟩

-- A cursor with room for a slot of `ssz` bytes.
structure RoomAt (cfg : Cfg) (bid : Nat) (ssz c : Nat) (w : World) : Prop where
  isOpen : OpenAt cfg bid (w.flash (bucketSector bid)) c
  room : c + ssz ≤ cfg.pebSize

-- What a call that may compact a bucket first finds, or else that the bucket is full.
def Room (cfg : Cfg) (m : Contents) (bid ssz : Nat) {α : Type} (c : α → Nat) (P : α → Prop) :
    Post World Errno α :=
  ⟨fun a w => P a ∧ Serving cfg m w ∧ RoomAt cfg bid ssz (c a) w,
    fun e w => e = .ENOSPC ∧ Serving cfg m w, fun w => Stores cfg m w.flash⟩

theorem splice_length (old : List UInt8) (offset : Nat) (buf : List UInt8) :
    (splice old offset buf).length = max (offset + buf.length) old.length := by
  unfold splice
  simp only [List.length_append, List.length_take, List.length_drop, List.length_replicate]
  omega

-- Byte `i` by where it lies: before the write, in it, or after it.
theorem splice_getD (old : List UInt8) (offset : Nat) (buf : List UInt8) (i : Nat) :
    (splice old offset buf).getD i 0 =
      if offset ≤ i ∧ i < offset + buf.length then buf.getD (i - offset) 0 else old.getD i 0 := by
  have hgrown : offset ≤ (old ++ List.replicate (offset + buf.length - old.length) (0 : UInt8)).length := by
    rw [List.length_append, List.length_replicate]
    omega
  have hbefore := List.length_take_of_le hgrown
  have hzero (j : Nat) : (old ++ List.replicate (offset + buf.length - old.length) (0 : UInt8))[j]?.getD 0 =
      old[j]?.getD 0 := by
    by_cases hj : j < old.length
    . rw [List.getElem?_append_left hj]
    . rw [List.getElem?_append_right (by omega), List.getElem?_replicate,
        List.getElem?_eq_none (Nat.not_lt.mp hj)]
      split <;> rfl
  unfold splice
  simp only [List.getD_eq_getElem?_getD]
  by_cases hi : i < offset
  . rw [List.getElem?_append_left (by omega), List.getElem?_take_of_lt hi, hzero, if_neg (by omega)]
  rw [List.getElem?_append_right (by omega), hbefore]
  by_cases hi' : i < offset + buf.length
  . rw [List.getElem?_append_left (by omega), if_pos (by omega)]
  . rw [List.getElem?_append_right (by omega), List.getElem?_drop, hzero, if_neg (by omega)]
    congr 2
    omega

theorem splice_eq (old : List UInt8) (offset : Nat) (buf : List UInt8) :
    splice old offset buf = overwritten old offset buf := by
  apply List.ext_getElem
  . rw [splice_length, overwritten_length, max_comm]
  intro i hi hi'
  have hbyte := splice_getD old offset buf i
  rw [List.getD_eq_getElem?_getD, List.getElem?_eq_getElem hi, Option.getD_some] at hbyte
  rw [hbyte]
  simp only [overwritten, List.getElem_map, List.getElem_range]

section

variable {cfg : Cfg} {good : Event → Prop} {m m' : Contents} {fl : Flash} {bid id c ssz : Nat}
  {E : Errno → Prop}

theorem slotSizeFor_pos (cfg : Cfg) (n : Nat) : 0 < cfg.slotSizeFor n := by
  have hge := slotSizeFor_ge cfg n
  unfold slotOverhead at hge
  omega

theorem reading_serving {w : World} (h : Serving cfg m w) : Reading (Serving cfg m) w.flash w := ⟨h, rfl⟩

-- A choice between a slot that fits and the error for a full bucket.
theorem fits_spec {α : Type} (k : α → Nat) (P : α → Prop) {a : α} (ha : P a) (hpos : 0 < ssz)
    (hc : CursorAt cfg bid (fl (bucketSector bid)) (k a)) :
    Spec (History good) (Reading (Serving cfg m) fl)
      (if cfg.pebSize < k a + ssz then Proc.fail .ENOSPC else pure a : M α)
      (Room cfg m bid ssz k P) := by
  split
  . exact Spec.fail fun w h => ⟨rfl, h.1⟩
  . next hroom =>
    apply Spec.ret
    rintro w ⟨h, rfl⟩
    exact ⟨ha, h, OpenAt.room hc hroom hpos, Nat.not_lt.mp hroom⟩

section

variable (hp : Plain cfg) (hpow : ∀ u, good (.mutation u) → u.fault.isError = false)

include hp hpow

-- A compaction goes on from the store it leaves.
theorem compact_bind {α : Type} {g : Unit → M α} {R : Post World Errno α} (hbid : bid < cfg.nBuckets)
    (hf : bucketHdrValid (fl (bucketSector bid)) bid = true)
    (hg : ∀ fl' es fin, Logged cfg bid (fl' (bucketSector bid)) es fin → contents cfg fl' = m →
      Spec (History good) (Reading (Serving cfg m) fl') (g ()) R)
    (herr : ∀ w, Serving cfg m w → R.err .ENOSPC w) (hcut : ∀ w, Stores cfg m w.flash → R.cut w) :
    Spec (History good) (Reading (Serving cfg m) fl) (compactBucket cfg bid >>= g) R := by
  apply (compactBucket_serves hpow hp.valid hp.unindexed hbid hf).bind
  . intro _ w h hh
    obtain ⟨es, fin, hl⟩ := h.1.holds.logged hbid h.2
    exact hg w.flash es fin hl h.1.holds.contents w (reading_serving h.1) hh
  . rintro e w ⟨rfl, h, -⟩
    exact herr w h
  . exact hcut

theorem updateRoom_spec (hbid : bid < cfg.nBuckets) (hpos : 0 < ssz)
    (hf : bucketHdrValid (fl (bucketSector bid)) bid = true)
    (hc : CursorAt cfg bid (fl (bucketSector bid)) c) :
    Spec (History good) (Reading (Serving cfg m) fl) (updateRoom cfg bid id ssz c)
      (Room cfg m bid ssz (fun c => c) fun _ => True) := by
  unfold updateRoom
  split
  . apply compact_bind hp hpow hbid hf
    . intro fl' es fin hl _
      apply (bucketCursor_shows hp hl id).andThen
      intro sc hsc
      apply (confirmCursor_shows hp hsc id).andThen
      intro sc' hsc'
      exact fits_spec (fun c => c) (fun _ => True) trivial hpos hsc'
    . exact fun w h => ⟨rfl, h⟩
    . exact fun _ h => h
  . next hroom =>
    apply Spec.ret
    rintro w ⟨h, rfl⟩
    exact ⟨trivial, h, OpenAt.room hc hroom hpos, Nat.not_lt.mp hroom⟩

-- The live slot of an id that the map has, and a cursor with room.
theorem liveWithRoom_spec {found : Found} {payload : List UInt8} (hpos : 0 < ssz)
    (hm : m id = some payload) (hfound : Located cfg m fl id found)
    (hf : bucketHdrValid (fl (bucketSector (cfg.idToBucket id))) (cfg.idToBucket id) = true) :
    Spec (History good) (Reading (Serving cfg m) fl) (liveWithRoom cfg (cfg.idToBucket id) id ssz found)
      (Room cfg m (cfg.idToBucket id) ssz (fun r => r.scan.writeCursor)
        fun r => r.live.map LiveSlot.payload = some payload) := by
  have hbid := idToBucket_lt hp.valid id
  unfold liveWithRoom
  apply (confirmCursor_shows hp hfound.scan id).andThen
  intro sc hsc
  split
  . apply compact_bind hp hpow hbid hf
    . intro fl' es fin hl hcontents
      apply (findLiveSlot_shows hp hl hcontents).andThen
      intro found' hfound'
      cases hlive : found'.live with
      | none =>
        have hsome := hfound'.payload
        rw [hlive, hm] at hsome
        cases hsome
      | some live =>
        apply (confirmCursor_shows hp hfound'.scan id).andThen
        intro sc' hsc'
        have hpayload := hfound'.payload.trans hm
        rw [hlive] at hpayload
        exact fits_spec (a := ⟨sc', some live⟩) (fun r : Found => r.scan.writeCursor)
          (fun r => r.live.map LiveSlot.payload = some payload) hpayload hpos hsc'
    . exact fun w h => ⟨rfl, h⟩
    . exact fun _ h => h
  . next hroom =>
    apply Spec.ret
    rintro w ⟨h, rfl⟩
    exact ⟨hfound.payload.trans hm, h, OpenAt.room hsc hroom hpos, Nat.not_lt.mp hroom⟩

theorem append_changes (hgood : ∀ e, good e → SlotHonest e) {extra : UInt8} {payload : List UInt8}
    (hextra : extra = 0 ∨ extra = slotTombstone) (hid : id ≠ 0) (hid64 : id < 2 ^ 64)
    (hlen : payload.length ≤ cfg.maxPayloadLen) :
    Spec (History good)
      (fun w => Serving cfg m w ∧ RoomAt cfg (cfg.idToBucket id) (cfg.slotSizeFor payload.length) c w)
      (appendSlot cfg (cfg.idToBucket id) c id extra payload)
      (Becomes cfg m (Function.update m id (Stored.ofAppend (slotSealed ||| extra) payload)) E) := by
  intro w h hh
  obtain ⟨hs, ⟨es, hl, hc⟩, hroom⟩ := h
  have hspec := (appendSlot_serves hpow hp hgood hl hc hroom hextra hid hid64 hlen).conseq
    (R := Becomes cfg m (Function.update m id (Stored.ofAppend (slotSealed ||| extra) payload)) E)
    (fun _ h => h) (fun _ _ h => h) (fun _ _ h => h.elim) fun _ h => h
  exact hspec w (reading_serving hs) hh

/-! Updates, deletes and writes -/

omit hp hpow in
-- The calls that write look at the session first.
theorem changes_of_state {α : Type} {st : St} {g : St → M α}
    (hg : st.wedged = false → ∀ fl, Holding cfg m fl →
      Spec (History good) (Reading (Serving cfg m) fl) (g st) (Becomes cfg m m' E)) :
    Spec (History good) (fun w => w.st = st ∧ Serving cfg m w) (getSt >>= g) (Becomes cfg m m' E) := by
  apply getSt_bind
  intro st'
  apply Spec.assuming (φ := st' = st ∧ st.wedged = false)
  . rintro w ⟨rfl, rfl, h⟩
    exact ⟨rfl, h.awake.wedged⟩
  rintro ⟨rfl, hwedged⟩ w ⟨-, -, h⟩ hh
  exact hg hwedged w.flash h.holds w (reading_serving h) hh

theorem updatePlace_spec (hbid : bid < cfg.nBuckets) (hholds : Holding cfg m fl) :
    Spec (History good) (Reading (Serving cfg m) fl)
      (updatePlace cfg (bucketHdrValid (fl (bucketSector bid)) bid) bid id)
      ⟨fun r w => r.2 = [] ∧ Serving cfg m w ∧ Formatted bid w ∧
          CursorAt cfg bid (w.flash (bucketSector bid)) r.1,
        fun _ _ => False, fun w => Stores cfg m w.flash⟩ := by
  unfold updatePlace updateCursor
  simp only [hp.inline, Bool.false_eq_true, if_false]
  split
  . next hno =>
    have hclean := hholds.blank hbid (by simpa using hno)
    have hformat := formatBucket_serves (m := m) hpow hp.valid bid hp.unindexed
    apply Spec.bind (hformat.pre ?_)
    . intro _
      apply Spec.ret
      rintro w ⟨h, hflash⟩
      have hhdr : bucketHdrValid (image (bucketHdrBytes bid 1)) bid = true :=
        bucketHdrValid_written (nBuckets_lt16 cfg hbid) (@image_header cfg _).1
      have hempty := clean_image cfg (bucketHdrBytes_length bid 1).le
      refine ⟨rfl, h, ?_, .inr ?_⟩
      . unfold Formatted
        rw [hflash]
        exact hhdr
      . rw [hflash]
        exact ⟨[], hempty.logged hhdr, hempty⟩
    . exact fun _ _ h => h
    . exact fun _ h => h
    . rintro w ⟨h, rfl⟩
      exact ⟨h, hclean⟩
  . next hyes =>
    have hyes : bucketHdrValid (fl (bucketSector bid)) bid = true := by simpa using hyes
    obtain ⟨es, fin, hl⟩ := hholds.logged hbid hyes
    apply (bucketCursor_shows hp hl id).andThen
    intro sc hsc
    apply (confirmCursor_shows hp hsc id).andThen
    intro sc' hsc'
    apply Spec.ret
    rintro w ⟨h, rfl⟩
    exact ⟨rfl, h, hyes, hsc'⟩

-- Why an update is refused.
def UpdateRefuses (cfg : Cfg) (st : St) (id : Nat) (payload : List UInt8) (e : Errno) : Prop :=
  e = .EINVAL ∧ (id = 0 ∨ st.nextId ≤ id ∨ cfg.maxPayloadLen < payload.length) ∨ e = .ENOSPC

theorem updateImpl_changes (hgood : ∀ e, good e → SlotHonest e) {st : St} (hmounted : st.mounted = true)
    (hid64 : id < 2 ^ 64) (payload : List UInt8) :
    Spec (History good) (fun w => w.st = st ∧ Serving cfg m w) (updateImpl cfg id payload)
      (Becomes cfg m (Function.update m id (some payload)) (UpdateRefuses cfg st id payload)) := by
  have hbid := idToBucket_lt hp.valid id
  unfold updateImpl
  apply changes_of_state
  intro hwedged fl hholds
  simp only [hmounted, hwedged, hp.inline, updateTooLong, Bool.not_true, Bool.false_eq_true, if_false,
    decide_eq_true_eq]
  split
  . next hrange => exact Spec.fail fun w h => ⟨.inl ⟨rfl, by tauto⟩, h.1⟩
  next hrange =>
  split
  . next hlong => exact Spec.fail fun w h => ⟨.inl ⟨rfl, .inr (.inr hlong)⟩, h.1⟩
  next hfits =>
  apply Spec.ret_bind
  apply (readBucketHdr_shows hp.unindexed _).andThen
  rintro _ rfl
  apply (updatePlace_spec hp hpow hbid hholds).bind
  . rintro ⟨c, ids⟩ w ⟨rfl, h, hf, hc⟩ hh
    have hrest : Spec (History good) (Reading (Serving cfg m) w.flash)
        (updateInline cfg (cfg.idToBucket id) id payload c [])
        (Becomes cfg m (Function.update m id (some payload)) (UpdateRefuses cfg st id payload)) := by
      unfold updateInline
      apply (updateRoom_spec hp hpow hbid (slotSizeFor_pos cfg _) hf hc).bind
      . intro c'
        apply Spec.ret_bind
        have happend := append_changes (c := c') (E := UpdateRefuses cfg st id payload) hp hpow hgood (m := m)
          (.inl (rfl : (0 : UInt8) = 0)) (fun h => hrange (.inl h)) hid64 (Nat.not_lt.mp hfits)
        apply (happend.pre fun _ h => h.2).bind
        . exact fun _ => Spec.ret fun _ h => h
        . exact fun _ _ h => h
        . exact fun _ h => h
      . exact fun _ _ h => ⟨.inr h.1, h.2⟩
      . exact fun _ h => .inl h
    exact hrest w (reading_serving h) hh
  . exact fun _ _ h => h.elim
  . exact fun _ h => .inl h

-- Why a delete is refused.
def DeleteRefuses (m : Contents) (id : Nat) (e : Errno) : Prop :=
  e = .ENOENT ∧ m id = none ∨ e = .ENOSPC

theorem deleteImpl_changes (hgood : ∀ e, good e → SlotHonest e) {st : St} (hmounted : st.mounted = true)
    (hid64 : id < 2 ^ 64) :
    Spec (History good) (fun w => w.st = st ∧ Serving cfg m w) (deleteImpl cfg id)
      (Becomes cfg m (Function.update m id none) (DeleteRefuses m id)) := by
  unfold deleteImpl
  apply changes_of_state
  intro hwedged fl hholds
  simp only [hmounted, hwedged, hp.inline, Bool.not_true, Bool.false_eq_true, if_false, Bool.false_and]
  split
  . next hid =>
    apply Spec.fail
    rintro w ⟨h, -⟩
    refine ⟨.inl ⟨rfl, ?_⟩, h⟩
    rw [hid]
    exact hholds.zero hp.valid
  next hid =>
  apply Spec.ret_bind
  apply lookup_rule hp
  . exact fun hm w h => ⟨.inl ⟨rfl, hm⟩, h⟩
  intro found live hlive hfound hf
  have hroom := liveWithRoom_spec (m := m) hp hpow (slotSizeFor_pos cfg 0) (hfound.some hlive) hfound hf
  apply hroom.bind
  . intro found'
    unfold deleteOutgoing
    simp only [hp.inline, Bool.false_and, Bool.false_eq_true, if_false]
    apply Spec.ret_bind
    have happend := append_changes (c := found'.scan.writeCursor) (E := DeleteRefuses m id) hp hpow hgood
      (m := m) (.inr rfl) hid hid64 (show ([] : List UInt8).length ≤ _ from Nat.zero_le _)
    apply (happend.pre fun _ h => h.2).bind
    . exact fun _ => Spec.ret fun _ h => h
    . exact fun _ _ h => h
    . exact fun _ h => h
  . exact fun _ _ h => ⟨.inr h.1, h.2⟩
  . exact fun _ h => .inl h

-- Why a write is refused.
def WriteRefuses (cfg : Cfg) (m : Contents) (id offset : Nat) (buf : List UInt8) (e : Errno) : Prop :=
  e = .ENOENT ∧ m id = none ∨ e = .EINVAL ∧ cfg.sizeLim ≤ offset + buf.length ∨
    e = .EFBIG ∧ (∃ old, m id = some old ∧ cfg.maxPayloadLen < max (offset + buf.length) old.length) ∨
    e = .ENOSPC

-- What a write makes of the map. A write of no bytes leaves it.
def Contents.written (m : Contents) (id offset : Nat) (buf : List UInt8) : Contents :=
  match m id with
  | none => m
  | some old => if buf = [] then m else Function.update m id (some (overwritten old offset buf))

theorem writeImpl_changes (hgood : ∀ e, good e → SlotHonest e) {st : St} (hmounted : st.mounted = true)
    (hid64 : id < 2 ^ 64) (offset : Nat) (buf : List UInt8) :
    Spec (History good) (fun w => w.st = st ∧ Serving cfg m w) (writeImpl cfg id offset buf)
      (Becomes cfg m (m.written id offset buf) (WriteRefuses cfg m id offset buf)) := by
  unfold writeImpl
  apply changes_of_state
  intro hwedged fl hholds
  simp only [hmounted, hwedged, hp.inline, Bool.not_true, Bool.false_eq_true, if_false, Bool.false_and]
  split
  . next hid =>
    apply Spec.fail
    rintro w ⟨h, -⟩
    refine ⟨.inl ⟨rfl, ?_⟩, h⟩
    rw [hid]
    exact hholds.zero hp.valid
  next hid =>
  split
  . next hsize => exact Spec.fail fun w h => ⟨.inr (.inl ⟨rfl, hsize⟩), h.1⟩
  apply Spec.ret_bind
  apply lookup_rule hp
  . exact fun hm w h => ⟨.inl ⟨rfl, hm⟩, h⟩
  intro found live hlive hfound hf
  have hm := hfound.some hlive
  have hlen := hfound.length live hlive
  simp only [hfound.inline live hlive, bne_self_eq_false, Bool.false_eq_true, if_false, hlen]
  unfold Contents.written
  rw [hm]
  simp only
  split
  . next hempty =>
    rw [if_pos (List.isEmpty_iff.mp hempty)]
    exact Spec.ret fun _ h => h.1
  next hbuf =>
  rw [if_neg fun h => hbuf (List.isEmpty_iff.mpr h)]
  split
  . next hbig => exact Spec.fail fun w h => ⟨.inr (.inr (.inl ⟨rfl, live.payload, hm, hbig⟩)), h.1⟩
  next hfits =>
  have hroom := liveWithRoom_spec (m := m) hp hpow
    (slotSizeFor_pos cfg (max (offset + buf.length) live.payload.length)) hm hfound hf
  apply hroom.bind
  . intro found'
    apply Spec.fact
    intro (hpayload : found'.live.map LiveSlot.payload = some live.payload)
    obtain ⟨live', hlive', hold⟩ := Option.map_eq_some_iff.mp hpayload
    rw [hlive']
    simp only [hold]
    rw [← splice_length, splice_eq] at hfits
    rw [← splice_length, splice_eq]
    exact append_changes hp hpow hgood (.inl rfl) hid hid64 (Nat.not_lt.mp hfits)
  . exact fun _ _ h => ⟨.inr (.inr (.inr h.1)), h.2⟩
  . exact fun _ h => .inl h

/-! Maintenance -/

omit hp hpow in
theorem quiet_steps {C : World → Prop} {f : St → St} (hf : ∀ st, (f st).hard = st.hard) :
    Steps good (Serving cfg m) (modifySt f) (fun _ => Serving cfg m) C :=
  cache_reads serving_stable hf

-- A bucket that is formatted ahead of its first write holds nothing.
theorem preformatStep_steps (format : Bool) (n : Nat) :
    Steps good (Serving cfg m) (preformatStep cfg format n) (fun _ => Serving cfg m)
      fun w => Stores cfg m w.flash := by
  have hscanned : Steps good (Serving cfg m)
      (modifySt fun st => { st with maintScanned := st.maintScanned + 1 }) (fun _ => Serving cfg m)
      fun w => Stores cfg m w.flash := quiet_steps fun _ => rfl
  induction n with
  | zero => exact Spec.ret fun _ h => h
  | succ n ih =>
    unfold preformatStep
    apply getSt_bind
    intro st
    refine Spec.pre ?_ fun _ h => h.2
    simp only
    split
    . exact Spec.ret fun _ h => h
    split
    . exact hscanned.andThen fun _ => ih
    generalize hbid : (st.maintStart + st.maintScanned) % cfg.nBuckets = bid
    have hlt : bid < cfg.nBuckets := by
      rw [← hbid]
      exact Nat.mod_lt _ (Nat.zero_lt_of_lt (idToBucket_lt hp.valid 0))
    intro w h
    have hpeek : Shows good cfg m w.flash (fun w => Stores cfg m w.flash)
        (storeRead (bucketSector bid) 0 bucketDataOff) _ :=
      storeRead_tells serving_stable.readClosed serving_failsTo _ _ _
    refine (hpeek.andThen (R := ⟨fun _ => Serving cfg m, fun _ _ => False, fun w => Stores cfg m w.flash⟩)
      ?_) w (reading_serving h)
    rintro _ rfl
    have hhdr : bucketHdrValid (image (bytesAt (w.flash (bucketSector bid)) 0 bucketDataOff)) bid =
        bucketHdrValid (w.flash (bucketSector bid)) bid :=
      bucketHdrValid_congr fun j hj => by rw [image_bytesAt hj, Nat.zero_add]
    rw [hhdr]
    split
    . exact (hscanned.andThen fun _ => ih).pre fun _ h => h.1
    next hno =>
    split
    . exact Spec.ret fun _ h => h.1
    . have hclean := h.holds.blank hlt (by simpa using hno)
      have hformat := formatBucket_serves (m := m) hpow hp.valid bid hp.unindexed
      refine Steps.andThen (hformat.pre ?_) ?_
      . rintro w' ⟨h', hsame⟩
        exact ⟨h', hsame ▸ hclean⟩
      . intro _
        exact (hscanned.andThen fun _ => Spec.ret fun _ h => h).pre fun _ h => h.1

theorem preformatSteps_steps (budget n performed : Nat) :
    Steps good (Serving cfg m) (preformatSteps cfg budget n performed) (fun _ => Serving cfg m)
      fun w => Stores cfg m w.flash := by
  induction n generalizing performed with
  | zero => exact Spec.ret fun _ h => h
  | succ n ih =>
    unfold preformatSteps
    apply (preformatStep_steps hp hpow _ _).andThen
    intro formatted
    split
    . exact ih _
    . exact Spec.ret fun _ h => h

theorem maintainImpl_steps {st : St} (hmounted : st.mounted = true) (budget : Nat) :
    Steps good (fun w => w.st = st ∧ Serving cfg m w) (maintainImpl cfg budget) (fun _ => Serving cfg m)
      fun w => Stores cfg m w.flash := by
  unfold maintainImpl
  apply getSt_bind
  intro st'
  apply Spec.assuming (φ := st' = st ∧ st.wedged = false)
  . rintro w ⟨rfl, rfl, h⟩
    exact ⟨rfl, h.awake.wedged⟩
  rintro ⟨rfl, hwedged⟩
  refine Spec.pre ?_ fun _ h => h.2.2
  simp only [hmounted, hwedged, Bool.not_true, Bool.false_eq_true, if_false]
  split
  . apply (preformatSteps_steps hp hpow _ _ _).andThen
    intro performed
    apply getSt_bind
    exact fun _ => Spec.ret fun _ h => h.2
  . exact Spec.ret fun _ h => h

end

end

end KeyValueDb.BlobDb
