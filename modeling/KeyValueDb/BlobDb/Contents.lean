import KeyValueDb.BlobDb.SweepEnds

/-!
What a store holds: a payload for each id that has a live slot. A power cut leaves a bucket with
nothing in it yet, or with a log behind which there is at most a torn slot header, and of what a
bucket holds a torn slot changes nothing.
-/

namespace KeyValueDb.BlobDb

abbrev Contents := Nat → Option (List UInt8)

variable (cfg : Cfg)

def contents (fl : Flash) : Contents := fun id => (contentOf cfg fl id).map Stored.payload

-- The build without its two options: no slot index, and no payload larger than a slot.
structure Plain : Prop where
  valid : cfg.Valid
  inline : cfg.large = false
  unindexed : cfg.slotIndex = false

-- A bucket with a log, each of whose intact slots lies in the bucket of its id.
structure Logged (bid : Nat) (f : Sector) (es : List Entry) (fin : Nat) : Prop where
  header : bucketHdrValid f bid = true
  log : BucketLog cfg f es fin
  tail : Clean cfg f fin ∨ Torn cfg f fin
  home : ∀ x ∈ es, x.intact = true → cfg.idToBucket x.head.id = bid ∧ x.head.id ≠ 0

-- A bucket as a run leaves it: no slot was ever begun, or it has a log.
def Kempt (bid : Nat) (f : Sector) : Prop :=
  Clean cfg f bucketDataOff ∨ ∃ es fin, Logged cfg bid f es fin

-- The buckets of a flash hold `m`.
structure Holding (m : Contents) (fl : Flash) : Prop where
  kempt : ∀ bid, bid < cfg.nBuckets → Kempt cfg bid (fl (bucketSector bid))
  contents : contents cfg fl = m

-- What an interrupted slot write must leave: the slot fails its checksum, unless all of it is there.
def SlotHonest : Event → Prop
  | .mutation m => ∀ off data part upper, m.request = .write off data → m.fault = .cut part upper →
    firstBucket ≤ m.sector → slotIntactAt (m.after m.sector) off (slotHdrAt (m.after m.sector) off).valLen →
      m.after m.sector = m.request.whole (m.before m.sector)
  | .alloc _ => True

section

variable {cfg} {fl fl' : Flash} {f : Sector} {bid id fin : Nat} {es : List Entry}

theorem contentOf_same (h : fl' (bucketSector (cfg.idToBucket id)) = fl (bucketSector (cfg.idToBucket id))) :
    contentOf cfg fl' id = contentOf cfg fl id := by
  unfold contentOf
  rw [h]

theorem contentOf_logged (hv : cfg.Valid)
    (h : Logged cfg (cfg.idToBucket id) (fl (bucketSector (cfg.idToBucket id))) es fin) :
    contentOf cfg fl id = liveIn es id := by
  unfold contentOf
  simp only [h.header, if_true, h.log.entries hv]

-- Where no slot begins there is no log.
theorem Clean.empty (h : Clean cfg f bucketDataOff) : BucketLog cfg f [] bucketDataOff :=
  ⟨.nil _, h.stop⟩

theorem contentOf_empty (hv : cfg.Valid)
    (h : Clean cfg (fl (bucketSector (cfg.idToBucket id))) bucketDataOff) : contentOf cfg fl id = none := by
  unfold contentOf
  simp only [h.empty.entries hv]
  split
  . rfl
  . rfl

theorem Clean.logged (h : Clean cfg f bucketDataOff) (hhdr : bucketHdrValid f bid = true) :
    Logged cfg bid f [] bucketDataOff :=
  ⟨hhdr, h.empty, .inl h, fun _ hx => by cases hx⟩

-- A bucket with a header has a log.
theorem Kempt.logged (h : Kempt cfg bid f) (hhdr : bucketHdrValid f bid = true) :
    ∃ es fin, Logged cfg bid f es fin := by
  rcases h with h | h
  . exact ⟨_, _, h.logged hhdr⟩
  . exact h

-- And one without has no slots.
theorem Kempt.blank (h : Kempt cfg bid f) (hhdr : bucketHdrValid f bid = false) :
    Clean cfg f bucketDataOff := by
  rcases h with h | ⟨es, fin, h⟩
  . exact h
  . rw [h.header] at hhdr
    cases hhdr

theorem Torn.native (hv : cfg.Valid) (h : Torn cfg f fin) : slotForeignAt cfg f fin = false := by
  unfold slotForeignAt
  split
  . rfl
  . have hends := h.ends hv
    simp [slotForeignHead, show ¬ (slotHdrAt f fin).valLen ≤ cfg.maxPayloadLen by omega]

theorem Logged.native (hv : cfg.Valid) (h : Logged cfg bid f es fin) : slotForeignAt cfg f fin = false := by
  rcases h.tail with hc | ht
  . exact hc.not_foreign
  . exact ht.native hv

theorem Torn.tail (hv : cfg.Valid) (h : Torn cfg f fin) : tornTail cfg f fin = true := by
  simp [tornTail, h.room, h.head, h.native hv]

-- The largest slot is longer than the part of a header that is torn.
theorem Logged.mayDropTail (hv : cfg.Valid) (h : Logged cfg bid f es fin) :
    compactionMayDropTail cfg f fin = .ok () := by
  rcases h.tail with hc | ht
  . exact hc.mayDropTail
  . have hge := slotSizeFor_ge cfg cfg.maxPayloadLen
    unfold slotOverhead at hge
    unfold compactionMayDropTail
    rw [h.native hv]
    simp only [Bool.false_eq_true, if_false]
    rw [if_pos]
    rw [allErased_iff]
    intro j h1 h2
    exact ht.erased j (by omega) (by omega)

/-! Appends -/

theorem liveIn_appended {off : Nat} {flags : UInt8} {payload : List UInt8} :
    liveIn (es ++ [appended off flags id payload]) =
      Function.update (liveIn es) id (appended off flags id payload).stored := by
  funext id'
  unfold liveIn
  rw [newest_append, newest_cons, newest_nil, Option.none_or]
  by_cases hid : id' = id
  . subst hid
    simp [appended]
  . rw [Function.update_of_ne hid]
    simp [appended, Ne.symm hid]

-- A slot that fails its checksum says nothing.
theorem liveIn_torn {x : Entry} (h : x.intact = false) : liveIn (es ++ [x]) = liveIn es := by
  funext id
  unfold liveIn
  rw [newest_append, newest_cons, newest_nil, Option.none_or]
  simp [h]

variable {flags : UInt8} {payload : List UInt8}

-- A slot that is written whole.
theorem Logged.append (hv : cfg.Valid) (h : Logged cfg bid f es fin)
    (ha : Appendable cfg f fin flags id payload) (hhome : cfg.idToBucket id = bid) (hid : id ≠ 0) :
    Logged cfg bid (program f fin (slotImage cfg flags id payload))
      (es ++ [appended fin flags id payload]) (fin + cfg.slotSizeFor payload.length) := by
  have hle := h.log.path.le
  obtain ⟨hlog, hclean⟩ := BucketLog.append ha hv h.log.path
  refine ⟨?_, hlog, .inl hclean, ?_⟩
  . rw [bucketHdrValid_congr fun j hj => program_of_lt (by omega)]
    exact h.header
  . intro x hx hi
    rcases List.mem_append.mp hx with hx | hx
    . exact h.home x hx hi
    . rw [List.mem_singleton] at hx
      subst hx
      exact ⟨hhome, hid⟩

-- At most three bytes of a slot do not make one.
theorem Appendable.torn (ha : Appendable cfg f fin flags id payload) {part : Nat}
    (hpos : 0 < part) (hpart : part < 4) :
    Torn cfg (program f fin ((slotImage cfg flags id payload).take part)) fin := by
  have hge := slotSizeFor_ge cfg payload.length
  have hroom := ha.room
  unfold slotOverhead at hge
  refine ⟨?_, by unfold slotOverhead; omega, ?_⟩
  . have hbyte := ha.byte (i := 0) hpos (by omega)
    rw [Nat.add_zero] at hbyte
    rw [hbyte]
    exact ha.flagsOk.1
  . intro j h1 h2
    rw [program_of_ge (by simp only [List.length_take]; omega)]
    exact ha.clean j (by omega) h2

-- A slot that is written in part is whole after all, or it says nothing.
theorem Logged.interrupted (hv : cfg.Valid) (h : Logged cfg bid f es fin)
    (ha : Appendable cfg f fin flags id payload) {part : Nat} {g : Sector}
    (hg : g = program f fin ((slotImage cfg flags id payload).take part))
    (hhonest : slotIntactAt g fin (slotHdrAt g fin).valLen →
      g = program f fin (slotImage cfg flags id payload)) :
    g = program f fin (slotImage cfg flags id payload) ∨
      ∃ es' fin', Logged cfg bid g es' fin' ∧ liveIn es' = liveIn es := by
  have hle := h.log.path.le
  have hhdr : bucketHdrValid g bid = true := by
    rw [hg, bucketHdrValid_congr fun j hj => program_of_lt (by omega)]
    exact h.header
  rcases Nat.lt_or_ge part 4 with hpart | hpart
  . refine .inr ⟨es, fin, ?_, rfl⟩
    rcases Nat.eq_zero_or_pos part with rfl | hpos
    . rw [hg, List.take_zero, program_nil]
      exact h
    . have htorn := ha.torn hpos hpart
      rw [← hg] at htorn
      have hpath : Path cfg g bucketDataOff es fin :=
        h.log.path.congr fun j _ hj => by rw [hg, program_of_lt hj]
      exact ⟨hhdr, ⟨hpath, htorn.stop hv⟩, .inr htorn, h.home⟩
  . cases hi : slotIntactAt g fin (slotHdrAt g fin).valLen with
    | true => exact .inl (hhonest hi)
    | false =>
      have hlog := ha.snoc hv h.log.path hpart
      have hclean := ha.clean_after part
      rw [← hg] at hlog hclean
      refine .inr ⟨_, _, ⟨hhdr, hlog, .inl hclean, ?_⟩, liveIn_torn hi⟩
      intro x hx hxi
      rcases List.mem_append.mp hx with hx | hx
      . exact h.home x hx hxi
      . rw [List.mem_singleton] at hx
        subst hx
        have hxi : slotIntactAt g fin (slotHdrAt g fin).valLen = true := hxi
        rw [hi] at hxi
        cases hxi

/-! Compactions -/

-- A compaction keeps what counts, and leaves nothing behind it.
theorem Packed.logged (h : Packed cfg bid es f)
    (hhome : ∀ x ∈ es, x.intact = true → cfg.idToBucket x.head.id = bid ∧ x.head.id ≠ 0) :
    Logged cfg bid f (repack cfg bucketDataOff (survivors es))
      (bucketDataOff + ((survivors es).map (Entry.size cfg)).sum) := by
  refine ⟨h.header, h.log, .inl h.clean, ?_⟩
  intro x hx hi
  obtain ⟨y, hy, hhead, -, hintact⟩ := mem_repack hx
  rw [hhead]
  exact hhome y (mem_survivors hy) (hintact ▸ hi)

theorem Packed.liveIn (es : List Entry) :
    liveIn (repack cfg bucketDataOff (survivors es)) = BlobDb.liveIn es := by
  funext id
  rw [liveIn_repack, liveIn_survivors]

-- The image that a compaction makes of a bucket.
theorem Logged.image (hv : cfg.Valid) (hbid : bid < 2 ^ 16) (h : Logged cfg bid f es fin) :
    ∃ buf len, buildCompactedImage cfg f bid = (buf, len, fin) ∧
      compactionMayDropTail cfg buf fin = .ok () ∧ bucketDataOff ≤ len ∧ len ≤ cfg.pebSize ∧
      (∃ rest, bytesAt buf 0 len = bucketHdrBytes bid (leAt f 8 4 + 1) ++ rest) ∧
      Packed cfg bid es (KeyValueDb.image (bytesAt buf 0 len)) := by
  obtain ⟨buf, len, hb, hlog, hclean, hbytes, htail⟩ := buildCompactedImage_spec hv h.log bid
  have hlen : len = bucketDataOff + ((survivors es).map (Entry.size cfg)).sum := by
    rw [← hlog.path.sum_size, sum_repack]
  have hhdr := bucketHdrBytes_length bid (leAt f 8 4 + 1)
  refine ⟨buf, len, hb, ?_, by omega, hlog.path.fin_le (bucketDataOff_le hv), ⟨_, hbytes⟩, ?_⟩
  . rw [compactionMayDropTail_congr htail]
    exact h.mayDropTail hv
  . refine ⟨?_, hlen ▸ hlog, hlen ▸ hclean⟩
    apply bucketHdrValid_written hbid
    rw [hbytes, ← program_blank, ← hhdr]
    exact (bytesAt_split (bytesAt_program fun _ _ _ => rfl)).1

/-! Headers -/

theorem Clean.erase_part (h : Clean cfg f bucketDataOff) (part : Nat) (upper : Bool) :
    Clean cfg (Request.partly f part upper .erase) bucketDataOff := by
  intro j h1 h2
  have hj := h j h1 h2
  simp only [Request.partly]
  split
  . unfold eraseFrom
    split
    . rfl
    . exact hj
  . unfold eraseBelow
    split
    . rfl
    . exact hj

-- However much of a header is written, there is no slot behind it.
theorem clean_header (cfg : Cfg) {data : List UInt8} (hlen : data.length ≤ bucketDataOff) :
    Clean cfg (program blank 0 data) bucketDataOff := by
  intro j h1 _
  rw [program_of_ge (by omega)]
  rfl

theorem clean_image (cfg : Cfg) {data : List UInt8} (hlen : data.length ≤ bucketDataOff) :
    Clean cfg (image data) bucketDataOff := by
  rw [← program_blank]
  exact clean_header cfg hlen

/-! What the buckets hold -/

theorem Holding.congr {m : Contents} (h : Holding cfg m fl)
    (hf : ∀ b, fl' (bucketSector b) = fl (bucketSector b)) : Holding cfg m fl' := by
  refine ⟨fun b hb => hf b ▸ h.kempt b hb, ?_⟩
  rw [← h.contents]
  funext i
  unfold BlobDb.contents
  rw [contentOf_same (hf _)]

-- A change of one bucket.
theorem Holding.change {m m' : Contents} (h : Holding cfg m fl)
    (hf : ∀ b, b ≠ bid → fl' (bucketSector b) = fl (bucketSector b))
    (hk : Kempt cfg bid (fl' (bucketSector bid))) (hm : ∀ i, cfg.idToBucket i ≠ bid → m' i = m i)
    (hc : ∀ i, cfg.idToBucket i = bid → (contentOf cfg fl' i).map Stored.payload = m' i) :
    Holding cfg m' fl' := by
  refine ⟨?_, ?_⟩
  . intro b hb
    by_cases hne : b = bid
    . subst hne
      exact hk
    . exact hf b hne ▸ h.kempt b hb
  . funext i
    by_cases hi : cfg.idToBucket i = bid
    . exact hc i hi
    . rw [hm i hi, ← h.contents]
      unfold BlobDb.contents
      rw [contentOf_same (hf _ hi)]

-- A bucket whose log says of each id what it said.
theorem Holding.relog {m : Contents} {es' : List Entry} {fin' : Nat} (hv : cfg.Valid)
    (h : Holding cfg m fl) (hf : ∀ b, b ≠ bid → fl' (bucketSector b) = fl (bucketSector b))
    (hl : Logged cfg bid (fl (bucketSector bid)) es fin)
    (hl' : Logged cfg bid (fl' (bucketSector bid)) es' fin') (hlive : liveIn es' = liveIn es) :
    Holding cfg m fl' := by
  apply h.change hf (.inr ⟨_, _, hl'⟩) (fun _ _ => rfl)
  rintro i rfl
  rw [contentOf_logged hv hl', hlive, ← contentOf_logged hv hl, ← h.contents]
  rfl

-- A bucket without slots, before and after.
theorem Holding.reformat {m : Contents} (hv : cfg.Valid) (h : Holding cfg m fl)
    (hf : ∀ b, b ≠ bid → fl' (bucketSector b) = fl (bucketSector b))
    (hc : Clean cfg (fl (bucketSector bid)) bucketDataOff)
    (hc' : Clean cfg (fl' (bucketSector bid)) bucketDataOff) : Holding cfg m fl' := by
  apply h.change hf (.inl hc') (fun _ _ => rfl)
  rintro i rfl
  rw [contentOf_empty hv hc', ← contentOf_empty hv hc, ← h.contents]
  rfl

-- The value of an id that a slot with its payload was appended for.
def Stored.ofAppend (flags : UInt8) (payload : List UInt8) : Option (List UInt8) :=
  if flags &&& slotTombstone != 0 then none else some payload

theorem Holding.append {m : Contents} (hv : cfg.Valid) (h : Holding cfg m fl)
    (hf : ∀ b, b ≠ cfg.idToBucket id → fl' (bucketSector b) = fl (bucketSector b))
    (hl : Logged cfg (cfg.idToBucket id) (fl (bucketSector (cfg.idToBucket id))) es fin)
    (ha : Appendable cfg (fl (bucketSector (cfg.idToBucket id))) fin flags id payload) (hid : id ≠ 0)
    (hfl' : fl' (bucketSector (cfg.idToBucket id)) =
      program (fl (bucketSector (cfg.idToBucket id))) fin (slotImage cfg flags id payload)) :
    Holding cfg (Function.update m id (Stored.ofAppend flags payload)) fl' := by
  have hl' := hl.append hv ha rfl hid
  rw [← hfl'] at hl'
  apply h.change hf (.inr ⟨_, _, hl'⟩)
  . intro i hi
    rw [Function.update_of_ne]
    rintro rfl
    exact hi rfl
  . intro i hi
    have hli : Logged cfg (cfg.idToBucket i) (fl' (bucketSector (cfg.idToBucket i))) _ _ := hi ▸ hl'
    rw [contentOf_logged hv hli, liveIn_appended]
    by_cases hne : i = id
    . subst hne
      rw [Function.update_self, Function.update_self]
      unfold Entry.stored Entry.tombstone Stored.ofAppend appended
      simp only
      split <;> rfl
    . have hli₀ : Logged cfg (cfg.idToBucket i) (fl (bucketSector (cfg.idToBucket i))) es fin :=
        hi ▸ hl
      rw [Function.update_of_ne hne, Function.update_of_ne hne, ← contentOf_logged hv hli₀,
        ← h.contents]
      rfl

end

end KeyValueDb.BlobDb
