import KeyValueDb.BlobDb.Frame

/-!
One master sector: its header, the log behind it, and what a write or an erase that took effect only
in part leaves of it, as long as no checksum verifies by accident.
-/

namespace KeyValueDb.BlobDb

variable (cfg : Cfg)

def recOk (rotGen : Nat) (buf : Sector) (i : Nat) : Bool :=
  masterRecOk rotGen buf (masterRecOff cfg i) i

def recAt (buf : Sector) (i : Nat) : MasterRec := masterRecAt buf (masterRecOff cfg i)

def recErased (buf : Sector) (i : Nat) : Bool := allErased buf (masterRecOff cfg i) cfg.recSize

-- The newest record below slot `n` that verifies.
def newestBelow (rotGen : Nat) (buf : Sector) : Nat → Option (Nat × MasterRec)
  | 0 => none
  | n + 1 => if recOk cfg rotGen buf n then some (n, recAt cfg buf n) else newestBelow rotGen buf n

-- A header this build accepts, `n` written slots, and erased ones after them.
structure Log (buf : Sector) (rotGen n : Nat) : Prop where
  ok : masterClassOf buf = .ok
  accept : masterAccept cfg (masterHdrAt buf) = true
  rot : (masterHdrAt buf).rotGen = rotGen
  le : n ≤ cfg.logCap
  written : ∀ i, i < n → recErased cfg buf i = false
  erased : ∀ i, n ≤ i → i < cfg.logCap → recErased cfg buf i = true

theorem Log.unique {cfg : Cfg} {buf : Sector} {rot n rot' n' : Nat} (h : Log cfg buf rot n)
    (h' : Log cfg buf rot' n') : rot = rot' ∧ n = n' := by
  refine ⟨h.rot.symm.trans h'.rot, ?_⟩
  have hle := h.le
  have hle' := h'.le
  by_contra hne
  rcases Nat.lt_or_gt_of_ne hne with hlt | hlt
  . have := h'.written n hlt
    rw [h.erased n (Nat.le_refl n) (by omega)] at this
    cases this
  . have := h.written n' hlt
    rw [h'.erased n' (Nat.le_refl n') (by omega)] at this
    cases this

-- A sector that mount neither adopts nor refuses.
def NotOk (buf : Sector) : Prop := masterClassOf buf ≠ .ok ∧ masterClassOf buf ≠ .foreign

-- No checksum verifies by accident: what verifies in `a` stood in `b` or belongs to the intended
-- contents `g`.
structure MasterHonest (b g a : Sector) : Prop where
  pre : masterPrefixOk a = true → bytesAt a 0 12 = bytesAt b 0 12 ∨ bytesAt a 0 12 = bytesAt g 0 12
  hdr : masterClassOf a = .ok → bytesAt a 0 masterHdrLen = bytesAt b 0 masterHdrLen ∨
    bytesAt a 0 masterHdrLen = bytesAt g 0 masterHdrLen
  record : ∀ i, recOk cfg (leAt a 12 4) a i = true →
    bytesAt a (masterRecOff cfg i) masterRecLen = bytesAt b (masterRecOff cfg i) masterRecLen ∨
      bytesAt a (masterRecOff cfg i) masterRecLen = bytesAt g (masterRecOff cfg i) masterRecLen

section

variable {cfg}

theorem roundUp_ge {n a : Nat} (ha : 0 < a) : n ≤ roundUp n a := by
  unfold roundUp
  have h := Nat.div_add_mod (n + a - 1) a
  have hlt := Nat.mod_lt (n + a - 1) ha
  rw [Nat.mul_comm] at h
  omega

theorem writeAlign_pos : 0 < cfg.writeAlign := by
  unfold Cfg.writeAlign
  split <;> omega

theorem recSize_ge : masterRecLen ≤ cfg.recSize := roundUp_ge writeAlign_pos

theorem masterRecOff_succ (i : Nat) : masterRecOff cfg (i + 1) = masterRecOff cfg i + cfg.recSize := by
  unfold masterRecOff
  rw [Nat.add_mul, Nat.one_mul]
  omega

theorem masterRecOff_lt (cfg : Cfg) {i j : Nat} (h : i < j) :
    masterRecOff cfg i + cfg.recSize ≤ masterRecOff cfg j := by
  rw [← masterRecOff_succ]
  unfold masterRecOff
  have := Nat.mul_le_mul_right cfg.recSize (show i + 1 ≤ j from h)
  omega

theorem masterRecOff_ge (cfg : Cfg) (i : Nat) : masterLogOff ≤ masterRecOff cfg i := Nat.le_add_right _ _

/-! What a reader sees depends on the bytes of the structure only -/

theorem bytesAt_sub {f g : Sector} {off n o k : Nat} (h : bytesAt f off n = bytesAt g off n)
    (ho : off ≤ o) (hk : o + k ≤ off + n) : bytesAt f o k = bytesAt g o k := by
  apply bytesAt_congr
  intro j h1 h2
  exact bytesAt_inj h j (by omega) (by omega)

theorem masterHdrAt_congr {f g : Sector} (h : bytesAt f 0 masterHdrLen = bytesAt g 0 masterHdrLen) :
    masterHdrAt f = masterHdrAt g := by
  have hf : ∀ o k, o + k ≤ masterHdrLen → leAt f o k = leAt g o k := by
    intro o k hk
    unfold leAt
    rw [bytesAt_sub h (Nat.zero_le o) (by omega)]
  unfold masterHdrLen at hf
  unfold masterHdrAt
  rw [hf 12 4, hf 16 4, hf 20 2, hf 22 2, hf 24 4, hf 28 4, hf 32 4, hf 36 1, hf 6 2, hf 56 2,
    hf 58 2]
  all_goals decide

theorem recOk_congr {f g : Sector} {rotGen i : Nat}
    (h : bytesAt f (masterRecOff cfg i) masterRecLen = bytesAt g (masterRecOff cfg i) masterRecLen) :
    recOk cfg rotGen f i = recOk cfg rotGen g i := by
  unfold recOk masterRecOk leAt
  unfold masterRecLen at h
  rw [bytesAt_sub (k := 4) h (Nat.le_refl _) (by omega),
    bytesAt_sub (o := masterRecOff cfg i + 44) (k := 4) h (by omega) (by omega),
    bytesAt_sub (k := 44) h (Nat.le_refl _) (by omega)]

theorem recAt_congr {f g : Sector} {i : Nat}
    (h : bytesAt f (masterRecOff cfg i) masterRecLen = bytesAt g (masterRecOff cfg i) masterRecLen) :
    recAt cfg f i = recAt cfg g i := by
  unfold recAt masterRecAt leAt
  unfold masterRecLen at h
  rw [bytesAt_sub (o := masterRecOff cfg i + 8) (k := 8) h (by omega) (by omega),
    bytesAt_sub (o := masterRecOff cfg i + 24) (k := 8) h (by omega) (by omega),
    bytesAt_sub (o := masterRecOff cfg i + 36) (k := 4) h (by omega) (by omega)]

-- The frozen prefix decides whether a sector is foreign.
theorem masterPrefixOk_congr {f g : Sector} (h : bytesAt f 0 12 = bytesAt g 0 12) :
    masterPrefixOk f = masterPrefixOk g := by
  unfold masterPrefixOk leAt
  rw [bytesAt_sub (o := 10) (k := 2) h (by omega) (by omega),
    bytesAt_sub (k := 10) h (Nat.le_refl _) (by omega)]

theorem not_prefixOk_of_erased {f : Sector} (h : ∀ j, j < 12 → f j = 0xff) :
    masterPrefixOk f = false := by
  have hblank : masterPrefixOk f = masterPrefixOk blank := by
    apply masterPrefixOk_congr
    apply bytesAt_congr
    intro j _ hj
    exact h j (by omega)
  rw [hblank]
  decide

-- A sector is foreign by its frozen prefix: magic, major version and header length.
def prefixForeign (buf : Sector) : Bool :=
  bytesAt buf 0 4 != masterMagic || (leAt buf 4 1 != formatMajor ||
    (decide (leAt buf 6 2 < masterHdrLen) || decide (masterHdrMax < leAt buf 6 2)))

theorem not_erased_of_prefixOk {f : Sector} (h : masterPrefixOk f = true) :
    allErased f 0 masterHdrMax = false := by
  by_contra he
  rw [Bool.not_eq_false, allErased_iff] at he
  rw [not_prefixOk_of_erased fun j hj => he j (Nat.zero_le j) (by unfold masterHdrMax; omega)] at h
  cases h

theorem masterClassOf_foreign {buf : Sector} :
    masterClassOf buf = .foreign ↔ masterPrefixOk buf = true ∧ prefixForeign buf = true := by
  unfold prefixForeign
  constructor
  . intro h
    unfold masterClassOf at h
    split at h
    . cases h
    . split at h
      . cases h
      . next hp =>
        refine ⟨by simpa using hp, ?_⟩
        split at h
        . next hm => simp [hm]
        . split at h
          . next hm => simp [hm]
          . split at h
            . next hm =>
              simp only [Bool.or_eq_true, decide_eq_true_eq]
              exact .inr (.inr hm)
            . split at h <;> cases h
  . intro ⟨hp, hf⟩
    unfold masterClassOf
    rw [if_neg (by simp [not_erased_of_prefixOk hp]), if_neg (by simp [hp])]
    simp only [Bool.or_eq_true, decide_eq_true_eq] at hf
    split
    . rfl
    . next hm =>
      split
      . rfl
      . next hv =>
        rw [if_pos]
        exact (hf.resolve_left hm).resolve_left hv

theorem masterClassOf_ok {buf : Sector} :
    masterClassOf buf = .ok ↔ masterPrefixOk buf = true ∧ prefixForeign buf = false ∧
      leAt buf 60 4 = crc32Ieee (bytesAt buf 0 60) := by
  constructor
  . intro h
    have hnf : ¬ (masterPrefixOk buf = true ∧ prefixForeign buf = true) := by
      rw [← masterClassOf_foreign, h]
      simp
    unfold masterClassOf at h
    split at h
    . cases h
    . split at h
      . cases h
      . next hp =>
        have hp : masterPrefixOk buf = true := by simpa using hp
        refine ⟨hp, by simpa [hp] using hnf, ?_⟩
        split at h
        . cases h
        . split at h
          . cases h
          . split at h
            . cases h
            . split at h
              . cases h
              . next hc => simpa using hc
  . intro ⟨hp, hf, hc⟩
    unfold prefixForeign at hf
    simp only [Bool.or_eq_false_iff, decide_eq_false_iff_not] at hf
    unfold masterClassOf
    rw [if_neg (by simp [not_erased_of_prefixOk hp]), if_neg (by simp [hp]),
      if_neg (by simp [hf.1]), if_neg (by simp [hf.2.1]), if_neg (by simp [hf.2.2]),
      if_neg (by simp [hc])]

theorem prefixForeign_congr {f g : Sector} (h : bytesAt f 0 12 = bytesAt g 0 12) :
    prefixForeign f = prefixForeign g := by
  unfold prefixForeign leAt
  rw [bytesAt_sub (k := 4) h (Nat.le_refl _) (by omega),
    bytesAt_sub (o := 4) (k := 1) h (by omega) (by omega),
    bytesAt_sub (o := 6) (k := 2) h (by omega) (by omega)]

theorem masterClassOf_ok_congr {f g : Sector}
    (h : bytesAt f 0 masterHdrLen = bytesAt g 0 masterHdrLen) (hf : masterClassOf f = .ok) :
    masterClassOf g = .ok := by
  unfold masterHdrLen at h
  have h12 : bytesAt f 0 12 = bytesAt g 0 12 := bytesAt_sub h (Nat.le_refl _) (by omega)
  rw [masterClassOf_ok] at hf ⊢
  rw [← masterPrefixOk_congr h12, ← prefixForeign_congr h12, leAt,
    ← bytesAt_sub (o := 60) (k := 4) h (by omega) (by omega),
    ← bytesAt_sub (k := 60) h (Nat.le_refl _) (by omega)]
  exact hf

theorem masterClassOf_foreign_congr {f g : Sector} (h : bytesAt f 0 12 = bytesAt g 0 12)
    (hf : masterClassOf f = .foreign) : masterClassOf g = .foreign := by
  rw [masterClassOf_foreign] at hf ⊢
  rw [← masterPrefixOk_congr h, ← prefixForeign_congr h]
  exact hf

-- Reading the header window is enough.
theorem masterClassOf_image (f : Sector) :
    masterClassOf (image (bytesAt f 0 masterHdrMax)) = masterClassOf f := by
  have h : ∀ o n, o + n ≤ masterHdrMax →
      bytesAt (image (bytesAt f 0 masterHdrMax)) o n = bytesAt f o n := by
    intro o n hn
    rw [bytesAt_image hn, Nat.zero_add]
  unfold masterClassOf masterPrefixOk allErased leAt
  rw [h 0 masterHdrMax (by decide), h 10 2 (by decide), h 0 10 (by decide), h 0 4 (by decide),
    h 4 1 (by decide), h 6 2 (by decide), h 60 4 (by decide), h 0 60 (by decide)]

theorem masterHdrAt_image (f : Sector) :
    masterHdrAt (image (bytesAt f 0 masterHdrMax)) = masterHdrAt f := by
  apply masterHdrAt_congr
  rw [bytesAt_image (by decide), Nat.zero_add]

theorem notOk_blank : NotOk blank := by
  have h : masterClassOf blank = .erased := by decide
  unfold NotOk
  rw [h]
  decide

/-! Encoding -/

-- The values a header and a record have room for.
structure MasterHdr.Fits (h : MasterHdr) : Prop where
  rotGen : h.rotGen < 256 ^ 4
  pebSize : h.pebSize < 256 ^ 4
  nBuckets : h.nBuckets < 256 ^ 2
  recSize : h.recSize < 256 ^ 2
  incompat : h.incompat < 256 ^ 4
  roCompat : h.roCompat < 256 ^ 4
  compat : h.compat < 256 ^ 4
  suite : h.suite < 256 ^ 1
  hdrLen : masterHdrLen ≤ h.hdrLen ∧ h.hdrLen ≤ masterHdrMax
  maxPayloadLen : h.maxPayloadLen < 256 ^ 2
  writeAlign : h.writeAlign < 256 ^ 2

structure MasterRec.Fits (r : MasterRec) : Prop where
  nextIdHint : r.nextIdHint < 256 ^ 8
  segOwner : r.segOwner < 256 ^ 8
  fuses : r.fuses < 256 ^ 4

theorem masterHdrBytes_length (h : MasterHdr) : (masterHdrBytes h).length = masterHdrLen := by
  simp [masterHdrBytes, masterBodyBytes, masterPrefixBytes, masterMagic, masterHdrLen]

theorem masterRecBytes_length (rotGen recNo : Nat) (r : MasterRec) :
    (masterRecBytes rotGen recNo r).length = masterRecLen := by
  simp [masterRecBytes, masterRecBody, masterRecLen]

theorem masterPrefix_written {buf : Sector} {hdrLen : Nat}
    (hlen : masterHdrLen ≤ hdrLen ∧ hdrLen ≤ masterHdrMax)
    (h : bytesAt buf 0 12 = masterPrefixBytes hdrLen ++
      leBytes (crc16Ccitt 0xffff (masterPrefixBytes hdrLen)) 2) :
    masterPrefixOk buf = true ∧ prefixForeign buf = false ∧ leAt buf 6 2 = hdrLen := by
  unfold masterHdrLen masterHdrMax at hlen
  obtain ⟨hpre, hcrc⟩ := bytesAt_split (a := masterPrefixBytes hdrLen) (b := leBytes _ 2) h
  obtain ⟨hmagic, h1⟩ := bytesAt_split (a := masterMagic) (b := _ ++ _) hpre
  obtain ⟨hmajor, h2⟩ := bytesAt_split (a := leBytes formatMajor 1) (b := _ ++ _) h1
  obtain ⟨hminor, h3⟩ := bytesAt_split (a := leBytes formatMinor 1) (b := _ ++ _) h2
  obtain ⟨hhl, _⟩ := bytesAt_split (a := leBytes hdrLen 2) (b := _) h3
  have hlen' : leAt buf 6 2 = hdrLen := leAt_of_bytesAt hhl (by omega)
  have hmajor' : leAt buf 4 1 = formatMajor := leAt_of_bytesAt hmajor (by decide)
  have hcrc' : leAt buf 10 2 = crc16Ccitt 0xffff (masterPrefixBytes hdrLen) :=
    leAt_of_bytesAt hcrc (crc16Ccitt_lt _ (by decide))
  have hpre' : bytesAt buf 0 10 = masterPrefixBytes hdrLen := hpre
  have hmagic' : bytesAt buf 0 4 = masterMagic := hmagic
  refine ⟨?_, ?_, hlen'⟩
  . unfold masterPrefixOk
    rw [hcrc', hpre']
    simp
  . unfold prefixForeign
    rw [hmagic', hmajor', hlen']
    unfold masterHdrLen masterHdrMax
    simp
    omega

theorem masterHdr_written {buf : Sector} {h : MasterHdr} (hf : h.Fits)
    (hb : bytesAt buf 0 masterHdrLen = masterHdrBytes h) :
    masterClassOf buf = .ok ∧ masterHdrAt buf = h := by
  rw [← masterHdrBytes_length h] at hb
  obtain ⟨hbody, hcrc⟩ := bytesAt_split (a := masterBodyBytes h) (b := leBytes _ 4) hb
  have hbody' := hbody
  unfold masterBodyBytes at hbody'
  rw [← List.append_assoc] at hbody'
  obtain ⟨hpre, h1⟩ := bytesAt_split (a := masterPrefixBytes h.hdrLen ++ leBytes _ 2) (b := _ ++ _) hbody'
  obtain ⟨hok, hforeign, hlen⟩ := masterPrefix_written hf.hdrLen hpre
  obtain ⟨hrot, h2⟩ := bytesAt_split (a := leBytes h.rotGen 4) (b := _ ++ _) h1
  obtain ⟨hpeb, h3⟩ := bytesAt_split (a := leBytes h.pebSize 4) (b := _ ++ _) h2
  obtain ⟨hnb, h4⟩ := bytesAt_split (a := leBytes h.nBuckets 2) (b := _ ++ _) h3
  obtain ⟨hrs, h5⟩ := bytesAt_split (a := leBytes h.recSize 2) (b := _ ++ _) h4
  obtain ⟨hin, h6⟩ := bytesAt_split (a := leBytes h.incompat 4) (b := _ ++ _) h5
  obtain ⟨hro, h7⟩ := bytesAt_split (a := leBytes h.roCompat 4) (b := _ ++ _) h6
  obtain ⟨hco, h8⟩ := bytesAt_split (a := leBytes h.compat 4) (b := _ ++ _) h7
  obtain ⟨hsu, h9⟩ := bytesAt_split (a := leBytes h.suite 1) (b := _ ++ _) h8
  obtain ⟨_, h10⟩ := bytesAt_split (a := List.replicate 19 0) (b := _ ++ _) h9
  obtain ⟨hmp, hwa⟩ := bytesAt_split (a := leBytes h.maxPayloadLen 2) (b := leBytes _ 2) h10
  have hcrc' : leAt buf 60 4 = crc32Ieee (masterBodyBytes h) :=
    leAt_of_bytesAt hcrc (lt_of_lt_of_eq (crc32Ieee_lt _) (by decide))
  have hbody60 : bytesAt buf 0 60 = masterBodyBytes h := hbody
  constructor
  . rw [masterClassOf_ok, hcrc', hbody60]
    exact ⟨hok, hforeign, rfl⟩
  . have e1 : leAt buf 12 4 = h.rotGen := leAt_of_bytesAt hrot hf.rotGen
    have e2 : leAt buf 16 4 = h.pebSize := leAt_of_bytesAt hpeb hf.pebSize
    have e3 : leAt buf 20 2 = h.nBuckets := leAt_of_bytesAt hnb hf.nBuckets
    have e4 : leAt buf 22 2 = h.recSize := leAt_of_bytesAt hrs hf.recSize
    have e5 : leAt buf 24 4 = h.incompat := leAt_of_bytesAt hin hf.incompat
    have e6 : leAt buf 28 4 = h.roCompat := leAt_of_bytesAt hro hf.roCompat
    have e7 : leAt buf 32 4 = h.compat := leAt_of_bytesAt hco hf.compat
    have e8 : leAt buf 36 1 = h.suite := leAt_of_bytesAt hsu hf.suite
    have e9 : leAt buf 56 2 = h.maxPayloadLen := leAt_of_bytesAt hmp hf.maxPayloadLen
    have e10 : leAt buf 58 2 = h.writeAlign := leAt_of_bytesAt hwa hf.writeAlign
    unfold masterHdrAt
    rw [e1, e2, e3, e4, e5, e6, e7, e8, e9, e10, hlen]

theorem masterRec_written {buf : Sector} {off rotGen recNo : Nat} {r : MasterRec} (hf : r.Fits)
    (hn : recNo < 256 ^ 4)
    (hb : bytesAt buf off masterRecLen = masterRecBytes rotGen recNo r) :
    masterRecOk rotGen buf off recNo = true ∧ masterRecAt buf off = r := by
  rw [← masterRecBytes_length rotGen recNo r] at hb
  obtain ⟨hbody, hcrc⟩ := bytesAt_split (a := masterRecBody recNo r) (b := leBytes _ 4) hb
  have hbody' := hbody
  unfold masterRecBody at hbody'
  obtain ⟨hno, h1⟩ := bytesAt_split (a := leBytes recNo 4) (b := _ ++ _) hbody'
  obtain ⟨_, h2⟩ := bytesAt_split (a := leBytes 0 4) (b := _ ++ _) h1
  obtain ⟨hhint, h3⟩ := bytesAt_split (a := leBytes r.nextIdHint 8) (b := _ ++ _) h2
  obtain ⟨_, h4⟩ := bytesAt_split (a := leBytes 0 8) (b := _ ++ _) h3
  obtain ⟨hown, h5⟩ := bytesAt_split (a := leBytes r.segOwner 8) (b := _ ++ _) h4
  obtain ⟨_, h6⟩ := bytesAt_split (a := leBytes 0 4) (b := _ ++ _) h5
  obtain ⟨hfuse, _⟩ := bytesAt_split (a := leBytes r.fuses 4) (b := leBytes 0 4) h6
  have hcrcLt : masterRecCrc rotGen (masterRecBody recNo r) < 256 ^ 4 :=
    lt_of_lt_of_eq (crc32IeeeUpdate_lt _ (crc32Ieee_lt _)) (by decide)
  have hno' : leAt buf off 4 = recNo := leAt_of_bytesAt hno hn
  have hcrc' : leAt buf (off + 44) 4 = masterRecCrc rotGen (masterRecBody recNo r) :=
    leAt_of_bytesAt hcrc hcrcLt
  have hbody44 : bytesAt buf off 44 = masterRecBody recNo r := hbody
  have e1 : leAt buf (off + 8) 8 = r.nextIdHint := leAt_of_bytesAt hhint hf.nextIdHint
  have e2 : leAt buf (off + 24) 8 = r.segOwner := leAt_of_bytesAt hown hf.segOwner
  have e3 : leAt buf (off + 36) 4 = r.fuses := leAt_of_bytesAt hfuse hf.fuses
  constructor
  . unfold masterRecOk
    rw [hno', hcrc', hbody44]
    simp
  . unfold masterRecAt
    rw [e1, e2, e3]

/-! Appending a record -/

theorem newestBelow_congr {f g : Sector} {rotGen n : Nat}
    (h : ∀ i, i < n → bytesAt f (masterRecOff cfg i) masterRecLen =
      bytesAt g (masterRecOff cfg i) masterRecLen) :
    newestBelow cfg rotGen f n = newestBelow cfg rotGen g n := by
  induction n with
  | zero => rfl
  | succ n ih =>
    unfold newestBelow
    rw [recOk_congr (h n (by omega)), recAt_congr (h n (by omega)), ih fun i hi => h i (by omega)]

theorem newestBelow_succ (rotGen : Nat) (buf : Sector) (n : Nat) :
    newestBelow cfg rotGen buf (n + 1) =
      if recOk cfg rotGen buf n then some (n, recAt cfg buf n)
      else newestBelow cfg rotGen buf n := rfl

theorem newestBelow_some {buf : Sector} {rotGen n i : Nat} {r : MasterRec}
    (h : newestBelow cfg rotGen buf n = some (i, r)) :
    i < n ∧ recOk cfg rotGen buf i = true ∧ recAt cfg buf i = r := by
  induction n with
  | zero => cases h
  | succ n ih =>
    unfold newestBelow at h
    split at h
    . next hok =>
      cases h
      exact ⟨by omega, hok, rfl⟩
    . obtain ⟨h1, h2⟩ := ih h
      exact ⟨by omega, h2⟩

theorem newestBelow_none {buf : Sector} {rotGen n : Nat}
    (h : newestBelow cfg rotGen buf n = none) : ∀ i, i < n → recOk cfg rotGen buf i = false := by
  induction n with
  | zero => exact fun i hi => absurd hi (Nat.not_lt_zero i)
  | succ n ih =>
    unfold newestBelow at h
    split at h
    . cases h
    . next hok =>
      intro i hi
      by_cases hin : i = n
      . rw [hin]
        simpa using hok
      . exact ih h i (by omega)

theorem logCap_le : cfg.logCap ≤ 65535 := by
  unfold Cfg.logCap
  extract_lets cap
  have hcap : cap ≤ 65535 := Nat.min_le_right _ _
  split
  . exact Nat.le_trans (Nat.min_le_left _ _) hcap
  . exact hcap

theorem logCap_lt : cfg.logCap < 256 ^ 4 := by
  have : cfg.logCap ≤ 65535 := logCap_le
  omega

theorem recSize_pos : 0 < cfg.recSize := by
  have : masterRecLen ≤ cfg.recSize := recSize_ge
  unfold masterRecLen at this
  omega

theorem logCap_pos (hv : cfg.Valid) : 0 < cfg.logCap := by
  have h2 : 2 ≤ (cfg.pebSize - masterLogOff) / cfg.recSize := by
    rw [Nat.le_div_iff_mul_le recSize_pos]
    have := hv.log
    omega
  unfold Cfg.logCap
  extract_lets cap
  have hcap : 2 ≤ cap := Nat.le_min.mpr ⟨h2, by decide⟩
  split
  . exact Nat.lt_min.mpr ⟨by omega, by assumption⟩
  . omega

-- A record that verifies has its own number in it, so its slot does not read erased.
theorem not_recErased_of_ok {buf : Sector} {rotGen i : Nat} (hi : i < cfg.logCap)
    (h : recOk cfg rotGen buf i = true) : recErased cfg buf i = false := by
  by_contra he
  rw [Bool.not_eq_false] at he
  unfold recErased at he
  rw [allErased_iff] at he
  unfold recOk masterRecOk at h
  rw [Bool.and_eq_true, beq_iff_eq] at h
  have hsize : masterRecLen ≤ cfg.recSize := recSize_ge
  unfold masterRecLen at hsize
  have hblank : leAt buf (masterRecOff cfg i) 4 = leAt blank 0 4 := by
    have : bytesAt buf (masterRecOff cfg i) 4 = bytesAt blank 0 4 := by
      rw [show bytesAt blank 0 4 = [0xff, 0xff, 0xff, 0xff] from rfl]
      simp [bytesAt, he _ (Nat.le_refl _) (by omega), he (masterRecOff cfg i + 1) (by omega) (by omega),
        he (masterRecOff cfg i + 1 + 1) (by omega) (by omega),
        he (masterRecOff cfg i + 1 + 1 + 1) (by omega) (by omega)]
    unfold leAt
    rw [this]
  have hval : leAt blank 0 4 = 4294967295 := by decide
  have hcap : cfg.logCap ≤ 65535 := logCap_le
  omega

theorem masterRecImage_length (rotGen recNo : Nat) (r : MasterRec) :
    (masterRecImage cfg rotGen recNo r).length = cfg.recSize := by
  have : masterRecLen ≤ cfg.recSize := recSize_ge
  simp only [masterRecImage, padTo, List.length_append, List.length_replicate,
    masterRecBytes_length]
  omega

-- A sector that differs from a log in the bytes of one slot only.
theorem Log.of_slot {b a : Sector} {rotGen n : Nat} (hb : Log cfg b rotGen n) (hn : n < cfg.logCap)
    (hout : ∀ j, (j < masterRecOff cfg n ∨ masterRecOff cfg n + cfg.recSize ≤ j) → a j = b j) :
    (recErased cfg a n = true ∧ Log cfg a rotGen n) ∨
      (recErased cfg a n = false ∧ Log cfg a rotGen (n + 1)) := by
  have hoff := masterRecOff_ge cfg n
  unfold masterLogOff masterHdrMax at hoff
  have hhdr : bytesAt b 0 masterHdrLen = bytesAt a 0 masterHdrLen := by
    apply bytesAt_congr
    intro j _ hj
    unfold masterHdrLen at hj
    exact (hout j (.inl (by omega))).symm
  have hother : ∀ i, i ≠ n → recErased cfg a i = recErased cfg b i := by
    intro i hi
    have : bytesAt a (masterRecOff cfg i) cfg.recSize = bytesAt b (masterRecOff cfg i) cfg.recSize := by
      apply bytesAt_congr
      intro j h1 h2
      rcases Nat.lt_or_gt_of_ne hi with hlt | hgt
      . have := masterRecOff_lt cfg hlt
        exact hout j (.inl (by omega))
      . have := masterRecOff_lt cfg hgt
        exact hout j (.inr (by omega))
    unfold recErased allErased
    rw [this]
  have hok : masterClassOf a = .ok := masterClassOf_ok_congr hhdr hb.ok
  have haccept : masterAccept cfg (masterHdrAt a) = true := by
    rw [← masterHdrAt_congr hhdr]
    exact hb.accept
  have hrot : (masterHdrAt a).rotGen = rotGen := by
    rw [← masterHdrAt_congr hhdr]
    exact hb.rot
  cases he : recErased cfg a n with
  | true =>
    refine .inl ⟨rfl, hok, haccept, hrot, hb.le, ?_, ?_⟩
    . intro i hi
      rw [hother i (by omega)]
      exact hb.written i hi
    . intro i h1 h2
      by_cases hin : i = n
      . rw [hin]
        exact he
      . rw [hother i hin]
        exact hb.erased i h1 h2
  | false =>
    refine .inr ⟨rfl, hok, haccept, hrot, by omega, ?_, ?_⟩
    . intro i hi
      by_cases hin : i = n
      . rw [hin]
        exact he
      . rw [hother i hin]
        exact hb.written i (by omega)
    . intro i h1 h2
      rw [hother i (by omega)]
      exact hb.erased i (by omega) h2

theorem slots_below {b a : Sector} {n : Nat}
    (hout : ∀ j, (j < masterRecOff cfg n ∨ masterRecOff cfg n + cfg.recSize ≤ j) → a j = b j) :
    ∀ i, i < n → bytesAt a (masterRecOff cfg i) masterRecLen =
      bytesAt b (masterRecOff cfg i) masterRecLen := by
  intro i hi
  have h1 := masterRecOff_lt cfg hi
  have h2 : masterRecLen ≤ cfg.recSize := recSize_ge
  apply bytesAt_congr
  intro j _ hj
  exact hout j (.inl (by omega))

theorem program_outside {f : Sector} {off j n : Nat} {data : List UInt8} (hlen : data.length ≤ n)
    (h : j < off ∨ off + n ≤ j) : program f off data j = f j := by
  rcases h with h | h
  . exact program_of_lt h
  . exact program_of_ge (by omega)

theorem leAt_rot (buf : Sector) : leAt buf 12 4 = (masterHdrAt buf).rotGen := rfl

section

variable {b : Sector} {rotGen n : Nat} {r : MasterRec}

theorem appended_bytes (hb : Log cfg b rotGen n) (hn : n < cfg.logCap) :
    bytesAt (program b (masterRecOff cfg n) (masterRecImage cfg rotGen n r)) (masterRecOff cfg n)
      masterRecLen = masterRecBytes rotGen n r := by
  have he := hb.erased n (Nat.le_refl n) hn
  unfold recErased at he
  rw [allErased_iff] at he
  have h : bytesAt (program b (masterRecOff cfg n) (masterRecImage cfg rotGen n r))
      (masterRecOff cfg n) (masterRecImage cfg rotGen n r).length =
        masterRecImage cfg rotGen n r := bytesAt_program ?_
  . rw [← masterRecBytes_length rotGen n r]
    exact (bytesAt_split (a := masterRecBytes rotGen n r) (b := List.replicate _ _) h).1
  . intro j h1 h2
    rw [masterRecImage_length] at h2
    exact he j h1 h2

-- The append took effect.
theorem Log.append (hb : Log cfg b rotGen n) (hn : n < cfg.logCap) (hr : r.Fits) :
    Log cfg (program b (masterRecOff cfg n) (masterRecImage cfg rotGen n r)) rotGen (n + 1) ∧
      newestBelow cfg rotGen (program b (masterRecOff cfg n) (masterRecImage cfg rotGen n r))
        (n + 1) = some (n, r) := by
  have hw := masterRec_written hr (Nat.lt_trans hn logCap_lt) (appended_bytes (r := r) hb hn)
  have hout : ∀ j, (j < masterRecOff cfg n ∨ masterRecOff cfg n + cfg.recSize ≤ j) →
      program b (masterRecOff cfg n) (masterRecImage cfg rotGen n r) j = b j :=
    fun j hj => program_outside (by rw [masterRecImage_length]) hj
  have hne := not_recErased_of_ok hn hw.1
  constructor
  . rcases hb.of_slot hn hout with ⟨he, _⟩ | ⟨_, hl⟩
    . rw [he] at hne
      cases hne
    . exact hl
  . have hok : recOk cfg rotGen
        (program b (masterRecOff cfg n) (masterRecImage cfg rotGen n r)) n = true := hw.1
    rw [newestBelow_succ, if_pos hok]
    exact congrArg some (Prod.ext rfl hw.2)

-- Only a part of the append took effect: the slot is erased, torn, or complete.
theorem Log.append_part (hb : Log cfg b rotGen n) (hn : n < cfg.logCap) (hr : r.Fits) {part : Nat}
    (hh : MasterHonest cfg b (program b (masterRecOff cfg n) (masterRecImage cfg rotGen n r))
      (program b (masterRecOff cfg n) ((masterRecImage cfg rotGen n r).take part))) :
    ∃ n', Log cfg (program b (masterRecOff cfg n) ((masterRecImage cfg rotGen n r).take part))
        rotGen n' ∧
      (newestBelow cfg rotGen
          (program b (masterRecOff cfg n) ((masterRecImage cfg rotGen n r).take part)) n' =
          newestBelow cfg rotGen b n ∨
        newestBelow cfg rotGen
          (program b (masterRecOff cfg n) ((masterRecImage cfg rotGen n r).take part)) n' =
          some (n, r)) := by
  generalize ha : program b (masterRecOff cfg n) ((masterRecImage cfg rotGen n r).take part) = a at *
  have hout : ∀ j, (j < masterRecOff cfg n ∨ masterRecOff cfg n + cfg.recSize ≤ j) → a j = b j := by
    intro j hj
    rw [← ha]
    refine program_outside ?_ hj
    rw [List.length_take, masterRecImage_length]
    exact Nat.min_le_right _ _
  have hbelow : newestBelow cfg rotGen a n = newestBelow cfg rotGen b n :=
    newestBelow_congr (slots_below hout)
  rcases hb.of_slot hn hout with ⟨_, hl⟩ | ⟨_, hl⟩
  . exact ⟨n, hl, .inl hbelow⟩
  . refine ⟨n + 1, hl, ?_⟩
    rw [newestBelow_succ]
    cases hok : recOk cfg rotGen a n with
    | false =>
      simp only [Bool.false_eq_true, if_false]
      exact .inl hbelow
    | true =>
      simp only [if_true]
      have hrot : leAt a 12 4 = rotGen := hl.rot
      rcases hh.record n (by rw [hrot]; exact hok) with heq | heq
      . -- the slot was erased before, and an erased slot does not verify
        rw [recOk_congr heq] at hok
        have := not_recErased_of_ok hn hok
        rw [hb.erased n (Nat.le_refl n) hn] at this
        cases this
      . rw [appended_bytes hb hn] at heq
        have hw := masterRec_written hr (Nat.lt_trans hn logCap_lt) heq
        exact .inr (congrArg some (Prod.ext rfl hw.2))

end

/-! Erasing a sector and writing a fresh one -/

theorem NotOk.of_honest {b g a : Sector} (hh : MasterHonest cfg b g a) (hb : NotOk b)
    (hg : NotOk g) : NotOk a := by
  constructor
  . intro ha
    rcases hh.hdr ha with h | h
    . exact hb.1 (masterClassOf_ok_congr h ha)
    . exact hg.1 (masterClassOf_ok_congr h ha)
  . intro ha
    rcases hh.pre (masterClassOf_foreign.mp ha).1 with h | h
    . exact hb.2 (masterClassOf_foreign_congr h ha)
    . exact hg.2 (masterClassOf_foreign_congr h ha)

-- Slots are written in order, so the written ones are counted by one number.
theorem exists_count (p : Nat → Bool) (cap : Nat)
    (hdown : ∀ i j, i < j → j < cap → p j = false → p i = false) :
    ∃ n, n ≤ cap ∧ (∀ i, i < n → p i = false) ∧ ∀ i, n ≤ i → i < cap → p i = true := by
  induction cap with
  | zero => exact ⟨0, Nat.le_refl 0, fun i hi => absurd hi (Nat.not_lt_zero i), by omega⟩
  | succ cap ih =>
    obtain ⟨n, hle, hlow, hhigh⟩ := ih fun i j hij hj => hdown i j hij (by omega)
    cases hp : p cap with
    | true =>
      refine ⟨n, by omega, hlow, ?_⟩
      intro i h1 h2
      by_cases hi : i = cap
      . rw [hi]
        exact hp
      . exact hhigh i h1 (by omega)
    | false =>
      refine ⟨cap + 1, Nat.le_refl _, ?_, by omega⟩
      intro i hi
      by_cases hic : i = cap
      . rw [hic]
        exact hp
      . exact hdown i cap (by omega) (by omega) hp

theorem magic_of_ok {a : Sector} (h : masterClassOf a = .ok) : a 0 = 0x42 := by
  have hf := (masterClassOf_ok.mp h).2.1
  unfold prefixForeign at hf
  simp only [Bool.or_eq_false_iff] at hf
  have : bytesAt a 0 4 = masterMagic := by simpa using hf.1
  have h0 := congrArg List.head? this
  simpa [bytesAt, masterMagic] using h0

theorem not_erased_byte {f : Sector} {off n : Nat} (h : allErased f off n = false) :
    ∃ j, off ≤ j ∧ j < off + n ∧ f j ≠ 0xff := by
  by_contra hne
  have : allErased f off n = true := by
    rw [allErased_iff]
    intro j h1 h2
    by_contra hj
    exact hne ⟨j, h1, h2, hj⟩
  rw [this] at h
  cases h

theorem erased_of_byte {f : Sector} {off n j : Nat} (h1 : off ≤ j) (h2 : j < off + n)
    (hj : f j ≠ 0xff) : allErased f off n = false := by
  by_contra h
  rw [Bool.not_eq_false, allErased_iff] at h
  exact hj (h j h1 h2)

-- An erase from some byte on leaves the slots a shorter log.
theorem Log.eraseFrom_count {b : Sector} {rotGen n : Nat} (hb : Log cfg b rotGen n) (part : Nat) :
    ∃ n', n' ≤ cfg.logCap ∧ (∀ i, i < n' → recErased cfg (eraseFrom b part) i = false) ∧
      ∀ i, n' ≤ i → i < cfg.logCap → recErased cfg (eraseFrom b part) i = true := by
  apply exists_count
  intro i j hij hj he
  obtain ⟨x, hx1, hx2, hx⟩ := not_erased_byte he
  have hxp : x < part := by
    by_contra hge
    simp [eraseFrom, Nat.le_of_not_lt hge] at hx
  have hbx : b x ≠ 0xff := by simpa [eraseFrom, Nat.not_le_of_lt hxp] using hx
  have hjn : j < n := by
    by_contra hge
    have := hb.erased j (by omega) hj
    unfold recErased at this
    rw [erased_of_byte hx1 hx2 hbx] at this
    cases this
  obtain ⟨y, hy1, hy2, hy⟩ := not_erased_byte (hb.written i (by omega))
  have hoff := masterRecOff_lt cfg hij
  refine erased_of_byte hy1 hy2 ?_
  simpa [eraseFrom, show ¬ part ≤ y by omega] using hy

theorem recOk_blank {rotGen i : Nat} (hi : i < cfg.logCap) : recOk cfg rotGen blank i = false := by
  by_contra h
  rw [Bool.not_eq_false] at h
  have := not_recErased_of_ok hi h
  have hb : recErased cfg blank i = true := by
    unfold recErased
    rw [allErased_iff]
    exact fun _ _ _ => rfl
  rw [hb] at this
  cases this

-- An erase that took effect in part leaves a sector that does not count, or its own header and
-- some of its own records.
theorem Log.erase_part {b : Sector} {rotGen n part : Nat} {upper : Bool} (hb : Log cfg b rotGen n)
    (hh : MasterHonest cfg b blank (Request.partly b part upper .erase)) :
    NotOk (Request.partly b part upper .erase) ∨
      ∃ n', Log cfg (Request.partly b part upper .erase) rotGen n' ∧
        ∀ i, i < n' → recOk cfg rotGen (Request.partly b part upper .erase) i = true →
          i < n ∧ recOk cfg rotGen b i = true ∧
            recAt cfg (Request.partly b part upper .erase) i = recAt cfg b i := by
  by_cases hok : masterClassOf (Request.partly b part upper .erase) = .ok
  . right
    have hhdr : bytesAt b 0 masterHdrLen =
        bytesAt (Request.partly b part upper .erase) 0 masterHdrLen := by
      rcases hh.hdr hok with h | h
      . exact h.symm
      . exact absurd (masterClassOf_ok_congr h hok) notOk_blank.1
    have hrot : (masterHdrAt (Request.partly b part upper .erase)).rotGen = rotGen := by
      rw [← masterHdrAt_congr hhdr]
      exact hb.rot
    have haccept : masterAccept cfg (masterHdrAt (Request.partly b part upper .erase)) = true := by
      rw [← masterHdrAt_congr hhdr]
      exact hb.accept
    have hcount : ∃ n', n' ≤ cfg.logCap ∧
        (∀ i, i < n' → recErased cfg (Request.partly b part upper .erase) i = false) ∧
        ∀ i, n' ≤ i → i < cfg.logCap →
          recErased cfg (Request.partly b part upper .erase) i = true := by
      cases upper with
      | true => exact hb.eraseFrom_count part
      | false =>
        -- the header survived, so nothing below it was erased
        have hzero : part = 0 := by
          by_contra hne
          have h0 : Request.partly b part false .erase 0 = 0xff := by
            simp [Request.partly, eraseBelow, Nat.pos_of_ne_zero hne]
          rw [magic_of_ok hok] at h0
          cases h0
        have hsame : Request.partly b part false .erase = b := by
          funext j
          simp [Request.partly, eraseBelow, hzero]
        rw [hsame]
        exact ⟨n, hb.le, hb.written, hb.erased⟩
    obtain ⟨n', hle, hw, he⟩ := hcount
    refine ⟨n', ⟨hok, haccept, hrot, hle, hw, he⟩, ?_⟩
    intro i hi hrec
    have hcap : i < cfg.logCap := by omega
    rcases hh.record i (by rw [leAt_rot, hrot]; exact hrec) with h | h
    . rw [recOk_congr h] at hrec
      refine ⟨?_, hrec, recAt_congr h⟩
      by_contra hge
      have := not_recErased_of_ok hcap hrec
      rw [hb.erased i (by omega) hcap] at this
      cases this
    . rw [recOk_congr h, recOk_blank hcap] at hrec
      cases hrec
  . left
    refine ⟨hok, ?_⟩
    intro hf
    rcases hh.pre (masterClassOf_foreign.mp hf).1 with h | h
    . have := masterClassOf_foreign_congr h hf
      rw [hb.ok] at this
      cases this
    . exact notOk_blank.2 (masterClassOf_foreign_congr h hf)

/-! A fresh sector -/

-- The features a session carries are ones that every build of it accepts.
structure FeaturesOk (cfg : Cfg) (st : St) : Prop where
  incompat : bitsWithin st.incompat cfg.buildIncompat = true
  roCompat : bitsWithin st.roCompat buildRoCompat = true
  compat : st.compat < 256 ^ 4

theorem le_of_bitsWithin {a mask : Nat} (h : bitsWithin a mask = true) : a ≤ mask := by
  unfold bitsWithin at h
  rw [beq_iff_eq] at h
  rw [← h]
  exact Nat.left_le_or

theorem roundUp_lt {n a : Nat} : roundUp n a ≤ n + a - 1 := Nat.div_mul_le_self _ _

theorem masterHdrOf_fits (hv : cfg.Valid) {st : St} (hst : FeaturesOk cfg st) {rotGen : Nat}
    (hrot : rotGen < 256 ^ 4) : (masterHdrOf cfg st rotGen).Fits := by
  have hpeb := hv.buf
  have hbuf := cfg.sector_range
  have halign := hv.align
  unfold maxWriteAlign at halign
  have hnp := cfg.pebs_range
  have hpay := cfg.payload_range
  have hrec : cfg.recSize ≤ masterRecLen + cfg.writeAlign - 1 := roundUp_lt
  unfold masterRecLen at hrec
  have hinc : st.incompat ≤ 1 := by
    have := le_of_bitsWithin hst.incompat
    unfold Cfg.buildIncompat featLargePayloads at this
    split at this <;> omega
  have hro : st.roCompat ≤ 0 := le_of_bitsWithin hst.roCompat
  constructor
  . exact hrot
  . show cfg.pebSize < 256 ^ 4
    omega
  . show cfg.nBuckets < 256 ^ 2
    unfold Cfg.nBuckets
    omega
  . show cfg.recSize < 256 ^ 2
    omega
  . show st.incompat < 256 ^ 4
    omega
  . show st.roCompat < 256 ^ 4
    omega
  . exact hst.compat
  . show (0 : Nat) < 256 ^ 1
    decide
  . show masterHdrLen ≤ buildHdrLen ∧ buildHdrLen ≤ masterHdrMax
    decide
  . show cfg.maxPayloadLen < 256 ^ 2
    omega
  . show cfg.writeAlign < 256 ^ 2
    omega

theorem masterHdrOf_accepted {st : St} (hst : FeaturesOk cfg st) (rotGen : Nat) :
    masterAccept cfg (masterHdrOf cfg st rotGen) = true := by
  simp [masterAccept, masterHdrOf, hst.incompat, hst.roCompat, buildSuite, buildHdrLen]

theorem masterSectorImage_length (st : St) (rotGen : Nat) (r : MasterRec) :
    (masterSectorImage cfg st rotGen r).length = masterRecOff cfg 1 := by
  simp only [masterSectorImage, List.length_append, masterRecImage_length, padTo,
    List.length_replicate, masterHdrBytes_length, masterRecOff, Nat.one_mul]
  unfold masterHdrLen masterLogOff masterHdrMax
  omega

theorem image_eq_program (data : List UInt8) : image data = program blank 0 data := by
  funext j
  simp only [image, program, Nat.zero_le, true_and, Nat.zero_add, Nat.sub_zero, blank]
  split
  . rw [erased_and]
  . next h => simp [List.getD_eq_getElem?_getD, List.getElem?_eq_none (Nat.le_of_not_lt h)]

section

variable {st : St} {rotGen : Nat} {r : MasterRec}

theorem freshSector_bytes (cfg : Cfg) (st : St) (rotGen : Nat) (r : MasterRec) :
    bytesAt (program blank 0 (masterSectorImage cfg st rotGen r)) 0 masterHdrLen =
        masterHdrBytes (masterHdrOf cfg st rotGen) ∧
      bytesAt (program blank 0 (masterSectorImage cfg st rotGen r)) (masterRecOff cfg 0)
        masterRecLen = masterRecBytes rotGen 0 r := by
  have h : bytesAt (program blank 0 (masterSectorImage cfg st rotGen r)) 0
      (masterSectorImage cfg st rotGen r).length = masterSectorImage cfg st rotGen r :=
    bytesAt_program fun _ _ _ => rfl
  obtain ⟨hhdr, hrec⟩ := bytesAt_split (a := padTo masterLogOff (masterHdrBytes _))
    (b := masterRecImage cfg rotGen 0 r) h
  have hlen : (padTo masterLogOff (masterHdrBytes (masterHdrOf cfg st rotGen))).length =
      masterRecOff cfg 0 := by
    simp only [padTo, List.length_append, List.length_replicate, masterHdrBytes_length,
      masterRecOff, Nat.zero_mul]
    unfold masterHdrLen masterLogOff masterHdrMax
    omega
  constructor
  . rw [← masterHdrBytes_length (masterHdrOf cfg st rotGen)]
    exact (bytesAt_split (a := masterHdrBytes _) (b := List.replicate _ _) hhdr).1
  . rw [hlen, Nat.zero_add] at hrec
    rw [← masterRecBytes_length rotGen 0 r]
    exact (bytesAt_split (a := masterRecBytes rotGen 0 r) (b := List.replicate _ _) hrec).1

-- Whatever part of a fresh sector was written, the slots after the first are erased.
theorem freshSector_erased (cfg : Cfg) (st : St) (rotGen : Nat) (r : MasterRec) (part i : Nat) (hi : 1 ≤ i) :
    recErased cfg (program blank 0 ((masterSectorImage cfg st rotGen r).take part)) i = true := by
  unfold recErased
  rw [allErased_iff]
  intro j hj _
  have hoff : masterRecOff cfg 1 ≤ masterRecOff cfg i := by
    unfold masterRecOff
    exact Nat.add_le_add_left (Nat.mul_le_mul_right _ hi) _
  rw [program_of_ge]
  . rfl
  . rw [List.length_take, masterSectorImage_length, Nat.zero_add]
    omega

theorem freshSector_log (hv : cfg.Valid) (hst : FeaturesOk cfg st) (hrot : rotGen < 256 ^ 4)
    (hr : r.Fits) :
    Log cfg (program blank 0 (masterSectorImage cfg st rotGen r)) rotGen 1 ∧
      newestBelow cfg rotGen (program blank 0 (masterSectorImage cfg st rotGen r)) 1 =
        some (0, r) := by
  obtain ⟨hhdr, hrec⟩ := freshSector_bytes cfg st rotGen r
  obtain ⟨hok, hat⟩ := masterHdr_written (masterHdrOf_fits hv hst hrot) hhdr
  obtain ⟨hrok, hrat⟩ := masterRec_written hr (by decide) hrec
  have hrok : recOk cfg rotGen (program blank 0 (masterSectorImage cfg st rotGen r)) 0 = true := hrok
  refine ⟨⟨hok, ?_, ?_, logCap_pos hv, ?_, ?_⟩, ?_⟩
  . rw [hat]
    exact masterHdrOf_accepted hst rotGen
  . rw [hat]
    rfl
  . intro i hi
    have hi : i = 0 := by omega
    rw [hi]
    exact not_recErased_of_ok (logCap_pos hv) hrok
  . intro i hi _
    have := freshSector_erased cfg st rotGen r
      (masterSectorImage cfg st rotGen r).length i hi
    rwa [List.take_length] at this
  . rw [newestBelow_succ, if_pos hrok]
    exact congrArg some (Prod.ext rfl hrat)

-- A fresh sector of which only a part was written.
theorem freshSector_part (hv : cfg.Valid) (hst : FeaturesOk cfg st) (hrot : rotGen < 256 ^ 4)
    (hr : r.Fits) {part : Nat}
    (hh : MasterHonest cfg blank (program blank 0 (masterSectorImage cfg st rotGen r))
      (program blank 0 ((masterSectorImage cfg st rotGen r).take part))) :
    NotOk (program blank 0 ((masterSectorImage cfg st rotGen r).take part)) ∨
      ∃ n, Log cfg (program blank 0 ((masterSectorImage cfg st rotGen r).take part)) rotGen n ∧
        ∀ i, i < n →
          recOk cfg rotGen (program blank 0 ((masterSectorImage cfg st rotGen r).take part)) i =
            true →
          recAt cfg (program blank 0 ((masterSectorImage cfg st rotGen r).take part)) i = r := by
  have herased := freshSector_erased cfg st rotGen r part
  generalize program blank 0 ((masterSectorImage cfg st rotGen r).take part) = a at *
  obtain ⟨hhdr, hrec⟩ := freshSector_bytes cfg st rotGen r
  by_cases hok : masterClassOf a = .ok
  . right
    have heq : bytesAt a 0 masterHdrLen = masterHdrBytes (masterHdrOf cfg st rotGen) := by
      rcases hh.hdr hok with h | h
      . exact absurd (masterClassOf_ok_congr h hok) notOk_blank.1
      . rw [h, hhdr]
    have hat := (masterHdr_written (masterHdrOf_fits hv hst hrot) heq).2
    have haccept : masterAccept cfg (masterHdrAt a) = true := by
      rw [hat]
      exact masterHdrOf_accepted hst rotGen
    have hrotA : (masterHdrAt a).rotGen = rotGen := by rw [hat]; rfl
    have hrecs : ∀ i, i < 1 → recOk cfg rotGen a i = true → recAt cfg a i = r := by
      intro i hi hi'
      have hi : i = 0 := by omega
      rw [hi] at hi' ⊢
      rcases hh.record 0 (by rw [leAt_rot, hrotA]; exact hi') with h | h
      . rw [recOk_congr h, recOk_blank (logCap_pos hv)] at hi'
        cases hi'
      . rw [hrec] at h
        exact (masterRec_written hr (by decide) h).2
    cases he : recErased cfg a 0 with
    | true =>
      refine ⟨0, ⟨hok, haccept, hrotA, Nat.zero_le _, by omega, ?_⟩, by omega⟩
      intro i _ _
      by_cases hi : i = 0
      . rw [hi]
        exact he
      . exact herased i (by omega)
    | false =>
      refine ⟨1, ⟨hok, haccept, hrotA, logCap_pos hv, ?_, ?_⟩, hrecs⟩
      . intro i hi
        have hi : i = 0 := by omega
        rw [hi]
        exact he
      . exact fun i hi _ => herased i hi
  . left
    refine ⟨hok, ?_⟩
    intro hf
    rcases hh.pre (masterClassOf_foreign.mp hf).1 with h | h
    . exact notOk_blank.2 (masterClassOf_foreign_congr h hf)
    . have := masterClassOf_foreign_congr h hf
      rw [(masterHdr_written (masterHdrOf_fits hv hst hrot) hhdr).1] at this
      cases this

end

end

end KeyValueDb.BlobDb
