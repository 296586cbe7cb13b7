import KeyValueDb.Persondb.CborTraces

/-!
The record codec with zcbor in canonical form: records within their bounds fit the buffers that
callers reserve, come back from their encoding, and have an encoding of their own.
-/

namespace KeyValueDb.Persondb

open Cbor Containers Kvdb

-- zcbor writes canonical CBOR, which is what CONFIG_ZCBOR_CANONICAL asks of it.
structure Canonical (Z : Zcbor) : Prop where
  put : ∀ ts, Closes [] ts → (∀ t ∈ ts, t.Short) → ts.length < 2 ^ 64 → Z.put ts = Cbor.put ts

-- Every text fits its field, and the lists theirs.
structure Person.Bounded (p : Person) : Prop where
  name : p.name.chars.length ≤ nameMax
  dept : p.dept.chars.length ≤ deptMax
  title : p.title.chars.length ≤ titleMax
  perms : p.perms.length ≤ permsMax
  perm : ∀ s ∈ p.perms, s.chars.length ≤ permMax
  cards : p.cards.length ≤ cardsMax
  card : ∀ s ∈ p.cards, s.chars.length ≤ cardLen

theorem Person.Bounded.clip {p : Person} (h : p.Bounded) : p.clip = p := by
  have hmap : ∀ (ss : List CStr) (max : Nat), (∀ s ∈ ss, s.chars.length ≤ max) →
      ss.map (Persondb.clip · max) = ss := by
    intro ss max hss
    rw [List.map_congr_left fun s hs => clip_self (hss s hs)]
    exact List.map_id' ss
  rw [Person.clip, clip_self h.name, clip_self h.dept, clip_self h.title, hmap _ _ h.perm,
    hmap _ _ h.card]

/-! How long the encodings are -/

-- A small key and its value.
theorem fits_pair {k : UInt64} {seg : List Tok} {len : Nat} (h : Fits seg 1 len)
    (hk : k.toNat < 24) : Fits (.uint k :: seg) 2 (1 + len) :=
  (Fits.uint (.inl ⟨rfl, hk⟩)).append h

theorem fits_uint32 (n : UInt32) : Fits [.uint n.toUInt64] 1 5 := by
  refine .uint (.inr (.inr (.inl ⟨rfl, ?_⟩)))
  rw [UInt32.toNat_toUInt64]
  exact n.toNat_lt

theorem fits_uint64 (n : UInt64) : Fits [.uint n] 1 9 := .uint (.inr (.inr (.inr rfl)))

theorem fits_text (s : CStr) {max w : Nat} (h : w = 1 ∧ max < 24 ∨ w = 2 ∧ max < 2 ^ 8) :
    Fits [tstrPutTerm s max] 1 (w + max) :=
  .tstr (List.length_take_le _ _) h

theorem fits_texts (ss : List CStr) (max : Nat) (hmax : max < 24) :
    Fits (ss.map (tstrPutTerm · max)) ss.length (ss.length * (1 + max)) := by
  induction ss with
  | nil =>
    rw [List.length_nil, Nat.zero_mul]
    exact .nil
  | cons s ss ih =>
    have h := (fits_text s (.inl ⟨rfl, hmax⟩)).append ih
    rw [List.length_cons, Nat.succ_mul, Nat.add_comm ss.length, Nat.add_comm (ss.length * _)]
    exact h

theorem fits_person {p : Person} (h : p.Bounded) : Fits (personToks p) 1 728 := by
  have hid := fits_pair (k := 1) (fits_uint32 p.id) (by decide)
  have hname : Fits [.uint 2, tstrPutTerm p.name nameMax] 2 34 :=
    fits_pair (fits_text p.name (.inr ⟨rfl, by decide⟩)) (by decide)
  have hdept : Fits [.uint 3, tstrPutTerm p.dept deptMax] 2 25 :=
    fits_pair (fits_text p.dept (.inl ⟨rfl, by decide⟩)) (by decide)
  have htitle : Fits [.uint 4, tstrPutTerm p.title titleMax] 2 25 :=
    fits_pair (fits_text p.title (.inl ⟨rfl, by decide⟩)) (by decide)
  have hfrom := fits_pair (k := 5) (fits_uint32 p.validFrom) (by decide)
  have huntil := fits_pair (k := 6) (fits_uint32 p.validUntil) (by decide)
  have hpin : Fits [.uint 7, .bstr p.pinHash.val] 2 18 :=
    fits_pair (.bstr (le_of_eq p.pinHash.property) (.inl ⟨rfl, by decide⟩)) (by decide)
  have hperms := fits_pair (k := 8) ((fits_texts p.perms permMax (by decide)).list
    (lt_of_le_of_lt h.perms (by decide))) (by decide)
  have hcards := fits_pair (k := 9) ((fits_texts p.cards cardLen (by decide)).list
    (lt_of_le_of_lt h.cards (by decide))) (by decide)
  have hall := (hid.append <| hname.append <| hdept.append <| htitle.append <| hfrom.append <|
    huntil.append <| hpin.append <| hperms.append hcards).map (by decide)
  have hlen : 1 + (6 + (34 + (25 + (25 + (6 + (6 + (18 + (1 + (1 + p.perms.length * (1 + permMax)) +
      (1 + (1 + p.cards.length * (1 + cardLen))))))))))) ≤ 728 := by
    have hp := h.perms
    have hc := h.cards
    simp only [permsMax, cardsMax, permMax, cardLen] at hp hc ⊢
    omega
  rw [personToks]
  simpa only [List.cons_append, List.nil_append, List.append_assoc] using hall.mono hlen

theorem fits_table (t : SbTable) : Fits (tableToks t) 2 28 := by
  have hroot := fits_pair (k := 1) (fits_uint64 t.root) (by decide)
  have hcls := fits_pair (k := 2) (fits_uint32 t.cls) (by decide)
  have hschema := fits_pair (k := 3) (fits_uint32 t.schema) (by decide)
  exact (fits_uint32 t.id).append ((hroot.append (hcls.append hschema)).map (by decide))

theorem fits_tables (ts : List SbTable) :
    Fits (ts.flatMap tableToks) (ts.length * 2) (ts.length * 28) := by
  induction ts with
  | nil => exact .nil
  | cons t ts ih =>
    rw [List.flatMap_cons, List.length_cons, Nat.succ_mul, Nat.succ_mul, Nat.add_comm _ 2,
      Nat.add_comm _ 28]
    exact (fits_table t).append ih

theorem fits_superblock {sb : Superblock} (h : sb.tables.length ≤ sbTablesMax) :
    Fits (superblockToks sb) 1 247 := by
  have hversion : Fits [.uint 1, .uint superblockVersion.toUInt64] 2 2 :=
    fits_pair (.uint (.inl ⟨rfl, by decide⟩)) (by decide)
  have htables := fits_pair (k := 2) ((fits_tables sb.tables).map
    (by simp only [sbTablesMax] at h; omega)) (by decide)
  have hpersons := fits_pair (k := 3) (fits_uint32 sb.nPersons) (by decide)
  have hpopulated := fits_pair (k := 4) (fits_uint32 sb.populated) (by decide)
  have hrev := fits_pair (k := 5) (fits_uint32 sb.rev) (by decide)
  have hall := (hversion.append <| htables.append <| hpersons.append <|
    hpopulated.append hrev).map (by decide)
  have hlen : 1 + (2 + (1 + (1 + sb.tables.length * 28) + (6 + (6 + 6)))) ≤ 247 := by
    simp only [sbTablesMax] at h
    omega
  rw [superblockToks]
  simpa only [List.cons_append, List.nil_append, List.append_assoc] using hall.mono hlen

/-! The stream of a superblock is well formed -/

theorem closes_tables (tables : List SbTable) (ls : List Level) (ts : List Tok) :
    Closes (.key :: ls) (tables.flatMap tableToks ++ ts) = Closes (.key :: ls) ts := by
  induction tables with
  | nil => rfl
  | cons t tables ih =>
    rw [← ih]
    rfl

theorem superblockToks_closes (sb : Superblock) : Closes [] (superblockToks sb) := by
  have htables := closes_tables sb.tables [.key] [.stop, .uint 3, .uint sb.nPersons.toUInt64,
    .uint 4, .uint sb.populated.toUInt64, .uint 5, .uint sb.rev.toUInt64, .stop]
  simp only [superblockToks, List.cons_append, List.nil_append]
  exact htables ▸ rfl

theorem superblockToks_short (sb : Superblock) : ∀ t ∈ superblockToks sb, t.Short := by
  have htable : ∀ t ∈ sb.tables.flatMap tableToks, t.Short := by
    intro t ht
    obtain ⟨table, -, ht⟩ := List.mem_flatMap.mp ht
    simp only [tableToks] at ht
    fin_cases ht <;> exact trivial
  intro t ht
  simp only [superblockToks, List.mem_append] at ht
  rcases ht with (ht | ht) | ht
  . fin_cases ht <;> exact trivial
  . exact htable t ht
  . fin_cases ht <;> exact trivial

theorem superblockToks_length {sb : Superblock} (h : sb.tables.length ≤ sbTablesMax) :
    (superblockToks sb).length < 2 ^ 64 := by
  have hsum : (sb.tables.flatMap tableToks).length = 9 * sb.tables.length := by
    induction sb.tables with
    | nil => rfl
    | cons t ts ih =>
      rw [List.flatMap_cons, List.length_append, ih, List.length_cons]
      simp only [tableToks, List.length_cons, List.length_nil]
      omega
  simp only [superblockToks, List.length_append, hsum, List.length_cons, List.length_nil]
  simp only [sbTablesMax] at h
  omega

/-! Round trips -/

variable {Z : Zcbor}

theorem encodeToks_canonical (hZ : Canonical Z) {ts : List Tok} {n len bufSz : Nat}
    (hc : Closes [] ts) (hs : ∀ t ∈ ts, t.Short) (hlen : ts.length < 2 ^ 64) (hf : Fits ts n len)
    (hbuf : len ≤ bufSz) : encodeToks Z ts bufSz = .ok (Z.put ts) := by
  have hput : (Z.put ts).length ≤ bufSz := by
    rw [hZ.put ts hc hs hlen]
    exact le_trans hf.put_length hbuf
  rw [encodeToks, if_neg (not_lt.mpr hput)]

theorem personCborEncode_bounded (hZ : Canonical Z) {p : Person} (h : p.Bounded) :
    ∃ bytes, personCborEncode Z p personCborMax = .ok bytes ∧
      personCborDecode Z bytes = .ok p := by
  have henc : personCborEncode Z p personCborMax = .ok (Z.put (personToks p)) := by
    rw [personCborEncode, if_neg (not_or.mpr ⟨not_lt.mpr h.perms, not_lt.mpr h.cards⟩)]
    exact encodeToks_canonical hZ (personToks_closes p) (personToks_short p)
      (personToks_length h.perms h.cards) (fits_person h) (by decide)
  have hdec := personCborDecode_encode henc
  rw [h.clip] at hdec
  exact ⟨_, henc, hdec⟩

theorem superblockCborDecode_put {sb : Superblock} (h : sb.tables.length ≤ sbTablesMax)
    (hasc : Ascending sb.tables) : superblockCborDecode Z (Z.put (superblockToks sb)) =
      .ok { sb with version := superblockVersion } := by
  rw [superblockCborDecode, Z.scan_put _ (superblockToks_closes sb) (superblockToks_short sb)
    (superblockToks_length h), superblockV2Decode_toks hasc, if_pos h]

theorem superblockCborEncode_fits (hZ : Canonical Z) {sb : Superblock}
    (h : sb.tables.length ≤ sbTablesMax) (hasc : Ascending sb.tables) :
    ∃ bytes, superblockCborEncode Z sb superblockCborMax = .ok bytes ∧
      superblockCborDecode Z bytes = .ok { sb with version := superblockVersion } := by
  refine ⟨Z.put (superblockToks sb), ?_, superblockCborDecode_put h hasc⟩
  rw [superblockCborEncode, if_neg (not_or.mpr ⟨not_lt.mpr h, not_not.mpr hasc⟩)]
  exact encodeToks_canonical hZ (superblockToks_closes sb) (superblockToks_short sb)
    (superblockToks_length h) (fits_superblock h) (by decide)

theorem superblockCborDecode_encode {sb : Superblock} {bufSz : Nat} {bytes : List UInt8}
    (h : superblockCborEncode Z sb bufSz = .ok bytes) :
    superblockCborDecode Z bytes = .ok { sb with version := superblockVersion } := by
  rw [superblockCborEncode] at h
  split at h
  . cases h
  . next hfits =>
    rw [not_or, not_lt, not_not] at hfits
    rw [encodeToks_ok h, superblockCborDecode_put hfits.1 hfits.2]

theorem zcbor_canonical : Canonical zcbor := ⟨fun _ _ _ _ => rfl⟩

end KeyValueDb.Persondb
