import KeyValueDb.Containers.KvhashCreate

/-!
What a new map makes of the population that its creator declares. The sums and products are those of a
size_t, and nothing compares the room that comes out with the bytes that were declared.
-/

namespace KeyValueDb.Containers

variable (cfg : KvCfg) (mc : MapConfig)

/-! What is asked for -/

-- The number of buckets on each level is one that a directory can have.
def Geometry.InRange (geo : Geometry) : Prop :=
  2 ≤ geo.nTop ∧ geo.nTop ≤ cfg.maxBuckets ∧
    (geo.depth = 2 → 2 ≤ geo.nSub ∧ geo.nSub ≤ cfg.maxBuckets)

def Geometry.buckets (geo : Geometry) : Nat := if geo.depth = 2 then geo.nTop * geo.nSub else geo.nTop

-- So many buckets take the declared population, if one is declared.
def MapConfig.Fits (buckets : Nat) : Prop :=
  mc.expectedEntries ≠ 0 → mc.typicalEntryBytes ≠ 0 →
    mc.expectedEntries * (mc.typicalEntryBytes + entryHdrLen) ≤ buckets * cfg.maxPayload

-- The declaration is refused, or honoured.
def Honours : Prop :=
  ∃ r, deriveGeometry cfg (some mc) = some r ∧
    (r = .error Errno.EINVAL ∨
      ∃ geo, r = .ok geo ∧ geo.InRange cfg ∧ mc.Fits cfg geo.buckets)

/-! When it is so -/

-- Entries longer than a record can be, or longer than the longest there will be.
def MapConfig.Contradicts : Prop :=
  mc.maxEntryBytes ≠ 0 ∧
    (cfg.entryLimit < mc.maxEntryBytes ∨ mc.maxEntryBytes < mc.typicalEntryBytes)

-- The buckets of one level: four entries in each, or what 60 % of a payload has room for.
def MapConfig.flatBuckets : Nat :=
  max 2 ((mc.expectedEntries + loadFor cfg mc.maxEntryBytes - 1) % cfg.sizeMod /
    loadFor cfg mc.maxEntryBytes)

def MapConfig.Flat : Prop :=
  mc.flatBuckets cfg ≤ oneLevelMaxBuckets ∧ mc.flatBuckets cfg ≤ cfg.maxBuckets

instance : Decidable (mc.Flat cfg) := inferInstanceAs (Decidable (_ ∧ _))

-- The buckets that two levels are to have: one an entry, each of 4096 bytes at least.
def MapConfig.spread : Nat :=
  max oneLevelMaxBuckets (if mc.typicalEntryBytes = 0 then mc.expectedEntries
    else min (mc.expectedEntries * mc.typicalEntryBytes % cfg.sizeMod / minBucketBytes)
      mc.expectedEntries)

-- The least side whose square, as a size_t, gets there.
structure FirstSide (sizeMod buckets side : Nat) : Prop where
  pos : 0 < side
  lt : side < sizeMod
  enough : buckets ≤ side * side % sizeMod
  first : ∀ s, 0 < s → s < side → s * s % sizeMod < buckets

-- A square of `side` buckets each way, as its two 16-bit fields count it.
def MapConfig.SquareFits (side : Nat) : Prop :=
  2 ≤ side % 2 ^ 16 ∧ side % 2 ^ 16 ≤ cfg.maxBuckets ∧
    mc.Fits cfg (side % 2 ^ 16 * (side % 2 ^ 16))

-- A declaration that is refused or honoured. Without a number of entries it is the default number of
-- buckets that counts.
def MapConfig.Honourable : Prop :=
  mc.Contradicts cfg ∨
    (mc.expectedEntries = 0 ∧ defaultBuckets ≤ cfg.maxBuckets) ∨
    (mc.expectedEntries ≠ 0 ∧ mc.Flat cfg ∧ mc.Fits cfg (mc.flatBuckets cfg)) ∨
    (mc.expectedEntries ≠ 0 ∧ ¬ mc.Flat cfg ∧ ∃ side, FirstSide cfg.sizeMod (mc.spread cfg) side ∧
      (cfg.maxBuckets < side ∨ mc.SquareFits cfg side))

variable {cfg mc} {sizeMod buckets side : Nat}

/-! The loop -/

theorem sideFrom_zero (hpos : 0 < buckets) (fuel : Nat) (hfuel : fuel ≤ 1) :
    sideFrom sizeMod buckets fuel 0 = none := by
  obtain rfl | rfl : fuel = 0 ∨ fuel = 1 := by omega
  . rfl
  . simp [sideFrom, hpos]

-- The rest of the loop from `s` on, which ends once the side wraps.
theorem sideFrom_some {fuel s r : Nat} (hpos : 0 < buckets) (hs : 0 < s) (hlt : s < sizeMod)
    (hfuel : s + fuel = sizeMod + 1) :
    sideFrom sizeMod buckets fuel s = some r ↔
      s ≤ r ∧ r < sizeMod ∧ buckets ≤ r * r % sizeMod ∧
        ∀ t, s ≤ t → t < r → t * t % sizeMod < buckets := by
  induction fuel generalizing s with
  | zero => omega
  | succ fuel ih =>
    rw [sideFrom]
    split
    . next hsmall =>
      -- this side is not the one
      have hne : s ≤ r → buckets ≤ r * r % sizeMod → s + 1 ≤ r := by
        intro hle henough
        rcases Nat.lt_or_eq_of_le hle with h | rfl
        . exact h
        . omega
      by_cases hwrap : s + 1 < sizeMod
      . rw [Nat.mod_eq_of_lt hwrap, ih (by omega) hwrap (by omega)]
        constructor
        . rintro ⟨h1, h2, h3, h4⟩
          refine ⟨by omega, h2, h3, fun t ht htr => ?_⟩
          rcases Nat.lt_or_eq_of_le ht with h | rfl
          . exact h4 t h htr
          . exact hsmall
        . rintro ⟨h1, h2, h3, h4⟩
          exact ⟨hne h1 h3, h2, h3, fun t ht htr => h4 t (by omega) htr⟩
      . have heq : s + 1 = sizeMod := by omega
        rw [heq, Nat.mod_self, sideFrom_zero hpos fuel (by omega)]
        simp only [reduceCtorEq, false_iff]
        rintro ⟨h1, h2, h3, _⟩
        have := hne h1 h3
        omega
    . next hbig =>
      simp only [Option.some.injEq]
      constructor
      . rintro rfl
        exact ⟨le_rfl, hlt, Nat.not_lt.mp hbig, fun t h1 h2 => by omega⟩
      . rintro ⟨h1, h2, h3, h4⟩
        by_contra hne
        exact hbig (h4 s le_rfl (by omega))

theorem sideFrom_iff (hpos : 0 < buckets) (hmod : 1 < sizeMod) :
    sideFrom sizeMod buckets sizeMod 1 = some side ↔ FirstSide sizeMod buckets side := by
  rw [sideFrom_some hpos Nat.one_pos hmod (by omega)]
  constructor
  . rintro ⟨h1, h2, h3, h4⟩
    exact ⟨h1, h2, h3, fun s hs hlt => h4 s hs hlt⟩
  . intro h
    exact ⟨h.pos, h.lt, h.enough, fun t ht hlt => h.first t ht hlt⟩

/-! The policy -/

theorem MapConfig.spread_pos : 0 < mc.spread cfg := Nat.lt_of_lt_of_le (by decide) (Nat.le_max_left _ _)

-- A side of 16 bits that was not raised.
theorem firstSide_two (h : FirstSide cfg.sizeMod (mc.spread cfg) side) : 2 ≤ side := by
  have hspread : oneLevelMaxBuckets ≤ mc.spread cfg := Nat.le_max_left _ _
  have henough := h.enough
  have hpos := h.pos
  by_contra hsmall
  obtain rfl : side = 1 := by omega
  have := Nat.mod_le (1 * 1) cfg.sizeMod
  simp only [oneLevelMaxBuckets] at hspread
  omega

/-! Each way through -/

theorem honours_of_error {e : Errno} (h : deriveGeometry cfg (some mc) = some (.error e))
    (he : e = Errno.EINVAL) : Honours cfg mc :=
  ⟨_, h, .inl (by rw [he])⟩

-- What is honoured if the answer is a geometry.
theorem honours_of_ok {geo : Geometry} (h : deriveGeometry cfg (some mc) = some (.ok geo)) :
    Honours cfg mc ↔ geo.InRange cfg ∧ mc.Fits cfg geo.buckets := by
  constructor
  . rintro ⟨r, hr, hcase⟩
    obtain rfl : r = .ok geo := Option.some.inj (hr.symm.trans h)
    rcases hcase with he | ⟨geo', he, hin, hfits⟩
    . cases he
    . cases he
      exact ⟨hin, hfits⟩
  . rintro ⟨hin, hfits⟩
    exact ⟨_, h, .inr ⟨geo, rfl, hin, hfits⟩⟩

theorem deriveGeometry_contradicts (h : mc.Contradicts cfg) :
    deriveGeometry cfg (some mc) = some (.error Errno.EINVAL) := by
  obtain ⟨hset, hbig | hsmall⟩ := h
  . simp only [deriveGeometry, Option.map_some, Option.getD_some]
    rw [if_pos ⟨hset, hbig⟩]
  . simp only [deriveGeometry, Option.map_some, Option.getD_some]
    split
    . rfl
    . rw [if_pos ⟨by omega, hset, hsmall⟩]

-- The answer to a declaration that does not contradict itself.
theorem deriveGeometry_consistent (h : ¬ mc.Contradicts cfg) :
    deriveGeometry cfg (some mc) =
      if mc.expectedEntries = 0 then some (.ok ⟨1, defaultBuckets, 0⟩)
      else if mc.Flat cfg then
        some (.ok ⟨1, mc.flatBuckets cfg, 0⟩)
      else
        match sideFrom cfg.sizeMod (mc.spread cfg) cfg.sizeMod 1 with
        | none => none
        | some side =>
          if cfg.maxBuckets < max 2 side then some (.error Errno.EINVAL)
          else some (.ok ⟨2, max 2 side % 2 ^ 16, max 2 side % 2 ^ 16⟩) := by
  have h1 : ¬ (mc.maxEntryBytes ≠ 0 ∧ cfg.entryLimit < mc.maxEntryBytes) :=
    fun hc => h ⟨hc.1, .inl hc.2⟩
  have h2 : ¬ (mc.typicalEntryBytes ≠ 0 ∧ mc.maxEntryBytes ≠ 0 ∧
      mc.maxEntryBytes < mc.typicalEntryBytes) := fun hc => h ⟨hc.2.1, .inr hc.2.2⟩
  simp only [deriveGeometry, Option.map_some, Option.getD_some]
  rw [if_neg h1, if_neg h2]
  rfl

-- Two levels, once the side is known.
theorem honours_spread (hc : ¬ mc.Contradicts cfg) (h0 : mc.expectedEntries ≠ 0)
    (hflat : ¬ mc.Flat cfg) (hside : FirstSide cfg.sizeMod (mc.spread cfg) side) :
    Honours cfg mc ↔ cfg.maxBuckets < side ∨ mc.SquareFits cfg side := by
  have hmod := cfg.size_ge
  have htwo := firstSide_two hside
  have hderive := deriveGeometry_consistent hc
  rw [if_neg h0, if_neg hflat, (sideFrom_iff MapConfig.spread_pos (by omega)).mpr hside] at hderive
  simp only [Nat.max_eq_right htwo] at hderive
  by_cases hbig : cfg.maxBuckets < side
  . rw [if_pos hbig] at hderive
    exact ⟨fun _ => .inl hbig, fun _ => honours_of_error hderive rfl⟩
  . rw [if_neg hbig] at hderive
    rw [honours_of_ok hderive]
    simp only [hbig, false_or, Geometry.InRange, Geometry.buckets, MapConfig.SquareFits, if_true,
      true_implies]
    constructor
    . rintro ⟨⟨h1, h2, _⟩, h3⟩
      exact ⟨h1, h2, h3⟩
    . rintro ⟨h1, h2, h3⟩
      exact ⟨⟨h1, h2, h1, h2⟩, h3⟩

-- A build with payloads of 1024 bytes.
def kilobyteMap : KvCfg where
  maxPayload := 1024
  maxObject := 1024
  partition := 1048576
  hash := fun _ => 0
  fpMask := 0xffffffff
  keyInlineMax := 64
  valInlineMax := 256
  sizeMod := 2 ^ 32
  size_ge := size32_ge
  buckets_ge := by decide
  payload_le := by decide

end KeyValueDb.Containers
