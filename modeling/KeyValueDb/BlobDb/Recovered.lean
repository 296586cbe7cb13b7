import KeyValueDb.BlobDb.Contents

/-!
The scratch sector through power cuts. However a staging, a sealing or an erase of it was cut, a seal
that a mount accepts vouches for the whole image that was staged, and a cut erase makes no seal that
was not there.
-/

namespace KeyValueDb.BlobDb

variable (cfg : Cfg)

-- The scratch sector as compactions leave it: one of its ends is erased, or it starts with an image
-- and ends with as much of its seal as was written and not yet erased.
inductive Scratched (f : Sector) : Prop where
  | start (h : f 0 = 0xff)
  | stop (h : f cfg.scratchSealOff = 0xff)
  | staged (img : List UInt8) (k : Nat) (hmin : bucketDataOff ≤ img.length)
      (hmax : img.length ≤ cfg.scratchSealOff) (himg : bytesAt f 0 img.length = img)
      (hseal : ∀ j, j < scratchSealSize → f (cfg.scratchSealOff + j) =
        if j < k then (scratchSealBytes img).getD j 0 else 0xff)

-- What the buckets hold once a mount has finished the compaction that a cut left.
structure Stores (m : Contents) (fl : Flash) : Prop where
  holds : Holding cfg m (restored cfg fl)
  scratch : Scratched cfg (fl scratchSector)

section

variable {cfg} {f g : Sector}

theorem leBytes_leNat (l : List UInt8) : leBytes (leNat l) l.length = l := by
  induction l with
  | nil => rfl
  | cons b bs ih =>
    have hb := b.toNat_lt
    have hdiv : (b.toNat + 256 * leNat bs) / 256 = leNat bs := by omega
    have hmod : UInt8.ofNat (b.toNat + 256 * leNat bs) = b := by
      apply UInt8.toNat_inj.mp
      rw [UInt8.toNat_ofNat']
      omega
    rw [leNat, List.length_cons, leBytes, hmod, hdiv, ih]

-- A number that was read pins down the bytes it was read from.
theorem bytesAt_of_leAt {off w n : Nat} (h : leAt f off w = n) : bytesAt f off w = leBytes n w := by
  have hb := leBytes_leNat (bytesAt f off w)
  rw [bytesAt_length] at hb
  rw [← hb, ← h]
  rfl

/-! Seals -/

theorem scratchImage_start (h : f 0 = 0xff) : scratchImage cfg f = none := by
  have hno : ∀ bid, bucketHdrValid f bid = false := by
    intro bid
    simp [bucketHdrValid, bytesAt, bucketMagic, h]
  unfold scratchImage
  split
  . rfl
  . simp [hno]

theorem scratchImage_stop (h : f cfg.scratchSealOff = 0xff) : scratchImage cfg f = none := by
  apply scratchImage_of_magic
  simp [sealMagicOk, bytesAt, scratchMagic, h]

theorem scratchSealOff_le (cfg : Cfg) : cfg.scratchSealOff ≤ cfg.pebSize := Nat.sub_le _ _

theorem pebSize_le (hv : cfg.Valid) : cfg.pebSize ≤ 65536 := hv.buf.trans cfg.sector_range.2

section

variable {img : List UInt8} {k len : Nat} (hv : cfg.Valid) (hmin : bucketDataOff ≤ img.length)
  (hmax : img.length ≤ cfg.scratchSealOff) (himg : bytesAt f 0 img.length = img)
  (hseal : ∀ j, j < scratchSealSize → f (cfg.scratchSealOff + j) =
    if j < k then (scratchSealBytes img).getD j 0 else 0xff)

include hv hmax himg hseal

-- A seal that verifies is all there.
theorem seal_whole (h : scratchSealValid cfg f = some len) :
    bytesAt f cfg.scratchSealOff scratchSealSize = scratchSealBytes img := by
  have hoff := scratchSealOff_le cfg
  have hpeb := pebSize_le hv
  have hat : ∀ o n, bytesAt (fun j => f (cfg.scratchSealOff + j)) o n =
      bytesAt f (cfg.scratchSealOff + o) n := by
    intro o n
    apply bytesAt_shift
    intro i _
    rw [Nat.add_assoc]
  unfold scratchSealValid at h
  simp only at h
  split at h
  . next hm =>
    split at h
    . cases h
    . next hlen =>
      split at h
      . next hcrc =>
        rw [sealMagicOk, Bool.and_eq_true, beq_iff_eq, beq_iff_eq, hat, hat] at hm
        obtain ⟨hmagic, hcrc2⟩ := hm
        rw [beq_iff_eq] at hcrc
        rw [not_or, Nat.not_lt, Nat.not_lt] at hlen
        -- a length whose high bytes are missing points past the sector
        have hk : 8 ≤ k := by
          by_contra hlt
          have h7 := hseal 7 (by decide)
          rw [if_neg (by omega)] at h7
          have hbig : 255 * 2 ^ 24 ≤ leAt (fun j => f (cfg.scratchSealOff + j)) 4 4 := by
            simp only [leAt, bytesAt, leNat, h7]
            have h255 : (255 : UInt8).toNat = 255 := rfl
            omega
          omega
        have hl : bytesAt f (cfg.scratchSealOff + 4) 4 = leBytes img.length 4 := by
          suffices hnum : bytesAt f (cfg.scratchSealOff + 4) (leBytes img.length 4).length =
              leBytes img.length 4 by rwa [leBytes_length] at hnum
          apply bytesAt_eq_of_getD
          intro i hi
          rw [leBytes_length] at hi
          have := hseal (4 + i) (by unfold scratchSealSize; omega)
          rw [if_pos (by omega), ← Nat.add_assoc] at this
          rw [this]
          unfold scratchSealBytes scratchSealBody scratchMagic
          rcases i with _ | _ | _ | _ | i
          . rfl
          . rfl
          . rfl
          . rfl
          . omega
        have hlen' : leAt (fun j => f (cfg.scratchSealOff + j)) 4 4 = img.length := by
          rw [leAt, hat]
          exact leAt_of_bytesAt hl (by omega)
        rw [hlen', himg] at hcrc
        have hc : bytesAt f (cfg.scratchSealOff + 8) 4 = leBytes (crc32Ieee img) 4 := by
          rw [← hat]
          exact bytesAt_of_leAt hcrc
        have hbody : bytesAt f cfg.scratchSealOff 12 = scratchSealBody img := by
          have h1 := bytesAt_append f cfg.scratchSealOff 4 8
          have h2 := bytesAt_append f (cfg.scratchSealOff + 4) 4 4
          rw [h1, h2, hl, hc]
          show bytesAt f (cfg.scratchSealOff + 0) 4 ++ _ = _
          rw [hmagic]
          rfl
        have hend : bytesAt f (cfg.scratchSealOff + 12) 4 =
            leBytes (crc32Ieee (scratchSealBody img)) 4 := by
          rw [← hat]
          apply bytesAt_of_leAt
          rw [hcrc2]
          show crc32Ieee (bytesAt f cfg.scratchSealOff 12) = _
          rw [hbody]
        have hall := bytesAt_append f cfg.scratchSealOff 12 4
        rw [hbody, hend] at hall
        exact hall
      . cases h
  . cases h

end

theorem scratchImage_congr (h16 : bucketDataOff ≤ cfg.scratchSealOff)
    (h : ∀ j, j < cfg.scratchSealOff + scratchSealSize → f j = g j) :
    scratchImage cfg f = scratchImage cfg g := by
  have hat : ∀ o n, o + n ≤ scratchSealSize →
      bytesAt (fun j => f (cfg.scratchSealOff + j)) o n = bytesAt (fun j => g (cfg.scratchSealOff + j)) o n := by
    intro o n ho
    apply bytesAt_congr
    intro j _ hj
    exact h _ (by omega)
  have hlow : ∀ o n, o + n ≤ cfg.scratchSealOff → bytesAt f o n = bytesAt g o n := by
    intro o n ho
    apply bytesAt_congr
    intro j _ hj
    exact h _ (by omega)
  have hmagic : sealMagicOk (fun j => f (cfg.scratchSealOff + j)) =
      sealMagicOk fun j => g (cfg.scratchSealOff + j) := by
    unfold sealMagicOk leAt
    rw [hat 0 4 (by decide), hat 12 4 (by decide), hat 0 12 (by decide)]
  have hvalid : scratchSealValid cfg f = scratchSealValid cfg g := by
    unfold scratchSealValid
    simp only
    rw [hmagic]
    split
    . rw [leAt, hat 4 4 (by decide), ← leAt]
      split
      . rfl
      . next hlen =>
        rw [not_or, Nat.not_lt, Nat.not_lt] at hlen
        rw [hlow 0 _ (by omega), leAt, hat 8 4 (by decide), ← leAt]
    . rfl
  unfold bucketDataOff at h16
  unfold scratchImage
  rw [hvalid]
  split
  . rfl
  . next len hlen =>
    have hlen16 : len ≤ cfg.scratchSealOff := by
      unfold scratchSealValid at hlen
      simp only at hlen
      split at hlen
      . split at hlen
        . cases hlen
        . next hb =>
          split at hlen
          . cases hlen
            omega
          . cases hlen
      . cases hlen
    have hbid : leAt f 4 2 = leAt g 4 2 := by rw [leAt, leAt, hlow 4 2 (by omega)]
    rw [hbid, hlow 0 len (by omega)]
    simp only [bucketHdrValid_congr (f := f) (g := g) fun j hj => h j (by unfold bucketDataOff at hj; omega)]

-- An erase that is cut leaves the scratch sector in shape, and no seal but the one that was there.
theorem Scratched.erase_part (hv : cfg.Valid) (h : Scratched cfg f) (part : Nat) (upper : Bool) :
    Scratched cfg (Request.partly f part upper .erase) ∧
      (scratchImage cfg (Request.partly f part upper .erase) = scratchImage cfg f ∨
        scratchImage cfg (Request.partly f part upper .erase) = none) := by
  cases upper with
  | false =>
    have hpartly : Request.partly f part false .erase = eraseBelow f part := rfl
    rw [hpartly]
    rcases Nat.eq_zero_or_pos part with rfl | hpos
    . have hsame : eraseBelow f 0 = f := by
        funext j
        simp [eraseBelow]
      rw [hsame]
      exact ⟨h, .inl rfl⟩
    . have hzero : eraseBelow f part 0 = 0xff := if_pos hpos
      exact ⟨.start hzero, .inr (scratchImage_start hzero)⟩
  | true =>
    have hpartly : Request.partly f part true .erase = eraseFrom f part := rfl
    rw [hpartly]
    have hkeep : ∀ j, f j = 0xff → eraseFrom f part j = 0xff := by
      intro j hj
      unfold eraseFrom
      split
      . rfl
      . exact hj
    cases h with
    | start h => exact ⟨.start (hkeep _ h), .inr (scratchImage_start (hkeep _ h))⟩
    | stop h => exact ⟨.stop (hkeep _ h), .inr (scratchImage_stop (hkeep _ h))⟩
    | staged img k hmin hmax himg hseal =>
      rcases Nat.lt_or_ge cfg.scratchSealOff part with hpart | hpart
      . have hlow : ∀ j, j < part → eraseFrom f part j = f j := by
          intro j hj
          simp [eraseFrom, Nat.not_le.mpr hj]
        have himg' : bytesAt (eraseFrom f part) 0 img.length = img := by
          rw [bytesAt_congr fun j _ hj => hlow j (by omega)]
          exact himg
        have hseal' : ∀ j, j < scratchSealSize → eraseFrom f part (cfg.scratchSealOff + j) =
            if j < min k (part - cfg.scratchSealOff) then (scratchSealBytes img).getD j 0 else 0xff := by
          intro j hj
          have hs := hseal j hj
          unfold eraseFrom
          split
          . rw [if_neg (by omega)]
          . rw [hs]
            split
            . rw [if_pos (by omega)]
            . rw [if_neg (by omega)]
        refine ⟨.staged img _ hmin hmax himg' hseal', ?_⟩
        cases hvalid : scratchSealValid cfg (eraseFrom f part) with
        | none =>
          right
          unfold scratchImage
          rw [hvalid]
        | some len =>
          have hwhole := seal_whole hv hmax himg' hseal' hvalid
          left
          apply scratchImage_congr (hmin.trans hmax)
          intro j hj
          rcases Nat.lt_or_ge j part with hlt | hge
          . exact hlow j hlt
          . -- what the erase took away was an erased byte of the seal
            obtain ⟨i, rfl⟩ : ∃ i, j = cfg.scratchSealOff + i := ⟨j - cfg.scratchSealOff, by omega⟩
            have hi : i < scratchSealSize := by omega
            have hbyte := bytesAt_getD (eraseFrom f part) cfg.scratchSealOff scratchSealSize i 0 hi
            rw [hwhole] at hbyte
            have hff : eraseFrom f part (cfg.scratchSealOff + i) = 0xff := if_pos hge
            rw [hff] at hbyte ⊢
            rw [hseal i hi]
            split
            . rw [hbyte]
            . rfl
      . have hff : eraseFrom f part cfg.scratchSealOff = 0xff := if_pos hpart
        exact ⟨.stop hff, .inr (scratchImage_stop hff)⟩

theorem scratched_blank (cfg : Cfg) : Scratched cfg blank := .start rfl

-- While the image is staged there is no seal.
theorem staging_unsealed {img : List UInt8} (hmax : img.length ≤ cfg.scratchSealOff) :
    program blank 0 img cfg.scratchSealOff = 0xff := by
  rw [program_of_ge (by omega)]
  rfl

-- The scratch sector while its seal is written.
def sealing (cfg : Cfg) (img : List UInt8) (part : Nat) : Sector :=
  program (program blank 0 img) cfg.scratchSealOff
    ((padTo cfg.scratchSealLen (scratchSealBytes img)).take part)

section

variable {img : List UInt8} (hmax : img.length ≤ cfg.scratchSealOff) (part : Nat)

include hmax

theorem sealing_image : bytesAt (sealing cfg img part) 0 img.length = img := by
  unfold sealing
  rw [bytesAt_congr fun j _ hj => program_of_lt (by omega)]
  exact bytesAt_program fun _ _ _ => rfl

theorem sealing_seal (j : Nat) (hj : j < scratchSealSize) : sealing cfg img part (cfg.scratchSealOff + j) =
    if j < part then (scratchSealBytes img).getD j 0 else 0xff := by
  have hblank : program blank 0 img (cfg.scratchSealOff + j) = 0xff := by
    rw [program_of_ge (by omega)]
    rfl
  have hlen := scratchSealBytes_length img
  unfold sealing
  split
  . next hlt =>
    rw [program_of_erased (by omega) ?_ hblank, Nat.add_sub_cancel_left]
    . unfold padTo
      simp [List.getD_eq_getElem?_getD, List.getElem?_take, hlt, List.getElem?_append, hlen, hj]
    . unfold padTo
      simp only [List.length_take, List.length_append, hlen]
      omega
  . next hge =>
    rw [program_of_ge ?_, hblank]
    simp only [List.length_take]
    omega

theorem scratched_sealing (hmin : bucketDataOff ≤ img.length) : Scratched cfg (sealing cfg img part) :=
  .staged img part hmin hmax (sealing_image hmax part) (sealing_seal hmax part)

-- A seal that was cut short and yet verifies is the whole one.
theorem scratchImage_sealing (hv : cfg.Valid) (hmin : bucketDataOff ≤ img.length) :
    scratchImage cfg (sealing cfg img part) = none ∨
      scratchImage cfg (sealing cfg img part) = scratchImage cfg (stagedScratch cfg img) := by
  cases hvalid : scratchSealValid cfg (sealing cfg img part) with
  | none =>
    left
    unfold scratchImage
    rw [hvalid]
  | some len =>
    right
    have hwhole := seal_whole hv hmax (sealing_image hmax part) (sealing_seal hmax part) hvalid
    rw [← stagedScratch_seal hmax] at hwhole
    apply scratchImage_congr (hmin.trans hmax)
    intro j hj
    rcases Nat.lt_or_ge j cfg.scratchSealOff with hlt | hge
    . unfold sealing stagedScratch
      rw [program_of_lt hlt, program_of_lt hlt]
    . exact bytesAt_inj hwhole j hge hj

end

-- A sealed image is what a mount restores.
theorem scratchImage_staged (hv : cfg.Valid) {bid gen : Nat} {img rest : List UInt8}
    (hbid : bid < cfg.nBuckets) (himg : img = bucketHdrBytes bid gen ++ rest)
    (hmax : img.length ≤ cfg.scratchSealOff) :
    scratchImage cfg (stagedScratch cfg img) = some (bid, img) := by
  have hpebs := cfg.pebs_range
  have hbid16 : bid < 2 ^ 16 := by
    unfold Cfg.nBuckets at hbid
    omega
  have hhdr := bucketHdrBytes_length bid gen
  have hmin : bucketDataOff ≤ img.length := by
    rw [himg, List.length_append]
    omega
  have hoff := scratchSealOff_le cfg
  have hpeb := pebSize_le hv
  have hall := stagedScratch_image hmax
  have hhead : bytesAt (stagedScratch cfg img) 0 bucketDataOff = bucketHdrBytes bid gen := by
    have hcopy := hall
    generalize stagedScratch cfg img = g at hcopy ⊢
    rw [himg] at hcopy
    rw [← hhdr]
    exact (bytesAt_split hcopy).1
  have hvalid := bucketHdrValid_written hbid16 hhead
  have hb : leAt (stagedScratch cfg img) 4 2 = bid := by
    have h := hvalid
    unfold bucketHdrValid at h
    rw [Bool.and_eq_true, Bool.and_eq_true, beq_iff_eq, beq_iff_eq, beq_iff_eq] at h
    exact h.2.2
  unfold scratchImage
  rw [scratchSealValid_staged hmin hmax (by omega)]
  simp only [hb, hvalid, hall]
  rw [if_neg (by simp; omega)]

end

end KeyValueDb.BlobDb
