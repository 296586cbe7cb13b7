import KeyValueDb.BlobDb.Compaction

/-!
The scratch sector: what a mount would take from it, and what a compaction leaves in it.
-/

namespace KeyValueDb.BlobDb

variable (cfg : Cfg)

-- The bucket and the image that a mount would restore from the scratch sector.
def scratchImage (buf : Sector) : Option (Nat × List UInt8) :=
  match scratchSealValid cfg buf with
  | none => none
  | some len =>
    let bid := leAt buf 4 2
    if cfg.nBuckets ≤ bid ∨ bucketHdrValid buf bid = false then none
    else some (bid, bytesAt buf 0 len)

def Unsealed (flash : Flash) : Prop := scratchImage cfg (flash scratchSector) = none

instance (flash : Flash) : Decidable (Unsealed cfg flash) :=
  inferInstanceAs (Decidable (scratchImage cfg (flash scratchSector) = none))

theorem sealMagicOk_image (buf : Sector) (off : Nat) :
    sealMagicOk (image (bytesAt buf off scratchSealSize)) = sealMagicOk fun j => buf (off + j) := by
  have h : ∀ o n, o + n ≤ scratchSealSize →
      bytesAt (image (bytesAt buf off scratchSealSize)) o n =
        bytesAt (fun j => buf (off + j)) o n := by
    intro o n hn
    apply bytesAt_congr
    intro j _ hj
    exact image_bytesAt (by omega)
  unfold sealMagicOk leAt
  rw [h 0 4 (by decide), h 12 4 (by decide), h 0 12 (by decide)]

theorem scratchImage_of_magic {buf : Sector}
    (h : sealMagicOk (fun j => buf (cfg.scratchSealOff + j)) = false) :
    scratchImage cfg buf = none := by
  simp [scratchImage, scratchSealValid, h]

theorem scratchImage_blank : scratchImage cfg blank = none := by
  apply scratchImage_of_magic
  rfl

section

variable {cfg}

theorem padTo_eq (n : Nat) (data : List UInt8) : ∃ pad, padTo n data = data ++ pad := ⟨_, rfl⟩

-- The seal that a compaction writes vouches for the image it staged.
theorem scratchSealValid_of_written {buf : Sector} {img : List UInt8}
    (hmin : bucketDataOff ≤ img.length) (hmax : img.length ≤ cfg.scratchSealOff)
    (hlen : img.length < 2 ^ 32) (himg : bytesAt buf 0 img.length = img)
    (hseal : bytesAt buf cfg.scratchSealOff scratchSealSize = scratchSealBytes img) :
    scratchSealValid cfg buf = some img.length := by
  have h256 : 2 ^ 32 = 256 ^ 4 := by decide
  have htail : ∀ o n, bytesAt (fun j => buf (cfg.scratchSealOff + j)) o n =
      bytesAt buf (cfg.scratchSealOff + o) n := by
    intro o n
    induction n generalizing o with
    | zero => rfl
    | succ n ih => rw [bytesAt, bytesAt, ih]; rfl
  obtain ⟨hbody, hcrc⟩ := bytesAt_split (a := scratchSealBody img) (b := leBytes _ 4) hseal
  obtain ⟨hmagic, hrest⟩ := bytesAt_split (a := scratchMagic) (b := _ ++ _) hbody
  obtain ⟨hl, hc⟩ := bytesAt_split (a := leBytes img.length 4) (b := leBytes _ 4) hrest
  have hl' : leAt (fun j => buf (cfg.scratchSealOff + j)) 4 4 = img.length := by
    rw [leAt, htail]
    exact leAt_of_bytesAt hl (h256 ▸ hlen)
  have hc' : leAt (fun j => buf (cfg.scratchSealOff + j)) 8 4 = crc32Ieee img := by
    rw [leAt, htail]
    exact leAt_of_bytesAt hc (h256 ▸ crc32Ieee_lt _)
  have hm : sealMagicOk (fun j => buf (cfg.scratchSealOff + j)) = true := by
    unfold sealMagicOk
    rw [leAt, htail, htail, htail]
    have h1 : leNat (bytesAt buf (cfg.scratchSealOff + 12) 4) =
        crc32Ieee (scratchSealBody img) :=
      leAt_of_bytesAt hcrc (h256 ▸ crc32Ieee_lt _)
    have h2 : bytesAt buf (cfg.scratchSealOff + 0) 4 = scratchMagic := hmagic
    have h3 : bytesAt buf (cfg.scratchSealOff + 0) 12 = scratchSealBody img := hbody
    rw [h1, h2, h3]
    simp
  unfold scratchSealValid
  simp only [hm, if_true, hl', hc', himg]
  rw [if_neg (by omega)]
  simp

theorem scratchSealBytes_length (img : List UInt8) :
    (scratchSealBytes img).length = scratchSealSize := by
  simp [scratchSealBytes, scratchSealBody, scratchMagic, scratchSealSize]

-- The scratch sector once a compaction has staged `img` and sealed it.
def stagedScratch (cfg : Cfg) (img : List UInt8) : Sector :=
  program (program blank 0 img) cfg.scratchSealOff
    (padTo cfg.scratchSealLen (scratchSealBytes img))

theorem stagedScratch_image {img : List UInt8} (hmax : img.length ≤ cfg.scratchSealOff) :
    bytesAt (stagedScratch cfg img) 0 img.length = img := by
  have h : bytesAt (stagedScratch cfg img) 0 img.length =
      bytesAt (program blank 0 img) 0 img.length := by
    apply bytesAt_congr
    intro j _ hj
    exact program_of_lt (by omega)
  rw [h]
  exact bytesAt_program fun _ _ _ => rfl

theorem stagedScratch_seal {img : List UInt8} (hmax : img.length ≤ cfg.scratchSealOff) :
    bytesAt (stagedScratch cfg img) cfg.scratchSealOff scratchSealSize = scratchSealBytes img := by
  obtain ⟨pad, hpad⟩ := padTo_eq cfg.scratchSealLen (scratchSealBytes img)
  have h : bytesAt (program (program blank 0 img) cfg.scratchSealOff (scratchSealBytes img ++ pad))
      cfg.scratchSealOff (scratchSealBytes img ++ pad).length = scratchSealBytes img ++ pad :=
    bytesAt_program ?_
  . rw [← scratchSealBytes_length img]
    unfold stagedScratch
    rw [hpad]
    exact (bytesAt_split h).1
  . intro j hj _
    rw [program_of_ge (by omega)]
    rfl

theorem scratchSealValid_staged {img : List UInt8} (hmin : bucketDataOff ≤ img.length)
    (hmax : img.length ≤ cfg.scratchSealOff) (hlen : img.length < 2 ^ 32) :
    scratchSealValid cfg (stagedScratch cfg img) = some img.length :=
  scratchSealValid_of_written hmin hmax hlen (stagedScratch_image hmax) (stagedScratch_seal hmax)

end

end KeyValueDb.BlobDb
