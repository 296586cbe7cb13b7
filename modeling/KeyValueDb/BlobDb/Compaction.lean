import KeyValueDb.BlobDb.Bucket

/-!
Compaction of one bucket through the scratch sector, and the recovery mount runs when power was lost
inside its window. The seal at the tail of the scratch sector opens the window; erasing the scratch
sector closes it.
-/

namespace KeyValueDb.BlobDb

variable (cfg : Cfg)

-- Pack the slots that survive, in one buffer: the walk at `cursor` never reads what was written.
def compactFrom : Nat → Sector → Nat → Nat → Sector × Nat × Nat
  | 0, buf, newCursor, cursor => (buf, newCursor, cursor)
  | n + 1, buf, newCursor, cursor =>
    match slotWalkAt cfg buf cursor with
    | none => (buf, newCursor, cursor)
    | some (sv, intact) =>
      if intact && (sv.flags &&& slotTombstone == 0 && !slotSuperseded cfg buf cursor sv) then
        let buf := if newCursor = cursor then buf else memmove buf newCursor cursor sv.totalSize
        compactFrom n buf (newCursor + sv.totalSize) (cursor + sv.totalSize)
      else compactFrom n buf newCursor (cursor + sv.totalSize)

-- The compacted image, its length, and where the walk of the old image stopped.
def buildCompactedImage (buf : Sector) (bid : Nat) : Sector × Nat × Nat :=
  let oldGen := leAt buf 8 4
  let (buf, newLen, stop) := compactFrom cfg cfg.pebSize buf bucketDataOff bucketDataOff
  (memcpy buf 0 (bucketHdrBytes bid (oldGen + 1)), newLen, stop)

def compactionMayDropTail (buf : Sector) (stop : Nat) : Except Errno Unit :=
  if slotForeignAt cfg buf stop then .error .ENOTSUP
  else
    let from_ := stop + cfg.slotSizeFor cfg.maxPayloadLen
    if allErased buf from_ (cfg.pebSize - from_) then .ok () else .error Errno.EIO

def scratchSealWrite (image : List UInt8) : M Unit :=
  storeWrite scratchSector cfg.scratchSealOff (padTo cfg.scratchSealLen (scratchSealBytes image))

def sealMagicOk (tail : Sector) : Bool :=
  bytesAt tail 0 4 == scratchMagic && leAt tail 12 4 == crc32Ieee (bytesAt tail 0 12)

-- The length of the image a seal vouches for.
def scratchSealValid (buf : Sector) : Option Nat :=
  let tail : Sector := fun j => buf (cfg.scratchSealOff + j)
  if sealMagicOk tail then
    let len := leAt tail 4 4
    if len < bucketDataOff ∨ cfg.scratchSealOff < len then none
    else if leAt tail 8 4 == crc32Ieee (bytesAt buf 0 len) then some len
    else none
  else none

-- An error inside the window refuses every further mutation until a mount or a format.
def compactOrWedge (x : M Unit) : M Unit := do
  let rc ← Proc.attempt x
  match rc with
  | .ok _ => pure ()
  | .error e => do
    modifySt fun st => { st with wedged := true }
    Proc.fail e

def compactCommit (bid : Nat) (image : List UInt8) : M Unit :=
  if cfg.scratchSealOff < image.length then Proc.fail .ENOSPC
  else if cfg.replaceIsAtomic then storeReplace cfg (bucketSector bid) image
  else do
    storeErase scratchSector
    storeWrite scratchSector 0 image
    scratchSealWrite cfg image
    compactOrWedge (storeErase (bucketSector bid))
    compactOrWedge (storeWrite (bucketSector bid) 0 image)
    compactOrWedge (storeErase scratchSector)

-- Index the slots of a compacted image; the offset where that ended.
def noteImage (bid : Nat) (buf : Sector) (newLen : Nat) : Nat → Nat → M Nat
  | 0, off => pure off
  | n + 1, off =>
    if off < newLen then
      match slotWalkAt cfg buf off with
      | some (sv, true) => do
        sidxNote cfg bid sv.id off sv.totalSize (sv.flags &&& slotTombstone != 0)
        noteImage bid buf newLen n (off + sv.totalSize)
      | _ => pure off
    else pure off

def compactBucket (bid : Nat) : M Unit := do
  let buf ← readBucket bid
  if !bucketHdrValid buf bid then Proc.fail .EINVAL
  else do
    let (buf, newLen, stop) := buildCompactedImage cfg buf bid
    Proc.ofExcept (compactionMayDropTail cfg buf stop)
    let rc ← Proc.attempt (compactCommit cfg bid (bytesAt buf 0 newLen))
    match rc with
    | .error e => do
      sidxForget cfg bid
      Proc.fail e
    | .ok _ => do
      sidxBegin cfg bid bucketDataOff
      let off ← noteImage cfg bid buf newLen cfg.pebSize bucketDataOff
      Proc.when (off != newLen) (sidxForget cfg bid)

-- The bucket a sealed scratch image belongs to, with the image.
def scratchSealedBucket : M (Option (Nat × List UInt8)) := do
  let tail ← storeRead scratchSector cfg.scratchSealOff scratchSealSize
  if !sealMagicOk (image tail) then pure none
  else do
    let buf ← readSector scratchSector
    match scratchSealValid cfg buf with
    | none => pure none
    | some len =>
      let bid := leAt buf 4 2
      if cfg.nBuckets ≤ bid ∨ bucketHdrValid buf bid = false then pure none
      else pure (some (bid, bytesAt buf 0 len))

def recoverCompaction : M Unit := do
  let found ← scratchSealedBucket cfg
  match found with
  | none => pure ()
  | some (bid, image) => do
    storeErase (bucketSector bid)
    storeWrite (bucketSector bid) 0 image
    storeErase scratchSector

end KeyValueDb.BlobDb
