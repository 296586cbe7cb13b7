import KeyValueDb.Lib.Bytes

/-!
The on-flash layout of blob_db, the choices a build makes, and the geometry a device reports.
-/

namespace KeyValueDb.BlobDb

/-- The error codes blob_db returns. -/
inductive Errno where
  | EIO | ENOENT | ENOTSUP | EINVAL | ENOSPC | ENODEV | EALREADY | ENOMEM | EFBIG | EBADMSG
  deriving Repr, DecidableEq

def masterASector : Nat := 0
def masterBSector : Nat := 1
def scratchSector : Nat := 2
def firstBucket : Nat := 3

def rootId : Nat := 1

def bucketSector (bid : Nat) : Nat := firstBucket + bid

def masterMagic : List UInt8 := [0x42, 0x44, 0x4d, 0x53]
def bucketMagic : List UInt8 := [0x42, 0x44, 0x42, 0x48]
def scratchMagic : List UInt8 := [0x42, 0x44, 0x53, 0x4c]
def indexMagic : List UInt8 := [0x42, 0x58]

def formatMajor : Nat := 5
def formatMinor : Nat := 0

def masterHdrMax : Nat := 128
def masterLogOff : Nat := masterHdrMax
def masterHdrLen : Nat := 64
def masterRecLen : Nat := 48

def idHintStep : Nat := 256

def slotOverhead : Nat := 14
def slotHeadLen : Nat := 12
def bucketDataOff : Nat := 16
def scratchSealSize : Nat := 16
def indexHdrLen : Nat := 16
def segHdrLen : Nat := 12

def maxWriteAlign : Nat := 32

def slotSealed : UInt8 := 1
def slotTombstone : UInt8 := 2
def slotIndexed : UInt8 := 4
def slotSegment : UInt8 := 8

def featLargePayloads : Nat := 1

/-- Unsigned 64-bit arithmetic. -/
def u64 (n : Nat) : Nat := n % 2 ^ 64

/-- The least multiple of `a` that is at least `n`. -/
def roundUp (n a : Nat) : Nat := (n + a - 1) / a * a

/-- The Kconfig choices of a build, each within its range. -/
structure Build where
  maxPayloadLen : Nat
  sectorBufSize : Nat
  large : Bool
  maxObjectLen : Nat
  maxSegments : Nat
  segmentLen : Nat
  testMasterLogCap : Nat
  autoformatOnCorrupt : Bool
  slotIndex : Bool
  slotIndexEntries : Nat
  slotIndexMaxBuckets : Nat
  payload_range : 1 ≤ maxPayloadLen ∧ maxPayloadLen ≤ 65535
  sector_range : 256 ≤ sectorBufSize ∧ sectorBufSize ≤ 65536
  object_range : maxPayloadLen ≤ maxObjectLen ∧ maxObjectLen ≤ 16777216
  segments_range : 2 ≤ maxSegments ∧ maxSegments ≤ 8192
  segment_range : segmentLen ≤ 65535
  entries_range : 64 ≤ slotIndexEntries ∧ slotIndexEntries ≤ 1048576
  entries_pow : ∃ k, k ≤ 20 ∧ slotIndexEntries = 2 ^ k
  buckets_range : 1 ≤ slotIndexMaxBuckets ∧ slotIndexMaxBuckets ≤ 65535

/-- What the storage backend reports when it is opened. -/
structure Device where
  pebSize : Nat
  reportedAlign : Nat
  nPebs : Nat
  preformat : Bool
  replaceIsAtomic : Bool
  sizeBits : Nat
  pebs_range : nPebs < 65536
  size_range : 32 ≤ sizeBits ∧ sizeBits ≤ 64

/-- A build running on a device. -/
structure Cfg extends Build, Device

namespace Cfg

variable (cfg : Cfg)

/-- The number of values of the device's `size_t`. -/
def sizeLim : Nat := 2 ^ cfg.sizeBits

def writeAlign : Nat := if cfg.reportedAlign = 0 then 1 else cfg.reportedAlign

def nBuckets : Nat := cfg.nPebs - firstBucket

/-- Bytes one master record takes in the log. -/
def recSize : Nat := roundUp masterRecLen cfg.writeAlign

/-- Record slots in a master sector. -/
def logCap : Nat :=
  let cap := min ((cfg.pebSize - masterLogOff) / cfg.recSize) 65535
  if 0 < cfg.testMasterLogCap then min cap cfg.testMasterLogCap else cap

/-- Every slot flag this build understands. -/
def slotKnown : UInt8 :=
  if cfg.large then slotSealed ||| slotTombstone ||| slotIndexed ||| slotSegment
  else slotSealed ||| slotTombstone

def buildIncompat : Nat := if cfg.large then featLargePayloads else 0

def slotSizeFor (valLen : Nat) : Nat := roundUp (slotOverhead + valLen) cfg.writeAlign

def idToBucket (id : Nat) : Nat := id % cfg.nBuckets

def scratchSealLen : Nat := roundUp scratchSealSize cfg.writeAlign

def scratchSealOff : Nat := cfg.pebSize - cfg.scratchSealLen

/-- The geometry checks every mount and every format of an unmounted store make first. -/
def storeOpenAndValidate : Except Errno Unit :=
  if cfg.sectorBufSize < cfg.pebSize then .error .ENOTSUP
  else if maxWriteAlign < cfg.writeAlign ∨ cfg.writeAlign &&& (cfg.writeAlign - 1) ≠ 0 then
    .error .ENOTSUP
  else if cfg.pebSize < masterLogOff + 2 * cfg.recSize then .error .ENOTSUP
  else if cfg.nPebs < firstBucket + 1 then .error .EINVAL
  else if (cfg.pebSize - bucketDataOff) / 2 - slotOverhead < cfg.maxPayloadLen then .error .ENOTSUP
  else .ok ()

-- What those checks leave to rely on.
structure Valid : Prop where
  buf : cfg.pebSize ≤ cfg.sectorBufSize
  align : cfg.writeAlign ≤ maxWriteAlign
  alignPow : cfg.writeAlign &&& (cfg.writeAlign - 1) = 0
  log : masterLogOff + 2 * cfg.recSize ≤ cfg.pebSize
  pebs : firstBucket + 1 ≤ cfg.nPebs
  payload : cfg.maxPayloadLen ≤ (cfg.pebSize - bucketDataOff) / 2 - slotOverhead

theorem valid_of_validate {cfg : Cfg} (h : cfg.storeOpenAndValidate = .ok ()) : cfg.Valid := by
  unfold storeOpenAndValidate at h
  split at h
  . cases h
  . split at h
    . cases h
    . next ha =>
      split at h
      . cases h
      . split at h
        . cases h
        . split at h
          . cases h
          . rw [not_or, not_not] at ha
            exact ⟨by omega, by omega, ha.2, by omega, by omega, by omega⟩

end Cfg

/-! Master sectors -/

/-- The fields of a master header that a reader looks at. -/
structure MasterHdr where
  rotGen : Nat
  pebSize : Nat
  nBuckets : Nat
  recSize : Nat
  incompat : Nat
  roCompat : Nat
  compat : Nat
  suite : Nat
  hdrLen : Nat
  maxPayloadLen : Nat
  writeAlign : Nat
  deriving Repr, DecidableEq

/-- The mutable master state one record carries. -/
structure MasterRec where
  nextIdHint : Nat
  segOwner : Nat
  fuses : Nat
  deriving Repr, DecidableEq

/-- The frozen prefix without its checksum: magic, major, minor, header length, reserved. -/
def masterPrefixBytes (hdrLen : Nat) : List UInt8 :=
  masterMagic ++ (leBytes formatMajor 1 ++ (leBytes formatMinor 1 ++ (leBytes hdrLen 2 ++
    leBytes 0 2)))

/-- The header up to its own checksum. -/
def masterBodyBytes (h : MasterHdr) : List UInt8 :=
  masterPrefixBytes h.hdrLen ++ (leBytes (crc16Ccitt 0xffff (masterPrefixBytes h.hdrLen)) 2 ++
    (leBytes h.rotGen 4 ++ (leBytes h.pebSize 4 ++ (leBytes h.nBuckets 2 ++ (leBytes h.recSize 2 ++
    (leBytes h.incompat 4 ++ (leBytes h.roCompat 4 ++ (leBytes h.compat 4 ++ (leBytes h.suite 1 ++
    (List.replicate 19 0 ++ (leBytes h.maxPayloadLen 2 ++ leBytes h.writeAlign 2)))))))))))

/-- The 64 bytes of a master header. -/
def masterHdrBytes (h : MasterHdr) : List UInt8 :=
  masterBodyBytes h ++ leBytes (crc32Ieee (masterBodyBytes h)) 4

/-- A record up to its checksum. -/
def masterRecBody (recNo : Nat) (r : MasterRec) : List UInt8 :=
  leBytes recNo 4 ++ (leBytes 0 4 ++ (leBytes r.nextIdHint 8 ++ (leBytes 0 8 ++
    (leBytes r.segOwner 8 ++ (leBytes 0 4 ++ (leBytes r.fuses 4 ++ leBytes 0 4))))))

/-- A record's checksum covers the rotation generation of its sector too. -/
def masterRecCrc (rotGen : Nat) (body : List UInt8) : Nat :=
  crc32IeeeUpdate (crc32Ieee (leBytes rotGen 4)) body

/-- The 48 bytes of record `recNo` of a sector at `rotGen`. -/
def masterRecBytes (rotGen recNo : Nat) (r : MasterRec) : List UInt8 :=
  masterRecBody recNo r ++ leBytes (masterRecCrc rotGen (masterRecBody recNo r)) 4

/-- `data` filled up with erased bytes to `n`. -/
def padTo (n : Nat) (data : List UInt8) : List UInt8 :=
  data ++ List.replicate (n - data.length) 0xff

/-! Bucket sectors -/

def bucketHdrBody (bid gen : Nat) : List UInt8 :=
  bucketMagic ++ (leBytes bid 2 ++ (leBytes 0 2 ++ leBytes gen 4))

/-- The 16 bytes of a bucket header. -/
def bucketHdrBytes (bid gen : Nat) : List UInt8 :=
  bucketHdrBody bid gen ++ leBytes (crc32Ieee (bucketHdrBody bid gen)) 4

/-- A slot's header and id. -/
structure SlotHead where
  flags : UInt8
  reserved : UInt8
  valLen : Nat
  id : Nat
  deriving Repr, DecidableEq

/-- The slot header at `off`, without its id. -/
def slotHdrAt (f : Sector) (off : Nat) : SlotHead where
  flags := f off
  reserved := f (off + 1)
  valLen := leAt f (off + 2) 2
  id := leAt f (off + 4) 8

def slotHeadBytes (flags : UInt8) (id valLen : Nat) : List UInt8 :=
  flags :: 0 :: (leBytes valLen 2 ++ leBytes id 8)

/-- A whole slot as it is written, without the padding to the write unit. -/
def slotBytes (flags : UInt8) (id : Nat) (payload : List UInt8) : List UInt8 :=
  slotHeadBytes flags id payload.length ++ (payload ++
    leBytes (crc16Ccitt 0xffff (slotHeadBytes flags id payload.length ++ payload)) 2)

/-! The compaction seal -/

def scratchSealBody (image : List UInt8) : List UInt8 :=
  scratchMagic ++ (leBytes image.length 4 ++ leBytes (crc32Ieee image) 4)

def scratchSealBytes (image : List UInt8) : List UInt8 :=
  scratchSealBody image ++ leBytes (crc32Ieee (scratchSealBody image)) 4

/-! Large objects -/

/-- The fields of an index record's header. -/
structure IndexHdr where
  magic : List UInt8
  version : Nat
  flags : Nat
  totalLen : Nat
  payloadCrc32 : Nat
  segCount : Nat
  segLen : Nat
  deriving Repr, DecidableEq

def indexVersion : Nat := 1
def indexFlagCrc32 : Nat := 1

def indexHdrBytes (h : IndexHdr) : List UInt8 :=
  h.magic ++ (leBytes h.version 1 ++ (leBytes h.flags 1 ++ (leBytes h.totalLen 4 ++
    (leBytes h.payloadCrc32 4 ++ (leBytes h.segCount 2 ++ leBytes h.segLen 2)))))

/-- The header at the start of an index record's payload. -/
def indexHdrOf (p : List UInt8) : IndexHdr where
  magic := p.take 2
  version := leNat ((p.drop 2).take 1)
  flags := leNat ((p.drop 3).take 1)
  totalLen := leNat ((p.drop 4).take 4)
  payloadCrc32 := leNat ((p.drop 8).take 4)
  segCount := leNat ((p.drop 12).take 2)
  segLen := leNat ((p.drop 14).take 2)

/-- A segment table: `n` ids of eight bytes each. -/
def segIdsOf (p : List UInt8) : Nat → List Nat
  | 0 => []
  | n + 1 => leNat (p.take 8) :: segIdsOf (p.drop 8) n

def segIdsBytes (ids : List Nat) : List UInt8 := ids.flatMap (leBytes · 8)

/-- The prefix of a segment's payload: whose chunk it is and which one. -/
structure SegHdr where
  ownerId : Nat
  seq : Nat
  deriving Repr, DecidableEq

def segHdrBytes (h : SegHdr) : List UInt8 :=
  leBytes h.ownerId 8 ++ (leBytes h.seq 2 ++ leBytes 0 2)

def segHdrOf (p : List UInt8) : SegHdr where
  ownerId := leNat (p.take 8)
  seq := leNat ((p.drop 8).take 2)

end KeyValueDb.BlobDb
