import KeyValueDb.BlobDb.Store

/-!
Bucket sectors: a header, then an append-only log of slots. Point operations walk the log by slot
header with small reads; compaction works on a resident image of the sector.
-/

namespace KeyValueDb.BlobDb

variable (cfg : Cfg)

def slotCrc16 (hdr id payload : List UInt8) : Nat :=
  crc16Ccitt (crc16Ccitt (crc16Ccitt 0xffff hdr) id) payload

def bucketHdrValid (buf : Sector) (bid : Nat) : Bool :=
  bytesAt buf 0 4 == bucketMagic &&
    (leAt buf 12 4 == crc32Ieee (bytesAt buf 0 12) && leAt buf 4 2 == bid)

structure SlotView where
  id : Nat
  flags : UInt8
  valLen : Nat
  totalSize : Nat
  deriving Repr, DecidableEq

-- A header that cannot be trusted to size its own slot: the log ends there.
def headEndsLog (h : SlotHead) : Bool :=
  h.flags == 0xff || (h.flags &&& slotSealed == 0 ||
    (h.flags &&& ~~~cfg.slotKnown != 0 || cfg.maxPayloadLen < h.valLen))

def slotIntactAt (buf : Sector) (off valLen : Nat) : Bool :=
  slotCrc16 (bytesAt buf off 4) (bytesAt buf (off + 4) 8) (bytesAt buf (off + slotHeadLen) valLen) ==
    leAt buf (off + slotHeadLen + valLen) 2

-- The slot at `off` as sized by its header, and whether its checksum verifies.
def slotWalkAt (buf : Sector) (off : Nat) : Option (SlotView × Bool) :=
  if cfg.pebSize < off + slotOverhead then none
  else
    let h := slotHdrAt buf off
    if headEndsLog cfg h then none
    else
      let ssz := cfg.slotSizeFor h.valLen
      if cfg.pebSize < off + ssz then none
      else some (⟨h.id, h.flags, h.valLen, ssz⟩, slotIntactAt buf off h.valLen)

def slotForeignHead (h : SlotHead) (off : Nat) : Bool :=
  h.flags != 0xff && (h.flags &&& slotSealed != 0 && (h.flags &&& ~~~cfg.slotKnown != 0 &&
    (h.valLen ≤ cfg.maxPayloadLen && off + cfg.slotSizeFor h.valLen ≤ cfg.pebSize)))

def slotForeignAt (buf : Sector) (off : Nat) : Bool :=
  if cfg.pebSize < off + slotOverhead then false
  else
    let h := slotHdrAt buf off
    slotForeignHead cfg h off && slotIntactAt buf off h.valLen

-- Whether an intact slot from `scan` on carries `id`.
def slotSupersededFrom (buf : Sector) (id : Nat) : Nat → Nat → Bool
  | 0, _ => false
  | n + 1, scan =>
    match slotWalkAt cfg buf scan with
    | none => false
    | some (future, intact) =>
      (intact && future.id == id) || slotSupersededFrom buf id n (scan + future.totalSize)

def slotSuperseded (buf : Sector) (off : Nat) (sv : SlotView) : Bool :=
  slotSupersededFrom cfg buf sv.id cfg.pebSize (off + sv.totalSize)

-- A whole sector in RAM.
def readSector (sector : Nat) : M Sector := readFlash fun flash => flash sector

def readBucket (bid : Nat) : M Sector := readSector (bucketSector bid)

def formatBucket (bid : Nat) : M Unit := do
  let rc ← Proc.attempt (storeReplace cfg (bucketSector bid) (bucketHdrBytes bid 1))
  match rc with
  | .ok _ => sidxBegin cfg bid bucketDataOff
  | .error e => do
    sidxForget cfg bid
    Proc.fail e

-- A cursor the index knows implies a header it has seen valid.
def readBucketHdr (bid : Nat) : M Bool := do
  let known ← sidxCursor cfg bid
  match known with
  | some _ => pure true
  | none => do
    let hdr ← storeRead (bucketSector bid) 0 bucketDataOff
    pure (bucketHdrValid (image hdr) bid)

-- The checksum of `left` payload bytes at `at`, read in chunks of 64, continued from `c`.
def crcOnFlash (bid : Nat) : Nat → Nat → Nat → Nat → M (Nat × Nat)
  | 0, at_, _, c => pure (c, at_)
  | n + 1, at_, left, c =>
    if left = 0 then pure (c, at_)
    else do
      let k := min left 64
      let chunk ← storeRead (bucketSector bid) at_ k
      crcOnFlash bid n (at_ + k) (left - k) (crc16Ccitt c chunk)

def slotCrcOkOnFlash (bid off : Nat) (raw : List UInt8) (valLen : Nat) : M Bool := do
  let c := crc16Ccitt (crc16Ccitt 0xffff (raw.take 4)) (raw.drop 4)
  let (c, at_) ← crcOnFlash bid (valLen + 1) (off + slotHeadLen) valLen c
  let stored ← storeRead (bucketSector bid) at_ 2
  pure (c == leNat stored)

-- The slot a walk is after: where it starts and its head as read from flash.
structure Target where
  off : Nat
  head : SlotHead
  raw : List UInt8
  deriving Repr, DecidableEq

structure BucketScan where
  writeCursor : Nat
  target : Option Target
  fromIndex : Bool
  tailTorn : Bool
  foreign : Bool
  deriving Repr, DecidableEq

def scanBucketFrom (bid targetId limit : Nat) : Nat → Nat → Option Target → M BucketScan
  | 0, cursor, target => pure ⟨cursor, target, false, false, false⟩
  | n + 1, cursor, target =>
    if cfg.pebSize < cursor + slotOverhead then pure ⟨cursor, target, false, false, false⟩
    else do
      let raw ← storeRead (bucketSector bid) cursor slotHeadLen
      let h := slotHdrAt (image raw) 0
      if headEndsLog cfg h then
        if slotForeignHead cfg h cursor then do
          let ok ← slotCrcOkOnFlash bid cursor raw h.valLen
          pure ⟨cursor, target, false, !ok && h.flags != 0xff, ok⟩
        else pure ⟨cursor, target, false, h.flags != 0xff, false⟩
      else
        let ssz := cfg.slotSizeFor h.valLen
        if cfg.pebSize < cursor + ssz then pure ⟨cursor, target, false, true, false⟩
        else
          let target := if h.id = targetId ∧ cursor < limit then some ⟨cursor, h, raw⟩ else target
          scanBucketFrom bid targetId limit n (cursor + ssz) target

-- The append cursor and the last slot of `targetId` that starts below `limit`.
def scanBucketFor (bid targetId limit : Nat) : M BucketScan :=
  scanBucketFrom cfg bid targetId limit cfg.pebSize bucketDataOff none

def slotPayload (bid : Nat) (t : Target) : M (List UInt8) :=
  if 0 < t.head.valLen then storeRead (bucketSector bid) (t.off + slotHeadLen) t.head.valLen
  else pure []

-- The payload of a target, or nothing where its checksum fails.
def slotVerify (bid : Nat) (t : Target) : M (Option (List UInt8)) := do
  let payload ← slotPayload bid t
  let stored ← storeRead (bucketSector bid) (t.off + slotHeadLen + t.head.valLen) 2
  if slotCrc16 (t.raw.take 4) (t.raw.drop 4) payload == leNat stored then pure (some payload)
  else pure none

structure LiveSlot where
  off : Nat
  head : SlotHead
  payload : List UInt8
  deriving Repr, DecidableEq

-- A lookup's answer: the live slot, if there is one, and where an append would go.
structure Found where
  scan : BucketScan
  live : Option LiveSlot
  deriving Repr, DecidableEq

-- Retry below a slot that fails its checksum. Only an answer taken from the full log is learned.
def walkLiveSlotBelow (bid id : Nat) (learn : Bool) : Nat → Nat → M Found
  | 0, _ => Proc.fail Errno.EIO
  | n + 1, limit => do
    let sc ← scanBucketFor cfg bid id limit
    if sc.foreign then Proc.fail .ENOTSUP
    else
      match sc.target with
      | none => do
        Proc.when (learn && limit == cfg.pebSize) (sidxLearn cfg bid id none sc.writeCursor)
        pure ⟨sc, none⟩
      | some t => do
        let verified ← slotVerify bid t
        match verified with
        | none => walkLiveSlotBelow bid id learn n t.off
        | some payload =>
          if t.head.flags &&& slotTombstone != 0 then pure ⟨sc, none⟩
          else do
            Proc.when (learn && limit == cfg.pebSize)
              (sidxLearn cfg bid id (some t.off) sc.writeCursor)
            pure ⟨sc, some ⟨t.off, t.head, payload⟩⟩

def walkLiveSlot (bid id : Nat) (learn : Bool) : M Found :=
  walkLiveSlotBelow cfg bid id learn (cfg.pebSize + 1) cfg.pebSize

-- The index's answer checked against the slot it names, or nothing where the walk has to decide.
def findIndexedSlot (bid id : Nat) : M (Option Found) := do
  let hit ← sidxLookup cfg bid id
  match hit with
  | none => pure none
  | some (off, cursor) =>
    if cursor < off + slotOverhead then do
      sidxForget cfg bid
      pure none
    else do
      let raw ← storeRead (bucketSector bid) off slotHeadLen
      let h := slotHdrAt (image raw) 0
      if h.id != id || (headEndsLog cfg h || cursor < off + cfg.slotSizeFor h.valLen) then do
        sidxForget cfg bid
        pure none
      else do
        let t : Target := ⟨off, h, raw⟩
        let sc : BucketScan := ⟨cursor, some t, true, false, false⟩
        let verified ← slotVerify bid t
        match verified with
        | none => pure none
        | some payload =>
          if h.flags &&& slotTombstone != 0 then pure (some ⟨sc, none⟩)
          else pure (some ⟨sc, some ⟨off, h, payload⟩⟩)

-- The newest intact slot of `id`, unless it is a tombstone.
def findLiveSlot (bid id : Nat) : M Found := do
  let indexed ← findIndexedSlot cfg bid id
  match indexed with
  | some found => pure found
  | none => walkLiveSlot cfg bid id true

def bucketCursor (bid id : Nat) : M BucketScan := do
  let known ← sidxCursor cfg bid
  match known with
  | some cursor => pure ⟨cursor, none, true, false, false⟩
  | none => do
    let sc ← scanBucketFor cfg bid id cfg.pebSize
    Proc.when (!sc.foreign) (sidxLearn cfg bid id none sc.writeCursor)
    pure sc

-- A log that ends at a torn slot reads as full, so that the writer compacts first.
def cursorPastTornTail (bid : Nat) (sc : BucketScan) : M BucketScan := do
  sidxForget cfg bid
  pure { sc with writeCursor := cfg.pebSize }

def confirmCursor (bid id : Nat) (sc : BucketScan) : M BucketScan :=
  if !sc.fromIndex then
    if sc.foreign then Proc.fail .ENOTSUP
    else if sc.tailTorn then cursorPastTornTail cfg bid { sc with tailTorn := false }
    else pure sc
  else
    let sc := { sc with fromIndex := false }
    if cfg.pebSize < sc.writeCursor + slotHeadLen then pure sc
    else do
      let head ← storeRead (bucketSector bid) sc.writeCursor slotHeadLen
      if head.all (· == 0xff) then pure sc
      else do
        sidxForget cfg bid
        let walk ← scanBucketFor cfg bid id cfg.pebSize
        if walk.foreign then Proc.fail .ENOTSUP
        else
          let sc := { sc with writeCursor := walk.writeCursor }
          if walk.tailTorn then cursorPastTornTail cfg bid sc else pure sc

def walkCursor (bid id : Nat) : M Nat := do
  let sc ← scanBucketFor cfg bid id cfg.pebSize
  let sc ← confirmCursor cfg bid id sc
  pure sc.writeCursor

-- Where the first append of an operation goes in bucket `bid`, formatted if it was not.
def openCursor (formatted : Bool) (bid id : Nat) : M Nat :=
  if !formatted then do
    formatBucket cfg bid
    pure bucketDataOff
  else walkCursor cfg bid id

-- The bytes of a slot on flash, filled up to the write unit.
def slotImage (flags : UInt8) (id : Nat) (payload : List UInt8) : List UInt8 :=
  padTo (cfg.slotSizeFor payload.length) (slotBytes flags id payload)

-- Append a slot whose payload is `hdr` followed by `payload`.
def appendSlot2 (bid writeCursor id : Nat) (extraFlags : UInt8) (hdr payload : List UInt8) :
    M Unit :=
  let valLen := hdr.length + payload.length
  if cfg.maxPayloadLen < valLen then Proc.fail .EINVAL
  else if maxWriteAlign < cfg.writeAlign then Proc.fail .ENOTSUP
  else do
    idxInvalidate cfg
    let data := slotImage cfg (slotSealed ||| extraFlags) id (hdr ++ payload)
    let rc ← Proc.attempt (storeWrite (bucketSector bid) writeCursor data)
    match rc with
    | .error e => do
      sidxForget cfg bid
      Proc.fail e
    | .ok _ =>
      sidxNote cfg bid id writeCursor (cfg.slotSizeFor valLen)
        (extraFlags &&& slotTombstone != 0)

def appendSlot (bid writeCursor id : Nat) (extraFlags : UInt8) (payload : List UInt8) : M Unit :=
  appendSlot2 cfg bid writeCursor id extraFlags [] payload

end KeyValueDb.BlobDb
