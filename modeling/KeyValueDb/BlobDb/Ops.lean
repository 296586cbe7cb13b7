import KeyValueDb.BlobDb.Segment

/-!
The operations on a mounted store. Each `Impl` is the body of one public call.
-/

namespace KeyValueDb.BlobDb

variable (cfg : Cfg)

-- To a reader a bucket that a foreign slot closes is data it cannot read.
def readRc {α : Type} (x : M α) : M α := do
  let rc ← Proc.attempt x
  match rc with
  | .ok a => pure a
  | .error .ENOTSUP => Proc.fail Errno.EIO
  | .error e => Proc.fail e

def segReadFrom (id : Nat) (h : IndexHdr) (ids : List Nat) : Nat → Nat → Nat → M (List UInt8)
  | 0, _, _ => pure []
  | n + 1, pos, len =>
    if len = 0 then pure []
    else do
      let seq := pos / h.segLen % 65536
      let skip := pos % h.segLen
      let k := min (h.segLen - skip) len
      let chunk ← segChunkRead cfg id (ids.getD seq 0) seq skip k
      let rest ← segReadFrom id h ids n (pos + k) (len - k)
      pure (chunk ++ rest)

-- Bytes [offset, offset + len) of a segmented object, clamped to its length.
def segReadRange (id : Nat) (h : IndexHdr) (offset len : Nat) : M (List UInt8) := do
  let st ← getSt
  if h.totalLen ≤ offset then pure []
  else
    let len := min len (h.totalLen - offset)
    segReadFrom cfg id h st.segA (len + 1) offset len

def readImpl (id offset len : Nat) : M (List UInt8) := do
  let st ← getSt
  if !st.mounted then Proc.fail .ENODEV
  else if id = 0 then Proc.fail .ENOENT
  else if cfg.large && st.idxId == id then segReadRange cfg id st.idxHdr offset len
  else do
    let bid := cfg.idToBucket id
    let formatted ← readBucketHdr cfg bid
    if !formatted then Proc.fail .ENOENT
    else do
      let found ← findLiveSlot cfg bid id
      match found.live with
      | none => Proc.fail .ENOENT
      | some live =>
        if cfg.large && live.head.flags &&& slotSegment != 0 then Proc.fail .ENOENT
        else if cfg.large && live.head.flags &&& slotIndexed != 0 then do
          let loaded ← indexLoadCached cfg id
          match loaded with
          | none => Proc.fail Errno.EIO
          | some (h, _) => segReadRange cfg id h offset len
        else pure ((live.payload.drop offset).take len)

def getImpl (id outSz : Nat) : M (List UInt8) := do
  let st ← getSt
  if !st.mounted then Proc.fail .ENODEV
  else if id = 0 then Proc.fail .ENOENT
  else do
    let bid := cfg.idToBucket id
    let formatted ← readBucketHdr cfg bid
    if !formatted then Proc.fail .ENOENT
    else do
      let found ← findLiveSlot cfg bid id
      match found.live with
      | none => Proc.fail .ENOENT
      | some live =>
        if cfg.large && live.head.flags &&& slotSegment != 0 then Proc.fail .ENOENT
        else if cfg.large && live.head.flags &&& slotIndexed != 0 then do
          let loaded ← indexLoadCached cfg id
          match loaded with
          | none => Proc.fail Errno.EIO
          | some (h, _) =>
            if outSz < h.totalLen then Proc.fail .ENOMEM
            else readRc (readImpl cfg id 0 h.totalLen)
        else if outSz < live.head.valLen then Proc.fail .ENOMEM
        else pure live.payload

def sizeImpl (id : Nat) : M Nat := do
  let st ← getSt
  if !st.mounted then Proc.fail .ENODEV
  else if id = 0 then Proc.fail .ENOENT
  else do
    let bid := cfg.idToBucket id
    let formatted ← readBucketHdr cfg bid
    if !formatted then Proc.fail .ENOENT
    else do
      let found ← findLiveSlot cfg bid id
      match found.live with
      | none => Proc.fail .ENOENT
      | some live =>
        if cfg.large && live.head.flags &&& slotSegment != 0 then Proc.fail .ENOENT
        else if cfg.large && live.head.flags &&& slotIndexed != 0 then
          if live.head.valLen < indexHdrLen then Proc.fail Errno.EIO
          else
            let h := indexHdrOf live.payload
            if indexHdrValid st h live.head.valLen then pure h.totalLen else Proc.fail Errno.EIO
        else pure live.head.valLen

def existsImpl (id : Nat) : M Bool := do
  let st ← getSt
  if !st.mounted || id == 0 then pure false
  else do
    let bid := cfg.idToBucket id
    let formatted ← Proc.attempt (readBucketHdr cfg bid)
    match formatted with
    | .ok true => do
      let found ← Proc.attempt (findLiveSlot cfg bid id)
      match found with
      | .ok found =>
        match found.live with
        | none => pure false
        | some live => pure (!(cfg.large && live.head.flags &&& slotSegment != 0))
      | .error _ => pure false
    | _ => pure false

def updateTooLong (st : St) (len : Nat) : Bool :=
  if cfg.large then
    cfg.maxObjectLen < len || (cfg.maxPayloadLen < len && !segEnabled st)
  else cfg.maxPayloadLen < len

-- The append cursor for an update of `id` and the outgoing generation of segments. With large
-- payloads the lookup is the verified one; an outgoing index that does not load counts as none.
def updateCursor (bid id : Nat) : M (Nat × List Nat) :=
  if cfg.large then do
    let found ← findLiveSlot cfg bid id
    let flags : UInt8 := match found.live with | some live => live.head.flags | none => 0
    if flags &&& slotSegment != 0 then Proc.fail .EINVAL
    else do
      let sc ← confirmCursor cfg bid id found.scan
      if flags &&& slotIndexed != 0 then do
        let loaded ← Proc.attempt (indexLoadCached cfg id)
        match loaded with
        | .ok (some (_, ids)) => pure (sc.writeCursor, ids)
        | _ => pure (sc.writeCursor, [])
      else pure (sc.writeCursor, [])
  else do
    let sc ← bucketCursor cfg bid id
    let sc ← confirmCursor cfg bid id sc
    pure (sc.writeCursor, [])

def updatePlace (formatted : Bool) (bid id : Nat) : M (Nat × List Nat) :=
  if !formatted then do
    formatBucket cfg bid
    pure (bucketDataOff, [])
  else updateCursor cfg bid id

-- A cursor with room for `ssz` bytes, after a compaction where the bucket is full.
def updateRoom (bid id ssz cursor : Nat) : M Nat :=
  if cfg.pebSize < cursor + ssz then do
    compactBucket cfg bid
    let sc ← bucketCursor cfg bid id
    let sc ← confirmCursor cfg bid id sc
    if cfg.pebSize < sc.writeCursor + ssz then Proc.fail .ENOSPC else pure sc.writeCursor
  else pure cursor

-- The inline append of an update, with the outgoing generation released after it.
def updateInline (bid id : Nat) (payload : List UInt8) (cursor : Nat) (oldIds : List Nat) :
    M Unit := do
  let cursor ← updateRoom cfg bid id (cfg.slotSizeFor payload.length) cursor
  Proc.when (!oldIds.isEmpty) (persistSegOwner cfg id)
  appendSlot cfg bid cursor id 0 payload
  Proc.when (!oldIds.isEmpty) do
    segRelease cfg oldIds
    persistSegOwner cfg 0

def updateImpl (id : Nat) (payload : List UInt8) : M Unit := do
  let st ← getSt
  if !st.mounted then Proc.fail .ENODEV
  else if st.wedged then Proc.fail Errno.EIO
  else if id = 0 ∨ st.nextId ≤ id then Proc.fail .EINVAL
  else if updateTooLong cfg st payload.length then Proc.fail .EINVAL
  else do
    Proc.when cfg.large (segFinishPending cfg)
    let bid := cfg.idToBucket id
    let formatted ← readBucketHdr cfg bid
    let place ← updatePlace cfg formatted bid id
    if cfg.maxPayloadLen < payload.length then segUpdate cfg id payload place.2
    else updateInline cfg bid id payload place.1 place.2

-- The live slot of `id` and a cursor with room for `ssz` bytes, after a compaction if needed.
def liveWithRoom (bid id ssz : Nat) (found : Found) : M Found := do
  let sc ← confirmCursor cfg bid id found.scan
  if cfg.pebSize < sc.writeCursor + ssz then do
    compactBucket cfg bid
    let found ← findLiveSlot cfg bid id
    match found.live with
    | none => Proc.fail .ENOENT
    | some _ => do
      let sc ← confirmCursor cfg bid id found.scan
      if cfg.pebSize < sc.writeCursor + ssz then Proc.fail .ENOSPC
      else pure { found with scan := sc }
  else pure { found with scan := sc }

-- The segments a delete has to release: none unless the slot is an index record that loads.
def deleteOutgoing (id : Nat) (flags : UInt8) : M (List Nat) :=
  if cfg.large && flags &&& slotIndexed != 0 then do
    let loaded ← Proc.attempt (indexLoadCached cfg id)
    match loaded with
    | .ok (some (_, ids)) => do
      persistSegOwner cfg id
      pure ids
    | _ => pure []
  else pure []

def deleteImpl (id : Nat) : M Unit := do
  let st ← getSt
  if !st.mounted then Proc.fail .ENODEV
  else if st.wedged then Proc.fail Errno.EIO
  else if id = 0 then Proc.fail .ENOENT
  else do
    Proc.when cfg.large (segFinishPending cfg)
    let bid := cfg.idToBucket id
    let formatted ← readBucketHdr cfg bid
    if !formatted then Proc.fail .ENOENT
    else do
      let found ← findLiveSlot cfg bid id
      match found.live with
      | none => Proc.fail .ENOENT
      | some live =>
        if cfg.large && live.head.flags &&& slotSegment != 0 then Proc.fail .EINVAL
        else do
          let found ← liveWithRoom cfg bid id (cfg.slotSizeFor 0) found
          let flags : UInt8 := match found.live with | some live => live.head.flags | none => 0
          let oldIds ← deleteOutgoing cfg id flags
          appendSlot cfg bid found.scan.writeCursor id slotTombstone []
          Proc.when (!oldIds.isEmpty) do
            segRelease cfg oldIds
            persistSegOwner cfg 0

-- The payload after `buf` is written at `offset`, with zeros between the old end and the new data.
def splice (old : List UInt8) (offset : Nat) (buf : List UInt8) : List UInt8 :=
  let grown := old ++ List.replicate (offset + buf.length - old.length) 0
  grown.take offset ++ (buf ++ grown.drop (offset + buf.length))

def writeImpl (id offset : Nat) (buf : List UInt8) : M Unit := do
  let st ← getSt
  if !st.mounted then Proc.fail .ENODEV
  else if st.wedged then Proc.fail Errno.EIO
  else if id = 0 then Proc.fail .ENOENT
  else if cfg.sizeLim ≤ offset + buf.length then Proc.fail .EINVAL
  else do
    Proc.when cfg.large (segFinishPending cfg)
    let bid := cfg.idToBucket id
    let formatted ← readBucketHdr cfg bid
    if !formatted then Proc.fail .ENOENT
    else do
      let found ← findLiveSlot cfg bid id
      match found.live with
      | none => Proc.fail .ENOENT
      | some live =>
        if live.head.flags &&& slotSegment != 0 then Proc.fail .EINVAL
        else if buf.isEmpty then pure ()
        else if cfg.large && live.head.flags &&& slotIndexed != 0 then
          pwriteSegmented cfg id offset buf
        else
          let need := max (offset + buf.length) live.head.valLen
          if cfg.maxPayloadLen < need then Proc.fail .EFBIG
          else do
            let found ← liveWithRoom cfg bid id (cfg.slotSizeFor need) found
            let old := match found.live with | some live => live.payload | none => []
            appendSlot cfg bid found.scan.writeCursor id 0 (splice old offset buf)

/-! Format, erase_all and maintenance -/

def bindRootEmpty : M Unit := do
  let rootBid := rootId % cfg.nBuckets
  formatBucket cfg rootBid
  appendSlot cfg rootBid bucketDataOff rootId 0 []

-- Zero the magic of a bucket that has one. A backend that replaces atomically gets a replaced
-- block instead of a write in place.
def invalidateOne (bid : Nat) : M Unit := do
  let peek ← storeRead (bucketSector bid) 0 4
  let zeros := List.replicate (max 4 (min cfg.writeAlign maxWriteAlign)) 0
  if peek != bucketMagic then pure ()
  else if cfg.replaceIsAtomic then storeReplace cfg (bucketSector bid) zeros
  else storeWrite (bucketSector bid) 0 zeros

def invalidateFrom (skip : Option Nat) : Nat → Nat → M Unit
  | 0, _ => pure ()
  | n + 1, bid => do
    Proc.when (skip != some bid) (invalidateOne cfg bid)
    invalidateFrom skip n (bid + 1)

def invalidateBuckets (skip : Option Nat) : M Unit := invalidateFrom cfg skip cfg.nBuckets 0

def formatMastersFresh : M Unit := do
  invalidateBuckets cfg none
  masterFormat cfg
  bindRootEmpty cfg

def formatWholeStore : M Unit := do
  idxInvalidate cfg
  sidxReset cfg
  modifySt fun st => { st with wedged := false }
  storeEraseAll cfg.nPebs 0
  masterFormat cfg
  bindRootEmpty cfg

def formatImpl : M Unit := do
  let st ← getSt
  if st.mounted then formatWholeStore cfg
  else do
    Proc.ofExcept cfg.storeOpenAndValidate
    formatWholeStore cfg
    modifySt fun st => { st with mounted := true }
    Proc.when cfg.large do
      let rc ← Proc.attempt (segGeometryInit cfg)
      match rc with
      | .ok _ => pure ()
      | .error e => do
        modifySt fun st => { st with mounted := false }
        Proc.fail e

def eraseAllImpl : M Unit := do
  let st ← getSt
  if !st.mounted then Proc.fail .ENODEV
  else if st.wedged then Proc.fail Errno.EIO
  else do
    idxInvalidate cfg
    sidxReset cfg
    invalidateBuckets cfg (some (rootId % cfg.nBuckets))
    bindRootEmpty cfg
    modifySt fun st => { st with nextId := 2, ceilingReset := true }
    let rc ← Proc.attempt (masterCommit cfg)
    match rc with
    | .ok _ => pure ()
    | .error e => do
      modifySt fun s => { s with nextId := st.nextId }
      Proc.fail e

def maintReset : M Unit :=
  modifySt fun st => { st with maintStart := st.nextId % cfg.nBuckets, maintScanned := 0 }

-- Find the next bucket that has no valid header and, if `format`, format it.
def preformatStep (format : Bool) : Nat → M Bool
  | 0 => pure false
  | n + 1 => do
    let st ← getSt
    if cfg.nBuckets ≤ st.maintScanned then pure false
    else do
      let bid := (st.maintStart + st.maintScanned) % cfg.nBuckets
      let scanned : M Unit := modifySt fun st => { st with maintScanned := st.maintScanned + 1 }
      if bid = rootId % cfg.nBuckets then do
        scanned
        preformatStep format n
      else do
        let peek ← storeRead (bucketSector bid) 0 bucketDataOff
        if bucketHdrValid (image peek) bid then do
          scanned
          preformatStep format n
        else if !format then pure false
        else do
          formatBucket cfg bid
          scanned
          pure true

def preformatSteps (budget : Nat) : Nat → Nat → M Nat
  | 0, performed => pure performed
  | n + 1, performed => do
    let formatted ← preformatStep cfg (performed < budget) (cfg.nBuckets + 1)
    if formatted then preformatSteps budget n (performed + 1) else pure performed

-- The steps taken and whether work is left. The backend's own deferred work changes no contents.
def maintainImpl (budget : Nat) : M (Nat × Bool) := do
  let st ← getSt
  if !st.mounted then Proc.fail .ENODEV
  else if st.wedged then Proc.fail Errno.EIO
  else if cfg.preformat then do
    let performed ← preformatSteps cfg budget (cfg.nBuckets + 1) 0
    let st ← getSt
    pure (performed, st.maintScanned < cfg.nBuckets)
  else pure (0, false)

end KeyValueDb.BlobDb
