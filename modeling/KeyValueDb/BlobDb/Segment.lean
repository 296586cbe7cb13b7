import KeyValueDb.BlobDb.Compaction
import KeyValueDb.BlobDb.Master

/-!
Large objects: segment slots and the index record that lists them. Writing the index record is the
commit. A segment that its owner's live index record does not list is garbage, and the master record
names the owner while there may be some.
-/

namespace KeyValueDb.BlobDb

variable (cfg : Cfg)

def segEnabled (st : St) : Bool := st.incompat % 2 == 1

-- Chunk bytes per segment and segments per index record.
def segGeometry : Except Errno (Nat × Nat) :=
  let chunkCap := (cfg.maxPayloadLen + cfg.sizeLim - segHdrLen) % cfg.sizeLim
  let sl := if cfg.segmentLen = 0 then cfg.pebSize / 4 else cfg.segmentLen
  let sl := if chunkCap < sl then chunkCap else sl
  if sl = 0 then .error .ENOTSUP
  else
    let idxCap := (cfg.maxPayloadLen + cfg.sizeLim - indexHdrLen) % cfg.sizeLim / 8
    let usable := min idxCap cfg.maxSegments
    if usable * sl < cfg.maxObjectLen then .error .ENOTSUP else .ok (sl, usable)

def segGeometryInit : M Unit := do
  let (sl, usable) ← Proc.ofExcept (segGeometry cfg)
  modifySt fun st => { st with segLen := sl, segMax := usable }

-- Record a segmented mutation in flight, so that mount knows to sweep.
def persistSegOwner (owner : Nat) : M Unit := do
  let st ← getSt
  if st.segOwner = owner then pure ()
  else do
    modifySt fun st => { st with segOwner := owner }
    let rc ← Proc.attempt (masterCommit cfg)
    match rc with
    | .ok _ => pure ()
    | .error e => do
      modifySt fun s => { s with segOwner := st.segOwner }
      Proc.fail e

def indexHdrValid (st : St) (h : IndexHdr) (valLen : Nat) : Bool :=
  let span := h.segCount * h.segLen
  h.magic == indexMagic && (h.version == indexVersion && (h.segCount != 0 &&
    (h.segCount ≤ st.segMax && (h.segLen != 0 && (indexHdrLen + h.segCount * 8 ≤ valLen &&
    (h.totalLen != 0 && (h.totalLen ≤ span && span - h.segLen < h.totalLen)))))))

-- The index record of `id` with its segment table; nothing for an inline payload.
def indexLoad (id : Nat) : M (Option (IndexHdr × List Nat)) := do
  let bid := cfg.idToBucket id
  let formatted ← readBucketHdr cfg bid
  if !formatted then Proc.fail .ENOENT
  else do
    let found ← findLiveSlot cfg bid id
    match found.live with
    | none => Proc.fail .ENOENT
    | some live =>
      if live.head.flags &&& slotIndexed == 0 then pure none
      else if live.head.valLen < indexHdrLen then Proc.fail Errno.EIO
      else do
        let st ← getSt
        let h := indexHdrOf live.payload
        if indexHdrValid st h live.head.valLen then
          pure (some (h, segIdsOf (live.payload.drop indexHdrLen) h.segCount))
        else Proc.fail Errno.EIO

-- The index record with the cache in front. Any append drops the cache.
def indexLoadCached (id : Nat) : M (Option (IndexHdr × List Nat)) := do
  let st ← getSt
  if st.idxId = id then pure (some (st.idxHdr, st.segA))
  else do
    let loaded ← indexLoad cfg id
    match loaded with
    | none => pure none
    | some (h, ids) => do
      modifySt fun st => { st with idxId := id, idxHdr := h, segA := ids }
      pure (some (h, ids))

-- Bytes [skip, skip + len) of a segment's chunk.
def segChunkRead (owner segId seq skip len : Nat) : M (List UInt8) := do
  let bid := cfg.idToBucket segId
  let formatted ← readBucketHdr cfg bid
  if !formatted then Proc.fail Errno.EIO
  else do
    let found ← findLiveSlot cfg bid segId
    match found.live with
    | none => Proc.fail Errno.EIO
    | some live =>
      if live.head.flags &&& slotSegment == 0 || live.head.valLen < segHdrLen then Proc.fail Errno.EIO
      else
        let sh := segHdrOf live.payload
        if sh.ownerId ≠ owner ∨ sh.seq ≠ seq then Proc.fail Errno.EIO
        else if live.head.valLen - segHdrLen < skip + len then Proc.fail Errno.EIO
        else pure (((live.payload.drop segHdrLen).drop skip).take len)

def segPlacementTries : Nat := 8

-- Where a segment slot of `ssz` bytes goes in bucket `bid`, or nothing where it has no room. A
-- failed compaction is not an error here: the bucket only counts as full.
def segPlace (bid sid ssz : Nat) : M (Option Nat) := do
  let formatted ← readBucketHdr cfg bid
  let cursor ← openCursor cfg formatted bid sid
  if cfg.pebSize < cursor + ssz then do
    let rc ← Proc.attempt (compactBucket cfg bid)
    match rc with
    | .ok _ => do
      let cursor ← walkCursor cfg bid sid
      pure (if cfg.pebSize < cursor + ssz then none else some cursor)
    | .error _ => pure none
  else pure (some cursor)

-- Append one chunk under a fresh id, probing with another id while the bucket is full.
def segWriteChunkTries (owner seq : Nat) (chunk : List UInt8) : Nat → M Nat
  | 0 => Proc.fail .ENOSPC
  | n + 1 => do
    let sid ← allocIdImpl cfg
    if sid = 0 then Proc.fail Errno.EIO
    else do
      let bid := cfg.idToBucket sid
      let place ← segPlace cfg bid sid (cfg.slotSizeFor (segHdrLen + chunk.length))
      match place with
      | none => segWriteChunkTries owner seq chunk n
      | some cursor => do
        appendSlot2 cfg bid cursor sid slotSegment (segHdrBytes ⟨owner, seq⟩) chunk
        pure sid

def segWriteChunk (owner seq : Nat) (chunk : List UInt8) : M Nat :=
  segWriteChunkTries cfg owner seq chunk segPlacementTries

-- Tombstone one segment; whether its bucket had to be compacted first.
def segReleaseOne (sid : Nat) : M Bool := do
  let bid := cfg.idToBucket sid
  let ssz := cfg.slotSizeFor 0
  let formatted ← readBucketHdr cfg bid
  if !formatted then Proc.fail .ENOENT
  else do
    let cursor ← walkCursor cfg bid sid
    if cfg.pebSize < cursor + ssz then do
      compactBucket cfg bid
      let cursor ← walkCursor cfg bid sid
      if cfg.pebSize < cursor + ssz then Proc.fail .ENOSPC
      else do
        appendSlot2 cfg bid cursor sid (slotTombstone ||| slotSegment) [] []
        pure true
    else do
      appendSlot2 cfg bid cursor sid (slotTombstone ||| slotSegment) [] []
      pure false

-- Best effort: a segment that cannot be tombstoned stays.
def segRelease : List Nat → M Unit
  | [] => pure ()
  | sid :: rest => do
    let _ ← Proc.attempt (segReleaseOne cfg sid)
    segRelease rest

def segHeadIsSegment (h : SlotHead) : Bool :=
  h.flags &&& slotSegment != 0 && (h.flags &&& slotTombstone == 0 && segHdrLen ≤ h.valLen)

-- Whether a lookup of `sid` found a segment of `owner` that `ids` does not list.
def segOrphan (owner : Nat) (ids : List Nat) (sid : Nat) (found : Except Errno Found) : Bool :=
  match found with
  | .error _ => false
  | .ok found =>
    match found.live with
    | none => false
    | some live =>
      live.head.flags &&& slotSegment != 0 && (segHdrLen ≤ live.head.valLen &&
        ((segHdrOf live.payload).ownerId == owner && !ids.contains sid))

-- One bucket of the sweep. A release that compacted moved the slots, so the walk starts again.
def segSweepBucket (owner : Nat) (ids : List Nat) (bid : Nat) : Nat → Nat → M Unit
  | 0, _ => Proc.cut
  | n + 1, cursor =>
    if cfg.pebSize < cursor + slotOverhead then pure ()
    else do
      let raw ← Proc.attempt (storeRead (bucketSector bid) cursor slotHeadLen)
      match raw with
      | .error _ => pure ()
      | .ok raw =>
        let h := slotHdrAt (image raw) 0
        if headEndsLog cfg h then pure ()
        else if cfg.pebSize < cursor + cfg.slotSizeFor h.valLen then pure ()
        else
          let cursor := cursor + cfg.slotSizeFor h.valLen
          if !segHeadIsSegment h then segSweepBucket owner ids bid n cursor
          else do
            let found ← Proc.attempt (findLiveSlot cfg bid h.id)
            if segOrphan owner ids h.id found then do
              let rc ← Proc.attempt (segReleaseOne cfg h.id)
              match rc with
              | .ok true => segSweepBucket owner ids bid n bucketDataOff
              | .ok false => segSweepBucket owner ids bid n cursor
              | .error .ENOENT => segSweepBucket owner ids bid n cursor
              | .error _ => pure ()
            else segSweepBucket owner ids bid n cursor

-- A bucket that is not formatted, or whose header cannot be read, is passed over.
def segSweepOne (owner : Nat) (ids : List Nat) (bid : Nat) : M Unit := do
  let formatted ← Proc.attempt (readBucketHdr cfg bid)
  match formatted with
  | .ok true => do
    let patience ← Proc.read World.patience
    segSweepBucket cfg owner ids bid patience bucketDataOff
  | _ => pure ()

def segSweepFrom (owner : Nat) (ids : List Nat) : Nat → Nat → M Unit
  | 0, _ => pure ()
  | n + 1, bid => do
    segSweepOne cfg owner ids bid
    segSweepFrom owner ids n (bid + 1)

-- The segments the owner's index lists; an index that cannot be read counts as listing none.
def segSweepListed (owner : Nat) : M (List Nat) := do
  let loaded ← Proc.attempt (indexLoadCached cfg owner)
  match loaded with
  | .ok (some (_, ids)) => pure ids
  | _ => pure []

-- Tombstone every segment of `owner` that its live index record does not list.
def segSweep (owner : Nat) : M Unit := do
  let ids ← segSweepListed cfg owner
  segSweepFrom cfg owner ids cfg.nBuckets 0
  persistSegOwner cfg 0

def segFinishPending : M Unit := do
  let st ← getSt
  if st.segOwner = 0 then pure () else segSweep cfg st.segOwner

-- A cursor with room for `ssz` bytes, after a compaction where the bucket is full.
def indexRoom (bid id ssz cursor : Nat) : M Nat :=
  if cfg.pebSize < cursor + ssz then do
    compactBucket cfg bid
    let cursor ← walkCursor cfg bid id
    if cfg.pebSize < cursor + ssz then Proc.fail .ENOSPC else pure cursor
  else pure cursor

-- Append the index record: the commit of every segmented write.
def indexCommit (id : Nat) (h : IndexHdr) (ids : List Nat) : M Unit := do
  let bid := cfg.idToBucket id
  let formatted ← readBucketHdr cfg bid
  let cursor ← openCursor cfg formatted bid id
  let cursor ← indexRoom cfg bid id (cfg.slotSizeFor (indexHdrLen + ids.length * 8)) cursor
  appendSlot2 cfg bid cursor id slotIndexed (indexHdrBytes h) (segIdsBytes ids)

-- Bytes [off, off + len) of the object as it stands; zeros past its end.
def oldBytes (owner : Nat) (h : IndexHdr) (ids : List Nat) : Nat → Nat → Nat → M (List UInt8)
  | 0, _, _ => pure []
  | n + 1, pos, len =>
    if len = 0 then pure []
    else
      let seq := pos / h.segLen % 65536
      if h.totalLen ≤ pos ∨ ids.length ≤ seq then pure (List.replicate len 0)
      else do
        let skip := pos % h.segLen
        let k := min (min (h.segLen - skip) len) (h.totalLen - pos)
        let chunk ← segChunkRead cfg owner (ids.getD seq 0) seq skip k
        let rest ← oldBytes owner h ids n (pos + k) (len - k)
        pure (chunk ++ rest)

def indexHdrPartial (total segCount segLen : Nat) : IndexHdr :=
  ⟨indexMagic, indexVersion, 0, total, 0, segCount, segLen⟩

def indexHdrFull (payload : List UInt8) (segCount segLen : Nat) : IndexHdr :=
  ⟨indexMagic, indexVersion, indexFlagCrc32, payload.length, crc32Ieee payload, segCount, segLen⟩

-- The bytes of chunk [cstart, cend) after `buf` is written at `offset`.
def pwriteChunkBytes (id : Nat) (h : IndexHdr) (ids : List Nat) (offset : Nat) (buf : List UInt8)
    (cstart cend : Nat) : M (List UInt8) :=
  let touched := offset < cend && cstart < offset + buf.length
  if touched && (offset ≤ cstart && cend ≤ offset + buf.length) then
    pure ((buf.drop (cstart - offset)).take (cend - cstart))
  else do
    let old ← oldBytes cfg id h ids (cend - cstart + 1) cstart (cend - cstart)
    if touched then
      let s := max offset cstart
      let e := min (offset + buf.length) cend
      pure (old.take (s - cstart) ++ ((buf.drop (s - offset)).take (e - s) ++
        old.drop (e - cstart)))
    else pure old

-- The segment that holds chunk `j` after a partial write: a chunk that the range does not touch
-- and whose length does not change keeps its segment.
def pwriteChunk (id : Nat) (h : IndexHdr) (ids : List Nat) (offset : Nat) (buf : List UInt8)
    (newTotal j : Nat) : M Nat :=
  let cstart := j * h.segLen
  let cend := min (cstart + h.segLen) newTotal
  let touched := offset < cend && cstart < offset + buf.length
  let fresh := ids.length ≤ j
  let resized := min (cstart + h.segLen) h.totalLen - cstart != cend - cstart
  if touched || (fresh || resized) then do
    let chunk ← pwriteChunkBytes cfg id h ids offset buf cstart cend
    segWriteChunk cfg id j chunk
  else pure (ids.getD j 0)

-- The segment table of a partial write from chunk `j` on.
def pwriteChunks (id : Nat) (h : IndexHdr) (ids : List Nat) (offset : Nat) (buf : List UInt8)
    (newTotal : Nat) : Nat → Nat → M (List Nat)
  | 0, _ => pure []
  | n + 1, j => do
    let sid ← pwriteChunk cfg id h ids offset buf newTotal j
    let rest ← pwriteChunks id h ids offset buf newTotal n (j + 1)
    pure (sid :: rest)

-- The old segments a partial write replaced.
def replacedSegs (old new : List Nat) : List Nat :=
  ((old.zip new).filter fun p => p.1 != p.2).map Prod.fst

def pwriteSegmented (id offset : Nat) (buf : List UInt8) : M Unit := do
  let loaded ← indexLoadCached cfg id
  match loaded with
  | none => Proc.fail Errno.EIO
  | some (h, ids) => do
    let st ← getSt
    let newTotal := max h.totalLen (offset + buf.length)
    let newK := (newTotal + h.segLen - 1) / h.segLen
    if cfg.maxObjectLen < newTotal then Proc.fail .EFBIG
    else if st.segMax < newK then Proc.fail .EFBIG
    else if cfg.maxPayloadLen < h.segLen then Proc.fail Errno.EIO
    else do
      persistSegOwner cfg id
      let newIds ← pwriteChunks cfg id h ids offset buf newTotal newK 0
      indexCommit cfg id (indexHdrPartial newTotal newK h.segLen) newIds
      segRelease cfg (replacedSegs ids newIds)
      persistSegOwner cfg 0

-- Write the chunks of `payload` from chunk `j` on; their ids.
def segUpdateChunks (id segLen : Nat) : Nat → Nat → List UInt8 → M (List Nat)
  | 0, _, _ => pure []
  | n + 1, j, payload => do
    let sid ← segWriteChunk cfg id j (payload.take segLen)
    let rest ← segUpdateChunks id segLen n (j + 1) (payload.drop segLen)
    pure (sid :: rest)

def segUpdate (id : Nat) (payload : List UInt8) (oldIds : List Nat) : M Unit := do
  let st ← getSt
  let k := (payload.length + st.segLen - 1) / st.segLen
  if cfg.maxObjectLen < payload.length then Proc.fail .EFBIG
  else if st.segMax < k then Proc.fail .EFBIG
  else do
    persistSegOwner cfg id
    let ids ← segUpdateChunks cfg id st.segLen k 0 payload
    indexCommit cfg id (indexHdrFull payload k st.segLen) ids
    segRelease cfg oldIds
    persistSegOwner cfg 0

end KeyValueDb.BlobDb
