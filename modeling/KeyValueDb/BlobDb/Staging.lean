import KeyValueDb.BlobDb.Iterate
import KeyValueDb.BlobDb.System

/-!
Calls made from inside an iteration. A lookup stages every payload it checks at the start of the
sector buffer that the iteration walks, and a count reads the buckets into it. Here each read-only
call is modelled once more, with that buffer, for callbacks that make such calls.
-/

namespace KeyValueDb.BlobDb

structure Buffered where
  world : World
  buf : Sector

instance : Preorder Buffered where
  le s s' := s.world ≤ s'.world
  le_refl s := le_refl s.world
  le_trans _ _ _ h h' := le_trans h h'

abbrev B := Proc Buffered Errno

-- A step that leaves the buffer alone.
def quietly {α : Type} (x : M α) : B α where
  val s := ((x s.world).1, ⟨(x s.world).2, s.buf⟩)
  property s := x.grows s.world

-- The first bytes replaced.
def overlay (f : Sector) (data : List UInt8) : Sector :=
  fun i => if i < data.length then image data i else f i

def stage (payload : List UInt8) : B Unit :=
  Proc.modify (fun s => ⟨s.world, overlay s.buf payload⟩) fun s => le_refl s.world

-- What a count has found, with the buffer as it leaves it.
def counted (buf : Sector) (r : Out Errno (Nat × Sector) × World) : Out Errno Nat × Buffered :=
  match r with
  | (.ok (total, buf), w) => (.ok total, ⟨w, buf⟩)
  | (.err e, w) => (.err e, ⟨w, buf⟩)
  | (.cut, w) => (.cut, ⟨w, buf⟩)

theorem le_counted (buf : Sector) (r : Out Errno (Nat × Sector) × World) :
    r.2 ≤ (counted buf r).2.world := by
  obtain ⟨o, w⟩ := r
  cases o <;> exact le_refl w

def handBack {α : Type} (r : Out Errno α × Buffered) : Out Errno (α × Sector) × World :=
  match r with
  | (.ok a, s) => (.ok (a, s.buf), s.world)
  | (.err e, s) => (.err e, s.world)
  | (.cut, s) => (.cut, s.world)

theorem le_handBack {α : Type} (r : Out Errno α × Buffered) : r.2.world ≤ (handBack r).2 := by
  obtain ⟨o, s⟩ := r
  cases o <;> exact le_refl s.world

namespace Buffered

variable (cfg : Cfg)

def readRc {α : Type} (x : B α) : B α := do
  let rc ← Proc.attempt x
  match rc with
  | .ok a => pure a
  | .error .ENOTSUP => Proc.fail Errno.EIO
  | .error e => Proc.fail e

def slotVerify (bid : Nat) (t : Target) : B (Option (List UInt8)) := do
  let payload ← quietly (slotPayload bid t)
  stage payload
  let stored ← quietly (storeRead (bucketSector bid) (t.off + slotHeadLen + t.head.valLen) 2)
  if slotCrc16 (t.raw.take 4) (t.raw.drop 4) payload == leNat stored then pure (some payload)
  else pure none

def walkLiveSlotBelow (bid id : Nat) (learn : Bool) : Nat → Nat → B Found
  | 0, _ => Proc.fail Errno.EIO
  | n + 1, limit => do
    let sc ← quietly (scanBucketFor cfg bid id limit)
    if sc.foreign then Proc.fail .ENOTSUP
    else
      match sc.target with
      | none => do
        quietly (Proc.when (learn && limit == cfg.pebSize) (sidxLearn cfg bid id none sc.writeCursor))
        pure ⟨sc, none⟩
      | some t => do
        let verified ← slotVerify bid t
        match verified with
        | none => walkLiveSlotBelow bid id learn n t.off
        | some payload =>
          if t.head.flags &&& slotTombstone != 0 then pure ⟨sc, none⟩
          else do
            quietly (Proc.when (learn && limit == cfg.pebSize)
              (sidxLearn cfg bid id (some t.off) sc.writeCursor))
            pure ⟨sc, some ⟨t.off, t.head, payload⟩⟩

def walkLiveSlot (bid id : Nat) (learn : Bool) : B Found :=
  walkLiveSlotBelow cfg bid id learn (cfg.pebSize + 1) cfg.pebSize

def findIndexedSlot (bid id : Nat) : B (Option Found) := do
  let hit ← quietly (sidxLookup cfg bid id)
  match hit with
  | none => pure none
  | some (off, cursor) =>
    if cursor < off + slotOverhead then do
      quietly (sidxForget cfg bid)
      pure none
    else do
      let raw ← quietly (storeRead (bucketSector bid) off slotHeadLen)
      let h := slotHdrAt (image raw) 0
      if h.id != id || (headEndsLog cfg h || cursor < off + cfg.slotSizeFor h.valLen) then do
        quietly (sidxForget cfg bid)
        pure none
      else do
        let t : Target := ⟨off, h, raw⟩
        let sc : BucketScan := ⟨cursor, some t, true, false, false⟩
        let verified ← slotVerify bid t
        match verified with
        | none => pure none
        | some payload =>
          if h.flags &&& slotTombstone != 0 then pure (some ⟨sc, none⟩)
          else pure (some ⟨sc, some ⟨off, h, payload⟩⟩)

def findLiveSlot (bid id : Nat) : B Found := do
  let indexed ← findIndexedSlot cfg bid id
  match indexed with
  | some found => pure found
  | none => walkLiveSlot cfg bid id true

def indexLoad (id : Nat) : B (Option (IndexHdr × List Nat)) := do
  let bid := cfg.idToBucket id
  let formatted ← quietly (readBucketHdr cfg bid)
  if !formatted then Proc.fail .ENOENT
  else do
    let found ← findLiveSlot cfg bid id
    match found.live with
    | none => Proc.fail .ENOENT
    | some live =>
      if live.head.flags &&& slotIndexed == 0 then pure none
      else if live.head.valLen < indexHdrLen then Proc.fail Errno.EIO
      else do
        let st ← quietly getSt
        let h := indexHdrOf live.payload
        if indexHdrValid st h live.head.valLen then
          pure (some (h, segIdsOf (live.payload.drop indexHdrLen) h.segCount))
        else Proc.fail Errno.EIO

def indexLoadCached (id : Nat) : B (Option (IndexHdr × List Nat)) := do
  let st ← quietly getSt
  if st.idxId = id then pure (some (st.idxHdr, st.segA))
  else do
    let loaded ← indexLoad cfg id
    match loaded with
    | none => pure none
    | some (h, ids) => do
      quietly (modifySt fun st => { st with idxId := id, idxHdr := h, segA := ids })
      pure (some (h, ids))

def segChunkRead (owner segId seq skip len : Nat) : B (List UInt8) := do
  let bid := cfg.idToBucket segId
  let formatted ← quietly (readBucketHdr cfg bid)
  if !formatted then Proc.fail Errno.EIO
  else do
    let found ← findLiveSlot cfg bid segId
    match found.live with
    | none => Proc.fail Errno.EIO
    | some live =>
      if live.head.flags &&& slotSegment == 0 || live.head.valLen < segHdrLen then Proc.fail Errno.EIO
      else
        let sh := segHdrOf live.payload
        if sh.ownerId ≠ owner ∨ sh.seq ≠ seq then Proc.fail Errno.EIO
        else if live.head.valLen - segHdrLen < skip + len then Proc.fail Errno.EIO
        else pure (((live.payload.drop segHdrLen).drop skip).take len)

def segReadFrom (id : Nat) (h : IndexHdr) (ids : List Nat) : Nat → Nat → Nat → B (List UInt8)
  | 0, _, _ => pure []
  | n + 1, pos, len =>
    if len = 0 then pure []
    else do
      let seq := pos / h.segLen % 65536
      let skip := pos % h.segLen
      let k := min (h.segLen - skip) len
      let chunk ← segChunkRead cfg id (ids.getD seq 0) seq skip k
      let rest ← segReadFrom id h ids n (pos + k) (len - k)
      pure (chunk ++ rest)

def segReadRange (id : Nat) (h : IndexHdr) (offset len : Nat) : B (List UInt8) := do
  let st ← quietly getSt
  if h.totalLen ≤ offset then pure []
  else
    let len := min len (h.totalLen - offset)
    segReadFrom cfg id h st.segA (len + 1) offset len

def readImpl (id offset len : Nat) : B (List UInt8) := do
  let st ← quietly getSt
  if !st.mounted then Proc.fail .ENODEV
  else if id = 0 then Proc.fail .ENOENT
  else if cfg.large && st.idxId == id then segReadRange cfg id st.idxHdr offset len
  else do
    let bid := cfg.idToBucket id
    let formatted ← quietly (readBucketHdr cfg bid)
    if !formatted then Proc.fail .ENOENT
    else do
      let found ← findLiveSlot cfg bid id
      match found.live with
      | none => Proc.fail .ENOENT
      | some live =>
        if cfg.large && live.head.flags &&& slotSegment != 0 then Proc.fail .ENOENT
        else if cfg.large && live.head.flags &&& slotIndexed != 0 then do
          let loaded ← indexLoadCached cfg id
          match loaded with
          | none => Proc.fail Errno.EIO
          | some (h, _) => segReadRange cfg id h offset len
        else pure ((live.payload.drop offset).take len)

def getImpl (id outSz : Nat) : B (List UInt8) := do
  let st ← quietly getSt
  if !st.mounted then Proc.fail .ENODEV
  else if id = 0 then Proc.fail .ENOENT
  else do
    let bid := cfg.idToBucket id
    let formatted ← quietly (readBucketHdr cfg bid)
    if !formatted then Proc.fail .ENOENT
    else do
      let found ← findLiveSlot cfg bid id
      match found.live with
      | none => Proc.fail .ENOENT
      | some live =>
        if cfg.large && live.head.flags &&& slotSegment != 0 then Proc.fail .ENOENT
        else if cfg.large && live.head.flags &&& slotIndexed != 0 then do
          let loaded ← indexLoadCached cfg id
          match loaded with
          | none => Proc.fail Errno.EIO
          | some (h, _) =>
            if outSz < h.totalLen then Proc.fail .ENOMEM
            else readRc (readImpl cfg id 0 h.totalLen)
        else if outSz < live.head.valLen then Proc.fail .ENOMEM
        else pure live.payload

def sizeImpl (id : Nat) : B Nat := do
  let st ← quietly getSt
  if !st.mounted then Proc.fail .ENODEV
  else if id = 0 then Proc.fail .ENOENT
  else do
    let bid := cfg.idToBucket id
    let formatted ← quietly (readBucketHdr cfg bid)
    if !formatted then Proc.fail .ENOENT
    else do
      let found ← findLiveSlot cfg bid id
      match found.live with
      | none => Proc.fail .ENOENT
      | some live =>
        if cfg.large && live.head.flags &&& slotSegment != 0 then Proc.fail .ENOENT
        else if cfg.large && live.head.flags &&& slotIndexed != 0 then
          if live.head.valLen < indexHdrLen then Proc.fail Errno.EIO
          else
            let h := indexHdrOf live.payload
            if indexHdrValid st h live.head.valLen then pure h.totalLen else Proc.fail Errno.EIO
        else pure live.head.valLen

def existsImpl (id : Nat) : B Bool := do
  let st ← quietly getSt
  if !st.mounted || id == 0 then pure false
  else do
    let bid := cfg.idToBucket id
    let formatted ← Proc.attempt (quietly (readBucketHdr cfg bid))
    match formatted with
    | .ok true => do
      let found ← Proc.attempt (findLiveSlot cfg bid id)
      match found with
      | .ok found =>
        match found.live with
        | none => pure false
        | some live => pure (!(cfg.large && live.head.flags &&& slotSegment != 0))
      | .error _ => pure false
    | _ => pure false

-- A count works in the buffer itself.
def countImpl : B Nat where
  val s := counted s.buf (BlobDb.countImpl cfg s.buf s.world)
  property s := by
    show s.world ≤ (counted s.buf (BlobDb.countImpl cfg s.buf s.world)).2.world
    exact le_trans ((BlobDb.countImpl cfg s.buf).grows s.world) (le_counted s.buf _)

end Buffered

-- The calls that do not change the store.
inductive ReadOp where
  | get (id : UInt64) (outSz : Nat)
  | size (id : UInt64)
  | read (id : UInt64) (offset len : Nat)
  | exists (id : UInt64)
  | count
  deriving Repr, DecidableEq

def ReadOp.run (cfg : Cfg) : ReadOp → B Value
  | .get id outSz => do
    let data ← Buffered.readRc (Buffered.getImpl cfg id.toNat outSz)
    pure (.bytes data)
  | .size id => do
    let n ← Buffered.readRc (Buffered.sizeImpl cfg id.toNat)
    pure (.size n)
  | .read id offset len => do
    let data ← Buffered.readRc (Buffered.readImpl cfg id.toNat offset len)
    pure (.bytes data)
  | .exists id => do
    let b ← Buffered.existsImpl cfg id.toNat
    pure (.bool b)
  | .count => do
    let n ← Buffered.countImpl cfg
    pure (.size n)

-- What a callback does with a slot: calls, each chosen by the answers before it, and then a result.
inductive Script (σ : Type) where
  | done (result : σ)
  | call (op : ReadOp) (next : Except Errno Value → Script σ)

def Script.play {σ : Type} (cfg : Cfg) : Script σ → B σ
  | .done result => pure result
  | .call op next => do
    let answer ← Proc.attempt (op.run cfg)
    (next answer).play cfg

-- Run a call on the buffer of an iteration.
def onBuffer {α : Type} (x : B α) (buf : Sector) : M (α × Sector) where
  val w := handBack (x ⟨w, buf⟩)
  property w := by
    have h : w ≤ (x ⟨w, buf⟩).2.world := x.grows ⟨w, buf⟩
    exact le_trans h (le_handBack _)

-- A callback that makes read-only calls and always returns 0, with a note of what it is handed.
def scripted {σ : Type} (cfg : Cfg) (cb : σ → Nat → List UInt8 → Script σ) :
    Visitor (σ × List (Nat × List UInt8)) := fun user id payload buf => do
  let (result, buf) ← onBuffer ((cb user.1 id payload).play cfg) buf
  pure (0, (result, user.2 ++ [(id, payload)]), buf)

end KeyValueDb.BlobDb
