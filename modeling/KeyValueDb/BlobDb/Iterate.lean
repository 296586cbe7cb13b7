import KeyValueDb.BlobDb.Ops

/-!
Walks over every live slot of the store: `count` and `iterate`. They work on a whole sector in RAM,
in the one buffer that the lookups stage payloads in too, so a callback that calls back into the
library may leave it changed.
-/

namespace KeyValueDb.BlobDb

variable (cfg : Cfg)

-- Where the log of a resident bucket image stops.
def imageLogEnd (buf : Sector) : Nat → Nat → Nat
  | 0, off => off
  | n + 1, off =>
    match slotWalkAt cfg buf off with
    | none => off
    | some (sv, _) => imageLogEnd buf n (off + sv.totalSize)

def bucketImageEndsForeign (buf : Sector) : Bool :=
  slotForeignAt cfg buf (imageLogEnd cfg buf cfg.pebSize bucketDataOff)

-- A callback gets the id and the payload of a slot. It hands back its result, what it collected and
-- the buffer as the calls it made leave it.
abbrev Visitor (σ : Type) := σ → Nat → List UInt8 → Sector → M (Int × σ × Sector)

def forEachLiveSlot {σ : Type} (cb : Visitor σ) : Nat → Nat → σ → Sector → M (Int × σ × Sector)
  | 0, _, user, buf => pure (0, user, buf)
  | n + 1, cursor, user, buf =>
    match slotWalkAt cfg buf cursor with
    | none => pure (0, user, buf)
    | some (sv, intact) =>
      if !intact then forEachLiveSlot cb n (cursor + sv.totalSize) user buf
      else
        let superseded := slotSuperseded cfg buf cursor sv
        -- a segment is a chunk of another object, not an object
        let internal := cfg.large && sv.flags &&& slotSegment != 0
        if !superseded && (!internal && sv.flags &&& slotTombstone == 0) then do
          let (r, user, buf) ← cb user sv.id (bytesAt buf (cursor + slotHeadLen) sv.valLen) buf
          if r ≠ 0 then pure (r, user, buf)
          else forEachLiveSlot cb n (cursor + sv.totalSize) user buf
        else forEachLiveSlot cb n (cursor + sv.totalSize) user buf

def countVisitor : Visitor Nat := fun total _ _ buf => pure (0, total + 1, buf)

-- The count, and what it leaves in the buffer.
def countFrom : Nat → Nat → Nat → Sector → M (Nat × Sector)
  | 0, _, total, buf => pure (total, buf)
  | n + 1, bid, total, buf => do
    let rc ← Proc.attempt (readBucket bid)
    match rc with
    | .error _ => countFrom n (bid + 1) total buf
    | .ok buf =>
      if !bucketHdrValid buf bid then countFrom n (bid + 1) total buf
      else do
        let (_, total, buf) ← forEachLiveSlot cfg countVisitor cfg.pebSize bucketDataOff total buf
        countFrom n (bid + 1) total buf

def countImpl (buf : Sector) : M (Nat × Sector) := do
  let st ← getSt
  if !st.mounted then pure (0, buf) else countFrom cfg cfg.nBuckets 0 0 buf

-- A bucket that cannot be read is passed over. A result of the callback other than 0 ends the walk.
def iterateFrom {σ : Type} (cb : Visitor σ) : Nat → Nat → σ → M (Int × σ)
  | 0, _, user => pure (0, user)
  | n + 1, bid, user => do
    let rc ← Proc.attempt (readBucket bid)
    match rc with
    | .error _ => iterateFrom cb n (bid + 1) user
    | .ok buf =>
      if !bucketHdrValid buf bid then iterateFrom cb n (bid + 1) user
      else if bucketImageEndsForeign cfg buf then Proc.fail Errno.EIO
      else do
        let (r, user, _) ← forEachLiveSlot cfg cb cfg.pebSize bucketDataOff user buf
        if r ≠ 0 then pure (r, user) else iterateFrom cb n (bid + 1) user

def iterateImpl {σ : Type} (cb : Visitor σ) (user : σ) : M (Int × σ) := do
  let st ← getSt
  if !st.mounted then Proc.fail .ENODEV else iterateFrom cfg cb cfg.nBuckets 0 user

end KeyValueDb.BlobDb
