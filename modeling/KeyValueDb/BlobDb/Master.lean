import KeyValueDb.BlobDb.Bucket

/-!
Master sectors: a header written once per erase and an append-only log of records, each a full copy
of the mutable state. An update appends one record; a full sector rotates into the other one.
-/

namespace KeyValueDb.BlobDb

variable (cfg : Cfg)

inductive MasterClass where
  | erased | corrupt | foreign | ok
  deriving Repr, DecidableEq

def masterHdrAt (buf : Sector) : MasterHdr where
  rotGen := leAt buf 12 4
  pebSize := leAt buf 16 4
  nBuckets := leAt buf 20 2
  recSize := leAt buf 22 2
  incompat := leAt buf 24 4
  roCompat := leAt buf 28 4
  compat := leAt buf 32 4
  suite := leAt buf 36 1
  hdrLen := leAt buf 6 2
  maxPayloadLen := leAt buf 56 2
  writeAlign := leAt buf 58 2

-- The frozen prefix verifies: whatever it says was written on purpose.
def masterPrefixOk (buf : Sector) : Bool := leAt buf 10 2 == crc16Ccitt 0xffff (bytesAt buf 0 10)

def masterClassOf (buf : Sector) : MasterClass :=
  if allErased buf 0 masterHdrMax then .erased
  else if !masterPrefixOk buf then .corrupt
  else if bytesAt buf 0 4 != masterMagic then .foreign
  else if leAt buf 4 1 != formatMajor then .foreign
  else if leAt buf 6 2 < masterHdrLen ∨ masterHdrMax < leAt buf 6 2 then .foreign
  else if leAt buf 60 4 != crc32Ieee (bytesAt buf 0 60) then .corrupt
  else .ok

def masterClassify (slot : Nat) : M (MasterClass × MasterHdr) := do
  let buf ← storeRead slot 0 masterHdrMax
  pure (masterClassOf (image buf), masterHdrAt (image buf))

-- `a` has no bit outside `mask`.
def bitsWithin (a mask : Nat) : Bool := a ||| mask == mask

def buildRoCompat : Nat := 0
def buildSuite : Nat := 0
def buildHdrLen : Nat := 64

def masterAccept (h : MasterHdr) : Bool :=
  bitsWithin h.incompat cfg.buildIncompat && (bitsWithin h.roCompat buildRoCompat &&
    (h.suite == buildSuite && (h.hdrLen == buildHdrLen && (h.pebSize == cfg.pebSize &&
    (h.nBuckets == cfg.nBuckets && (h.recSize == cfg.recSize &&
    (h.maxPayloadLen ≤ cfg.maxPayloadLen && h.writeAlign == cfg.writeAlign)))))))

structure MasterLog where
  endSlot : Nat
  newest : Option (Nat × MasterRec)
  tailBad : Bool
  deriving Repr, DecidableEq

def masterRecAt (buf : Sector) (off : Nat) : MasterRec where
  nextIdHint := leAt buf (off + 8) 8
  segOwner := leAt buf (off + 24) 8
  fuses := leAt buf (off + 36) 4

-- Whether the record at `off` verifies as record `i` of a sector at `rotGen`.
def masterRecOk (rotGen : Nat) (buf : Sector) (off i : Nat) : Bool :=
  leAt buf off 4 == i && leAt buf (off + 44) 4 == masterRecCrc rotGen (bytesAt buf off 44)

def masterRecOff (i : Nat) : Nat := masterLogOff + i * cfg.recSize

def masterSlotRead (slot i : Nat) : M (List UInt8) :=
  storeRead slot (masterRecOff cfg i) cfg.recSize

-- Binary search for the end: the slots below `lo` are written, those from `hi` on read erased.
def masterLogEnd (slot : Nat) : Nat → Nat → Nat → M Nat
  | 0, lo, _ => pure lo
  | n + 1, lo, hi =>
    if lo < hi then do
      let mid := lo + (hi - lo) / 2
      let buf ← masterSlotRead cfg slot mid
      if buf.all (· == 0xff) then masterLogEnd slot n lo mid
      else masterLogEnd slot n (mid + 1) hi
    else pure lo

-- The newest record below slot `n` that verifies.
def masterLogNewest (slot rotGen : Nat) : Nat → M (Option (Nat × MasterRec))
  | 0 => pure none
  | n + 1 => do
    let buf ← masterSlotRead cfg slot n
    if masterRecOk rotGen (image buf) 0 n then pure (some (n, masterRecAt (image buf) 0))
    else masterLogNewest slot rotGen n

def masterLogLoad (slot rotGen : Nat) : M MasterLog := do
  let endSlot ← masterLogEnd cfg slot (cfg.logCap + 1) 0 cfg.logCap
  let newest ← masterLogNewest cfg slot rotGen endSlot
  let tailBad :=
    match newest with
    | some (i, _) => i + 1 != endSlot
    | none => endSlot != 0
  pure ⟨endSlot, newest, tailBad⟩

-- Every record raises the ceiling to a step past the next id. Only erase_all's may lower it.
def masterRecFill (st : St) : MasterRec :=
  let want := u64 (st.nextId + 1 + idHintStep)
  { nextIdHint := if st.ceilingReset then want else max st.nextIdHint want
    segOwner := st.segOwner
    fuses := st.fuses }

def masterHdrOf (st : St) (rotGen : Nat) : MasterHdr where
  rotGen := rotGen
  pebSize := cfg.pebSize
  nBuckets := cfg.nBuckets
  recSize := cfg.recSize
  incompat := st.incompat
  roCompat := st.roCompat
  compat := st.compat
  suite := buildSuite
  hdrLen := buildHdrLen
  maxPayloadLen := cfg.maxPayloadLen
  writeAlign := cfg.writeAlign

def masterRecImage (rotGen recNo : Nat) (r : MasterRec) : List UInt8 :=
  padTo cfg.recSize (masterRecBytes rotGen recNo r)

def masterSectorImage (st : St) (rotGen : Nat) (r : MasterRec) : List UInt8 :=
  padTo masterLogOff (masterHdrBytes (masterHdrOf cfg st rotGen)) ++ masterRecImage cfg rotGen 0 r

def masterWriteSector (slot rotGen : Nat) (r : MasterRec) : M Unit := do
  let st ← getSt
  storeReplace cfg slot (masterSectorImage cfg st rotGen r)

def masterRotate (r : MasterRec) : M Unit := do
  let st ← getSt
  let other := 1 - st.activeMaster
  if st.rotGen = 2 ^ 32 - 1 then Proc.fail .ENOSPC
  else do
    masterWriteSector cfg other (st.rotGen + 1) r
    modifySt fun st => { st with
      activeMaster := other
      rotGen := st.rotGen + 1
      logNext := 1
      logFailed := false }

-- A failed write leaves its slot possibly erased, so the next commit rotates.
def masterAppend (r : MasterRec) : M Unit := do
  let st ← getSt
  let rc ← Proc.attempt (storeWrite st.activeMaster (masterRecOff cfg st.logNext)
    (masterRecImage cfg st.rotGen st.logNext r))
  modifySt fun st => { st with logNext := st.logNext + 1 }
  match rc with
  | .ok _ => pure ()
  | .error e => do
    modifySt fun st => { st with logFailed := true }
    Proc.fail e

def masterCommitHow (forceRotate : Bool) : M Unit := do
  let st ← getSt
  let r := masterRecFill st
  let rc ← Proc.attempt
    (if forceRotate || (st.logFailed || cfg.logCap ≤ st.logNext) then masterRotate cfg r
    else masterAppend cfg r)
  modifySt fun st => { st with ceilingReset := false }
  match rc with
  | .ok _ => modifySt fun st => { st with nextIdHint := r.nextIdHint }
  | .error e => Proc.fail e

def masterCommit : M Unit := masterCommitHow cfg false

def masterCommitRotate : M Unit := masterCommitHow cfg true

def masterFormat : M Unit := do
  modifySt fun st => { st with
    nextId := 2
    segOwner := 0
    fuses := 0
    incompat := cfg.buildIncompat
    roCompat := buildRoCompat
    compat := 0
    ceilingReset := true }
  let st ← getSt
  let r := masterRecFill st
  modifySt fun st => { st with ceilingReset := false }
  masterWriteSector cfg masterBSector 1 r
  masterWriteSector cfg masterASector 2 r
  modifySt fun st => { st with
    activeMaster := masterASector
    rotGen := 2
    logNext := 1
    logFailed := false
    nextIdHint := r.nextIdHint }

def persistNextIdHint : M Unit := masterCommit cfg

-- Returns 0, never a valid id, where none can be handed out.
def allocIdImpl : M Nat := do
  let st ← getSt
  if !st.mounted then pure 0
  else do
    let rc ← Proc.attempt
      (if st.nextIdHint ≤ st.nextId then persistNextIdHint cfg else pure ())
    match rc with
    | .error _ => pure 0
    | .ok _ => do
      modifySt fun st => { st with nextId := u64 (st.nextId + 1) }
      noteAlloc st.nextId
      pure st.nextId

end KeyValueDb.BlobDb
