import KeyValueDb.BlobDb.Ops

/-!
Mount: pick the master sector to take the state from, finish an interrupted compaction, and where a
newer record may have been lost scan the buckets for ids before the write that ends the doubt.
-/

namespace KeyValueDb.BlobDb

variable (cfg : Cfg)

-- The slots of a bucket from `cursor` on, for the highest id any of them carries. The scan reads
-- ids without checking a checksum.
def scanBucketIds (bid : Nat) : Nat → Nat → Nat → M Nat
  | 0, _, maxId => pure maxId
  | n + 1, cursor, maxId =>
    if cfg.pebSize < cursor + slotOverhead then pure maxId
    else do
      let raw ← storeRead (bucketSector bid) cursor 4
      let h := slotHdrAt (image raw) 0
      if h.flags == 0xff || (h.flags &&& slotSealed == 0 || cfg.maxPayloadLen < h.valLen) then
        pure maxId
      else do
        Proc.when (h.flags &&& ~~~cfg.slotKnown != 0) (sidxForget cfg bid)
        let ssz := cfg.slotSizeFor h.valLen
        if cfg.pebSize < cursor + ssz then pure maxId
        else do
          let rawId ← storeRead (bucketSector bid) (cursor + 4) 8
          let id := leNat rawId
          sidxNote cfg bid id cursor ssz (h.flags &&& slotTombstone != 0)
          scanBucketIds bid n (cursor + ssz) (max maxId id)

def scanBucket (bid maxId : Nat) : M Nat := do
  let hdr ← storeRead (bucketSector bid) 0 bucketDataOff
  if !bucketHdrValid (image hdr) bid then pure maxId
  else do
    sidxBegin cfg bid bucketDataOff
    scanBucketIds cfg bid cfg.pebSize bucketDataOff maxId

def scanBuckets : Nat → Nat → Nat → M Nat
  | 0, _, maxId => pure maxId
  | n + 1, bid, maxId => do
    let maxId ← scanBucket cfg bid maxId
    scanBuckets n (bid + 1) maxId

-- Raise the next id past every id on flash, in RAM.
def doubtScan : M Unit := do
  let st ← getSt
  let maxId ← scanBuckets cfg cfg.nBuckets 0 (st.nextId - 1)
  modifySt fun st =>
    if st.nextId < u64 (maxId + 1) then { st with nextId := u64 (maxId + 1) } else st

structure MasterView where
  cls : MasterClass
  hdr : MasterHdr
  deriving Repr, DecidableEq

def MasterView.isOk (v : MasterView) : Bool := v.cls == .ok

-- Every ok header must suit the build and the device; its features join the store's.
def acceptMaster (v : MasterView) : M Unit :=
  if !v.isOk then pure ()
  else if !masterAccept cfg v.hdr then Proc.fail .ENOTSUP
  else modifySt fun st => { st with
    incompat := st.incompat ||| v.hdr.incompat
    roCompat := st.roCompat ||| v.hdr.roCompat
    compat := st.compat ||| v.hdr.compat }

structure Pick where
  active : Nat
  fellBack : Bool
  log : MasterLog
  record : MasterRec
  deriving Repr, DecidableEq

-- The sector to adopt: the higher ok one, unless it holds no record that verifies.
def masterPick (a b : MasterView) : M (Option Pick) :=
  if !a.isOk && !b.isOk then pure none
  else do
    let hi := if a.isOk && b.isOk then (if b.hdr.rotGen < a.hdr.rotGen then 0 else 1)
      else if a.isOk then 0 else 1
    let hiView := if hi = 0 then a else b
    let loView := if hi = 0 then b else a
    let log ← masterLogLoad cfg hi hiView.hdr.rotGen
    match log.newest with
    | some (_, r) => pure (some ⟨hi, false, log, r⟩)
    | none =>
      if loView.isOk then do
        let log ← masterLogLoad cfg (1 - hi) loView.hdr.rotGen
        match log.newest with
        | some (_, r) => pure (some ⟨1 - hi, true, log, r⟩)
        | none => pure none
      else pure none

-- No master is usable: a blank partition is formatted, anything else only where the build says so.
def mountUnusable (a b : MasterView) : M Unit :=
  if a.cls = .erased ∧ b.cls = .erased then formatMastersFresh cfg
  else if cfg.autoformatOnCorrupt then formatWholeStore cfg
  else Proc.fail Errno.EIO

def adoptMaster (p : Pick) (rotGen : Nat) : M Unit :=
  modifySt fun st => { st with
    activeMaster := p.active
    rotGen := rotGen
    logNext := p.log.endSlot
    logFailed := false
    ceilingReset := false
    nextIdHint := p.record.nextIdHint
    nextId := p.record.nextIdHint
    segOwner := p.record.segOwner
    fuses := p.record.fuses }

def masterOldCap (a b : MasterView) : Nat :=
  let cap := if a.isOk then min cfg.maxPayloadLen a.hdr.maxPayloadLen else cfg.maxPayloadLen
  if b.isOk then min cap b.hdr.maxPayloadLen else cap

def featuresSplit (a b : MasterView) : Bool :=
  a.isOk && (b.isOk && (a.hdr.incompat != b.hdr.incompat ||
    (a.hdr.roCompat != b.hdr.roCompat || a.hdr.compat != b.hdr.compat)))

-- Rotations write the union of the features and this build's cap, until both sectors carry them.
def finishUpgrade (active : MasterHdr) : M Unit := do
  masterCommitRotate cfg
  let st ← getSt
  Proc.when (active.incompat != st.incompat || (active.roCompat != st.roCompat ||
    (active.compat != st.compat || active.maxPayloadLen != cfg.maxPayloadLen)))
    (masterCommitRotate cfg)

-- The one write after which the next mount does not doubt again, unless a rotation made it moot.
def endDoubt (scanIds endByRotation rotated : Bool) : M Unit :=
  if scanIds && !rotated then
    if endByRotation then masterCommitRotate cfg else masterCommit cfg
  else pure ()

def mountAdopted (a b : MasterView) (p : Pick) : M Unit := do
  let active := if p.active = 0 then a else b
  let other := if p.active = 0 then b else a
  adoptMaster p active.hdr.rotGen
  recoverCompaction cfg
  let damage ← Proc.read World.damage
  let endByRotation := p.fellBack || (!other.isOk || damage)
  let scanIds := endByRotation || p.log.tailBad
  Proc.when scanIds (doubtScan cfg)
  let upgrade := featuresSplit a b || masterOldCap cfg a b < cfg.maxPayloadLen
  Proc.when upgrade (finishUpgrade cfg active.hdr)
  endDoubt cfg scanIds endByRotation upgrade

def rootIsLive (rootBid : Nat) : M Bool := do
  let formatted ← readBucketHdr cfg rootBid
  if !formatted then pure false
  else do
    let found ← findLiveSlot cfg rootBid rootId
    pure found.live.isSome

-- The root always exists.
def bindRootIfMissing : M Unit := do
  let live ← rootIsLive cfg (rootId % cfg.nBuckets)
  if live then pure ()
  else do
    modifySt fun st => if st.nextId < 2 then { st with nextId := 2 } else st
    let st ← getSt
    Proc.when (st.nextIdHint < 2) (persistNextIdHint cfg)
    bindRootEmpty cfg

-- The part of mount that only large payloads have: the segment geometry and the pending sweep.
def mountSegments : M Unit := do
  segGeometryInit cfg
  let st ← getSt
  Proc.when (st.segOwner != 0) (segSweep cfg st.segOwner)

def mountViews (a b : MasterView) : M Unit := do
  if a.cls = .foreign ∨ b.cls = .foreign then Proc.fail .ENOTSUP
  else do
    modifySt fun st => { st with incompat := 0, roCompat := 0, compat := 0 }
    acceptMaster cfg a
    acceptMaster cfg b
    if a.isOk && (b.isOk && a.hdr.rotGen == b.hdr.rotGen) then Proc.fail Errno.EIO
    else do
      let pick ← masterPick cfg a b
      match pick with
      | none => mountUnusable cfg a b
      | some p => mountAdopted cfg a b p

def mountOpened : M Unit := do
  let a ← masterClassify masterASector
  let b ← masterClassify masterBSector
  mountViews cfg ⟨a.1, a.2⟩ ⟨b.1, b.2⟩
  bindRootIfMissing cfg
  modifySt fun st => { st with mounted := true }
  Proc.when cfg.large (mountSegments cfg)

def mountImpl : M Unit := do
  let st ← getSt
  if st.mounted then Proc.fail .EALREADY
  else do
    idxInvalidate cfg
    modifySt fun st => { st with wedged := false }
    Proc.ofExcept cfg.storeOpenAndValidate
    sidxReset cfg
    let rc ← Proc.attempt (mountOpened cfg)
    match rc with
    | .ok _ => pure ()
    | .error e => do
      modifySt fun st => { st with mounted := false }
      sidxDisable cfg
      Proc.fail e

def unmountImpl : M Unit := do
  let st ← getSt
  if !st.mounted then pure ()
  else do
    modifySt fun st => { st with mounted := false }
    idxInvalidate cfg
    sidxDisable cfg

end KeyValueDb.BlobDb
