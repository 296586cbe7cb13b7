import KeyValueDb.Containers.BlobStore

/-!
A bounded log of records, each a blob of its own. An entry names the id of the one after it, which is
reserved but not yet bound; the root is written at checkpoints only. The RAM of the client is the
handle, if there is one.
-/

namespace KeyValueDb.Containers

def clogMagic : List UInt8 := [0x43, 0x4c, 0x4f, 0x47]
def clogVersion : Nat := 1
def clogRootLen : Nat := 56
def clogEntryHdr : Nat := 10

-- `k` is CLOG_K.
structure LogCfg extends StoreCfg where
  k : Nat

def LogCfg.maxRecord (cfg : LogCfg) : Nat := cfg.maxPayload - clogEntryHdr

structure ClogRoot where
  epoch : UInt32
  capacityBytes : UInt32
  liveBytes : UInt32
  count : UInt32
  waypointId : Nat
  headId : Nat
  evictFrom : Nat
  evictTo : Nat
  deriving Repr, DecidableEq

-- logring_t
structure Logring where
  root : Nat
  tailId : Nat
  nextFree : Nat
  headId : Nat
  epoch : UInt32
  capacityBytes : UInt32
  liveBytes : UInt32
  count : UInt32
  sinceCkpt : UInt32
  deriving Repr, DecidableEq

structure LogringCursor where
  pos : Nat
  epoch : UInt32
  deriving Repr, DecidableEq

structure LogringMoniker where
  epoch : UInt32
  id : Nat
  deriving Repr, DecidableEq

structure LogringStats where
  oldestId : Nat
  newestId : Nat
  count : UInt32
  bytes : UInt32
  deriving Repr, DecidableEq

def u32At (buf : List UInt8) (off : Nat) : UInt32 := UInt32.ofNat (fieldAt buf off 4)

def rootImage (r : ClogRoot) : List UInt8 :=
  clogMagic ++ leBytes clogVersion 1 ++ leBytes 0 1 ++ leBytes 0 2 ++ leBytes r.epoch.toNat 4 ++
    leBytes r.capacityBytes.toNat 4 ++ leBytes r.liveBytes.toNat 4 ++ leBytes r.count.toNat 4 ++
    leBytes r.waypointId 8 ++ leBytes r.headId 8 ++ leBytes r.evictFrom 8 ++ leBytes r.evictTo 8

def decodeRoot (buf : List UInt8) : Except Errno ClogRoot :=
  if buf.length < clogRootLen then .error Errno.ENOTSUP
  else if buf.take 4 ≠ clogMagic ∨ fieldAt buf 4 1 ≠ clogVersion then .error Errno.ENOTSUP
  else .ok
    { epoch := u32At buf 8
      capacityBytes := u32At buf 12
      liveBytes := u32At buf 16
      count := u32At buf 20
      waypointId := fieldAt buf 24 8
      headId := fieldAt buf 32 8
      evictFrom := fieldAt buf 40 8
      evictTo := fieldAt buf 48 8 }

def entryImage (nextId : Nat) (rec : List UInt8) : List UInt8 :=
  leBytes nextId 8 ++ leBytes rec.length 2 ++ rec

def decodeEntry (buf : List UInt8) : Except Errno (Nat × List UInt8) :=
  if buf.length < clogEntryHdr then .error Errno.EIO
  else if clogEntryHdr + fieldAt buf 8 2 ≠ buf.length then .error Errno.EIO
  else .ok (fieldAt buf 0 8, buf.drop clogEntryHdr)

abbrev L := M (Option Logring)

variable (cfg : LogCfg)

-- Its next id and its record. `outSz` is the room for the record, if it is asked for.
def entryRead (id : Nat) (outSz : Option Nat) : L (Nat × List UInt8) := do
  let buf ← blobDbGet id cfg.maxPayload
  let e ← Proc.ofExcept (decodeEntry buf)
  if outSz.any (· < e.2.length) then Proc.fail Errno.EMSGSIZE else pure e

def entryWrite (id nextId : Nat) (rec : List UInt8) : L Unit :=
  blobDbUpdate cfg.toStoreCfg id (entryImage nextId rec)

def rootLoad (root : Nat) : L ClogRoot := do
  match ← Proc.attempt (blobDbGet root clogRootLen) with
  | .ok buf => Proc.ofExcept (decodeRoot buf)
  | .error e => Proc.fail (if e = Errno.ENOMEM then Errno.ENOTSUP else e)

def Logring.toRoot (h : Logring) (evictFrom evictTo : Nat) : ClogRoot where
  epoch := h.epoch
  capacityBytes := h.capacityBytes
  liveBytes := h.liveBytes
  count := h.count
  waypointId := if h.tailId ≠ 0 then h.tailId else h.nextFree
  headId := h.headId
  evictFrom := evictFrom
  evictTo := evictTo

def rootWrite (h : Logring) (evictFrom evictTo : Nat) : L Unit :=
  blobDbUpdate cfg.toStoreCfg h.root (rootImage (h.toRoot evictFrom evictTo))

-- The entries from `cur` up to `stop`, at most `n`, as far as they can be read.
def collectRun : Nat → Nat → Nat → L (List Nat)
  | 0, _, _ => pure []
  | n + 1, cur, stop =>
    if cur = stop then pure []
    else do
      match ← Proc.attempt (entryRead cfg cur none) with
      | .error _ => pure []
      | .ok e => do
        let run ← collectRun n e.1 stop
        pure (cur :: run)

def deleteAll : List Nat → L Unit
  | [] => pure ()
  | id :: ids => do
    let _ ← Proc.attempt (blobDbDelete id)
    deleteAll ids

-- Suffix first: `from` is deleted last.
def runDelete (evictFrom evictTo : Nat) : L Unit := do
  let run ← collectRun cfg cfg.k evictFrom evictTo
  deleteAll run.reverse

-- The handle of the caller. There is none before the log is opened.
def handle : L Logring := do
  match ← getRam with
  | some h => pure h
  | none => Proc.fail Errno.EINVAL

def setHandle (h : Logring) : L Unit := putRam (some h)

-- What a checkpoint evicts: the first entry kept, the bytes freed, the number of entries.
structure Evicted where
  cur : Nat
  freed : UInt32
  n : Nat

def evictLoop (h : Logring) (force : Bool) : Nat → Evicted → L Evicted
  | 0, ev => pure ev
  | fuel + 1, ev =>
    if ev.cur ≠ 0 ∧ ev.cur ≠ h.tailId then do
      let e ← entryRead cfg ev.cur none
      let ev : Evicted := ⟨e.1, ev.freed + UInt32.ofNat e.2.length, ev.n + 1⟩
      if force = false ∧ h.liveBytes - ev.freed ≤ h.capacityBytes then pure ev
      else evictLoop h force fuel ev
    else pure ev

def Logring.evict (h : Logring) (ev : Evicted) : Logring :=
  { h with
    headId := ev.cur
    liveBytes := h.liveBytes - ev.freed
    count := h.count - UInt32.ofNat ev.n }

def evictWalk (h : Logring) (force : Bool) : L Evicted :=
  let want := force || decide (h.capacityBytes < h.liveBytes)
  if want && h.headId ≠ 0 then evictLoop cfg h force cfg.k ⟨h.headId, 0, 0⟩
  else pure ⟨h.headId, 0, 0⟩

def checkpoint (force : Bool) : L Unit := do
  let h ← handle
  let ev ← evictWalk cfg h force
  if 0 < ev.n then do
    setHandle (h.evict ev)
    rootWrite cfg (h.evict ev) h.headId ev.cur
    runDelete cfg h.headId ev.cur
    setHandle { h.evict ev with sinceCkpt := 0 }
  else do
    rootWrite cfg h 0 0
    setHandle { h with sinceCkpt := 0 }

-- `rand` is what sys_rand32_get() returns.
def logringCreate (capacityBytes rand : UInt32) : L Nat := do
  if capacityBytes = 0 then Proc.fail Errno.EINVAL
  else do
    let root ← blobDbAllocId
    let first ← blobDbAllocId
    if root = 0 ∨ first = 0 then Proc.fail Errno.EIO
    else do
      let epoch := if rand = 0 then 1 else rand
      rootWrite cfg ⟨root, 0, first, 0, epoch, capacityBytes, 0, 0, 0⟩ 0 0
      pure root

-- What the walk from the waypoint finds: the last entry, the first unbound id, how many entries
-- and how many bytes of records, the first record's length.
structure Walked where
  tail : Nat
  nextFree : Nat
  bound : UInt32
  bytes : Nat
  firstLen : Option Nat

-- The fuel of this and the loops below is more than the number of entries, so it does not run out.
def openWalk : Nat → Nat → Walked → L Walked
  | 0, _, _ => Proc.fail Errno.EIO
  | fuel + 1, cur, wk => do
    match ← Proc.attempt (entryRead cfg cur none) with
    | .error e => if e = Errno.ENOENT then pure { wk with nextFree := cur } else Proc.fail e
    | .ok e =>
      if e.1 ≤ cur then Proc.fail Errno.EIO
      else
        openWalk fuel e.1
          ⟨cur, wk.nextFree, wk.bound + 1, wk.bytes + e.2.length,
            some (wk.firstLen.getD e.2.length)⟩

-- The handle that open makes of a root and of what its walk found.
def ClogRoot.toHandle (r : ClogRoot) (root : Nat) (wk : Walked) : Logring where
  root := root
  tailId := wk.tail
  nextFree := wk.nextFree
  headId := if r.headId = 0 then (if wk.tail ≠ 0 then r.waypointId else 0) else r.headId
  epoch := r.epoch
  capacityBytes := r.capacityBytes
  liveBytes :=
    if r.headId = 0 then UInt32.ofNat wk.bytes
    else r.liveBytes + UInt32.ofNat (wk.bytes - wk.firstLen.getD 0)
  count := if r.headId = 0 then wk.bound else r.count + (wk.bound - 1)
  sinceCkpt := 0

-- More than the number of entries: the ids of a chain ascend.
def chainFuel : L Nat := Proc.read fun w => w.top + 1

def logringOpen (root : Nat) : L Unit := do
  if root = 0 then Proc.fail Errno.EINVAL
  else do
    let r ← rootLoad root
    Proc.when (r.evictFrom ≠ 0) (runDelete cfg r.evictFrom r.evictTo)
    let fuel ← chainFuel
    let wk ← openWalk cfg (fuel + 1) r.waypointId ⟨0, r.waypointId, 0, 0, none⟩
    setHandle (r.toHandle root wk)

-- Evict until the entry fits or the log cannot shrink further.
def bindEvicting (rId r2 : Nat) (rec : List UInt8) : Nat → L Unit
  | 0 => Proc.fail Errno.EIO
  | fuel + 1 => do
    match ← Proc.attempt (entryWrite cfg rId r2 rec) with
    | .ok () => pure ()
    | .error e => do
      let h ← handle
      if e = Errno.ENOSPC ∧ h.headId ≠ 0 ∧ h.headId ≠ h.tailId then do
        checkpoint cfg true
        bindEvicting rId r2 rec fuel
      else Proc.fail e

def Logring.append (h : Logring) (r2 len : Nat) : Logring :=
  { h with
    tailId := h.nextFree
    nextFree := r2
    headId := if h.tailId = 0 then h.nextFree else h.headId
    liveBytes := h.liveBytes + UInt32.ofNat len
    count := h.count + 1
    sinceCkpt := h.sinceCkpt + 1 }

def logringAppend (rec : List UInt8) : L Nat := do
  let h ← handle
  if cfg.maxRecord < rec.length then Proc.fail Errno.EMSGSIZE
  else do
    let r2 ← blobDbAllocId
    if r2 = 0 then Proc.fail Errno.EIO
    else do
      let fuel ← chainFuel
      bindEvicting cfg h.nextFree r2 rec (fuel + 1)
      let h ← handle
      let wasEmpty := h.tailId = 0
      let rId := h.nextFree
      let h := h.append r2 rec.length
      setHandle h
      -- a checkpoint that fails is not reported: the entry is bound
      Proc.when (wasEmpty ∨ cfg.k ≤ h.sinceCkpt.toNat) do
        let _ ← Proc.attempt (checkpoint cfg false)
      pure rId

def logringSeekOldest (h : Logring) : LogringCursor := ⟨0, h.epoch⟩

def logringSeekNewest (h : Logring) : LogringCursor := ⟨h.tailId, h.epoch⟩

def logringCursorToMoniker (c : LogringCursor) : LogringMoniker := ⟨c.epoch, c.pos⟩

def logringCursorFromMoniker (m : LogringMoniker) : LogringCursor := ⟨m.id, m.epoch⟩

-- The id and the record delivered, or the error, and the cursor afterwards.
def logringNext (c : LogringCursor) (outSz : Option Nat) :
    L (Except Errno (Nat × List UInt8) × LogringCursor) := do
  let h ← handle
  if c.epoch ≠ 0 ∧ c.epoch ≠ h.epoch then pure (.error Errno.ESTALE, ⟨0, h.epoch⟩)
  else
    let start := if c.pos ≠ 0 then c.pos else h.headId
    if start = 0 then pure (.error Errno.ENOENT, c)
    else do
      match ← Proc.attempt (entryRead cfg start outSz) with
      | .error e =>
        if e = Errno.ENOENT ∧ start < h.nextFree then
          pure (.error Errno.ESTALE, ⟨0, h.epoch⟩)
        else pure (.error e, c)
      | .ok e => pure (.ok (start, e.2), ⟨e.1, h.epoch⟩)

-- All that a reader delivers from the cursor on, and the error that ends it.
def logringWalk : Nat → LogringCursor → L (List (Nat × List UInt8) × Errno)
  | 0, _ => Proc.fail Errno.EIO
  | fuel + 1, c => do
    let r ← logringNext cfg c (some cfg.maxRecord)
    match r.1 with
    | .ok e => do
      let rest ← logringWalk fuel r.2
      pure (e :: rest.1, rest.2)
    | .error err => pure ([], err)

-- A full walk from the oldest entry.
def logringReadAll : L (List (Nat × List UInt8) × Errno) := do
  let h ← handle
  let fuel ← chainFuel
  logringWalk cfg (fuel + 1) (logringSeekOldest h)

def logringStats : L LogringStats := do
  let h ← handle
  pure ⟨h.headId, h.tailId, h.count, h.liveBytes⟩

def shrink : Nat → L Unit
  | 0 => Proc.fail Errno.EIO
  | fuel + 1 => do
    let h ← handle
    if h.headId ≠ 0 ∧ h.headId ≠ h.tailId then do
      checkpoint cfg true
      shrink fuel
    else pure ()

def Logring.emptied (h : Logring) (first : Nat) : Logring :=
  { h with
    tailId := 0
    nextFree := first
    headId := 0
    liveBytes := 0
    count := 0
    sinceCkpt := 0 }

def logringReset : L Unit := do
  let fuel ← chainFuel
  shrink cfg (fuel + 1)
  let h ← handle
  let first ← blobDbAllocId
  if first = 0 then Proc.fail Errno.EIO
  else do
    setHandle (h.emptied first)
    rootWrite cfg (h.emptied first) h.tailId (if h.tailId ≠ 0 then h.nextFree else 0)
    Proc.when (h.tailId ≠ 0) (runDelete cfg h.tailId h.nextFree)

-- The live chain, from `cur` on.
def destroyChain (nextFree : Nat) : Nat → Nat → L Unit
  | 0, _ => Proc.fail Errno.EIO
  | fuel + 1, cur =>
    if cur ≠ 0 ∧ cur ≠ nextFree then do
      match ← Proc.attempt (entryRead cfg cur none) with
      | .error _ => pure ()
      | .ok e => do
        let _ ← Proc.attempt (blobDbDelete cur)
        destroyChain nextFree fuel e.1
    else pure ()

-- What is done once the root is gone.
def destroyRest (h : Logring) (evictFrom evictTo : Nat) : L Unit := do
  Proc.when (evictFrom ≠ 0) (runDelete cfg evictFrom evictTo)
  let fuel ← chainFuel
  destroyChain cfg h.nextFree (fuel + 1) h.headId

-- The run of a pending eviction, or 0 and 0.
def pendingRun : Except Errno ClogRoot → Nat × Nat
  | .ok r => (r.evictFrom, r.evictTo)
  | .error _ => (0, 0)

def logringDestroy : L Unit := do
  let h ← handle
  let r ← Proc.attempt (rootLoad h.root)
  match ← Proc.attempt (blobDbDelete h.root) with
  | .ok () => destroyRest cfg h (pendingRun r).1 (pendingRun r).2
  | .error e =>
    if e ≠ Errno.ENOENT then Proc.fail e
    else destroyRest cfg h (pendingRun r).1 (pendingRun r).2

end KeyValueDb.Containers
