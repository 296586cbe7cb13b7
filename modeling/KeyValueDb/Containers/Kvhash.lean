import KeyValueDb.Containers.BlobStore

/-!
A map from byte strings to byte strings: a directory of hash buckets, in one level or in two, where a
bucket is a blob of packed entries. A long key or value is a blob of its own, named by its entry. The
RAM of the client is the two scratch buffers, which all calls share, and the thresholds that decide
where a new entry keeps its parts.
-/

namespace KeyValueDb.Containers

def kvhashDirMagic : Nat := 0x4b564841
def kvhashDirDying : Nat := 0x4b564844
def kvhashVersion : Nat := 3
def kvhashVersionMin : Nat := 2

def dirHdrLen : Nat := 8
def entryHdrLen : Nat := 4
def entLenMask : Nat := 0x7fff
def keyRefLen : Nat := 12
def valRefLen : Nat := 8
-- KEY_CHUNK
def keyChunkLen : Nat := 64

def defaultBuckets : Nat := 8
def smallMapLoad : Nat := 4
def oneLevelMaxBuckets : Nat := 255
def minBucketBytes : Nat := 4096
def bucketFillPct : Nat := 60

-- MAX_BUCKETS, in unsigned int: a payload below the header wraps.
def StoreCfg.maxBuckets (cfg : StoreCfg) : Nat :=
  (cfg.maxPayload + 2 ^ 32 - dirHdrLen) % 2 ^ 32 / 8

def StoreCfg.entryLimit (cfg : StoreCfg) : Nat := (cfg.maxPayload + 2 ^ 32 - entryHdrLen) % 2 ^ 32

-- `hash` is key_hash, `fpMask` FP_MASK, `sizeMod` SIZE_MAX + 1. The last fields are what C promises
-- of it and the two BUILD_ASSERTs.
structure KvCfg extends StoreCfg where
  hash : List UInt8 → UInt32
  fpMask : UInt32
  keyInlineMax : Nat
  valInlineMax : Nat
  sizeMod : Nat
  size_ge : 2 ^ 16 ≤ sizeMod
  buckets_ge : 2 ≤ toStoreCfg.maxBuckets
  payload_le : maxPayload ≤ entLenMask

theorem size32_ge : 2 ^ 16 ≤ 2 ^ 32 := by decide

structure KvRam where
  keyInlineMax : Nat
  valInlineMax : Nat
  dirBuf : List UInt8
  bktBuf : List UInt8
  deriving Repr, DecidableEq

abbrev K := M KvRam

-- `bytes` copied to `pos` of a buffer.
def overwrite (buf : List UInt8) (pos : Nat) (bytes : List UInt8) : List UInt8 :=
  buf.take pos ++ bytes ++ buf.drop (pos + bytes.length)

def setDirBuf (f : List UInt8 → List UInt8) : K Unit := do
  let r ← getRam
  putRam { r with dirBuf := f r.dirBuf }

def setBktBuf (f : List UInt8 → List UInt8) : K Unit := do
  let r ← getRam
  putRam { r with bktBuf := f r.bktBuf }

def dirBuf : K (List UInt8) := do
  let r ← getRam
  pure r.dirBuf

def bktBuf : K (List UInt8) := do
  let r ← getRam
  pure r.bktBuf

def kvhashSetInlineMax (keyMax valMax : Nat) : K Unit := do
  let r ← getRam
  putRam { r with keyInlineMax := min keyMax entLenMask, valInlineMax := min valMax entLenMask }

/-! Directories -/

def idxTop (h : UInt32) (n : Nat) : Nat := (h >>> 16).toNat % n

def idxSub (h : UInt32) (n : Nat) : Nat := (h &&& 0xffff).toNat % n

def dirLen (n : Nat) : Nat := dirHdrLen + n * 8

def dirChild (buf : List UInt8) (idx : Nat) : Nat := fieldAt buf (dirHdrLen + idx * 8) 8

def dirSetChild (buf : List UInt8) (idx id : Nat) : List UInt8 :=
  overwrite buf (dirHdrLen + idx * 8) (leBytes id 8)

def dirFormat (buf : List UInt8) (n depth : Nat) : List UInt8 :=
  overwrite buf 0 (leBytes kvhashDirMagic 4 ++ leBytes n 2 ++ leBytes kvhashVersion 1 ++
    leBytes depth 1 ++ List.replicate (n * 8) 0)

-- What a load reports of a directory.
structure DirInfo where
  n : Nat
  depth : Nat
  dying : Bool
  deriving Repr, DecidableEq

-- `got` bytes of `buf` were read.
def dirCheck (cfg : StoreCfg) (buf : List UInt8) (got : Nat) : Except Errno DirInfo :=
  let magic := fieldAt buf 0 4
  let n := fieldAt buf 4 2
  let version := fieldAt buf 6 1
  let depth := fieldAt buf 7 1
  if got < dirHdrLen then .error Errno.EIO
  else if magic ≠ kvhashDirMagic ∧ magic ≠ kvhashDirDying then .error Errno.EIO
  else if version < kvhashVersionMin ∨ kvhashVersion < version then .error Errno.EIO
  else if n < 2 ∨ cfg.maxBuckets < n ∨ got < dirLen n then .error Errno.EIO
  else if depth ≠ 1 ∧ depth ≠ 2 then .error Errno.EIO
  else .ok ⟨n, depth, magic = kvhashDirDying⟩

variable (cfg : KvCfg)

-- `blob_db_get` into `dir_buf`: how many bytes.
def getDir (id : Nat) : K Nat := do
  let data ← blobDbGet id cfg.maxPayload
  setDirBuf fun buf => overwrite buf 0 data
  pure data.length

def getBkt (id : Nat) : K Nat := do
  let data ← blobDbGet id cfg.maxPayload
  setBktBuf fun buf => overwrite buf 0 data
  pure data.length

def kvUpdate (id : Nat) (payload : List UInt8) : K Unit := blobDbUpdate cfg.toStoreCfg id payload

def kvDelete (id : Nat) : K Unit := blobDbDelete id

def dirLoadRaw (root : Nat) : K DirInfo := do
  let got ← getDir cfg root
  let buf ← dirBuf
  Proc.ofExcept (dirCheck cfg.toStoreCfg buf got)

def dirLoad (root : Nat) : K DirInfo := do
  let d ← dirLoadRaw cfg root
  if d.dying then Proc.fail Errno.ENOENT else pure d

-- The leaf directory of a key: its id, its number of buckets, the bucket of the key.
structure Leaf where
  root : Nat
  n : Nat
  idx : Nat

def resolveLeaf (root : Nat) (h : UInt32) : K Leaf := do
  let d ← dirLoad cfg root
  if d.depth = 1 then pure ⟨root, d.n, idxSub h d.n⟩
  else do
    let buf ← dirBuf
    let sub := dirChild buf (idxTop h d.n)
    if sub = 0 then Proc.fail Errno.EIO
    else do
      let s ← dirLoad cfg sub
      if s.depth ≠ 1 then Proc.fail Errno.EIO
      else pure ⟨sub, s.n, idxSub h s.n⟩

def subLoad (sub : Nat) : K Nat := do
  if sub = 0 then Proc.fail Errno.EIO
  else do
    let s ← dirLoad cfg sub
    if s.depth = 1 then pure s.n else Proc.fail Errno.EIO

def topChild (root t : Nat) : K Nat := do
  let d ← dirLoad cfg root
  if d.n ≤ t then Proc.fail Errno.EIO
  else do
    let buf ← dirBuf
    pure (dirChild buf t)

/-! Entries -/

-- struct ent
structure Ent where
  len : Nat
  kl : Nat
  vl : Nat
  kspill : Bool
  vspill : Bool
  kpos : Nat
  vpos : Nat
  deriving Repr, DecidableEq

-- The bytes of `buf` at `off` as an entry.
def entAt (buf : List UInt8) (off : Nat) : Ent :=
  let kf := fieldAt buf off 2
  let vf := fieldAt buf (off + 2) 2
  let kspill := kf.testBit 15
  let vspill := vf.testBit 15
  let kl := kf % 2 ^ 15
  let vl := vf % 2 ^ 15
  let kpart := if kspill then keyRefLen else kl
  let vpart := if vspill then valRefLen else vl
  { len := entryHdrLen + kpart + vpart
    kl := kl
    vl := vl
    kspill := kspill
    vspill := vspill
    kpos := off + entryHdrLen
    vpos := off + entryHdrLen + kpart }

-- An entry that runs past `used` ends the bucket.
def bktEntry (buf : List UInt8) (used off : Nat) : Option Ent :=
  if used < off + entryHdrLen then none
  else if off + (entAt buf off).len ≤ used then some (entAt buf off)
  else none

-- The entries that `for (off = 0; bkt_entry(buf, used, off, &e); off += e.len)` goes through. An
-- entry takes four bytes at least, so `used` rounds are enough.
def bktWalk (buf : List UInt8) (used : Nat) : Nat → Nat → List (Nat × Ent)
  | 0, _ => []
  | fuel + 1, off =>
    match bktEntry buf used off with
    | none => []
    | some e => (off, e) :: bktWalk buf used fuel (off + e.len)

def bktEnts (buf : List UInt8) (used : Nat) : List (Nat × Ent) := bktWalk buf used used 0

def hashFp (h : UInt32) : UInt32 := h &&& cfg.fpMask

def keyFp (key : List UInt8) : UInt32 := hashFp cfg (cfg.hash key)

def u32Of (buf : List UInt8) (off : Nat) : UInt32 := UInt32.ofNat (fieldAt buf off 4)

def entFp (buf : List UInt8) (e : Ent) : UInt32 :=
  if e.kspill then u32Of buf e.kpos else keyFp cfg ((buf.drop e.kpos).take e.kl)

def entKeyId (buf : List UInt8) (e : Ent) : Nat := if e.kspill then fieldAt buf (e.kpos + 4) 8 else 0

def entValId (buf : List UInt8) (e : Ent) : Nat := if e.vspill then fieldAt buf e.vpos 8 else 0

-- A key's bytes, in RAM or in a blob.
inductive KeySrc where
  | ram (p : List UInt8)
  | blob (id : Nat)
  deriving Repr, DecidableEq

def entKey (buf : List UInt8) (e : Ent) : KeySrc :=
  if e.kspill then .blob (fieldAt buf (e.kpos + 4) 8) else .ram (buf.drop e.kpos)

def keyChunk (k : KeySrc) (pos n : Nat) : K (List UInt8) :=
  match k with
  | .ram p => pure ((p.drop pos).take n)
  | .blob id => do
    if id = 0 then Proc.fail Errno.EIO
    else do
      match ← Proc.attempt (blobDbRead id pos n) with
      | .ok bytes => if bytes.length = n then pure bytes else Proc.fail Errno.EIO
      | .error e => Proc.fail (if e = Errno.ENOENT then Errno.EIO else e)

def memcmp (a b : List UInt8) (n : Nat) : Ordering := compare (a.take n) (b.take n)

-- Piece by piece from `pos` on. A round gets `keyChunkLen` bytes further, so `len` rounds are enough.
def keyCmpChunks (a b : KeySrc) (len : Nat) : Nat → Nat → K Ordering
  | 0, _ => pure .eq
  | fuel + 1, pos =>
    if pos < len then do
      let n := min keyChunkLen (len - pos)
      let ca ← keyChunk a pos n
      let cb ← keyChunk b pos n
      let cmp := memcmp ca cb n
      if cmp ≠ .eq then pure cmp else keyCmpChunks a b len fuel (pos + keyChunkLen)
    else pure .eq

-- A whole key, through `dir_buf`.
def keyToScratch (k : KeySrc) (len : Nat) : K (List UInt8) := do
  let bytes ← keyChunk k 0 len
  setDirBuf fun buf => overwrite buf 0 bytes
  dirBuf

-- `scratch` says whether `dir_buf` may be used for a key that is not in RAM.
def keyCmpBytes (a b : KeySrc) (len : Nat) (scratch : Bool) : K Ordering :=
  match a, b with
  | .ram p, .ram q => pure (memcmp p q len)
  | .ram p, .blob id =>
    if scratch ∧ len ≤ cfg.maxPayload then do
      let q ← keyToScratch (.blob id) len
      pure (memcmp p q len)
    else keyCmpChunks a b len len 0
  | .blob id, .ram q =>
    if scratch ∧ len ≤ cfg.maxPayload then do
      let p ← keyToScratch (.blob id) len
      pure (memcmp p q len)
    else keyCmpChunks a b len len 0
  | .blob _, .blob _ => keyCmpChunks a b len len 0

def bktFindIn (buf key : List UInt8) (fp : UInt32) : List (Nat × Ent) → K (Nat × Ent)
  | [] => Proc.fail Errno.ENOENT
  | (off, e) :: ents =>
    if e.kl ≠ key.length then bktFindIn buf key fp ents
    else if e.kspill = false then
      if memcmp (buf.drop e.kpos) key key.length ≠ .eq then bktFindIn buf key fp ents
      else pure (off, e)
    else if u32Of buf e.kpos ≠ fp then bktFindIn buf key fp ents
    else do
      let cmp ← keyCmpBytes cfg (entKey buf e) (.ram key) key.length true
      if cmp ≠ .eq then bktFindIn buf key fp ents else pure (off, e)

-- The offset and the parse of the entry of `key` in the bucket in `bkt_buf`.
def bktFind (buf : List UInt8) (used : Nat) (key : List UInt8) (fp : UInt32) : K (Nat × Ent) :=
  bktFindIn cfg buf key fp (bktEnts buf used)

def releasePart (id : Nat) : K Unit := do
  if id = 0 then pure ()
  else do
    let _ ← Proc.attempt (kvDelete id)
    pure ()

/-! Geometry -/

structure MapConfig where
  expectedEntries : Nat
  typicalEntryBytes : Nat
  maxEntryBytes : Nat

structure Geometry where
  depth : Nat
  nTop : Nat
  nSub : Nat
  deriving Repr, DecidableEq

-- `while (side * side < buckets) side++`. It goes on for ever if none of the values of a size_t ends
-- it.
def sideFrom (sizeMod buckets : Nat) : Nat → Nat → Option Nat
  | 0, _ => none
  | fuel + 1, side =>
    if side * side % sizeMod < buckets then sideFrom sizeMod buckets fuel ((side + 1) % sizeMod)
    else some side

-- The load of a bucket in one level.
def loadFor (maxent : Nat) : Nat :=
  if maxent = 0 then smallMapLoad
  else max 1 (min smallMapLoad (cfg.maxPayload * bucketFillPct % cfg.sizeMod / 100 / maxent))

-- `none` if it does not return.
def deriveGeometry (mc : Option MapConfig) : Option (Except Errno Geometry) :=
  let entries := (mc.map MapConfig.expectedEntries).getD 0
  let typical := (mc.map MapConfig.typicalEntryBytes).getD 0
  let maxent := (mc.map MapConfig.maxEntryBytes).getD 0
  if maxent ≠ 0 ∧ cfg.entryLimit < maxent then some (.error Errno.EINVAL)
  else if typical ≠ 0 ∧ maxent ≠ 0 ∧ maxent < typical then some (.error Errno.EINVAL)
  else if entries = 0 then some (.ok ⟨1, defaultBuckets, 0⟩)
  else
    let load := loadFor cfg maxent
    let want := max 2 ((entries + load - 1) % cfg.sizeMod / load)
    if want ≤ oneLevelMaxBuckets ∧ want ≤ cfg.maxBuckets then some (.ok ⟨1, want, 0⟩)
    else
      let byBytes := entries * typical % cfg.sizeMod / minBucketBytes
      let buckets := if typical = 0 then entries else min byBytes entries
      match sideFrom cfg.sizeMod (max oneLevelMaxBuckets buckets) cfg.sizeMod 1 with
      | none => none
      | some side =>
        let side := max 2 side
        if cfg.maxBuckets < side then some (.error Errno.EINVAL)
        else some (.ok ⟨2, side % 2 ^ 16, side % 2 ^ 16⟩)

structure MapInfo where
  depth : Nat
  fanout : Nat
  buckets : Nat
  entryBytesLimit : Nat
  deriving Repr, DecidableEq

def fillInfo (depth nTop nSub : Nat) : MapInfo where
  depth := depth
  fanout := if depth = 2 then nTop else 0
  buckets := if depth = 2 then nTop * nSub else nTop
  entryBytesLimit := cfg.entryLimit

/-! The operations -/

-- The empty sub-map in `bkt_buf` is written to `k` ids, from child `i` on.
def createSubs (nSub : Nat) : Nat → Nat → K Unit
  | 0, _ => pure ()
  | k + 1, i => do
    let sub ← blobDbAllocId
    if sub = 0 then Proc.fail Errno.ENOSPC
    else do
      let buf ← bktBuf
      kvUpdate cfg sub (buf.take (dirLen nSub))
      setDirBuf fun buf => dirSetChild buf i sub
      createSubs nSub k (i + 1)

def kvhashCreate (root : Nat) (mc : Option MapConfig) : K Unit :=
  match deriveGeometry cfg mc with
  -- nothing but a loss of power ends this call
  | none => Proc.cut
  | some (.error e) => Proc.fail e
  | some (.ok g) =>
    if g.depth = 1 then do
      setDirBuf fun buf => dirFormat buf g.nTop 1
      let buf ← dirBuf
      kvUpdate cfg root (buf.take (dirLen g.nTop))
    else do
      setDirBuf fun buf => dirFormat buf g.nTop 2
      setBktBuf fun buf => dirFormat buf g.nSub 1
      createSubs cfg g.nSub g.nTop 0
      let buf ← dirBuf
      kvUpdate cfg root (buf.take (dirLen g.nTop))

def kvhashStat (root : Nat) : K MapInfo := do
  let d ← dirLoad cfg root
  if d.depth = 1 then pure (fillInfo cfg 1 d.n 0)
  else do
    let buf ← dirBuf
    let sub := dirChild buf 0
    if sub = 0 then Proc.fail Errno.EIO
    else do
      let s ← dirLoad cfg sub
      pure (fillInfo cfg 2 d.n s.n)

-- What comes with 0, or, of a value that its buffer is too small for, with -ENOMEM.
inductive Fetched where
  | value (bytes : List UInt8)
  | tooSmall (len : Nat)
  deriving Repr, DecidableEq

def entValue (buf : List UInt8) (e : Ent) (outSz : Nat) : K Fetched := do
  if outSz < e.vl then pure (.tooSmall e.vl)
  else if e.vspill = false then pure (.value ((buf.drop e.vpos).take e.vl))
  else if entValId buf e = 0 then Proc.fail Errno.EIO
  else do
    match ← Proc.attempt (blobDbGet (entValId buf e) outSz) with
    | .ok bytes => if bytes.length = e.vl then pure (.value bytes) else Proc.fail Errno.EIO
    | .error err =>
      Proc.fail (if err = Errno.ENOENT ∨ err = Errno.ENOMEM then Errno.EIO else err)

def kvhashGet (root : Nat) (key : List UInt8) (outSz : Nat) : K Fetched := do
  if key.length = 0 ∨ 0xffff < key.length then Proc.fail Errno.EINVAL
  else if entLenMask < key.length then Proc.fail Errno.ENOENT
  else do
    let h := cfg.hash key
    let leaf ← resolveLeaf cfg root h
    let dir ← dirBuf
    let bid := dirChild dir leaf.idx
    if bid = 0 then Proc.fail Errno.ENOENT
    else do
      let used ← getBkt cfg bid
      let buf ← bktBuf
      let hit ← bktFind cfg buf used key (hashFp cfg h)
      entValue buf hit.2 outSz

-- What a set knows of the entry it replaces.
structure Replaced where
  kspill : Bool
  kid : Nat
  vid : Nat

-- Where the parts of a new entry go.
structure Placement where
  kspill : Bool
  vspill : Bool

-- The length is below the flag.
def flagged (len : Nat) (spill : Bool) : Nat := len + if spill then 2 ^ 15 else 0

def entBytes (key val : List UInt8) (p : Placement) (fp : UInt32) (kid vid : Nat) : List UInt8 :=
  leBytes (flagged key.length p.kspill) 2 ++ leBytes (flagged val.length p.vspill) 2 ++
    (if p.kspill then leBytes fp.toNat 4 ++ leBytes kid 8 else key) ++
    (if p.vspill then leBytes vid 8 else val)

def entNeed (key val : List UInt8) (p : Placement) : Nat :=
  entryHdrLen + (if p.kspill then keyRefLen else key.length) +
    (if p.vspill then valRefLen else val.length)

-- `undo:`. `kid` is 0 if the key blob is not a fresh one.
def setUndo (vid kid : Nat) (e : Errno) : K Unit := do
  releasePart vid
  releasePart kid
  Proc.fail e

-- The commit: the entry is appended in `bkt_buf`, the bucket written and, if it is new, published.
def setCommit (leaf : Leaf) (bid used : Nat) (bytes : List UInt8) : K Unit := do
  setBktBuf fun buf => overwrite buf used bytes
  let buf ← bktBuf
  if bid ≠ 0 then kvUpdate cfg bid (buf.take (used + bytes.length))
  else do
    let fresh ← blobDbAllocId
    if fresh = 0 then Proc.fail Errno.EIO
    else do
      kvUpdate cfg fresh (buf.take (used + bytes.length))
      setDirBuf fun dir => dirSetChild dir leaf.idx fresh
      let dir ← dirBuf
      kvUpdate cfg leaf.root (dir.take (dirLen leaf.n))

-- The key blob that a new entry takes over, 0 if there is none.
def reusedKid (p : Placement) : Option Replaced → Nat
  | none => 0
  | some old => if p.kspill && old.kspill then old.kid else 0

-- The key blob of a new entry, and whether it is a fresh one.
def setKeyBlob (key : List UInt8) (p : Placement) (old : Option Replaced) : K (Nat × Bool) := do
  if p.kspill ∧ reusedKid p old = 0 then do
    let fresh ← blobDbAllocId
    if fresh = 0 then Proc.fail Errno.EIO
    else do
      kvUpdate cfg fresh key
      pure (fresh, true)
  else pure (reusedKid p old, false)

-- The value blob of a new entry, 0 if it has none.
def setValBlob (val : List UInt8) (p : Placement) : K Nat := do
  if p.vspill then do
    let fresh ← blobDbAllocId
    if fresh = 0 then Proc.fail Errno.EIO
    else do
      kvUpdate cfg fresh val
      pure fresh
  else pure 0

-- Deletes what only the old entry referred to.
def setRelease (old : Option Replaced) (kid : Nat) : K Unit := do
  let oldKid := (old.map Replaced.kid).getD 0
  let oldVid := (old.map Replaced.vid).getD 0
  Proc.when (oldKid ≠ kid) (releasePart oldKid)
  releasePart oldVid

-- The bucket in `bkt_buf` has `used` bytes without the replaced entry.
def setEntry (leaf : Leaf) (key val : List UInt8) (p : Placement) (bid used : Nat)
    (old : Option Replaced) : K Unit := do
  if cfg.maxPayload < used + entNeed key val p then Proc.fail Errno.ENOSPC
  else do
    let (kid, freshKid) ← setKeyBlob cfg key p old
    let undoKid := if freshKid then kid else 0
    match ← Proc.attempt (setValBlob cfg val p) with
    | .error e => setUndo 0 undoKid e
    | .ok vid => do
      match ← Proc.attempt (setCommit cfg leaf bid used
          (entBytes key val p (keyFp cfg key) kid vid)) with
      | .error e => setUndo vid undoKid e
      | .ok () => setRelease old kid

-- `bkt_buf` without the entry at `off`.
def bktDrop (buf : List UInt8) (used off len : Nat) : List UInt8 :=
  overwrite buf off ((buf.drop (off + len)).take (used - off - len))

-- The bucket exists.
def setInBucket (leaf : Leaf) (key val : List UInt8) (p : Placement) (bid : Nat) : K Unit := do
  let used ← getBkt cfg bid
  let buf ← bktBuf
  match ← Proc.attempt (bktFind cfg buf used key (keyFp cfg key)) with
  | .ok (off, old) =>
    let oldVid := entValId buf old
    if old.kspill = p.kspill ∧ old.vspill ∧ p.vspill ∧ old.vl = val.length then
      if oldVid = 0 then Proc.fail Errno.EIO else kvUpdate cfg oldVid val
    else do
      setBktBuf fun buf => bktDrop buf used off old.len
      setEntry cfg leaf key val p bid (used - old.len)
        (some ⟨old.kspill, entKeyId buf old, oldVid⟩)
  | .error e =>
    if e = Errno.ENOENT then setEntry cfg leaf key val p bid used none else Proc.fail e

def kvhashSet (root : Nat) (key val : List UInt8) : K Unit := do
  if key.length = 0 ∨ 0xffff < key.length ∨ 0xffff < val.length then Proc.fail Errno.EINVAL
  else if entLenMask < key.length ∨ entLenMask < val.length then Proc.fail Errno.ENOSPC
  else do
    let leaf ← resolveLeaf cfg root (cfg.hash key)
    let r ← getRam
    let canSpill := decide (3 ≤ fieldAt r.dirBuf 6 1)
    let p : Placement :=
      ⟨canSpill && decide (r.keyInlineMax < key.length),
        canSpill && decide (r.valInlineMax < val.length)⟩
    if p.kspill ∧ cfg.maxPayload < key.length then Proc.fail Errno.ENOSPC
    else do
      let bid := dirChild r.dirBuf leaf.idx
      if bid = 0 then setEntry cfg leaf key val p 0 0 none
      else setInBucket cfg leaf key val p bid

def kvhashDel (root : Nat) (key : List UInt8) : K Unit := do
  if key.length = 0 ∨ 0xffff < key.length then Proc.fail Errno.EINVAL
  else if entLenMask < key.length then Proc.fail Errno.ENOENT
  else do
    let h := cfg.hash key
    let leaf ← resolveLeaf cfg root h
    let dir ← dirBuf
    let bid := dirChild dir leaf.idx
    if bid = 0 then Proc.fail Errno.ENOENT
    else do
      let used ← getBkt cfg bid
      let buf ← bktBuf
      let hit ← bktFind cfg buf used key (hashFp cfg h)
      setBktBuf fun buf => bktDrop buf used hit.1 hit.2.len
      let left ← bktBuf
      kvUpdate cfg bid (left.take (used - hit.2.len))
      releasePart (entKeyId buf hit.2)
      releasePart (entValId buf hit.2)

/-! Enumeration -/

structure Okey where
  kl : Nat
  fp : UInt32
  src : KeySrc

def okeyCmp (a b : Okey) : K Ordering :=
  if a.kl ≠ b.kl then pure (compare a.kl b.kl)
  else if a.fp ≠ b.fp then pure (compare a.fp b.fp)
  else keyCmpBytes cfg a.src b.src a.kl false

def entOkey (buf : List UInt8) (e : Ent) : Okey := ⟨e.kl, entFp cfg buf e, entKey buf e⟩

-- Whether `k` is after the cursor, if there is one.
def okeyAfter (k : Okey) : Option Okey → K Bool
  | none => pure true
  | some c => do
    let cmp ← okeyCmp cfg k c
    pure (cmp = .gt)

-- Whether `k` is before the best so far, if there is one.
def okeyBetter (buf : List UInt8) (k : Okey) : Option (Nat × Ent) → K Bool
  | none => pure true
  | some b => do
    let cmp ← okeyCmp cfg k (entOkey cfg buf b.2)
    pure (cmp = .lt)

def bktFirstAfterIn (buf : List UInt8) (cursor : Option Okey) :
    Option (Nat × Ent) → List (Nat × Ent) → K Nat
  | none, [] => Proc.fail Errno.ENODATA
  | some best, [] => pure best.1
  | best, (off, e) :: ents => do
    let after ← okeyAfter cfg (entOkey cfg buf e) cursor
    if after = false then bktFirstAfterIn buf cursor best ents
    else do
      let better ← okeyBetter cfg buf (entOkey cfg buf e) best
      if better = false then bktFirstAfterIn buf cursor best ents
      else bktFirstAfterIn buf cursor (some (off, e)) ents

def bktFirstAfter (buf : List UInt8) (used : Nat) (cursor : Option Okey) : K Nat :=
  bktFirstAfterIn cfg buf cursor none (bktEnts buf used)

-- The `k` buckets from `i` on. The cursor is for the first of them.
def leafFirstAfter : Nat → Nat → Option Okey → K Nat
  | 0, _, _ => Proc.fail Errno.ENODATA
  | k + 1, i, cursor => do
    let dir ← dirBuf
    let bid := dirChild dir i
    if bid = 0 then leafFirstAfter k (i + 1) none
    else do
      let used ← getBkt cfg bid
      let buf ← bktBuf
      match ← Proc.attempt (bktFirstAfter cfg buf used cursor) with
      | .ok off => pure off
      | .error e =>
        if e = Errno.ENODATA then leafFirstAfter k (i + 1) none else Proc.fail e

-- Where a search begins. The cursor comes with the hash of its key.
def startIdx (idx : UInt32 → Nat → Nat) (cursor : Option (Okey × UInt32)) (n : Nat) : Nat :=
  match cursor with
  | some c => idx c.2 n
  | none => 0

def subFirstAfter (sub : Nat) (cursor : Option (Okey × UInt32)) : K Nat := do
  let n ← subLoad cfg sub
  let start := startIdx idxSub cursor n
  leafFirstAfter cfg (n - start) start (cursor.map Prod.fst)

-- The sub-maps from the one at `sub`, child `t`, on: `k` more. The cursor is for the first.
def treeFirstAfter (root : Nat) : Nat → Nat → Nat → Option (Okey × UInt32) → K Nat
  | 0, _, sub, cursor => subFirstAfter cfg sub cursor
  | k + 1, t, sub, cursor => do
    match ← Proc.attempt (subFirstAfter cfg sub cursor) with
    | .ok off => pure off
    | .error e =>
      if e = Errno.ENODATA then do
        let sub ← topChild cfg root (t + 1)
        treeFirstAfter root k (t + 1) sub none
      else Proc.fail e

-- What comes with 0, or, if a buffer is too small, with -ENOMEM.
inductive Successor where
  | entry (key val : List UInt8)
  | tooSmall (kl vl : Nat)
  deriving Repr, DecidableEq

-- The entry at `off` of the bucket in `bkt_buf`.
def nextEntry (off koutSz voutSz : Nat) : K Successor := do
  let buf ← bktBuf
  match bktEntry buf (cfg.sizeMod - 1) off with
  | none => Proc.fail Errno.EIO
  | some e =>
    if koutSz < e.kl ∨ voutSz < e.vl then pure (.tooSmall e.kl e.vl)
    else do
      let key ← keyChunk (entKey buf e) 0 e.kl
      match ← entValue buf e voutSz with
      | .value val => pure (.entry key val)
      | .tooSmall vl => pure (.tooSmall e.kl vl)

-- The empty key starts a walk.
def kvhashNext (root : Nat) (key : List UInt8) (koutSz voutSz : Nat) : K Successor := do
  if 0xffff < key.length then Proc.fail Errno.EINVAL
  else do
    let h := cfg.hash key
    let cursor : Option (Okey × UInt32) :=
      if key.length = 0 then none else some (⟨key.length, hashFp cfg h, .ram key⟩, h)
    let d ← dirLoad cfg root
    if d.depth = 1 then do
      let start := startIdx idxSub cursor d.n
      let off ← leafFirstAfter cfg (d.n - start) start (cursor.map Prod.fst)
      nextEntry cfg off koutSz voutSz
    else do
      let start := startIdx idxTop cursor d.n
      let dir ← dirBuf
      let off ← treeFirstAfter cfg root (d.n - 1 - start) start (dirChild dir start) cursor
      nextEntry cfg off koutSz voutSz

/-! Counting -/

-- The `k` buckets from `i` on, added to `acc`.
def leafCount : Nat → Nat → Nat → K Nat
  | 0, _, acc => pure acc
  | k + 1, i, acc => do
    let dir ← dirBuf
    let bid := dirChild dir i
    if bid = 0 then leafCount k (i + 1) acc
    else do
      let used ← getBkt cfg bid
      let buf ← bktBuf
      leafCount k (i + 1) (acc + (bktEnts buf used).length)

-- The `k` sub-maps from `t` on.
def treeCount (root : Nat) : Nat → Nat → Nat → K Nat
  | 0, _, acc => pure acc
  | k + 1, t, acc => do
    let sub ← topChild cfg root t
    let n ← subLoad cfg sub
    let acc ← leafCount cfg n 0 acc
    treeCount root k (t + 1) acc

def kvhashCount (root : Nat) : K Nat := do
  let d ← dirLoad cfg root
  if d.depth = 1 then leafCount cfg d.n 0 0
  else do
    let dir ← dirBuf
    let n ← subLoad cfg (dirChild dir 0)
    let acc ← leafCount cfg n 0 0
    treeCount cfg root (d.n - 1) 1 acc

/-! Destroying -/

-- The first error that is not about a blob already gone.
def noteErr (err : Option Errno) (r : Except Errno Unit) : Option Errno :=
  match r with
  | .ok () => err
  | .error e => if e ≠ Errno.ENOENT ∧ err = none then some e else err

def releaseIds : List Nat → Option Errno → K (Option Errno)
  | [], err => pure err
  | id :: ids, err => do
    if id = 0 then releaseIds ids err
    else do
      let r ← Proc.attempt (kvDelete id)
      releaseIds ids (noteErr err r)

def entIds (buf : List UInt8) (e : Ent) : List Nat := [entKeyId buf e, entValId buf e]

def releaseBucket (bid : Nat) : K Unit := do
  match ← Proc.attempt (getBkt cfg bid) with
  | .error e => if e = Errno.ENOENT then pure () else Proc.fail e
  | .ok used => do
    let buf ← bktBuf
    let err ← releaseIds ((bktEnts buf used).flatMap fun x => entIds buf x.2) none
    match err with
    | some e => Proc.fail e
    | none => do
      match ← Proc.attempt (kvDelete bid) with
      | .ok () => pure ()
      | .error e => if e = Errno.ENOENT then pure () else Proc.fail e

-- The `k` buckets from `i` on.
def releaseBuckets : Nat → Nat → Option Errno → K (Option Errno)
  | 0, _, err => pure err
  | k + 1, i, err => do
    let dir ← dirBuf
    let bid := dirChild dir i
    if bid = 0 then releaseBuckets k (i + 1) err
    else do
      match ← Proc.attempt (releaseBucket cfg bid) with
      | .ok () => releaseBuckets k (i + 1) err
      | .error e => releaseBuckets k (i + 1) (err.or (some e))

-- One sub-map of a two-level map.
def releaseSub (root i : Nat) : K (Option Errno) := do
  match ← Proc.attempt (dirLoadRaw cfg root) with
  | .error e => pure (some e)
  | .ok top =>
    if top.n ≤ i then pure (some Errno.EIO)
    else do
      let dir ← dirBuf
      let sub := dirChild dir i
      if sub = 0 then pure none
      else do
        match ← Proc.attempt (dirLoadRaw cfg sub) with
        | .error e => pure (if e = Errno.ENOENT then none else some e)
        | .ok d => do
          let err ← releaseBuckets cfg d.n 0 none
          match err with
          | some e => pure (some e)
          | none => do
            let r ← Proc.attempt (kvDelete sub)
            pure (noteErr none r)

-- The `k` sub-maps from `i` on.
def releaseSubs (root : Nat) : Nat → Nat → Option Errno → K (Option Errno)
  | 0, _, err => pure err
  | k + 1, i, err => do
    let e ← releaseSub cfg root i
    releaseSubs root k (i + 1) (err.or e)

-- The commit of a destroy.
def stampDying (root n : Nat) : K Unit := do
  setDirBuf fun buf => overwrite buf 0 (leBytes kvhashDirDying 4)
  let buf ← dirBuf
  kvUpdate cfg root (buf.take (dirLen n))

def kvhashDestroy (root : Nat) : K Unit := do
  let d ← dirLoadRaw cfg root
  Proc.when (!d.dying) (stampDying cfg root d.n)
  let err ← if d.depth = 1 then releaseBuckets cfg d.n 0 none else releaseSubs cfg root d.n 0 none
  match err with
  | some e => Proc.fail e
  | none => kvDelete root

end KeyValueDb.Containers
