import KeyValueDb.Persondb.Superblock
import KeyValueDb.Persondb.Persondb
import KeyValueDb.Interfaces.Kvdb

/-!
How a store comes up and goes away. The registry leads to its superblock, which lists the roots of its
tables: the two maps of this build, and tables of newer builds, each with what a build that does not
know it has to do with it.
-/

namespace KeyValueDb.Persondb

open Containers Kvdb Rootreg

-- PADB_ROOTREG_KEY
def padbRootregKey : UInt64 := rootregKey 0x50414442 0

-- struct persondb, as an open leaves it.
structure Handle where
  sbId : UInt64
  sb : Superblock
  db : Db

variable (cfg : KvdbCfg) (Z : Zcbor)

def sbCommit (sbId : UInt64) (sb : Superblock) : K Unit := do
  let bytes ← Proc.ofExcept (superblockCborEncode Z sb superblockCborMax)
  blobDbUpdate cfg.toStoreCfg sbId.toNat bytes

def peopleCfg (nPersons : UInt32) : MapConfig := ⟨nPersons.toNat, 380, 700⟩

def credCfg (nPersons : UInt32) : MapConfig := ⟨nPersons.toNat * 5 % cfg.sizeMod / 2, 23, 23⟩

-- The root of a new map.
def newMap (mc : MapConfig) : K Nat := do
  let root ← blobDbAllocId
  if root = 0 then Proc.fail Errno.EIO
  else do
    kvhashCreate cfg.toKvCfg root (some mc)
    pure root

def createStore (sbId : UInt64) (nPersons : UInt32) : K Handle := do
  let people ← newMap cfg (peopleCfg nPersons)
  let cred ← newMap cfg (credCfg cfg nPersons)
  let sb : Superblock :=
    ⟨superblockVersion,
      [⟨sbTablePeople, UInt64.ofNat people, sbClassRequired, sbSchemaPeople⟩,
        ⟨sbTableCred, UInt64.ofNat cred, sbClassRequired, sbSchemaCred⟩], nPersons, 0, 0⟩
  sbCommit cfg Z sbId sb
  pure ⟨sbId, sb, ⟨people, cred⟩⟩

def ownTable (t : SbTable) : Bool := t.id == sbTablePeople || t.id == sbTableCred

-- A table of a newer build that an older one destroys.
def dropped (t : SbTable) : Bool := !ownTable t && t.cls == sbClassDerived

-- The roots of this build's tables, 0 where there is none so far.
def resolveRoots : List SbTable → Nat × Nat → Except Errno (Nat × Nat)
  | [], found => .ok found
  | t :: ts, (people, cred) =>
    if t.id = sbTablePeople then
      if t.schema ≠ sbSchemaPeople then .error Errno.ENOTSUP
      else resolveRoots ts (t.root.toNat, cred)
    else if t.id = sbTableCred then
      if t.schema ≠ sbSchemaCred then .error Errno.ENOTSUP
      else resolveRoots ts (people, t.root.toNat)
    else if t.cls = sbClassPreserve ∨ t.cls = sbClassDerived then resolveRoots ts (people, cred)
    else .error Errno.ENOTSUP

def tablesResolve (sbId : UInt64) (ts : List SbTable) : Except Errno Db :=
  match resolveRoots ts (0, 0) with
  | .error e => .error e
  | .ok (people, cred) =>
    if people = 0 ∨ cred = 0 then .error Errno.EIO
    else if ts.any fun t =>
        dropped t && (t.root.toNat == people || t.root.toNat == cred || t.root == sbId) then
      .error Errno.EIO
    else .ok ⟨people, cred⟩

-- A destroy for which it is no error that there is nothing left.
def destroyTable (root : Nat) : K Unit := do
  match ← Proc.attempt (kvhashDestroy cfg.toKvCfg root) with
  | .ok _ => pure ()
  | .error e => if e = Errno.ENOENT then pure () else Proc.fail e

-- Destroys the tables that are to go, and hands back the others.
def tablesDrop : List SbTable → K (List SbTable)
  | [] => pure []
  | t :: ts =>
    if dropped t then do
      destroyTable cfg t.root.toNat
      tablesDrop ts
    else do
      let kept ← tablesDrop ts
      pure (t :: kept)

-- The map is dying or gone.
def mapGone (root : Nat) : K Bool := do
  match ← Proc.attempt (kvhashStat cfg.toKvCfg root) with
  | .ok _ => pure false
  | .error e => pure (decide (e = Errno.ENOENT))

-- What a caller is told of a superblock that does not decode.
def unreadable (e : Errno) : Errno := if e = Errno.ENOTSUP then Errno.ENOTSUP else Errno.EIO

def attachStore (sbId : UInt64) (data : List UInt8) : K Handle :=
  match superblockCborDecode Z data with
  | .error e => Proc.fail (unreadable e)
  | .ok sb => do
    let db ← Proc.ofExcept (tablesResolve sbId sb.tables)
    if ← mapGone cfg db.peopleRoot then Proc.fail Errno.EINPROGRESS
    else if ← mapGone cfg db.credRoot then Proc.fail Errno.EINPROGRESS
    else if sb.version = superblockVersion ∧ sb.tables.any dropped = false then
      pure ⟨sbId, sb, db⟩
    else do
      let kept ← tablesDrop cfg sb.tables
      let sb' : Superblock := { sb with version := superblockVersion, tables := kept }
      sbCommit cfg Z sbId sb'
      pure ⟨sbId, sb', db⟩

def buildStore (nPersons : UInt32) : K Handle := do
  let sbId ← rootregGetOrCreate cfg.reg padbRootregKey
  createStore cfg Z sbId nPersons

def persondbOpen (nPersons : UInt32) : K Handle := do
  rootregInit cfg.reg
  match ← Proc.attempt (rootregGet cfg.reg padbRootregKey) with
  | .error e => if e = Errno.ENOENT then buildStore cfg Z nPersons else Proc.fail e
  | .ok sbId =>
    match ← Proc.attempt (blobDbGet sbId.toNat superblockCborMax) with
    | .error e =>
      -- an entry whose superblock is not there: only a new id may be bound
      if e = Errno.ENOENT then do
        match ← Proc.attempt (rootregUnregister cfg.reg padbRootregKey) with
        | .ok _ => buildStore cfg Z nPersons
        | .error e => if e = Errno.ENOENT then buildStore cfg Z nPersons else Proc.fail e
      else Proc.fail e
    | .ok data =>
      if data.length = 0 then createStore cfg Z sbId nPersons else attachStore cfg Z sbId data

-- Each root is a map that can be taken apart, or one that is dying or gone.
def rootsChecked (sbId : UInt64) : List SbTable → K Unit
  | [] => pure ()
  | t :: ts =>
    if t.root = 0 ∨ t.root.toNat = blobDbRootId ∨ t.root = sbId then Proc.fail Errno.EIO
    else do
      match ← Proc.attempt (kvhashStat cfg.toKvCfg t.root.toNat) with
      | .ok _ => rootsChecked sbId ts
      | .error e => if e = Errno.ENOENT then rootsChecked sbId ts else Proc.fail e

def destroyAll : List SbTable → K Unit
  | [] => pure ()
  | t :: ts => do
    destroyTable cfg t.root.toNat
    destroyAll ts

-- This build's own tables go first: an open looks at those.
def tablesDestroy (sbId : UInt64) (ts : List SbTable) : K Unit := do
  rootsChecked cfg sbId ts
  destroyAll cfg (ts.filter ownTable)
  destroyAll cfg (ts.filter fun t => !ownTable t)

-- A step for which it is no error that there is nothing.
def unlessAbsent (x : K Unit) : K Unit := do
  match ← Proc.attempt x with
  | .ok _ => pure ()
  | .error e => if e = Errno.ENOENT then pure () else Proc.fail e

-- The superblock goes, then the registry entry.
def forgetStore (sbId : UInt64) : K Unit := do
  unlessAbsent (blobDbDelete sbId.toNat)
  unlessAbsent (rootregUnregister cfg.reg padbRootregKey)

def persondbDestroy : K Unit := do
  rootregInit cfg.reg
  match ← Proc.attempt (rootregGet cfg.reg padbRootregKey) with
  | .error e => if e = Errno.ENOENT then pure () else Proc.fail e
  | .ok sbId =>
    match ← Proc.attempt (blobDbGet sbId.toNat superblockCborMax) with
    | .error e =>
      if e = Errno.ENOENT then forgetStore cfg sbId
      else Proc.fail (if e = Errno.ENOMEM then Errno.ENOTSUP else e)
    | .ok data =>
      if data.length = 0 then forgetStore cfg sbId
      else
        match superblockCborDecode Z data with
        | .error e => Proc.fail (unreadable e)
        | .ok sb => do
          tablesDestroy cfg sbId sb.tables
          forgetStore cfg sbId

end KeyValueDb.Persondb
