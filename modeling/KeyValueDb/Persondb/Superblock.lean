import KeyValueDb.Persondb.PersonCbor

/-!
The superblock of a store as CBOR: a directory of tables, and figures about the dataset. Version 1
listed the roots of the two maps alone.
-/

namespace KeyValueDb.Persondb

open Cbor Containers

def superblockCborMax : Nat := 256
def superblockVersion : UInt32 := 2
def sbTablesMax : Nat := 8

def sbTablePeople : UInt32 := 1
def sbTableCred : UInt32 := 2
def sbSchemaPeople : UInt32 := 1
def sbSchemaCred : UInt32 := 1

-- enum sb_table_class
def sbClassRequired : UInt32 := 0
def sbClassPreserve : UInt32 := 1
def sbClassDerived : UInt32 := 2

structure SbTable where
  id : UInt32
  root : UInt64
  cls : UInt32
  schema : UInt32
  deriving Repr, DecidableEq

structure Superblock where
  version : UInt32
  tables : List SbTable
  nPersons : UInt32
  populated : UInt32
  rev : UInt32
  deriving Repr, DecidableEq

def tableToks (t : SbTable) : List Tok :=
  [.uint t.id.toUInt64, .mapStart, .uint 1, .uint t.root, .uint 2, .uint t.cls.toUInt64,
    .uint 3, .uint t.schema.toUInt64, .stop]

-- Always in the version of this build.
def superblockToks (sb : Superblock) : List Tok :=
  [.mapStart, .uint 1, .uint superblockVersion.toUInt64, .uint 2, .mapStart] ++
    sb.tables.flatMap tableToks ++
  [.stop, .uint 3, .uint sb.nPersons.toUInt64, .uint 4, .uint sb.populated.toUInt64,
    .uint 5, .uint sb.rev.toUInt64, .stop]

-- Each id is above the one before it.
def Ascending : List SbTable → Prop
  | t :: u :: ts => t.id < u.id ∧ Ascending (u :: ts)
  | _ => True

instance decidableAscending : (ts : List SbTable) → Decidable (Ascending ts)
  | t :: u :: ts =>
    have := decidableAscending (u :: ts)
    inferInstanceAs (Decidable (t.id < u.id ∧ Ascending (u :: ts)))
  | [_] => isTrue trivial
  | [] => isTrue trivial

def superblockCborEncode (Z : Zcbor) (sb : Superblock) (bufSz : Nat) : Except Errno (List UInt8) :=
  if sbTablesMax < sb.tables.length ∨ ¬ Ascending sb.tables then .error Errno.EINVAL
  else encodeToks Z (superblockToks sb) bufSz

/-! Reading -/

abbrev SbScan := StateT (List Tok) (Except Errno)

-- What does not scan is malformed.
def scanned {α : Type} (x : Scan α) : SbScan α := fun ts =>
  match x ts with
  | some r => .ok r
  | none => .error Errno.EILSEQ

def refuse {α : Type} (e : Errno) : SbScan α := fun _ => .error e

def sbTable : Scan SbTable := do
  let id ← uint32
  token .mapStart
  expect 1
  let root ← uint64
  expect 2
  let cls ← uint32
  expect 3
  let schema ← uint32
  token .stop
  pure ⟨id, root, cls, schema⟩

-- The tables up to the end of the directory. `last` is the id before them, `room` how many more fit.
def sbTables : Nat → Option UInt32 → SbScan (List SbTable)
  | 0, last => do
    if ← scanned atEnd then pure []
    else do
      let t ← scanned sbTable
      if last.any (fun i => decide (t.id ≤ i)) then refuse Errno.EILSEQ else refuse Errno.ENOTSUP
  | room + 1, last => do
    if ← scanned atEnd then pure []
    else do
      let t ← scanned sbTable
      if last.any (fun i => decide (t.id ≤ i)) then refuse Errno.EILSEQ
      else do
        let ts ← sbTables room (some t.id)
        pure (t :: ts)

-- The roots up to the end of the list, at most `room` of them.
def roots : Nat → Scan (List UInt64)
  | 0 => do
    if ← atEnd then pure [] else failure
  | room + 1 => do
    if ← atEnd then pure []
    else do
      let r ← uint64
      let rs ← roots room
      pure (r :: rs)

def figures (k : UInt64) : Scan (UInt32 × UInt32 × UInt32) := do
  expect k
  let nPersons ← uint32
  expect (k + 1)
  let populated ← uint32
  expect (k + 2)
  let rev ← uint32
  token .stop
  pure (nPersons, populated, rev)

def superblockV1Decode : SbScan Superblock := do
  scanned (expect 2)
  scanned (token .listStart)
  let rs ← scanned (roots 2)
  scanned (token .stop)
  match rs with
  | [people] => do
    scanned (expect 3)
    let cred ← scanned uint64
    let (nPersons, populated, rev) ← scanned (figures 4)
    pure ⟨1, [⟨sbTablePeople, people, sbClassRequired, sbSchemaPeople⟩,
      ⟨sbTableCred, cred, sbClassRequired, sbSchemaCred⟩], nPersons, populated, rev⟩
  | [] => refuse Errno.EILSEQ
  | _ => refuse Errno.ENOTSUP

def superblockV2Decode : SbScan Superblock := do
  scanned (expect 2)
  scanned (token .mapStart)
  let ts ← sbTables sbTablesMax none
  scanned (token .stop)
  let (nPersons, populated, rev) ← scanned (figures 3)
  pure ⟨superblockVersion, ts, nPersons, populated, rev⟩

-- The version comes first: another version is another layout.
def superblockScan : SbScan Superblock := do
  scanned (token .mapStart)
  scanned (expect 1)
  let version ← scanned uint32
  if version = 1 then superblockV1Decode
  else if version = superblockVersion then superblockV2Decode
  else refuse Errno.ENOTSUP

def superblockCborDecode (Z : Zcbor) (bytes : List UInt8) : Except Errno Superblock :=
  match superblockScan (Z.scan bytes) with
  | .ok (sb, _) => .ok sb
  | .error e => .error e

end KeyValueDb.Persondb
