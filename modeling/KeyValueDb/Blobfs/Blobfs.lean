import KeyValueDb.Interfaces.Kvdb
import KeyValueDb.Blobfs.Paths

/-!
Files and directories over maps: every directory is a map from names to entries, an entry leads to the
body of a file or to the map of a subdirectory, and a meta blob behind the root registry has the root
directory and, while a rename is under way, what it renames. What is below is a table of calls, as the
map provider is in the source.
-/

namespace KeyValueDb.Blobfs

open Containers Kvdb

-- What blobfs calls: the blob store, the root registry and, behind `dir_ops()`, a map provider.
structure Backing (σ : Type) [Preorder σ] where
  rootregGetOrCreate : UInt64 → Proc σ Errno UInt64
  allocId : Proc σ Errno Nat
  get : Nat → Nat → Proc σ Errno (List UInt8)
  update : Nat → List UInt8 → Proc σ Errno Unit
  delete : Nat → Proc σ Errno Unit
  mapCreate : Nat → MapConfig → Proc σ Errno Unit
  mapGet : Nat → List UInt8 → Nat → Proc σ Errno (List UInt8)
  mapSet : Nat → List UInt8 → List UInt8 → Proc σ Errno Unit
  mapDel : Nat → List UInt8 → Proc σ Errno Unit
  -- `next` from the start, without a buffer
  mapFirst : Nat → Proc σ Errno Unit
  mapDestroy : Nat → Proc σ Errno Unit

-- CONFIG_BLOBFS_MAX_NAME_LEN, its range, and BLOBFS_FILE_MAX.
structure FsCfg where
  nameMax : Nat
  name_pos : 0 < nameMax
  name_le : nameMax ≤ 255
  fileMax : Nat

def blobfsMagic : Nat := 0x42465331
def metaVersion : Nat := 2
def metaVersion1 : Nat := 1
def direntVersion : Nat := 1
def typeFile : Nat := 1
def typeDir : Nat := 2

def blobfsKey : UInt64 := rootregKey 0x42465331 0

-- struct blobfs_dirent
structure Dirent where
  type : Nat
  version : Nat
  rsvd : Nat
  rsvd2 : Nat
  bodyId : Nat
  deriving Repr, DecidableEq

def direntLen : Nat := 16

def Dirent.image (de : Dirent) : List UInt8 :=
  leBytes de.type 1 ++ (leBytes de.version 1 ++ (leBytes de.rsvd 2 ++ (leBytes de.rsvd2 4 ++
    leBytes de.bodyId 8)))

def direntOf (buf : List UInt8) : Dirent :=
  ⟨fieldAt buf 0 1, fieldAt buf 1 1, fieldAt buf 2 2, fieldAt buf 4 4, fieldAt buf 8 8⟩

def direntCheck (buf : List UInt8) : Except Errno Dirent :=
  let de := direntOf buf
  if buf.length ≠ direntLen ∨ (de.type ≠ typeFile ∧ de.type ≠ typeDir) ∨ de.version ≠ direntVersion then
    .error Errno.EIO
  else .ok de

def newDirent (type bodyId : Nat) : Dirent := ⟨type, direntVersion, 0, 0, bodyId⟩

-- struct blobfs_meta, of version 2. A name is the beginning of its array.
structure Meta where
  renameInFlight : Nat
  fromLen : Nat
  toLen : Nat
  dirRoot : Nat
  renameBody : Nat
  fromDir : Nat
  toDir : Nat
  fromName : List UInt8
  toName : List UInt8
  deriving Repr, DecidableEq

-- A name in an array of zeros.
def nameArray (cfg : FsCfg) (name : List UInt8) : List UInt8 :=
  name ++ List.replicate (cfg.nameMax + 1 - name.length) 0

-- `n` rounded up to a multiple of 8.
def align8 (n : Nat) : Nat := (n + 7) / 8 * 8

-- sizeof(struct blobfs_meta) and sizeof(struct blobfs_meta_v1)
def metaLen (cfg : FsCfg) : Nat := align8 (40 + 2 * (cfg.nameMax + 1))
def metaLen1 (cfg : FsCfg) : Nat := align8 (24 + 2 * (cfg.nameMax + 1))

def metaImage (cfg : FsCfg) (m : Meta) : List UInt8 :=
  let fields := leBytes blobfsMagic 4 ++ (leBytes metaVersion 1 ++ (leBytes m.renameInFlight 1 ++
    (leBytes m.fromLen 1 ++ (leBytes m.toLen 1 ++ (leBytes m.dirRoot 8 ++ (leBytes m.renameBody 8 ++
      (leBytes m.fromDir 8 ++ (leBytes m.toDir 8 ++ (m.fromName ++ m.toName)))))))))
  fields ++ List.replicate (metaLen cfg - (40 + 2 * (cfg.nameMax + 1))) 0

-- What `meta_read` makes of the bytes it got, and whether they are of version 1.
def metaOf (cfg : FsCfg) (buf : List UInt8) : Except Errno (Meta × Bool) :=
  if buf.length = 0 then .error Errno.ENOENT
  else if buf.length = metaLen cfg ∧ fieldAt buf 0 4 = blobfsMagic ∧ fieldAt buf 4 1 = metaVersion then
    .ok (⟨fieldAt buf 5 1, fieldAt buf 6 1, fieldAt buf 7 1, fieldAt buf 8 8, fieldAt buf 16 8,
      fieldAt buf 24 8, fieldAt buf 32 8, (buf.drop 40).take (cfg.nameMax + 1),
      (buf.drop (41 + cfg.nameMax)).take (cfg.nameMax + 1)⟩, false)
  else if buf.length = metaLen1 cfg ∧ fieldAt buf 0 4 = blobfsMagic ∧
      fieldAt buf 4 1 = metaVersion1 then
    .ok (⟨fieldAt buf 5 1, fieldAt buf 6 1, fieldAt buf 7 1, fieldAt buf 8 8, fieldAt buf 16 8,
      fieldAt buf 8 8, fieldAt buf 8 8, (buf.drop 24).take (cfg.nameMax + 1),
      (buf.drop (25 + cfg.nameMax)).take (cfg.nameMax + 1)⟩, true)
  else .error Errno.EIO

-- The meta of a new file system.
def freshMeta (cfg : FsCfg) (dirRoot : Nat) : Meta :=
  ⟨0, 0, 0, dirRoot, 0, 0, 0, nameArray cfg [], nameArray cfg []⟩

-- The state of a session.
structure Session where
  mounted : Bool
  -- the meta on flash is of version 1
  metaV1 : Bool
  -- a rename intent may be on flash
  intentPending : Bool
  metaId : Nat
  dirRoot : Nat
  deriving Repr, DecidableEq

def Session.boot : Session := ⟨false, false, false, 0, 0⟩

abbrev F (σ : Type) [Preorder σ] := Proc (WithRam σ Session) Errno

section

variable {σ : Type} [Preorder σ]

def session : F σ Session := Proc.read WithRam.ram

def setSession (f : Session → Session) : F σ Unit :=
  Proc.modify (fun s => ⟨s.base, f s.ram⟩) fun s => le_refl s.base

variable (B : Backing σ) (cfg : FsCfg)

def dirCreate (root : Nat) : F σ Unit :=
  (B.mapCreate root ⟨0, 0, cfg.nameMax + direntLen⟩).below

/-! Paths -/

-- Where a path leads. The root directory itself has no name.
structure Where where
  dir : Nat
  name : List UInt8
  wantDir : Bool
  deriving Repr, DecidableEq

def checkName (name : List UInt8) : Except Errno Unit :=
  if name = [dot] ∨ name = [dot, dot] then .error Errno.EINVAL
  else if cfg.nameMax < name.length then .error Errno.ENAMETOOLONG
  else .ok ()

def direntGet (dir : Nat) (name : List UInt8) : F σ Dirent := do
  let buf ← (B.mapGet dir name direntLen).below
  Proc.ofExcept (direntCheck buf)

-- From the component `name` on, which `after` follows. The first argument bounds the components.
def walkFrom : Nat → Nat → List UInt8 → List UInt8 → F σ Where
  | 0, _, _, _ => Proc.fail Errno.EIO
  | n + 1, dir, name, after => do
    Proc.ofExcept (checkName cfg name)
    let (next, after') := component after
    if next = [] then pure ⟨dir, name, after.head? == some slash⟩
    else do
      let de ← direntGet B dir name
      if de.type ≠ typeDir then Proc.fail Errno.ENOTDIR
      else walkFrom n de.bodyId next after'

-- No path is a NULL pointer.
def walk (path : Option CStr) : F σ Where :=
  match path with
  | none => Proc.fail Errno.EINVAL
  | some p => do
    let st ← session
    if st.mounted = false then Proc.fail Errno.ENODEV
    else
      let (name, after) := component p.chars
      if name = [] then pure ⟨st.dirRoot, [], false⟩
      else walkFrom B cfg p.chars.length st.dirRoot name after

-- `none` is the root directory, for which the source answers -EISDIR without a name.
def resolve (path : Option CStr) : F σ (Where × Option Dirent) := do
  let w ← walk B cfg path
  if w.name = [] then pure (w, none)
  else do
    let de ← direntGet B w.dir w.name
    if w.wantDir ∧ de.type ≠ typeDir then Proc.fail Errno.ENOTDIR
    else pure (w, some de)

/-! The meta -/

def metaWrite (m : Meta) : F σ Unit := do
  let st ← session
  (B.update st.metaId (metaImage cfg m)).below
  setSession fun st => { st with metaV1 := false }

def intentClear (m : Meta) : Meta :=
  { m with
    renameInFlight := 0
    fromLen := 0
    toLen := 0
    renameBody := 0
    fromDir := 0
    toDir := 0
    fromName := nameArray cfg []
    toName := nameArray cfg [] }

def Meta.from (m : Meta) : List UInt8 := m.fromName.take m.fromLen

def Meta.to (m : Meta) : List UInt8 := m.toName.take m.toLen

-- `to` is bound to the body: a `from` that is too goes.
def rollForward (m : Meta) : F σ Unit := do
  match ← Proc.attempt (direntGet B m.fromDir m.from) with
  | .ok de => Proc.when (de.bodyId = m.renameBody) (B.mapDel m.fromDir m.from).below
  | .error e => if e ≠ Errno.ENOENT then Proc.fail e else pure ()

def renameRecover (m : Meta) : F σ Unit :=
  if m.fromLen = 0 ∨ cfg.nameMax < m.fromLen ∨ m.toLen = 0 ∨ cfg.nameMax < m.toLen ∨
      m.fromDir = 0 ∨ m.toDir = 0 then Proc.fail Errno.EIO
  else do
    match ← Proc.attempt (direntGet B m.toDir m.to) with
    | .ok de => Proc.when (de.bodyId = m.renameBody) (rollForward B m)
    | .error e => if e ≠ Errno.ENOENT then Proc.fail e else pure ()
    metaWrite B cfg (intentClear cfg m)

def metaRead (metaId : Nat) : F σ (Meta × Bool) := do
  let buf ← (B.get metaId (metaLen cfg)).below
  Proc.ofExcept (metaOf cfg buf)

def metaUpgrade : F σ Unit := do
  let st ← session
  if st.metaV1 = false then pure ()
  else do
    let (m, _) ← metaRead B cfg st.metaId
    metaWrite B cfg m

def intentSettle : F σ Unit := do
  let st ← session
  if st.intentPending = false then pure ()
  else do
    let (m, _) ← metaRead B cfg st.metaId
    Proc.when (m.renameInFlight ≠ 0) (renameRecover B cfg m)
    setSession fun st => { st with intentPending := false }

/-! Mount -/

-- The part of a mount that has the meta.
def attach (metaId : Nat) (m : Meta) (v1 : Bool) : F σ Unit := do
  setSession fun st =>
    { st with metaId := metaId, dirRoot := m.dirRoot, metaV1 := v1, intentPending := false }
  if m.renameInFlight ≠ 0 then do
    match ← Proc.attempt (renameRecover B cfg m) with
    | .ok _ => setSession fun st => { st with mounted := true }
    | .error e => do
      setSession fun st => { st with metaId := 0, dirRoot := 0 }
      Proc.fail e
  else setSession fun st => { st with mounted := true }

-- An empty root directory, and the meta that has it.
def createFs (metaId : Nat) : F σ Unit := do
  let dirRoot ← B.allocId.below
  if dirRoot = 0 then Proc.fail Errno.EIO
  else do
    dirCreate B cfg dirRoot
    (B.update metaId (metaImage cfg (freshMeta cfg dirRoot))).below
    attach B cfg metaId (freshMeta cfg dirRoot) false

def blobfsMount : F σ Unit := do
  let st ← session
  if st.mounted then Proc.fail Errno.EALREADY
  else do
    let metaId ← (B.rootregGetOrCreate blobfsKey).below
    match ← Proc.attempt (metaRead B cfg metaId.toNat) with
    | .ok (m, v1) => attach B cfg metaId.toNat m v1
    | .error e => if e = Errno.ENOENT then createFs B cfg metaId.toNat else Proc.fail e

def blobfsUnmount : F σ Unit := setSession fun _ => Session.boot

/-! Names -/

-- -EEXIST with no name is that of the root directory.
def walkToFreeName (path : Option CStr) : F σ (Except Where Where) := do
  let w ← walk B cfg path
  if w.name = [] then pure (.error w)
  else do
    match ← Proc.attempt (direntGet B w.dir w.name) with
    | .ok _ => Proc.fail Errno.EEXIST
    | .error e => if e = Errno.ENOENT then pure (.ok w) else Proc.fail e

def blobfsCreate (path : Option CStr) : F σ Unit := do
  match ← walkToFreeName B cfg path with
  | .error _ => Proc.fail Errno.EISDIR
  | .ok w =>
    if w.wantDir then Proc.fail Errno.EISDIR
    else do
      let bodyId ← B.allocId.below
      if bodyId = 0 then Proc.fail Errno.EIO
      else do
        (B.update bodyId []).below
        (B.mapSet w.dir w.name (newDirent typeFile bodyId).image).below

def blobfsMkdir (path : Option CStr) : F σ Unit := do
  match ← walkToFreeName B cfg path with
  | .error _ => Proc.fail Errno.EEXIST
  | .ok w => do
    metaUpgrade B cfg
    let dirId ← B.allocId.below
    if dirId = 0 then Proc.fail Errno.EIO
    else do
      dirCreate B cfg dirId
      match ← Proc.attempt
          ((B.mapSet w.dir w.name (newDirent typeDir dirId).image).below : F σ Unit) with
      | .ok _ => pure ()
      | .error e => do
        let _ ← Proc.attempt ((B.mapDestroy dirId).below : F σ Unit)
        Proc.fail e

def blobfsLookup (path : Option CStr) : F σ Nat := do
  match ← resolve B cfg path with
  | (_, none) => Proc.fail Errno.EISDIR
  | (_, some de) => if de.type = typeDir then Proc.fail Errno.EISDIR else pure de.bodyId

-- Whether the directory has no entry. A map that is gone has none.
def dirIsEmpty (dir : Nat) : F σ Bool := do
  match ← Proc.attempt ((B.mapFirst dir).below : F σ Unit) with
  | .ok _ => pure false
  | .error e =>
    if e = Errno.ENODATA ∨ e = Errno.ENOENT then pure true
    else if e = Errno.ENOMEM then pure false
    else Proc.fail e

def blobfsUnlink (path : Option CStr) : F σ Unit := do
  intentSettle B cfg
  match ← resolve B cfg path with
  | (_, none) => Proc.fail Errno.EBUSY
  | (w, some de) => do
    let full ← if de.type = typeDir then do
        let empty ← dirIsEmpty B de.bodyId
        pure (!empty)
      else pure false
    if full then Proc.fail Errno.ENOTEMPTY
    else do
      (B.mapDel w.dir w.name).below
      -- what is not released is garbage
      let _ ← Proc.attempt (if de.type = typeDir then (B.mapDestroy de.bodyId).below
        else (B.delete de.bodyId).below : F σ Unit)
      pure ()

-- The intent to rename `wf` to `wt`.
def renameIntent (dirRoot : Nat) (wf wt : Where) (de : Dirent) : Meta where
  renameInFlight := 1
  fromLen := wf.name.length
  toLen := wt.name.length
  dirRoot := dirRoot
  renameBody := de.bodyId
  fromDir := wf.dir
  toDir := wt.dir
  fromName := nameArray cfg wf.name
  toName := nameArray cfg wt.name

-- The two map mutations of a rename, between the writes of the meta.
def renameMove (wf wt : Where) (de : Dirent) : F σ Unit := do
  let st ← session
  let m := renameIntent cfg st.dirRoot wf wt de
  metaWrite B cfg m
  setSession fun st => { st with intentPending := true }
  match ← Proc.attempt ((B.mapSet wt.dir wt.name de.image).below : F σ Unit) with
  | .error e => do
    match ← Proc.attempt (metaWrite B cfg (intentClear cfg m)) with
    | .ok _ => setSession fun st => { st with intentPending := false }
    | .error _ => pure ()
    Proc.fail e
  | .ok _ => do
    (B.mapDel wf.dir wf.name).below
    metaWrite B cfg (intentClear cfg m)
    setSession fun st => { st with intentPending := false }

def blobfsRename (src dst : Option CStr) : F σ Unit := do
  intentSettle B cfg
  match ← resolve B cfg src with
  | (_, none) => Proc.fail Errno.EBUSY
  | (wf, some de) => do
    let wt ← walk B cfg dst
    if wt.name = [] then Proc.fail Errno.EBUSY
    else if wt.wantDir ∧ de.type ≠ typeDir then Proc.fail Errno.ENOTDIR
    else if wt.dir ≠ wf.dir then Proc.fail Errno.EXDEV
    else do
      match ← Proc.attempt (direntGet B wt.dir wt.name) with
      | .ok _ => Proc.fail Errno.EEXIST
      | .error e => if e ≠ Errno.ENOENT then Proc.fail e else renameMove B cfg wf wt de

end

end KeyValueDb.Blobfs
