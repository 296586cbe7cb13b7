import KeyValueDb.Blobfs.Backings

/-!
What is in the files and the directories: reads and writes of a body by its id or by a path, and the
listing of a directory, where the name that came last is all there is of a listing.
-/

namespace KeyValueDb.Blobfs

open Containers Kvdb Rootreg

-- What is called of the blob store and of the map provider besides.
structure FileBacking (σ : Type) [Preorder σ] extends Backing σ where
  size : Nat → Proc σ Errno Nat
  read : Nat → Nat → Nat → Proc σ Errno (List UInt8)
  write : Nat → Nat → List UInt8 → Proc σ Errno Unit
  -- `next` after a key, with the sizes of the buffers for the key and the value
  mapNext : Nat → List UInt8 → Nat → Nat → Proc σ Errno (List UInt8 × List UInt8)

-- enum blobfs_entry_type
inductive EntryType where
  | file | dir
  deriving Repr, DecidableEq

-- struct blobfs_stat
structure Stat where
  type : EntryType
  size : Nat
  deriving Repr, DecidableEq

section

variable {σ : Type} [Preorder σ] (B : FileBacking σ) (cfg : FsCfg)

def blobfsSizeId (bodyId : Nat) : F σ Nat := (B.size bodyId).below

def blobfsReadId (bodyId off len : Nat) : F σ (List UInt8) := (B.read bodyId off len).below

def blobfsWriteId (bodyId off : Nat) (buf : List UInt8) : F σ Unit :=
  if buf.length = 0 then do
    -- nothing to write, but the file must be there
    let _ ← blobfsSizeId B bodyId
    pure ()
  else if cfg.fileMax < off ∨ cfg.fileMax - off < buf.length then Proc.fail Errno.ENOSPC
  else (B.write bodyId off buf).below

def blobfsTruncateId (bodyId size : Nat) : F σ Unit :=
  if cfg.fileMax < size then Proc.fail Errno.ENOSPC
  else do
    let cur ← (B.size bodyId).below
    if size = cur then pure ()
    -- one zero byte at the new end, and the store fills the gap
    else if cur < size then (B.write bodyId (size - 1) [0]).below
    else do
      let buf ← (B.read bodyId 0 size).below
      if buf.length ≠ size then Proc.fail Errno.EIO else (B.update bodyId buf).below

def statOf (de : Dirent) : F σ Stat :=
  if de.type = typeDir then pure ⟨.dir, 0⟩
  else do
    let size ← (B.size de.bodyId).below
    pure ⟨.file, size⟩

def blobfsStat (path : Option CStr) : F σ Stat := do
  match ← resolve B.toBacking cfg path with
  | (_, none) => pure ⟨.dir, 0⟩
  | (_, some de) => statOf B de

def blobfsRead (path : Option CStr) (off len : Nat) : F σ (List UInt8) := do
  let bodyId ← blobfsLookup B.toBacking cfg path
  blobfsReadId B bodyId off len

def blobfsWrite (path : Option CStr) (off : Nat) (buf : List UInt8) : F σ Unit := do
  let bodyId ← blobfsLookup B.toBacking cfg path
  blobfsWriteId B cfg bodyId off buf

def blobfsTruncate (path : Option CStr) (size : Nat) : F σ Unit := do
  let bodyId ← blobfsLookup B.toBacking cfg path
  blobfsTruncateId B cfg bodyId size

/-! Listings -/

def blobfsOpendir (path : Option CStr) : F σ Nat := do
  match ← resolve B.toBacking cfg path with
  | (_, none) => do
    let st ← session
    pure st.dirRoot
  | (_, some de) => if de.type ≠ typeDir then Proc.fail Errno.ENOTDIR else pure de.bodyId

-- The entry after `after`. One that proves broken comes with its name, so that a caller can step past it.
def blobfsNextId (dirId : Nat) (after : List UInt8) : F σ (List UInt8 × Except Errno Stat) := do
  let st ← session
  if st.mounted = false then Proc.fail Errno.ENODEV
  else if cfg.nameMax < after.length then Proc.fail Errno.ENAMETOOLONG
  else do
    match ← Proc.attempt ((B.mapNext dirId after cfg.nameMax direntLen).below : F σ _) with
    | .error e => if e = Errno.ENOMEM then Proc.fail Errno.EIO else Proc.fail e
    | .ok (name, buf) =>
      match direntCheck buf with
      | .error e => pure (name, .error e)
      | .ok de => do
        match ← Proc.attempt (statOf B de) with
        | .ok stat => pure (name, .ok stat)
        -- a listed file has a body
        | .error e => pure (name, .error (if e = Errno.ENOENT then Errno.EIO else e))

end

-- On the store of maps and blobs.
def storeFiles (cfg : RegCfg) : FileBacking MapStore where
  toBacking := storeBacking cfg
  size := blobSize
  read := blobRead
  write := blobWrite
  mapNext := mapNext

end KeyValueDb.Blobfs
