import KeyValueDb.Containers.MapStore
import KeyValueDb.Containers.KvhashContents
import KeyValueDb.Blobfs.Blobfs

/-!
What blobfs runs on: the blob store with its maps, and the store of maps and blobs in which every write
is one step.
-/

namespace KeyValueDb.Blobfs

open Containers Kvdb Rootreg

/-! The blob store -/

def fetchedBytes : Fetched → K (List UInt8)
  | .value bytes => pure bytes
  | .tooSmall _ => Proc.fail Errno.ENOMEM

def enumerated : Successor → K Unit
  | .entry _ _ => pure ()
  | .tooSmall _ _ => Proc.fail Errno.ENOMEM

-- `kvhash_map_ops`, the only map provider there is.
def kvhashBacking (cfg : KvdbCfg) : Backing (World KvRam) where
  rootregGetOrCreate := rootregGetOrCreate cfg.reg
  allocId := blobDbAllocId
  get := blobDbGet
  update := blobDbUpdate cfg.toStoreCfg
  delete := blobDbDelete
  mapCreate root mc := kvhashCreate cfg.toKvCfg root (some mc)
  mapGet root key outSz := kvhashGet cfg.toKvCfg root key outSz >>= fetchedBytes
  mapSet := kvhashSet cfg.toKvCfg
  mapDel := kvhashDel cfg.toKvCfg
  mapFirst root := kvhashNext cfg.toKvCfg root [] 0 0 >>= enumerated
  mapDestroy := kvhashDestroy cfg.toKvCfg

/-! The store of maps and blobs -/

variable (cfg : RegCfg)

def storeRegistry : S (List RrEntry) := do
  let data ← blobGet blobDbRootId cfg.imageMax
  Proc.ofExcept (rrCheck cfg data)

-- `rootreg_get_or_create`
def storeGetOrCreate (key : UInt64) : S UInt64 :=
  if key = 0 then Proc.fail Errno.EINVAL
  else do
    let es ← storeRegistry cfg
    match rrFind es key with
    | some idx => pure (es.getD idx ⟨0, 0⟩).rootId
    | none =>
      if cfg.maxRoots ≤ es.length then Proc.fail Errno.ENOSPC
      else do
        let id ← allocId
        if id = 0 then Proc.fail Errno.EIO
        else do
          blobUpdate blobDbRootId (rrImage (es ++ [⟨key, UInt64.ofNat id⟩]))
          pure (UInt64.ofNat id)

def storeBacking : Backing MapStore where
  rootregGetOrCreate := storeGetOrCreate cfg
  allocId := allocId
  get := blobGet
  update := blobUpdate
  delete := blobDelete
  mapCreate root _ := mapCreate root
  mapGet := mapGet
  mapSet := mapSet
  mapDel := mapDel
  mapFirst := mapFirst
  mapDestroy := mapDestroy

end KeyValueDb.Blobfs
