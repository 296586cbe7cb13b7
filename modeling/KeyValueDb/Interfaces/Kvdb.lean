import KeyValueDb.Registry.Rootreg
import KeyValueDb.Containers.Kvhash

/-!
Named instances of a map from strings to values. The root registry leads from the hash of the name to
the meta blob of the instance, which has the name itself, the backend and the root of the map.
-/

namespace KeyValueDb.Kvdb

open Containers Rootreg

-- A C string without its NUL.
structure CStr where
  chars : List UInt8
  no_nul : 0 ∉ chars
  deriving DecidableEq

def kvdbMagic : UInt32 := 0x4b564442
def kvdbMetaVersion : Nat := 1
def kvdbNameMax : Nat := 15
-- sizeof(struct kvdb_meta)
def kvdbMetaLen : Nat := 32

inductive Backend where
  | default | hash | tree | list
  deriving Repr, DecidableEq

-- enum kvdb_backend
def Backend.code : Backend → Nat
  | .default => 0
  | .hash => 1
  | .tree => 2
  | .list => 3

structure KvdbConfig where
  backend : Backend
  expectedEntries : Nat
  typicalEntryBytes : Nat
  maxEntryBytes : Nat

structure KvdbCfg extends KvCfg where
  maxRoots : Nat
  roots_le : maxRoots ≤ 1000
  image_le : 8 + 16 * maxRoots ≤ maxPayload
  -- CONFIG_BLOB_CONTAINER_KVHASH
  kvhashBuilt : Bool
  -- KVDB_DEFAULT_BACKEND
  defaultBackend : Backend

def KvdbCfg.reg (cfg : KvdbCfg) : RegCfg where
  toStoreCfg := cfg.toStoreCfg
  maxRoots := cfg.maxRoots
  roots_le := cfg.roots_le
  image_le := cfg.image_le

-- ROOTREG_KEY
def rootregKey (magic inst : UInt32) : UInt64 := (magic.toUInt64 <<< 32) ||| inst.toUInt64

def nameHash (name : List UInt8) : UInt32 :=
  name.foldl (fun h c => (h ^^^ c.toUInt32) * 0x01000193) 0x811c9dc5

def kvdbKey (hash : UInt32) : UInt64 := rootregKey kvdbMagic hash

-- Whether the backend is built in. The only one there is is kvhash.
def resolve (cfg : KvdbCfg) (code : Nat) : Bool := cfg.kvhashBuilt && code == Backend.hash.code

-- struct kvdb_meta
def metaImage (backend root : Nat) (name : List UInt8) : List UInt8 :=
  leBytes kvdbMagic.toNat 4 ++ (leBytes backend 1 ++ (leBytes kvdbMetaVersion 1 ++
    (leBytes name.length 1 ++ (leBytes 0 1 ++ (leBytes root 8 ++
      (name ++ List.replicate (kvdbNameMax + 1 - name.length) 0))))))

def wanted (cfg : KvdbCfg) (kc : Option KvdbConfig) : Backend :=
  match kc with
  | none => cfg.defaultBackend
  | some c => if c.backend = .default then cfg.defaultBackend else c.backend

def mapConfig (kc : Option KvdbConfig) : MapConfig where
  expectedEntries := (kc.map KvdbConfig.expectedEntries).getD 0
  typicalEntryBytes := (kc.map KvdbConfig.typicalEntryBytes).getD 0
  maxEntryBytes := (kc.map KvdbConfig.maxEntryBytes).getD 0

variable (cfg : KvdbCfg)

-- The root of the new map.
def createInstance (metaId : Nat) (name : CStr) (kc : Option KvdbConfig) : K Nat :=
  if resolve cfg (wanted cfg kc).code = false then Proc.fail Errno.ENOTSUP
  else do
    let structRoot ← blobDbAllocId
    if structRoot = 0 then Proc.fail Errno.EIO
    else do
      kvhashCreate cfg.toKvCfg structRoot (some (mapConfig kc))
      blobDbUpdate cfg.toStoreCfg metaId (metaImage (wanted cfg kc).code structRoot name.chars)
      pure structRoot

-- What the meta blob of an instance says to a call that asks for `name`.
def attach (data : List UInt8) (name : CStr) : Except Errno Nat :=
  if data.length < kvdbMetaLen ∨ fieldAt data 0 4 ≠ kvdbMagic.toNat then .error Errno.EIO
  else if fieldAt data 6 1 ≠ name.chars.length ∨
      (data.drop 16).take name.chars.length ≠ name.chars then .error Errno.EEXIST
  else if resolve cfg (fieldAt data 4 1) = false then .error Errno.ENOTSUP
  else .ok (fieldAt data 8 8)

-- The root of the map behind the name.
def kvdbOpen (name : CStr) (kc : Option KvdbConfig) : K Nat :=
  if name.chars.length = 0 ∨ kvdbNameMax < name.chars.length then Proc.fail Errno.EINVAL
  else do
    let metaId ← rootregGetOrCreate cfg.reg (kvdbKey (nameHash name.chars))
    match ← Proc.attempt (blobDbGet metaId.toNat kvdbMetaLen) with
    | .error e =>
      if e = Errno.ENOENT then createInstance cfg metaId.toNat name kc else Proc.fail e
    | .ok data =>
      if data.length = 0 then createInstance cfg metaId.toNat name kc
      else Proc.ofExcept (attach cfg data name)

def kvdbSet (root : Nat) (key : CStr) (val : List UInt8) : K Unit :=
  kvhashSet cfg.toKvCfg root key.chars val

def kvdbGet (root : Nat) (key : CStr) (outSz : Nat) : K Fetched :=
  kvhashGet cfg.toKvCfg root key.chars outSz

def kvdbDelete (root : Nat) (key : CStr) : K Unit := kvhashDel cfg.toKvCfg root key.chars

def kvdbHas (root : Nat) (key : CStr) : K Bool := do
  match ← Proc.attempt (kvhashGet cfg.toKvCfg root key.chars 0) with
  | .ok _ => pure true
  | .error e => pure (decide (e ≠ Errno.ENOENT))

/-! The bytes -/

theorem kvdbKey_inj {h h' : UInt32} (he : kvdbKey h = kvdbKey h') : h = h' := by
  have hlow : ∀ x : UInt32, (kvdbKey x).toUInt32 = x := by
    intro x
    apply UInt32.eq_of_toBitVec_eq
    simp only [kvdbKey, rootregKey, kvdbMagic]
    ext i hi
    simp
  rw [← hlow h, he, hlow h']

theorem kvdbKey_ne_zero (h : UInt32) : kvdbKey h ≠ 0 := by
  intro h0
  have hbit : (kvdbKey h).toBitVec.getLsbD 62 = true := by
    simp only [kvdbKey, rootregKey, kvdbMagic, UInt64.toBitVec_or, BitVec.getLsbD_or]
    have : ((0x4b564442 : UInt32).toUInt64 <<< 32).toBitVec.getLsbD 62 = true := by decide
    rw [this, Bool.true_or]
  rw [h0] at hbit
  exact absurd hbit (by decide)

variable {cfg} {backend root : Nat} {name name' : CStr}

theorem metaImage_length (h : name.chars.length ≤ kvdbNameMax) :
    (metaImage backend root name.chars).length = kvdbMetaLen := by
  simp only [kvdbNameMax] at h
  simp [metaImage, kvdbMetaLen, kvdbNameMax]
  omega

theorem metaImage_fields (hb : backend < 256) (hroot : root < 2 ^ 64) (h : name.chars.length ≤ kvdbNameMax) :
    fieldAt (metaImage backend root name.chars) 0 4 = kvdbMagic.toNat ∧
      fieldAt (metaImage backend root name.chars) 4 1 = backend ∧
      fieldAt (metaImage backend root name.chars) 6 1 = name.chars.length ∧
      fieldAt (metaImage backend root name.chars) 8 8 = root ∧
      (metaImage backend root name.chars).drop 16 =
        name.chars ++ List.replicate (kvdbNameMax + 1 - name.chars.length) 0 := by
  have hlen : name.chars.length < 256 := by
    simp only [kvdbNameMax] at h
    omega
  simp only [metaImage]
  refine ⟨?_, ?_, ?_, ?_, ?_⟩
  . exact fieldAt_leBytes _ _ _ (by decide)
  . rw [fieldAt_append _ _ _ 0 _ (by simp), fieldAt_leBytes _ _ _ (by omega)]
  . rw [fieldAt_append _ _ _ 2 _ (by simp), fieldAt_append _ _ _ 1 _ (by simp),
      fieldAt_append _ _ _ 0 _ (by simp), fieldAt_leBytes _ _ _ (by omega)]
  . rw [fieldAt_append _ _ _ 4 _ (by simp), fieldAt_append _ _ _ 3 _ (by simp),
      fieldAt_append _ _ _ 2 _ (by simp), fieldAt_append _ _ _ 1 _ (by simp),
      fieldAt_append _ _ _ 0 _ (by simp), fieldAt_leBytes _ _ _ (by omega)]
  . simp [leBytes]

-- The meta blob of an instance lets in who has its name.
theorem attach_image (hb : resolve cfg backend = true) (hroot : root < 2 ^ 64)
    (h : name.chars.length ≤ kvdbNameMax) :
    attach cfg (metaImage backend root name.chars) name' =
      if name' = name then .ok root else .error Errno.EEXIST := by
  have hcode : backend = 1 := by
    simp only [resolve, Backend.code, Bool.and_eq_true, beq_iff_eq] at hb
    exact hb.2
  obtain ⟨hmagic, hbackend, hlen, hr, hname⟩ := metaImage_fields (by omega : backend < 256) hroot h
  rw [attach, metaImage_length h, hmagic, hbackend, hlen, hr, hname, if_neg (by simp)]
  by_cases he : name' = name
  . subst he
    rw [if_neg, if_neg (by simp [hb]), if_pos rfl]
    simp
  . rw [if_pos, if_neg he]
    by_contra hno
    simp only [not_or, not_not] at hno
    obtain ⟨hsame, hchars⟩ := hno
    rw [← hsame, List.take_left'] at hchars
    . exact he (by cases name; cases name'; simp_all)
    . rfl

end KeyValueDb.Kvdb
