import KeyValueDb.Containers.BlobStore

/-!
The root registry: a list of keys with the root of the structure behind each of them, in the payload
of id 1. Every call reads it anew, and every change is one update.
-/

namespace KeyValueDb.Rootreg

open Containers

-- The blob that the registry owns.
def blobDbRootId : Nat := 1

-- CONFIG_ROOTREG_MAX_ROOTS, its range, and the assertion that a full registry fits into a payload.
structure RegCfg extends StoreCfg where
  maxRoots : Nat
  roots_le : maxRoots ≤ 1000
  image_le : 8 + 16 * maxRoots ≤ maxPayload

structure RrEntry where
  key : UInt64
  rootId : UInt64
  deriving Repr, DecidableEq

-- "RREG"
def rrMagic : List UInt8 := [0x52, 0x52, 0x45, 0x47]

def rrVersion : Nat := 1

def RegCfg.imageMax (cfg : RegCfg) : Nat := 8 + 16 * cfg.maxRoots

def RrEntry.bytes (e : RrEntry) : List UInt8 := leBytes e.key.toNat 8 ++ leBytes e.rootId.toNat 8

def rrImage (es : List RrEntry) : List UInt8 :=
  rrMagic ++ (leBytes rrVersion 2 ++ (leBytes es.length 2 ++ es.flatMap RrEntry.bytes))

def rrCount (data : List UInt8) : Nat := fieldAt data 6 2

def rrEntry (data : List UInt8) (i : Nat) : RrEntry where
  key := UInt64.ofNat (fieldAt data (8 + 16 * i) 8)
  rootId := UInt64.ofNat (fieldAt data (8 + 16 * i + 8) 8)

-- What `rr_load` makes of the bytes it got.
def rrCheck (cfg : RegCfg) (data : List UInt8) : Except Errno (List RrEntry) :=
  if data.length < 8 then .error Errno.ENOTSUP
  else if data.take 4 ≠ rrMagic ∨ fieldAt data 4 2 ≠ rrVersion then .error Errno.ENOTSUP
  else if cfg.maxRoots < rrCount data ∨ data.length ≠ 8 + 16 * rrCount data then
    .error Errno.EIO
  else .ok ((List.range (rrCount data)).map (rrEntry data))

variable {ρ : Type}

def rrLoad (cfg : RegCfg) : M ρ (List RrEntry) := do
  let data ← blobDbGet blobDbRootId cfg.imageMax
  Proc.ofExcept (rrCheck cfg data)

def rrStore (cfg : RegCfg) (es : List RrEntry) : M ρ Unit :=
  blobDbUpdate cfg.toStoreCfg blobDbRootId (rrImage es)

def rrFind (es : List RrEntry) (key : UInt64) : Option Nat := es.findIdx? fun e => e.key == key

def rootregInit (cfg : RegCfg) : M ρ Unit := do
  match ← Proc.attempt (rrLoad cfg) with
  | .ok _ => pure ()
  | .error e =>
    if e ≠ Errno.ENOTSUP then Proc.fail e
    else
      -- an empty payload is that of a new store, any other has a foreign owner
      match ← Proc.attempt (blobDbGet blobDbRootId 8) with
      | .error e => Proc.fail (if e = Errno.ENOMEM then Errno.ENOTSUP else e)
      | .ok probe => if 0 < probe.length then Proc.fail Errno.ENOTSUP else rrStore cfg []

def rootregGet (cfg : RegCfg) (key : UInt64) : M ρ UInt64 :=
  if key = 0 then Proc.fail Errno.EINVAL
  else do
    let es ← rrLoad cfg
    match rrFind es key with
    | none => Proc.fail Errno.ENOENT
    | some idx => pure (es.getD idx ⟨0, 0⟩).rootId

-- The part of `rootreg_get_or_create` that a missing key goes on to.
def rootregCreate (cfg : RegCfg) (key : UInt64) : M ρ UInt64 := do
  let es ← rrLoad cfg
  if cfg.maxRoots ≤ es.length then Proc.fail Errno.ENOSPC
  else do
    let id ← blobDbAllocId
    if id = 0 then Proc.fail Errno.EIO
    else do
      rrStore cfg (es ++ [⟨key, UInt64.ofNat id⟩])
      pure (UInt64.ofNat id)

def rootregGetOrCreate (cfg : RegCfg) (key : UInt64) : M ρ UInt64 := do
  match ← Proc.attempt (rootregGet cfg key) with
  | .ok id => pure id
  | .error e => if e ≠ Errno.ENOENT then Proc.fail e else rootregCreate cfg key

def rootregSet (cfg : RegCfg) (key rootId : UInt64) : M ρ Unit :=
  if key = 0 ∨ rootId = 0 then Proc.fail Errno.EINVAL
  else do
    let es ← rrLoad cfg
    if (rrFind es key).isSome then Proc.fail Errno.EEXIST
    else if cfg.maxRoots ≤ es.length then Proc.fail Errno.ENOSPC
    else rrStore cfg (es ++ [⟨key, rootId⟩])

-- The last entry takes the place of the one at `idx`.
def rrRemove (es : List RrEntry) (idx : Nat) : List RrEntry :=
  (es.set idx (es.getD (es.length - 1) ⟨0, 0⟩)).take (es.length - 1)

def rootregUnregister (cfg : RegCfg) (key : UInt64) : M ρ Unit :=
  if key = 0 then Proc.fail Errno.EINVAL
  else do
    let es ← rrLoad cfg
    match rrFind es key with
    | none => Proc.fail Errno.ENOENT
    | some idx => rrStore cfg (rrRemove es idx)

/-! The bytes -/

theorem RrEntry.bytes_length (e : RrEntry) : e.bytes.length = 16 := by simp [RrEntry.bytes]

theorem entries_length (es : List RrEntry) : (es.flatMap RrEntry.bytes).length = 16 * es.length := by
  induction es with
  | nil => rfl
  | cons e es ih =>
    rw [List.flatMap_cons, List.length_append, ih, e.bytes_length, List.length_cons]
    omega

theorem rrImage_length (es : List RrEntry) : (rrImage es).length = 8 + 16 * es.length := by
  simp only [rrImage, List.length_append, leBytes_length, entries_length]
  simp only [rrMagic, List.length_cons, List.length_nil]
  omega

-- The entry at `i`, behind `k` bytes.
theorem entries_at (pre : List UInt8) (es : List RrEntry) (i : Nat) (hi : i < es.length) :
    fieldAt (pre ++ es.flatMap RrEntry.bytes) (pre.length + 16 * i) 8 = (es.get ⟨i, hi⟩).key.toNat ∧
      fieldAt (pre ++ es.flatMap RrEntry.bytes) (pre.length + 16 * i + 8) 8 =
        (es.get ⟨i, hi⟩).rootId.toNat := by
  induction es generalizing pre i with
  | nil => simp at hi
  | cons e es ih =>
    rw [List.flatMap_cons]
    cases i with
    | zero =>
      have hkey := e.key.toNat_lt
      have hroot := e.rootId.toNat_lt
      constructor
      . rw [fieldAt_append _ _ _ 0 _ rfl, RrEntry.bytes, List.append_assoc,
          fieldAt_leBytes _ _ _ hkey]
        rfl
      . rw [fieldAt_append _ _ _ 8 _ rfl, RrEntry.bytes, List.append_assoc,
          fieldAt_append _ _ _ 0 _ (by simp), fieldAt_leBytes _ _ _ hroot]
        rfl
    | succ i =>
      have hnext := ih (pre ++ e.bytes) i (by simpa using hi)
      rw [List.append_assoc, List.length_append, e.bytes_length] at hnext
      rw [show pre.length + 16 * (i + 1) = pre.length + 16 + 16 * i by omega]
      exact hnext

theorem rrCount_image {es : List RrEntry} (h : es.length < 65536) : rrCount (rrImage es) = es.length := by
  rw [rrCount, rrImage, fieldAt_append _ _ _ 2 _ (by rfl), fieldAt_append _ _ _ 0 _ (by simp),
    fieldAt_leBytes _ _ _ h]

theorem rrEntry_image (es : List RrEntry) (i : Nat) (hi : i < es.length) :
    rrEntry (rrImage es) i = es.get ⟨i, hi⟩ := by
  have himage : rrImage es =
      (rrMagic ++ (leBytes rrVersion 2 ++ leBytes es.length 2)) ++ es.flatMap RrEntry.bytes := by
    simp only [rrImage, List.append_assoc]
  have hlen : (rrMagic ++ (leBytes rrVersion 2 ++ leBytes es.length 2)).length = 8 := by
    simp [rrMagic]
  obtain ⟨hkey, hroot⟩ := entries_at (rrMagic ++ (leBytes rrVersion 2 ++ leBytes es.length 2)) es i hi
  rw [hlen, ← himage] at hkey hroot
  rw [rrEntry, hkey, hroot, UInt64.ofNat_toNat, UInt64.ofNat_toNat]

-- What is stored validates, and reads back.
theorem rrCheck_image (cfg : RegCfg) {es : List RrEntry} (h : es.length ≤ cfg.maxRoots) :
    rrCheck cfg (rrImage es) = .ok es := by
  have hle := cfg.roots_le
  have hlen := rrImage_length es
  have hcount : rrCount (rrImage es) = es.length := rrCount_image (by omega)
  have hmagic : (rrImage es).take 4 = rrMagic := rfl
  have hversion : fieldAt (rrImage es) 4 2 = rrVersion := by
    rw [rrImage, fieldAt_append _ _ _ 0 _ (by rfl), fieldAt_leBytes _ _ _ (by decide)]
  rw [rrCheck, if_neg (by omega), if_neg (by simp [hmagic, hversion]), hcount,
    if_neg (by omega)]
  congr 1
  apply List.ext_getElem
  . simp
  . intro i h1 h2
    simpa using rrEntry_image es i h2

theorem rrCheck_length {cfg : RegCfg} {data : List UInt8} {es : List RrEntry}
    (h : rrCheck cfg data = .ok es) : es.length ≤ cfg.maxRoots ∧ data.length = 8 + 16 * es.length := by
  simp only [rrCheck] at h
  split at h
  . cases h
  . split at h
    . cases h
    . split at h
      . cases h
      . next hbounds =>
        cases h
        simp only [List.length_map, List.length_range]
        omega

/-! Entries -/

-- What a list of entries has for a key.
def binding (es : List RrEntry) (key : UInt64) : Option UInt64 :=
  (es.find? fun e => e.key == key).map RrEntry.rootId

def Distinct (es : List RrEntry) : Prop := (es.map RrEntry.key).Nodup

theorem binding_some {es : List RrEntry} (h : Distinct es) {key id : UInt64} :
    binding es key = some id ↔ ⟨key, id⟩ ∈ es := by
  constructor
  . intro hb
    rw [binding, Option.map_eq_some_iff] at hb
    obtain ⟨e, hfind, rfl⟩ := hb
    have hkey := List.find?_some hfind
    simp only [beq_iff_eq] at hkey
    subst hkey
    exact List.mem_of_find?_eq_some hfind
  . intro hmem
    rw [binding, Option.map_eq_some_iff]
    cases hfind : es.find? (fun e => e.key == key) with
    | none =>
      have := List.find?_eq_none.mp hfind _ hmem
      simp at this
    | some e =>
      have hkey := List.find?_some hfind
      simp only [beq_iff_eq] at hkey
      -- two entries with one key are one entry
      have := List.inj_on_of_nodup_map h (List.mem_of_find?_eq_some hfind) hmem hkey
      exact ⟨e, rfl, by rw [this]⟩

theorem binding_none {es : List RrEntry} {key : UInt64} :
    binding es key = none ↔ key ∉ es.map RrEntry.key := by
  rw [binding, Option.map_eq_none_iff, List.find?_eq_none, List.mem_map]
  constructor
  . rintro h ⟨e, he, rfl⟩
    exact h e he (by simp)
  . intro h e he hkey
    exact h ⟨e, he, by simpa using hkey⟩

theorem rrFind_none {es : List RrEntry} {key : UInt64} :
    rrFind es key = none ↔ binding es key = none := by
  rw [rrFind, binding, List.findIdx?_eq_none_iff, Option.map_eq_none_iff, List.find?_eq_none]
  simp

theorem rrFind_some {es : List RrEntry} {key : UInt64} {idx : Nat} (h : rrFind es key = some idx) :
    idx < es.length ∧ (es.getD idx ⟨0, 0⟩).key = key ∧
      binding es key = some (es.getD idx ⟨0, 0⟩).rootId := by
  rw [rrFind, List.findIdx?_eq_some_iff_getElem] at h
  obtain ⟨hlt, hkey, hfirst⟩ := h
  have hget : es.getD idx ⟨0, 0⟩ = es[idx] := by simp [List.getD, hlt]
  rw [hget]
  refine ⟨hlt, by simpa using hkey, ?_⟩
  rw [binding, Option.map_eq_some_iff]
  refine ⟨es[idx], ?_, rfl⟩
  rw [List.find?_eq_some_iff_getElem]
  exact ⟨hkey, idx, hlt, rfl, fun j hj => by simpa using hfirst j hj⟩

theorem binding_append {es : List RrEntry} {e : RrEntry} (h : binding es e.key = none) (key : UInt64) :
    binding (es ++ [e]) key = if key = e.key then some e.rootId else binding es key := by
  rw [binding, List.find?_append]
  split
  . next hk =>
    subst hk
    rw [binding, Option.map_eq_none_iff] at h
    simp [h]
  . next hk =>
    have : ([e].find? fun x => x.key == key) = none := by
      simp only [List.find?_singleton, beq_iff_eq]
      exact if_neg fun he => hk he.symm
    rw [this, Option.or_none, binding]

theorem Distinct.append {es : List RrEntry} {e : RrEntry} (h : Distinct es)
    (hnew : binding es e.key = none) : Distinct (es ++ [e]) := by
  rw [binding_none] at hnew
  rw [Distinct, List.map_append, List.map_singleton]
  exact List.Nodup.append h (List.nodup_singleton _) (by simpa using hnew)

-- The list is the one before without the entry, in some order.
theorem rrRemove_perm {es : List RrEntry} {idx : Nat} (h : idx < es.length) :
    (es.getD idx ⟨0, 0⟩ :: rrRemove es idx).Perm es := by
  obtain ⟨front, last, rfl⟩ : ∃ front last, es = front ++ [last] :=
    ⟨es.dropLast, es.getLast (List.ne_nil_of_length_pos (by omega)),
      (List.dropLast_append_getLast _).symm⟩
  have hlast : (front ++ [last]).getD ((front ++ [last]).length - 1) ⟨0, 0⟩ = last := by
    simp [List.getD]
  rw [rrRemove, hlast]
  simp only [List.length_append, List.length_singleton] at h ⊢
  by_cases hlt : idx < front.length
  . have hget : (front ++ [last]).getD idx ⟨0, 0⟩ = front[idx] := by
      simp [List.getD, hlt, List.getElem?_append_left]
    rw [hget, List.set_append_left _ _ hlt, List.take_append_of_le_length (by simp),
      List.take_of_length_le (by simp)]
    have hfront : front = front.take idx ++ front[idx] :: front.drop (idx + 1) := by
      rw [List.getElem_cons_drop hlt, List.take_append_drop]
    have hset : front.set idx last = front.take idx ++ last :: front.drop (idx + 1) :=
      List.set_eq_take_append_cons_drop.trans (if_pos hlt)
    rw [hset]
    conv_rhs => rw [hfront]
    have hmoved : (front.take idx ++ last :: front.drop (idx + 1)).Perm
        (front.take idx ++ front.drop (idx + 1) ++ [last]) :=
      List.perm_middle.trans (List.perm_append_singleton _ _).symm
    have hback : (front[idx] :: (front.take idx ++ front.drop (idx + 1)) ++ [last]).Perm
        (front.take idx ++ front[idx] :: front.drop (idx + 1) ++ [last]) :=
      List.perm_middle.symm.append_right _
    exact (hmoved.cons _).trans hback
  . obtain rfl : idx = front.length := by omega
    have hget : (front ++ [last]).getD front.length ⟨0, 0⟩ = last := by simp [List.getD]
    have hrest : ((front ++ [last]).set front.length last).take (front.length + 1 - 1) = front := by
      simp
    rw [hget, hrest]
    exact (List.perm_append_singleton last front).symm

theorem Distinct.remove {es : List RrEntry} {idx : Nat} (h : Distinct es) (hlt : idx < es.length) :
    Distinct (rrRemove es idx) := by
  have hperm := (rrRemove_perm hlt).map RrEntry.key
  have hnodup := hperm.nodup_iff.mpr h
  rw [List.map_cons] at hnodup
  exact (List.nodup_cons.mp hnodup).2

theorem binding_perm {es es' : List RrEntry} (hperm : es.Perm es') (h : Distinct es) (key : UInt64) :
    binding es key = binding es' key := by
  have h' : Distinct es' := (hperm.map _).nodup_iff.mp h
  apply Option.ext
  intro id
  rw [binding_some h, binding_some h', hperm.mem_iff]

theorem binding_remove {es : List RrEntry} {idx : Nat} (h : Distinct es) (hlt : idx < es.length)
    (key : UInt64) :
    binding (rrRemove es idx) key =
      if key = (es.getD idx ⟨0, 0⟩).key then none else binding es key := by
  have hperm := rrRemove_perm hlt
  have hdistinct : Distinct (es.getD idx ⟨0, 0⟩ :: rrRemove es idx) :=
    (hperm.map _).nodup_iff.mpr h
  rw [← binding_perm hperm hdistinct key]
  split
  . next hk =>
    subst hk
    rw [binding_none]
    exact (List.nodup_cons.mp hdistinct).1
  . next hk =>
    rw [binding, binding, List.find?_cons_of_neg]
    simpa using fun he => hk he.symm

theorem rrRemove_length (es : List RrEntry) (idx : Nat) :
    (rrRemove es idx).length = es.length - 1 := by
  simp [rrRemove]

end KeyValueDb.Rootreg
