import Mathlib.Data.List.AList
import KeyValueDb.Containers.KvhashWrites

/-!
The store as the clients of the containers see it: an id is bound to a blob or to a map, and every
write, to a map too, is one step. A write can fail, before or after it took effect, and power can be
lost on either side of it. The history keeps every write with what was bound before it, and every
read that failed.
-/

namespace KeyValueDb.Containers

-- An error of the store. None of them is the one that says that something is not there.
structure Fault where
  errno : Errno
  telling : errno.Telling

-- What the store does with one write. `landed` says whether it took effect all the same.
inductive Fate where
  | done
  | fail (f : Fault) (landed : Bool)
  | cut (landed : Bool)

def Fate.landed : Fate → Bool
  | .done => true
  | .fail _ landed => landed
  | .cut landed => landed

def Fate.outcome : Fate → Out Errno Unit
  | .done => .ok ()
  | .fail f _ => .err f.errno
  | .cut _ => .cut

abbrev Entries := AList fun _ : List UInt8 => List UInt8

inductive Item where
  | blob (data : List UInt8)
  | map (m : Entries)
  deriving DecidableEq

abbrev Items := Nat → Option Item

inductive MapEvent where
  | write (id : Nat) (item : Option Item) (fate : Fate) (before : Items)
  | readFault (id : Nat) (f : Fault)

structure MapStore where
  items : Items
  -- the highest id handed out
  top : Nat
  -- what the coming writes meet; the ones past the end succeed
  fates : List Fate
  -- how many ids the coming allocations skip, or that they fail
  allocs : List (Option Nat)
  -- how the coming reads fail
  faults : List (Option Fault)
  history : List MapEvent

instance : Preorder MapStore where
  le s s' := s.history <:+ s'.history
  le_refl _ := List.suffix_rfl
  le_trans _ _ _ h1 h2 := h1.trans h2

abbrev S := Proc MapStore Errno

namespace MapStore

def nextFate (s : MapStore) : Fate := s.fates.headD .done

-- The store after a write has met its fate.
def write (s : MapStore) (id : Nat) (item : Option Item) (f : Fate) : MapStore :=
  { s with
    items := if f.landed then Function.update s.items id item else s.items
    fates := s.fates.tail
    history := .write id item f s.items :: s.history }

def readDone (s : MapStore) : MapStore := { s with faults := s.faults.tail }

def readFailed (s : MapStore) (id : Nat) (f : Fault) : MapStore :=
  { s with
    faults := s.faults.tail
    history := .readFault id f :: s.history }

end MapStore

def writeItem (id : Nat) (item : Option Item) : S Unit where
  val s := (s.nextFate.outcome, s.write id item s.nextFate)
  property _ := List.suffix_cons _ _

-- A read hands over `f` of what the id is bound to, unless it fails.
def readItem {α : Type} (id : Nat) (f : Option Item → Out Errno α) : S α where
  val s :=
    match s.faults.headD none with
    | none => (f (s.items id), s.readDone)
    | some e => (.err e.errno, s.readFailed id e)
  property s := by
    dsimp only
    split
    . exact List.suffix_rfl
    . exact List.suffix_cons _ _

-- 0 if no id can be handed out.
def allocId : S Nat where
  val s :=
    match s.allocs.headD (some 0) with
    | none => (.ok 0, { s with allocs := s.allocs.tail })
    | some gap =>
      if s.top + 1 + gap < 2 ^ 64 then
        (.ok (s.top + 1 + gap), { s with top := s.top + 1 + gap, allocs := s.allocs.tail })
      else (.ok 0, { s with allocs := s.allocs.tail })
  property s := by
    dsimp only
    split
    . exact List.suffix_rfl
    . split <;> exact List.suffix_rfl

/-! Blobs -/

def blobGet (id outSz : Nat) : S (List UInt8) :=
  readItem id fun
    | some (.blob data) => if data.length ≤ outSz then .ok data else .err Errno.ENOMEM
    | some (.map _) => .err Errno.EIO
    | none => .err Errno.ENOENT

def blobSize (id : Nat) : S Nat :=
  readItem id fun
    | some (.blob data) => .ok data.length
    | some (.map _) => .err Errno.EIO
    | none => .err Errno.ENOENT

def blobUpdate (id : Nat) (data : List UInt8) : S Unit := writeItem id (some (.blob data))

def blobDelete (id : Nat) : S Unit := do
  let bound ← readItem id fun item => .ok item.isSome
  if bound then writeItem id none else Proc.fail Errno.ENOENT

-- The payload behind an id.
def payloadOf : Option Item → Out Errno (List UInt8)
  | some (.blob data) => .ok data
  | some (.map _) => .err Errno.EIO
  | none => .err Errno.ENOENT

-- At most `len` bytes from `off` on: what the blob has of them.
def blobRead (id off len : Nat) : S (List UInt8) := do
  let data ← readItem id payloadOf
  pure ((data.drop off).take len)

def blobWrite (id off : Nat) (buf : List UInt8) : S Unit := do
  let data ← readItem id payloadOf
  if buf = [] then pure () else writeItem id (some (.blob (overwritten data off buf)))

/-! Maps -/

def mapCreate (root : Nat) : S Unit := writeItem root (some (.map ∅))

-- The entries behind a root, as `dir_load` finds them.
def entriesOf : Option Item → Out Errno Entries
  | some (.map m) => .ok m
  | some (.blob _) => .err Errno.EIO
  | none => .err Errno.ENOENT

def mapLoad (root : Nat) : S Entries := readItem root entriesOf

def mapGet (root : Nat) (key : List UInt8) (outSz : Nat) : S (List UInt8) :=
  if key.length = 0 ∨ 0xffff < key.length then Proc.fail Errno.EINVAL
  else if entLenMask < key.length then Proc.fail Errno.ENOENT
  else do
    let m ← mapLoad root
    match m.lookup key with
    | some val => if val.length ≤ outSz then pure val else Proc.fail Errno.ENOMEM
    | none => Proc.fail Errno.ENOENT

def mapSet (root : Nat) (key val : List UInt8) : S Unit :=
  if key.length = 0 ∨ 0xffff < key.length ∨ 0xffff < val.length then Proc.fail Errno.EINVAL
  else if entLenMask < key.length ∨ entLenMask < val.length then Proc.fail Errno.ENOSPC
  else do
    let m ← mapLoad root
    writeItem root (some (.map (m.insert key val)))

def mapDel (root : Nat) (key : List UInt8) : S Unit :=
  if key.length = 0 ∨ 0xffff < key.length then Proc.fail Errno.EINVAL
  else if entLenMask < key.length then Proc.fail Errno.ENOENT
  else do
    let m ← mapLoad root
    if (m.lookup key).isSome then writeItem root (some (.map (m.erase key)))
    else Proc.fail Errno.ENOENT

-- One step of the enumeration from its beginning, without a buffer.
def mapFirst (root : Nat) : S Unit := do
  let m ← mapLoad root
  if m.entries = [] then Proc.fail Errno.ENODATA else Proc.fail Errno.ENOMEM

-- The entry that comes next after a key, in the order of the keys.
def mapNext (root : Nat) (after : List UInt8) (keySz valSz : Nat) : S (List UInt8 × List UInt8) := do
  let m ← mapLoad root
  match (m.keys.mergeSort fun a b => !decide (b < a)).find? fun key => decide (after < key) with
  | none => Proc.fail Errno.ENODATA
  | some key =>
    let val := (m.lookup key).getD []
    if keySz < key.length ∨ valSz < val.length then Proc.fail Errno.ENOMEM else pure (key, val)

def mapDestroy (root : Nat) : S Unit := do
  let _ ← mapLoad root
  writeItem root none

/-! What a run of writes keeps -/

-- `J` of what is bound now, and `I` of what was bound at each write.
structure Along (I J : Items → Prop) (s : MapStore) : Prop where
  now : J s.items
  past : ∀ id item f b, .write id item f b ∈ s.history → I b

-- `J'` is reached, or an error or a loss of power comes at some state with `I`.
def reaches (α : Type) (I J' : Items → Prop) : Post MapStore Errno α :=
  .exits (Along I J') (Along I I) (Along I I)

variable {H : Hypothesis MapStore} {I J J' : Items → Prop} {α β : Type} {root : Nat}

theorem Along.imp {s : MapStore} (h : Along I J s) (hJ : ∀ b, J b → J' b) : Along I J' s :=
  ⟨hJ _ h.now, h.past⟩

theorem Along.write {s : MapStore} (h : Along I J s) (hI : ∀ b, J b → I b) {id : Nat}
    {item : Option Item} (hJ' : ∀ b, J b → J' (Function.update b id item)) {f : Fate}
    (hf : f.landed = true) : Along I J' (s.write id item f) := by
  constructor
  . simp only [MapStore.write, hf, if_true]
    exact hJ' _ h.now
  . intro id' item' f' b hmem
    rcases List.mem_cons.mp hmem with he | hmem
    . cases he
      exact hI _ h.now
    . exact h.past _ _ _ _ hmem

theorem Along.refused {s : MapStore} (h : Along I J s) (hI : ∀ b, J b → I b) {id : Nat}
    {item : Option Item} {f : Fate} (hf : f.landed = false) : Along I J (s.write id item f) := by
  constructor
  . simp only [MapStore.write, hf]
    exact h.now
  . intro id' item' f' b hmem
    rcases List.mem_cons.mp hmem with he | hmem
    . cases he
      exact hI _ h.now
    . exact h.past _ _ _ _ hmem

-- An error of a write says that something went wrong.
def writePost (I J' : Items → Prop) : Post MapStore Errno Unit where
  ok _ := Along I J'
  err e s := e.Telling ∧ Along I I s
  cut := Along I I

theorem Spec.writeItem {id : Nat} {item : Option Item} (hI : ∀ b, J b → I b)
    (hI' : ∀ b, J' b → I b) (hJ' : ∀ b, J b → J' (Function.update b id item)) :
    Spec H (Along I J) (Containers.writeItem id item) (writePost I J') := by
  intro s h _
  have hout : ∀ f : Fate, f.landed = true ∧ Along I J' (s.write id item f) ∨
      Along I I (s.write id item f) ∧ f.landed = false := by
    intro f
    cases hf : f.landed with
    | true => exact .inl ⟨rfl, h.write hI hJ' hf⟩
    | false => exact .inr ⟨(h.refused hI hf).imp hI, rfl⟩
  have hin : ∀ f : Fate, Along I I (s.write id item f) :=
    fun f => (hout f).elim (fun h' => h'.2.imp hI') fun h' => h'.1
  simp only [Containers.writeItem]
  cases hf : s.nextFate with
  | done => exact h.write hI hJ' rfl
  | fail f landed => exact ⟨f.telling, hin _⟩
  | cut landed => exact hin _

-- A read that fails tells so.
theorem Spec.readItem {id : Nat} {f : Option Item → Out Errno α} {Q : Post MapStore Errno α}
    (hok : ∀ a s, Along I (fun b => f (b id) = .ok a ∧ J b) s → Q.ok a s)
    (herr : ∀ e s, Along I (fun b => f (b id) = .err e ∧ J b) s → Q.err e s)
    (hcut : ∀ s, Along I (fun b => f (b id) = .cut ∧ J b) s → Q.cut s)
    (hfail : ∀ e s, e.Telling → Along I J s → Q.err e s) :
    Spec H (Along I J) (Containers.readItem id f) Q := by
  intro s h _
  simp only [Containers.readItem]
  cases hr : s.faults.headD none with
  | none =>
    have hdone : ∀ o, f (s.items id) = o → Along I (fun b => f (b id) = o ∧ J b) s.readDone :=
      fun o ho => ⟨⟨ho, h.now⟩, h.past⟩
    dsimp only
    generalize ho : f (s.items id) = o
    cases o with
    | ok a => exact hok a _ (hdone _ ho)
    | err e => exact herr e _ (hdone _ ho)
    | cut => exact hcut _ (hdone _ ho)
  | some e =>
    refine hfail _ _ e.telling ⟨h.now, ?_⟩
    intro id' item' f' b hmem
    rcases List.mem_cons.mp hmem with he | hmem
    . cases he
    . exact h.past _ _ _ _ hmem

/-! Maps as functions -/

-- The root is bound to the map `m`.
def Binds (b : Items) (root : Nat) (m : KvMap) : Prop :=
  ∃ es : Entries, b root = some (.map es) ∧ (fun k => es.lookup k) = m

-- What the root of a map leads to.
def mapOf (b : Items) (root : Nat) : KvMap := fun k =>
  match b root with
  | some (.map es) => es.lookup k
  | _ => none

theorem Binds.mapOf {b : Items} {m : KvMap} (h : Binds b root m) : mapOf b root = m := by
  obtain ⟨es, hes, hm⟩ := h
  funext k
  rw [Containers.mapOf, hes, ← hm]

theorem Binds.update_ne {b : Items} {m : KvMap} (h : Binds b root m) {id : Nat}
    (hne : root ≠ id) (item : Option Item) : Binds (Function.update b id item) root m := by
  obtain ⟨es, hes, hm⟩ := h
  exact ⟨es, by rw [Function.update_of_ne hne, hes], hm⟩

theorem Entries.lookup_insert' (es : Entries) (key val : List UInt8) :
    (fun k => (es.insert key val).lookup k) =
      Function.update (fun k => es.lookup k) key (some val) := by
  funext k
  by_cases hk : k = key
  . subst hk
    rw [Function.update_self, AList.lookup_insert]
  . rw [Function.update_of_ne hk, AList.lookup_insert_ne hk]

theorem Entries.lookup_erase' (es : Entries) (key : List UInt8) :
    (fun k => (es.erase key).lookup k) = Function.update (fun k => es.lookup k) key none := by
  funext k
  by_cases hk : k = key
  . subst hk
    rw [Function.update_self, AList.lookup_erase]
  . rw [Function.update_of_ne hk, AList.lookup_erase_ne hk]

theorem mapLoad_spec {Q : Post MapStore Errno β} {m : KvMap} {f : Entries → S β}
    (hm : ∀ b, J b → Binds b root m)
    (hf : ∀ es : Entries, (fun k => es.lookup k) = m →
      Spec H (Along I fun b => b root = some (.map es) ∧ J b) (f es) Q)
    (hfail : ∀ e s, e.Telling → Along I J s → Q.err e s) :
    Spec H (Along I J) (mapLoad root >>= f) Q := by
  refine Spec.bind (Q := ⟨fun es => Along I fun b => b root = some (.map es) ∧ J b, Q.err,
    fun _ => False⟩) ?_ (fun es => ?_) (fun _ _ h => h) fun _ h => h.elim
  . refine Spec.readItem ?_ ?_ ?_ hfail
    . rintro es s ⟨⟨hes, hj⟩, hpast⟩
      obtain ⟨es', hb, -⟩ := hm _ hj
      rw [hb, entriesOf, Out.ok.injEq] at hes
      exact ⟨⟨hes ▸ hb, hj⟩, hpast⟩
    . rintro e s ⟨⟨hes, hj⟩, -⟩
      obtain ⟨es', hb, -⟩ := hm _ hj
      rw [hb] at hes
      cases hes
    . rintro s ⟨⟨hes, hj⟩, -⟩
      obtain ⟨es', hb, -⟩ := hm _ hj
      rw [hb] at hes
      cases hes
  . intro s h hh
    obtain ⟨es', hb, he⟩ := hm _ h.now.2
    obtain rfl : es' = es := by
      have := hb.symm.trans h.now.1
      cases this
      rfl
    exact hf es' he s h hh

-- The key is longer than any that a map holds, or it has no entry.
def Missing (m : KvMap) (key : List UInt8) : Prop := key.length ≤ entLenMask → m key = none

-- What a lookup answers.
def lookupPost (I J : Items → Prop) (m : KvMap) (key : List UInt8) (outSz : Nat) :
    Post MapStore Errno (List UInt8) where
  ok val s := (m key = some val ∧ val.length ≤ outSz) ∧ Along I J s
  err e s := (e = Errno.ENOENT ∧ Missing m key ∨ e.Telling) ∧ Along I J s
  cut _ := False

theorem mapGet_spec {m : KvMap} (hm : ∀ b, J b → Binds b root m) (key : List UInt8) (outSz : Nat) :
    Spec H (Along I J) (mapGet root key outSz) (lookupPost I J m key outSz) := by
  refine Spec.ite (fun _ => Spec.fail fun s hs => ⟨.inr ⟨nofun, nofun⟩, hs⟩) fun _ => ?_
  refine Spec.ite (fun hlong => Spec.fail fun s hs => ⟨.inl ⟨rfl, fun hk => ?_⟩, hs⟩) fun _ => ?_
  . omega
  refine mapLoad_spec hm (fun es hes => ?_) fun e s he hs => ⟨.inr he, hs⟩
  have hlook : es.lookup key = m key := congrFun hes key
  have hkeep : ∀ s, Along I (fun b => b root = some (.map es) ∧ J b) s → Along I J s :=
    fun s hs => hs.imp fun b hb => hb.2
  cases hv : es.lookup key with
  | none => exact Spec.fail fun s hs => ⟨.inl ⟨rfl, fun _ => hlook ▸ hv⟩, hkeep s hs⟩
  | some val =>
    refine Spec.ite (fun hle => Spec.ret fun s hs => ⟨⟨hlook ▸ hv, hle⟩, hkeep s hs⟩) fun _ => ?_
    exact Spec.fail fun s hs => ⟨.inr ⟨nofun, nofun⟩, hkeep s hs⟩

-- What a set leaves behind.
def insertPost (I J' : Items → Prop) (key : List UInt8) : Post MapStore Errno Unit where
  ok _ s := key.length ≠ 0 ∧ Along I J' s
  err e s := e.Telling ∧ Along I I s
  cut := Along I I

theorem mapSet_spec {m : KvMap} (hm : ∀ b, J b → Binds b root m) (hI : ∀ b, J b → I b)
    (hI' : ∀ b, J' b → I b) {key val : List UInt8}
    (hJ' : ∀ b es, J b → Binds (Function.update b root (some (.map es))) root
      (Function.update m key (some val)) → J' (Function.update b root (some (.map es)))) :
    Spec H (Along I J) (mapSet root key val) (insertPost I J' key) := by
  have hfail : ∀ e s, Errno.Telling e → Along I J s → (insertPost I J' key).err e s :=
    fun e s he hs => ⟨he, hs.imp hI⟩
  refine Spec.ite (fun _ => Spec.fail fun s hs => hfail _ s ⟨nofun, nofun⟩ hs) fun hkey => ?_
  rw [not_or] at hkey
  refine Spec.ite (fun _ => Spec.fail fun s hs => hfail _ s ⟨nofun, nofun⟩ hs) fun _ => ?_
  refine mapLoad_spec hm (fun es hes => ?_) hfail
  refine ((@Spec.writeItem _ _ _ J') (fun b hb => hI b hb.2) hI' fun b hb => hJ' b _ hb.2 ?_).conseq
    (fun s hs => hs) (fun _ s hs => ⟨hkey.1, hs⟩) (fun e s hs => hs) fun s hs => hs
  exact ⟨_, Function.update_self _ _ _, by rw [Entries.lookup_insert', hes]⟩

-- What a delete leaves behind.
def erasePost (I J J' : Items → Prop) (m : KvMap) (key : List UInt8) : Post MapStore Errno Unit where
  ok _ s := (key.length ≠ 0 ∧ m key ≠ none) ∧ Along I J' s
  err e s :=
    e = Errno.ENOENT ∧ (key.length ≠ 0 ∧ Missing m key) ∧ Along I J s ∨ e.Telling ∧ Along I I s
  cut := Along I I

theorem mapDel_spec {m : KvMap} (hm : ∀ b, J b → Binds b root m) (hI : ∀ b, J b → I b)
    (hI' : ∀ b, J' b → I b) {key : List UInt8}
    (hJ' : ∀ b es, J b → Binds (Function.update b root (some (.map es))) root
      (Function.update m key none) → J' (Function.update b root (some (.map es)))) :
    Spec H (Along I J) (mapDel root key) (erasePost I J J' m key) := by
  have hfail : ∀ e s, Errno.Telling e → Along I J s → (erasePost I J J' m key).err e s :=
    fun e s he hs => .inr ⟨he, hs.imp hI⟩
  refine Spec.ite (fun _ => Spec.fail fun s hs => hfail _ s ⟨nofun, nofun⟩ hs) fun hkey => ?_
  rw [not_or] at hkey
  refine Spec.ite (fun _ => Spec.fail fun s hs => .inl ⟨rfl, ⟨hkey.1, fun hk => ?_⟩, hs⟩) fun _ => ?_
  . omega
  refine mapLoad_spec hm (fun es hes => ?_) hfail
  have hlook : es.lookup key = m key := congrFun hes key
  refine Spec.ite (fun hsome => ?_) fun hnone => Spec.fail fun s hs => ?_
  . have hne : m key ≠ none := by
      rw [← hlook]
      exact Option.isSome_iff_ne_none.mp hsome
    refine ((@Spec.writeItem _ _ _ J') (fun b hb => hI b hb.2) hI' fun b hb => hJ' b _ hb.2 ?_).conseq
      (fun s hs => hs) (fun _ s hs => ⟨⟨hkey.1, hne⟩, hs⟩) (fun e s hs => .inr hs) fun s hs => hs
    exact ⟨_, Function.update_self _ _ _, by rw [Entries.lookup_erase', hes]⟩
  . refine .inl ⟨rfl, ⟨hkey.1, fun _ => ?_⟩, hs.imp fun b hb => hb.2⟩
    rw [← hlook]
    simpa using hnone

/-! Without a failure -/

-- Nothing is to fail.
def Smooth (J : Items → Prop) (s : MapStore) : Prop := s.fates = [] ∧ s.faults = [] ∧ J s.items

-- It returns.
def surely (α : Type) (φ : α → Prop) (J : Items → Prop) : Post MapStore Errno α where
  ok a s := φ a ∧ Smooth J s
  err _ _ := False
  cut _ := False

-- It fails with this error.
def surelyErr (α : Type) (e : Errno) (J : Items → Prop) : Post MapStore Errno α where
  ok _ _ := False
  err e' s := e' = e ∧ Smooth J s
  cut _ := False

theorem writeItem_smooth {id : Nat} {item : Option Item}
    (hJ' : ∀ b, J b → J' (Function.update b id item)) :
    Spec H (Smooth J) (writeItem id item) (surely Unit (fun _ => True) J') := by
  rintro s ⟨hfates, hfaults, hj⟩ -
  have hnext : s.nextFate = .done := by rw [MapStore.nextFate, hfates, List.headD_nil]
  simp only [writeItem, hnext]
  exact ⟨trivial, by simp [MapStore.write, hfates], hfaults, hJ' _ hj⟩

theorem mapLoad_smooth {Q : Post MapStore Errno β} {m : KvMap} {f : Entries → S β}
    (hm : ∀ b, J b → Binds b root m)
    (hf : ∀ es : Entries, (fun k => es.lookup k) = m → Spec H (Smooth J) (f es) Q) :
    Spec H (Smooth J) (mapLoad root >>= f) Q := by
  rintro s ⟨hfates, hfaults, hj⟩ hh
  obtain ⟨es, hb, he⟩ := hm _ hj
  have hload : mapLoad root s = (.ok es, s.readDone) := by
    simp only [mapLoad, readItem, hfaults, List.headD_nil, hb, entriesOf]
  rw [Proc.bind_run, hload] at hh ⊢
  exact hf es he _ ⟨hfates, by simp [MapStore.readDone, hfaults], hj⟩ hh

theorem mapGet_smooth {m : KvMap} (hm : ∀ b, J b → Binds b root m) {key val : List UInt8}
    {outSz : Nat} (hkey : key.length ≠ 0) (hlen : key.length ≤ entLenMask) (hval : m key = some val)
    (hsz : val.length ≤ outSz) :
    Spec H (Smooth J) (mapGet root key outSz) (surely _ (· = val) J) := by
  simp only [entLenMask] at hlen
  refine Spec.ite (fun h => absurd h (by omega)) fun _ => ?_
  refine Spec.ite (fun h => absurd h (by simp only [entLenMask]; omega)) fun _ => ?_
  refine mapLoad_smooth hm fun es hes => ?_
  rw [show es.lookup key = some val from (congrFun hes key).trans hval]
  exact Spec.ite (fun _ => Spec.ret fun s hs => ⟨rfl, hs⟩) fun h => absurd hsz h

theorem mapGet_smooth_none {m : KvMap} (hm : ∀ b, J b → Binds b root m) {key : List UInt8}
    {outSz : Nat} (hkey : key.length ≠ 0) (hlen : key.length ≤ entLenMask) (hval : m key = none) :
    Spec H (Smooth J) (mapGet root key outSz) (surelyErr _ Errno.ENOENT J) := by
  simp only [entLenMask] at hlen
  refine Spec.ite (fun h => absurd h (by omega)) fun _ => ?_
  refine Spec.ite (fun _ => Spec.fail fun s hs => ⟨rfl, hs⟩) fun _ => ?_
  refine mapLoad_smooth hm fun es hes => ?_
  rw [show es.lookup key = none from (congrFun hes key).trans hval]
  exact Spec.fail fun s hs => ⟨rfl, hs⟩

theorem mapSet_smooth {m : KvMap} (hm : ∀ b, J b → Binds b root m) {key val : List UInt8}
    (hkey : key.length ≠ 0) (hlen : key.length ≤ entLenMask) (hval : val.length ≤ entLenMask)
    (hJ' : ∀ b es, J b → Binds (Function.update b root (some (.map es))) root
      (Function.update m key (some val)) → J' (Function.update b root (some (.map es)))) :
    Spec H (Smooth J) (mapSet root key val) (surely Unit (fun _ => True) J') := by
  simp only [entLenMask] at hlen hval
  refine Spec.ite (fun h => absurd h (by omega)) fun _ => ?_
  refine Spec.ite (fun h => absurd h (by simp only [entLenMask]; omega)) fun _ => ?_
  refine mapLoad_smooth hm fun es hes => writeItem_smooth fun b hb => hJ' b _ hb ?_
  exact ⟨_, Function.update_self _ _ _, by rw [Entries.lookup_insert', hes]⟩

theorem mapDel_smooth {m : KvMap} (hm : ∀ b, J b → Binds b root m) {key : List UInt8}
    (hkey : key.length ≠ 0) (hlen : key.length ≤ entLenMask) (hsome : m key ≠ none)
    (hJ' : ∀ b es, J b → Binds (Function.update b root (some (.map es))) root
      (Function.update m key none) → J' (Function.update b root (some (.map es)))) :
    Spec H (Smooth J) (mapDel root key) (surely Unit (fun _ => True) J') := by
  simp only [entLenMask] at hlen
  refine Spec.ite (fun h => absurd h (by omega)) fun _ => ?_
  refine Spec.ite (fun h => absurd h (by simp only [entLenMask]; omega)) fun _ => ?_
  refine mapLoad_smooth hm fun es hes => ?_
  have hlook : es.lookup key ≠ none := by
    rw [show es.lookup key = m key from congrFun hes key]
    exact hsome
  refine Spec.ite (fun _ => writeItem_smooth fun b hb => hJ' b _ hb ?_) fun h => absurd (Option.isSome_iff_ne_none.mpr hlook) h
  exact ⟨_, Function.update_self _ _ _, by rw [Entries.lookup_erase', hes]⟩

theorem mapDel_smooth_none {m : KvMap} (hm : ∀ b, J b → Binds b root m) {key : List UInt8}
    (hkey : key.length ≠ 0) (hlen : key.length ≤ entLenMask) (hnone : m key = none) :
    Spec H (Smooth J) (mapDel root key) (surelyErr _ Errno.ENOENT J) := by
  simp only [entLenMask] at hlen
  refine Spec.ite (fun h => absurd h (by omega)) fun _ => ?_
  refine Spec.ite (fun _ => Spec.fail fun s hs => ⟨rfl, hs⟩) fun _ => ?_
  refine mapLoad_smooth hm fun es hes => ?_
  rw [show es.lookup key = none from (congrFun hes key).trans hnone]
  exact Spec.ite (fun h => by cases h) fun _ => Spec.fail fun s hs => ⟨rfl, hs⟩

end KeyValueDb.Containers
