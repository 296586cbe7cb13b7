import Mathlib.Logic.Function.Basic
import Mathlib.Algebra.BigOperators.Group.List.Basic
import Mathlib.Data.List.Nodup
import KeyValueDb.Lib.Proc
import KeyValueDb.Lib.Bytes

/-!
The blob store as the containers on top of it see it: ids are handed out in ascending order, and an
update or a delete replaces a blob as a whole. Each call can fail, and power can be lost before or
after it took effect. The history keeps every update and delete with the blobs before it, and every
read that failed.
-/

namespace KeyValueDb.Containers

inductive Errno where
  | EIO | ENOENT | ENOMEM | EINVAL | ENOSPC | ENOTSUP | EMSGSIZE | ENODATA | ESTALE | EEXIST | EXDEV
  | EALREADY | EBUSY | EISDIR | ENOTDIR | ENOTEMPTY | ENAMETOOLONG | ENODEV | EINPROGRESS | EILSEQ
  deriving Repr, DecidableEq

abbrev Blobs := Nat → Option (List UInt8)

-- What the store does with one update or delete. `landed` says whether it took effect all the same.
inductive Turn where
  | done
  | error (e : Errno) (landed : Bool)
  | cut (landed : Bool)
  deriving Repr, DecidableEq

def Turn.landed : Turn → Bool
  | .done => true
  | .error _ landed => landed
  | .cut landed => landed

-- One update or, without data, one delete, with the blobs before it.
structure Edit where
  id : Nat
  data : Option (List UInt8)
  turn : Turn
  before : Blobs

inductive Event where
  | edit (e : Edit)
  | readError (id : Nat) (e : Errno)

-- What a build knows of the store: CONFIG_BLOB_DB_MAX_PAYLOAD_LEN, the longest object an update
-- takes, and the size of the partition in bytes.
structure StoreCfg where
  maxPayload : Nat
  maxObject : Nat
  partition : Nat

structure World (ρ : Type) where
  blobs : Blobs
  -- the highest id handed out
  top : Nat
  -- bytes taken by the payloads
  used : Nat
  -- what the coming updates and deletes meet; the ones past the end succeed
  turns : List Turn
  -- how many ids the coming allocations skip, or that they fail
  allocs : List (Option Nat)
  -- how the coming reads fail
  reads : List (Option Errno)
  -- the RAM of the client
  ram : ρ
  history : List Event

instance {ρ : Type} : Preorder (World ρ) where
  le w w' := w.history <:+ w'.history
  le_refl _ := List.suffix_rfl
  le_trans _ _ _ h1 h2 := h1.trans h2

abbrev M (ρ : Type) := Proc (World ρ) Errno

def Blobs.size (b : Blobs) (id : Nat) : Nat := ((b id).getD []).length

variable {ρ α β : Type}

namespace World

-- The world after an update or a delete has met its turn.
def edit (w : World ρ) (id : Nat) (data : Option (List UInt8)) (t : Turn) : World ρ :=
  { w with
    blobs := if t.landed then Function.update w.blobs id data else w.blobs
    used := if t.landed then w.used - w.blobs.size id + (data.getD []).length else w.used
    turns := w.turns.tail
    history := .edit ⟨id, data, t, w.blobs⟩ :: w.history }

def readDone (w : World ρ) : World ρ := { w with reads := w.reads.tail }

def readFailed (w : World ρ) (id : Nat) (e : Errno) : World ρ :=
  { w with
    reads := w.reads.tail
    history := .readError id e :: w.history }

def setRam (w : World ρ) (r : ρ) : World ρ := { w with ram := r }

-- The world after an allocation that skipped `gap` ids.
def allocated (w : World ρ) (gap : Nat) : World ρ :=
  { w with
    top := w.top + 1 + gap
    allocs := w.allocs.tail }

end World

-- How an update or a delete ends.
def Turn.outcome : Turn → Out Errno Unit
  | .done => .ok ()
  | .error e _ => .err e
  | .cut _ => .cut

-- A store without room refuses what it would have done.
def Turn.refused : Turn → Turn
  | .done => .error Errno.ENOSPC false
  | .error e _ => .error e false
  | .cut _ => .cut false

def World.nextTurn (w : World ρ) : Turn := w.turns.headD .done

def editBlob (id : Nat) (data : Option (List UInt8)) : M ρ Unit where
  val w := (w.nextTurn.outcome, w.edit id data w.nextTurn)
  property _ := List.suffix_cons _ _

def refuseBlob (id : Nat) (data : Option (List UInt8)) : M ρ Unit where
  val w := (w.nextTurn.refused.outcome, w.edit id data w.nextTurn.refused)
  property _ := List.suffix_cons _ _

-- 0 if no id can be handed out.
def blobDbAllocId : M ρ Nat where
  val w :=
    match w.allocs.headD (some 0) with
    | none => (.ok 0, { w with allocs := w.allocs.tail })
    | some gap =>
      if w.top + 1 + gap < 2 ^ 64 then (.ok (w.top + 1 + gap), w.allocated gap)
      else (.ok 0, { w with allocs := w.allocs.tail })
  property w := by
    dsimp only
    split
    . exact List.suffix_rfl
    . split <;> exact List.suffix_rfl

-- Bind or rebind a blob.
def blobDbUpdate (cfg : StoreCfg) (id : Nat) (payload : List UInt8) : M ρ Unit := do
  let top ← Proc.read World.top
  if id = 0 ∨ top < id ∨ cfg.maxObject < payload.length then Proc.fail Errno.EINVAL
  else do
    let fits ← Proc.read fun w =>
      decide (w.used + payload.length ≤ cfg.partition + w.blobs.size id)
    if fits then editBlob id (some payload) else refuseBlob id (some payload)

-- The turn that an update of `len` bytes meets.
def World.updateTurn (w : World ρ) (cfg : StoreCfg) (id len : Nat) : Turn :=
  if w.used + len ≤ cfg.partition + w.blobs.size id then w.nextTurn else w.nextTurn.refused

-- The store has no room for a blob of `len` bytes, or says so.
def World.Refuses (w : World ρ) (cfg : StoreCfg) (id len : Nat) : Prop :=
  (w.updateTurn cfg id len).outcome = .err Errno.ENOSPC

instance (w : World ρ) (cfg : StoreCfg) (id len : Nat) : Decidable (w.Refuses cfg id len) :=
  inferInstanceAs (Decidable (_ = _))

def blobDbDelete (id : Nat) : M ρ Unit := do
  let bound ← Proc.read fun w => (w.blobs id).isSome
  if bound then editBlob id none else Proc.fail Errno.ENOENT

-- A read hands over `f` of the blobs, unless it fails.
def readBlob (id : Nat) (f : Blobs → Out Errno α) : M ρ α where
  val w :=
    match w.reads.headD none with
    | none => (f w.blobs, w.readDone)
    | some e => (.err e, w.readFailed id e)
  property w := by
    dsimp only
    split
    . exact List.suffix_rfl
    . exact List.suffix_cons _ _

def blobDbGet (id outSz : Nat) : M ρ (List UInt8) :=
  readBlob id fun b =>
    match b id with
    | none => .err Errno.ENOENT
    | some data => if data.length ≤ outSz then .ok data else .err Errno.ENOMEM

-- Copies at most `len` bytes from `off` on: what the blob has of them.
def blobDbRead (id off len : Nat) : M ρ (List UInt8) :=
  readBlob id fun b =>
    match b id with
    | none => .err Errno.ENOENT
    | some data => .ok ((data.drop off).take len)

def getRam : M ρ ρ := Proc.read World.ram

def putRam (r : ρ) : M ρ Unit := Proc.modify (fun w => w.setRam r) fun _ => List.suffix_rfl

/-! The fields of a payload -/

-- `w` bytes at `off` of a payload.
def fieldAt (buf : List UInt8) (off w : Nat) : Nat := leNat ((buf.drop off).take w)

theorem fieldAt_append (a b : List UInt8) (off k w : Nat) (h : off = a.length + k) :
    fieldAt (a ++ b) off w = fieldAt b k w := by
  subst h
  rw [fieldAt, fieldAt, List.drop_append, List.drop_of_length_le (by omega), List.nil_append,
    Nat.add_sub_cancel_left]

theorem fieldAt_leBytes (n w : Nat) (rest : List UInt8) (h : n < 256 ^ w) :
    fieldAt (leBytes n w ++ rest) 0 w = n := by
  have hlen : (leBytes n w).length = w := leBytes_length n w
  rw [fieldAt, List.drop_zero, List.take_append_of_le_length (by omega),
    List.take_of_length_le (by omega), leNat_leBytes, Nat.mod_eq_of_lt h]

/-! The room the payloads take -/

-- The payloads of different ids fit into the store together.
def Tallied (cfg : StoreCfg) (b : Blobs) (used : Nat) : Prop :=
  used ≤ cfg.partition ∧ ∀ ids : List Nat, ids.Nodup → (ids.map b.size).sum ≤ used

theorem Tallied.size_le {cfg : StoreCfg} {b : Blobs} {used : Nat} (h : Tallied cfg b used)
    (id : Nat) : b.size id ≤ used := by
  have := h.2 [id] (List.nodup_singleton id)
  simpa using this

theorem Blobs.size_update (b : Blobs) (id : Nat) (data : Option (List UInt8)) :
    Blobs.size (Function.update b id data) id = (data.getD []).length := by
  simp [Blobs.size]

theorem Blobs.sizes_update (b : Blobs) {id : Nat} (data : Option (List UInt8)) {ids : List Nat}
    (h : id ∉ ids) : ids.map (Blobs.size (Function.update b id data)) = ids.map b.size := by
  apply List.map_congr_left
  intro i hi
  have : i ≠ id := fun he => h (he ▸ hi)
  simp [Blobs.size, this]

theorem Tallied.update {cfg : StoreCfg} {b : Blobs} {used id : Nat} {data : Option (List UInt8)}
    (h : Tallied cfg b used)
    (hfits : used + (data.getD []).length ≤ cfg.partition + b.size id) :
    Tallied cfg (Function.update b id data) (used - b.size id + (data.getD []).length) := by
  have hold := h.size_le id
  constructor
  . omega
  . intro ids hnodup
    by_cases hid : id ∈ ids
    . have hperm := List.perm_cons_erase hid
      have hrest : id ∉ ids.erase id := hnodup.not_mem_erase
      have hsum := h.2 (id :: ids.erase id) (hperm.nodup_iff.mp hnodup)
      rw [(hperm.map _).sum_eq, List.map_cons, List.sum_cons, b.sizes_update data hrest,
        b.size_update]
      rw [List.map_cons, List.sum_cons] at hsum
      omega
    . have hsum := h.2 (id :: ids) (List.nodup_cons.mpr ⟨hid, hnodup⟩)
      rw [b.sizes_update data hid]
      rw [List.map_cons, List.sum_cons] at hsum
      omega

-- What took effect.
theorem World.edit_blobs (w : World ρ) (id : Nat) (data : Option (List UInt8)) {t : Turn}
    (h : t.landed = true) : (w.edit id data t).blobs = Function.update w.blobs id data := by
  simp only [World.edit, h, if_true]

theorem World.edit_used (w : World ρ) (id : Nat) (data : Option (List UInt8)) {t : Turn}
    (h : t.landed = true) :
    (w.edit id data t).used = w.used - w.blobs.size id + (data.getD []).length := by
  simp only [World.edit, h, if_true]

theorem Tallied.delete {cfg : StoreCfg} {b : Blobs} {used : Nat} (h : Tallied cfg b used)
    (id : Nat) : Tallied cfg (Function.update b id none) (used - b.size id) := by
  have hfit := h.1
  have hfits : used + ((none : Option (List UInt8)).getD []).length ≤ cfg.partition + b.size id := by
    simp only [Option.getD_none, List.length_nil]
    omega
  exact h.update hfits

/-! Faults -/

-- No read failed, and what reported an error left its blob unchanged.
def Event.Faithful : Event → Prop
  | .edit e => ∀ err, e.turn ≠ .error err true
  | .readError _ _ => False

def faithful : Hypothesis (World ρ) where
  holds w := ∀ ev ∈ w.history, ev.Faithful
  anti h hh ev hev := hh ev (List.IsSuffix.subset h hev)

-- What failed does not answer as if it had found nothing.
def Event.Telling : Event → Prop
  | .edit e =>
    ∀ err landed, e.turn = .error err landed → err ≠ Errno.ENOENT ∧ err ≠ Errno.ENODATA
  | .readError _ e => e ≠ Errno.ENOENT ∧ e ≠ Errno.ENODATA

def telling : Hypothesis (World ρ) where
  holds w := ∀ ev ∈ w.history, ev.Telling
  anti h hh ev hev := hh ev (List.IsSuffix.subset h hev)

-- What is more, an update or a delete that failed has left its blob unchanged.
def plain : Hypothesis (World ρ) where
  holds w := ∀ ev ∈ w.history, ev.Telling ∧ ∀ e, ev = .edit e → ∀ err, e.turn ≠ .error err true
  anti h hh ev hev := hh ev (List.IsSuffix.subset h hev)

-- A read has failed.
def ReadFailed (hist : List Event) : Prop := ∃ id e, Event.readError id e ∈ hist

-- The world `t` after some reads.
def World.Reread (t s : World ρ) : Prop := ∃ l, s = { t with reads := l }

theorem World.Reread.refl (t : World ρ) : t.Reread t := ⟨t.reads, rfl⟩

theorem World.Reread.readDone {t s : World ρ} (h : t.Reread s) : t.Reread s.readDone := by
  obtain ⟨l, rfl⟩ := h
  exact ⟨l.tail, rfl⟩

theorem World.Reread.blobs {t s : World ρ} (h : t.Reread s) : s.blobs = t.blobs := by
  obtain ⟨l, rfl⟩ := h
  rfl

-- A procedure may be looked at from one state at a time.
theorem Spec.each {H : Hypothesis (World ρ)} {P : World ρ → Prop} {Q : Post (World ρ) Errno α}
    {x : M ρ α} (h : ∀ t, P t → Spec H t.Reread x Q) : Spec H P x Q :=
  fun t hp hh => h t hp t (World.Reread.refl t) hh

/-! Procedures that only read, and procedures that are not cut -/

-- When no read fails, nothing changes.
def Steady (x : M ρ α) : Prop := ∀ w : World ρ, w.reads = [] → (x w).2 = w

-- Power is lost only where the store is told to lose it.
def Uncut (x : M ρ α) : Prop :=
  ∀ w : World ρ, (∀ t ∈ w.turns, ∀ landed, t ≠ .cut landed) →
    (x w).1 ≠ .cut ∧ ∀ t ∈ (x w).2.turns, ∀ landed, t ≠ .cut landed

-- When no read fails, nothing is added to the history.
def Silent (x : M ρ α) : Prop :=
  ∀ w : World ρ, w.reads = [] → (x w).2.reads = [] ∧ (x w).2.history = w.history

namespace Steady

theorem ret (a : α) : Steady (pure a : M ρ α) := fun _ _ => rfl

theorem fail (e : Errno) : Steady (Proc.fail e : M ρ α) := fun _ _ => rfl

theorem read (f : World ρ → α) : Steady (Proc.read f : M ρ α) := fun _ _ => rfl

theorem bind {x : M ρ α} {f : α → M ρ β} (hx : Steady x) (hf : ∀ a, Steady (f a)) :
    Steady (x >>= f) := by
  intro w hw
  have hstay := hx w hw
  rw [Proc.bind_run]
  generalize x w = r at hstay
  obtain ⟨o, s⟩ := r
  cases o with
  | ok a =>
    obtain rfl : s = w := hstay
    exact hf a s hw
  | err e => exact hstay
  | cut => exact hstay

theorem attempt {x : M ρ α} (hx : Steady x) : Steady (Proc.attempt x) := by
  intro w hw
  have hstay := hx w hw
  rw [Proc.attempt_run]
  generalize x w = r at hstay
  obtain ⟨o, s⟩ := r
  cases o <;> exact hstay

theorem ite {c : Prop} [Decidable c] {x y : M ρ α} (hx : Steady x) (hy : Steady y) :
    Steady (if c then x else y) := by
  split
  . exact hx
  . exact hy

theorem ofExcept (r : Except Errno α) : Steady (Proc.ofExcept r : M ρ α) := by
  cases r <;> exact fun _ _ => rfl

theorem readBlob (id : Nat) (f : Blobs → Out Errno α) :
    Steady (Containers.readBlob id f : M ρ α) := by
  intro w hw
  have hdone : w.readDone = w := by
    simp only [World.readDone, hw, List.tail_nil]
    rw [← hw]
  simp only [Containers.readBlob, hw, List.headD_nil]
  exact hdone

end Steady

namespace Uncut

theorem ret (a : α) : Uncut (pure a : M ρ α) := fun _ hw => ⟨nofun, hw⟩

theorem fail (e : Errno) : Uncut (Proc.fail e : M ρ α) := fun _ hw => ⟨nofun, hw⟩

theorem read (f : World ρ → α) : Uncut (Proc.read f : M ρ α) := fun _ hw => ⟨nofun, hw⟩

theorem bind {x : M ρ α} {f : α → M ρ β} (hx : Uncut x) (hf : ∀ a, Uncut (f a)) :
    Uncut (x >>= f) := by
  intro w hw
  have hgo := hx w hw
  rw [Proc.bind_run]
  generalize x w = r at hgo
  obtain ⟨o, s⟩ := r
  cases o with
  | ok a => exact hf a s hgo.2
  | err e => exact ⟨nofun, hgo.2⟩
  | cut => exact absurd rfl hgo.1

theorem attempt {x : M ρ α} (hx : Uncut x) : Uncut (Proc.attempt x) := by
  intro w hw
  have hgo := hx w hw
  rw [Proc.attempt_run]
  generalize x w = r at hgo
  obtain ⟨o, s⟩ := r
  cases o with
  | ok a => exact ⟨nofun, hgo.2⟩
  | err e => exact ⟨nofun, hgo.2⟩
  | cut => exact absurd rfl hgo.1

theorem ite {c : Prop} [Decidable c] {x y : M ρ α} (hx : Uncut x) (hy : Uncut y) :
    Uncut (if c then x else y) := by
  split
  . exact hx
  . exact hy

theorem when {c : Bool} {x : M ρ Unit} (hx : Uncut x) : Uncut (Proc.when c x) :=
  ite hx (ret ())

theorem ofExcept (r : Except Errno α) : Uncut (Proc.ofExcept r : M ρ α) := by
  cases r <;> exact fun _ hw => ⟨nofun, hw⟩

theorem readBlob {id : Nat} {f : Blobs → Out Errno α} (hf : ∀ b, f b ≠ .cut) :
    Uncut (Containers.readBlob id f : M ρ α) := by
  intro w hw
  simp only [Containers.readBlob]
  split
  . exact ⟨hf _, hw⟩
  . exact ⟨nofun, hw⟩

theorem blobDbGet (id outSz : Nat) : Uncut (Containers.blobDbGet id outSz : M ρ (List UInt8)) := by
  apply readBlob
  intro b
  split
  . exact nofun
  . split <;> exact nofun

theorem nextTurn {w : World ρ} (hw : ∀ t ∈ w.turns, ∀ landed, t ≠ .cut landed) (landed : Bool) :
    w.nextTurn ≠ .cut landed := by
  unfold World.nextTurn
  cases h : w.turns with
  | nil => exact nofun
  | cons t ts => exact hw t (by simp [h]) landed

theorem outcome {t : Turn} (ht : ∀ landed, t ≠ .cut landed) : t.outcome ≠ .cut := by
  cases t with
  | done => exact nofun
  | error e landed => exact nofun
  | cut landed => exact absurd rfl (ht landed)

theorem editBlob (id : Nat) (data : Option (List UInt8)) :
    Uncut (Containers.editBlob id data : M ρ Unit) := by
  intro w hw
  exact ⟨outcome (nextTurn hw), fun t ht => hw t (List.mem_of_mem_tail ht)⟩

theorem refuseBlob (id : Nat) (data : Option (List UInt8)) :
    Uncut (Containers.refuseBlob id data : M ρ Unit) := by
  intro w hw
  refine ⟨outcome fun landed h => ?_, fun t ht => hw t (List.mem_of_mem_tail ht)⟩
  have hturn := nextTurn hw
  cases hn : w.nextTurn with
  | done => simp [hn, Turn.refused] at h
  | error e l => simp [hn, Turn.refused] at h
  | cut l => exact hturn l hn

theorem blobDbUpdate (cfg : StoreCfg) (id : Nat) (payload : List UInt8) :
    Uncut (Containers.blobDbUpdate cfg id payload : M ρ Unit) :=
  (read _).bind fun _ => ite (fail _) ((read _).bind fun _ => ite (editBlob _ _) (refuseBlob _ _))

theorem blobDbDelete (id : Nat) : Uncut (Containers.blobDbDelete id : M ρ Unit) :=
  (read _).bind fun _ => ite (editBlob _ _) (fail _)

theorem blobDbAllocId : Uncut (Containers.blobDbAllocId : M ρ Nat) := by
  intro w hw
  simp only [Containers.blobDbAllocId]
  split
  . exact ⟨nofun, hw⟩
  . split <;> exact ⟨nofun, hw⟩

theorem getRam : Uncut (Containers.getRam : M ρ ρ) := read _

theorem putRam (r : ρ) : Uncut (Containers.putRam r : M ρ Unit) := fun _ hw => ⟨nofun, hw⟩

end Uncut

-- No blob is bound whose id was not handed out.
def World.Tidy (w : World ρ) : Prop := ∀ id, w.top < id → w.blobs id = none

-- No blob gets bound whose id was not handed out.
def Tidies (x : M ρ α) : Prop :=
  ∀ w : World ρ, w.Tidy →
    (x w).2.Tidy ∧ w.top ≤ (x w).2.top ∧ (w.top < 2 ^ 64 → (x w).2.top < 2 ^ 64)

namespace Tidies

theorem edit {w : World ρ} (hw : w.Tidy) {id : Nat} (data : Option (List UInt8)) (t : Turn)
    (hid : id ≤ w.top ∨ data = none) : (w.edit id data t).Tidy := by
  intro i hi
  have hi : w.top < i := hi
  simp only [World.edit]
  split
  . by_cases he : i = id
    . subst he
      rw [Function.update_self]
      exact hid.resolve_left (by omega)
    . rw [Function.update_of_ne he]
      exact hw i hi
  . exact hw i hi

theorem blobDbUpdate (cfg : StoreCfg) (id : Nat) (payload : List UInt8) :
    Tidies (Containers.blobDbUpdate cfg id payload : M ρ Unit) := by
  intro w hw
  unfold Containers.blobDbUpdate
  rw [Proc.bind_run, Proc.read_run, Proc.step]
  split
  . exact ⟨hw, le_rfl, fun h => h⟩
  . next hid =>
    have hle : id ≤ w.top := by omega
    rw [Proc.bind_run, Proc.read_run, Proc.step]
    split <;> exact ⟨edit hw _ _ (.inl hle), le_rfl, fun h => h⟩

theorem blobDbDelete (id : Nat) : Tidies (Containers.blobDbDelete id : M ρ Unit) := by
  intro w hw
  unfold Containers.blobDbDelete
  rw [Proc.bind_run, Proc.read_run, Proc.step]
  split
  . exact ⟨edit hw none _ (.inr rfl), le_rfl, fun h => h⟩
  . exact ⟨hw, le_rfl, fun h => h⟩

theorem blobDbAllocId : Tidies (Containers.blobDbAllocId : M ρ Nat) := by
  intro w hw
  simp only [Containers.blobDbAllocId]
  split
  . exact ⟨hw, le_rfl, fun h => h⟩
  . next gap _ =>
    split
    . next hlt =>
      refine ⟨fun id hid => hw id ?_, ?_, fun _ => hlt⟩
      . have : w.top + 1 + gap < id := hid
        omega
      . show w.top ≤ w.top + 1 + gap
        omega
    . exact ⟨hw, le_rfl, fun h => h⟩

-- The store is tidy and has handed out the ids up to `top` at least.
def From (top : Nat) (w : World ρ) : Prop := w.Tidy ∧ top ≤ w.top ∧ w.top < 2 ^ 64

theorem spec {H : Hypothesis (World ρ)} {P : World ρ → Prop} {x : M ρ α} (hx : Tidies x)
    {top : Nat} (hP : ∀ s, P s → From top s) :
    Spec H P x (.exits (From top) (From top) (From top)) := by
  intro s hp _
  obtain ⟨htidy, hle, hlt⟩ := hP s hp
  obtain ⟨htidy', hle', hlt'⟩ := hx s htidy
  have hfrom : From top (x s).2 := ⟨htidy', hle.trans hle', hlt' hlt⟩
  generalize x s = r at hfrom
  obtain ⟨o, s'⟩ := r
  cases o <;> exact hfrom

end Tidies

/-! What the calls do -/

variable {H : Hypothesis (World ρ)} {P : World ρ → Prop} {cfg : StoreCfg}

namespace Spec

theorem editBlob {Q : Post (World ρ) Errno Unit} {id : Nat} {data : Option (List UInt8)}
    (hok : ∀ s, P s → Q.ok () (s.edit id data .done))
    (herr : ∀ s e landed, P s → H.holds (s.edit id data (.error e landed)) →
      Q.err e (s.edit id data (.error e landed)))
    (hcut : ∀ s landed, P s → Q.cut (s.edit id data (.cut landed))) :
    Spec H P (Containers.editBlob id data) Q := by
  intro s hp
  simp only [Containers.editBlob]
  cases s.nextTurn with
  | done => exact fun _ => hok s hp
  | error e landed => exact fun hh => herr s e landed hp hh
  | cut landed => exact fun _ => hcut s landed hp

theorem refuseBlob {Q : Post (World ρ) Errno Unit} {id : Nat} {data : Option (List UInt8)}
    (herr : ∀ s e, P s → H.holds (s.edit id data (.error e false)) →
      Q.err e (s.edit id data (.error e false)))
    (hcut : ∀ s, P s → Q.cut (s.edit id data (.cut false))) :
    Spec H P (Containers.refuseBlob id data) Q := by
  intro s hp
  simp only [Containers.refuseBlob]
  cases s.nextTurn with
  | done => exact fun hh => herr s _ hp hh
  | error e landed => exact fun hh => herr s e hp hh
  | cut landed => exact fun _ => hcut s hp

theorem blobDbUpdate {Q : Post (World ρ) Errno Unit} {id : Nat} {payload : List UInt8}
    (hok : ∀ s, P s → s.used + payload.length ≤ cfg.partition + s.blobs.size id →
      Q.ok () (s.edit id (some payload) .done))
    (herr : ∀ s e landed, P s → H.holds (s.edit id (some payload) (.error e landed)) →
      Q.err e (s.edit id (some payload) (.error e landed)))
    (hcut : ∀ s landed, P s →
      (landed = true → s.used + payload.length ≤ cfg.partition + s.blobs.size id) →
      Q.cut (s.edit id (some payload) (.cut landed)))
    (hbad : ∀ s, P s → id = 0 ∨ s.top < id ∨ cfg.maxObject < payload.length →
      Q.err Errno.EINVAL s) :
    Spec H P (Containers.blobDbUpdate cfg id payload) Q := by
  refine Spec.read_bind fun top => Spec.ite ?_ ?_
  . intro h
    exact Spec.fail fun s hp => hbad s hp.2 (hp.1 ▸ h)
  . intro _
    refine Spec.read_bind fun fits => ?_
    split
    . next h =>
      refine Spec.editBlob ?_ ?_ ?_
      . exact fun s hp => hok s hp.2.2 (of_decide_eq_true (hp.1.trans h))
      . exact fun s e landed hp => herr s e landed hp.2.2
      . exact fun s landed hp => hcut s landed hp.2.2 fun _ => of_decide_eq_true (hp.1.trans h)
    . refine Spec.refuseBlob ?_ ?_
      . exact fun s e hp => herr s e false hp.2.2
      . exact fun s hp => hcut s false hp.2.2 fun h => by cases h

-- Unless it is refused outright, an update ends as its turn says.
theorem blobDbUpdate_outcome (cfg : StoreCfg) (w : World ρ) (id : Nat) (payload : List UInt8) :
    (Containers.blobDbUpdate cfg id payload w).1 = .err Errno.EINVAL ∨
      (Containers.blobDbUpdate cfg id payload w).1 =
        (w.updateTurn cfg id payload.length).outcome := by
  unfold Containers.blobDbUpdate
  rw [Proc.bind_run, Proc.read_run, Proc.step]
  split
  . exact .inl rfl
  . rw [Proc.bind_run, Proc.read_run, Proc.step]
    unfold World.updateTurn
    by_cases hfits : w.used + payload.length ≤ cfg.partition + w.blobs.size id
    . rw [if_pos hfits]
      simp only [hfits, decide_true, if_true]
      exact .inr rfl
    . rw [if_neg hfits]
      simp only [hfits, decide_false, Bool.false_eq_true, if_false]
      exact .inr rfl

-- Only a store without room answers that it has none.
theorem blobDbUpdate_refused {w w' : World ρ} {id : Nat} {payload : List UInt8}
    (h : Containers.blobDbUpdate cfg id payload w = (.err Errno.ENOSPC, w')) :
    w.Refuses cfg id payload.length := by
  rcases blobDbUpdate_outcome cfg w id payload with ho | ho
  . rw [h] at ho
    cases ho
  . rw [h] at ho
    exact ho.symm

theorem blobDbUpdate_taken {w w' : World ρ} {id : Nat} {payload : List UInt8}
    (h : Containers.blobDbUpdate cfg id payload w = (.ok (), w')) :
    ¬ w.Refuses cfg id payload.length := by
  intro hr
  rcases blobDbUpdate_outcome cfg w id payload with ho | ho
  . rw [h] at ho
    cases ho
  . rw [h, hr] at ho
    cases ho

theorem blobDbDelete {Q : Post (World ρ) Errno Unit} {id : Nat}
    (hok : ∀ s, P s → s.blobs id ≠ none → Q.ok () (s.edit id none .done))
    (herr : ∀ s e landed, P s → s.blobs id ≠ none →
      H.holds (s.edit id none (.error e landed)) → Q.err e (s.edit id none (.error e landed)))
    (hcut : ∀ s landed, P s → s.blobs id ≠ none → Q.cut (s.edit id none (.cut landed)))
    (hnone : ∀ s, P s → s.blobs id = none → Q.err Errno.ENOENT s) :
    Spec H P (Containers.blobDbDelete id) Q := by
  refine Spec.read_bind fun bound => ?_
  split
  . next h =>
    have hb : ∀ s : World ρ, (s.blobs id).isSome = bound → s.blobs id ≠ none := by
      intro s hs
      rw [h, Option.isSome_iff_ne_none] at hs
      exact hs
    refine Spec.editBlob ?_ ?_ ?_
    . exact fun s hp => hok s hp.2 (hb s hp.1)
    . exact fun s e landed hp => herr s e landed hp.2 (hb s hp.1)
    . exact fun s landed hp => hcut s landed hp.2 (hb s hp.1)
  . next h =>
    refine Spec.fail fun s hp => hnone s hp.2 ?_
    have := hp.1
    simp only [Bool.not_eq_true] at h
    rw [h, Option.isSome_eq_false_iff, Option.isNone_iff_eq_none] at this
    exact this

theorem blobDbAllocId {Q : Post (World ρ) Errno Nat}
    (hok : ∀ s gap, P s → s.top + 1 + gap < 2 ^ 64 → Q.ok (s.top + 1 + gap) (s.allocated gap))
    (hfail : ∀ s, P s → Q.ok 0 { s with allocs := s.allocs.tail }) :
    Spec H P Containers.blobDbAllocId Q := by
  intro s hp _
  simp only [Containers.blobDbAllocId]
  split
  . exact hfail s hp
  . next gap _ =>
    split
    . next h => exact hok s gap hp h
    . exact hfail s hp

theorem readBlob {Q : Post (World ρ) Errno α} {id : Nat} {f : Blobs → Out Errno α}
    (hread : ∀ s, P s → Q.Holds (f s.blobs, s.readDone))
    (herr : ∀ s e, P s → H.holds (s.readFailed id e) → Q.err e (s.readFailed id e)) :
    Spec H P (Containers.readBlob id f) Q := by
  intro s hp
  simp only [Containers.readBlob]
  split
  . exact fun _ => hread s hp
  . next e _ => exact fun hh => herr s e hp hh

theorem blobDbGet {Q : Post (World ρ) Errno (List UInt8)} {id outSz : Nat}
    (hok : ∀ s data, P s → s.blobs id = some data → data.length ≤ outSz → Q.ok data s.readDone)
    (hnone : ∀ s, P s → s.blobs id = none → Q.err Errno.ENOENT s.readDone)
    (hbig : ∀ s data, P s → s.blobs id = some data → outSz < data.length →
      Q.err Errno.ENOMEM s.readDone)
    (herr : ∀ s e, P s → H.holds (s.readFailed id e) → Q.err e (s.readFailed id e)) :
    Spec H P (Containers.blobDbGet id outSz) Q := by
  refine Spec.readBlob ?_ herr
  intro s hp
  split
  . next h => exact hnone s hp h
  . next data h =>
    split
    . next hlen => exact hok s data hp h hlen
    . next hlen => exact hbig s data hp h (by omega)

theorem blobDbRead {Q : Post (World ρ) Errno (List UInt8)} {id off len : Nat}
    (hok : ∀ s data, P s → s.blobs id = some data → Q.ok ((data.drop off).take len) s.readDone)
    (hnone : ∀ s, P s → s.blobs id = none → Q.err Errno.ENOENT s.readDone)
    (herr : ∀ s e, P s → H.holds (s.readFailed id e) → Q.err e (s.readFailed id e)) :
    Spec H P (Containers.blobDbRead id off len) Q := by
  refine Spec.readBlob ?_ herr
  intro s hp
  split
  . next h => exact hnone s hp h
  . next data h => exact hok s data hp h

theorem getRam {Q : Post (World ρ) Errno ρ} (h : ∀ s, P s → Q.ok s.ram s) :
    Spec H P Containers.getRam Q := Spec.read h

theorem putRam {Q : Post (World ρ) Errno Unit} {r : ρ} (h : ∀ s, P s → Q.ok () (s.setRam r)) :
    Spec H P (Containers.putRam r) Q := Spec.modify h

end Spec

end KeyValueDb.Containers
