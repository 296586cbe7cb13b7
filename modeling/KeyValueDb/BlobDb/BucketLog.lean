import KeyValueDb.BlobDb.Scratch
import KeyValueDb.BlobDb.MasterLog

/-!
The log of a bucket as a list of slots: what a walk of it meets, which slot of an id counts, and what
an append or a compaction makes of it.
-/

namespace KeyValueDb.BlobDb

variable (cfg : Cfg)

-- A slot of a log, with its payload and whether its checksum verifies.
structure Entry where
  off : Nat
  head : SlotHead
  payload : List UInt8
  intact : Bool
  deriving Repr, DecidableEq

def entryAt (f : Sector) (off : Nat) : Entry where
  off := off
  head := slotHdrAt f off
  payload := bytesAt f (off + slotHeadLen) (slotHdrAt f off).valLen
  intact := slotIntactAt f off (slotHdrAt f off).valLen

def Entry.size (x : Entry) : Nat := cfg.slotSizeFor x.head.valLen

def Entry.tombstone (x : Entry) : Bool := x.head.flags &&& slotTombstone != 0

-- Whether a walk goes on over the slot at `off`.
def walkable (f : Sector) (off : Nat) : Bool :=
  decide (off + slotOverhead ≤ cfg.pebSize) && (!headEndsLog cfg (slotHdrAt f off) &&
    decide (off + (entryAt f off).size cfg ≤ cfg.pebSize))

-- The slots that lie from `off` to `fin`, one after the other.
inductive Path (f : Sector) : Nat → List Entry → Nat → Prop where
  | nil (off : Nat) : Path f off [] off
  | cons {off fin : Nat} {es : List Entry} (h : walkable cfg f off = true)
      (rest : Path f (off + (entryAt f off).size cfg) es fin) : Path f off (entryAt f off :: es) fin

structure BucketLog (f : Sector) (es : List Entry) (fin : Nat) : Prop where
  path : Path cfg f bucketDataOff es fin
  stop : walkable cfg f fin = false

def entriesFrom (f : Sector) : Nat → Nat → List Entry
  | 0, _ => []
  | n + 1, off =>
    if walkable cfg f off then entryAt f off :: entriesFrom f n (off + (entryAt f off).size cfg)
    else []

-- Where a walk of a bucket ends.
def logEndFrom (f : Sector) : Nat → Nat → Nat
  | 0, off => off
  | n + 1, off =>
    if walkable cfg f off then logEndFrom f n (off + (entryAt f off).size cfg) else off

-- The slots a walk of a bucket meets.
def bucketEntries (f : Sector) : List Entry := entriesFrom cfg f cfg.pebSize bucketDataOff

def lastSat (p : Entry → Bool) : List Entry → Option Entry
  | [] => none
  | x :: es => (lastSat p es).or (if p x then some x else none)

-- The last slot of `id` whose checksum verifies.
def newest (id : Nat) (es : List Entry) : Option Entry :=
  lastSat (fun x => x.intact && x.head.id == id) es

-- What a lookup hands over.
structure Stored where
  flags : UInt8
  payload : List UInt8
  deriving Repr, DecidableEq

def Entry.stored (x : Entry) : Option Stored :=
  if x.tombstone then none else some ⟨x.head.flags, x.payload⟩

-- The live value of `id` in a log: none where the last slot is a tombstone.
def liveIn (es : List Entry) (id : Nat) : Option Stored := (newest id es).bind Entry.stored

-- The live value of `id` on a flash.
def contentOf (fl : Flash) (id : Nat) : Option Stored :=
  let f := fl (bucketSector (cfg.idToBucket id))
  if bucketHdrValid f (cfg.idToBucket id) then liveIn (bucketEntries cfg f) id else none

section

variable {cfg} {f g : Sector} {off fin : Nat} {es : List Entry}

/-! Walks -/

theorem slotSizeFor_ge (cfg : Cfg) (n : Nat) : slotOverhead + n ≤ cfg.slotSizeFor n := roundUp_ge writeAlign_pos

theorem Entry.size_ge (cfg : Cfg) (x : Entry) : slotOverhead ≤ x.size cfg :=
  Nat.le_trans (Nat.le_add_right _ _) (slotSizeFor_ge _ _)

theorem walkable_iff : walkable cfg f off = true ↔
    off + slotOverhead ≤ cfg.pebSize ∧ headEndsLog cfg (slotHdrAt f off) = false ∧
      off + (entryAt f off).size cfg ≤ cfg.pebSize := by
  simp [walkable]

theorem slotWalkAt_eq (f : Sector) (off : Nat) :
    slotWalkAt cfg f off =
      if walkable cfg f off then
        some (⟨(slotHdrAt f off).id, (slotHdrAt f off).flags, (slotHdrAt f off).valLen,
          (entryAt f off).size cfg⟩, (entryAt f off).intact)
      else none := by
  unfold slotWalkAt walkable
  simp only [Entry.size, entryAt]
  split
  . next h => simp [show ¬ off + slotOverhead ≤ cfg.pebSize by omega]
  . next h =>
    split
    . next he => simp [he]
    . next he =>
      split
      . next hs => simp [show ¬ off + cfg.slotSizeFor (slotHdrAt f off).valLen ≤ cfg.pebSize by omega]
      . next hs =>
        simp [he, show off + slotOverhead ≤ cfg.pebSize by omega,
          show off + cfg.slotSizeFor (slotHdrAt f off).valLen ≤ cfg.pebSize by omega]

theorem Path.le (h : Path cfg f off es fin) : off ≤ fin := by
  induction h with
  | nil off => exact Nat.le_refl _
  | cons _ _ ih => omega

theorem Path.fin_le (h : Path cfg f off es fin) (ho : off ≤ cfg.pebSize) : fin ≤ cfg.pebSize := by
  induction h with
  | nil off => exact ho
  | cons hw _ ih => exact ih (walkable_iff.mp hw).2.2

-- A log has fewer slots than bytes.
theorem Path.length_le (h : Path cfg f off es fin) : off + es.length ≤ fin := by
  induction h with
  | nil off => exact Nat.le_refl _
  | @cons off fin es hw _ ih =>
    have := Entry.size_ge cfg (entryAt f off)
    unfold slotOverhead at this
    simp only [List.length_cons]
    omega

theorem Path.append {mid : Nat} {es' : List Entry} (h : Path cfg f off es mid)
    (h' : Path cfg f mid es' fin) : Path cfg f off (es ++ es') fin := by
  induction h with
  | nil off => exact h'
  | cons hw _ ih => exact .cons hw (ih h')

theorem Path.snoc (h : Path cfg f off es fin) (hw : walkable cfg f fin = true) :
    Path cfg f off (es ++ [entryAt f fin]) (fin + (entryAt f fin).size cfg) :=
  h.append (.cons hw (.nil _))

theorem Path.split {es' : List Entry} (h : Path cfg f off (es ++ es') fin) :
    ∃ mid, Path cfg f off es mid ∧ Path cfg f mid es' fin := by
  induction es generalizing off with
  | nil => exact ⟨off, .nil off, h⟩
  | cons x es ih =>
    cases h with
    | cons hw rest =>
      obtain ⟨mid, h1, h2⟩ := ih rest
      exact ⟨mid, .cons hw h1, h2⟩

theorem Path.mem (h : Path cfg f off es fin) {x : Entry} (hx : x ∈ es) :
    off ≤ x.off ∧ x.off + x.size cfg ≤ fin ∧ walkable cfg f x.off = true ∧ x = entryAt f x.off := by
  induction h with
  | nil off => cases hx
  | @cons off fin es hw rest ih =>
    cases hx with
    | head => exact ⟨Nat.le_refl _, rest.le, hw, rfl⟩
    | tail _ hx =>
      obtain ⟨h1, h2⟩ := ih hx
      exact ⟨by omega, h2⟩

-- The bytes of a slot decide what it is, wherever it lies.
theorem entryAt_shift (cfg : Cfg) {off' : Nat}
    (h : ∀ i, i < (entryAt f off).size cfg → f (off + i) = g (off' + i)) :
    entryAt g off' = { entryAt f off with off := off' } := by
  have hsize := Entry.size_ge cfg (entryAt f off)
  have hlen : slotOverhead + (slotHdrAt f off).valLen ≤ (entryAt f off).size cfg := slotSizeFor_ge _ _
  unfold slotOverhead at hsize hlen
  have hat : ∀ o w, o + w ≤ 14 + (slotHdrAt f off).valLen →
      bytesAt g (off' + o) w = bytesAt f (off + o) w := by
    intro o w ho
    apply bytesAt_shift
    intro i hi
    have := h (o + i) (by omega)
    rw [← Nat.add_assoc, ← Nat.add_assoc] at this
    exact this.symm
  have hhead : slotHdrAt g off' = slotHdrAt f off := by
    have h0 := h 0 (by omega)
    have h1 := h 1 (by omega)
    have h2 := hat 2 2 (by omega)
    have h3 := hat 4 8 (by omega)
    simp only [Nat.add_zero] at h0
    simp only [slotHdrAt, leAt, h0, h1, h2, h3]
  have h4 := hat 0 4 (by omega)
  have h5 := hat 4 8 (by omega)
  have h6 := hat 12 (slotHdrAt f off).valLen (by omega)
  have h7 := hat (12 + (slotHdrAt f off).valLen) 2 (by omega)
  simp only [Nat.add_zero] at h4
  rw [← Nat.add_assoc, ← Nat.add_assoc] at h7
  simp only [entryAt, hhead, slotIntactAt, slotHeadLen, leAt, h4, h5, h6, h7]

theorem entryAt_congr (cfg : Cfg) (h : ∀ j, off ≤ j → j < off + (entryAt f off).size cfg → f j = g j) :
    entryAt g off = entryAt f off :=
  entryAt_shift cfg fun i hi => h (off + i) (by omega) (by omega)

theorem walkable_congr (h : ∀ j, off ≤ j → j < off + (entryAt f off).size cfg → f j = g j) :
    walkable cfg g off = walkable cfg f off := by
  have he := entryAt_congr cfg h
  have hh : slotHdrAt g off = slotHdrAt f off := congrArg Entry.head he
  unfold walkable
  rw [he, hh]

theorem Path.congr (h : Path cfg f off es fin) (hfg : ∀ j, off ≤ j → j < fin → f j = g j) :
    Path cfg g off es fin := by
  induction h with
  | nil off => exact .nil off
  | @cons off fin es hw rest ih =>
    have hle := rest.le
    have hslot : ∀ j, off ≤ j → j < off + (entryAt f off).size cfg → f j = g j :=
      fun j h1 h2 => hfg j h1 (by omega)
    have he := entryAt_congr cfg hslot
    rw [← he]
    rw [← he] at ih
    apply Path.cons
    . rw [walkable_congr hslot]
      exact hw
    . exact ih fun j h1 h2 => hfg j (by rw [he] at h1; omega) h2

theorem Path.entriesFrom (h : Path cfg f off es fin) (hs : walkable cfg f fin = false) {n : Nat}
    (hn : es.length < n) : entriesFrom cfg f n off = es := by
  induction h generalizing n with
  | nil off =>
    cases n with
    | zero => cases hn
    | succ n => simp [BlobDb.entriesFrom, hs]
  | cons hw _ ih =>
    cases n with
    | zero => cases hn
    | succ n =>
      rw [BlobDb.entriesFrom, if_pos hw, ih hs (Nat.lt_of_succ_lt_succ hn)]

theorem Path.logEndFrom (h : Path cfg f off es fin) (hs : walkable cfg f fin = false) {n : Nat}
    (hn : es.length < n) : logEndFrom cfg f n off = fin := by
  induction h generalizing n with
  | nil off =>
    cases n with
    | zero => cases hn
    | succ n => simp [BlobDb.logEndFrom, hs]
  | cons hw _ ih =>
    cases n with
    | zero => cases hn
    | succ n =>
      rw [BlobDb.logEndFrom, if_pos hw, ih hs (Nat.lt_of_succ_lt_succ hn)]

theorem bucketDataOff_le (hv : cfg.Valid) : bucketDataOff ≤ cfg.pebSize := by
  have := hv.log
  unfold masterLogOff masterHdrMax at this
  unfold bucketDataOff
  omega

theorem BucketLog.length_lt (h : BucketLog cfg f es fin) (hv : cfg.Valid) :
    es.length < cfg.pebSize := by
  have h1 := h.path.length_le
  have h2 := h.path.fin_le (bucketDataOff_le hv)
  unfold bucketDataOff at h1
  omega

theorem BucketLog.entries (h : BucketLog cfg f es fin) (hv : cfg.Valid) :
    bucketEntries cfg f = es :=
  h.path.entriesFrom h.stop (h.length_lt hv)

theorem Path.unique {es' : List Entry} {fin' : Nat} (h : Path cfg f off es fin)
    (hs : walkable cfg f fin = false) (h' : Path cfg f off es' fin')
    (hs' : walkable cfg f fin' = false) : es = es' ∧ fin = fin' := by
  induction h generalizing es' with
  | nil off =>
    cases h' with
    | nil => exact ⟨rfl, rfl⟩
    | cons hw _ => rw [hw] at hs; cases hs
  | cons hw _ ih =>
    cases h' with
    | nil => rw [hw] at hs'; cases hs'
    | cons _ rest' =>
      obtain ⟨h1, h2⟩ := ih hs rest'
      exact ⟨by rw [h1], h2⟩

theorem BucketLog.unique {es' : List Entry} {fin' : Nat} (h : BucketLog cfg f es fin)
    (h' : BucketLog cfg f es' fin') : es = es' ∧ fin = fin' :=
  h.path.unique h.stop h'.path h'.stop

theorem exists_path (cfg : Cfg) (f : Sector) (off : Nat) :
    ∃ es fin, Path cfg f off es fin ∧ walkable cfg f fin = false := by
  induction hn : cfg.pebSize - off using Nat.strong_induction_on generalizing off with
  | _ n ih =>
    cases hw : walkable cfg f off with
    | false => exact ⟨[], off, .nil off, hw⟩
    | true =>
      have hsize := Entry.size_ge cfg (entryAt f off)
      have hroom := (walkable_iff.mp hw).1
      unfold slotOverhead at hsize hroom
      obtain ⟨es, fin, hp, hs⟩ := ih (cfg.pebSize - (off + (entryAt f off).size cfg)) (by omega)
        (off + (entryAt f off).size cfg) rfl
      exact ⟨_, fin, .cons hw hp, hs⟩

theorem exists_bucketLog (cfg : Cfg) (f : Sector) : ∃ es fin, BucketLog cfg f es fin := by
  obtain ⟨es, fin, hp, hs⟩ := exists_path cfg f bucketDataOff
  exact ⟨es, fin, hp, hs⟩

/-! Which slot counts -/

section

variable {p q : Entry → Bool}

theorem lastSat_append (p : Entry → Bool) (es es' : List Entry) :
    lastSat p (es ++ es') = (lastSat p es').or (lastSat p es) := by
  induction es with
  | nil => simp [lastSat]
  | cons x es ih =>
    rw [List.cons_append, lastSat, lastSat, ih, Option.or_assoc]

theorem lastSat_none : lastSat p es = none ↔ ∀ x ∈ es, p x = false := by
  induction es with
  | nil => simp [lastSat]
  | cons y es ih =>
    rw [lastSat, Option.or_eq_none_iff, ih]
    simp only [List.mem_cons, forall_eq_or_imp, ite_eq_right_iff, reduceCtorEq, imp_false,
      Bool.not_eq_true]
    exact and_comm

theorem lastSat_some {x : Entry} (h : lastSat p es = some x) :
    ∃ a b, es = a ++ x :: b ∧ p x = true ∧ ∀ y ∈ b, p y = false := by
  induction es with
  | nil => cases h
  | cons y es ih =>
    rw [lastSat] at h
    cases hn : lastSat p es with
    | some z =>
      rw [hn, Option.some_or] at h
      obtain ⟨a, b, hab, hx⟩ := ih (hn.trans h)
      exact ⟨y :: a, b, by rw [hab]; rfl, hx⟩
    | none =>
      rw [hn, Option.none_or] at h
      split at h
      . next hy =>
        cases h
        exact ⟨[], es, rfl, hy, lastSat_none.mp hn⟩
      . cases h

theorem lastSat_congr (h : ∀ x ∈ es, p x = q x) : lastSat p es = lastSat q es := by
  induction es with
  | nil => rfl
  | cons y es ih =>
    rw [lastSat, lastSat, ih fun x hx => h x (List.mem_cons_of_mem _ hx), h y (List.mem_cons_self ..)]

end

@[simp]
theorem newest_nil (id : Nat) : newest id [] = none := rfl

theorem newest_cons (id : Nat) (x : Entry) (es : List Entry) : newest id (x :: es) =
    (newest id es).or (if x.intact && x.head.id == id then some x else none) := rfl

theorem newest_append (id : Nat) (es es' : List Entry) :
    newest id (es ++ es') = (newest id es').or (newest id es) :=
  lastSat_append _ es es'

theorem newest_some {id : Nat} {x : Entry} (h : newest id es = some x) :
    x ∈ es ∧ x.intact = true ∧ x.head.id = id := by
  obtain ⟨a, b, hab, hx, _⟩ := lastSat_some h
  rw [Bool.and_eq_true, beq_iff_eq] at hx
  exact ⟨by simp [hab], hx⟩

/-! Compaction -/

-- The slots a compaction keeps: intact, no tombstone, the last of their id.
def survivors : List Entry → List Entry
  | [] => []
  | x :: es =>
    if x.intact && (!x.tombstone && (newest x.head.id es).isNone) then x :: survivors es
    else survivors es

-- The bytes a slot takes, with the padding to the write unit.
def Entry.raw (cfg : Cfg) (f : Sector) (x : Entry) : List UInt8 := bytesAt f x.off (x.size cfg)

def rawSlots (cfg : Cfg) (f : Sector) (es : List Entry) : List UInt8 := es.flatMap (Entry.raw cfg f)

-- The slots of a log moved together from `off` on.
def repack (cfg : Cfg) : Nat → List Entry → List Entry
  | _, [] => []
  | off, x :: es => { x with off := off } :: repack cfg (off + x.size cfg) es

theorem newest_survivors (id : Nat) (es : List Entry) :
    newest id (survivors es) = (newest id es).filter fun x => !x.tombstone := by
  induction es with
  | nil => rfl
  | cons x es ih =>
    rw [survivors, newest_cons]
    split
    . next hx =>
      simp only [Bool.and_eq_true, Bool.not_eq_true', Option.isNone_iff_eq_none] at hx
      rw [newest_cons, ih]
      by_cases hid : x.head.id = id
      . rw [hid] at hx
        simp [hx, hid, Option.filter]
      . simp [hid]
    . next hx =>
      rw [ih]
      cases hn : newest id es with
      | some y => simp
      | none =>
        split
        . next hi =>
          rw [Bool.and_eq_true, beq_iff_eq] at hi
          rw [hi.1, hi.2, hn] at hx
          simp at hx
          simp [hx, Option.filter]
        . rfl

theorem liveIn_survivors (es : List Entry) (id : Nat) : liveIn (survivors es) id = liveIn es id := by
  unfold liveIn
  rw [newest_survivors]
  cases newest id es with
  | none => rfl
  | some x =>
    cases ht : x.tombstone with
    | false => simp [ht, Option.filter]
    | true => simp [ht, Option.filter, Entry.stored]

-- Moving the slots changes where the newest one lies, and nothing else of it.
theorem newest_repack (id : Nat) (off : Nat) (es : List Entry) :
    (newest id (repack cfg off es)).map (fun x => { x with off := 0 }) =
      (newest id es).map fun x => { x with off := 0 } := by
  induction es generalizing off with
  | nil => rfl
  | cons x es ih =>
    rw [repack, newest_cons, newest_cons, Option.map_or, Option.map_or, ih]
    congr 1
    split <;> rfl

theorem stored_unplaced (x : Option Entry) :
    x.bind Entry.stored = (x.map fun x => { x with off := 0 }).bind Entry.stored := by
  cases x <;> rfl

theorem liveIn_repack (off : Nat) (es : List Entry) (id : Nat) :
    liveIn (repack cfg off es) id = liveIn es id := by
  rw [liveIn, stored_unplaced, newest_repack, ← stored_unplaced, ← liveIn]

theorem mem_survivors {x : Entry} (h : x ∈ survivors es) : x ∈ es := by
  induction es with
  | nil => cases h
  | cons y es ih =>
    rw [survivors] at h
    split at h
    . cases h with
      | head => exact List.mem_cons_self ..
      | tail _ h => exact List.mem_cons_of_mem _ (ih h)
    . exact List.mem_cons_of_mem _ (ih h)

theorem mem_repack {x : Entry} (h : x ∈ repack cfg off es) :
    ∃ y ∈ es, x.head = y.head ∧ x.payload = y.payload ∧ x.intact = y.intact := by
  induction es generalizing off with
  | nil => cases h
  | cons y es ih =>
    cases h with
    | head => exact ⟨y, List.mem_cons_self .., rfl, rfl, rfl⟩
    | tail _ h =>
      obtain ⟨z, hz, h⟩ := ih h
      exact ⟨z, List.mem_cons_of_mem _ hz, h⟩

-- The look ahead of a compaction finds an intact slot of the same id.
theorem slotSupersededFrom_eq (h : Path cfg f off es fin) (hs : walkable cfg f fin = false)
    (id : Nat) {n : Nat} (hn : es.length < n) :
    slotSupersededFrom cfg f id n off = (newest id es).isSome := by
  induction h generalizing n with
  | nil off =>
    cases n with
    | zero => cases hn
    | succ n => simp [slotSupersededFrom, slotWalkAt_eq, hs]
  | @cons off fin es hw rest ih =>
    cases n with
    | zero => cases hn
    | succ n =>
      rw [slotSupersededFrom, slotWalkAt_eq, if_pos hw]
      simp only
      rw [ih hs (Nat.lt_of_succ_lt_succ hn), newest_cons]
      have hhead : (entryAt f off).head = slotHdrAt f off := rfl
      cases newest id es with
      | some y => simp
      | none =>
        simp only [Option.none_or, hhead]
        split
        . next h => simpa using h
        . next h => simpa using h

theorem memmove_moved {buf : Sector} {dst src n i : Nat} (hi : i < n) :
    memmove buf dst src n (dst + i) = buf (src + i) := by
  simp [memmove, hi]

theorem memmove_other {buf : Sector} {dst src n j : Nat} (hj : j < dst ∨ dst + n ≤ j) :
    memmove buf dst src n j = buf j := by
  simp only [memmove]
  rw [if_neg (by omega)]

-- A kept slot joins the ones packed so far.
theorem Path.moved {kept : List Entry} {new cursor : Nat} {buf : Sector}
    (hk : Path cfg buf bucketDataOff kept new) (hle : new ≤ cursor)
    (hw : walkable cfg f cursor = true) (hbuf : ∀ j, cursor ≤ j → buf j = f j)
    {buf' : Sector}
    (hb : buf' = if new = cursor then buf
      else memmove buf new cursor ((entryAt f cursor).size cfg)) :
    Path cfg buf' bucketDataOff (kept ++ [{ entryAt f cursor with off := new }])
      (new + (entryAt f cursor).size cfg) ∧
    (∀ j, new + (entryAt f cursor).size cfg ≤ j → buf' j = buf j) ∧ (∀ j, j < new → buf' j = buf j) ∧
      bytesAt buf' new ((entryAt f cursor).size cfg) = (entryAt f cursor).raw cfg f := by
  have hmoved : ∀ i, i < (entryAt f cursor).size cfg → f (cursor + i) = buf' (new + i) := by
    intro i hi
    rw [hb, ← hbuf (cursor + i) (by omega)]
    split
    . next h => rw [h]
    . rw [memmove_moved hi]
  have hhigh : ∀ j, new + (entryAt f cursor).size cfg ≤ j → buf' j = buf j := by
    intro j hj
    rw [hb]
    split
    . rfl
    . exact memmove_other (.inr hj)
  have hlow : ∀ j, j < new → buf' j = buf j := by
    intro j hj
    rw [hb]
    split
    . rfl
    . exact memmove_other (.inl hj)
  have he := entryAt_shift cfg hmoved
  have hsize : (entryAt buf' new).size cfg = (entryAt f cursor).size cfg := by
    rw [he]
    rfl
  have hwalk : walkable cfg buf' new = true := by
    obtain ⟨h1, h2, h3⟩ := walkable_iff.mp hw
    rw [walkable_iff]
    have hhead : slotHdrAt buf' new = slotHdrAt f cursor := congrArg Entry.head he
    rw [hhead, hsize]
    exact ⟨by omega, h2, by omega⟩
  refine ⟨?_, hhigh, hlow, bytesAt_shift fun i hi => (hmoved i hi).symm⟩
  have hkept : Path cfg buf' bucketDataOff kept new := hk.congr fun j _ hj => (hlow j hj).symm
  have := hkept.snoc hwalk
  rw [hsize, he] at this
  exact this

theorem compactFrom_spec {kept : List Entry} {new cursor n : Nat} {buf : Sector}
    (hp : Path cfg f cursor es fin) (hs : walkable cfg f fin = false)
    (hk : Path cfg buf bucketDataOff kept new) (hle : new ≤ cursor)
    (hbuf : ∀ j, cursor ≤ j → buf j = f j) (hn : es.length < n) (hpeb : es.length < cfg.pebSize) :
    ∃ buf' len, compactFrom cfg n buf new cursor = (buf', len, fin) ∧
      Path cfg buf' bucketDataOff (kept ++ repack cfg new (survivors es)) len ∧ len ≤ fin ∧
      (∀ j, fin ≤ j → buf' j = f j) ∧ (∀ j, j < new → buf' j = buf j) ∧
      len = new + (rawSlots cfg f (survivors es)).length ∧
      bytesAt buf' new (rawSlots cfg f (survivors es)).length = rawSlots cfg f (survivors es) := by
  induction n generalizing es kept new cursor buf with
  | zero => cases hn
  | succ n ih =>
    unfold compactFrom
    cases hp with
    | nil =>
      have hstop : walkable cfg buf fin = false := by
        rw [← hs]
        exact walkable_congr fun j h1 _ => (hbuf j h1).symm
      rw [slotWalkAt_eq, if_neg (by rw [hstop]; decide)]
      refine ⟨buf, new, rfl, ?_, hle, hbuf, fun _ _ => rfl, rfl, rfl⟩
      simpa [survivors, repack] using hk
    | @cons _ _ es hw rest =>
      have hslot : ∀ j, cursor ≤ j → j < cursor + (entryAt f cursor).size cfg → f j = buf j :=
        fun j h1 _ => (hbuf j h1).symm
      have he := entryAt_congr cfg hslot
      have hhead : slotHdrAt buf cursor = (entryAt f cursor).head := congrArg Entry.head he
      have hwb : walkable cfg buf cursor = true := (walkable_congr hslot).trans hw
      -- the look ahead reads slots the walk has not reached, and those are still in place
      have hrest : Path cfg buf (cursor + (entryAt f cursor).size cfg) es fin :=
        rest.congr fun j h1 _ => (hbuf j (by omega)).symm
      have hstop : walkable cfg buf fin = false := by
        have := rest.le
        rw [← hs]
        exact walkable_congr fun j h1 _ => (hbuf j (by omega)).symm
      have hlen : es.length < cfg.pebSize := Nat.lt_of_succ_lt hpeb
      rw [slotWalkAt_eq, if_pos hwb, he, hhead]
      simp only [slotSuperseded]
      rw [slotSupersededFrom_eq hrest hstop _ hlen, survivors]
      have hflag : ((entryAt f cursor).head.flags &&& slotTombstone == 0) =
          !(entryAt f cursor).tombstone := by
        simp [Entry.tombstone, bne]
      rw [hflag]
      simp only [Option.not_isSome]
      split
      . obtain ⟨h1, h2, h3, h4⟩ := hk.moved hle hw hbuf rfl
        have hbuf' : ∀ j, cursor + (entryAt f cursor).size cfg ≤ j →
            (if new = cursor then buf else memmove buf new cursor ((entryAt f cursor).size cfg)) j =
              f j := by
          intro j hj
          rw [h2 j (by omega), hbuf j (by omega)]
        obtain ⟨buf', len, hc, hpath, hlen', hhigh, hlow, hsum, hraw⟩ := ih rest h1 (by omega) hbuf'
          (Nat.lt_of_succ_lt_succ hn) hlen
        have hsize : ((entryAt f cursor).raw cfg f).length = (entryAt f cursor).size cfg :=
          bytesAt_length ..
        have hcons : rawSlots cfg f (entryAt f cursor :: survivors es) =
          (entryAt f cursor).raw cfg f ++ rawSlots cfg f (survivors es) := List.flatMap_cons ..
        refine ⟨buf', len, hc, ?_, hlen', hhigh, ?_, ?_, ?_⟩
        . simpa [repack, Entry.size] using hpath
        . intro j hj
          rw [hlow j (by omega), h3 j hj]
        . rw [hcons, List.length_append]
          omega
        . rw [hcons, List.length_append, bytesAt_append, hsize, hraw, ← h4]
          congr 1
          apply bytesAt_congr
          intro j _ hj
          exact hlow j hj
      . exact ih rest hk (by omega) (fun j hj => hbuf j (by omega)) (Nat.lt_of_succ_lt_succ hn) hlen

theorem bucketHdrBytes_length (bid gen : Nat) : (bucketHdrBytes bid gen).length = bucketDataOff := by
  simp [bucketHdrBytes, bucketHdrBody, bucketMagic, bucketDataOff]

theorem bucketHdrValid_congr {bid : Nat} (h : ∀ j, j < bucketDataOff → f j = g j) :
    bucketHdrValid f bid = bucketHdrValid g bid := by
  have hat : ∀ o n, o + n ≤ bucketDataOff → bytesAt f o n = bytesAt g o n := by
    intro o n ho
    apply bytesAt_congr
    intro j _ hj
    exact h j (by omega)
  unfold bucketHdrValid leAt
  rw [hat 0 4 (by decide), hat 12 4 (by decide), hat 0 12 (by decide), hat 4 2 (by decide)]

theorem bucketHdrValid_written {bid gen : Nat} (hbid : bid < 2 ^ 16)
    (h : bytesAt f 0 bucketDataOff = bucketHdrBytes bid gen) : bucketHdrValid f bid = true := by
  rw [← bucketHdrBytes_length bid gen] at h
  obtain ⟨hbody, hcrc⟩ := bytesAt_split (a := bucketHdrBody bid gen) (b := leBytes _ 4) h
  obtain ⟨hmagic, hrest⟩ := bytesAt_split (a := bucketMagic) (b := _ ++ _) hbody
  obtain ⟨hb, _⟩ := bytesAt_split (a := leBytes bid 2) (b := _ ++ _) hrest
  have h256 : 2 ^ 32 = 256 ^ 4 := by decide
  have h1 : leAt f 12 4 = crc32Ieee (bucketHdrBody bid gen) :=
    leAt_of_bytesAt hcrc (h256 ▸ crc32Ieee_lt _)
  have h2 : leAt f 4 2 = bid := leAt_of_bytesAt hb hbid
  have h3 : bytesAt f 0 4 = bucketMagic := hmagic
  have h4 : bytesAt f 0 12 = bucketHdrBody bid gen := hbody
  unfold bucketHdrValid
  rw [h1, h2, h3, h4]
  simp

-- From `fin` on the sector is erased.
def Clean (cfg : Cfg) (f : Sector) (fin : Nat) : Prop :=
  ∀ j, fin ≤ j → j < cfg.pebSize → f j = 0xff

theorem walkable_of_erased (h : f off = 0xff) : walkable cfg f off = false := by
  have hh : headEndsLog cfg (slotHdrAt f off) = true := by simp [headEndsLog, slotHdrAt, h]
  simp [walkable, hh]

theorem walkable_of_full (h : cfg.pebSize < off + slotOverhead) : walkable cfg f off = false := by
  simp [walkable, h]

theorem Clean.stop (h : Clean cfg f fin) : walkable cfg f fin = false := by
  by_cases hf : fin + slotOverhead ≤ cfg.pebSize
  . unfold slotOverhead at hf
    exact walkable_of_erased (h fin (Nat.le_refl _) (by omega))
  . exact walkable_of_full (by omega)

-- The image byte for byte, its log, and what of the buffer is left as it was.
theorem buildCompactedImage_spec (hv : cfg.Valid) (hl : BucketLog cfg f es fin) (bid : Nat) :
    ∃ buf len, buildCompactedImage cfg f bid = (buf, len, fin) ∧
      BucketLog cfg (image (bytesAt buf 0 len)) (repack cfg bucketDataOff (survivors es)) len ∧
      Clean cfg (image (bytesAt buf 0 len)) len ∧
      bytesAt buf 0 len = bucketHdrBytes bid (leAt f 8 4 + 1) ++ rawSlots cfg f (survivors es) ∧
      ∀ j, fin ≤ j → buf j = f j := by
  have hn := hl.length_lt hv
  obtain ⟨buf, len, hc, hp, -, hhigh, -, hsum, hraw⟩ := compactFrom_spec hl.path hl.stop (.nil _)
    (Nat.le_refl _) (fun _ _ => rfl) hn hn
  rw [List.nil_append] at hp
  have hfin := hl.path.le
  unfold buildCompactedImage
  simp only [hc]
  have hhdr := bucketHdrBytes_length bid (leAt f 8 4 + 1)
  generalize hg : memcpy buf 0 (bucketHdrBytes bid (leAt f 8 4 + 1)) = g
  have hbytes : bytesAt g 0 bucketDataOff = bucketHdrBytes bid (leAt f 8 4 + 1) := by
    rw [← hhdr]
    apply bytesAt_eq_of_getD
    intro i hi
    simp [← hg, memcpy, hi]
  have hlow : ∀ j, bucketDataOff ≤ j → buf j = g j := by
    intro j hj
    rw [← hg, memcpy, if_neg (by omega)]
  have himage : ∀ j, j < len → g j = image (bytesAt g 0 len) j := by
    intro j hj
    rw [image_bytesAt hj, Nat.zero_add]
  have hclean : Clean cfg (image (bytesAt g 0 len)) len := by
    intro j hj _
    simp [image, List.getD_eq_getElem?_getD, hj]
  refine ⟨g, len, rfl, ⟨?_, hclean.stop⟩, hclean, ?_, ?_⟩
  . have hpg : Path cfg g bucketDataOff (repack cfg bucketDataOff (survivors es)) len :=
      hp.congr fun j h1 _ => hlow j h1
    exact hpg.congr fun j _ h2 => himage j h2
  . rw [hsum, bytesAt_append, hbytes, ← hraw, bytesAt_length, Nat.zero_add]
    congr 1
    apply bytesAt_congr
    intro j hj _
    exact (hlow j hj).symm
  . intro j hj
    rw [← hhigh j hj, hlow j (by omega)]

/-! Appends -/

-- The flags a build may write: sealed, and none it does not know.
def FlagsOk (cfg : Cfg) (flags : UInt8) : Prop :=
  flags ≠ 0xff ∧ flags &&& slotSealed ≠ 0 ∧ flags &&& ~~~cfg.slotKnown = 0

def appended (off : Nat) (flags : UInt8) (id : Nat) (payload : List UInt8) : Entry :=
  ⟨off, ⟨flags, 0, payload.length, id⟩, payload, true⟩

-- At most three bytes of a slot header follow the log.
structure Torn (cfg : Cfg) (f : Sector) (fin : Nat) : Prop where
  head : f fin ≠ 0xff
  room : fin + slotOverhead ≤ cfg.pebSize
  erased : ∀ j, fin + 3 ≤ j → j < cfg.pebSize → f j = 0xff

theorem maxPayloadLen_lt (hv : cfg.Valid) : cfg.maxPayloadLen < 32768 := by
  have h1 := hv.payload
  have h2 := hv.buf
  have h3 := cfg.sector_range
  unfold bucketDataOff slotOverhead at h1
  omega

theorem Torn.ends (hv : cfg.Valid) (h : Torn cfg f fin) : cfg.maxPayloadLen < (slotHdrAt f fin).valLen := by
  have hroom := h.room
  unfold slotOverhead at hroom
  have hbyte : f (fin + 3) = 0xff := h.erased (fin + 3) (Nat.le_refl _) (by omega)
  have hlt := maxPayloadLen_lt hv
  have hval : (slotHdrAt f fin).valLen = (f (fin + 2)).toNat + 256 * 255 := by
    simp [slotHdrAt, leAt, bytesAt, leNat, hbyte]
  omega

theorem Torn.stop (hv : cfg.Valid) (h : Torn cfg f fin) : walkable cfg f fin = false := by
  have hh : headEndsLog cfg (slotHdrAt f fin) = true := by simp [headEndsLog, h.ends hv]
  simp [walkable, hh]

theorem slotHeadBytes_length (flags : UInt8) (id n : Nat) : (slotHeadBytes flags id n).length = slotHeadLen := by
  simp [slotHeadBytes, slotHeadLen]

theorem slotBytes_length (flags : UInt8) (id : Nat) (payload : List UInt8) :
    (slotBytes flags id payload).length = slotOverhead + payload.length := by
  simp [slotBytes, slotHeadBytes_length, slotHeadLen, slotOverhead]
  omega

theorem slotImage_length (cfg : Cfg) (flags : UInt8) (id : Nat) (payload : List UInt8) :
    (slotImage cfg flags id payload).length = cfg.slotSizeFor payload.length := by
  have := slotSizeFor_ge cfg payload.length
  rw [slotImage, padTo, List.length_append, List.length_replicate, slotBytes_length]
  omega

-- A slot reads back as it was written.
theorem entryAt_written {flags : UInt8} {id : Nat} {payload : List UInt8} (hid : id < 2 ^ 64)
    (hlen : payload.length < 2 ^ 16)
    (h : bytesAt f off (slotOverhead + payload.length) = slotBytes flags id payload) :
    entryAt f off = appended off flags id payload := by
  rw [← slotBytes_length flags id payload] at h
  obtain ⟨hhead, hrest⟩ := bytesAt_split (a := slotHeadBytes flags id payload.length) (b := _ ++ _) h
  obtain ⟨hpay, hcrc⟩ := bytesAt_split (a := payload) (b := leBytes _ 2) hrest
  rw [slotHeadBytes_length] at hhead hpay hcrc
  rw [leBytes_length] at hcrc
  have hcons : bytesAt f off slotHeadLen = f off :: f (off + 1) :: bytesAt f (off + 2) 10 := rfl
  rw [hcons, slotHeadBytes] at hhead
  obtain ⟨hf, hr, hnums⟩ : f off = flags ∧ f (off + 1) = 0 ∧
      bytesAt f (off + 2) 10 = leBytes payload.length 2 ++ leBytes id 8 := by simpa using hhead
  obtain ⟨hl, hi⟩ := bytesAt_split (a := leBytes payload.length 2) (b := leBytes id 8)
    (by simpa using hnums)
  have hvl : leAt f (off + 2) 2 = payload.length := leAt_of_bytesAt (by simpa using hl) hlen
  have hid' : leAt f (off + 4) 8 = id := leAt_of_bytesAt (by simpa using hi) hid
  have hslot : slotHdrAt f off = ⟨flags, 0, payload.length, id⟩ := by
    simp only [slotHdrAt, hf, hr, hvl, hid']
  have hintact : slotIntactAt f off payload.length = true := by
    have h12 : bytesAt f off 12 = bytesAt f off 4 ++ bytesAt f (off + 4) 8 := bytesAt_append f off 4 8
    have hhb : bytesAt f off 12 = slotHeadBytes flags id payload.length := by
      rw [slotHeadBytes, ← hhead]
      rfl
    unfold slotIntactAt slotCrc16
    rw [hpay, ← crc16Ccitt_append, ← crc16Ccitt_append, ← List.append_assoc, ← h12, hhb]
    have h256 : 2 ^ 16 = 256 ^ 2 := by decide
    rw [leAt_of_bytesAt hcrc (h256 ▸ crc16Ccitt_lt _ (by decide))]
    simp
  simp only [entryAt, appended, hslot, hintact, hpay]

theorem slotImage_take (cfg : Cfg) (flags : UInt8) (id : Nat) (payload : List UInt8) :
    (slotImage cfg flags id payload).take (slotOverhead + payload.length) =
      slotBytes flags id payload := by
  rw [slotImage, padTo, ← slotBytes_length flags id payload, List.take_left']
  rfl

theorem walkable_of_head {n : Nat} (hh : headEndsLog cfg (slotHdrAt f off) = false)
    (hn : (slotHdrAt f off).valLen = n) (hroom : off + cfg.slotSizeFor n ≤ cfg.pebSize) :
    walkable cfg f off = true ∧ (entryAt f off).size cfg = cfg.slotSizeFor n := by
  have hsize : (entryAt f off).size cfg = cfg.slotSizeFor n := by
    rw [← hn]
    rfl
  have hge := slotSizeFor_ge cfg n
  refine ⟨walkable_iff.mpr ⟨by omega, hh, ?_⟩, hsize⟩
  rw [hsize]
  exact hroom

-- A slot may be appended at `fin`.
structure Appendable (cfg : Cfg) (f : Sector) (fin : Nat) (flags : UInt8) (id : Nat)
    (payload : List UInt8) : Prop where
  clean : Clean cfg f fin
  room : fin + cfg.slotSizeFor payload.length ≤ cfg.pebSize
  flagsOk : FlagsOk cfg flags
  id_lt : id < 2 ^ 64
  len : payload.length ≤ cfg.maxPayloadLen

section

variable {flags : UInt8} {id : Nat} {payload : List UInt8}
  (h : Appendable cfg f fin flags id payload)

include h

theorem Appendable.byte {part i : Nat} (hi : i < part) (hlt : i < cfg.slotSizeFor payload.length) :
    program f fin ((slotImage cfg flags id payload).take part) (fin + i) =
      (slotImage cfg flags id payload).getD i 0 := by
  have hlen := slotImage_length cfg flags id payload
  have hroom := h.room
  rw [program_of_erased (by omega) (by simp only [List.length_take]; omega)
    (h.clean (fin + i) (by omega) (by omega))]
  rw [Nat.add_sub_cancel_left]
  simp [List.getD_eq_getElem?_getD, hi]

-- What lies behind a slot stays erased, however much of the slot landed.
theorem Appendable.clean_after (part : Nat) :
    Clean cfg (program f fin ((slotImage cfg flags id payload).take part))
      (fin + cfg.slotSizeFor payload.length) := by
  intro j h1 h2
  rw [program_of_ge]
  . exact h.clean j (by omega) h2
  . have hlen := slotImage_length cfg flags id payload
    simp only [List.length_take]
    omega

-- Four bytes of a slot are enough for a walk to go over it.
theorem Appendable.walkable (hv : cfg.Valid) {part : Nat} (hpart : 4 ≤ part) :
    walkable cfg (program f fin ((slotImage cfg flags id payload).take part)) fin = true ∧
      slotHdrAt (program f fin ((slotImage cfg flags id payload).take part)) fin =
        ⟨flags, 0, payload.length,
          (slotHdrAt (program f fin ((slotImage cfg flags id payload).take part)) fin).id⟩ := by
  have hge := slotSizeFor_ge cfg payload.length
  have hmax := maxPayloadLen_lt hv
  have hlen := h.len
  unfold slotOverhead at hge
  have hbyte : ∀ i, i < 4 → program f fin ((slotImage cfg flags id payload).take part) (fin + i) =
      (flags :: 0 :: leBytes payload.length 2).getD i 0 := by
    intro i hi
    rw [h.byte (by omega) (by omega)]
    simp only [slotImage, padTo, slotBytes, slotHeadBytes, List.getD_eq_getElem?_getD]
    rcases i with _ | _ | _ | _ | i
    . rfl
    . rfl
    . rfl
    . rfl
    . omega
  generalize program f fin ((slotImage cfg flags id payload).take part) = g at hbyte ⊢
  have h0 : g fin = flags := hbyte 0 (by omega)
  have h1 : g (fin + 1) = 0 := hbyte 1 (by omega)
  have hval : leAt g (fin + 2) 2 = payload.length := by
    apply leAt_of_bytesAt
    . have h2 := hbyte 2 (by omega)
      have h3 := hbyte 3 (by omega)
      simp only [leBytes, List.getD_cons_succ, List.getD_cons_zero] at h2 h3
      simp [bytesAt, leBytes, h2, h3]
    . omega
  have hhead : slotHdrAt g fin = ⟨flags, 0, payload.length, (slotHdrAt g fin).id⟩ := by
    simp only [slotHdrAt, h0, h1, hval]
  refine ⟨?_, hhead⟩
  have hroom := h.room
  obtain ⟨hf1, hf2, hf3⟩ := h.flagsOk
  rw [walkable_iff]
  refine ⟨by unfold slotOverhead; omega, ?_, ?_⟩
  . rw [hhead]
    simp [headEndsLog, hf1, hf2, hf3, hlen]
  . have hsize : (entryAt g fin).size cfg = cfg.slotSizeFor payload.length := by
      show cfg.slotSizeFor (slotHdrAt g fin).valLen = _
      rw [hhead]
    rw [hsize]
    exact hroom

theorem Appendable.snoc (hv : cfg.Valid) (hp : Path cfg f bucketDataOff es fin) {k : Nat}
    (hk : 4 ≤ k) :
    BucketLog cfg (program f fin ((slotImage cfg flags id payload).take k))
      (es ++ [entryAt (program f fin ((slotImage cfg flags id payload).take k)) fin])
      (fin + cfg.slotSizeFor payload.length) := by
  obtain ⟨hw, hhead⟩ := h.walkable hv hk
  have hold : Path cfg (program f fin ((slotImage cfg flags id payload).take k)) bucketDataOff
      es fin := hp.congr fun j _ hj => (program_of_lt hj).symm
  have hsnoc := hold.snoc hw
  have hsize : (entryAt (program f fin ((slotImage cfg flags id payload).take k)) fin).size cfg =
      cfg.slotSizeFor payload.length := by
    rw [Entry.size, show (entryAt _ fin).head = slotHdrAt _ fin from rfl, hhead]
  rw [hsize] at hsnoc
  exact ⟨hsnoc, (h.clean_after k).stop⟩

theorem Appendable.written (hv : cfg.Valid) :
    bytesAt (program f fin (slotImage cfg flags id payload)) fin (slotOverhead + payload.length) =
      slotBytes flags id payload ∧
    entryAt (program f fin (slotImage cfg flags id payload)) fin = appended fin flags id payload := by
  have hlen := slotImage_length cfg flags id payload
  have hge := slotSizeFor_ge cfg payload.length
  have hmax := maxPayloadLen_lt hv
  have hroom := h.room
  have hpay := h.len
  have hb : bytesAt (program f fin (slotImage cfg flags id payload)) fin
      (slotOverhead + payload.length) = slotBytes flags id payload := by
    have hall : bytesAt (program f fin (slotImage cfg flags id payload)) fin
        (slotImage cfg flags id payload).length = slotImage cfg flags id payload :=
      bytesAt_program fun j h1 h2 => h.clean j h1 (by omega)
    rw [← slotImage_take cfg flags id payload]
    have hsplit : (slotImage cfg flags id payload).length = slotOverhead + payload.length +
        (cfg.slotSizeFor payload.length - (slotOverhead + payload.length)) := by
      omega
    rw [hsplit, bytesAt_append] at hall
    have htake := congrArg (List.take (slotOverhead + payload.length)) hall
    rw [List.take_left' (bytesAt_length ..)] at htake
    exact htake
  exact ⟨hb, entryAt_written h.id_lt (by omega) hb⟩

theorem BucketLog.append (hv : cfg.Valid) (hp : Path cfg f bucketDataOff es fin) :
    BucketLog cfg (program f fin (slotImage cfg flags id payload))
      (es ++ [appended fin flags id payload]) (fin + cfg.slotSizeFor payload.length) ∧
    Clean cfg (program f fin (slotImage cfg flags id payload))
      (fin + cfg.slotSizeFor payload.length) := by
  have hlen := slotImage_length cfg flags id payload
  have hge := slotSizeFor_ge cfg payload.length
  unfold slotOverhead at hge
  have hlog := h.snoc hv hp (k := cfg.slotSizeFor payload.length) (by omega)
  have hclean := h.clean_after (cfg.slotSizeFor payload.length)
  rw [List.take_of_length_le (by omega)] at hlog hclean
  rw [(h.written hv).2] at hlog
  exact ⟨hlog, hclean⟩

end

end

end KeyValueDb.BlobDb
