import KeyValueDb.BlobDb.InPlace
import KeyValueDb.BlobDb.Iteration

/-!
The inspection of a bucket: how many of its bytes are live, garbage, a torn tail and free, and a
callback for every slot. It judges each slot as a compaction and a count do, in a walk of its own.
-/

namespace KeyValueDb.BlobDb

-- struct blob_db_core_slot
structure CoreSlot where
  id : Nat
  flags : UInt8
  valLen : Nat
  totalSize : Nat
  intact : Bool
  deriving Repr, DecidableEq

-- enum blob_db_inspect_slot_state
inductive SlotState where
  | live | superseded | tombstone | rotten
  deriving Repr, DecidableEq

structure InspectSlot where
  offset : Nat
  size : Nat
  id : Nat
  valLen : Nat
  flags : UInt8
  state : SlotState
  segment : Bool
  index : Bool
  deriving Repr, DecidableEq

-- The byte figures are 32 bits wide, the counts 16.
structure InspectBucket where
  formatted : Bool
  gen : Nat
  capacity : Nat
  liveBytes : Nat
  payloadBytes : Nat
  garbageBytes : Nat
  tailBytes : Nat
  freeBytes : Nat
  objects : Nat
  segments : Nat
  superseded : Nat
  tombstones : Nat
  rotten : Nat
  deriving Repr, DecidableEq

def u32 (n : Nat) : Nat := n % 2 ^ 32
def u16 (n : Nat) : Nat := n % 2 ^ 16

-- Unsigned subtraction of 32-bit values.
def u32Sub (a b : Nat) : Nat := u32 (a + 2 ^ 32 - b)

variable (cfg : Cfg)

def coreSlotAt (buf : Sector) (off : Nat) : Option CoreSlot :=
  match slotWalkAt cfg buf off with
  | none => none
  | some (sv, intact) => some ⟨sv.id, sv.flags, sv.valLen, sv.totalSize, intact⟩

-- The look ahead of the inspection.
def inspectSuperseded (buf : Sector) (id : Nat) : Nat → Nat → Bool
  | 0, _ => false
  | n + 1, scan =>
    match coreSlotAt cfg buf scan with
    | none => false
    | some future =>
      if future.intact && future.id == id then true
      else inspectSuperseded buf id n (scan + future.totalSize)

def inspectState (sv : CoreSlot) (superseded : Bool) : SlotState :=
  if !sv.intact then .rotten
  else if sv.flags &&& slotTombstone != 0 then .tombstone
  else if superseded then .superseded
  else .live

def InspectBucket.tally (out : InspectBucket) (si : InspectSlot) : InspectBucket :=
  match si.state with
  | .rotten =>
    { out with
      rotten := u16 (out.rotten + 1)
      garbageBytes := u32 (out.garbageBytes + si.size) }
  | .tombstone =>
    { out with
      tombstones := u16 (out.tombstones + 1)
      garbageBytes := u32 (out.garbageBytes + si.size) }
  | .superseded =>
    { out with
      superseded := u16 (out.superseded + 1)
      garbageBytes := u32 (out.garbageBytes + si.size) }
  | .live =>
    { out with
      segments := if si.segment then u16 (out.segments + 1) else out.segments
      objects := if si.segment then out.objects else u16 (out.objects + 1)
      liveBytes := u32 (out.liveBytes + si.size)
      payloadBytes := u32 (out.payloadBytes + si.valLen) }

-- A callback hands back its result and what it collected. It runs with the sector in the shared
-- buffer and must not call the library.
abbrev InspectCb (σ : Type) := σ → InspectSlot → Int × σ

-- The result of the callback that ended the walk or 0, where the walk is, the figures so far.
def inspectFrom {σ : Type} (buf : Sector) (cb : Option (InspectCb σ)) :
    Nat → Nat → InspectBucket → σ → Int × Nat × InspectBucket × σ
  | 0, cursor, out, user => (0, cursor, out, user)
  | n + 1, cursor, out, user =>
    match coreSlotAt cfg buf cursor with
    | none => (0, cursor, out, user)
    | some sv =>
      let superseded :=
        sv.intact && inspectSuperseded cfg buf sv.id cfg.pebSize (cursor + sv.totalSize)
      let si : InspectSlot :=
        { offset := u32 cursor
          size := u32 sv.totalSize
          id := sv.id
          valLen := sv.valLen
          flags := sv.flags
          state := inspectState sv superseded
          segment := cfg.large && sv.flags &&& slotSegment != 0
          index := cfg.large && sv.flags &&& slotIndexed != 0 }
      let out := out.tally si
      match cb with
      | none => inspectFrom buf cb n (cursor + sv.totalSize) out user
      | some f =>
        let (r, user) := f user si
        if r ≠ 0 then (r, cursor, out, user)
        else inspectFrom buf cb n (cursor + sv.totalSize) out user

-- Where the programmed bytes end, not before `cursor`.
def programmedEnd (buf : Sector) (cursor : Nat) : Nat → Nat
  | 0 => 0
  | e + 1 => if cursor < e + 1 ∧ buf e = 0xff then programmedEnd buf cursor e else e + 1

def freshInspect (capacity : Nat) : InspectBucket :=
  ⟨false, 0, capacity, 0, 0, 0, 0, capacity, 0, 0, 0, 0, 0⟩

-- The result, with the figures even where a callback ended the walk.
def bucketGetImpl {σ : Type} (bid : Nat) (cb : Option (InspectCb σ)) (user : σ) :
    M (Int × InspectBucket × σ) := do
  let st ← getSt
  if !st.mounted then Proc.fail .ENODEV
  else if cfg.nBuckets ≤ bid then Proc.fail .EINVAL
  else do
    let capacity := u32 (cfg.pebSize - bucketDataOff)
    let buf ← readBucket bid
    -- never used, or invalidated by erase_all: the next write formats it
    if !bucketHdrValid buf bid then pure (0, freshInspect capacity, user)
    else do
      let out := { freshInspect capacity with formatted := true, gen := leAt buf 8 4 }
      let (rc, cursor, out, user) := inspectFrom cfg buf cb cfg.pebSize bucketDataOff out user
      if rc ≠ 0 then pure (rc, out, user)
      else
        let tail := u32 (programmedEnd buf cursor cfg.pebSize - cursor)
        pure (0,
          { out with
            tailBytes := tail
            freeBytes := u32Sub (u32Sub (u32Sub capacity out.liveBytes) out.garbageBytes) tail },
          user)

-- The objects that the inspection finds in a bucket.
def objectsOf (w : World) (bid : Nat) : Nat :=
  match (bucketGetImpl cfg bid none () w).1 with
  | .ok (_, out, _) => out.objects
  | _ => 0

/-! What the walk meets -/

def Entry.state (x : Entry) (later : Bool) : SlotState :=
  if !x.intact then .rotten else if x.tombstone then .tombstone
  else if later then .superseded else .live

-- The slot as the callback gets it. `later` says whether an intact slot of its id comes after it.
def Entry.report (x : Entry) (later : Bool) : InspectSlot where
  offset := u32 x.off
  size := u32 (x.size cfg)
  id := x.head.id
  valLen := x.head.valLen
  flags := x.head.flags
  state := x.state later
  segment := x.internal cfg
  index := cfg.large && x.head.flags &&& slotIndexed != 0

def reports : List Entry → List InspectSlot
  | [] => []
  | x :: es => x.report cfg (newest x.head.id es).isSome :: reports es

-- What a callback that always returns 0 has collected.
def collected {σ : Type} (cb : Option (InspectCb σ)) (user : σ) (slots : List InspectSlot) : σ :=
  match cb with
  | none => user
  | some f => slots.foldl (fun user si => (f user si).2) user

def NeverAborts {σ : Type} (cb : Option (InspectCb σ)) : Prop :=
  ∀ f ∈ cb, ∀ user si, (f user si).1 = 0

section

variable {cfg : Cfg} {f : Sector} {off fin bid : Nat} {es : List Entry}

theorem coreSlotAt_eq (f : Sector) (off : Nat) :
    coreSlotAt cfg f off =
      if walkable cfg f off then
        some ⟨(entryAt f off).head.id, (entryAt f off).head.flags, (entryAt f off).head.valLen,
          (entryAt f off).size cfg, (entryAt f off).intact⟩
      else none := by
  unfold coreSlotAt
  rw [slotWalkAt_eq]
  by_cases h : walkable cfg f off = true
  . simp only [h, if_true]
    rfl
  . simp only [h, Bool.false_eq_true, if_false]

theorem inspectSuperseded_eq (f : Sector) (id n off : Nat) :
    inspectSuperseded cfg f id n off = slotSupersededFrom cfg f id n off := by
  induction n generalizing off with
  | zero => rfl
  | succ n ih =>
    rw [inspectSuperseded, slotSupersededFrom, coreSlotAt]
    cases slotWalkAt cfg f off with
    | none => rfl
    | some x =>
      obtain ⟨sv, intact⟩ := x
      simp only [ih]
      cases intact && sv.id == id <;> simp

theorem inspectFrom_eq {σ : Type} {cb : Option (InspectCb σ)} (hcb : NeverAborts cb)
    (hp : Path cfg f off es fin) (hs : walkable cfg f fin = false) {n : Nat} (hn : es.length < n)
    (hpeb : es.length < cfg.pebSize) (out : InspectBucket) (user : σ) :
    inspectFrom cfg f cb n off out user =
      (0, fin, (reports cfg es).foldl InspectBucket.tally out,
        collected cb user (reports cfg es)) := by
  induction hp generalizing n out user with
  | nil off =>
    cases n with
    | zero => cases hn
    | succ n =>
      rw [inspectFrom, coreSlotAt_eq, if_neg (by simp [hs])]
      cases cb <;> rfl
  | @cons off fin es hw rest ih =>
    cases n with
    | zero => cases hn
    | succ n =>
      rw [List.length_cons] at hn hpeb
      have hahead : inspectSuperseded cfg f (entryAt f off).head.id cfg.pebSize
          (off + (entryAt f off).size cfg) = (newest (entryAt f off).head.id es).isSome := by
        rw [inspectSuperseded_eq]
        exact slotSupersededFrom_eq rest hs _ (by omega)
      have hstate : inspectState ⟨(entryAt f off).head.id, (entryAt f off).head.flags,
          (entryAt f off).head.valLen, (entryAt f off).size cfg, (entryAt f off).intact⟩
          ((entryAt f off).intact && (newest (entryAt f off).head.id es).isSome) =
          (entryAt f off).state (newest (entryAt f off).head.id es).isSome := by
        simp only [inspectState, Entry.state, Entry.tombstone]
        cases (entryAt f off).intact <;> rfl
      rw [inspectFrom, coreSlotAt_eq, if_pos hw]
      simp only [hahead, hstate]
      cases cb with
      | none => exact ih hs (by omega) (by omega) _ _
      | some g =>
        have hzero := hcb g rfl user
        simp only [hzero, ne_eq, not_true_eq_false, if_false]
        exact ih hs (by omega) (by omega) _ _

/-! Sums over the slots -/

-- A figure that each slot adds to adds up, as long as there is room for it.
theorem foldl_tally {π : InspectBucket → Nat} {d : InspectSlot → Nat} {m : Nat}
    (h : ∀ out si, π (out.tally si) = (π out + d si) % m ∨ d si = 0 ∧ π (out.tally si) = π out)
    (slots : List InspectSlot) (out : InspectBucket) (hroom : π out + (slots.map d).sum < m) :
    π (slots.foldl InspectBucket.tally out) = π out + (slots.map d).sum := by
  induction slots generalizing out with
  | nil => rfl
  | cons si slots ih =>
    rw [List.map_cons, List.sum_cons] at hroom ⊢
    have hstep : π (out.tally si) = π out + d si := by
      rcases h out si with h | ⟨hd, h⟩
      . rw [h, Nat.mod_eq_of_lt (by omega)]
      . omega
    rw [List.foldl_cons, ih _ (by omega), hstep]
    omega

def InspectSlot.liveSize (si : InspectSlot) : Nat := if si.state = .live then si.size else 0
def InspectSlot.garbageSize (si : InspectSlot) : Nat := if si.state = .live then 0 else si.size
def InspectSlot.objectCount (si : InspectSlot) : Nat :=
  if si.state = .live ∧ si.segment = false then 1 else 0

theorem liveBytes_tally (out : InspectBucket) (si : InspectSlot) :
    (out.tally si).liveBytes = (out.liveBytes + si.liveSize) % 2 ^ 32 ∨
      si.liveSize = 0 ∧ (out.tally si).liveBytes = out.liveBytes := by
  unfold InspectBucket.tally InspectSlot.liveSize
  cases si.state
  . exact .inl rfl
  all_goals exact .inr ⟨rfl, rfl⟩

theorem garbageBytes_tally (out : InspectBucket) (si : InspectSlot) :
    (out.tally si).garbageBytes = (out.garbageBytes + si.garbageSize) % 2 ^ 32 ∨
      si.garbageSize = 0 ∧ (out.tally si).garbageBytes = out.garbageBytes := by
  unfold InspectBucket.tally InspectSlot.garbageSize
  cases si.state
  . exact .inr ⟨rfl, rfl⟩
  all_goals exact .inl rfl

theorem objects_tally (out : InspectBucket) (si : InspectSlot) :
    (out.tally si).objects = (out.objects + si.objectCount) % 2 ^ 16 ∨
      si.objectCount = 0 ∧ (out.tally si).objects = out.objects := by
  unfold InspectBucket.tally InspectSlot.objectCount
  cases si.state
  . cases si.segment
    . exact .inl rfl
    . exact .inr ⟨rfl, rfl⟩
  all_goals exact .inr ⟨rfl, rfl⟩

-- The walk leaves alone what it was not asked to measure.
theorem foldl_tally_fixed (slots : List InspectSlot) (out : InspectBucket) :
    (slots.foldl InspectBucket.tally out).formatted = out.formatted ∧
      (slots.foldl InspectBucket.tally out).gen = out.gen ∧
      (slots.foldl InspectBucket.tally out).capacity = out.capacity := by
  induction slots generalizing out with
  | nil => exact ⟨rfl, rfl, rfl⟩
  | cons si slots ih =>
    rw [List.foldl_cons]
    have hsame : (out.tally si).formatted = out.formatted ∧ (out.tally si).gen = out.gen ∧
        (out.tally si).capacity = out.capacity := by
      unfold InspectBucket.tally
      cases si.state <;> exact ⟨rfl, rfl, rfl⟩
    obtain ⟨h1, h2, h3⟩ := ih (out.tally si)
    exact ⟨h1.trans hsame.1, h2.trans hsame.2.1, h3.trans hsame.2.2⟩

theorem Path.sum_size (h : Path cfg f off es fin) : off + (es.map (Entry.size cfg)).sum = fin := by
  induction h with
  | nil off => rfl
  | cons hw rest ih => rw [List.map_cons, List.sum_cons, ← ih]; omega

theorem Entry.state_live (x : Entry) (later : Bool) :
    x.state later = .live ↔ (x.intact && (!x.tombstone && !later)) = true := by
  unfold Entry.state
  cases x.intact <;> cases x.tombstone <;> cases later <;> simp

-- The slots are as long and lie as far up as 32 bits can tell.
def Measured (cfg : Cfg) (es : List Entry) : Prop := ∀ x ∈ es, x.off + x.size cfg < 2 ^ 32

theorem Measured.head {x : Entry} (h : Measured cfg (x :: es)) (later : Bool) :
    (x.report cfg later).size = x.size cfg ∧ (x.report cfg later).offset = x.off := by
  have := h x List.mem_cons_self
  exact ⟨Nat.mod_eq_of_lt (by omega), Nat.mod_eq_of_lt (by omega)⟩

theorem Measured.tail {x : Entry} (h : Measured cfg (x :: es)) : Measured cfg es :=
  fun y hy => h y (List.mem_cons_of_mem _ hy)

theorem Path.measured (h : Path cfg f off es fin) (hfin : fin < 2 ^ 32) : Measured cfg es := by
  intro x hx
  have := h.mem hx
  omega

-- The inspection and the compaction judge alike which slots are live.
theorem survivors_cons (x : Entry) (es : List Entry) :
    survivors (x :: es) =
      if x.state (newest x.head.id es).isSome = .live then x :: survivors es else survivors es := by
  rw [survivors]
  simp only [x.state_live, Option.not_isSome]

theorem sum_liveSize (h : Measured cfg es) :
    ((reports cfg es).map InspectSlot.liveSize).sum = ((survivors es).map (Entry.size cfg)).sum := by
  induction es with
  | nil => rfl
  | cons x es ih =>
    rw [reports, List.map_cons, List.sum_cons, ih h.tail, survivors_cons, InspectSlot.liveSize,
      (h.head _).1]
    show (if x.state _ = .live then _ else _) + _ = _
    split
    . rfl
    . exact Nat.zero_add _

theorem sum_sizes (h : Measured cfg es) :
    ((reports cfg es).map InspectSlot.liveSize).sum +
      ((reports cfg es).map InspectSlot.garbageSize).sum = (es.map (Entry.size cfg)).sum := by
  induction es with
  | nil => rfl
  | cons x es ih =>
    have hone : (x.report cfg (newest x.head.id es).isSome).liveSize +
        (x.report cfg (newest x.head.id es).isSome).garbageSize = x.size cfg := by
      rw [InspectSlot.liveSize, InspectSlot.garbageSize, (h.head _).1]
      split <;> omega
    have hrest := ih h.tail
    simp only [reports, List.map_cons, List.sum_cons]
    omega

theorem sum_objectCount (es : List Entry) :
    ((reports cfg es).map InspectSlot.objectCount).sum = (shown cfg es).length := by
  induction es with
  | nil => rfl
  | cons x es ih =>
    have hone : (x.report cfg (newest x.head.id es).isSome).objectCount =
        if x.state (newest x.head.id es).isSome = .live ∧ x.internal cfg = false then 1 else 0 := rfl
    have hshown : shown cfg (x :: es) =
        if x.state (newest x.head.id es).isSome = .live ∧ x.internal cfg = false then
          x :: shown cfg es
        else shown cfg es := by
      rw [shown, survivors_cons]
      by_cases hl : x.state (newest x.head.id es).isSome = .live
      . cases hi : x.internal cfg <;> simp [hl, hi, shown]
      . simp [hl, shown]
    rw [reports, List.map_cons, List.sum_cons, ih, hone, hshown]
    split
    . rw [List.length_cons, Nat.add_comm]
    . exact Nat.zero_add _

-- The live slots, byte for byte.
theorem live_raw (h : Measured cfg es) :
    ((reports cfg es).filter fun si => si.state = .live).flatMap
      (fun si => bytesAt f si.offset si.size) = rawSlots cfg f (survivors es) := by
  induction es with
  | nil => rfl
  | cons x es ih =>
    rw [reports, List.filter_cons, survivors_cons]
    show List.flatMap _ (if decide (x.state _ = .live) = true then _ else _) = _
    simp only [decide_eq_true_eq]
    split
    . rw [List.flatMap_cons, ih h.tail, (h.head _).1, (h.head _).2]
      rfl
    . exact ih h.tail

/-! One bucket -/

theorem programmedEnd_le (f : Sector) (cursor n : Nat) : programmedEnd f cursor n ≤ n := by
  induction n with
  | zero => exact Nat.le_refl _
  | succ e ih =>
    rw [programmedEnd]
    split
    . omega
    . exact Nat.le_refl _

theorem programmedEnd_ge (f : Sector) {cursor n : Nat} (h : cursor ≤ n) :
    cursor ≤ programmedEnd f cursor n := by
  induction n with
  | zero => exact h
  | succ e ih =>
    rw [programmedEnd]
    split
    . next hgo => exact ih (by omega)
    . exact h

-- The figures add up, and the live bytes are what a compaction keeps.
structure Accounted (cfg : Cfg) (f : Sector) (bid : Nat) (out : InspectBucket)
    (slots : List InspectSlot) : Prop where
  formatted : out.formatted = true
  gen : out.gen = leAt f 8 4
  capacity : out.capacity = cfg.pebSize - bucketDataOff
  -- in natural numbers: none of the subtractions wraps
  total : out.liveBytes + out.garbageBytes + out.tailBytes + out.freeBytes = out.capacity
  compacted : ∃ buf stop,
    buildCompactedImage cfg f bid = (buf, out.liveBytes + bucketDataOff, stop) ∧
      bytesAt buf 0 (out.liveBytes + bucketDataOff) = bucketHdrBytes bid (out.gen + 1) ++
        (slots.filter fun si => si.state = .live).flatMap fun si => bytesAt f si.offset si.size
  objects : out.objects = (shown cfg (bucketEntries cfg f)).length

theorem survivors_length_le (es : List Entry) : (survivors es).length ≤ es.length := by
  induction es with
  | nil => exact Nat.le_refl _
  | cons x es ih =>
    rw [survivors, List.length_cons]
    split
    . rw [List.length_cons]
      omega
    . omega

theorem u32Sub_eq {a b : Nat} (ha : a < 2 ^ 32) (hb : b ≤ a) : u32Sub a b = a - b := by
  rw [u32Sub, u32, show a + 2 ^ 32 - b = a - b + 2 ^ 32 by omega, Nat.add_mod_right]
  exact Nat.mod_eq_of_lt (by omega)

theorem rawSlots_length (cfg : Cfg) (f : Sector) (es : List Entry) :
    (rawSlots cfg f es).length = (es.map (Entry.size cfg)).sum := by
  induction es with
  | nil => rfl
  | cons x es ih =>
    have hraw : rawSlots cfg f (x :: es) = x.raw cfg f ++ rawSlots cfg f es := rfl
    rw [hraw, List.length_append, ih, Entry.raw, bytesAt_length, List.map_cons, List.sum_cons]

-- The figures of a walk over the log `es` that ends at `fin`.
theorem accounted (hv : cfg.Valid) (hl : BucketLog cfg f es fin) (bid : Nat) :
    Accounted cfg f bid
      (let out := (reports cfg es).foldl InspectBucket.tally
        { freshInspect (u32 (cfg.pebSize - bucketDataOff)) with formatted := true, gen := leAt f 8 4 }
      let tail := u32 (programmedEnd f fin cfg.pebSize - fin)
      { out with
        tailBytes := tail
        freeBytes := u32Sub (u32Sub (u32Sub (u32 (cfg.pebSize - bucketDataOff)) out.liveBytes)
          out.garbageBytes) tail })
      (reports cfg es) := by
  have hpeb : cfg.pebSize ≤ 65536 := hv.buf.trans cfg.sector_range.2
  have hlength := hl.length_lt hv
  have hshown : (shown cfg es).length ≤ es.length :=
    (List.length_filter_le _ _).trans (survivors_length_le es)
  have hdata := bucketDataOff_le hv
  have hfin := hl.path.fin_le hdata
  have hmeasured : Measured cfg es := hl.path.measured (by omega)
  have hsum := hl.path.sum_size
  have hsizes := sum_sizes hmeasured
  have hlive := sum_liveSize hmeasured
  have hcap : u32 (cfg.pebSize - bucketDataOff) = cfg.pebSize - bucketDataOff :=
    Nat.mod_eq_of_lt (by omega)
  have hend := programmedEnd_le f fin cfg.pebSize
  have hge := programmedEnd_ge f hfin
  rw [hcap]
  generalize hbase : ({ freshInspect (cfg.pebSize - bucketDataOff) with
    formatted := true, gen := leAt f 8 4 } : InspectBucket) = base
  obtain ⟨hformatted, hgen, hcapacity⟩ := foldl_tally_fixed (reports cfg es) base
  have h1 := foldl_tally (m := 2 ^ 32) liveBytes_tally (reports cfg es) base
    (by rw [← hbase]; show 0 + _ < _; omega)
  have h2 := foldl_tally (m := 2 ^ 32) garbageBytes_tally (reports cfg es) base
    (by rw [← hbase]; show 0 + _ < _; omega)
  have h3 := foldl_tally (m := 2 ^ 16) objects_tally (reports cfg es) base
    (by rw [← hbase, sum_objectCount]; show 0 + _ < _; omega)
  rw [sum_objectCount] at h3
  generalize (reports cfg es).foldl InspectBucket.tally base = out at hformatted hgen hcapacity h1 h2 h3
  subst hbase
  simp only [freshInspect, Nat.zero_add] at hformatted hgen hcapacity h1 h2 h3
  have htail : u32 (programmedEnd f fin cfg.pebSize - fin) = programmedEnd f fin cfg.pebSize - fin :=
    Nat.mod_eq_of_lt (by omega)
  have hfree : u32Sub (u32Sub (u32Sub (cfg.pebSize - bucketDataOff) out.liveBytes) out.garbageBytes)
      (programmedEnd f fin cfg.pebSize - fin) =
      cfg.pebSize - bucketDataOff - out.liveBytes - out.garbageBytes -
        (programmedEnd f fin cfg.pebSize - fin) := by
    have hlivefree := u32Sub_eq (a := cfg.pebSize - bucketDataOff) (b := out.liveBytes)
      (by omega) (by omega)
    have hgarbage := u32Sub_eq (a := cfg.pebSize - bucketDataOff - out.liveBytes)
      (b := out.garbageBytes) (by omega) (by omega)
    rw [hlivefree, hgarbage, u32Sub_eq (by omega) (by omega)]
  obtain ⟨buf, len, hbuild, -, -, hbytes, -⟩ := buildCompactedImage_spec hv hl bid
  have hlen : len = out.liveBytes + bucketDataOff := by
    have := congrArg List.length hbytes
    rw [bytesAt_length, List.length_append, bucketHdrBytes_length, rawSlots_length] at this
    omega
  refine ⟨hformatted, hgen, hcapacity, ?_, ⟨buf, fin, ?_, ?_⟩, ?_⟩
  . simp only [htail, hfree, hcapacity]
    omega
  . show buildCompactedImage cfg f bid = (buf, out.liveBytes + bucketDataOff, fin)
    rw [hbuild, hlen]
  . show bytesAt buf 0 (out.liveBytes + bucketDataOff) = bucketHdrBytes bid (out.gen + 1) ++ _
    rw [← hlen, hbytes, hgen, live_raw hmeasured]
  . show out.objects = _
    rw [h3, hl.entries hv]

theorem bucketGetImpl_spec (hv : cfg.Valid) {w : World} (hm : w.st.mounted = true)
    (hr : w.readFaults.headD false = false) (hbid : bid < cfg.nBuckets)
    (hh : bucketHdrValid (w.flash (bucketSector bid)) bid = true) :
    ∃ out, Accounted cfg (w.flash (bucketSector bid)) bid out
        (reports cfg (bucketEntries cfg (w.flash (bucketSector bid)))) ∧
      ∀ (σ : Type) (cb : Option (InspectCb σ)) (user : σ), NeverAborts cb →
        (bucketGetImpl cfg bid cb user w).1 = .ok (0, out,
          collected cb user (reports cfg (bucketEntries cfg (w.flash (bucketSector bid))))) := by
  obtain ⟨es, fin, hl⟩ := exists_bucketLog cfg (w.flash (bucketSector bid))
  rw [hl.entries hv]
  refine ⟨_, accounted hv hl bid, fun σ cb user hcb => ?_⟩
  have hread : readBucket bid w =
      (.ok (w.flash (bucketSector bid)), { w with readFaults := w.readFaults.tail }) := by
    show (if w.readFaults.headD false then _ else _, _) = _
    rw [hr]
    rfl
  have hwalk := inspectFrom_eq hcb hl.path hl.stop (hl.length_lt hv) (hl.length_lt hv)
  unfold bucketGetImpl
  rw [Proc.bind_ok (show getSt w = (.ok w.st, w) from rfl), hm]
  simp only [Bool.not_true, Bool.false_eq_true, if_false, Nat.not_le.mpr hbid]
  rw [Proc.bind_ok hread, hh]
  simp only [Bool.not_true, Bool.false_eq_true, if_false, hwalk, ne_eq, not_true_eq_false]
  rfl

/-! All buckets -/

-- The objects of `n` buckets from `bid` on, as a count finds them.
def objectsFrom (cfg : Cfg) (fl : Flash) : Nat → Nat → Nat
  | 0, _ => 0
  | n + 1, bid =>
    let f := fl (bucketSector bid)
    (if bucketHdrValid f bid then (shown cfg (bucketEntries cfg f)).length else 0) +
      objectsFrom cfg fl n (bid + 1)

theorem headD_of_readsSucceed {w : World} (hr : ReadsSucceed w) :
    w.readFaults.headD false = false := by
  cases hw : w.readFaults with
  | nil => rfl
  | cons b bs => exact hr b (by simp [hw])

theorem countFrom_spec (hv : cfg.Valid) (fl : Flash) (n bid total : Nat) (buf : Sector) :
    Spec ⟨fun _ => True, fun _ h => h⟩ (fun w => w.flash = fl ∧ ReadsSucceed w)
      (countFrom cfg n bid total buf)
      ⟨fun r _ => r.1 = total + objectsFrom cfg fl n bid, fun _ _ => False, fun _ => False⟩ := by
  induction n generalizing bid total buf with
  | zero => exact Spec.ret fun _ _ => rfl
  | succ n ih =>
    rintro w ⟨rfl, hr⟩ -
    have hhead := headD_of_readsSucceed hr
    have hread : ({ w with readFaults := w.readFaults.tail } : World).flash = w.flash ∧
        ReadsSucceed { w with readFaults := w.readFaults.tail } :=
      ⟨rfl, fun b hb => hr b (List.mem_of_mem_tail hb)⟩
    rw [countFrom, Proc.bind_ok (attempt_readBucket bid w), hhead, objectsFrom]
    simp only [Bool.false_eq_true, if_false]
    cases hh : bucketHdrValid (w.flash (bucketSector bid)) bid with
    | false =>
      simp only [Bool.not_false, if_true, Bool.false_eq_true, if_false, Nat.zero_add]
      exact ih (bid + 1) total _ _ hread trivial
    | true =>
      simp only [Bool.not_true, Bool.false_eq_true, if_false, if_true]
      obtain ⟨es, fin, hl⟩ := exists_bucketLog cfg (w.flash (bucketSector bid))
      rw [hl.entries hv]
      have hwalk := (@forEachLiveSlot_spec cfg (w.flash (bucketSector bid)) _ _ _ _ _ countVisitor ⟨fun _ => True, fun _ h => h⟩ (fun rest user w' => user + rest.length = total + (shown cfg es).length ∧
          w'.flash = w.flash ∧ ReadsSucceed w') (fun _ _ => False) (fun _ => False)) ?_ hl.path hl.stop (hl.length_lt hv) (hl.length_lt hv)
        total fun _ _ => rfl
      . have hcount : ∀ r : Int × Nat × Sector, Spec ⟨fun _ => True, fun _ h => h⟩
            (fun w' => r.1 = 0 ∧ r.2.1 + 0 = total + (shown cfg es).length ∧
              w'.flash = w.flash ∧ ReadsSucceed w')
            (countFrom cfg n (bid + 1) r.2.1 r.2.2)
            ⟨fun r _ => r.1 = total + ((shown cfg es).length + objectsFrom cfg w.flash n (bid + 1)),
              fun _ _ => False, fun _ => False⟩ := by
          rintro ⟨r, total', buf'⟩ s ⟨_, hsum, hs⟩ hh
          have hsum : total' + 0 = total + (shown cfg es).length := hsum
          have hrest := ih (bid + 1) total' buf' s hs hh
          rw [show total + ((shown cfg es).length + objectsFrom cfg w.flash n (bid + 1)) =
            total' + objectsFrom cfg w.flash n (bid + 1) by omega]
          exact hrest
        exact hwalk.bind hcount (fun _ _ h => h) (fun _ h => h) _ ⟨rfl, hread⟩ trivial
      . intro x rest user buf hbuf
        refine Spec.ret fun w' ⟨hsum, hw⟩ => ⟨rfl, fun j hj => hbuf j (by omega), ?_, hw⟩
        show user + 1 + rest.length = _
        rw [List.length_cons] at hsum
        omega

-- What the inspection says of a bucket, in the words of a count.
theorem objectsOf_eq (hv : cfg.Valid) {w : World} (hm : w.st.mounted = true) (hr : ReadsSucceed w)
    (hbid : bid < cfg.nBuckets) :
    objectsOf cfg w bid =
      if bucketHdrValid (w.flash (bucketSector bid)) bid then
        (shown cfg (bucketEntries cfg (w.flash (bucketSector bid)))).length
      else 0 := by
  have hhead := headD_of_readsSucceed hr
  cases hh : bucketHdrValid (w.flash (bucketSector bid)) bid with
  | true =>
    obtain ⟨out, hacc, hrun⟩ := bucketGetImpl_spec hv hm hhead hbid hh
    rw [objectsOf, hrun Unit none () nofun, if_pos rfl]
    exact hacc.objects
  | false =>
    have hread : readBucket bid w =
        (.ok (w.flash (bucketSector bid)), { w with readFaults := w.readFaults.tail }) := by
      show (if w.readFaults.headD false then _ else _, _) = _
      rw [hhead]
      rfl
    unfold objectsOf bucketGetImpl
    rw [Proc.bind_ok (show getSt w = (.ok w.st, w) from rfl), hm]
    simp only [Bool.not_true, Bool.false_eq_true, if_false, Nat.not_le.mpr hbid]
    rw [Proc.bind_ok hread, hh]
    rfl

theorem objectsFrom_eq (hv : cfg.Valid) {w : World} (hm : w.st.mounted = true)
    (hr : ReadsSucceed w) {n bid : Nat} (h : bid + n ≤ cfg.nBuckets) :
    objectsFrom cfg w.flash n bid = ((List.range' bid n).map (objectsOf cfg w)).sum := by
  induction n generalizing bid with
  | zero => rfl
  | succ n ih =>
    rw [objectsFrom, ih (by omega), List.range'_succ, List.map_cons, List.sum_cons,
      objectsOf_eq hv hm hr (by omega)]

-- Three walks that agree. The figures of a bucket add up to what it can hold, its live slots are the
-- ones a compaction keeps, and the objects of all buckets are as many as a count finds.
theorem inspect_accounting (hv : cfg.storeOpenAndValidate = .ok ()) {w : World}
    (hm : w.st.mounted = true) (hr : ReadsSucceed w) :
    (∀ bid < cfg.nBuckets, bucketHdrValid (w.flash (bucketSector bid)) bid = true →
      ∃ out slots, Accounted cfg (w.flash (bucketSector bid)) bid out slots ∧
        ∀ (σ : Type) (cb : Option (InspectCb σ)) (user : σ), NeverAborts cb →
          (bucketGetImpl cfg bid cb user w).1 = .ok (0, out, collected cb user slots)) ∧
    ∀ buf, ∃ buf', (countImpl cfg buf w).1 =
      .ok (((List.range cfg.nBuckets).map (objectsOf cfg w)).sum, buf') := by
  have hvalid := Cfg.valid_of_validate hv
  constructor
  . intro bid hbid hh
    obtain ⟨out, hacc, hrun⟩ := bucketGetImpl_spec hvalid hm (headD_of_readsSucceed hr) hbid hh
    exact ⟨out, _, hacc, hrun⟩
  . intro buf
    have hcount := countFrom_spec hvalid w.flash cfg.nBuckets 0 0 buf w ⟨rfl, hr⟩ trivial
    rw [objectsFrom_eq hvalid hm hr (by omega), ← List.range_eq_range', Nat.zero_add] at hcount
    unfold countImpl
    rw [Proc.bind_ok (show getSt w = (.ok w.st, w) from rfl), hm]
    simp only [Bool.not_true, Bool.false_eq_true, if_false]
    generalize countFrom cfg cfg.nBuckets 0 0 buf w = r at hcount
    obtain ⟨o, w'⟩ := r
    cases o with
    | ok x =>
      obtain ⟨total, buf'⟩ := x
      have htotal : total = _ := hcount
      exact ⟨buf', by rw [htotal]⟩
    | err e => exact hcount.elim
    | cut => exact hcount.elim

end

-- A store whose one bucket has slots of each kind.
def wornStore : World :=
  { World.fresh (fun s => if s = bucketSector 0 then wornBucket else blankFlash s) with
    st := { St.boot with mounted := true } }

theorem inspect_accounting_worn :
    (bucketGetImpl smallDevice 0 none () wornStore).1 =
      .ok (0, ⟨true, 1, 240, 20, 3, 52, 0, 168, 1, 0, 1, 1, 1⟩, ()) ∧
    (∃ out slots, Accounted smallDevice wornBucket 0 out slots ∧
      ∀ (σ : Type) (cb : Option (InspectCb σ)) (user : σ), NeverAborts cb →
        (bucketGetImpl smallDevice 0 cb user wornStore).1 = .ok (0, out, collected cb user slots)) ∧
    ∃ buf', (countImpl smallDevice blank wornStore).1 =
      .ok (((List.range smallDevice.nBuckets).map (objectsOf smallDevice wornStore)).sum, buf') := by
  have hvalid : smallDevice.storeOpenAndValidate = .ok () := by decide
  obtain ⟨hbuckets, hcount⟩ := inspect_accounting hvalid (w := wornStore) rfl nofun
  exact ⟨by decide +kernel, hbuckets 0 (by decide) (by decide +kernel), hcount blank⟩

end KeyValueDb.BlobDb
