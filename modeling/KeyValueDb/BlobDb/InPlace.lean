import KeyValueDb.BlobDb.Lookup
import KeyValueDb.BlobDb.System

/-!
The image a compaction leaves in its one buffer: the header, then the slots that survive, byte for
byte and in their old order. The lookup that walks a bucket gives the same answers on it as on the
image it was made from.
-/

namespace KeyValueDb.BlobDb

variable (cfg : Cfg)

-- Where the log of a bucket image ends.
def logEnd (f : Sector) : Nat := logEndFrom cfg f cfg.pebSize bucketDataOff

-- An intact slot of the same id, later in the log.
def Entry.follows (x y : Entry) : Bool :=
  decide (x.off < y.off) && (y.intact && y.head.id == x.head.id)

-- The slots that are neither rotten nor tombstones and that no intact slot of their id follows.
def keptSlots (es : List Entry) : List Entry :=
  es.filter fun x => x.intact && (!x.tombstone && !es.any x.follows)

-- What a lookup says of an id: the header and the payload of its live slot.
def LiveSlot.answer (live : LiveSlot) : SlotHead × List UInt8 := (live.head, live.payload)

-- Lookups of `id` in two buckets both come back, and with the same answer.
def SameAnswer (learn : Bool) (bid id : Nat) (w w' : World) : Prop :=
  ∃ found found', (walkLiveSlot cfg bid id learn w).1 = .ok found ∧
    (walkLiveSlot cfg bid id learn w').1 = .ok found' ∧
    found.live.map LiveSlot.answer = found'.live.map LiveSlot.answer

def ReadsSucceed (w : World) : Prop := ∀ b ∈ w.readFaults, b = false

section

variable {cfg : Cfg} {f : Sector} {off fin : Nat} {es : List Entry}

theorem newest_isNone (id : Nat) (es : List Entry) :
    (newest id es).isNone = !es.any fun y => y.intact && y.head.id == id := by
  rw [Bool.eq_iff_iff, Option.isNone_iff_eq_none, newest, lastSat_none]
  simp

theorem keptSlots_cons (h : Path cfg f off es fin) (x : Entry) (hx : x.off < off) :
    keptSlots (x :: es) =
      if x.intact && (!x.tombstone && (newest x.head.id es).isNone) then x :: keptSlots es
      else keptSlots es := by
  have hlater : ∀ y ∈ es, x.off < y.off := fun y hy => Nat.lt_of_lt_of_le hx (h.mem hy).1
  have hself : (x :: es).any x.follows = !(newest x.head.id es).isNone := by
    rw [newest_isNone, Bool.not_not, List.any_cons]
    have hx0 : x.follows x = false := by simp [Entry.follows]
    rw [hx0, Bool.false_or, Bool.eq_iff_iff, List.any_eq_true, List.any_eq_true]
    constructor
    . rintro ⟨y, hy, hf⟩
      exact ⟨y, hy, (Bool.and_eq_true _ _ ▸ hf).2⟩
    . rintro ⟨y, hy, hf⟩
      exact ⟨y, hy, by rw [Entry.follows, hf]; simp [hlater y hy]⟩
  -- the head is no later than any slot of the rest
  have hrest : es.filter (fun y => y.intact && (!y.tombstone && !(x :: es).any y.follows)) =
      keptSlots es := by
    apply List.filter_congr
    intro y hy
    have := hlater y hy
    have hxy : y.follows x = false := by simp [Entry.follows, Nat.not_lt.mpr (Nat.le_of_lt this)]
    rw [List.any_cons, hxy, Bool.false_or]
  rw [keptSlots, List.filter_cons, hself, Bool.not_not, hrest]

theorem survivors_eq (h : Path cfg f off es fin) : survivors es = keptSlots es := by
  induction h with
  | nil off => rfl
  | @cons off fin es hw rest ih =>
    have hsize := (entryAt f off).size_ge cfg
    unfold slotOverhead at hsize
    have hlt : (entryAt f off).off < off + (entryAt f off).size cfg := by
      show off < _
      omega
    rw [keptSlots_cons rest _ hlt, survivors, ih]

theorem BucketLog.logEnd (h : BucketLog cfg f es fin) (hv : cfg.Valid) :
    BlobDb.logEnd cfg f = fin :=
  h.path.logEndFrom h.stop (h.length_lt hv)

/-! Lookups on both images -/

theorem readsSucceed_stable : Stable ReadsSucceed := by
  intro w w' q h b hb
  exact h b (List.IsSuffix.subset q.reads hb)

-- Where no read fails a walk of the bucket answers from its newest intact slot.
theorem walkLiveSlot_ok {w : World} {bid : Nat} (hv : cfg.Valid) (hr : ReadsSucceed w) (id : Nat)
    (learn : Bool) (hl : BucketLog cfg (w.flash (bucketSector bid)) es fin)
    (hf : slotForeignAt cfg (w.flash (bucketSector bid)) fin = false) :
    ∃ found, (walkLiveSlot cfg bid id learn w).1 = .ok found ∧
      found.live = (newest id es).bind Entry.liveSlot := by
  have hfails : FailsTo ReadsSucceed fun _ => False := by
    intro w h hfault
    cases hw : w.readFaults with
    | nil => simp [hw] at hfault
    | cons b bs =>
      have hb := h b (by simp [hw])
      simp [hw, hb] at hfault
  have hspec := (@walkLiveSlot_tells _ (fun _ => True) _ (fun _ => False))
    readsSucceed_stable hfails hv id learn hl w ⟨hr, rfl⟩ fun _ _ => trivial
  generalize walkLiveSlot cfg bid id learn w = r at hspec
  obtain ⟨o, w'⟩ := r
  cases o with
  | ok found => exact ⟨found, rfl, hspec.1.1.live⟩
  | err e =>
    rcases hspec.1 with ⟨-, h⟩ | ⟨h, -⟩
    . rw [hf] at h
      cases h
    . exact h.elim
  | cut => exact hspec.elim

def answerOf (x : Option Entry) : Option (SlotHead × List UInt8) :=
  (x.bind Entry.liveSlot).map LiveSlot.answer

theorem answerOf_some (x : Entry) :
    answerOf (some x) = if x.tombstone then none else some (x.head, x.payload) := by
  simp only [answerOf, Entry.liveSlot, Option.bind_some]
  split <;> rfl

theorem answerOf_unplaced (x : Option Entry) :
    answerOf x = answerOf (x.map fun x => { x with off := 0 }) := by
  cases x with
  | none => rfl
  | some x =>
    rw [Option.map_some, answerOf_some, answerOf_some]
    rfl

theorem answerOf_live (x : Option Entry) : answerOf (x.filter fun x => !x.tombstone) = answerOf x := by
  cases x with
  | none => rfl
  | some x =>
    cases ht : x.tombstone with
    | false => simp [Option.filter, ht]
    | true => simp [Option.filter, ht, answerOf, Entry.liveSlot]

-- A compaction does not change what a lookup says.
theorem answerOf_compacted (id off : Nat) (es : List Entry) :
    answerOf (newest id (repack cfg off (survivors es))) = answerOf (newest id es) := by
  rw [answerOf_unplaced, newest_repack, ← answerOf_unplaced, newest_survivors, answerOf_live]

-- Nothing follows the log of a compacted image, so it does not end at a foreign slot.
theorem Clean.not_foreign (h : Clean cfg f fin) : slotForeignAt cfg f fin = false := by
  unfold slotForeignAt
  split
  . rfl
  . next hroom =>
    unfold slotOverhead at hroom
    have herased := h fin (Nat.le_refl _) (by omega)
    simp [slotForeignHead, slotHdrAt, herased]

-- Compaction is correct in place. Whatever a bucket holds, as long as its log does not end at a slot
-- of a newer build, the one buffer ends up with the header of the next generation and the slots that
-- count, in their old order; from where the log ended it is as it was; and no lookup of any id can
-- tell the compacted bucket from the old one.
theorem buildCompactedImage_in_place (hv : cfg.storeOpenAndValidate = .ok ()) (f : Sector) (bid : Nat)
    (hf : slotForeignAt cfg f (logEnd cfg f) = false) :
    ∃ buf len, buildCompactedImage cfg f bid = (buf, len, logEnd cfg f) ∧
      bytesAt buf 0 len = bucketHdrBytes bid (leAt f 8 4 + 1) ++
        rawSlots cfg f (keptSlots (bucketEntries cfg f)) ∧
      (∀ j, logEnd cfg f ≤ j → buf j = f j) ∧
      ∀ id learn w w', ReadsSucceed w → ReadsSucceed w' → w.flash (bucketSector bid) = f →
        w'.flash (bucketSector bid) = image (bytesAt buf 0 len) →
          SameAnswer cfg learn bid id w w' := by
  have hvalid := Cfg.valid_of_validate hv
  obtain ⟨es, fin, hl⟩ := exists_bucketLog cfg f
  rw [hl.logEnd hvalid] at hf ⊢
  rw [hl.entries hvalid, ← survivors_eq hl.path]
  obtain ⟨buf, len, hb, hlog, hclean, hbytes, hhigh⟩ := buildCompactedImage_spec hvalid hl bid
  refine ⟨buf, len, hb, hbytes, hhigh, ?_⟩
  intro id learn w w' hr hr' hw hw'
  have hlw : BucketLog cfg (w.flash (bucketSector bid)) es fin := by rw [hw]; exact hl
  have hlw' : BucketLog cfg (w'.flash (bucketSector bid)) (repack cfg bucketDataOff (survivors es)) len := by
    rw [hw']
    exact hlog
  obtain ⟨found, hfound, hlive⟩ := walkLiveSlot_ok hvalid hr id learn hlw (by rw [hw]; exact hf)
  obtain ⟨found', hfound', hlive'⟩ := walkLiveSlot_ok hvalid hr' id learn hlw'
    (by rw [hw']; exact hclean.not_foreign)
  refine ⟨found, found', hfound, hfound', ?_⟩
  rw [hlive, hlive']
  exact (answerOf_compacted id bucketDataOff es).symm

end

-- Two values of one id, a tombstone of another, and a slot whose checksum does not verify.
def wornBucket : Sector :=
  image (bucketHdrBytes 0 1 ++ (slotImage smallDevice slotSealed 5 [1, 2, 3] ++
    (slotImage smallDevice (slotSealed ||| slotTombstone) 6 [] ++
    (slotImage smallDevice slotSealed 5 [4, 5, 6] ++
    (slotHeadBytes slotSealed 5 2 ++ [7, 8, 0, 0])))))

theorem buildCompactedImage_in_place_worn :
    (keptSlots (bucketEntries smallDevice wornBucket)).map (fun x => (x.off, x.payload)) =
      [(52, [4, 5, 6])] ∧
    ∃ buf len, buildCompactedImage smallDevice wornBucket 0 = (buf, len, logEnd smallDevice wornBucket) ∧
      bytesAt buf 0 len = bucketHdrBytes 0 (leAt wornBucket 8 4 + 1) ++
        rawSlots smallDevice wornBucket (keptSlots (bucketEntries smallDevice wornBucket)) ∧
      (∀ j, logEnd smallDevice wornBucket ≤ j → buf j = wornBucket j) ∧
      ∀ id learn w w', ReadsSucceed w → ReadsSucceed w' → w.flash (bucketSector 0) = wornBucket →
        w'.flash (bucketSector 0) = image (bytesAt buf 0 len) →
          SameAnswer smallDevice learn 0 id w w' :=
  ⟨by decide +kernel, buildCompactedImage_in_place (by decide) wornBucket 0 (by decide +kernel)⟩

end KeyValueDb.BlobDb
